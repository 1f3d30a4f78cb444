import ScriptLang.Proofs.Unification
import Mathlib.Data.List.Sort

/-!
# The order of types

The structural order of types is total and strict. So the list that stands for a set of candidates
is determined by the members of the set: it does not matter in which order the candidates were
found, nor how often.
-/

namespace ScriptLang

variable {as ts us : List Ty} {a b : Ty}

namespace Ty

/-! ## Induction -/

mutual
/-- Induction over types, with the parts of a type given as members of lists. -/
@[elab_as_elim]
protected theorem induction {P : Ty → Prop} (basic : ∀ name, P (.basic name))
    (fn : ∀ params ret, (∀ t ∈ params, P t) → P ret → P (.fn params ret))
    (variant : ∀ alts, (∀ t ∈ alts, P t) → P (.variant alts)) (unknown : P .unknown) :
    ∀ t : Ty, P t
  | .basic name => basic name
  | .fn params ret =>
    fn params ret (inductionAll basic fn variant unknown params)
      (Ty.induction basic fn variant unknown ret)
  | .variant alts => variant alts (inductionAll basic fn variant unknown alts)
  | .unknown => unknown
private theorem inductionAll {P : Ty → Prop} (basic : ∀ name, P (.basic name))
    (fn : ∀ params ret, (∀ t ∈ params, P t) → P ret → P (.fn params ret))
    (variant : ∀ alts, (∀ t ∈ alts, P t) → P (.variant alts)) (unknown : P .unknown) :
    ∀ ts : List Ty, ∀ t ∈ ts, P t
  | [] => List.forall_mem_nil P
  | u :: us => List.forall_mem_cons.mpr
    ⟨Ty.induction basic fn variant unknown u, inductionAll basic fn variant unknown us⟩
end

/-! ## A strict total order -/

theorem cmpAll_swap (h : ∀ a ∈ as, ∀ b, cmp b a = (cmp a b).swap) (bs : List Ty) :
    cmpAll bs as = (cmpAll as bs).swap := by
  induction as generalizing bs with
  | nil => cases bs <;> rfl
  | cons a as ih =>
    cases bs with
    | nil => rfl
    | cons b bs =>
      have ih := ih (fun a ha => h a (List.mem_cons_of_mem _ ha)) bs
      rw [cmpAll, cmpAll, Ordering.swap_then, h a List.mem_cons_self, ih]

theorem cmp_swap (a b : Ty) : cmp b a = (cmp a b).swap := by
  induction a using Ty.induction generalizing b with
  | basic m =>
    cases b with
    | basic n => exact Std.OrientedOrd.eq_swap
    | _ => rfl
  | fn ps r ihs ih =>
    cases b with
    | fn qs s => rw [cmp, cmp, Ordering.swap_then, cmpAll_swap ihs, ih]
    | _ => rfl
  | variant as ihs =>
    cases b with
    | variant bs => rw [cmp, cmp, cmpAll_swap ihs]
    | _ => rfl
  | unknown => cases b <;> rfl

theorem cmpAll_cons_lt {bs : List Ty} :
    cmpAll (a :: as) (b :: bs) = .lt ↔ cmp a b = .lt ∨ a = b ∧ cmpAll as bs = .lt := by
  rw [cmpAll, Ordering.then_eq_lt, cmp_eq_iff]

theorem cmpAll_trans {bs cs : List Ty}
    (h : ∀ a ∈ as, ∀ b c, cmp a b = .lt → cmp b c = .lt → cmp a c = .lt) (hab : cmpAll as bs = .lt)
    (hbc : cmpAll bs cs = .lt) : cmpAll as cs = .lt := by
  induction as generalizing bs cs with
  | nil =>
    cases cs with
    | nil => cases bs <;> simp [cmpAll] at hbc
    | cons c cs => rfl
  | cons a as ih =>
    cases bs with
    | nil => simp [cmpAll] at hab
    | cons b bs =>
      cases cs with
      | nil => simp [cmpAll] at hbc
      | cons c cs =>
        rw [cmpAll_cons_lt] at hab hbc ⊢
        have ih := @ih bs cs fun a ha => h a (List.mem_cons_of_mem _ ha)
        rcases hab with hab | ⟨rfl, hab⟩
        · rcases hbc with hbc | ⟨rfl, hbc⟩
          · exact Or.inl (h a List.mem_cons_self b c hab hbc)
          · exact Or.inl hab
        · rcases hbc with hbc | ⟨rfl, hbc⟩
          · exact Or.inl hbc
          · exact Or.inr ⟨rfl, ih hab hbc⟩

theorem cmp_trans {c : Ty} (hab : cmp a b = .lt) (hbc : cmp b c = .lt) : cmp a c = .lt := by
  induction a using Ty.induction generalizing b c with
  | basic l =>
    cases b with
    | basic m =>
      cases c with
      | basic n =>
        rw [cmp] at hab hbc ⊢
        exact Std.TransCmp.lt_trans hab hbc
      | _ => rfl
    | _ => cases c <;> simp [cmp] at hbc ⊢
  | fn ps r ihs ih =>
    cases b with
    | basic m => simp [cmp] at hab
    | fn qs s =>
      cases c with
      | fn us t =>
        -- Parameters first; the return types decide only if these are the same.
        rw [cmp, Ordering.then_eq_lt] at hab hbc ⊢
        simp only [cmpAll_eq_iff] at hab hbc ⊢
        have ihs := @cmpAll_trans ps qs us fun a ha b c => ihs a ha
        rcases hab with hab | ⟨rfl, hab⟩
        · rcases hbc with hbc | ⟨rfl, hbc⟩
          · exact Or.inl (ihs hab hbc)
          · exact Or.inl hab
        · rcases hbc with hbc | ⟨rfl, hbc⟩
          · exact Or.inl hbc
          · exact Or.inr ⟨rfl, ih hab hbc⟩
      | _ => simp [cmp] at hbc ⊢
    | _ => cases c <;> simp [cmp] at hbc ⊢
  | variant as ihs =>
    cases b with
    | variant bs =>
      cases c with
      | variant cs => exact cmpAll_trans (fun a ha b c => ihs a ha) hab hbc
      | _ => simp [cmp] at hbc ⊢
    | unknown => cases c <;> simp [cmp] at hbc
    | _ => simp [cmp] at hab
  | unknown => cases b <;> simp [cmp] at hab

/-- The order of types, as a relation. -/
def Before (a b : Ty) : Prop :=
  cmp a b = .lt

instance (a b : Ty) : Decidable (Before a b) := inferInstanceAs (Decidable (_ = _))

instance : Std.Irrefl Before where
  irrefl a h := by
    rw [Before, cmp_self] at h
    cases h

theorem Before.asymm (h : Before a b) : ¬ Before b a := by
  intro hba
  rw [Before, cmp_swap, h] at hba
  cases hba

instance : Std.Antisymm Before where
  antisymm _ _ h hba := (h.asymm hba).elim

/-! ## Increasing lists -/

/-- Listed in increasing order, each type once. -/
def Increasing (ts : List Ty) : Prop :=
  ts.Pairwise Before

instance (ts : List Ty) : Decidable (Increasing ts) := inferInstanceAs (Decidable (ts.Pairwise _))

theorem Increasing.ext (ht : Increasing ts) (hu : Increasing us) (h : ∀ t, t ∈ ts ↔ t ∈ us) :
    ts = us :=
  List.Pairwise.eq_of_mem_iff ht hu h

theorem increasing_insertSorted (t : Ty) (h : Increasing us) : Increasing (insertSorted t us) := by
  induction us with
  | nil => exact List.pairwise_singleton _ t
  | cons u us ih =>
    obtain ⟨hu, hus⟩ := List.pairwise_cons.mp h
    unfold insertSorted
    split
    · rename_i hlt
      refine List.pairwise_cons.mpr ⟨?_, h⟩
      intro v hv
      rcases List.mem_cons.mp hv with rfl | hv
      · exact hlt
      · exact cmp_trans hlt (hu v hv)
    · exact h
    · rename_i hgt
      have hlt : cmp u t = .lt := by rw [cmp_swap, hgt]; rfl
      refine List.pairwise_cons.mpr ⟨?_, ih hus⟩
      intro v hv
      rcases mem_insertSorted.mp hv with rfl | hv
      · exact hlt
      · exact hu v hv

theorem increasing_sortDistinct (ts : List Ty) : Increasing (sortDistinct ts) := by
  induction ts with
  | nil => exact List.Pairwise.nil
  | cons t ts ih => exact increasing_insertSorted t ih

theorem sortDistinct_congr (h : ∀ t, t ∈ ts ↔ t ∈ us) : sortDistinct ts = sortDistinct us := by
  apply (increasing_sortDistinct ts).ext (increasing_sortDistinct us)
  intro t
  rw [mem_sortDistinct, mem_sortDistinct, h]

theorem Increasing.sortDistinct (h : Increasing ts) : sortDistinct ts = ts :=
  (increasing_sortDistinct ts).ext h fun _ => mem_sortDistinct

theorem oneOf?_congr (h : ∀ t, t ∈ ts ↔ t ∈ us) : oneOf? ts = oneOf? us := by
  have hsame : Ty.sortDistinct (ts.flatMap alternatives) =
      Ty.sortDistinct (us.flatMap alternatives) := by
    apply sortDistinct_congr
    simp only [List.mem_flatMap, h, implies_true]
  rw [oneOf?, oneOf?, hsame]

end Ty

end ScriptLang
