import ScriptLang.Ty.Unify
import Mathlib.Data.List.Basic

/-!
# Merging with a known type

The four basic types that annotations can name are the only fully known types inference ever works
with. Merging anything with a basic type gives that type back or fails, so a type that is known
never changes again.
-/

namespace ScriptLang

variable {t u v : Ty} {ts : List Ty}

namespace Ty

/-- One of the four types that an annotation can name. -/
def Prim (t : Ty) : Prop :=
  t = .int ∨ t = .float ∨ t = .bool ∨ t = .void

/-- The type of a variable or of a result, as far as it has been found out. Candidate sets never
get this far. -/
def Flat (t : Ty) : Prop :=
  t = .unknown ∨ t.Prim

instance (t : Ty) : Decidable t.Prim := inferInstanceAs (Decidable (_ ∨ _))

theorem Prim.flat (h : t.Prim) : t.Flat :=
  Or.inr h

theorem Prim.basic (h : t.Prim) : ∃ name, t = .basic name := by
  rcases h with rfl | rfl | rfl | rfl <;> exact ⟨_, rfl⟩

theorem Prim.isFullyKnown (h : t.Prim) : t.isFullyKnown = true := by
  obtain ⟨name, rfl⟩ := h.basic
  simp [Ty.isFullyKnown]

theorem Prim.isUnknown (h : t.Prim) : t.isUnknown = false := by
  obtain ⟨name, rfl⟩ := h.basic
  rfl

theorem Flat.prim_of_isFullyKnown (h : t.Flat) (hk : t.isFullyKnown = true) : t.Prim := by
  rcases h with rfl | h
  · simp [Ty.isFullyKnown] at hk
  · exact h

theorem Flat.isVariant (h : t.Flat) : t.isVariant = false := by
  rcases h with rfl | h
  · rfl
  · obtain ⟨name, rfl⟩ := h.basic
    rfl

@[simp] theorem prim_int : Prim .int := by decide
@[simp] theorem prim_float : Prim .float := by decide
@[simp] theorem prim_bool : Prim .bool := by decide
@[simp] theorem prim_void : Prim .void := by decide
@[simp] theorem flat_unknown : Flat .unknown := Or.inl rfl

theorem cmp_self (t : Ty) : cmp t t = .eq :=
  (cmp_eq_iff t t).mpr rfl

/-! ## Candidate sets -/

theorem alternatives_eq (h : t.isVariant = false) : t.alternatives = [t] := by
  cases t with
  | variant alts => cases h
  | _ => rfl

theorem Prim.alternatives (h : t.Prim) : t.alternatives = [t] :=
  alternatives_eq h.flat.isVariant

theorem flatMap_plain (h : ∀ t ∈ ts, t.isVariant = false) : ts.flatMap Ty.alternatives = ts := by
  induction ts with
  | nil => rfl
  | cons t ts ih =>
    rw [List.flatMap_cons, alternatives_eq (h t List.mem_cons_self),
      ih fun t ht => h t (List.mem_cons_of_mem _ ht)]
    rfl

theorem mem_insertSorted {us : List Ty} : u ∈ insertSorted t us ↔ u = t ∨ u ∈ us := by
  induction us with
  | nil => simp [insertSorted]
  | cons w ws ih =>
    unfold insertSorted
    split
    · simp
    · rename_i h
      have hw : t = w := (cmp_eq_iff t w).mp h
      simp [hw]
    · simp only [List.mem_cons, ih]
      tauto

theorem mem_sortDistinct : u ∈ sortDistinct ts ↔ u ∈ ts := by
  induction ts with
  | nil => simp [sortDistinct]
  | cons t ts ih =>
    change u ∈ insertSorted t (sortDistinct ts) ↔ _
    rw [mem_insertSorted, ih, List.mem_cons]

theorem isSome_oneOf? : (oneOf? ts).isSome = true ↔ ts.flatMap alternatives ≠ [] := by
  have hs : sortDistinct (ts.flatMap alternatives) = [] ↔ ts.flatMap alternatives = [] := by
    simp only [List.eq_nil_iff_forall_not_mem, mem_sortDistinct]
  rw [ne_eq, ← hs]
  unfold oneOf?
  split
  · rename_i h
    simp [h]
  · rename_i h
    simp [h]
  · rename_i h _
    simpa using h

theorem mem_alternatives_oneOf? (h : ∀ t ∈ ts, t.isVariant = false) (hu : oneOf? ts = some u)
    (t : Ty) : t ∈ u.alternatives ↔ t ∈ ts := by
  have hmem : t ∈ sortDistinct ts ↔ t ∈ ts := mem_sortDistinct
  rw [oneOf?, flatMap_plain h] at hu
  split at hu
  · cases hu
  · rename_i v hone
    cases hu
    have hin : u ∈ ts := mem_sortDistinct.mp (by simp [hone])
    rw [alternatives_eq (h u hin), ← hone, hmem]
  · cases hu
    exact hmem

theorem sortDistinct_replicate (t : Ty) (n : Nat) :
    sortDistinct (List.replicate (n + 1) t) = [t] := by
  induction n with
  | zero => rfl
  | succ n ih =>
    rw [List.replicate_succ]
    change insertSorted t (sortDistinct (List.replicate (n + 1) t)) = _
    rw [ih]
    simp [insertSorted, cmp_self]

theorem oneOf?_replicate (ht : t.isVariant = false) (n : Nat) :
    oneOf? (List.replicate (n + 1) t) = some t := by
  have h : (List.replicate (n + 1) t).flatMap alternatives = List.replicate (n + 1) t := by
    rw [List.flatMap_replicate]
    simp [alternatives_eq ht]
  unfold oneOf?
  rw [h, sortDistinct_replicate]

theorem oneOf?_eq_of_forall (ht : t.isVariant = false) (h : ∀ v ∈ ts, v = t)
    (hu : oneOf? ts = some u) : u = t := by
  have hr : ts = List.replicate ts.length t := List.eq_replicate_of_mem h
  cases hn : ts.length with
  | zero =>
    rw [List.length_eq_zero_iff.mp hn] at hu
    simp [oneOf?, sortDistinct] at hu
  | succ n =>
    rw [hr, hn, oneOf?_replicate ht] at hu
    exact (Option.some.inj hu).symm

/-! ## Merging with a basic type -/

mutual
/-- A type that merges only to itself with basic and function types does so with any type. -/
theorem spread_eq {t : Ty} (ht : t.isVariant = false) {rigid : Ty → Option Ty}
    (hr : ∀ u v, rigid u = some v → v = t) : ∀ u v : Ty, spread t rigid u = some v → v = t
  | .unknown, _, h => by
    simp only [spread, Option.some.injEq] at h
    exact h.symm
  | .variant alts, _, h => by
    simp only [spread] at h
    exact oneOf?_eq_of_forall ht (spreadAll_eq ht hr alts) h
  | .basic _, _, h => hr _ _ h
  | .fn .., _, h => hr _ _ h
theorem spreadAll_eq {t : Ty} (ht : t.isVariant = false) {rigid : Ty → Option Ty}
    (hr : ∀ u v, rigid u = some v → v = t) : ∀ us : List Ty, ∀ v ∈ spreadAll t rigid us, v = t
  | [], _, h => by simp [spreadAll] at h
  | u :: us, v, h => by
    unfold spreadAll at h
    split at h
    · rename_i w hw
      rcases List.mem_cons.mp h with rfl | h
      · exact spread_eq ht hr u v hw
      · exact spreadAll_eq ht hr us v h
    · exact spreadAll_eq ht hr us v h
end

theorem unify_basic_eq_some {name : String} (h : unify (.basic name) u = some v) :
    v = .basic name := by
  refine spread_eq rfl ?_ u v (by simpa only [unify] using h)
  intro u v hu
  cases u with
  | basic other =>
    simp only [Option.ite_none_right_eq_some, Option.some.injEq] at hu
    exact hu.2.symm
  | _ => simp at hu

theorem Prim.unify_eq_some (h : t.Prim) (hu : t.unify u = some v) : v = t := by
  obtain ⟨name, rfl⟩ := h.basic
  exact unify_basic_eq_some hu

theorem unify_basic_basic (m n : String) :
    unify (.basic m) (.basic n) = if m = n then some (.basic m) else none := by
  simp [unify, spread]

theorem Prim.unify_prim (ht : t.Prim) (hu : u.Prim) :
    t.unify u = if t = u then some t else none := by
  obtain ⟨m, rfl⟩ := ht.basic
  obtain ⟨n, rfl⟩ := hu.basic
  simp [unify_basic_basic]

theorem unifyAll_prim {us : List Ty} (ht : ∀ t ∈ ts, t.Prim) (hu : ∀ u ∈ us, u.Prim) :
    (unifyAll ts us).isSome = true ↔ ts = us := by
  induction ts generalizing us with
  | nil => cases us <;> simp [unifyAll]
  | cons t ts ih =>
    cases us with
    | nil => simp [unifyAll]
    | cons u us =>
      have ih : (unifyAll ts us).isSome = true ↔ ts = us :=
        ih (fun t h => ht t (List.mem_cons_of_mem _ h)) (fun u h => hu u (List.mem_cons_of_mem _ h))
      simp only [unifyAll, (ht t List.mem_cons_self).unify_prim (hu u List.mem_cons_self)]
      by_cases h : t = u
      · cases hs : unifyAll ts us <;> simp_all
      · simp [h]

end Ty

end ScriptLang
