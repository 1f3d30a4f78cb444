import ScriptLang.Proofs.Merging
import Mathlib.Data.Set.Basic

/-!
# Merging is intersection

A type stands for a set of fully known types: the unknown type for all of them, a set of candidates
for what any of its members stands for, and a function type for what its parts stand for. Merging
two types intersects the two sets. Candidate sets may be empty, hold a single member or other sets,
or be out of order.
-/

set_option linter.unusedSectionVars false

namespace ScriptLang

namespace Ty

/-! ## What a type stands for -/

mutual
/-- Whether the type leaves it open that it is `k`. -/
def admits : Ty → Ty → Bool
  | .unknown => isFullyKnown
  | .variant alts => anyAdmits alts
  | .basic name => fun k => k = .basic name
  | .fn params ret => fun
    | .fn ks k => allAdmit params ks && admits ret k
    | _ => false
def anyAdmits : List Ty → Ty → Bool
  | [] => fun _ => false
  | t :: ts => fun k => admits t k || anyAdmits ts k
/-- Lists are compared member by member. -/
def allAdmit : List Ty → List Ty → Bool
  | [] => fun ks => ks.isEmpty
  | t :: ts => fun
    | [] => false
    | k :: ks => admits t k && allAdmit ts ks
end

/-- The fully known types that a type stands for. -/
def instances (t : Ty) : Set Ty :=
  {k | t.admits k = true}

@[simp] theorem mem_instances {t k : Ty} : k ∈ t.instances ↔ t.admits k = true :=
  Iff.rfl

theorem anyAdmits_eq (ts : List Ty) (k : Ty) : anyAdmits ts k = ts.any (·.admits k) := by
  induction ts with
  | nil => rfl
  | cons t ts ih => simp [anyAdmits, ih]

mutual
theorem isFullyKnown_of_admits : ∀ t k : Ty, t.admits k = true → k.isFullyKnown = true
  | .unknown, _, h => by simpa [admits] using h
  | .basic name, k, h => by
    obtain rfl : k = .basic name := by simpa [admits] using h
    simp [isFullyKnown]
  | .variant alts, k, h => by
    refine isFullyKnown_of_anyAdmits alts k ?_
    simpa [admits] using h
  | .fn params ret, k, h => by
    cases k with
    | fn ks s =>
      simp only [admits, Bool.and_eq_true] at h
      simp [isFullyKnown, allFullyKnown_of_allAdmit params ks h.1, isFullyKnown_of_admits ret s h.2]
    | _ => simp [admits] at h
theorem isFullyKnown_of_anyAdmits : ∀ (ts : List Ty) (k : Ty), anyAdmits ts k = true →
    k.isFullyKnown = true
  | [], _, h => by simp [anyAdmits] at h
  | t :: ts, k, h => by
    simp only [anyAdmits, Bool.or_eq_true] at h
    rcases h with h | h
    · exact isFullyKnown_of_admits t k h
    · exact isFullyKnown_of_anyAdmits ts k h
theorem allFullyKnown_of_allAdmit : ∀ ts ks : List Ty, allAdmit ts ks = true →
    allFullyKnown ks = true
  | [], ks, h => by
    obtain rfl : ks = [] := by simpa [allAdmit] using h
    rfl
  | t :: ts, ks, h => by
    cases ks with
    | nil => simp [allAdmit] at h
    | cons k ks =>
      simp only [allAdmit, Bool.and_eq_true] at h
      simp [allFullyKnown, isFullyKnown_of_admits t k h.1, allFullyKnown_of_allAdmit ts ks h.2]
end

theorem admits_alternatives (t k : Ty) : t.alternatives.any (·.admits k) = t.admits k := by
  cases t with
  | variant alts => simp [alternatives, admits, anyAdmits_eq]
  | _ => simp [alternatives]

/-- Sorting, dropping repetitions and opening sets changes nothing. -/
theorem any_oneOf? (ts : List Ty) (k : Ty) :
    (oneOf? ts).any (·.admits k) = ts.any (·.admits k) := by
  have hsame : (sortDistinct (ts.flatMap alternatives)).any (·.admits k) =
      ts.any (·.admits k) := by
    rw [Bool.eq_iff_iff, List.any_eq_true]
    simp only [mem_sortDistinct, ← List.any_eq_true, List.any_flatMap, admits_alternatives]
  rw [← hsame]
  unfold oneOf?
  split
  · rename_i hnil
    simp [hnil]
  · rename_i u hone
    simp [hone]
  · simp [admits, anyAdmits_eq]

/-! ## One type against another -/

theorem unify_variant (alts : List Ty) {b : Ty} (hb : b ≠ .unknown) :
    unify (.variant alts) b = oneOf? (crossAll alts b.alternatives) :=
  unify_sets (by simp) hb (Or.inl rfl)

section

variable {t : Ty} {rigid : Ty → Option Ty} {k : Ty}
  (hknown : t.admits k = true → k.isFullyKnown = true)
  (hbasic : ∀ name, (rigid (.basic name)).any (·.admits k) = (t.admits k && admits (.basic name) k))
  (hfn : ∀ params ret, (rigid (.fn params ret)).any (·.admits k) =
    (t.admits k && admits (.fn params ret) k))

include hknown hbasic hfn

mutual
theorem any_spread : ∀ u : Ty, (spread t rigid u).any (·.admits k) = (t.admits k && u.admits k)
  | .unknown => by
    simp only [spread, Option.any_some, admits]
    cases h : t.admits k with
    | false => rfl
    | true => simp [hknown h]
  | .variant alts => by
    simp only [spread, any_oneOf?, admits]
    exact any_spreadAll alts
  | .basic name => by simp only [spread, hbasic]
  | .fn params ret => by simp only [spread, hfn]
theorem any_spreadAll :
    ∀ us : List Ty, (spreadAll t rigid us).any (·.admits k) = (t.admits k && anyAdmits us k)
  | [] => by simp [spreadAll, anyAdmits]
  | u :: us => by
    have hu := any_spread u
    have hus := any_spreadAll us
    unfold spreadAll
    split
    · rename_i v hv
      rw [hv, Option.any_some] at hu
      rw [List.any_cons, hu, hus, anyAdmits, Bool.and_or_distrib_left]
    · rename_i hv
      rw [hv, Option.any_none] at hu
      rw [hus, anyAdmits, Bool.and_or_distrib_left, ← hu, Bool.false_or]
end

end

mutual
/-- A known type is an instance of what two types merge to exactly if it is one of both. If they do
not merge, nothing is. -/
theorem any_unify (k : Ty) : ∀ a b : Ty,
    (a.unify b).any (·.admits k) = (a.admits k && b.admits k)
  | .unknown, b => by
    rw [unify_unknown_left, Option.any_some, admits]
    cases h : b.admits k with
    | false => simp
    | true => simp [isFullyKnown_of_admits b k h]
  | .basic name, b => by
    rw [unify]
    refine any_spread (isFullyKnown_of_admits _ k) (fun other => ?_) (fun params ret => ?_) b
    · by_cases h : name = other
      · simp [h, admits]
      · have hne : ¬ (k = .basic name ∧ k = .basic other) := by
          rintro ⟨rfl, he⟩
          exact h (Ty.basic.inj he)
        simpa [h, admits] using hne
    · cases k <;> simp [admits]
  | .fn params ret, b => by
    rw [unify]
    refine any_spread (isFullyKnown_of_admits _ k) (fun other => ?_) (fun params' ret' => ?_) b
    · cases k <;> simp [admits]
    · cases k with
      | fn ks s =>
        simp only [admits]
        rw [Bool.and_assoc, Bool.and_left_comm (admits ret s), ← Bool.and_assoc,
          ← any_unifyAll ks params params', ← any_unify s ret ret']
        cases unifyAll params params' <;> cases ret.unify ret' <;> simp [admits]
      | _ =>
        simp only [admits]
        cases unifyAll params params' <;> cases ret.unify ret' <;> simp [admits]
  | .variant alts, b => by
    by_cases hb : b = .unknown
    · rw [hb, unify_unknown_right, Option.any_some]
      cases h : admits (.variant alts) k with
      | false => rfl
      | true => simp [admits, isFullyKnown_of_admits _ k h]
    · rw [unify_variant alts hb, any_oneOf?, any_crossAll k alts, admits_alternatives, admits]
theorem any_unifyAll (ks : List Ty) : ∀ as bs : List Ty,
    (unifyAll as bs).any (allAdmit · ks) = (allAdmit as ks && allAdmit bs ks)
  | [], [] => by simp [unifyAll]
  | [], _ :: _ => by
    cases ks <;> simp [unifyAll, allAdmit]
  | _ :: _, [] => by
    cases ks <;> simp [unifyAll, allAdmit]
  | a :: as, b :: bs => by
    cases ks with
    | nil =>
      simp only [unifyAll, allAdmit]
      cases a.unify b <;> cases unifyAll as bs <;> simp [allAdmit]
    | cons k ks =>
      simp only [unifyAll, allAdmit]
      rw [Bool.and_assoc, Bool.and_left_comm (allAdmit as ks), ← Bool.and_assoc, ← any_unify k a b,
        ← any_unifyAll ks as bs]
      cases a.unify b <;> cases unifyAll as bs <;> simp [allAdmit]
theorem any_crossAll (k : Ty) : ∀ as bs : List Ty,
    (crossAll as bs).any (·.admits k) = (anyAdmits as k && bs.any (·.admits k))
  | [], _ => by simp [crossAll, anyAdmits]
  | a :: as, bs => by
    have hfirst : (bs.filterMap a.unify).any (·.admits k) =
        (a.admits k && bs.any (·.admits k)) := by
      induction bs with
      | nil => simp
      | cons b bs ih =>
        rw [List.any_cons, Bool.and_or_distrib_left, ← any_unify k a b, ← ih]
        cases h : a.unify b <;> simp [h]
    rw [crossAll, List.any_append, hfirst, any_crossAll k as bs, anyAdmits,
      Bool.and_or_distrib_right]
end

theorem instances_unify {a b t : Ty} (h : a.unify b = some t) :
    t.instances = a.instances ∩ b.instances := by
  ext k
  have hk := any_unify k a b
  rw [h, Option.any_some] at hk
  simp [hk]

theorem instances_disjoint {a b : Ty} (h : a.unify b = none) :
    a.instances ∩ b.instances = ∅ := by
  ext k
  have hk := any_unify k a b
  rw [h, Option.any_none] at hk
  simpa using hk.symm

/-! ## Types that stand for something -/

mutual
/-- Holds when every set of candidates in the type has at least two members, none of which is a set
itself. -/
def isNormal : Ty → Bool
  | .unknown => true
  | .basic _ => true
  | .fn params ret => allNormal params && isNormal ret
  | .variant alts => 2 ≤ alts.length && alts.all (!·.isVariant) && allNormal alts
def allNormal : List Ty → Bool
  | [] => true
  | t :: ts => isNormal t && allNormal ts
end

theorem allNormal_iff {ts : List Ty} : allNormal ts = true ↔ ∀ t ∈ ts, t.isNormal = true := by
  induction ts with
  | nil => simp [allNormal]
  | cons t ts ih => simp [allNormal, ih]

mutual
theorem exists_admits : ∀ t : Ty, t.isNormal = true → ∃ k, t.admits k = true
  | .unknown, _ => ⟨.int, rfl⟩
  | .basic name, _ => ⟨.basic name, by simp [admits]⟩
  | .fn params ret, h => by
    simp only [isNormal, Bool.and_eq_true] at h
    obtain ⟨ks, hks⟩ := exists_allAdmit params h.1
    obtain ⟨k, hk⟩ := exists_admits ret h.2
    exact ⟨.fn ks k, by simp [admits, hks, hk]⟩
  | .variant alts, h => by
    simp only [isNormal, Bool.and_eq_true, decide_eq_true_eq] at h
    exact exists_anyAdmits alts (List.length_pos_iff.mp (Nat.lt_of_lt_of_le Nat.two_pos h.1.1)) h.2
theorem exists_anyAdmits : ∀ ts : List Ty, ts ≠ [] → allNormal ts = true →
    ∃ k, anyAdmits ts k = true
  | [], hne, _ => absurd rfl hne
  | t :: _, _, h => by
    simp only [allNormal, Bool.and_eq_true] at h
    obtain ⟨k, hk⟩ := exists_admits t h.1
    exact ⟨k, by simp [anyAdmits, hk]⟩
theorem exists_allAdmit : ∀ ts : List Ty, allNormal ts = true → ∃ ks, allAdmit ts ks = true
  | [], _ => ⟨[], rfl⟩
  | t :: ts, h => by
    simp only [allNormal, Bool.and_eq_true] at h
    obtain ⟨k, hk⟩ := exists_admits t h.1
    obtain ⟨ks, hks⟩ := exists_allAdmit ts h.2
    exact ⟨k :: ks, by simp [allAdmit, hk, hks]⟩
end

theorem normal_alternatives {t u : Ty} (h : t.isNormal = true) (hu : u ∈ t.alternatives) :
    u.isNormal = true ∧ u.isVariant = false := by
  cases t with
  | variant alts =>
    simp only [isNormal, Bool.and_eq_true, List.all_eq_true, Bool.not_eq_true'] at h
    exact ⟨allNormal_iff.mp h.2 u hu, h.1.2 u hu⟩
  | _ =>
    rw [List.mem_singleton.mp hu]
    exact ⟨h, rfl⟩

theorem normal_oneOf? {ts : List Ty} {u : Ty} (h : ∀ t ∈ ts, t.isNormal = true)
    (hu : oneOf? ts = some u) : u.isNormal = true := by
  have hparts : ∀ t ∈ sortDistinct (ts.flatMap alternatives),
      t.isNormal = true ∧ t.isVariant = false := by
    intro t ht
    obtain ⟨s, hs, ht⟩ := List.mem_flatMap.mp (mem_sortDistinct.mp ht)
    exact normal_alternatives (h s hs) ht
  unfold oneOf? at hu
  split at hu
  · cases hu
  · rename_i t hone
    cases hu
    exact (hparts u (by simp [hone])).1
  · rename_i alts hnil hsingle
    cases hu
    simp only [isNormal, Bool.and_eq_true, decide_eq_true_eq, List.all_eq_true, Bool.not_eq_true']
    refine ⟨⟨?_, fun t ht => (hparts t ht).2⟩, allNormal_iff.mpr fun t ht => (hparts t ht).1⟩
    match hs : sortDistinct (ts.flatMap alternatives) with
    | [] => exact absurd hs hnil
    | [t] => exact absurd hs (hsingle t)
    | _ :: _ :: _ => simp

theorem normal_unify (a b t : Ty) (ha : a.isNormal = true) (hb : b.isNormal = true)
    (h : a.unify b = some t) : t.isNormal = true := by
  refine unify_closed (P := (·.isNormal = true)) ?_ ?_ (fun ts u => normal_oneOf?) ha hb h
  · intro params ret
    rw [isNormal, Bool.and_eq_true, allNormal_iff]
  · intro alts halts
    exact fun t ht => (normal_alternatives halts ht).1

/-! ## Known types -/

mutual
theorem unify_known_left : ∀ a b t : Ty, a.isFullyKnown = true → a.unify b = some t → t = a
  | .unknown, _, _, ha, _ => by simp [isFullyKnown] at ha
  | .variant _, _, _, ha, _ => by simp [isFullyKnown] at ha
  | .basic _, _, _, _, h => unify_basic_eq_some h
  | .fn params ret, b, t, ha, h => by
    rw [unify] at h
    refine spread_eq rfl (fun u v hv => ?_) b t h
    simp only [isFullyKnown, Bool.and_eq_true] at ha
    cases u with
    | fn params' ret' =>
      dsimp only at hv
      split at hv
      · rename_i qs r hqs hr
        cases hv
        rw [unifyAll_known_left params params' qs ha.1 hqs, unify_known_left ret ret' r ha.2 hr]
      · cases hv
    | _ => cases hv
theorem unifyAll_known_left : ∀ as bs ts : List Ty, allFullyKnown as = true →
    unifyAll as bs = some ts → ts = as
  | [], bs, _, _, h => by
    cases bs with
    | nil =>
      simp only [unifyAll, Option.some.injEq] at h
      exact h.symm
    | cons b bs => simp [unifyAll] at h
  | a :: as, bs, _, ha, h => by
    cases bs with
    | nil => simp [unifyAll] at h
    | cons b bs =>
      simp only [allFullyKnown, Bool.and_eq_true] at ha
      simp only [unifyAll] at h
      split at h
      · rename_i t rest ht hrest
        cases h
        rw [unify_known_left a b t ha.1 ht, unifyAll_known_left as bs rest ha.2 hrest]
      · cases h
end

theorem unify_known_right (a b t : Ty) (hb : b.isFullyKnown = true) (h : a.unify b = some t) :
    t = b :=
  unify_known_left b a t hb (unify_comm a b ▸ h)

/-! ## Merging in terms of instances -/

/-- Merging is intersection. A merge stands for what both types stand for, and one that fails for
nothing. If all sets of candidates have two or more members that are not sets, it also fails
whenever there is nothing. A known type can only merge to itself. -/
theorem unify_intersects (a b : Ty) :
    (∀ t, a.unify b = some t → t.instances = a.instances ∩ b.instances) ∧
      (a.unify b = none → a.instances ∩ b.instances = ∅) ∧
      (a.isNormal = true → b.isNormal = true →
        (a.unify b = none ↔ a.instances ∩ b.instances = ∅)) ∧
      ∀ t, a.unify b = some t →
        (a.isFullyKnown = true → t = a) ∧ (b.isFullyKnown = true → t = b) := by
  refine ⟨fun t => instances_unify, instances_disjoint, fun ha hb => ⟨instances_disjoint, ?_⟩, ?_⟩
  · intro hempty
    cases h : a.unify b with
    | none => rfl
    | some t =>
      obtain ⟨k, hk⟩ := exists_admits t (normal_unify a b t ha hb h)
      have hmem : k ∈ a.instances ∩ b.instances := instances_unify h ▸ hk
      rw [hempty] at hmem
      exact hmem.elim
  · exact fun t h => ⟨fun ha => unify_known_left a b t ha h, fun hb => unify_known_right a b t hb h⟩

theorem unify_intersects_candidates :
    (variant [.float, .int]).unify (variant [.bool, .float]) = some .float ∧
      Ty.float.instances =
        (variant [.float, .int]).instances ∩ (variant [.bool, .float]).instances ∧
      (variant [.float, .int]).isNormal = true ∧ (variant [.bool, .void]).isNormal = true ∧
      (variant [.float, .int]).unify (variant [.bool, .void]) = none ∧
      (variant [.float, .int]).instances ∩ (variant [.bool, .void]).instances = ∅ := by
  have hsome : (variant [.float, .int]).unify (variant [.bool, .float]) = some .float := by
    decide +kernel
  have hleft : (variant [.float, .int]).isNormal = true := by decide +kernel
  have hright : (variant [.bool, .void]).isNormal = true := by decide +kernel
  have hnone : (variant [.float, .int]).unify (variant [.bool, .void]) = none := by
    decide +kernel
  refine ⟨hsome, (unify_intersects _ _).1 _ hsome, hleft, hright, hnone, ?_⟩
  exact ((unify_intersects _ _).2.2.1 hleft hright).mp hnone

end Ty

end ScriptLang
