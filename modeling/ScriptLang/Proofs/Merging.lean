import ScriptLang.Proofs.TypeOrder
import Mathlib.Data.Option.NAry

/-!
# Merging is symmetric

Merging recurses on its first argument, yet the two arguments play the same part: the unknown type
gives way to the other one, two basic or two function types are merged part by part, and with a set
on one side every candidate of the one is merged with every candidate of the other. Nothing is
assumed of sets of candidates.
-/

namespace ScriptLang

variable {as bs : List Ty} {a b t : Ty} {P : Ty → Prop}

namespace Ty

/-! ## Merging, case by case -/

theorem mem_crossAll : t ∈ crossAll as bs ↔ ∃ a ∈ as, ∃ b ∈ bs, a.unify b = some t := by
  induction as with
  | nil => simp [crossAll]
  | cons a as ih => simp [crossAll, ih]

theorem spreadAll_eq_filterMap (t : Ty) (rigid : Ty → Option Ty) (us : List Ty) :
    spreadAll t rigid us = us.filterMap (spread t rigid) := by
  induction us with
  | nil => rfl
  | cons u us ih =>
    rw [spreadAll, List.filterMap_cons, ih]
    cases spread t rigid u <;> rfl

theorem unify_fn_fn (ps qs : List Ty) (r s : Ty) :
    unify (.fn ps r) (.fn qs s) = Option.map₂ .fn (unifyAll ps qs) (r.unify s) := by
  simp only [unify, spread]
  cases unifyAll ps qs <;> cases r.unify s <;> rfl

theorem unify_basic_fn (name : String) (ps : List Ty) (r : Ty) :
    unify (.basic name) (.fn ps r) = none := by
  simp [unify, spread]

theorem unify_fn_basic (name : String) (ps : List Ty) (r : Ty) :
    unify (.fn ps r) (.basic name) = none := by
  simp [unify, spread]

theorem unify_sets (ha : a ≠ .unknown) (hb : b ≠ .unknown)
    (h : a.isVariant = true ∨ b.isVariant = true) :
    a.unify b = oneOf? (crossAll a.alternatives b.alternatives) := by
  have hrigid : ∀ (t : Ty) (rigid : Ty → Option Ty) (us : List Ty),
      t.unify = spread t rigid → t.alternatives = [t] →
      t.unify (.variant us) = oneOf? (crossAll t.alternatives us) := by
    intro t rigid us ht halt
    rw [halt, ht, spread, spreadAll_eq_filterMap, ← ht]
    simp [crossAll]
  cases a with
  | unknown => exact absurd rfl ha
  | variant alts =>
    cases b with
    | unknown => exact absurd rfl hb
    | _ => simp only [unify, alternatives]
  | basic name =>
    cases b with
    | variant us => exact hrigid _ _ us (by rw [unify]) rfl
    | _ => simp [isVariant] at h
  | fn ps r =>
    cases b with
    | variant us => exact hrigid _ _ us (by rw [unify]) rfl
    | _ => simp [isVariant] at h

theorem unifyAll_cons_cons (a b : Ty) (as bs : List Ty) :
    unifyAll (a :: as) (b :: bs) = Option.map₂ List.cons (a.unify b) (unifyAll as bs) := by
  simp only [unifyAll]
  cases a.unify b <;> cases unifyAll as bs <;> rfl

@[simp] theorem unifyAll_nil_nil : unifyAll [] [] = some [] := by
  simp only [unifyAll]

@[simp] theorem unifyAll_nil_cons (b : Ty) (bs : List Ty) : unifyAll [] (b :: bs) = none := by
  simp only [unifyAll]

@[simp] theorem unifyAll_cons_nil (a : Ty) (as : List Ty) : unifyAll (a :: as) [] = none := by
  simp only [unifyAll]

theorem mem_of_unifyAll {ts : List Ty} (h : unifyAll as bs = some ts) (ht : t ∈ ts) :
    ∃ a ∈ as, ∃ b ∈ bs, a.unify b = some t := by
  induction as generalizing bs ts with
  | nil =>
    cases bs with
    | nil =>
      obtain rfl : [] = ts := by simpa using h
      cases ht
    | cons b bs => simp at h
  | cons a as ih =>
    cases bs with
    | nil => simp at h
    | cons b bs =>
      rw [unifyAll_cons_cons] at h
      obtain ⟨u, us, hu, hus, rfl⟩ := Option.map₂_eq_some_iff.mp h
      rcases List.mem_cons.mp ht with rfl | ht
      · exact ⟨a, List.mem_cons_self, b, List.mem_cons_self, hu⟩
      · obtain ⟨a', ha, b', hb, ht⟩ := ih hus ht
        exact ⟨a', List.mem_cons_of_mem _ ha, b', List.mem_cons_of_mem _ hb, ht⟩

/-! ## What a merge inherits -/

theorem forall_alternatives (halts : ∀ alts, P (.variant alts) → ∀ t ∈ alts, P t) (h : P t) :
    ∀ u ∈ t.alternatives, P u := by
  intro u hu
  cases t with
  | variant alts => exact halts alts h u hu
  | _ => exact List.mem_singleton.mp hu ▸ h

theorem unify_sets_closed (hone : ∀ ts u, (∀ t ∈ ts, P t) → oneOf? ts = some u → P u)
    (ha : a ≠ .unknown) (hb : b ≠ .unknown) (hset : a.isVariant = true ∨ b.isVariant = true)
    (hmerge : ∀ x ∈ a.alternatives, ∀ y ∈ b.alternatives, ∀ u, x.unify y = some u → P u)
    (h : a.unify b = some t) : P t := by
  rw [unify_sets ha hb hset] at h
  refine hone _ t ?_ h
  intro u hu
  obtain ⟨x, hx, y, hy, hxy⟩ := mem_crossAll.mp hu
  exact hmerge x hx y hy u hxy

/-- A property that holds of a type exactly if it holds of its parts is passed on to merges, if it
is passed on to what comes of a list of candidates. -/
theorem unify_closed (hfn : ∀ params ret, P (.fn params ret) ↔ (∀ t ∈ params, P t) ∧ P ret)
    (halts : ∀ alts, P (.variant alts) → ∀ t ∈ alts, P t)
    (hone : ∀ ts u, (∀ t ∈ ts, P t) → oneOf? ts = some u → P u) (ha : P a) (hb : P b)
    (h : a.unify b = some t) : P t := by
  induction a using Ty.induction generalizing b t with
  | unknown =>
    rw [unify_unknown_left, Option.some.injEq] at h
    exact h ▸ hb
  | basic name => exact unify_basic_eq_some h ▸ ha
  | variant alts ihs =>
    by_cases hu : b = .unknown
    · rw [hu, unify_unknown_right, Option.some.injEq] at h
      exact h ▸ ha
    · refine unify_sets_closed hone (by simp) hu (Or.inl rfl) ?_ h
      intro x hx y hy u hxy
      exact ihs x hx (halts alts ha x hx) (forall_alternatives halts hb y hy) hxy
  | fn ps r ihs ih =>
    induction b using Ty.induction generalizing t with
    | unknown =>
      rw [unify_unknown_right, Option.some.injEq] at h
      exact h ▸ ha
    | basic name =>
      rw [unify_fn_basic] at h
      cases h
    | variant alts ihalts =>
      refine unify_sets_closed hone (by simp) (by simp) (Or.inr rfl) ?_ h
      intro x hx y hy u hxy
      rw [List.mem_singleton.mp hx] at hxy
      exact ihalts y hy (halts alts hb y hy) hxy
    | fn qs s =>
      rw [unify_fn_fn] at h
      obtain ⟨us, v, hus, hv, rfl⟩ := Option.map₂_eq_some_iff.mp h
      rw [hfn] at ha hb ⊢
      constructor
      · intro u hu
        obtain ⟨p, hp, q, hq, hpq⟩ := mem_of_unifyAll hus hu
        exact ihs p hp (ha.1 p hp) (hb.1 q hq) hpq
      · exact ih ha.2 hb.2 hv

/-! ## Symmetry -/

theorem unifyAll_swap (h : ∀ a ∈ as, ∀ b ∈ bs, a.unify b = b.unify a) :
    unifyAll as bs = unifyAll bs as := by
  induction as generalizing bs with
  | nil => cases bs <;> simp
  | cons a as ih =>
    cases bs with
    | nil => simp
    | cons b bs =>
      have hrest : unifyAll as bs = unifyAll bs as := by
        apply ih
        intro x hx y hy
        exact h x (List.mem_cons_of_mem _ hx) y (List.mem_cons_of_mem _ hy)
      rw [unifyAll_cons_cons, unifyAll_cons_cons, hrest,
        h a List.mem_cons_self b List.mem_cons_self]

theorem unify_sets_swap (ha : a ≠ .unknown) (hb : b ≠ .unknown)
    (hset : a.isVariant = true ∨ b.isVariant = true)
    (h : ∀ x ∈ a.alternatives, ∀ y ∈ b.alternatives, x.unify y = y.unify x) :
    a.unify b = b.unify a := by
  rw [unify_sets ha hb hset, unify_sets hb ha hset.symm]
  apply oneOf?_congr
  intro t
  rw [mem_crossAll, mem_crossAll]
  constructor
  · rintro ⟨x, hx, y, hy, hxy⟩
    exact ⟨y, hy, x, hx, h x hx y hy ▸ hxy⟩
  · rintro ⟨y, hy, x, hx, hyx⟩
    exact ⟨x, hx, y, hy, (h x hx y hy).symm ▸ hyx⟩

theorem unify_comm (a b : Ty) : a.unify b = b.unify a := by
  induction a using Ty.induction generalizing b with
  | unknown => simp
  | variant alts ihs =>
    by_cases hb : b = .unknown
    · simp [hb]
    · exact unify_sets_swap (by simp) hb (Or.inl rfl) fun x hx y _ => ihs x hx y
  | basic name =>
    -- The first type has no parts, so what it meets in the second one decides.
    induction b using Ty.induction with
    | unknown => simp
    | basic other =>
      rw [unify_basic_basic, unify_basic_basic]
      by_cases h : name = other
      · simp [h]
      · simp [h, Ne.symm h]
    | fn params ret => rw [unify_basic_fn, unify_fn_basic]
    | variant alts ihalts =>
      refine unify_sets_swap (by simp) (by simp) (Or.inr rfl) ?_
      intro x hx y hy
      rw [List.mem_singleton.mp hx]
      exact ihalts y hy
  | fn params ret ihs ih =>
    induction b using Ty.induction with
    | unknown => simp
    | basic other => rw [unify_basic_fn, unify_fn_basic]
    | fn params' ret' =>
      rw [unify_fn_fn, unify_fn_fn, unifyAll_swap fun x hx y _ => ihs x hx y, ih ret']
    | variant alts ihalts =>
      refine unify_sets_swap (by simp) (by simp) (Or.inr rfl) ?_
      intro x hx y hy
      rw [List.mem_singleton.mp hx]
      exact ihalts y hy

/-- It does not matter which of two types, or of two lists of types, is merged with the other. -/
theorem unify_symmetric :
    (∀ a b : Ty, a.unify b = b.unify a) ∧
      ∀ as bs : List Ty, unifyAll as bs = unifyAll bs as :=
  ⟨unify_comm, fun _ _ => unifyAll_swap fun a _ b _ => unify_comm a b⟩

end Ty

end ScriptLang
