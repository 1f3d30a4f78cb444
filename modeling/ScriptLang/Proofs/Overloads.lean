import ScriptLang.Proofs.Typing

/-!
# What a call can reach

Bodies are inferred in the scope of the unit, which lies right below the root. So a call sees the
functions of the unit that have its name, and the built-ins only if there are none. The lookup never
fails, and the type of a call depends on the set of return types and not on their order.
-/

namespace ScriptLang

open ScopeTree

variable {t : Ty} {tree : ScopeTree}

variable {sigs : List Signature} {args : List Ty} {tree : ScopeTree} {sig : Signature}
  {name : String} {ty : Ty}

/-! ## Merging with a set of known types -/

namespace Ty

/-- The unknown type, or one or several known ones: what an expression can be found to have. -/
def Shallow (t : Ty) : Prop :=
  t = .unknown ∨ ∀ a ∈ t.alternatives, a.Prim

theorem Prim.shallow (h : t.Prim) : t.Shallow := by
  refine Or.inr ?_
  rw [h.alternatives]
  intro a ha
  rw [List.mem_singleton.mp ha]
  exact h

theorem Flat.shallow (h : t.Flat) : t.Shallow := by
  rcases h with rfl | h
  · exact Or.inl rfl
  · exact h.shallow

theorem Transient.shallow (h : t.Transient) : t.Shallow := by
  rcases h with h | ⟨_, rfl, _, _, hp⟩
  · exact h.shallow
  · exact Or.inr hp

theorem not_prim_unknown : ¬ Prim .unknown := by
  intro h
  cases h.isUnknown

theorem Prim.isSome_unify {p : Ty} (hp : p.Prim) (ht : t.Shallow) :
    (p.unify t).isSome = true ↔ t = .unknown ∨ p ∈ t.alternatives := by
  rcases ht with rfl | ht
  · simp
  obtain ⟨name, rfl⟩ := hp.basic
  cases t with
  | unknown => simp
  | basic other =>
    rw [unify_basic_basic]
    by_cases h : name = other <;> simp [h, Ty.alternatives]
  | fn params ret => cases (ht _ List.mem_cons_self).basic.choose_spec
  | variant alts =>
    simp only [Ty.alternatives] at ht
    simp only [unify, spread, reduceCtorEq, false_or, Ty.alternatives]
    rw [isSome_oneOf?]
    induction alts with
    | nil => simp [spreadAll]
    | cons alt alts ih =>
      obtain ⟨other, rfl⟩ := (ht _ List.mem_cons_self).basic
      have ih := ih fun a ha => ht a (List.mem_cons_of_mem _ ha)
      unfold spreadAll
      by_cases h : name = other
      · simp [spread, h, Ty.alternatives]
      · simp only [spread, h, if_false, ih, List.mem_cons, Ty.basic.injEq, false_or]

end Ty

/-! ## The type of a call -/

theorem returnType_unknown (hs : sig ∈ sigs) (hu : sig.ret = .unknown) :
    returnType sigs = .unknown := by
  have ha : (sigs.map Signature.ret).any Ty.isUnknown = true := by
    rw [List.any_eq_true]
    exact ⟨sig.ret, List.mem_map_of_mem hs, by rw [hu]; rfl⟩
  simp [returnType, ha]

theorem mem_returnType (hne : sigs ≠ []) (hp : ∀ sig ∈ sigs, sig.ret.Prim) :
    ty ∈ (returnType sigs).alternatives ↔ ∃ sig ∈ sigs, sig.ret = ty := by
  have hrets : ∀ t ∈ sigs.map Signature.ret, t.Prim := by
    intro t ht
    obtain ⟨sig, hs, rfl⟩ := List.mem_map.mp ht
    exact hp sig hs
  have hany : (sigs.map Signature.ret).any Ty.isUnknown = false := by
    rw [List.any_eq_false]
    intro t ht
    simp [(hrets t ht).isUnknown]
  have hplain : ∀ t ∈ sigs.map Signature.ret, t.isVariant = false :=
    fun t ht => (hrets t ht).flat.isVariant
  have hsome : (Ty.oneOf? (sigs.map Signature.ret)).isSome = true := by
    rw [Ty.isSome_oneOf?, Ty.flatMap_plain hplain]
    simpa using hne
  obtain ⟨found, hfound⟩ := Option.isSome_iff_exists.mp hsome
  rw [returnType, hany, hfound]
  exact (Ty.mem_alternatives_oneOf? hplain hfound ty).trans List.mem_map

/-- What may be unknown is unknown, and otherwise there are only known types. -/
theorem returnType_cases (hne : sigs ≠ []) (hf : ∀ sig ∈ sigs, sig.ret.Flat) :
    (∃ sig ∈ sigs, sig.ret = .unknown) ∧ returnType sigs = .unknown ∨
      (∀ sig ∈ sigs, sig.ret.Prim) ∧
        ∀ ty, ty ∈ (returnType sigs).alternatives ↔ ∃ sig ∈ sigs, sig.ret = ty := by
  by_cases h : ∃ sig ∈ sigs, sig.ret = .unknown
  · obtain ⟨sig, hs, hu⟩ := h
    exact Or.inl ⟨⟨sig, hs, hu⟩, returnType_unknown hs hu⟩
  · have hp : ∀ sig ∈ sigs, sig.ret.Prim := by
      intro sig hs
      rcases hf sig hs with hu | hp
      · exact (h ⟨sig, hs, hu⟩).elim
      · exact hp
    exact Or.inr ⟨hp, fun ty => mem_returnType hne hp⟩

/-! ## Overloads in sight -/

namespace ScopeTree

/-- The scope of the unit lies right below the root. -/
def Rooted (tree : ScopeTree) : Prop :=
  ∃ more, tree.parents = none :: some root :: more

/-- The overloads of a name in sight of the unit: its own functions, or else built-ins. -/
def visible (tree : ScopeTree) (name : String) : List Signature :=
  if tree.overloads 1 name = [] then tree.overloads root name else tree.overloads 1 name

theorem mem_visible (h : sig ∈ tree.visible name) : sig ∈ tree.sigs ∧ sig.name = name := by
  unfold visible at h
  split at h
  · exact ⟨(mem_overloads.mp h).1, (mem_overloads.mp h).2.2⟩
  · exact ⟨(mem_overloads.mp h).1, (mem_overloads.mp h).2.2⟩

theorem Rooted.nearest (h : tree.Rooted) (here : ScopeId → Option α) :
    tree.nearest here 1 = .ok ((here 1).or (here root)) := by
  obtain ⟨more, hp⟩ := h
  have hunit : tree.parent 1 = .ok (some root) := parent_eq_ok.mpr (by simp [hp])
  have hroot : tree.parent root = .ok none := parent_eq_ok.mpr (by simp [hp, root])
  have hwalk : tree.walk here (more.length + 2) root = .ok (here root) := by
    rw [walk, hroot]
    cases here root <;> rfl
  have hfuel : tree.parents.length + 1 = more.length + 2 + 1 := by simp [hp]
  unfold ScopeTree.nearest
  rw [hfuel, walk, hunit]
  cases here 1 with
  | some found => rfl
  | none => exact hwalk

theorem Rooted.lookupOverloads (h : tree.Rooted) (name : String) :
    ∃ found, tree.lookupOverloads 1 name = .ok found ∧ found.map (·.1) = tree.visible name := by
  simp only [ScopeTree.lookupOverloads, visible, h.nearest, ← map_overloadsIn]
  cases tree.overloadsIn 1 name with
  | cons entry rest => exact ⟨entry :: rest, rfl, rfl⟩
  | nil =>
    cases tree.overloadsIn root name with
    | cons entry rest => exact ⟨entry :: rest, rfl, rfl⟩
    | nil => exact ⟨[], rfl, rfl⟩

/-- The overloads in sight that accept arguments of the given types. -/
def reached (tree : ScopeTree) (name : String) (args : List Ty) : List Signature :=
  (tree.visible name).filter fun sig => (Ty.unifyAll sig.params args).isSome

theorem mem_reached :
    sig ∈ tree.reached name args ↔
      sig ∈ tree.visible name ∧ (Ty.unifyAll sig.params args).isSome = true :=
  List.mem_filter

theorem Rooted.candidates (h : tree.Rooted) (name : String) (args : List Ty) :
    tree.candidates 1 name args = .ok (tree.reached name args) := by
  obtain ⟨found, hf, hv⟩ := h.lookupOverloads name
  unfold ScopeTree.candidates reached
  rw [hf, ← hv]
  rfl

theorem overloadFor_eq_ok (h : tree.Rooted) {span : Span} :
    tree.overloadFor 1 name args ty span = .ok sig ↔
      (tree.reached name args).filter (fun sig => (sig.ret.unify ty).isSome) = [sig] := by
  simp only [ScopeTree.overloadFor, h.candidates, bind_eq_ok, Except.ok.injEq, exists_eq_left']
  split
  · rename_i found hf
    simp [hf, pure_eq_ok]
  · rename_i hf
    simp [hf, throw, throwThe, MonadExceptOf.throw]
  · rename_i hone _
    constructor
    · intro he
      cases he
    · exact fun he => (hone _ he).elim

theorem Plain.reached_flat (h : tree.Plain) : ∀ sig ∈ tree.reached name args, sig.ret.Flat :=
  fun sig hs => h.rets sig (mem_visible (mem_reached.mp hs).1).1

end ScopeTree

theorem Expr.synth_call_iff (h : tree.Rooted) {args : List Expr} {span : Span} {slot : TypeSlot} :
    (Expr.call name args span slot).synth tree 1 = .ok ty ↔
      ∃ found, synthAll tree 1 args = .ok found ∧ tree.reached name found ≠ [] ∧
        ty = returnType (tree.reached name found) := by
  simp only [Expr.synth, bind_eq_ok, h.candidates, Except.ok.injEq]
  constructor
  · rintro ⟨found, hf, _, rfl, hm⟩
    refine ⟨found, hf, ?_⟩
    cases hr : tree.reached name found with
    | nil =>
      rw [hr] at hm
      cases hm
    | cons sig sigs =>
      rw [hr] at hm
      exact ⟨by simp, (pure_eq_ok.mp hm).symm⟩
  · rintro ⟨found, hf, hne, rfl⟩
    refine ⟨found, hf, _, rfl, ?_⟩
    cases hr : tree.reached name found with
    | nil => exact (hne hr).elim
    | cons sig sigs => rfl

end ScriptLang
