import ScriptLang.Proofs.Resolved

/-!
# Lookup in a growing scope tree

While names are bound a scope tree only grows: a new scope lies below an older one, and a new
declaration goes into the scope at hand or into a scope opened since. So what is in sight from a
scope does not change while other scopes are filled, and one environment describes it.
-/

namespace ScriptLang

variable {env : Env} {scope : Nat} {tree tree' : ScopeTree} {name : String}

namespace ScopeTree

/-- A scope lies below an older one, and every declaration lies in a scope that exists. -/
structure Arena (tree : ScopeTree) : Prop where
  ordered : ∀ (scope up : Nat), tree.parents[scope]? = some (some up) → up < scope
  inside : ∀ var ∈ tree.decls, tree.parents.length > var.scope

/-- From `scope`, exactly the names of `env` are in sight. -/
def Sees (tree : ScopeTree) (scope : ScopeId) (env : Env) : Prop :=
  ∀ name, tree.lookupVariable scope name = .ok (env.lookup name)

/-- The tree has grown, with declarations in `scope` or in new scopes only. -/
structure Grown (scope : Nat) (tree tree' : ScopeTree) : Prop where
  sigs : tree'.sigs = tree.sigs
  parents : ∃ more, tree'.parents = tree.parents ++ more
  decls : ∃ more, tree'.decls = tree.decls ++ more ∧
    ∀ var ∈ more, var.scope = scope ∨ tree.parents.length ≤ var.scope

namespace Grown

variable {scope inner : Nat} {tree tree' tree'' : ScopeTree}

theorem refl (scope : Nat) (tree : ScopeTree) : Grown scope tree tree :=
  ⟨rfl, ⟨[], by simp⟩, ⟨[], by simp, by simp⟩⟩

theorem length_parents (h : Grown scope tree tree') :
    tree.parents.length ≤ tree'.parents.length := by
  obtain ⟨more, hm⟩ := h.parents
  rw [hm, List.length_append]
  omega

theorem parent_eq (h : Grown scope tree tree') {i : Nat} (hi : i < tree.parents.length) :
    tree'.parents[i]? = tree.parents[i]? := by
  obtain ⟨more, hm⟩ := h.parents
  rw [hm, List.getElem?_append_left hi]

theorem getElem?_decls (h : Grown scope tree tree') {id : DeclId} {var : VarDecl}
    (hv : tree.decls[id]? = some var) : tree'.decls[id]? = some var := by
  obtain ⟨more, hm, _⟩ := h.decls
  rw [hm, List.getElem?_append_left (List.getElem?_eq_some_iff.mp hv).1, hv]

theorem trans (h : Grown scope tree tree') (k : Grown inner tree' tree'')
    (hi : inner = scope ∨ tree.parents.length ≤ inner) : Grown scope tree tree'' := by
  obtain ⟨ps, hps⟩ := h.parents
  obtain ⟨qs, hqs⟩ := k.parents
  obtain ⟨ds, hds, hd⟩ := h.decls
  obtain ⟨es, hes, he⟩ := k.decls
  refine ⟨k.sigs.trans h.sigs, ⟨ps ++ qs, by rw [hqs, hps, List.append_assoc]⟩,
    ⟨ds ++ es, by rw [hes, hds, List.append_assoc], ?_⟩⟩
  intro var hv
  rcases List.mem_append.mp hv with hv | hv
  · exact hd var hv
  · rcases he var hv with hs | hs
    · rcases hi with rfl | hi
      · exact Or.inl hs
      · exact Or.inr (hs ▸ hi)
    · exact Or.inr (Nat.le_trans h.length_parents hs)

end Grown

/-! ## Walking to the root -/

/-- The walk from a scope meets smaller and smaller scopes, so it depends on these alone and not on
the fuel. -/
theorem walk_stable {here here' : ScopeId → Option α} (h : tree.Arena) {fuel fuel' : Nat}
    (hf : scope < fuel) (hf' : scope < fuel')
    (hp : ∀ i ≤ scope, tree'.parents[i]? = tree.parents[i]?) (hh : ∀ i ≤ scope, here' i = here i) :
    tree'.walk here' fuel' scope = tree.walk here fuel scope := by
  induction fuel generalizing scope fuel' with
  | zero => omega
  | succ fuel ih =>
    cases fuel' with
    | zero => omega
    | succ fuel' =>
      have hup : tree'.parent scope = tree.parent scope := by
        simp only [parent, hp scope (Nat.le_refl scope)]
      rw [walk, walk, hup, hh scope (Nat.le_refl scope)]
      cases hu : tree.parent scope with
      | error fault => rfl
      | ok up =>
        cases up with
        | none => cases here scope <;> rfl
        | some up =>
          have hlt := h.ordered scope up (parent_eq_ok.mp hu)
          have hw : tree'.walk here' fuel' up = tree.walk here fuel up :=
            ih (by omega) (by omega) (fun i hi => hp i (by omega)) fun i hi => hh i (by omega)
          cases here scope with
          | none => exact hw
          | some found => rfl

theorem nearest_eq (h : tree.Arena) (here : ScopeId → Option α) {up : Option ScopeId}
    (hu : tree.parents[scope]? = some up) :
    tree.nearest here scope =
      (here scope).elim (up.elim (.ok none) (tree.nearest here)) fun found => .ok (some found) := by
  have hlt : scope < tree.parents.length := (List.getElem?_eq_some_iff.mp hu).1
  unfold nearest
  rw [walk, parent_eq_ok.mpr hu]
  cases hd : here scope with
  | some found => cases up <;> rfl
  | none =>
    cases up with
    | none => rfl
    | some up =>
      have hup := h.ordered scope up hu
      exact walk_stable h (by omega) (by omega) (fun _ _ => rfl) fun _ _ => rfl

theorem lookupVariable_eq (h : tree.Arena) {up : Option ScopeId}
    (hu : tree.parents[scope]? = some up) (name : String) :
    tree.lookupVariable scope name =
      match tree.declaredIn? scope name, up with
      | some id, _ => .ok (some id)
      | none, some up => tree.lookupVariable up name
      | none, none => .ok none := by
  rw [lookupVariable, nearest_eq h _ hu]
  cases tree.declaredIn? scope name <;> cases up <;> rfl

theorem lookupVariable_stable (h : tree.Arena) (hs : scope < tree.parents.length)
    (hl : tree.parents.length ≤ tree'.parents.length)
    (hp : ∀ i ≤ scope, tree'.parents[i]? = tree.parents[i]?)
    (hd : ∀ i ≤ scope, tree'.declaredIn? i name = tree.declaredIn? i name) :
    tree'.lookupVariable scope name = tree.lookupVariable scope name :=
  walk_stable h (by omega) (by omega) hp hd

theorem declaredIn?_append {more : List VarDecl} (hm : tree'.decls = tree.decls ++ more)
    {scope : ScopeId} (hn : ∀ var ∈ more, ¬ (var.scope = scope ∧ var.name = name)) :
    tree'.declaredIn? scope name = tree.declaredIn? scope name := by
  have hnone : more.findIdx? (fun var => var.scope = scope && var.name = name) = none := by
    rw [List.findIdx?_eq_none_iff]
    intro var hv
    simpa using hn var hv
  unfold declaredIn?
  rw [hm, List.findIdx?_append, hnone]
  simp

theorem Sees.of_grown {inner : Nat} (hs : tree.Sees scope env) (h : tree.Arena)
    (hlt : scope < tree.parents.length) (hg : Grown inner tree tree') (hi : scope < inner) :
    tree'.Sees scope env := by
  intro name
  obtain ⟨more, hm, hd⟩ := hg.decls
  rw [lookupVariable_stable h hlt hg.length_parents
    (fun i hi => hg.parent_eq (by omega)), hs name]
  intro i hle
  apply declaredIn?_append hm
  rintro var hv ⟨rfl, _⟩
  rcases hd var hv with he | he
  · rw [he] at hle
    omega
  · omega

/-! ## New scopes and declarations -/

theorem declaredIn?_newScope (h : tree.Arena) (scope : ScopeId) (name : String) :
    (tree.newScope scope).2.declaredIn? tree.parents.length name = none := by
  rw [declaredIn?, List.findIdx?_eq_none_iff]
  intro var hm
  have := h.inside var hm
  have hne : tree.parents.length ≠ var.scope := by omega
  simp [hne.symm]

section newScope

variable {tree : ScopeTree} {scope : Nat} (h : tree.Arena) (hs : scope < tree.parents.length)

include h hs

theorem arena_newScope : (tree.newScope scope).2.Arena := by
  constructor
  · intro i up hi
    simp only [newScope] at hi
    by_cases hlt : i < tree.parents.length
    · rw [List.getElem?_append_left hlt] at hi
      exact h.ordered i up hi
    · rw [List.getElem?_append_right (by omega)] at hi
      have he : i - tree.parents.length = 0 := by
        by_contra hne
        obtain ⟨k, hk⟩ := Nat.exists_eq_succ_of_ne_zero hne
        simp [hk] at hi
      simp only [he, List.getElem?_cons_zero, Option.some.injEq] at hi
      rw [← hi]
      omega
  · intro var hv
    have := h.inside var hv
    change (tree.parents ++ [some scope]).length > var.scope
    rw [List.length_append]
    omega

omit h hs in
theorem grown_newScope (inner : Nat) : Grown inner tree (tree.newScope scope).2 :=
  ⟨rfl, ⟨[some scope], rfl⟩, ⟨[], by simp [newScope], by simp⟩⟩

theorem sees_newScope (hv : tree.Sees scope env) :
    (tree.newScope scope).2.Sees tree.parents.length env := by
  intro name
  have hup : (tree.newScope scope).2.parents[tree.parents.length]? = some (some scope) := by
    simp [newScope]
  rw [lookupVariable_eq (arena_newScope h hs) hup, declaredIn?_newScope h scope name]
  exact hv.of_grown h hs (grown_newScope (scope + 1)) (Nat.lt_succ_self scope) name

end newScope

theorem declareVariable_eq_ok {id : Nat} {ty : Ty} {kind : DeclKind} {span : Span} :
    tree.declareVariable scope name ty kind span = .ok (id, tree') ↔
      scope < tree.parents.length ∧ tree.declaredIn? scope name = none ∧
        id = tree.decls.length ∧
        tree' = { tree with decls := tree.decls ++ [⟨name, ty, ty, kind, scope, span⟩] } := by
  unfold declareVariable
  simp only [bind_eq_ok, mapError_eq_ok, parent_eq_ok]
  have hv : ∀ i, tree.declaredIn? scope name = some i → ∃ var, tree.var? i = some var := by
    intro i hi
    obtain ⟨hlt, _⟩ := List.findIdx?_eq_some_iff_getElem.mp hi
    exact ⟨_, List.getElem?_eq_getElem hlt⟩
  cases hd : tree.declaredIn? scope name with
  | some i =>
    obtain ⟨var, hvar⟩ := hv i hd
    simp [hvar, throw, throwThe, MonadExceptOf.throw]
  | none =>
    simp only [Option.bind_none, pure_eq_ok, Prod.mk.injEq, true_and]
    constructor
    · rintro ⟨up, hu, rfl, rfl⟩
      exact ⟨(List.getElem?_eq_some_iff.mp hu).1, rfl, rfl⟩
    · rintro ⟨hlt, rfl, rfl⟩
      exact ⟨_, List.getElem?_eq_getElem hlt, rfl, rfl⟩

section declare

variable {tree tree' : ScopeTree} {scope id : Nat} {name : String} {ty : Ty} {kind : DeclKind}
  {span : Span}
  (hd : tree.declareVariable scope name ty kind span = .ok (id, tree'))

include hd

theorem arena_declare (h : tree.Arena) : tree'.Arena := by
  obtain ⟨hlt, _, _, rfl⟩ := declareVariable_eq_ok.1 hd
  refine ⟨h.ordered, ?_⟩
  intro var hv
  rcases List.mem_append.mp hv with hv | hv
  · exact h.inside var hv
  · rw [List.mem_singleton.mp hv]
    exact hlt

theorem grown_declare : Grown scope tree tree' := by
  obtain ⟨_, _, _, rfl⟩ := declareVariable_eq_ok.1 hd
  refine ⟨rfl, ⟨[], by simp⟩, ⟨_, rfl, ?_⟩⟩
  intro var hv
  rw [List.mem_singleton.mp hv]
  exact Or.inl rfl

theorem declaredIn?_declare_self : tree'.declaredIn? scope name = some id := by
  obtain ⟨_, hnone, rfl, rfl⟩ := declareVariable_eq_ok.1 hd
  unfold declaredIn? at hnone ⊢
  rw [List.findIdx?_append, hnone]
  simp

theorem declaredIn?_declare_of_ne {name' : String} (hn : name' ≠ name) (other : ScopeId) :
    tree'.declaredIn? other name' = tree.declaredIn? other name' := by
  obtain ⟨_, _, _, rfl⟩ := declareVariable_eq_ok.1 hd
  refine declaredIn?_append rfl ?_
  rintro var hv ⟨_, hname⟩
  rw [List.mem_singleton.mp hv] at hname
  exact hn hname.symm

theorem sees_declare (h : tree.Arena) (hs : tree.Sees scope env) :
    tree'.Sees scope ((name, id) :: env) := by
  have ha := arena_declare hd h
  have hg := grown_declare hd
  obtain ⟨hlt, _, _, he⟩ := declareVariable_eq_ok.1 hd
  have hps : tree'.parents = tree.parents := by rw [he]
  intro name'
  by_cases hn : name' = name
  · subst hn
    rw [lookupVariable_eq ha (List.getElem?_eq_getElem (hps ▸ hlt)), declaredIn?_declare_self hd]
    simp
  · rw [List.lookup_cons, beq_false_of_ne hn, ← hs name']
    exact lookupVariable_stable h hlt hg.length_parents (fun i _ => by rw [hps])
      fun i _ => declaredIn?_declare_of_ne hd hn i

end declare

end ScopeTree

end ScriptLang
