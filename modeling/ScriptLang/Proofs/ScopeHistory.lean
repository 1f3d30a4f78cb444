import ScriptLang.Proofs.Discovery
import ScriptLang.Proofs.Repetition
import Mathlib.Data.List.Nodup

/-!
# Scope trees, whatever has been done to them

The passes change a scope tree in six ways: they open a scope, declare a variable or a function, set
the type of a variable or the result of a function, and forget the types of variables. A tree that
has come about in this way is consistent: all ways lead to the root, a lookup finds the nearest
declarations and all of them, and a name is declared twice in no scope.
-/

namespace ScriptLang

open Pass ScopeTree

variable {id : DeclId} {params : List Ty} {scope : ScopeId} {tree tree' : ScopeTree}
  {kind : SigKind} {span : Span} {name : String} {ret : Ty}

namespace ScopeTree

/-! ## Changes -/

/-- A change to a scope tree. -/
inductive Edit where
  | newScope (parent : ScopeId)
  | declareVariable (scope : ScopeId) (name : String) (ty : Ty) (kind : DeclKind) (span : Span)
  | declareFunction (scope : ScopeId) (name : String) (params : List Ty) (ret : Ty) (kind : SigKind)
    (span : Span)
  | setVarType (id : DeclId) (ty : Ty)
  | setReturn (id : SigId) (ret : Ty)
  | resetInferred

/-- Makes the change; gives the number of what is new. -/
def Edit.run : Edit → Pass ScopeTree Unit (Option Nat)
  | .newScope parent => do
    return some (← openScope parent)
  | .declareVariable scope name ty kind span => do
    return some (← declareHere () scope name ty kind span)
  | .declareFunction scope name params ret kind span => do
    let tree ← Pass.scopes
    let (id, tree) ← ofExcept () (tree.declareFunction scope name params ret kind span)
    Pass.setScopes tree
    return some id
  | .setVarType id ty => do
    setTypeHere () id ty
    return none
  | .setReturn id ret => do
    let tree ← Pass.scopes
    let tree ← ofExcept () ((tree.setReturn id ret).mapError .fault)
    Pass.setScopes tree
    return none
  | .resetInferred => do
    resetHere
    return none

/-- A scope is opened below an existing one. -/
def Edit.Fits (tree : ScopeTree) : Edit → Prop
  | .newScope parent => parent < tree.parents.length
  | _ => True

/-- A tree that changes have made of the empty one. Some of them may have failed. -/
inductive Edited : ScopeTree → Prop where
  | new : Edited {}
  | edit {tree : ScopeTree} (h : Edited tree) (edit : Edit) (hfit : edit.Fits tree) :
    Edited (state (edit.run tree))

/-! ## What a change can do -/

/-- Whether a scope itself has a variable of the name. -/
def HasVariable (tree : ScopeTree) (name : String) (scope : ScopeId) : Prop :=
  ∃ var ∈ tree.decls, var.scope = scope ∧ var.name = name

/-- Whether a scope itself has a function of the name. -/
def HasFunction (tree : ScopeTree) (name : String) (scope : ScopeId) : Prop :=
  ∃ sig ∈ tree.sigs, sig.scope = scope ∧ sig.name = name

/-- Whether a scope itself has a function of the name with the parameters. -/
def HasOverload (tree : ScopeTree) (name : String) (params : List Ty) (scope : ScopeId) : Prop :=
  ∃ sig ∈ tree.sigs, sig.scope = scope ∧ sig.name = name ∧ sig.params = params

/-- What a change that succeeds makes of a tree. -/
inductive Change (tree : ScopeTree) : ScopeTree → Prop where
  | opened (parent : ScopeId) (hlt : parent < tree.parents.length) :
    Change tree (tree.newScope parent).2
  | declared (scope : ScopeId) (name : String) (ty : Ty) (kind : DeclKind) (span : Span)
    (hlt : scope < tree.parents.length) (hnew : ¬ tree.HasVariable name scope) :
    Change tree { tree with decls := tree.decls ++ [⟨name, ty, ty, kind, scope, span⟩] }
  | overloaded (scope : ScopeId) (name : String) (params : List Ty) (ret : Ty) (kind : SigKind)
    (span : Span) (hlt : scope < tree.parents.length)
    (hnew : ¬ tree.HasOverload name params scope) :
    Change tree { tree with sigs := tree.sigs ++ [⟨name, params, ret, kind, span, scope⟩] }
  | retyped (id : DeclId) (var : VarDecl) (ty : Ty) (hv : tree.decls[id]? = some var) :
    Change tree (tree.retype id var ty)
  | settled (id : SigId) (sig : Signature) (ret : Ty) (hs : tree.sigs[id]? = some sig) :
    Change tree (tree.settle id sig ret)
  | reset : Change tree tree.resetInferred

theorem declaredIn?_eq_none :
    tree.declaredIn? scope name = none ↔ ¬ tree.HasVariable name scope := by
  rw [declaredIn?, List.findIdx?_eq_none_iff]
  simp [HasVariable]

theorem exists_of_declaredIn? (h : tree.declaredIn? scope name = some id) :
    ∃ var, tree.decls[id]? = some var ∧ var.scope = scope ∧ var.name = name := by
  obtain ⟨hlt, hp, _⟩ := List.findIdx?_eq_some_iff_getElem.mp h
  refine ⟨tree.decls[id], List.getElem?_eq_getElem hlt, ?_⟩
  simpa using hp

theorem declareVariable_new (ty : Ty) (kind : DeclKind) (span : Span)
    (hlt : scope < tree.parents.length) (hnew : ¬ tree.HasVariable name scope) :
    tree.declareVariable scope name ty kind span = .ok (tree.decls.length,
      { tree with decls := tree.decls ++ [⟨name, ty, ty, kind, scope, span⟩] }) :=
  declareVariable_eq_ok.mpr ⟨hlt, declaredIn?_eq_none.2 hnew, rfl, rfl⟩

theorem declareVariable_twice (ty : Ty) (kind : DeclKind) (span : Span)
    (hlt : scope < tree.parents.length) (hold : tree.HasVariable name scope) :
    ∃ previous ∈ tree.decls, previous.scope = scope ∧ previous.name = name ∧
      tree.declareVariable scope name ty kind span =
        .error (.error (.illegalRedefine name span previous.span)) := by
  cases hd : tree.declaredIn? scope name with
  | none => exact absurd hold (declaredIn?_eq_none.1 hd)
  | some id =>
    obtain ⟨var, hv, hscope, hname⟩ := exists_of_declaredIn? hd
    refine ⟨var, List.mem_of_getElem? hv, hscope, hname, ?_⟩
    have hup : tree.parent scope = .ok tree.parents[scope] :=
      parent_eq_ok.mpr (List.getElem?_eq_getElem hlt)
    simp only [declareVariable, hup, hd, Option.bind_some, var?, hv]
    rfl

theorem declareFunction_new (ret : Ty) (kind : SigKind) (span : Span)
    (hlt : scope < tree.parents.length) (hnew : ¬ tree.HasOverload name params scope) :
    tree.declareFunction scope name params ret kind span = .ok (tree.sigs.length,
      { tree with sigs := tree.sigs ++ [⟨name, params, ret, kind, span, scope⟩] }) := by
  apply declareFunction_of_fresh hlt
  intro sig hs hp
  obtain ⟨hm, hscope, hname⟩ := mem_overloads.mp hs
  exact hnew ⟨sig, hm, hscope, hname, hp⟩

theorem mem_overloadsIn {sig : Signature} {id : SigId} :
    (sig, id) ∈ tree.overloadsIn scope name ↔
      tree.sigs[id]? = some sig ∧ sig.scope = scope ∧ sig.name = name := by
  simp [overloadsIn, List.mem_zipIdx_iff_getElem?]

theorem declareFunction_twice (ret : Ty) (kind : SigKind) (span : Span)
    (hlt : scope < tree.parents.length) (hold : tree.HasOverload name params scope) :
    ∃ previous ∈ tree.sigs, previous.scope = scope ∧ previous.name = name ∧
      previous.params = params ∧ tree.declareFunction scope name params ret kind span =
        .error (.error (.illegalRedefine name span previous.span)) := by
  have hup : tree.parent scope = .ok tree.parents[scope] :=
    parent_eq_ok.mpr (List.getElem?_eq_getElem hlt)
  cases hf : (tree.overloadsIn scope name).find? fun entry => entry.1.params = params with
  | none =>
    obtain ⟨sig, hm, hscope, hname, hp⟩ := hold
    obtain ⟨id, hid⟩ := List.mem_iff_getElem?.mp hm
    have hno := List.find?_eq_none.mp hf (sig, id) (mem_overloadsIn.mpr ⟨hid, hscope, hname⟩)
    exact absurd hp (by simpa using hno)
  | some entry =>
    obtain ⟨previous, id⟩ := entry
    obtain ⟨hid, hscope, hname⟩ := mem_overloadsIn.mp (List.mem_of_find?_eq_some hf)
    have hp : previous.params = params := by simpa using List.find?_some hf
    refine ⟨previous, List.mem_of_getElem? hid, hscope, hname, hp, ?_⟩
    simp only [declareFunction, hup, hf]
    rfl

theorem parent_missing {scope : Nat} (h : ¬ scope < tree.parents.length) :
    tree.parent scope = .error (.noScope scope) := by
  simp [parent, List.getElem?_eq_none (Nat.le_of_not_lt h)]

theorem lt_of_declareFunction {entry : SigId × ScopeTree}
    (h : tree.declareFunction scope name params ret kind span = .ok entry) :
    scope < tree.parents.length := by
  by_contra hlt
  rw [declareFunction, parent_missing hlt] at h
  cases h

theorem Edit.declareVariable_stopped {ty : Ty} {kind : DeclKind} {halt : Halt} :
    (Edit.declareVariable scope name ty kind span).run tree = .stopped () halt tree' ↔
      tree' = tree ∧ tree.declareVariable scope name ty kind span = .error halt := by
  cases hd : tree.declareVariable scope name ty kind span <;>
    simp [Edit.run, declareHere, hd, and_comm, eq_comm]

theorem Edit.declareFunction_stopped {halt : Halt} :
    (Edit.declareFunction scope name params ret kind span).run tree = .stopped () halt tree' ↔
      tree' = tree ∧ tree.declareFunction scope name params ret kind span = .error halt := by
  cases hd : tree.declareFunction scope name params ret kind span <;>
    simp [Edit.run, hd, and_comm, eq_comm]

/-- An edit fails and leaves the tree as it was, or makes one of the changes above. -/
theorem Edit.run_cases (tree : ScopeTree) (edit : Edit) :
    (∃ halt, edit.run tree = .stopped () halt tree) ∨
      ∃ id tree', edit.run tree = .done id tree' ∧ (edit.Fits tree → Change tree tree') := by
  cases edit with
  | newScope parent => exact Or.inr ⟨_, _, rfl, .opened parent⟩
  | declareVariable scope name ty kind span =>
    cases hd : tree.declareVariable scope name ty kind span with
    | error halt =>
      refine Or.inl ⟨halt, ?_⟩
      simp [Edit.run, declareHere, hd]
    | ok entry =>
      obtain ⟨hlt, hnone, -, htree⟩ := declareVariable_eq_ok.mp hd
      refine Or.inr ⟨some entry.1, _, ?_,
        fun _ => .declared scope name ty kind span hlt (declaredIn?_eq_none.1 hnone)⟩
      simp [Edit.run, declareHere, hd, htree]
  | declareFunction scope name params ret kind span =>
    cases hd : tree.declareFunction scope name params ret kind span with
    | error halt =>
      refine Or.inl ⟨halt, ?_⟩
      simp [Edit.run, hd]
    | ok entry =>
      obtain ⟨hfresh, -, htree⟩ := declareFunction_eq_ok hd
      have hnew : ¬ tree.HasOverload name params scope := by
        rintro ⟨sig, hm, hscope, hname, hp⟩
        exact hfresh sig (mem_overloads.mpr ⟨hm, hscope, hname⟩) hp
      refine Or.inr ⟨some entry.1, _, ?_,
        fun _ => .overloaded scope name params ret kind span (lt_of_declareFunction hd) hnew⟩
      simp [Edit.run, hd, htree]
  | setVarType id ty =>
    cases hd : tree.setVarType id ty with
    | error fault =>
      refine Or.inl ⟨.fault fault, ?_⟩
      simp [Edit.run, setTypeHere, hd, mapError_error]
    | ok tree' =>
      obtain ⟨var, hv, rfl⟩ := setVarType_eq_ok.mp hd
      have hrun : setTypeHere () id ty tree = .done () (tree.retype id var ty) :=
        setTypeHere_eq_done.mpr ⟨var, hv, rfl⟩
      refine Or.inr ⟨none, _, ?_, fun _ => .retyped id var ty hv⟩
      simp [Edit.run, hrun]
  | setReturn id ret =>
    cases hd : tree.setReturn id ret with
    | error fault =>
      refine Or.inl ⟨.fault fault, ?_⟩
      simp [Edit.run, hd, mapError_error]
    | ok tree' =>
      obtain ⟨sig, hs, rfl⟩ := setReturn_eq_ok.mp hd
      refine Or.inr ⟨none, _, ?_, fun _ => .settled id sig ret hs⟩
      have hok : (tree.setReturn id ret).mapError Halt.fault = .ok (tree.settle id sig ret) :=
        mapError_eq_ok.mpr hd
      simp [Edit.run, hok]
  | resetInferred => exact Or.inr ⟨_, _, rfl, fun _ => .reset⟩

/-! ## Keys

A scope and what must not be declared in it twice. Types and results may be set, keys stay. -/

def varKeys (tree : ScopeTree) : List (ScopeId × String) :=
  tree.decls.map fun var => (var.scope, var.name)

def sigKeys (tree : ScopeTree) : List (ScopeId × String × List Ty) :=
  tree.sigs.map fun sig => (sig.scope, sig.name, sig.params)

theorem varKeys_retype {var : VarDecl} (hv : tree.decls[id]? = some var) (ty : Ty) :
    (tree.retype id var ty).varKeys = tree.varKeys := by
  have hkey : tree.varKeys[id]? = some (var.scope, var.name) := by simp [varKeys, hv]
  rw [varKeys, retype, List.map_set]
  exact set_eq_self hkey

theorem sigKeys_settle {id : SigId} {sig : Signature} (hs : tree.sigs[id]? = some sig) (ret : Ty) :
    (tree.settle id sig ret).sigKeys = tree.sigKeys := by
  have hkey : tree.sigKeys[id]? = some (sig.scope, sig.name, sig.params) := by simp [sigKeys, hs]
  rw [sigKeys, settle, List.map_set]
  exact set_eq_self hkey

theorem varKeys_resetInferred (tree : ScopeTree) : tree.resetInferred.varKeys = tree.varKeys := by
  simp [varKeys, resetInferred]

theorem mem_varKeys : (scope, name) ∈ tree.varKeys ↔ tree.HasVariable name scope := by
  simp [varKeys, HasVariable]

theorem mem_sigKeys :
    (scope, name, params) ∈ tree.sigKeys ↔ tree.HasOverload name params scope := by
  simp [sigKeys, HasOverload]

/-- Keys in the first `scopes` scopes, none of them twice. -/
structure Keyed (scopes : Nat) (keys : List (ScopeId × κ)) : Prop where
  inside : ∀ key ∈ keys, scopes > key.1
  once : keys.Nodup

namespace Keyed

variable {scopes : Nat} {keys : List (ScopeId × κ)}

theorem nil : Keyed scopes ([] : List (ScopeId × κ)) :=
  ⟨List.forall_mem_nil _, List.nodup_nil⟩

theorem newScope (h : Keyed scopes keys) : Keyed (scopes + 1) keys :=
  ⟨fun key hk => Nat.lt_succ_of_lt (h.inside key hk), h.once⟩

theorem append (h : Keyed scopes keys) {key : ScopeId × κ} (hlt : key.1 < scopes)
    (hnew : key ∉ keys) : Keyed scopes (keys ++ [key]) := by
  constructor
  · intro other ho
    rcases List.mem_append.mp ho with ho | ho
    · exact h.inside other ho
    · rw [List.mem_singleton.mp ho]
      exact hlt
  · refine List.nodup_append.mpr ⟨h.once, by simp, ?_⟩
    intro other ho last hl he
    rw [he, List.mem_singleton.mp hl] at ho
    exact hnew ho

theorem position (h : Keyed scopes keys) {i j : Nat} {key : ScopeId × κ}
    (hi : keys[i]? = some key) (hj : keys[j]? = some key) : i = j :=
  (List.getElem?_inj (List.getElem?_eq_some_iff.mp hi).1 h.once).mp (hi.trans hj.symm)

end Keyed

/-! ## The invariant -/

/-- What every change keeps: each scope lies below an older one, down to the root, and declarations
lie in scopes that exist, with no key twice. -/
structure Kept (tree : ScopeTree) : Prop where
  root : tree.parents[root]? = some none
  single : ∀ scope : Nat, tree.parents[scope]? = some none → scope = ScopeTree.root
  ordered : ∀ scope up : Nat, tree.parents[scope]? = some (some up) → up < scope
  vars : Keyed tree.parents.length tree.varKeys
  sigs : Keyed tree.parents.length tree.sigKeys

theorem kept_new : Kept {} where
  root := rfl
  single := by
    intro scope h
    cases scope with
    | zero => rfl
    | succ scope => simp at h
  ordered := by
    intro scope up h
    cases scope <;> simp at h
  vars := .nil
  sigs := .nil

theorem Kept.arena (h : tree.Kept) : tree.Arena := by
  refine ⟨h.ordered, ?_⟩
  intro var hv
  exact h.vars.inside _ (List.mem_map_of_mem hv)

theorem getElem?_newScope {parent scope : Nat} {up : Option ScopeId}
    (h : (tree.newScope parent).2.parents[scope]? = some up) :
    tree.parents[scope]? = some up ∨ scope = tree.parents.length ∧ up = some parent := by
  simp only [newScope, List.getElem?_append] at h
  split at h
  · exact Or.inl h
  · rw [List.getElem?_singleton] at h
    split at h
    · exact Or.inr ⟨by omega, (Option.some.inj h).symm⟩
    · cases h

theorem Kept.newScope {tree : ScopeTree} (h : tree.Kept) {parent : Nat}
    (hlt : parent < tree.parents.length) : (tree.newScope parent).2.Kept := by
  have hlen : (tree.newScope parent).2.parents.length = tree.parents.length + 1 := by
    simp [ScopeTree.newScope]
  constructor
  · have hroot : ScopeTree.root < tree.parents.length := (List.getElem?_eq_some_iff.mp h.root).1
    exact (List.getElem?_append_left hroot).trans h.root
  · intro scope hu
    rcases getElem?_newScope hu with hold | ⟨_, hnew⟩
    · exact h.single scope hold
    · cases hnew
  · intro scope up hu
    rcases getElem?_newScope hu with hold | ⟨hscope, hnew⟩
    · exact h.ordered scope up hold
    · rw [hscope, Option.some.inj hnew]
      exact hlt
  · rw [hlen]
    exact h.vars.newScope
  · rw [hlen]
    exact h.sigs.newScope

theorem Kept.change (h : tree.Kept) (hc : Change tree tree') : tree'.Kept := by
  cases hc with
  | opened parent hlt => exact h.newScope hlt
  | declared scope name ty kind span hlt hnew =>
    have hkeys : ScopeTree.varKeys
        { tree with decls := tree.decls ++ [⟨name, ty, ty, kind, scope, span⟩] } =
        tree.varKeys ++ [(scope, name)] := by simp [varKeys]
    refine { h with vars := ?_ }
    rw [hkeys]
    exact h.vars.append hlt (mem_varKeys.not.mpr hnew)
  | overloaded scope name params ret kind span hlt hnew =>
    have hkeys : ScopeTree.sigKeys
        { tree with sigs := tree.sigs ++ [⟨name, params, ret, kind, span, scope⟩] } =
        tree.sigKeys ++ [(scope, name, params)] := by simp [sigKeys]
    refine { h with sigs := ?_ }
    rw [hkeys]
    exact h.sigs.append hlt (mem_sigKeys.not.mpr hnew)
  | retyped id var ty hv => exact { h with vars := varKeys_retype hv ty ▸ h.vars }
  | settled id sig ret hs => exact { h with sigs := sigKeys_settle hs ret ▸ h.sigs }
  | reset => exact { h with vars := varKeys_resetInferred tree ▸ h.vars }

theorem Edited.kept (h : tree.Edited) : tree.Kept := by
  induction h with
  | new => exact kept_new
  | @edit tree _ edit hfit ih =>
    rcases edit.run_cases tree with ⟨halt, hrun⟩ | ⟨id, tree', hrun, hc⟩
    · rw [hrun]
      exact ih
    · rw [hrun]
      exact ih.change (hc hfit)

/-! ## The way to the root -/

/-- The scope so many steps up from a scope. -/
def ancestor? (tree : ScopeTree) : Nat → ScopeId → Option ScopeId
  | 0, scope => some scope
  | steps + 1, scope => (tree.parents[scope]?.join).bind (tree.ancestor? steps)

theorem ancestor?_succ {scope : Nat} {up : Option ScopeId} (h : tree.parents[scope]? = some up)
    (steps : Nat) : tree.ancestor? (steps + 1) scope = up.bind (tree.ancestor? steps) := by
  rw [ancestor?, h, Option.join_some]

/-- The first scope with a property on the way from `start` to the root. -/
structure Innermost (tree : ScopeTree) (start : ScopeId) (P : ScopeId → Prop) (scope : ScopeId) :
    Prop where
  holds : P scope
  nearest : ∃ steps, tree.ancestor? steps start = some scope ∧
    ∀ fewer < steps, ∀ other, tree.ancestor? fewer start = some other → ¬ P other

namespace Innermost

variable {tree : ScopeTree} {start scope other : ScopeId} {P : ScopeId → Prop}

theorem self (h : P start) : tree.Innermost start P start := by
  refine ⟨h, 0, rfl, ?_⟩
  intro fewer hlt
  omega

theorem above {up : ScopeId} (hup : tree.parents[start]? = some (some up)) (hnot : ¬ P start)
    (h : tree.Innermost up P scope) : tree.Innermost start P scope := by
  obtain ⟨steps, hreach, hfirst⟩ := h.nearest
  refine ⟨h.holds, steps + 1, ?_, ?_⟩
  · exact (ancestor?_succ hup steps).trans hreach
  · intro fewer hlt other hother
    cases fewer with
    | zero =>
      rw [← Option.some.inj hother]
      exact hnot
    | succ fewer =>
      apply hfirst fewer (by omega)
      exact (ancestor?_succ hup fewer).symm.trans hother

theorem of_above {up : ScopeId} (hup : tree.parents[start]? = some (some up)) (hnot : ¬ P start)
    (h : tree.Innermost start P scope) : tree.Innermost up P scope := by
  obtain ⟨steps, hreach, hfirst⟩ := h.nearest
  cases steps with
  | zero =>
    rw [Option.some.inj hreach] at hnot
    exact absurd h.holds hnot
  | succ steps =>
    refine ⟨h.holds, steps, (ancestor?_succ hup steps).symm.trans hreach, ?_⟩
    intro fewer hlt other hother
    apply hfirst (fewer + 1) (by omega)
    exact (ancestor?_succ hup fewer).trans hother

theorem not_root (hroot : tree.parents[start]? = some none) (hnot : ¬ P start) :
    ¬ tree.Innermost start P scope := by
  intro h
  obtain ⟨steps, hreach, _⟩ := h.nearest
  cases steps with
  | zero =>
    rw [Option.some.inj hreach] at hnot
    exact hnot h.holds
  | succ steps => simp [ancestor?_succ hroot] at hreach

theorem unique (h : tree.Innermost start P scope) (k : tree.Innermost start P other) :
    scope = other := by
  obtain ⟨steps, hreach, hfirst⟩ := h.nearest
  obtain ⟨steps', hreach', hfirst'⟩ := k.nearest
  rcases Nat.lt_trichotomy steps steps' with hlt | heq | hlt
  · exact absurd h.holds (hfirst' steps hlt scope hreach)
  · rw [heq, hreach'] at hreach
    exact (Option.some.inj hreach).symm
  · exact absurd k.holds (hfirst steps' hlt other hreach')

end Innermost

theorem Kept.reaches_root (h : tree.Kept) (scope : Nat) (hlt : scope < tree.parents.length) :
    ∃ steps, tree.ancestor? steps scope = some ScopeTree.root := by
  induction scope using Nat.strongRecOn with
  | ind scope ih =>
    cases hup : tree.parents[scope] with
    | none =>
      have hroot := h.single scope (List.getElem?_eq_some_iff.mpr ⟨hlt, hup⟩)
      exact ⟨0, congrArg some hroot⟩
    | some up =>
      have hat := List.getElem?_eq_some_iff.mpr ⟨hlt, hup⟩
      have hbelow := h.ordered scope up hat
      obtain ⟨steps, hreach⟩ := ih up hbelow (Nat.lt_trans hbelow hlt)
      exact ⟨steps + 1, (ancestor?_succ hat steps).trans hreach⟩

/-- A walk comes to an end, at the first scope where there is something to find, or at the root. -/
theorem nearest_spec (h : tree.Arena) (here : ScopeId → Option α) (start : Nat)
    (hlt : start < tree.parents.length) :
    (∃ scope found, tree.Innermost start (here · ≠ none) scope ∧ here scope = some found ∧
      tree.nearest here start = .ok (some found)) ∨
    (∀ scope, ¬ tree.Innermost start (here · ≠ none) scope) ∧
      tree.nearest here start = .ok none := by
  induction start using Nat.strongRecOn with
  | ind start ih =>
    have hat := List.getElem?_eq_getElem hlt
    rw [nearest_eq h here hat]
    cases hfound : here start with
    | some found => exact Or.inl ⟨start, found, .self (by simp [hfound]), hfound, rfl⟩
    | none =>
      have hnot : ¬ here start ≠ none := not_not.mpr hfound
      cases hup : tree.parents[start] with
      | none =>
        rw [hup] at hat
        exact Or.inr ⟨fun scope => Innermost.not_root hat hnot, rfl⟩
      | some up =>
        rw [hup] at hat
        have hbelow := h.ordered start up hat
        rcases ih up hbelow (Nat.lt_trans hbelow hlt) with
          ⟨scope, found, hin, hscope, hnear⟩ | ⟨hnone, hnear⟩
        · exact Or.inl ⟨scope, found, hin.above hat hnot, hscope, hnear⟩
        · exact Or.inr ⟨fun scope hin => hnone scope (hin.of_above hat hnot), hnear⟩

/-! ## Lookup -/

theorem Kept.lookupVariable_iff (h : tree.Kept) {start : Nat} (hlt : start < tree.parents.length) :
    tree.lookupVariable start name = .ok (some id) ↔
      ∃ var, tree.decls[id]? = some var ∧ var.name = name ∧
        tree.Innermost start (tree.HasVariable name) var.scope := by
  have hhere : (tree.declaredIn? · name ≠ none) = tree.HasVariable name := by
    funext scope
    rw [ne_eq, declaredIn?_eq_none, not_not]
  have hspec := nearest_spec h.arena (tree.declaredIn? · name) start hlt
  rw [hhere] at hspec
  rw [lookupVariable]
  rcases hspec with ⟨scope, found, hin, hfound, hnear⟩ | ⟨hnone, hnear⟩
  · obtain ⟨var, hv, rfl, rfl⟩ := exists_of_declaredIn? hfound
    rw [hnear]
    constructor
    · intro he
      cases he
      exact ⟨var, hv, rfl, hin⟩
    · rintro ⟨other, ho, hname, hother⟩
      have hkey : tree.varKeys[found]? = some (var.scope, var.name) := by simp [varKeys, hv]
      have hkey' : tree.varKeys[id]? = some (var.scope, var.name) := by
        simp [varKeys, ho, hname, hin.unique hother]
      rw [h.vars.position hkey hkey']
  · rw [hnear]
    constructor
    · intro he
      cases he
    · rintro ⟨var, _, _, hin⟩
      exact absurd hin (hnone var.scope)

theorem overloadsIn_ordered (tree : ScopeTree) (scope : ScopeId) (name : String) :
    (tree.overloadsIn scope name).Pairwise (·.2 < ·.2) := by
  apply List.Pairwise.filter
  rw [← List.pairwise_map (f := Prod.snd)]
  rw [List.zipIdx_map_snd]
  exact List.pairwise_lt_range'

theorem Kept.overloadsIn_distinct (h : tree.Kept) (scope : ScopeId) (name : String) :
    ((tree.overloadsIn scope name).map (·.1.params)).Nodup := by
  apply List.pairwise_map.mpr
  apply (tree.overloadsIn_ordered scope name).imp_of_mem
  rintro ⟨sig, id⟩ ⟨sig', id'⟩ hm hm' hlt hp
  obtain ⟨hs, hscope, hname⟩ := mem_overloadsIn.mp hm
  obtain ⟨hs', hscope', hname'⟩ := mem_overloadsIn.mp hm'
  have hkey : tree.sigKeys[id]? = some (scope, name, sig.params) := by
    simp [sigKeys, hs, hscope, hname]
  have hkey' : tree.sigKeys[id']? = some (scope, name, sig.params) := by
    simp [sigKeys, hs', hscope', hname', show sig'.params = sig.params from hp.symm]
  exact Nat.ne_of_lt hlt (h.sigs.position hkey hkey')

/-- The overloads of a name in a scope itself, if there are any. -/
def overloadsIn? (tree : ScopeTree) (scope : ScopeId) (name : String) :
    Option (List (Signature × SigId)) :=
  if tree.overloadsIn scope name = [] then none else some (tree.overloadsIn scope name)

theorem overloadsIn?_eq_some {found : List (Signature × SigId)}
    (h : tree.overloadsIn? scope name = some found) : found = tree.overloadsIn scope name := by
  unfold overloadsIn? at h
  split at h
  · cases h
  · exact (Option.some.inj h).symm

theorem overloadsIn?_eq_none :
    tree.overloadsIn? scope name = none ↔ ¬ tree.HasFunction name scope := by
  have hnil : tree.overloadsIn scope name = [] ↔ tree.overloads scope name = [] := by
    rw [← map_overloadsIn, List.map_eq_nil_iff]
  simp only [overloadsIn?, hnil, ite_eq_left_iff, reduceCtorEq, imp_false, not_not]
  simp [overloads, HasFunction]

theorem lookupOverloads_eq (tree : ScopeTree) (start : ScopeId) (name : String) :
    tree.lookupOverloads start name =
      (tree.nearest (tree.overloadsIn? · name) start).map (·.getD []) := by
  change Except.map (·.getD []) (tree.nearest _ start) = _
  refine congrArg (fun here => Except.map (·.getD []) (tree.nearest here start)) (funext ?_)
  intro scope
  unfold overloadsIn?
  cases tree.overloadsIn scope name <;> rfl

/-- The overloads that a call by `name` can mean: those of the nearest scope with such a function,
in the order of their declaration and with different parameters. -/
structure Overloads (tree : ScopeTree) (start : ScopeId) (name : String)
    (found : List (Signature × SigId)) : Prop where
  mem : ∀ sig id, (sig, id) ∈ found ↔ tree.sigs[id]? = some sig ∧ sig.name = name ∧
    tree.Innermost start (tree.HasFunction name) sig.scope
  ordered : found.Pairwise (·.2 < ·.2)
  distinct : (found.map (·.1.params)).Nodup

theorem Kept.lookupOverloads_spec (h : tree.Kept) {start : Nat} (hlt : start < tree.parents.length)
    (name : String) :
    ∃ found, tree.lookupOverloads start name = .ok found ∧ tree.Overloads start name found := by
  have hhere : (tree.overloadsIn? · name ≠ none) = tree.HasFunction name := by
    funext scope
    rw [ne_eq, overloadsIn?_eq_none, not_not]
  have hspec := nearest_spec h.arena (tree.overloadsIn? · name) start hlt
  rw [hhere] at hspec
  rw [lookupOverloads_eq]
  rcases hspec with ⟨scope, found, hin, hfound, hnear⟩ | ⟨hnone, hnear⟩
  · rw [overloadsIn?_eq_some hfound] at hnear
    refine ⟨tree.overloadsIn scope name, by rw [hnear]; rfl, ?_,
      tree.overloadsIn_ordered scope name, h.overloadsIn_distinct scope name⟩
    intro sig id
    rw [mem_overloadsIn]
    constructor
    · rintro ⟨hs, rfl, hname⟩
      exact ⟨hs, hname, hin⟩
    · rintro ⟨hs, hname, hin'⟩
      exact ⟨hs, hin'.unique hin, hname⟩
  · refine ⟨[], by rw [hnear]; rfl, ?_, List.Pairwise.nil, List.nodup_nil⟩
    intro sig id
    constructor
    · intro hm
      cases hm
    · rintro ⟨_, _, hin⟩
      exact absurd hin (hnone sig.scope)

/-! ## Consistency -/

/-- A scope tree as the passes expect it. -/
structure Consistent (tree : ScopeTree) : Prop where
  /-- Only the root has no parent, and the parent of a scope is older. -/
  root : ∀ scope : Nat, tree.parents[scope]? = some none ↔ scope = ScopeTree.root
  ordered : ∀ scope up : Nat, tree.parents[scope]? = some (some up) → up < scope
  /-- The way from a scope leads to the root, and a walk along it gives an answer. -/
  reaches : ∀ scope < tree.parents.length,
    ∃ steps, tree.ancestor? steps scope = some ScopeTree.root
  walks : ∀ {α : Type} (here : ScopeId → Option α), ∀ scope < tree.parents.length,
    ∃ found, tree.nearest here scope = .ok found
  /-- A name means what the nearest scope that has it declares. -/
  lookup : ∀ scope < tree.parents.length, ∀ name id,
    tree.lookupVariable scope name = .ok (some id) ↔
      ∃ var, tree.decls[id]? = some var ∧ var.name = name ∧
        tree.Innermost scope (tree.HasVariable name) var.scope
  overloads : ∀ scope < tree.parents.length, ∀ name,
    ∃ found, tree.lookupOverloads scope name = .ok found ∧ tree.Overloads scope name found
  /-- A scope takes a variable once. -/
  redeclares : ∀ scope name ty kind span prior tree',
    (Edit.declareVariable scope name ty kind span).run tree =
        .stopped () (.error (.illegalRedefine name span prior)) tree' ↔
      tree' = tree ∧ ∃ var ∈ tree.decls, var.scope = scope ∧ var.name = name ∧ var.span = prior
  declares : ∀ scope < tree.parents.length, ∀ name ty kind span,
    ¬ tree.HasVariable name scope →
    (Edit.declareVariable scope name ty kind span).run tree = .done (some tree.decls.length)
      { tree with decls := tree.decls ++ [⟨name, ty, ty, kind, scope, span⟩] }
  /-- A scope takes a function once for given parameters. -/
  redefines : ∀ scope name params ret kind span prior tree',
    (Edit.declareFunction scope name params ret kind span).run tree =
        .stopped () (.error (.illegalRedefine name span prior)) tree' ↔
      tree' = tree ∧ ∃ sig ∈ tree.sigs, sig.scope = scope ∧ sig.name = name ∧
        sig.params = params ∧ sig.span = prior
  defines : ∀ scope < tree.parents.length, ∀ name params ret kind span,
    ¬ tree.HasOverload name params scope →
    (Edit.declareFunction scope name params ret kind span).run tree = .done (some tree.sigs.length)
      { tree with sigs := tree.sigs ++ [⟨name, params, ret, kind, span, scope⟩] }
  /-- What fails changes nothing. -/
  unchanged : ∀ (edit : Edit) halt tree', edit.run tree = .stopped () halt tree' → tree' = tree

theorem Kept.declareVariable_redefines (h : tree.Kept) {scope : Nat} {ty : Ty} {kind : DeclKind}
    {prior : Span} :
    tree.declareVariable scope name ty kind span =
        .error (.error (.illegalRedefine name span prior)) ↔
      ∃ var ∈ tree.decls, var.scope = scope ∧ var.name = name ∧ var.span = prior := by
  constructor
  · intro hd
    by_cases hlt : scope < tree.parents.length
    · by_cases hold : tree.HasVariable name scope
      · obtain ⟨previous, hm, hscope, hname, hd'⟩ := declareVariable_twice ty kind span hlt hold
        rw [hd'] at hd
        cases hd
        exact ⟨previous, hm, hscope, hname, rfl⟩
      · rw [declareVariable_new ty kind span hlt hold] at hd
        cases hd
    · rw [declareVariable, parent_missing hlt] at hd
      cases hd
  · rintro ⟨var, hm, rfl, rfl, rfl⟩
    have hlt := h.vars.inside _ (List.mem_map_of_mem hm)
    obtain ⟨previous, hm', hscope, hname, hd⟩ :=
      declareVariable_twice ty kind span hlt ⟨var, hm, rfl, rfl⟩
    have hsame : previous = var :=
      List.inj_on_of_nodup_map h.vars.once hm' hm (Prod.ext hscope hname)
    rw [hd, hsame]

theorem Kept.declareFunction_redefines (h : tree.Kept) {scope : Nat} {prior : Span} :
    tree.declareFunction scope name params ret kind span =
        .error (.error (.illegalRedefine name span prior)) ↔
      ∃ sig ∈ tree.sigs, sig.scope = scope ∧ sig.name = name ∧ sig.params = params ∧
        sig.span = prior := by
  constructor
  · intro hd
    by_cases hlt : scope < tree.parents.length
    · by_cases hold : tree.HasOverload name params scope
      · obtain ⟨previous, hm, hscope, hname, hp, hd'⟩ :=
          declareFunction_twice ret kind span hlt hold
        rw [hd'] at hd
        cases hd
        exact ⟨previous, hm, hscope, hname, hp, rfl⟩
      · rw [declareFunction_new ret kind span hlt hold] at hd
        cases hd
    · rw [declareFunction, parent_missing hlt] at hd
      cases hd
  · rintro ⟨sig, hm, rfl, rfl, rfl, rfl⟩
    have hlt := h.sigs.inside _ (List.mem_map_of_mem hm)
    obtain ⟨previous, hm', hscope, hname, hp, hd⟩ :=
      declareFunction_twice ret kind span hlt ⟨sig, hm, rfl, rfl, rfl⟩
    have hsame : previous = sig :=
      List.inj_on_of_nodup_map h.sigs.once hm' hm (Prod.ext hscope (Prod.ext hname hp))
    rw [hd, hsame]

/-- Every tree that edits have made is consistent. -/
theorem edited_consistent {tree : ScopeTree} (h : tree.Edited) : tree.Consistent := by
  have hk := h.kept
  constructor
  · intro scope
    constructor
    · exact hk.single scope
    · rintro rfl
      exact hk.root
  · exact hk.ordered
  · exact hk.reaches_root
  · intro α here scope hlt
    rcases nearest_spec hk.arena here scope hlt with ⟨_, found, _, _, hnear⟩ | ⟨_, hnear⟩
    · exact ⟨some found, hnear⟩
    · exact ⟨none, hnear⟩
  · intro scope hlt name id
    exact hk.lookupVariable_iff hlt
  · intro scope hlt name
    exact hk.lookupOverloads_spec hlt name
  · intro scope name ty kind span prior tree'
    rw [Edit.declareVariable_stopped, hk.declareVariable_redefines]
  · intro scope hlt name ty kind span hnew
    simp [Edit.run, declareHere, declareVariable_new ty kind span hlt hnew]
  · intro scope name params ret kind span prior tree'
    rw [Edit.declareFunction_stopped, hk.declareFunction_redefines]
  · intro scope hlt name params ret kind span hnew
    simp [Edit.run, declareFunction_new ret kind span hlt hnew]
  · intro edit halt tree' hrun
    rcases edit.run_cases tree with ⟨halt', hrun'⟩ | ⟨id, tree'', hrun', _⟩
    · rw [hrun'] at hrun
      cases hrun
      rfl
    · rw [hrun'] at hrun
      cases hrun

/-- Two nested scopes below the root. The outer one hides a variable and a function. -/
def shadowed : ScopeTree where
  parents := [none, some 0, some 1]
  decls := [⟨"x", .int, .int, .param, 0, {}⟩, ⟨"x", .unknown, .float, .localVar, 1, {}⟩]
  sigs := [⟨"f", [.int], .int, .builtin, {}, 0⟩, ⟨"f", [.int], .bool, .user, {}, 1⟩,
    ⟨"f", [.float], .bool, .user, {}, 1⟩]

theorem edited_consistent_shadowed :
    shadowed.Edited ∧ shadowed.Consistent ∧ shadowed.lookupVariable 2 "x" = .ok (some 1) ∧
      (Edit.declareVariable 1 "x" .bool .localVar {}).run shadowed =
        .stopped () (.error (.illegalRedefine "x" {} {})) shadowed := by
  have h₁ := Edited.new.edit (.declareVariable 0 "x" .int .param {}) trivial
  have h₂ := h₁.edit (.declareFunction 0 "f" [.int] .int .builtin {}) trivial
  have h₃ := h₂.edit (.newScope 0) (Nat.zero_lt_succ 0)
  have h₄ := h₃.edit (.declareVariable 1 "x" .unknown .localVar {}) trivial
  have h₅ := h₄.edit (.declareFunction 1 "f" [.int] .bool .user {}) trivial
  have h₆ := h₅.edit (.declareFunction 1 "f" [.float] .unknown .user {}) trivial
  have h₇ := h₆.edit (.newScope 1) (Nat.lt_succ_self 1)
  have h₈ := h₇.edit .resetInferred trivial
  have h₉ := h₈.edit (.setVarType 1 .float) trivial
  have h : shadowed.Edited := h₉.edit (.setReturn 2 .bool) trivial
  exact ⟨h, edited_consistent h, rfl, rfl⟩

end ScopeTree

end ScriptLang
