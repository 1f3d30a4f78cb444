import ScriptLang.Proofs.Passes
import Mathlib.Data.List.Basic

/-!
# What scope trees have in common

Inference changes a scope tree in two ways only: it retypes a variable, and it settles the return
type of a signature. Two trees that differ in the types of variables look the same to every lookup,
and runs that see the same types for the variables they mention cannot tell the trees apart.
-/

namespace ScriptLang

theorem set_eq_self {xs : List α} {i : Nat} {a : α} (h : xs[i]? = some a) : xs.set i a = xs := by
  obtain ⟨hlt, rfl⟩ := List.getElem?_eq_some_iff.mp h
  exact List.set_getElem_self hlt

namespace ScopeTree

/-! ## Overload sets -/

/-- The signatures of a name in a scope itself. -/
def overloads (tree : ScopeTree) (scope : ScopeId) (name : String) : List Signature :=
  tree.sigs.filter fun sig => sig.scope = scope && sig.name = name

/-- The overload set of a name as seen from a scope: that of the first scope on the way to the root
that has one. -/
inductive NearestOverloads (tree : ScopeTree) (name : String) : ScopeId → List Signature → Prop where
  | here {scope} (h : tree.overloads scope name ≠ []) :
    NearestOverloads tree name scope (tree.overloads scope name)
  | above {scope up found} (h : tree.overloads scope name = [])
    (hp : tree.parents[scope]? = some (some up)) (hf : NearestOverloads tree name up found) :
    NearestOverloads tree name scope found

variable {id : DeclId} {scope : ScopeId} {tree tree' : ScopeTree} {name : String} {var : VarDecl}

theorem map_overloadsIn (tree : ScopeTree) (scope : ScopeId) (name : String) :
    (tree.overloadsIn scope name).map (·.1) = tree.overloads scope name := by
  unfold overloadsIn overloads
  conv_rhs => rw [← List.zipIdx_map_fst 0 tree.sigs]
  rw [List.filter_map]
  rfl

theorem walk_succ {here : ScopeId → Option α} {fuel : Nat} {r : Option α} :
    tree.walk here (fuel + 1) scope = .ok r ↔
      ∃ up, tree.parents[scope]? = some up ∧
        ((∃ found, here scope = some found ∧ some found = r) ∨
          (∃ p, here scope = none ∧ up = some p ∧ tree.walk here fuel p = .ok r) ∨
          (here scope = none ∧ up = none ∧ none = r)) := by
  rw [walk, bind_eq_ok]
  simp only [parent_eq_ok]
  refine exists_congr fun up => and_congr_right fun _ => ?_
  cases here scope <;> cases up <;> simp [pure_eq_ok]

/-- What a walk finds depends on the parents of the tree and on nothing else in it. -/
theorem walk_congr (hp : tree.parents = tree'.parents) (here : ScopeId → Option α) (fuel : Nat)
    (scope : ScopeId) : tree.walk here fuel scope = tree'.walk here fuel scope := by
  induction fuel generalizing scope with
  | zero => rfl
  | succ fuel ih =>
    simp only [walk, parent, hp, ih]

theorem lookupOverloads_congr (hp : tree.parents = tree'.parents) (hs : tree.sigs = tree'.sigs)
    (scope : ScopeId) (name : String) :
    tree.lookupOverloads scope name = tree'.lookupOverloads scope name := by
  simp only [lookupOverloads, nearest, overloadsIn, hs, hp, walk_congr hp]

private theorem nearest_of_walk {found : List (Signature × SigId)} {fuel : Nat} :
    ∀ {scope : ScopeId},
      tree.walk (fun scope => match tree.overloadsIn scope name with
        | [] => none
        | overloads => some overloads) fuel scope = .ok (some found) →
      tree.NearestOverloads name scope (found.map (·.1)) := by
  induction fuel with
  | zero => intro scope h; simp [walk] at h
  | succ fuel ih =>
    intro scope h
    obtain ⟨up, hup, h⟩ := walk_succ.mp h
    rcases h with ⟨here, hh, he⟩ | ⟨p, hh, rfl, h⟩ | ⟨_, _, h⟩
    · cases he
      split at hh
      · cases hh
      · rename_i ho
        cases hh
        rw [map_overloadsIn]
        refine .here fun he => ho ?_
        rw [← map_overloadsIn] at he
        exact List.map_eq_nil_iff.mp he
    · split at hh
      · rename_i ho
        refine .above ?_ hup (ih h)
        rw [← map_overloadsIn, ho]
        rfl
      · cases hh
    · cases h

theorem nearestOverloads_of_lookup {found : List (Signature × SigId)}
    (h : tree.lookupOverloads scope name = .ok found) (hne : found ≠ []) :
    tree.NearestOverloads name scope (found.map (·.1)) := by
  obtain ⟨r, hr, h⟩ := bind_eq_ok.mp h
  rw [pure_eq_ok] at h
  cases r with
  | none => exact (hne h.symm).elim
  | some found' =>
    rw [Option.getD_some] at h
    subst h
    exact nearest_of_walk hr

theorem NearestOverloads.exists_scope {found : List Signature}
    (h : tree.NearestOverloads name scope found) :
    ∃ scope, found = tree.overloads scope name ∧ found ≠ [] := by
  induction h with
  | here h => exact ⟨_, rfl, h⟩
  | above _ _ _ ih => exact ih

theorem mem_overloads {sig : Signature} :
    sig ∈ tree.overloads scope name ↔ sig ∈ tree.sigs ∧ sig.scope = scope ∧ sig.name = name := by
  simp [overloads]

/-! ## Trees that differ in the types of variables -/

/-- Retypes a variable. -/
def retype (tree : ScopeTree) (id : DeclId) (var : VarDecl) (ty : Ty) : ScopeTree :=
  { tree with decls := tree.decls.set id { var with ty } }

theorem setVarType_eq_ok {ty : Ty} :
    tree.setVarType id ty = .ok tree' ↔
      ∃ var, tree.decls[id]? = some var ∧ tree' = tree.retype id var ty := by
  simp only [setVarType, bind_eq_ok, var_eq_ok, pure_eq_ok, retype, @eq_comm _ tree']

/-- Settles the return type of a signature. -/
def settle (tree : ScopeTree) (id : SigId) (sig : Signature) (ret : Ty) : ScopeTree :=
  { tree with sigs := tree.sigs.set id { sig with ret } }

theorem setReturn_eq_ok {id : SigId} {ret : Ty} :
    tree.setReturn id ret = .ok tree' ↔
      ∃ sig, tree.sigs[id]? = some sig ∧ tree' = tree.settle id sig ret := by
  simp only [setReturn, bind_eq_ok, signature_eq_ok, pure_eq_ok, settle, @eq_comm _ tree']

/-- Two trees that are the same but for the types of variables, and give the same types to the
variables `on`. -/
structure Agree (on : DeclId → Prop) (tree tree' : ScopeTree) : Prop where
  skeleton : tree.resetInferred = tree'.resetInferred
  types : ∀ id, on id → tree.decls[id]? = tree'.decls[id]?

namespace Agree

variable {on on' : DeclId → Prop} {tree tree' tree'' : ScopeTree}

theorem refl (on : DeclId → Prop) (tree : ScopeTree) : Agree on tree tree :=
  ⟨rfl, fun _ _ => rfl⟩

theorem symm (h : Agree on tree tree') : Agree on tree' tree :=
  ⟨h.skeleton.symm, fun id hid => (h.types id hid).symm⟩

theorem trans (h : Agree on tree tree') (k : Agree on tree' tree'') : Agree on tree tree'' :=
  ⟨h.skeleton.trans k.skeleton, fun id hid => (h.types id hid).trans (k.types id hid)⟩

theorem mono (h : Agree on tree tree') (hon : ∀ id, on' id → on id) : Agree on' tree tree' :=
  ⟨h.skeleton, fun id hid => h.types id (hon id hid)⟩

theorem parents (h : Agree on tree tree') : tree.parents = tree'.parents := by
  have hs := congrArg ScopeTree.parents h.skeleton
  exact hs

theorem sigs (h : Agree on tree tree') : tree.sigs = tree'.sigs := by
  have hs := congrArg ScopeTree.sigs h.skeleton
  exact hs

theorem decl (h : Agree on tree tree') (id : DeclId) :
    (tree.decls[id]?).map (fun var => { var with ty := var.declared }) =
      (tree'.decls[id]?).map fun var => { var with ty := var.declared } := by
  have hd := congrArg (fun tree : ScopeTree => tree.decls[id]?) h.skeleton
  simpa [resetInferred] using hd

theorem exists_decl (h : Agree on tree tree') (hv : tree.decls[id]? = some var) :
    ∃ var', tree'.decls[id]? = some var' ∧ var' = { var with ty := var'.ty } := by
  have hd := h.decl id
  rw [hv, Option.map_some] at hd
  obtain ⟨var', hv', he⟩ := Option.map_eq_some_iff.mp hd.symm
  refine ⟨var', hv', ?_⟩
  obtain ⟨name, declared, ty, kind, scope, span⟩ := var
  obtain ⟨name', declared', ty', kind', scope', span'⟩ := var'
  simp only [VarDecl.mk.injEq] at he ⊢
  exact ⟨he.1, he.2.1, trivial, he.2.2.2⟩

theorem length (h : Agree on tree tree') : tree.decls.length = tree'.decls.length := by
  have hl := congrArg (fun tree : ScopeTree => tree.decls.length) h.skeleton
  simpa [resetInferred] using hl

theorem of_retype (hv : tree.decls[id]? = some var) (ty : Ty) :
    Agree (· ≠ id) tree (tree.retype id var ty) := by
  constructor
  · have hd : (tree.decls.set id { var with ty }).map (fun var => { var with ty := var.declared }) =
        tree.decls.map fun var => { var with ty := var.declared } := by
      apply List.ext_getElem?
      intro i
      rw [List.getElem?_map, List.getElem?_map, List.getElem?_set]
      by_cases hi : id = i
      · subst hi
        obtain ⟨hlt, he⟩ := List.getElem?_eq_some_iff.mp hv
        simp [hlt, he]
      · simp [hi]
    simp only [resetInferred, retype, hd]
  · intro i hi
    simp [retype, List.getElem?_set_ne (Ne.symm hi)]

theorem retype (h : Agree on tree tree') {id : DeclId} {var var' : VarDecl}
    (hv : tree.decls[id]? = some var) (hv' : tree'.decls[id]? = some var') (ty : Ty) :
    Agree on (tree.retype id var ty) (tree'.retype id var' ty) := by
  refine ⟨(of_retype hv ty).skeleton.symm.trans
    (h.skeleton.trans (of_retype hv' ty).skeleton), ?_⟩
  intro i hi
  by_cases he : id = i
  · subst he
    obtain ⟨var'', hv'', he⟩ := h.exists_decl hv
    rw [hv'] at hv''
    cases hv''
    have hlt := (List.getElem?_eq_some_iff.mp hv).1
    have hlt' := (List.getElem?_eq_some_iff.mp hv').1
    have hs : { var' with ty } = { var with ty } := by rw [he]
    simp [ScopeTree.retype, hlt, hlt', hs]
  · simp only [ScopeTree.retype, List.getElem?_set_ne he]
    exact h.types i hi

theorem lookupOverloads (h : Agree on tree tree') (scope : ScopeId) (name : String) :
    tree.lookupOverloads scope name = tree'.lookupOverloads scope name :=
  lookupOverloads_congr h.parents h.sigs scope name

end Agree

theorem retype_self (hv : tree.decls[id]? = some var) : tree.retype id var var.ty = tree := by
  simp only [retype, set_eq_self hv]

theorem settle_self {id : SigId} {sig : Signature} (hs : tree.sigs[id]? = some sig) :
    tree.settle id sig sig.ret = tree := by
  simp only [settle, set_eq_self hs]

end ScopeTree

end ScriptLang
