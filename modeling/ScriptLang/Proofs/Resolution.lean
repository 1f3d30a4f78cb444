import ScriptLang.Proofs.Binding
import ScriptLang.Proofs.Unification

/-!
# What resolution leaves

The scope tree of a resolved unit: the root with the built-ins, below it the scope of the unit with
one signature for each function, and a declaration for each binding site. No overload is declared
twice.
-/

namespace ScriptLang

open Pass ScopeTree

variable {params : List Ty} {tree : ScopeTree} {kind : SigKind} {span : Span} {name : String}
  {ret : Ty}

/-! ## Annotations name known types -/

theorem TypeExpr.resolve_eq_ok {expr : TypeExpr} {ty : Ty} (h : expr.resolve = .ok ty) :
    ty = .basic expr.name ∧ ty.Prim := by
  unfold TypeExpr.resolve at h
  split at h
  · rename_i hm
    cases h
    refine ⟨rfl, ?_⟩
    simp only [typeNames, List.mem_cons, List.not_mem_nil, or_false] at hm
    rcases hm with hm | hm | hm | hm <;> rw [hm] <;> decide
  · cases h

theorem Site.Declares.flat {site : Site} {var : VarDecl} (h : site.Declares var) :
    var.declared.Flat := by
  have ht := h.type
  unfold Site.type at ht
  split at ht
  · rw [← Except.ok.inj ht]
    exact Ty.prim_int.flat
  · cases ha : site.ascription with
    | none =>
      rw [ha] at ht
      rw [← Except.ok.inj ht]
      exact Ty.flat_unknown
    | some ascription =>
      rw [ha] at ht
      exact (TypeExpr.resolve_eq_ok ht).2.flat

/-! ## Signatures -/

/-- A scope declares a name with given parameters once. -/
def ScopeTree.Unambiguous (tree : ScopeTree) : Prop :=
  tree.sigs.Pairwise fun a b => ¬ (a.scope = b.scope ∧ a.name = b.name ∧ a.params = b.params)

theorem ScopeTree.declareFunction_eq_ok {tree' : ScopeTree} {scope : ScopeId} {id : SigId}
    (h : tree.declareFunction scope name params ret kind span = .ok (id, tree')) :
    (∀ sig ∈ tree.overloads scope name, sig.params ≠ params) ∧ id = tree.sigs.length ∧
      tree' = { tree with sigs := tree.sigs ++ [⟨name, params, ret, kind, span, scope⟩] } := by
  unfold declareFunction at h
  simp only [bind_eq_ok, mapError_eq_ok] at h
  obtain ⟨_, _, h⟩ := h
  split at h
  · cases h
  · rename_i hf
    rw [pure_eq_ok, Prod.mk.injEq] at h
    refine ⟨?_, h.1.symm, h.2.symm⟩
    intro sig hs
    rw [← map_overloadsIn, List.mem_map] at hs
    obtain ⟨entry, he, rfl⟩ := hs
    simpa using List.find?_eq_none.mp hf entry he

theorem ScopeTree.declareFunction_of_fresh {scope : Nat} (hlt : scope < tree.parents.length)
    (hf : ∀ sig ∈ tree.overloads scope name, sig.params ≠ params) :
    tree.declareFunction scope name params ret kind span = .ok (tree.sigs.length,
      { tree with sigs := tree.sigs ++ [⟨name, params, ret, kind, span, scope⟩] }) := by
  have hnone : (tree.overloadsIn scope name).find? (fun entry => entry.1.params = params) = none := by
    rw [List.find?_eq_none]
    intro entry he
    have hm : entry.1 ∈ tree.overloads scope name := by
      rw [← map_overloadsIn]
      exact List.mem_map_of_mem he
    simpa using hf entry.1 hm
  have hup : tree.parent scope = .ok tree.parents[scope] :=
    parent_eq_ok.mpr (List.getElem?_eq_getElem hlt)
  simp only [declareFunction, hup, hnone]
  rfl

theorem ScopeTree.Unambiguous.declare (h : tree.Unambiguous) {scope : ScopeId}
    (hn : ∀ sig ∈ tree.overloads scope name, sig.params ≠ params) :
    ({ tree with sigs := tree.sigs ++ [⟨name, params, ret, kind, span, scope⟩] } :
      ScopeTree).Unambiguous := by
  refine List.pairwise_append.mpr ⟨h, List.pairwise_singleton _ _, ?_⟩
  intro a ha b hb
  rw [List.mem_singleton.mp hb]
  rintro ⟨hs, hname, hp⟩
  exact hn a (mem_overloads.mpr ⟨ha, hs, hname⟩) hp

/-- The signature that a definition shows before its body is looked at. -/
def FnDef.Shows (unitScope : ScopeId) (fn : FnDef) (sig : Signature) : Prop :=
  ∃ params ret, fn.signatureTypes = .ok (params, ret) ∧
    sig = ⟨fn.name, params, ret, .user, fn.span, unitScope⟩

theorem declareSignatures_spec {node : ν} {unitScope : ScopeId} :
    ∀ (fns : List FnDef) {tree tree' : ScopeTree} {ids : List SigId}, tree.Unambiguous →
      declareSignatures node unitScope fns tree = .done ids tree' →
      tree'.Unambiguous ∧ ids = List.range' tree.sigs.length fns.length ∧
        ∃ users, List.Forall₂ (FnDef.Shows unitScope) fns users ∧
          tree' = { tree with sigs := tree.sigs ++ users }
  | [], _, _, _, hu, h => by
    simp only [declareSignatures, pure_eq_done] at h
    obtain ⟨rfl, rfl⟩ := h
    exact ⟨hu, rfl, [], .nil, by simp⟩
  | _ :: fns, _, _, ids, hu, h => by
    simp only [declareSignatures, declareSignature, bind_eq_done, ofExcept_eq_done, note_eq_done,
      scopes_eq_done, setScopes_eq_done, pure_eq_done, Prod.exists] at h
    obtain ⟨id, _, ⟨params, ret, _, ⟨ht, rfl⟩, _, _, rfl, _, _, ⟨rfl, rfl⟩, _, _, _, ⟨hd, rfl⟩, _,
      _, rfl, rfl, rfl⟩, ids, _, hs, rfl, rfl⟩ := h
    obtain ⟨hn, rfl, rfl⟩ := declareFunction_eq_ok hd
    obtain ⟨hu', rfl, users, hf, rfl⟩ := declareSignatures_spec fns (hu.declare hn) hs
    refine ⟨hu', ?_, _ :: users, .cons ⟨params, ret, ht, rfl⟩ hf, by simp⟩
    simp [List.range'_succ]

/-- The signatures of the built-ins. -/
def builtinSignatures : List Signature :=
  Builtin.all.map fun b => ⟨b.name, b.params, b.ret, .builtin, {}, root⟩

theorem initial_eq :
    ScopeTree.initial = { parents := [none], decls := [], sigs := builtinSignatures } := by
  rfl

theorem unambiguous_initial : ScopeTree.initial.Unambiguous := by
  rw [initial_eq]
  unfold ScopeTree.Unambiguous
  decide

/-! ## What a definition shows does not depend on annotations -/

mutual
theorem Block.containsReturn_clear (keep : Bool) : ∀ block : Block,
    (block.clear keep).containsReturn = block.containsReturn
  | ⟨stmts, _, _, _, _⟩ => by
    simp [Block.clear, Block.containsReturn, anyReturn_clear keep stmts]
theorem Stmt.containsReturn_clear (keep : Bool) : ∀ stmt : Stmt,
    (stmt.clear keep).containsReturn = stmt.containsReturn
  | .decl .. => rfl
  | .assign .. => rfl
  | .branch conds blocks span => by
    simp only [Stmt.clear, Stmt.containsReturn, anyBlockReturns_clear keep blocks]
  | .forLoop var lo hi body span handle => by
    simp only [Stmt.clear, Stmt.containsReturn, body.containsReturn_clear keep]
  | .whileLoop cond body span => by
    simp only [Stmt.clear, Stmt.containsReturn, body.containsReturn_clear keep]
  | .call value => rfl
theorem anyReturn_clear (keep : Bool) : ∀ stmts : List Stmt,
    anyReturn (clearStmts keep stmts) = anyReturn stmts
  | [] => rfl
  | stmt :: stmts => by
    simp only [clearStmts, anyReturn, stmt.containsReturn_clear keep, anyReturn_clear keep stmts]
theorem anyBlockReturns_clear (keep : Bool) : ∀ blocks : List Block,
    anyBlockReturns (clearBlocks keep blocks) = anyBlockReturns blocks
  | [] => rfl
  | block :: blocks => by
    simp only [clearBlocks, anyBlockReturns, block.containsReturn_clear keep,
      anyBlockReturns_clear keep blocks]
end

theorem FnDef.signatureTypes_clear (keep : Bool) (fn : FnDef) :
    (fn.clear keep).signatureTypes = fn.signatureTypes := by
  simp only [FnDef.signatureTypes, FnDef.clear, Block.containsReturn_clear, List.mapM_map]
  rfl

theorem FnDef.shows_of_clear {keep : Bool} {unitScope : ScopeId} {fn fn' : FnDef} {sig : Signature}
    (hc : fn'.clear keep = fn.clear keep) (h : fn.Shows unitScope sig) : fn'.Shows unitScope sig := by
  obtain ⟨params, ret, ht, rfl⟩ := h
  refine ⟨params, ret, ?_, ?_⟩
  · rw [← fn'.signatureTypes_clear keep, hc, fn.signatureTypes_clear, ht]
  · have hn := congrArg FnDef.name hc
    have hs := congrArg FnDef.span hc
    simp only [FnDef.clear] at hn hs
    rw [hn, hs]

theorem shows_of_clear {keep : Bool} {unitScope : ScopeId} : ∀ {fns fns' : List FnDef}
    {sigs : List Signature}, fns'.map (FnDef.clear keep) = fns.map (FnDef.clear keep) →
    List.Forall₂ (FnDef.Shows unitScope) fns sigs → List.Forall₂ (FnDef.Shows unitScope) fns' sigs
  | [], [], _, _, h => h
  | _ :: _, [], _, hc, _ => by simp at hc
  | [], _ :: _, _, hc, _ => by simp at hc
  | _ :: _, _ :: _, _, hc, .cons h hs => by
    simp only [List.map_cons, List.cons.injEq] at hc
    exact .cons (FnDef.shows_of_clear hc.1 h) (shows_of_clear hc.2 hs)

theorem forall₂_of_mapM {f : α → Except ε β} : ∀ {as : List α} {bs : List β},
    as.mapM f = .ok bs → List.Forall₂ (fun a b => f a = .ok b) as bs
  | [], _, h => by
    rw [List.mapM_nil, pure_eq_ok] at h
    subst h
    exact .nil
  | _ :: _, bs, h => by
    simp only [List.mapM_cons, bind_eq_ok, pure_eq_ok] at h
    obtain ⟨b, hb, bs, hbs, rfl⟩ := h
    exact .cons hb (forall₂_of_mapM hbs)

theorem FnDef.signatureTypes_spec {fn : FnDef} (h : fn.signatureTypes = .ok (params, ret)) :
    List.Forall₂ (fun (param : Param) ty => param.ty.resolve = .ok ty) fn.params params ∧
      match fn.ret with
      | some ascription => ascription.resolve = .ok ret
      | none => ret = if fn.body.containsReturn then .unknown else .void := by
  unfold FnDef.signatureTypes at h
  obtain ⟨params', hp, h⟩ := bind_eq_ok.mp h
  have hf := forall₂_of_mapM hp
  cases hr : fn.ret with
  | none =>
    rw [hr, pure_eq_ok, Prod.mk.injEq] at h
    exact ⟨h.1 ▸ hf, h.2.symm⟩
  | some ascription =>
    simp only [hr, bind_eq_ok, pure_eq_ok, Prod.mk.injEq] at h
    obtain ⟨ret', ht, rfl, rfl⟩ := h
    exact ⟨hf, ht⟩

/-! ## Units -/

/-- A unit whose names are bound, in the scope tree and with the signatures that go with it. -/
structure CompileUnit.ResolvedIn (unit : CompileUnit) (res : Resolution) : Prop where
  unitScope : res.unitScope = 1
  parents : ∃ more, res.scopes.parents = none :: some root :: more
  signatures : res.signatures = List.range' builtinSignatures.length unit.functions.length
  sigs : ∃ users, res.scopes.sigs = builtinSignatures ++ users ∧
    List.Forall₂ (FnDef.Shows res.unitScope) unit.functions users
  unambiguous : res.scopes.Unambiguous
  functions : ∀ fn ∈ unit.functions, fn.Resolved
  script : unit.script.body.Resolved []
  numbered : Numbered res.scopes 0 unit.sites
  length : res.scopes.decls.length = unit.sites.length

theorem ScopeTree.sees_nil (ha : tree.Arena) (hd : tree.decls = []) :
    ∀ {scope : Nat}, scope < tree.parents.length → tree.Sees scope [] := by
  intro scope
  induction scope using Nat.strongRecOn with
  | ind scope ih =>
    intro hlt name
    have hnone : tree.declaredIn? scope name = none := by simp [declaredIn?, hd]
    obtain ⟨up, hu⟩ : ∃ up, tree.parents[scope]? = some up := ⟨_, List.getElem?_eq_getElem hlt⟩
    rw [lookupVariable_eq ha hu, hnone]
    cases up with
    | none => rfl
    | some up =>
      have hup := ha.ordered scope up hu
      exact ih up hup (Nat.lt_trans hup hlt) name

theorem ScopeTree.arena_start (hp : tree.parents = [none, some root]) (hd : tree.decls = []) :
    tree.Arena := by
  refine ⟨?_, by simp [hd]⟩
  intro scope up hup
  rw [hp] at hup
  rcases scope with _ | _ | n
  · simp at hup
  · simp only [List.getElem?_cons_succ, List.getElem?_cons_zero, Option.some.injEq] at hup
    rw [← hup]
    exact Nat.zero_lt_one
  · simp at hup

theorem CompileUnit.resolve_spec {unit unit' : CompileUnit} {res : Resolution} {tree' : ScopeTree}
    (h : unit.resolve tree = .done (unit', res) tree') :
    unit'.ResolvedIn res ∧ unit'.clear false = unit.clear false ∧ tree' = res.scopes := by
  simp only [CompileUnit.resolve, bind_eq_done, setScopes_eq_done, openScope_eq_done,
    within_eq_done, scopes_eq_done, pure_eq_done, Prod.mk.injEq] at h
  obtain ⟨_, _, rfl, unitScope, tree₁, ⟨hu, ho⟩, ids, tree₂, hsig, fns', tree₃, hfn, scope, tree₄,
    ⟨hsc, ho'⟩, body', tree₅, hb, _, _, ⟨rfl, rfl⟩, ⟨rfl, rfl⟩, rfl⟩ := h
  have hi : tree₁ = { parents := [none, some root], decls := [], sigs := builtinSignatures } := by
    rw [ho, initial_eq]
    rfl
  have hu : unitScope = 1 := by
    rw [hu, initial_eq]
    rfl
  have hamb : tree₁.Unambiguous := by
    have := unambiguous_initial
    rw [initial_eq] at this
    rw [hi]
    exact this
  obtain ⟨hamb, hids, users, hshow, htree⟩ := declareSignatures_spec unit.functions hamb hsig
  subst hu
  rw [hi] at htree hids
  have ha : tree₂.Arena := ScopeTree.arena_start (by rw [htree]) (by rw [htree])
  have hlt : 1 < tree₂.parents.length := by simp [htree]
  have hs : tree₂.Sees 1 [] := sees_nil ha (by simp [htree]) hlt
  obtain ⟨hbf, hrf, hcf⟩ := bindFunctions_spec unit.functions fns' ha hlt hs hfn
  have ha₄ : tree₄.Arena := ho' ▸ arena_newScope hbf.arena (hbf.inside hlt)
  have hs₄ : tree₄.Sees scope [] :=
    ho' ▸ hsc ▸ sees_newScope hbf.arena (hbf.inside hlt) hbf.sees
  have hlt₄ : scope < tree₄.parents.length := by simp [ho', hsc, newScope]
  obtain ⟨hbb, hrb, hcb⟩ := Block.bind_spec unit.script.body body' ha₄ hlt₄ hs₄ hb
  have hall := hbf.trans (.enclosed hbf.arena (hbf.inside hlt) hbf.sees hsc ho' hbb)
  have hlen : fns'.length = unit.functions.length := by
    simpa using congrArg List.length hcf
  have hdecls : tree₂.decls.length = 0 := by simp [htree]
  refine ⟨?_, ?_, rfl⟩
  · constructor
    case unitScope => rfl
    case parents =>
      obtain ⟨more, hm⟩ := hall.grown.parents
      exact ⟨more, by simp [hm, htree]⟩
    case signatures => simp only [hids, hlen]
    case sigs =>
      refine ⟨users, ?_, shows_of_clear hcf hshow⟩
      rw [hall.grown.sigs, htree]
    case unambiguous =>
      unfold ScopeTree.Unambiguous at hamb ⊢
      rw [hall.grown.sigs]
      exact hamb
    case functions => exact hrf
    case script => exact hrb
    case numbered =>
      have := hall.numbered
      rw [hdecls] at this
      exact this
    case length =>
      have := hall.length
      rw [hdecls, Nat.zero_add] at this
      exact this
  · simp only [CompileUnit.clear, Script.clear, hcf, hcb, kept_false]

end ScriptLang
