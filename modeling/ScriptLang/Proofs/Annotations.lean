import ScriptLang.Proofs.Acceptance
import ScriptLang.Compile

/-!
# Writing return types down

An ascription takes the place of what discovery would find out. If a unit is accepted and stays
accepted with other ascriptions, then these name the very types that were discovered. And with just
these types written down nothing changes: the same declarations, the same types everywhere, and the
same module.
-/

namespace ScriptLang

open Pass ScopeTree

variable {scope unitScope : ScopeId} {fn : FnDef} {tree tree' : ScopeTree} {ascription : TypeExpr}
  {fns' : List FnDef}

/-! ## Binding does not look at signatures -/

/-- The pass goes through as well with other signatures, and leaves them alone. -/
def Pass.IgnoresSigs (p : Pass ScopeTree ν α) : Prop :=
  ∀ (sigs : List Signature) (tree tree' : ScopeTree) (a : α), p tree = .done a tree' →
    p { tree with sigs } = .done a { tree' with sigs }

namespace Pass.IgnoresSigs

theorem pure (a : α) : IgnoresSigs (Pure.pure a : Pass ScopeTree ν α) := by
  intro sigs tree tree' b h
  obtain ⟨rfl, rfl⟩ := pure_eq_done.mp h
  rfl

theorem stop (node : ν) (halt : Halt) : IgnoresSigs (Pass.stop node halt : Pass ScopeTree ν α) := by
  intro sigs tree tree' a h
  exact (stop_eq_done.mp h).elim

theorem ofExcept (node : ν) (x : Except Halt α) :
    IgnoresSigs (Pass.ofExcept node x : Pass ScopeTree ν α) := by
  intro sigs tree tree' a h
  obtain ⟨rfl, rfl⟩ := ofExcept_eq_done.mp h
  rfl

theorem within {p : Pass ScopeTree μ α} (h : IgnoresSigs p) (rebuild : μ → ν) :
    IgnoresSigs (Pass.within rebuild p) := by
  intro sigs tree tree' a hp
  exact within_eq_done.mpr (h sigs _ _ _ (within_eq_done.mp hp))

theorem bind {p : Pass ScopeTree ν α} {f : α → Pass ScopeTree ν β} (h : IgnoresSigs p)
    (hf : ∀ a, IgnoresSigs (f a)) : IgnoresSigs (p >>= f) := by
  intro sigs tree tree' b hb
  obtain ⟨a, tree₁, ha, hb⟩ := bind_eq_done.mp hb
  exact bind_eq_done.mpr ⟨a, _, h sigs _ _ _ ha, hf a sigs _ _ _ hb⟩

theorem resolve {node : ν} {name : String} {span : Span} {f : DeclId → Pass ScopeTree ν β}
    (hf : ∀ id, IgnoresSigs (f id)) :
    IgnoresSigs (Pass.scopes >>= fun tree : ScopeTree =>
      Pass.ofExcept node (tree.resolveVariable scope name span) >>= f) := by
  intro sigs tree tree' b h
  simp only [bind_eq_done, scopes_eq_done, ofExcept_eq_done, resolveVariable_eq_ok] at h ⊢
  obtain ⟨_, _, ⟨rfl, rfl⟩, id, _, ⟨hl, rfl⟩, hb⟩ := h
  refine ⟨_, _, ⟨rfl, rfl⟩, id, _, ⟨?_, rfl⟩, hf id sigs _ _ _ hb⟩
  rw [← hl]
  unfold lookupVariable nearest
  exact walk_congr (by rfl) _ _ _

theorem declareHere (node : ν) (scope : ScopeId) (name : String) (ty : Ty) (kind : DeclKind)
    (span : Span) : IgnoresSigs (ScriptLang.declareHere node scope name ty kind span) := by
  intro sigs tree tree' id h
  rw [declareHere_eq_done, declareVariable_eq_ok] at h ⊢
  obtain ⟨hlt, hnone, rfl, rfl⟩ := h
  exact ⟨hlt, hnone, rfl, rfl⟩

theorem openScope (parent : ScopeId) :
    IgnoresSigs (ScriptLang.openScope parent : Pass ScopeTree ν ScopeId) := by
  intro sigs tree tree' scope h
  rw [openScope_eq_done] at h ⊢
  obtain ⟨rfl, rfl⟩ := h
  exact ⟨rfl, rfl⟩

end Pass.IgnoresSigs

mutual
theorem Expr.bind_ignoresSigs (scope : ScopeId) : ∀ expr : Expr,
    IgnoresSigs (expr.bind scope : Pass ScopeTree Expr Expr)
  | .lit .. => .pure _
  | .var .. => .resolve fun _ => .pure _
  | .call _ args _ _ => .bind (.within (bindAll_ignoresSigs scope args) _) fun _ => .pure _
theorem bindAll_ignoresSigs (scope : ScopeId) : ∀ exprs : List Expr,
    IgnoresSigs (bindAll scope exprs : Pass ScopeTree (List Expr) (List Expr))
  | [] => .pure _
  | expr :: exprs =>
    .bind (.within (Expr.bind_ignoresSigs scope expr) _) fun _ =>
      .bind (.within (bindAll_ignoresSigs scope exprs) _) fun _ => .pure _
end

mutual
theorem Stmt.bind_ignoresSigs : ∀ (stmt : Stmt) (scope : ScopeId),
    IgnoresSigs (stmt.bind scope : Pass ScopeTree Stmt Stmt)
  | .decl _ _ value _ _, scope =>
    .bind (.within (Expr.bind_ignoresSigs scope value) _) fun _ =>
      .bind (.ofExcept _ _) fun _ => .bind (.declareHere _ _ _ _ _ _) fun _ => .pure _
  | .assign _ value _ _, scope =>
    .bind (.within (Expr.bind_ignoresSigs scope value) _) fun _ => .resolve fun _ => .pure _
  | .branch conds blocks _, scope => by
    unfold Stmt.bind
    split
    · exact .bind (.within (bindAll_ignoresSigs scope conds) _) fun _ =>
        .bind (.within (bindBlocks_ignoresSigs blocks scope) _) fun _ => .pure _
    · exact .stop _ _
  | .forLoop _ lo hi body _ _, scope =>
    .bind (.within (Expr.bind_ignoresSigs scope lo) _) fun _ =>
      .bind (.within (Expr.bind_ignoresSigs scope hi) _) fun _ =>
        .bind (.openScope _) fun inner => .bind (.declareHere _ _ _ _ _ _) fun _ =>
          .bind (.within (Block.bind_ignoresSigs body inner (some inner)) _) fun _ => .pure _
  | .whileLoop cond body _, scope =>
    .bind (.within (Expr.bind_ignoresSigs scope cond) _) fun _ =>
      .bind (.within (Block.bind_ignoresSigs body scope body.scope) _) fun _ => .pure _
  | .call value, scope => .bind (.within (Expr.bind_ignoresSigs scope value) _) fun _ => .pure _
theorem Block.bind_ignoresSigs : ∀ (block : Block) (scope : ScopeId) (own : Option ScopeId),
    IgnoresSigs (block.bind scope own : Pass ScopeTree Block Block)
  | ⟨stmts, none, _, _, _⟩, scope, _ =>
    .bind (.within (bindStmts_ignoresSigs stmts scope) _) fun _ => .pure _
  | ⟨stmts, some ⟨value, _⟩, _, _, _⟩, scope, _ =>
    .bind (.within (bindStmts_ignoresSigs stmts scope) _) fun _ =>
      .bind (.within (Expr.bind_ignoresSigs scope value) _) fun _ => .pure _
theorem bindStmts_ignoresSigs : ∀ (stmts : List Stmt) (scope : ScopeId),
    IgnoresSigs (bindStmts scope stmts : Pass ScopeTree (List Stmt) (List Stmt))
  | [], _ => .pure _
  | stmt :: stmts, scope =>
    .bind (.within (Stmt.bind_ignoresSigs stmt scope) _) fun _ =>
      .bind (.within (bindStmts_ignoresSigs stmts scope) _) fun _ => .pure _
theorem bindBlocks_ignoresSigs : ∀ (blocks : List Block) (scope : ScopeId),
    IgnoresSigs (bindBlocks scope blocks : Pass ScopeTree (List Block) (List Block))
  | [], _ => .pure _
  | block :: blocks, scope =>
    .bind (.within (Block.bind_ignoresSigs block scope block.scope) _) fun _ =>
      .bind (.within (bindBlocks_ignoresSigs blocks scope) _) fun _ => .pure _
end

theorem bindParams_ignoresSigs (scope : ScopeId) : ∀ params : List Param,
    IgnoresSigs (bindParams scope params : Pass ScopeTree (List Param) (List Param))
  | [] => .pure _
  | _ :: params =>
    .bind (.ofExcept _ _) fun _ => .bind (.declareHere _ _ _ _ _ _) fun _ =>
      .bind (.within (bindParams_ignoresSigs scope params) _) fun _ => .pure _

/-! ## Annotated units -/

/-- The definition with the given return ascription. -/
def FnDef.annotate (fn : FnDef) (ascription : TypeExpr) : FnDef :=
  { fn with ret := some ascription }

/-- A definition that has an ascription of its own admits no other. -/
def FnDef.Admits (fn : FnDef) (ascription : TypeExpr) : Prop :=
  ∀ own ∈ fn.ret, own = ascription

/-- The unit with a return ascription on every function. -/
def CompileUnit.annotate (unit : CompileUnit) (ascriptions : List TypeExpr) : CompileUnit :=
  { unit with functions := List.zipWith FnDef.annotate unit.functions ascriptions }

theorem FnDef.bind_annotate {fn' : FnDef} (ascription : TypeExpr) (sigs : List Signature)
    (h : fn.bind unitScope tree = .done fn' tree') :
    (fn.annotate ascription).bind unitScope { tree with sigs } =
      .done (fn'.annotate ascription) { tree' with sigs } := by
  simp only [FnDef.bind, bind_eq_done, openScope_eq_done, within_eq_done, pure_eq_done] at h ⊢
  obtain ⟨_, _, ⟨rfl, rfl⟩, params', tree₂, hps, body', _, hb, rfl, rfl⟩ := h
  exact ⟨_, _, ⟨rfl, rfl⟩, params', _, bindParams_ignoresSigs _ _ sigs _ _ _ hps, body', _,
    Block.bind_ignoresSigs _ _ _ sigs _ _ _ hb, rfl, rfl⟩

theorem bindFunctions_annotate (sigs : List Signature) :
    ∀ {fns fns' : List FnDef} {ascriptions : List TypeExpr} {tree tree' : ScopeTree},
    ascriptions.length = fns.length → bindFunctions unitScope fns tree = .done fns' tree' →
    bindFunctions unitScope (List.zipWith FnDef.annotate fns ascriptions) { tree with sigs } =
      .done (List.zipWith FnDef.annotate fns' ascriptions) { tree' with sigs }
  | [], _, [], _, _, _, h => by
    obtain ⟨rfl, rfl⟩ := pure_eq_done.mp h
    rfl
  | _ :: _, _, ascription :: _, _, _, hlen, h => by
    simp only [bindFunctions, List.zipWith_cons_cons, bind_eq_done, within_eq_done,
      pure_eq_done] at h ⊢
    obtain ⟨fn', tree₁, hf, fns', _, hfs, rfl, rfl⟩ := h
    exact ⟨_, _, FnDef.bind_annotate ascription sigs hf, _, _,
      bindFunctions_annotate sigs (by simpa using hlen) hfs, rfl, rfl⟩
  | [], _, _ :: _, _, _, hlen, _ => by simp at hlen
  | _ :: _, _, [], _, _, hlen, _ => by simp at hlen

theorem CompileUnit.resolve_annotate {unit bound : CompileUnit} {start : Resolution}
    {ascriptions : List TypeExpr} {users : List Signature}
    (hr : unit.resolve tree = .done (bound, start) tree')
    (hlen : ascriptions.length = unit.functions.length)
    (hs : List.Forall₂ (FnDef.Shows 1) (unit.annotate ascriptions).functions users)
    (hu : ({ start.scopes with sigs := builtinSignatures ++ users } : ScopeTree).Unambiguous) :
    (unit.annotate ascriptions).resolve tree = .done (bound.annotate ascriptions,
      { start with scopes := { start.scopes with sigs := builtinSignatures ++ users } })
      { start.scopes with sigs := builtinSignatures ++ users } := by
  obtain ⟨ids, tree₂, fns', tree₃, body', hd, hf, hb, rfl, rfl⟩ := CompileUnit.resolve_eq_done.mp hr
  obtain ⟨_, hids, users₀, _, rfl⟩ := declareSignatures_spec unit.functions unambiguous_unitStart hd
  have hcount : (unit.annotate ascriptions).functions.length = unit.functions.length := by
    simp [CompileUnit.annotate, hlen]
  refine CompileUnit.resolve_eq_done.mpr ⟨ids, { unitStart with sigs := builtinSignatures ++ users },
    List.zipWith FnDef.annotate fns' ascriptions,
    { tree₃ with sigs := builtinSignatures ++ users }, body', ?_, ?_, ?_, rfl, rfl⟩
  · rw [hids, ← hcount]
    exact @declareSignatures_of_shows _ _ 1 _ _ unitStart (by decide) hs hu
  · have hbound := bindFunctions_annotate (builtinSignatures ++ users) hlen hf
    exact hbound
  · exact Block.bind_ignoresSigs _ _ _ (builtinSignatures ++ users) _ _ _ hb

/-! ## What an annotated definition shows -/

theorem FnDef.signatureTypes_eq_ok {params : List Ty} {ret : Ty} :
    fn.signatureTypes = .ok (params, ret) ↔
      fn.params.mapM (fun param => param.ty.resolve) = .ok params ∧
        match fn.ret with
        | some ascription => ascription.resolve = .ok ret
        | none => ret = if fn.body.containsReturn then .unknown else .void := by
  unfold FnDef.signatureTypes
  cases fn.ret with
  | none =>
    simp only [bind_eq_ok, pure_eq_ok, Prod.mk.injEq]
    constructor
    · rintro ⟨_, hp, rfl, rfl⟩
      exact ⟨hp, rfl⟩
    · rintro ⟨hp, rfl⟩
      exact ⟨params, hp, rfl, rfl⟩
  | some ascription =>
    simp only [bind_eq_ok, pure_eq_ok, Prod.mk.injEq]
    constructor
    · rintro ⟨_, hp, _, hr, rfl, rfl⟩
      exact ⟨hp, hr⟩
    · rintro ⟨hp, hr⟩
      exact ⟨params, hp, ret, hr, rfl, rfl⟩

theorem FnDef.Shows.annotate {sig : Signature} {ret : Ty} (h : fn.Shows unitScope sig)
    (hr : ascription.resolve = .ok ret) :
    (fn.annotate ascription).Shows unitScope { sig with ret } := by
  obtain ⟨params, ret₀, ht, rfl⟩ := h
  exact ⟨params, ret, FnDef.signatureTypes_eq_ok.mpr ⟨(FnDef.signatureTypes_eq_ok.mp ht).1, hr⟩, rfl⟩

theorem FnDef.Shows.of_annotate {sig sig' : Signature} (h : fn.Shows unitScope sig)
    (h' : (fn.annotate ascription).Shows unitScope sig') (ha : fn.Admits ascription) :
    sig' = { sig with ret := sig'.ret } ∧
      (sig'.ret = sig.ret ∨ sig.ret = if fn.body.containsReturn then .unknown else .void) := by
  obtain ⟨params, ret, ht, rfl⟩ := h
  obtain ⟨params', ret', ht', rfl⟩ := h'
  obtain ⟨hp, hr⟩ := FnDef.signatureTypes_eq_ok.mp ht
  obtain ⟨hp', hr'⟩ := FnDef.signatureTypes_eq_ok.mp ht'
  have hr' : ascription.resolve = .ok ret' := hr'
  have hparams : params' = params := by
    have hp' : fn.params.mapM (fun param => param.ty.resolve) = .ok params' := hp'
    rw [hp] at hp'
    exact (Except.ok.inj hp').symm
  refine ⟨by rw [hparams]; rfl, ?_⟩
  cases hown : fn.ret with
  | none =>
    rw [hown] at hr
    exact Or.inr hr
  | some own =>
    rw [hown] at hr
    rw [← ha own (Option.mem_def.mpr hown), hr] at hr'
    exact Or.inl (Except.ok.inj hr').symm

/-! ## Annotations that are accepted -/

/-- Where all return types are known, there is nothing to refine. -/
theorem ScopeTree.Refined.sigs_eq (h : tree.Refined tree') (hp : ∀ sig ∈ tree.sigs, sig.ret.Prim) :
    tree'.sigs = tree.sigs := by
  have heq : List.Forall₂ Eq tree.sigs tree'.sigs := by
    rw [List.forall₂_iff_get]
    refine ⟨h.sigs.length_eq, fun i h₁ h₂ => ?_⟩
    have hr := h.sigs.get h₁ h₂
    rcases hr.2 with he | ⟨ho, _⟩
    · rw [hr.1, he]
    · rw [(hp _ (List.get_mem tree.sigs ⟨i, h₁⟩)).isFullyKnown] at ho
      cases ho
  rw [List.forall₂_eq_eq_eq] at heq
  exact heq.symm

theorem getElem?_zipWith_annotate {fns : List FnDef} {ascriptions : List TypeExpr}
    (hlen : ascriptions.length = fns.length) {i : Nat} (hi : i < fns.length) :
    (List.zipWith FnDef.annotate fns ascriptions)[i]? =
      some (fns[i].annotate (ascriptions[i])) := by
  simp [List.getElem?_zipWith, List.getElem?_eq_getElem hi,
    List.getElem?_eq_getElem (hlen.symm ▸ hi)]

section

variable {unit unit' bound bound' : CompileUnit} {start start' : Resolution}
  {base base' tree tree' : ScopeTree} {ascriptions : List TypeExpr} {users users' : List Signature}

theorem CompileUnit.functions_of_clear {keep : Bool} (hc : unit'.clear keep = unit.clear keep) :
    unit'.functions.map (FnDef.clear keep) = unit.functions.map (FnDef.clear keep) := by
  have hf := congrArg CompileUnit.functions hc
  exact hf

theorem CompileUnit.resolve_annotate_eq (hr : unit.resolve tree = .done (bound, start) tree')
    (hr' : (unit.annotate ascriptions).resolve tree = .done (bound', start') start'.scopes)
    (hlen : ascriptions.length = unit.functions.length) :
    bound' = bound.annotate ascriptions ∧ ∃ users, start' =
      { start with scopes := { start.scopes with sigs := builtinSignatures ++ users } } := by
  obtain ⟨hres, hclear, _⟩ := CompileUnit.resolve_spec hr'
  obtain ⟨users, hsigs, hshow⟩ := hres.sigs
  rw [hres.unitScope] at hshow
  have hshow' := shows_of_clear (CompileUnit.functions_of_clear hclear).symm hshow
  have hamb : ({ start.scopes with sigs := builtinSignatures ++ users } : ScopeTree).Unambiguous := by
    have hu := hres.unambiguous
    unfold ScopeTree.Unambiguous at hu ⊢
    rw [hsigs] at hu
    exact hu
  have hdone := CompileUnit.resolve_annotate hr hlen hshow' hamb
  rw [hr'] at hdone
  cases hdone
  exact ⟨rfl, users, rfl⟩

/-- Every function carries a return annotation or returns nothing. -/
def CompileUnit.Annotated (unit : CompileUnit) : Prop :=
  ∀ fn ∈ unit.functions, fn.ret.isSome = true ∨ fn.body.containsReturn = false

theorem CompileUnit.annotated_annotate (unit : CompileUnit) (ascriptions : List TypeExpr) :
    (unit.annotate ascriptions).Annotated := by
  intro fn hf
  obtain ⟨i, hi⟩ := List.mem_iff_getElem?.mp hf
  obtain ⟨_, _, _, _, rfl⟩ := List.getElem?_zipWith_eq_some.mp hi
  exact Or.inl rfl

theorem CompileUnit.ResolvedIn.prim_rets (h : unit.ResolvedIn start) (ha : unit.Annotated) :
    ∀ sig ∈ start.scopes.sigs, sig.ret.Prim := by
  obtain ⟨users, hsigs, hshow⟩ := h.sigs
  intro sig hm
  rw [hsigs] at hm
  rcases List.mem_append.mp hm with hm | hm
  · exact (builtinSignatures_prim sig hm).2
  · obtain ⟨fn, hfn, params, ret, hty, rfl⟩ := forall₂_mem_right hshow hm
    have hret := (FnDef.signatureTypes_eq_ok.mp hty).2
    cases hann : fn.ret with
    | some annotation =>
      rw [hann] at hret
      exact (TypeExpr.resolve_eq_ok hret).2
    | none =>
      rw [hann] at hret
      rcases ha fn hfn with hsome | hnone
      · rw [hann] at hsome
        cases hsome
      · simp only [hnone, Bool.false_eq_true, if_false] at hret
        exact hret ▸ Ty.prim_void

/-- What a unit shows leaves open whatever its ascriptions may say, if its bodies bear them out. -/
theorem CompileUnit.ResolvedIn.covers_annotated (h : unit.ResolvedIn start)
    (h' : (unit.annotate ascriptions).ResolvedIn start')
    (hstart : start' = { start with scopes := { start.scopes with sigs := start'.scopes.sigs } })
    (hkeep : List.Forall₂ FnDef.Admits unit.functions ascriptions)
    (hinf : (unit.annotate ascriptions).Inferred start' base) :
    start.scopes.resetInferred.Covers base := by
  have hlen : ascriptions.length = unit.functions.length := hkeep.length_eq.symm
  have hsigs' : base.sigs = start'.scopes.sigs :=
    hinf.refined.sigs_eq (h'.prim_rets (unit.annotated_annotate ascriptions))
  have hdecls : base.decls = start.scopes.resetInferred.decls := by
    rw [hinf.refined.decls, hstart]
    rfl
  have hparents : base.parents = start.scopes.parents := by
    rw [hinf.refined.parents, hstart]
    rfl
  refine ⟨h.fit, ⟨?_, hinf.refined.plain h'.plain⟩, ?_, ?_⟩
  · obtain ⟨more, hm⟩ := h.parents
    exact ⟨more, hparents.trans hm⟩
  · obtain ⟨users, hs, hshow⟩ := h.sigs
    obtain ⟨users', hs', hshow'⟩ := h'.sigs
    have hscope : start'.unitScope = start.unitScope := by rw [h.unitScope, h'.unitScope]
    rw [hscope] at hshow'
    change List.Forall₂ Signature.Covers start.scopes.sigs base.sigs
    rw [hs, hsigs', hs']
    refine List.rel_append (List.forall₂_same.mpr fun _ _ => ⟨rfl, .refl _⟩) ?_
    have hcount : users'.length = unit.functions.length := by
      rw [← hshow'.length_eq]
      simp [CompileUnit.annotate, hlen]
    rw [List.forall₂_iff_get]
    refine ⟨hshow.length_eq.symm.trans hcount.symm, fun i h₁ h₂ => ?_⟩
    have hi : i < unit.functions.length := hcount ▸ h₂
    have hann := getElem?_zipWith_annotate hlen hi
    have hi' : i < (unit.annotate ascriptions).functions.length := hshow'.length_eq ▸ h₂
    have hfn : (unit.annotate ascriptions).functions.get ⟨i, hi'⟩ =
        unit.functions[i].annotate ascriptions[i] := by
      have hget : (unit.annotate ascriptions).functions[i]? = some _ :=
        List.getElem?_eq_getElem hi'
      exact Option.some.inj (hget.symm.trans hann)
    have hboth := hshow'.get hi' h₂
    rw [hfn] at hboth
    obtain ⟨hsame, hret⟩ := (hshow.get hi h₁).of_annotate hboth (hkeep.get hi (hlen.symm ▸ hi))
    refine ⟨hsame, ?_⟩
    rcases hret with he | hopen
    · rw [he]
      exact .refl _
    · rw [hopen]
      by_cases hreturns : unit.functions[i].body.containsReturn = true
      · have hreturns' : (unit.functions.get ⟨i, hi⟩).body.containsReturn = true := hreturns
        rw [if_pos hreturns']
        exact Ty.unknown_covers _
      · -- A function without `return` can only be annotated with `Void`.
        have hreturns' : ¬ (unit.functions.get ⟨i, hi⟩).body.containsReturn = true := hreturns
        rw [if_neg hreturns']
        have hsig : start'.signatures[i]? = some (builtinSignatures.length + i) := by
          rw [h'.signatures, List.getElem?_range' hi', Nat.one_mul]
        have hm : (unit.functions[i].annotate ascriptions[i], builtinSignatures.length + i) ∈
            (unit.annotate ascriptions).routines start' :=
          mem_zip_iff.mpr ⟨i, hann, hsig⟩
        have hat : base.sigs[builtinSignatures.length + i]? = some (users'.get ⟨i, h₂⟩) := by
          rw [hsigs', hs', List.getElem?_append_right (Nat.le_add_right _ _),
            Nat.add_sub_cancel_left]
          exact List.getElem?_eq_getElem h₂
        have hvoid : (users'.get ⟨i, h₂⟩).ret = .void := by
          by_contra hne
          exact hreturns (hinf.returns _ hm _ hat hne)
        rw [hvoid]
        exact .refl _
  · rw [hdecls]
    exact List.forall₂_same.mpr fun _ _ => ⟨rfl, .refl _⟩

/-- Annotations that are accepted name the types that discovery finds. -/
theorem CompileUnit.ResolvedIn.annotated_sigs (h : unit.ResolvedIn start)
    (h' : (unit.annotate ascriptions).ResolvedIn start')
    (hstart : start' = { start with scopes := { start.scopes with sigs := start'.scopes.sigs } })
    (hkeep : List.Forall₂ FnDef.Admits unit.functions ascriptions) (hinf : unit.Inferred start base)
    (hinf' : (unit.annotate ascriptions).Inferred start' base') :
    start'.scopes.sigs = base.sigs := by
  have hlen : ascriptions.length = unit.functions.length := hkeep.length_eq.symm
  have hcov := h.covers_annotated h' hstart hkeep hinf'
  have hbears : ∀ entry ∈ unit.routines start, entry.1.Bears base' entry.2 := by
    rintro ⟨fn, sig⟩ hm
    obtain ⟨i, hf, hs⟩ := mem_zip_iff.mp hm
    obtain ⟨hi, rfl⟩ := List.getElem?_eq_some_iff.mp hf
    have hs' : start'.signatures[i]? = some sig := by
      rw [hstart]
      exact hs
    have hm' := mem_zip_iff.mpr ⟨i, getElem?_zipWith_annotate hlen hi, hs'⟩
    have hbears := hinf'.bears _ hm'
    exact hbears
  have hend := hinf.settles.forced h.resolved hbears hcov
  have hsigs' : base'.sigs = start'.scopes.sigs :=
    hinf'.refined.sigs_eq (h'.prim_rets (unit.annotated_annotate ascriptions))
  rw [← hsigs']
  exact hend.sigs_eq hinf.settled.rets

/-! ## Types written down -/

/-- The ascriptions name the return types that the functions ended with. -/
def CompileUnit.NamedBy (unit : CompileUnit) (ascriptions : List TypeExpr) : Prop :=
  List.Forall₂ (fun fn ascription => ∃ ty, ascription.resolve = .ok ty ∧ fn.retSlot = some ty)
    unit.functions ascriptions

theorem forall₂_join {r : α → γ → Prop} {s : β → γ → Prop} {t : α → β → Prop}
    (hj : ∀ a b c, r a c → s b c → t a b) : ∀ {as : List α} {bs : List β} {cs : List γ},
    List.Forall₂ r as cs → List.Forall₂ s bs cs → List.Forall₂ t as bs
  | _, _, _, .nil, .nil => .nil
  | _, _, _, .cons h hs, .cons k ks => .cons (hj _ _ _ h k) (forall₂_join hj hs ks)

theorem CompileUnit.ResolvedIn.retSlots (h : unit.ResolvedIn start)
    (hinf : unit.Inferred start base) (husers : base.sigs = builtinSignatures ++ users)
    (hc : ScriptLang.commitFunctions 1 start.signatures (List.range unit.functions.length)
      unit.functions base = .done fns' tree) :
    List.Forall₂ (fun fn' (sig : Signature) => fn'.retSlot = some sig.ret) fns' users := by
  have hslot := h.retSlot hinf hc
  have hcount : start.signatures.length = users.length := by
    have hlen := congrArg List.length husers
    rw [List.length_append, ← hinf.refined.sigs.length_eq] at hlen
    obtain ⟨users₀, hs, hshow⟩ := h.sigs
    change start.scopes.sigs.length = _ at hlen
    rw [hs, List.length_append, ← hshow.length_eq, ← h.signatures_length] at hlen
    omega
  rw [List.forall₂_iff_get] at hslot ⊢
  refine ⟨hslot.1.trans hcount, fun i h₁ h₂ => ?_⟩
  have hi : i < start.signatures.length := hcount ▸ h₂
  obtain ⟨signature, hsig, hret⟩ := hslot.2 i h₁ hi
  rw [List.get_eq_getElem, h.signature (List.getElem?_eq_getElem hi), husers,
    List.getElem?_append_right (Nat.le_add_right _ _), Nat.add_sub_cancel_left,
    List.getElem?_eq_getElem h₂, Option.some.injEq] at hsig
  rw [hret, ← hsig]
  rfl

theorem resolves_of_shows : ∀ {fns : List FnDef} {ascriptions : List TypeExpr}
    {users : List Signature}, ascriptions.length = fns.length →
    List.Forall₂ (FnDef.Shows 1) (List.zipWith FnDef.annotate fns ascriptions) users →
    List.Forall₂ (fun ascription sig => ascription.resolve = .ok sig.ret) ascriptions users
  | [], [], _, _, .nil => .nil
  | _ :: _, _ :: _, _, hlen, .cons h hs => by
    obtain ⟨params, ret, ht, rfl⟩ := h
    exact .cons (FnDef.signatureTypes_eq_ok.mp ht).2 (resolves_of_shows (by simpa using hlen) hs)
  | [], _ :: _, _, hlen, _ => by simp at hlen
  | _ :: _, [], _, hlen, _ => by simp at hlen

theorem admits_of_clear {keep : Bool} : ∀ {fns fns' : List FnDef} {ascriptions : List TypeExpr},
    fns'.map (FnDef.clear keep) = fns.map (FnDef.clear keep) →
    List.Forall₂ FnDef.Admits fns ascriptions → List.Forall₂ FnDef.Admits fns' ascriptions
  | [], [], _, _, h => h
  | _ :: _, [], _, hc, _ => by simp at hc
  | [], _ :: _, _, hc, _ => by simp at hc
  | fn :: _, fn' :: _, _, hc, .cons h hs => by
    simp only [List.map_cons, List.cons.injEq] at hc
    have hret : fn'.ret = fn.ret := by
      have hr := congrArg FnDef.ret hc.1
      exact hr
    exact .cons (fun own hm => h own (hret ▸ hm)) (admits_of_clear hc.2 hs)

end

/-- If a unit is accepted, and is accepted as well with return ascriptions added to all functions
that had none, then these name the return types that were discovered without them. -/
theorem discovered_returns_forced {unit : CompileUnit} {ascriptions : List TypeExpr}
    {res res' : Resolution} (hkeep : List.Forall₂ FnDef.Admits unit.functions ascriptions)
    (h : unit.check.result = .ok res)
    (h' : (unit.annotate ascriptions).check.result = .ok res') :
    unit.check.unit.NamedBy ascriptions := by
  have hcheck : unit.check = ⟨unit.check.unit, .ok res⟩ := by rw [← h]
  have hcheck' : (unit.annotate ascriptions).check =
      ⟨(unit.annotate ascriptions).check.unit, .ok res'⟩ := by rw [← h']
  obtain ⟨bound, start, hr, hi, _⟩ := CompileUnit.check_eq_ok.mp hcheck
  obtain ⟨bound', start', hr', hi', _⟩ := CompileUnit.check_eq_ok.mp hcheck'
  obtain ⟨hres, hclear, _⟩ := CompileUnit.resolve_spec hr
  obtain ⟨hres', _, _⟩ := CompileUnit.resolve_spec hr'
  have hlen : ascriptions.length = unit.functions.length := hkeep.length_eq.symm
  obtain ⟨rfl, users, rfl⟩ := CompileUnit.resolve_annotate_eq hr hr' hlen
  have hkeep' := admits_of_clear (CompileUnit.functions_of_clear hclear) hkeep
  obtain ⟨base, fns', script', tree₂, hinf, hcommit, _, hunit⟩ := hres.inferred hi
  obtain ⟨base', _, _, _, hinf', _⟩ := hres'.inferred hi'
  -- Both tables of return types are the same.
  have hsigs : base.sigs = builtinSignatures ++ users :=
    (hres.annotated_sigs hres' rfl hkeep' hinf hinf').symm
  have hslots := hres.retSlots hinf hsigs hcommit
  have hshow : List.Forall₂ (FnDef.Shows 1) (bound.annotate ascriptions).functions users := by
    obtain ⟨users', hs', hshow'⟩ := hres'.sigs
    rw [List.append_cancel_left hs', ← hres'.unitScope]
    exact hshow'
  have hnames := resolves_of_shows hkeep'.length_eq.symm hshow
  rw [hunit]
  exact forall₂_join (fun fn ascription sig hslot hname => ⟨sig.ret, hname, hslot⟩) hslots hnames

theorem discovered_returns_forced_triangle :
    List.Forall₂ FnDef.Admits triangle.functions [{ name := "Int" }, { name := "Int" }] ∧
      triangle.check.unit.NamedBy [{ name := "Int" }, { name := "Int" }] := by
  have hkeep : List.Forall₂ FnDef.Admits triangle.functions
      [{ name := "Int" }, { name := "Int" }] :=
    .cons (fun _ h => by cases h) (.cons (fun _ h => by cases h) .nil)
  have hok : triangle.check.result.isOk = true := by decide +kernel
  have hok' : (triangle.annotate [{ name := "Int" }, { name := "Int" }]).check.result.isOk = true := by
    decide +kernel
  refine ⟨hkeep, ?_⟩
  cases h : triangle.check.result with
  | error halt =>
    rw [h] at hok
    cases hok
  | ok res =>
    cases h' : (triangle.annotate [{ name := "Int" }, { name := "Int" }]).check.result with
    | error halt =>
      rw [h'] at hok'
      cases hok'
    | ok res' => exact discovered_returns_forced hkeep h h'

/-! ## Nothing changes -/

section

variable {ν : Type} {tree : ScopeTree}

theorem probe_known {node : ν} {round : Nat} {sig : SigId} {last : LastError} (h : tree.Knows sig) :
    probe node scope round fn sig last tree = .done (last, false) tree := by
  obtain ⟨signature, hs, hk⟩ := h
  simp only [probe, bind_eq_done, scopes_eq_done, ofExcept_eq_done, mapError_eq_ok]
  refine ⟨tree, tree, ⟨rfl, rfl⟩, signature, tree, ⟨signature_eq_ok.mpr hs, rfl⟩, ?_⟩
  rw [if_pos hk]
  rfl

theorem probeRound_known {node : ν} {round : Nat} : ∀ {fns : List FnDef}
    {sigs : List SigId} {lasts : List LastError}, (∀ sig ∈ sigs, tree.Knows sig) →
    probeRound node scope round fns sigs lasts tree = .done (lasts, false) tree
  | _ :: _, sig :: _, last :: lasts, h => by
    simp only [probeRound, bind_eq_done, pure_eq_done, Prod.exists]
    exact ⟨last, false, tree, probe_known (h sig List.mem_cons_self), lasts, false, tree,
      probeRound_known fun sig hm => h sig (List.mem_cons_of_mem _ hm), rfl, rfl⟩
  | [], _, _, _ => rfl
  | _ :: _, [], _, _ => rfl
  | _ :: _, _ :: _, [], _ => rfl

theorem discoverReturns_known {node : ν} {fns : List FnDef} {sigs : List SigId}
    (h : ∀ sig ∈ sigs, tree.Knows sig) :
    discoverReturns node scope fns sigs tree = .done (List.replicate fns.length none) tree := by
  rw [discoverReturns, List.map_const']
  simp only [probeRounds, bind_eq_done, Prod.exists]
  exact ⟨_, false, tree, probeRound_known h, rfl⟩

end

section

variable {unit unit' bound : CompileUnit} {start : Resolution} {base tree tree' : ScopeTree}
  {ascriptions : List TypeExpr} {users : List Signature}

theorem FnDef.commit_annotate {fn' : FnDef} {sig : SigId} (ascription : TypeExpr)
    (h : fn.commit scope sig tree = .done fn' tree') :
    (fn.annotate ascription).commit scope sig tree = .done (fn'.annotate ascription) tree' := by
  obtain ⟨signature, body, ctx, tree₁, signature₁, hs, hb, hret, hk, ha, rfl, hs₁, rfl⟩ :=
    FnDef.commit_eq_done.mp h
  exact FnDef.commit_eq_done.mpr
    ⟨signature, body, ctx, tree₁, signature₁, hs, hb, hret, hk, ha, rfl, hs₁, rfl⟩

theorem zipWith_annotate_set : ∀ {fns : List FnDef}
    {ascriptions : List TypeExpr} {i : Nat}, ascriptions[i]? = some ascription →
    (List.zipWith FnDef.annotate fns ascriptions).set i (fn.annotate ascription) =
      List.zipWith FnDef.annotate (fns.set i fn) ascriptions
  | [], _, _, _ => by simp
  | _ :: _, [], _, h => by simp at h
  | _ :: _, own :: _, 0, h => by
    obtain rfl : own = ascription := by simpa using h
    rfl
  | _ :: _, _ :: ascriptions, i + 1, h => by
    have h' : ascriptions[i]? = some ascription := by simpa using h
    simp only [List.zipWith_cons_cons, List.set_cons_succ]
    rw [zipWith_annotate_set h']

theorem commitFunctions_annotate {sigs : List SigId} : ∀ {order : List Nat}
    {fns fns' : List FnDef} {tree : ScopeTree}, ascriptions.length = fns.length →
    sigs.length = fns.length → (∀ i ∈ order, i < fns.length) →
    commitFunctions scope sigs order fns tree = .done fns' tree' →
    commitFunctions scope sigs order (List.zipWith FnDef.annotate fns ascriptions) tree =
      .done (List.zipWith FnDef.annotate fns' ascriptions) tree'
  | [], _, _, _, _, _, _, h => by
    obtain ⟨rfl, rfl⟩ := pure_eq_done.mp h
    rfl
  | i :: _, fns, _, _, hlen, hsigs, hlt, h => by
    have hi : i < fns.length := hlt i List.mem_cons_self
    have hs : sigs[i]? = some sigs[i] := List.getElem?_eq_getElem (hsigs ▸ hi)
    obtain ⟨fn', tree₁, hc, hrest⟩ :=
      (commitFunctions_cons (List.getElem?_eq_getElem hi) hs).mp h
    refine (commitFunctions_cons (getElem?_zipWith_annotate hlen hi) hs).mpr
      ⟨_, tree₁, FnDef.commit_annotate _ hc, ?_⟩
    rw [zipWith_annotate_set (List.getElem?_eq_getElem (hlen ▸ hi))]
    have hlen' : ascriptions.length = (fns.set i fn').length := by rw [List.length_set, hlen]
    have hsigs' : sigs.length = (fns.set i fn').length := by rw [List.length_set, hsigs]
    refine commitFunctions_annotate hlen' hsigs' (fun j hm => ?_) hrest
    rw [List.length_set]
    exact hlt j (List.mem_cons_of_mem _ hm)

theorem CompileUnit.clear_annotate (keep : Bool) (unit : CompileUnit) (ascriptions : List TypeExpr) :
    (unit.annotate ascriptions).clear keep = (unit.clear keep).annotate ascriptions := by
  simp only [CompileUnit.annotate, CompileUnit.clear, List.map_zipWith, List.zipWith_map_left,
    CompileUnit.mk.injEq, and_true]
  rfl

theorem shows_annotate : ∀ {fns : List FnDef} {ascriptions : List TypeExpr} {users : List Signature},
    List.Forall₂ (fun fn sig => ∃ shown, FnDef.Shows 1 fn shown ∧ shown.Refined sig) fns users →
    List.Forall₂ (fun ascription sig => ascription.resolve = .ok sig.ret) ascriptions users →
    List.Forall₂ (FnDef.Shows 1) (List.zipWith FnDef.annotate fns ascriptions) users
  | _, _, _, .nil, .nil => .nil
  | _, _, _, .cons h hs, .cons k ks => by
    obtain ⟨shown, hshow, href⟩ := h
    have hfn := hshow.annotate k
    rw [← href.1] at hfn
    exact .cons hfn (shows_annotate hs ks)

/-- A unit whose ascriptions name the types that were discovered is resolved to the same tree, with
the signatures that were discovered. -/
theorem CompileUnit.ResolvedIn.resolve_named (h : bound.ResolvedIn start)
    (hr : unit.resolve tree = .done (bound, start) tree')
    (hclear : bound.clear false = unit.clear false) (hinf : bound.Inferred start base)
    {tree₂ : ScopeTree}
    (hc : ScriptLang.commitFunctions 1 start.signatures (List.range bound.functions.length)
      bound.functions base = .done fns' tree₂)
    (hnames : { bound with functions := fns' }.NamedBy ascriptions) :
    (unit.annotate ascriptions).resolve tree = .done (bound.annotate ascriptions,
      { start with scopes := { start.scopes with sigs := base.sigs } })
      { start.scopes with sigs := base.sigs } := by
  obtain ⟨users, husers, hrefined⟩ := h.refined_sigs hinf.refined
  rw [h.unitScope] at hrefined
  have hresolve : List.Forall₂ (fun ascription (sig : Signature) => ascription.resolve = .ok sig.ret)
      ascriptions users := by
    refine forall₂_join (fun ascription sig fn hname hslot => ?_) hnames.flip
      (h.retSlots hinf husers hc).flip
    obtain ⟨ty, hty, hret⟩ := hname
    rw [hslot, Option.some.injEq] at hret
    rw [hty, hret]
  have hshow : List.Forall₂ (FnDef.Shows 1) (bound.annotate ascriptions).functions users :=
    shows_annotate hrefined hresolve
  have hannotated : (unit.annotate ascriptions).clear false =
      (bound.annotate ascriptions).clear false := by
    rw [CompileUnit.clear_annotate, CompileUnit.clear_annotate, hclear]
  have hshow' := shows_of_clear (CompileUnit.functions_of_clear hannotated) hshow
  have hlen : ascriptions.length = unit.functions.length := by
    rw [hresolve.length_eq, ← hrefined.length_eq]
    simpa using congrArg List.length (CompileUnit.functions_of_clear hclear)
  have hamb : ({ start.scopes with sigs := base.sigs } : ScopeTree).Unambiguous :=
    hinf.settled.unambiguous
  rw [husers] at hamb ⊢
  exact CompileUnit.resolve_annotate hr hlen hshow' hamb

theorem CompileUnit.ResolvedIn.infer_named (h : bound.ResolvedIn start)
    (hinf : bound.Inferred start base) {script' : Script} {tree₂ : ScopeTree}
    (hc : ScriptLang.commitFunctions 1 start.signatures (List.range bound.functions.length)
      bound.functions base = .done fns' tree₂)
    (hscript : bound.script.commit 1 tree₂ = .done script' tree')
    (hlen : ascriptions.length = bound.functions.length) :
    (bound.annotate ascriptions).infer start.unitScope start.signatures
      { start.scopes with sigs := base.sigs } =
      .done ({ bound with functions := fns', script := script' }.annotate ascriptions) tree' := by
  have hknows : ∀ sig ∈ start.signatures,
      ({ start.scopes with sigs := base.sigs } : ScopeTree).Knows sig := by
    intro sig hm
    obtain ⟨i, hlt, rfl⟩ := List.getElem_of_mem hm
    have hlt' : i < bound.functions.length := h.signatures_length ▸ hlt
    have hentry : (bound.functions[i], start.signatures[i]) ∈ bound.routines start :=
      mem_zip_iff.mpr ⟨i, List.getElem?_eq_getElem hlt', List.getElem?_eq_getElem hlt⟩
    obtain ⟨signature, _, _, hsig, hprim, _⟩ := hinf.bears _ hentry
    exact ⟨signature, hsig, hprim.isFullyKnown⟩
  have hbase : ({ start.scopes with sigs := base.sigs } : ScopeTree).resetInferred = base := by
    have hdecls := hinf.refined.decls
    have hparents := hinf.refined.parents
    cases base
    simp only at hdecls hparents
    subst hdecls hparents
    rfl
  have hcount : (bound.annotate ascriptions).functions.length = bound.functions.length := by
    simp [CompileUnit.annotate, hlen]
  refine CompileUnit.infer_eq_done.mpr
    ⟨_, _, script', _, tree₂, discoverReturns_known hknows, ?_, ?_, rfl⟩
  · rw [commitOrder_none, hcount, hbase, h.unitScope]
    exact commitFunctions_annotate hlen h.signatures_length (fun i => List.mem_range.mp) hc
  · rw [h.unitScope]
    exact hscript

theorem emitFunctions_annotate {scopes : ScopeTree} {names : List String} : ∀ {fns : List FnDef}
    {ascriptions : List TypeExpr} {cursor : Cursor}, ascriptions.length = fns.length →
    emitFunctions scopes names (List.zipWith FnDef.annotate fns ascriptions) cursor =
      emitFunctions scopes names fns cursor
  | [], _, _, _ => by simp
  | _ :: _, [], _, hlen => by simp at hlen
  | _ :: fns, _ :: ascriptions, cursor, hlen => by
    have hrest : ∀ cursor, emitFunctions scopes names (List.zipWith FnDef.annotate fns ascriptions)
        cursor = emitFunctions scopes names fns cursor :=
      fun cursor => emitFunctions_annotate (by simpa using hlen)
    simp only [List.zipWith_cons_cons, emitFunctions, hrest]
    rfl

theorem CompileUnit.lower_annotate (hlen : ascriptions.length = unit.functions.length)
    (scopes : ScopeTree) (options : Options) :
    (unit.annotate ascriptions).lower scopes options = unit.lower scopes options := by
  have hnames : (unit.annotate ascriptions).functions.map (·.name) = unit.functions.map (·.name) := by
    refine List.ext_getElem? fun i => ?_
    by_cases hi : i < unit.functions.length
    · have hann : (unit.annotate ascriptions).functions[i]? = _ := getElem?_zipWith_annotate hlen hi
      rw [List.getElem?_map, List.getElem?_map, hann, List.getElem?_eq_getElem hi]
      rfl
    · simp [CompileUnit.annotate, hlen, hi]
  have hfns : ∀ names cursor, emitFunctions scopes names (unit.annotate ascriptions).functions cursor =
      emitFunctions scopes names unit.functions cursor :=
    fun names cursor => emitFunctions_annotate hlen
  simp only [CompileUnit.lower, CompileUnit.lowering, hnames, hfns]
  rfl

theorem Ty.Prim.named {ty : Ty} (h : ty.Prim) :
    ∃ ascription : TypeExpr, ascription.resolve = .ok ty := by
  rcases h with rfl | rfl | rfl | rfl
  · exact ⟨{ name := "Int" }, rfl⟩
  · exact ⟨{ name := "Float" }, rfl⟩
  · exact ⟨{ name := "Bool" }, rfl⟩
  · exact ⟨{ name := "Void" }, rfl⟩

theorem exists_named : ∀ {fns : List FnDef}, (∀ fn ∈ fns, ∃ ty, fn.retSlot = some ty ∧ ty.Prim) →
    ∃ ascriptions : List TypeExpr, List.Forall₂ (fun fn ascription => ∃ ty,
      ascription.resolve = .ok ty ∧ FnDef.retSlot fn = some ty) fns ascriptions
  | [], _ => ⟨[], .nil⟩
  | fn :: _, h => by
    obtain ⟨ty, hslot, hprim⟩ := h fn List.mem_cons_self
    obtain ⟨ascription, hname⟩ := hprim.named
    obtain ⟨ascriptions, hrest⟩ := exists_named fun fn hm => h fn (List.mem_cons_of_mem _ hm)
    exact ⟨ascription :: ascriptions, .cons ⟨ty, hname, hslot⟩ hrest⟩

theorem CompileUnit.ResolvedIn.exists_namedBy (h : unit.ResolvedIn start)
    (hinf : unit.Inferred start base)
    (hc : ScriptLang.commitFunctions 1 start.signatures (List.range unit.functions.length)
      unit.functions base = .done fns' tree) :
    ∃ ascriptions, { unit with functions := fns' }.NamedBy ascriptions := by
  obtain ⟨users, husers, _⟩ := h.refined_sigs hinf.refined
  have hslots := h.retSlots hinf husers hc
  refine exists_named fun fn hm => ?_
  obtain ⟨sig, hsig, hslot⟩ := forall₂_mem_right hslots.flip hm
  have hmem : sig ∈ base.sigs := husers ▸ List.mem_append_right _ hsig
  exact ⟨sig.ret, hslot, hinf.settled.rets sig hmem⟩

end

/-- Writing down the return types that were discovered changes nothing but the ascriptions: the unit
is checked to the same tree with the same resolution, and compiled to the same module. -/
theorem check_compile_annotate {unit : CompileUnit} {res : Resolution}
    (h : unit.check.result = .ok res) :
    (∃ ascriptions, unit.check.unit.NamedBy ascriptions) ∧
      ∀ ascriptions, unit.check.unit.NamedBy ascriptions →
        (unit.annotate ascriptions).check = ⟨unit.check.unit.annotate ascriptions, .ok res⟩ ∧
        ∀ options, (unit.annotate ascriptions).compile options =
          ⟨unit.check.unit.annotate ascriptions, (unit.compile options).result⟩ := by
  have hcheck : unit.check = ⟨unit.check.unit, .ok res⟩ := by rw [← h]
  obtain ⟨bound, start, hr, hi, hres'⟩ := CompileUnit.check_eq_ok.mp hcheck
  obtain ⟨hres, hclear, _⟩ := CompileUnit.resolve_spec hr
  obtain ⟨base, fns', script', tree₂, hinf, hcommit, hscript, hunit⟩ := hres.inferred hi
  refine ⟨hunit ▸ hres.exists_namedBy hinf hcommit, fun ascriptions hnames => ?_⟩
  have hlen : ascriptions.length = unit.check.unit.functions.length := hnames.length_eq.symm
  have hcount : unit.check.unit.functions.length = bound.functions.length := by
    have hclear' := CompileUnit.functions_of_clear ((hres.infer hi).2.1)
    simpa using congrArg List.length hclear'
  rw [hunit] at hnames
  have hchecked : (unit.annotate ascriptions).check =
      ⟨unit.check.unit.annotate ascriptions, .ok res⟩ := by
    refine CompileUnit.check_eq_ok.mpr
      ⟨_, _, hres.resolve_named hr hclear hinf hcommit hnames, ?_, hres'⟩
    have hinfer := hres.infer_named hinf hcommit hscript (hlen.trans hcount)
    rw [← hunit] at hinfer
    exact hinfer
  refine ⟨hchecked, fun options => ?_⟩
  simp only [CompileUnit.compile, hchecked]
  rw [hcheck, CompileUnit.lower_annotate hlen]

theorem check_compile_annotate_triangle :
    triangle.check.unit.NamedBy [{ name := "Int" }, { name := "Int" }] ∧ ∀ options,
      ((triangle.annotate [{ name := "Int" }, { name := "Int" }]).compile options).result =
        (triangle.compile options).result := by
  have hok : triangle.check.result.isOk = true := by decide +kernel
  have hslots : triangle.check.unit.functions.map (·.retSlot) = [some .int, some .int] := by
    decide +kernel
  have hnames : triangle.check.unit.NamedBy [{ name := "Int" }, { name := "Int" }] := by
    have hall : List.Forall₂ (fun (slot : TypeSlot) (ascription : TypeExpr) =>
        ∃ ty, ascription.resolve = .ok ty ∧ slot = some ty)
        (triangle.check.unit.functions.map (·.retSlot)) [{ name := "Int" }, { name := "Int" }] :=
      hslots ▸ .cons ⟨.int, rfl, rfl⟩ (.cons ⟨.int, rfl, rfl⟩ .nil)
    exact List.forall₂_map_left_iff.mp hall
  refine ⟨hnames, fun options => ?_⟩
  cases h : triangle.check.result with
  | error halt =>
    rw [h] at hok
    cases hok
  | ok res => rw [((check_compile_annotate h).2 _ hnames).2 options]

end ScriptLang
