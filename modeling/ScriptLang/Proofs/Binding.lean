import ScriptLang.Proofs.Erasure
import ScriptLang.Proofs.Lookup

/-!
# Binding resolves names

A binding pass that is done leaves a resolved tree: by induction along the text, the scope at hand
always sees exactly the environment of the place, and the declarations of the tree are its binding
sites, in order.
-/

namespace ScriptLang

open Pass ScopeTree

variable {tree tree' : ScopeTree} {scope : ScopeId} {name : String} {span : Span} {id : DeclId}

/-! ## Expressions -/

theorem ScopeTree.resolveVariable_eq_ok :
    tree.resolveVariable scope name span = .ok id ↔
      tree.lookupVariable scope name = .ok (some id) := by
  simp [resolveVariable, bind_eq_ok, mapError_eq_ok, demand_eq_ok]

mutual
theorem Expr.bind_spec {scope : ScopeId} {env : Env} {tree : ScopeTree} (hs : tree.Sees scope env) :
    ∀ (expr expr' : Expr) (tree' : ScopeTree), expr.bind scope tree = .done expr' tree' →
      tree' = tree ∧ expr'.Resolved env ∧ expr'.clear false = expr.clear false
  | .lit .., _, _, h => by
    simp only [Expr.bind, pure_eq_done] at h
    obtain ⟨rfl, rfl⟩ := h
    exact ⟨rfl, trivial, rfl⟩
  | .var name _ _ _, _, _, h => by
    simp only [Expr.bind, bind_eq_done, scopes_eq_done, ofExcept_eq_done, pure_eq_done,
      resolveVariable_eq_ok] at h
    obtain ⟨_, _, ⟨rfl, rfl⟩, id, _, ⟨hl, rfl⟩, rfl, rfl⟩ := h
    rw [hs name, Except.ok.injEq] at hl
    exact ⟨rfl, ⟨id, rfl, hl⟩, rfl⟩
  | .call _ args _ _, _, _, h => by
    simp only [Expr.bind, bind_eq_done, within_eq_done, pure_eq_done] at h
    obtain ⟨args', _, ha, rfl, rfl⟩ := h
    obtain ⟨rfl, hr, hc⟩ := bindAll_spec hs args args' _ ha
    exact ⟨rfl, hr, by simp only [Expr.clear, hc]⟩
termination_by structural expr => expr
theorem bindAll_spec {scope : ScopeId} {env : Env} {tree : ScopeTree} (hs : tree.Sees scope env) :
    ∀ (exprs exprs' : List Expr) (tree' : ScopeTree), bindAll scope exprs tree = .done exprs' tree' →
      tree' = tree ∧ AllResolved env exprs' ∧ clearAll false exprs' = clearAll false exprs
  | [], _, _, h => by
    simp only [bindAll, pure_eq_done] at h
    obtain ⟨rfl, rfl⟩ := h
    exact ⟨rfl, trivial, rfl⟩
  | expr :: exprs, exprs', _, h => by
    simp only [bindAll, bind_eq_done, within_eq_done, pure_eq_done] at h
    obtain ⟨expr', _, he, exprs', _, hes, rfl, rfl⟩ := h
    obtain ⟨rfl, hr, hc⟩ := Expr.bind_spec hs expr expr' _ he
    obtain ⟨rfl, hrs, hcs⟩ := bindAll_spec hs exprs exprs' _ hes
    exact ⟨rfl, ⟨hr, hrs⟩, by simp only [clearAll, hc, hcs]⟩
termination_by structural exprs => exprs
end

/-! ## Statements -/

theorem declareHere_eq_done {node : ν} {ty : Ty} {kind : DeclKind} :
    declareHere node scope name ty kind span tree = .done id tree' ↔
      tree.declareVariable scope name ty kind span = .ok (id, tree') := by
  simp only [declareHere, bind_eq_done, scopes_eq_done, ofExcept_eq_done, setScopes_eq_done,
    pure_eq_done, Prod.exists]
  constructor
  · rintro ⟨_, _, ⟨rfl, rfl⟩, _, _, _, ⟨hd, rfl⟩, _, _, rfl, rfl, rfl⟩
    exact hd
  · intro hd
    exact ⟨tree, tree, ⟨rfl, rfl⟩, id, tree', tree, ⟨hd, rfl⟩, (), tree', rfl, rfl, rfl⟩

theorem openScope_eq_done {parent : ScopeId} :
    (openScope parent : Pass ScopeTree ν ScopeId) tree = .done scope tree' ↔
      scope = tree.parents.length ∧ tree' = (tree.newScope parent).2 := by
  simp only [openScope, bind_eq_done, scopes_eq_done, setScopes_eq_done, pure_eq_done]
  constructor
  · rintro ⟨_, _, ⟨rfl, rfl⟩, _, _, rfl, rfl, rfl⟩
    exact ⟨rfl, rfl⟩
  · rintro ⟨rfl, rfl⟩
    exact ⟨tree, tree, ⟨rfl, rfl⟩, (), _, rfl, rfl, rfl⟩

/-- What binding a piece of text in `scope` does to the scope tree: it declares the sites of the
text one after the other and ends with `env` in sight. -/
structure Bound (scope : Nat) (tree tree' : ScopeTree) (sites : List Site) (env : Env) : Prop where
  arena : tree'.Arena
  grown : Grown scope tree tree'
  sees : tree'.Sees scope env
  numbered : Numbered tree' tree.decls.length sites
  length : tree'.decls.length = tree.decls.length + sites.length

theorem Numbered.of_grown {scope : Nat} {n : Nat} {sites : List Site} (hg : Grown scope tree tree')
    (h : Numbered tree n sites) : Numbered tree' n sites :=
  h.of_decls fun _ var hv => ⟨var.ty, hg.getElem?_decls hv⟩

namespace Bound

variable {scope : Nat} {tree tree' tree'' : ScopeTree} {sites sites' : List Site} {env env' : Env}

theorem refl (h : tree.Arena) (hs : tree.Sees scope env) : Bound scope tree tree [] env :=
  ⟨h, .refl scope tree, hs, trivial, by simp⟩

theorem trans (h : Bound scope tree tree' sites env) (k : Bound scope tree' tree'' sites' env') :
    Bound scope tree tree'' (sites ++ sites') env' := by
  refine ⟨k.arena, h.grown.trans k.grown (Or.inl rfl), k.sees, ?_, ?_⟩
  · rw [numbered_append, ← h.length]
    exact ⟨h.numbered.of_grown k.grown, k.numbered⟩
  · rw [k.length, h.length, List.length_append]
    omega

theorem inside (h : Bound scope tree tree' sites env) (hs : scope < tree.parents.length) :
    scope < tree'.parents.length :=
  Nat.lt_of_lt_of_le hs h.grown.length_parents

theorem declare {ty : Ty} {kind : DeclKind} {ascription : Option TypeExpr} (h : tree.Arena)
    (hs : tree.Sees scope env) (hd : tree.declareVariable scope name ty kind span = .ok (id, tree'))
    (ht : (Site.mk name kind ascription span (some id)).type = .ok ty) :
    Bound scope tree tree' [⟨name, kind, ascription, span, some id⟩] ((name, id) :: env) := by
  refine ⟨arena_declare hd h, grown_declare hd, sees_declare hd h hs, ?_, ?_⟩
  · obtain ⟨_, _, rfl, rfl⟩ := declareVariable_eq_ok.mp hd
    exact ⟨rfl, ⟨_, List.getElem?_concat_length, ⟨rfl, rfl, rfl, ht⟩⟩, trivial⟩
  · obtain ⟨_, _, _, rfl⟩ := declareVariable_eq_ok.mp hd
    simp

/-- A scope of its own for a piece of text. What the piece declares is out of sight afterwards. -/
theorem enclosed {inner : Nat} {tree₁ : ScopeTree} (h : tree.Arena)
    (hlt : scope < tree.parents.length) (hs : tree.Sees scope env)
    (hi : inner = tree.parents.length) (ho : tree₁ = (tree.newScope scope).2)
    (hb : Bound inner tree₁ tree' sites env') : Bound scope tree tree' sites env := by
  subst ho hi
  have hg : Grown tree.parents.length tree tree' :=
    (grown_newScope tree.parents.length).trans hb.grown (Or.inl rfl)
  exact ⟨hb.arena, (grown_newScope scope).trans hb.grown (Or.inr (Nat.le_refl _)),
    hs.of_grown h hlt hg hlt, hb.numbered, hb.length⟩

end Bound

mutual
theorem Stmt.bind_spec : ∀ (stmt stmt' : Stmt) {scope : Nat} {env : Env} {tree tree' : ScopeTree},
    tree.Arena → scope < tree.parents.length → tree.Sees scope env →
    stmt.bind scope tree = .done stmt' tree' →
    Bound scope tree tree' stmt'.sites (stmt'.extend env) ∧ stmt'.Resolved env ∧
      stmt'.clear false = stmt.clear false
  | .decl _ _ value _ _, _, _, _, _, _, ha, _, hs, h => by
    simp only [Stmt.bind, bind_eq_done, within_eq_done, ofExcept_eq_done, declareHere_eq_done,
      pure_eq_done] at h
    obtain ⟨value', _, hv, ty, _, ⟨ht, rfl⟩, id, _, hd, rfl, rfl⟩ := h
    obtain ⟨rfl, hr, hc⟩ := Expr.bind_spec hs value value' _ hv
    exact ⟨.declare ha hs hd ht, ⟨hr, id, rfl⟩, by simp [Stmt.clear, hc]⟩
  | .assign target value _ _, _, _, _, _, _, ha, _, hs, h => by
    simp only [Stmt.bind, bind_eq_done, within_eq_done, scopes_eq_done, ofExcept_eq_done,
      pure_eq_done, resolveVariable_eq_ok] at h
    obtain ⟨value', _, hv, _, _, ⟨rfl, rfl⟩, id, _, ⟨hl, rfl⟩, rfl, rfl⟩ := h
    obtain ⟨rfl, hr, hc⟩ := Expr.bind_spec hs value value' _ hv
    rw [hs target, Except.ok.injEq] at hl
    exact ⟨.refl ha hs, ⟨hr, id, rfl, hl⟩, by simp [Stmt.clear, hc]⟩
  | .branch conds blocks _, _, _, _, _, _, ha, hlt, hs, h => by
    unfold Stmt.bind at h
    split at h
    · rename_i hf
      simp only [bind_eq_done, within_eq_done, pure_eq_done] at h
      obtain ⟨conds', _, hcs, blocks', _, hbs, rfl, rfl⟩ := h
      obtain ⟨rfl, hr, hc⟩ := bindAll_spec hs conds conds' _ hcs
      obtain ⟨hb, hrb, hcb⟩ := bindBlocks_spec blocks blocks' ha hlt hs hbs
      rw [← length_eq_of_clearAll hc, ← length_eq_of_clearBlocks hcb] at hf
      exact ⟨hb, ⟨hf, hr, hrb⟩, by simp only [Stmt.clear, hc, hcb]⟩
    · simp only [stop_eq_done] at h
  | .forLoop var lo hi body span _, _, _, env, _, _, ha, hlt, hs, h => by
    simp only [Stmt.bind, bind_eq_done, within_eq_done, openScope_eq_done, declareHere_eq_done,
      pure_eq_done] at h
    obtain ⟨lo', _, hl, hi', _, hh, inner, tree₁, ⟨hin, ho⟩, id, tree₂, hd, body', _, hb, rfl,
      rfl⟩ := h
    obtain ⟨rfl, hrl, hcl⟩ := Expr.bind_spec hs lo lo' _ hl
    obtain ⟨rfl, hrh, hch⟩ := Expr.bind_spec hs hi hi' _ hh
    have ha₁ : tree₁.Arena := ho ▸ arena_newScope ha hlt
    have hs₁ : tree₁.Sees inner env := ho ▸ hin ▸ sees_newScope ha hlt hs
    have hd₁ : Bound inner tree₁ tree₂ [⟨var, .loopVar, none, span, some id⟩] ((var, id) :: env) :=
      .declare ha₁ hs₁ hd rfl
    have hlt₁ : inner < tree₁.parents.length := by simp [ho, hin, newScope]
    obtain ⟨hb, hrb, hcb⟩ := Block.bind_spec body body' hd₁.arena (hd₁.inside hlt₁) hd₁.sees hb
    exact ⟨.enclosed ha hlt hs hin ho (hd₁.trans hb), ⟨hrl, hrh, id, rfl, hrb⟩,
      by simp [Stmt.clear, hcl, hch, hcb]⟩
  | .whileLoop cond body _, _, _, _, _, _, ha, hlt, hs, h => by
    simp only [Stmt.bind, bind_eq_done, within_eq_done, pure_eq_done] at h
    obtain ⟨cond', _, hcd, body', _, hb, rfl, rfl⟩ := h
    obtain ⟨rfl, hr, hc⟩ := Expr.bind_spec hs cond cond' _ hcd
    obtain ⟨hb, hrb, hcb⟩ := Block.bind_spec body body' ha hlt hs hb
    exact ⟨hb, ⟨hr, hrb⟩, by simp only [Stmt.clear, hc, hcb]⟩
  | .call value, _, _, _, _, _, ha, _, hs, h => by
    simp only [Stmt.bind, bind_eq_done, within_eq_done, pure_eq_done] at h
    obtain ⟨value', _, hv, rfl, rfl⟩ := h
    obtain ⟨rfl, hr, hc⟩ := Expr.bind_spec hs value value' _ hv
    exact ⟨.refl ha hs, hr, by simp only [Stmt.clear, hc]⟩
termination_by structural stmt => stmt
theorem Block.bind_spec : ∀ (block block' : Block) {scope : Nat} {own : Option ScopeId} {env : Env}
    {tree tree' : ScopeTree},
    tree.Arena → scope < tree.parents.length → tree.Sees scope env →
    block.bind scope own tree = .done block' tree' →
    Bound scope tree tree' block'.sites (block'.extend env) ∧ block'.Resolved env ∧
      block'.clear false = block.clear false
  | ⟨stmts, ret, _, _, _⟩, _, _, _, _, _, _, ha, hlt, hs, h => by
    simp only [Block.bind, bind_eq_done, within_eq_done] at h
    obtain ⟨stmts', tree₁, hst, h⟩ := h
    obtain ⟨hb, hr, hc⟩ := bindStmts_spec stmts stmts' ha hlt hs hst
    cases ret with
    | none =>
      obtain ⟨rfl, rfl⟩ := pure_eq_done.mp h
      exact ⟨hb, ⟨hr, by simp⟩, by simp [Block.clear, hc]⟩
    | some ret =>
      simp only [bind_eq_done, within_eq_done, pure_eq_done] at h
      obtain ⟨value', _, hv, rfl, rfl⟩ := h
      obtain ⟨rfl, hrv, hcv⟩ := Expr.bind_spec hb.sees ret.value value' _ hv
      refine ⟨hb, ⟨hr, ?_⟩, by simp [Block.clear, Return.clear, hc, hcv]⟩
      rintro _ ⟨⟩
      exact hrv
termination_by structural block => block
theorem bindStmts_spec : ∀ (stmts stmts' : List Stmt) {scope : Nat} {env : Env}
    {tree tree' : ScopeTree},
    tree.Arena → scope < tree.parents.length → tree.Sees scope env →
    bindStmts scope stmts tree = .done stmts' tree' →
    Bound scope tree tree' (sitesOf stmts') (extendStmts env stmts') ∧ StmtsResolved env stmts' ∧
      clearStmts false stmts' = clearStmts false stmts
  | [], _, _, _, _, _, ha, _, hs, h => by
    simp only [bindStmts, pure_eq_done] at h
    obtain ⟨rfl, rfl⟩ := h
    exact ⟨.refl ha hs, trivial, rfl⟩
  | stmt :: stmts, stmts', _, _, _, _, ha, hlt, hs, h => by
    simp only [bindStmts, bind_eq_done, within_eq_done, pure_eq_done] at h
    obtain ⟨stmt', _, hst, stmts', _, hsts, rfl, rfl⟩ := h
    obtain ⟨hb, hr, hc⟩ := Stmt.bind_spec stmt stmt' ha hlt hs hst
    obtain ⟨hbs, hrs, hcs⟩ := bindStmts_spec stmts stmts' hb.arena (hb.inside hlt) hb.sees hsts
    exact ⟨hb.trans hbs, ⟨hr, hrs⟩, by simp only [clearStmts, hc, hcs]⟩
termination_by structural stmts => stmts
theorem bindBlocks_spec : ∀ (blocks blocks' : List Block) {scope : Nat} {env : Env}
    {tree tree' : ScopeTree},
    tree.Arena → scope < tree.parents.length → tree.Sees scope env →
    bindBlocks scope blocks tree = .done blocks' tree' →
    Bound scope tree tree' (sitesOfBlocks blocks') (extendBlocks env blocks') ∧
      BlocksResolved env blocks' ∧ clearBlocks false blocks' = clearBlocks false blocks
  | [], _, _, _, _, _, ha, _, hs, h => by
    simp only [bindBlocks, pure_eq_done] at h
    obtain ⟨rfl, rfl⟩ := h
    exact ⟨.refl ha hs, trivial, rfl⟩
  | block :: blocks, blocks', _, _, _, _, ha, hlt, hs, h => by
    simp only [bindBlocks, bind_eq_done, within_eq_done, pure_eq_done] at h
    obtain ⟨block', _, hbl, blocks', _, hbls, rfl, rfl⟩ := h
    obtain ⟨hb, hr, hc⟩ := Block.bind_spec block block' ha hlt hs hbl
    obtain ⟨hbs, hrs, hcs⟩ := bindBlocks_spec blocks blocks' hb.arena (hb.inside hlt) hb.sees hbls
    exact ⟨hb.trans hbs, ⟨hr, hrs⟩, by simp only [clearBlocks, hc, hcs]⟩
termination_by structural blocks => blocks
end

/-! ## Functions -/

theorem bindParams_spec {scope : Nat} : ∀ (params params' : List Param) {env : Env}
    {tree tree' : ScopeTree},
    tree.Arena → tree.Sees scope env → bindParams scope params tree = .done params' tree' →
    Bound scope tree tree' (params'.map Param.site) (extendParams env params') ∧
      params'.map (Param.clear false) = params.map (Param.clear false)
  | [], _, _, _, _, ha, hs, h => by
    simp only [bindParams, pure_eq_done] at h
    obtain ⟨rfl, rfl⟩ := h
    exact ⟨.refl ha hs, rfl⟩
  | param :: params, params', env, tree, _, ha, hs, h => by
    simp only [bindParams, bind_eq_done, ofExcept_eq_done, declareHere_eq_done, within_eq_done,
      pure_eq_done] at h
    obtain ⟨ty, _, ⟨ht, rfl⟩, id, tree₁, hd, params', _, hps, rfl, rfl⟩ := h
    have hb : Bound scope tree tree₁ [⟨param.name, .param, some param.ty, param.span, some id⟩]
        ((param.name, id) :: env) := .declare ha hs hd ht
    obtain ⟨hbs, hcs⟩ := bindParams_spec params params' hb.arena hb.sees hps
    refine ⟨hb.trans hbs, ?_⟩
    simp only [List.map_cons, hcs]
    rfl

/-- The body of a function is resolved with its parameters in sight. -/
def FnDef.Resolved (fn : FnDef) : Prop :=
  fn.body.Resolved (extendParams [] fn.params)

theorem FnDef.bind_spec {unitScope : Nat} {fn fn' : FnDef} (ha : tree.Arena)
    (hlt : unitScope < tree.parents.length) (hs : tree.Sees unitScope [])
    (h : fn.bind unitScope tree = .done fn' tree') :
    Bound unitScope tree tree' fn'.sites [] ∧ fn'.Resolved ∧ fn'.clear false = fn.clear false := by
  simp only [FnDef.bind, bind_eq_done, openScope_eq_done, within_eq_done, pure_eq_done] at h
  obtain ⟨scope, tree₁, ⟨hsc, ho⟩, params', tree₂, hps, body', _, hb, rfl, rfl⟩ := h
  have ha₁ : tree₁.Arena := ho ▸ arena_newScope ha hlt
  have hs₁ : tree₁.Sees scope [] := ho ▸ hsc ▸ sees_newScope ha hlt hs
  have hlt₁ : scope < tree₁.parents.length := by simp [ho, hsc, newScope]
  obtain ⟨hps, hcp⟩ := bindParams_spec fn.params params' ha₁ hs₁ hps
  obtain ⟨hb, hr, hcb⟩ := Block.bind_spec fn.body body' hps.arena (hps.inside hlt₁) hps.sees hb
  refine ⟨.enclosed ha hlt hs hsc ho (hps.trans hb), hr, ?_⟩
  simp only [FnDef.clear, hcp, hcb]

theorem bindFunctions_spec {unitScope : Nat} : ∀ (fns fns' : List FnDef) {tree tree' : ScopeTree},
    tree.Arena → unitScope < tree.parents.length → tree.Sees unitScope [] →
    bindFunctions unitScope fns tree = .done fns' tree' →
    Bound unitScope tree tree' (fns'.flatMap FnDef.sites) [] ∧ (∀ fn ∈ fns', fn.Resolved) ∧
      fns'.map (FnDef.clear false) = fns.map (FnDef.clear false)
  | [], _, _, _, ha, _, hs, h => by
    simp only [bindFunctions, pure_eq_done] at h
    obtain ⟨rfl, rfl⟩ := h
    exact ⟨.refl ha hs, by simp, rfl⟩
  | _ :: fns, fns', _, _, ha, hlt, hs, h => by
    simp only [bindFunctions, bind_eq_done, within_eq_done, pure_eq_done] at h
    obtain ⟨fn', _, hf, fns', _, hfs, rfl, rfl⟩ := h
    obtain ⟨hb, hr, hc⟩ := FnDef.bind_spec ha hlt hs hf
    obtain ⟨hbs, hrs, hcs⟩ := bindFunctions_spec fns fns' hb.arena (hb.inside hlt) hb.sees hfs
    refine ⟨hb.trans hbs, ?_, by simp only [List.map_cons, hc, hcs]⟩
    intro f hf
    rcases List.mem_cons.mp hf with rfl | hf
    · exact hr
    · exact hrs f hf

end ScriptLang
