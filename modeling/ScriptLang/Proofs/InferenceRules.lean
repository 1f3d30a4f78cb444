import ScriptLang.Check.Inference
import ScriptLang.Proofs.Erasure
import Mathlib.Data.List.Forall2

/-!
# Inference step by step

What it takes for each step of inference to be done, and what it leaves: one rule for each form of
expression and statement. Expressions never change the scope tree; a declaration or an assignment
retypes one variable.
-/

namespace ScriptLang

open Pass ScopeTree

variable {id : DeclId} {expr' value : Expr} {stmts : List Stmt} {handle : Option DeclId}
  {scope : ScopeId} {tree tree' : ScopeTree} {span : Span} {stmt' : Stmt} {name : String}
  {expected ty : Ty}

/-! ## Slots -/

/-- A slot that is empty or holds the type already. -/
def TypeSlot.Accepts (slot : TypeSlot) (ty : Ty) : Prop :=
  slot = none ∨ slot = some ty

theorem TypeSlot.writeOrHalt_eq_ok {slot slot' : TypeSlot} :
    slot.writeOrHalt ty span = .ok slot' ↔ slot.Accepts ty ∧ slot' = some ty := by
  unfold TypeSlot.writeOrHalt TypeSlot.write TypeSlot.Accepts
  cases slot with
  | none => simp [eq_comm]
  | some existing =>
    by_cases h : existing = ty
    · simp [h, eq_comm]
    · simp [h]

theorem Expr.writeSlot_eq_done {expr : Expr} :
    expr.writeSlot ty tree = .done expr' tree' ↔
      expr.slot.Accepts ty ∧ expr' = expr.withSlot (some ty) ∧ tree' = tree := by
  simp only [Expr.writeSlot, bind_eq_done, ofExcept_eq_done, pure_eq_done,
    TypeSlot.writeOrHalt_eq_ok]
  constructor
  · rintro ⟨_, _, ⟨⟨ha, rfl⟩, rfl⟩, rfl, rfl⟩
    exact ⟨ha, rfl, rfl⟩
  · rintro ⟨ha, rfl, rfl⟩
    exact ⟨some ty, tree', ⟨⟨ha, rfl⟩, rfl⟩, rfl, rfl⟩

/-! ## Committing expressions -/

theorem commitAll_cons {arg : Expr} {args exprs' : List Expr} {param own : Ty}
    {params found : List Ty}
    (h : commitAll scope (arg :: args) (param :: params) (own :: found) tree = .done exprs' tree') :
    ∃ arg' args' ty tree₁, exprs' = arg' :: args' ∧ param.unify own = some ty ∧
      arg.commit scope ty tree = .done arg' tree₁ ∧
      commitAll scope args params found tree₁ = .done args' tree' := by
  unfold commitAll at h
  cases hu : param.unify own with
  | none =>
    rw [hu, stop_eq_done] at h
    exact h.elim
  | some ty =>
    simp only [hu, bind_eq_done, within_eq_done, pure_eq_done] at h
    obtain ⟨arg', tree₁, ha, args', _, has, rfl, rfl⟩ := h
    exact ⟨arg', args', ty, tree₁, rfl, rfl, ha, has⟩

mutual
theorem Expr.commit_spec {scope : ScopeId} : ∀ (expr expr' : Expr) {ty : Ty}
    {tree tree' : ScopeTree}, expr.commit scope ty tree = .done expr' tree' →
    tree' = tree ∧ expr'.clear true = expr.clear true ∧ expr'.slot = some ty
  | .lit .., _, _, _, _, h => by
    unfold Expr.commit at h
    split at h
    · obtain ⟨_, rfl, rfl⟩ := Expr.writeSlot_eq_done.mp h
      exact ⟨rfl, rfl, rfl⟩
    · rw [stop_eq_done] at h
      exact h.elim
  | .var .., _, _, _, _, h => by
    unfold Expr.commit at h
    split at h
    · obtain ⟨_, rfl, rfl⟩ := Expr.writeSlot_eq_done.mp h
      exact ⟨rfl, rfl, rfl⟩
    · rw [stop_eq_done] at h
      exact h.elim
  | .call _ args _ _, _, _, _, _, h => by
    unfold Expr.commit at h
    split at h
    · simp only [bind_eq_done, scopes_eq_done, ofExcept_eq_done, note_eq_done, within_eq_done,
        Expr.writeSlot_eq_done] at h
      obtain ⟨_, _, ⟨rfl, rfl⟩, found, _, ⟨_, rfl⟩, sig, _, ⟨_, rfl⟩, _, _, rfl, args', _, ha, _,
        rfl, rfl⟩ := h
      obtain ⟨rfl, hc⟩ := commitAll_spec args args' ha
      exact ⟨rfl, by simp only [Expr.withSlot, Expr.clear, hc], rfl⟩
    · rw [stop_eq_done] at h
      exact h.elim
theorem commitAll_spec {scope : ScopeId} : ∀ (exprs exprs' : List Expr) {params found : List Ty}
    {tree tree' : ScopeTree}, commitAll scope exprs params found tree = .done exprs' tree' →
    tree' = tree ∧ clearAll true exprs' = clearAll true exprs
  | [], _, _, _, _, _, h => by
    unfold commitAll at h
    obtain ⟨rfl, rfl⟩ := pure_eq_done.mp h
    exact ⟨rfl, rfl⟩
  | arg :: args, _, params, found, _, _, h => by
    cases params with
    | nil =>
      unfold commitAll at h
      obtain ⟨rfl, rfl⟩ := pure_eq_done.mp h
      exact ⟨rfl, rfl⟩
    | cons param params =>
      cases found with
      | nil =>
        unfold commitAll at h
        obtain ⟨rfl, rfl⟩ := pure_eq_done.mp h
        exact ⟨rfl, rfl⟩
      | cons own found =>
        obtain ⟨arg', args', _, _, rfl, _, ha, has⟩ := commitAll_cons h
        obtain ⟨rfl, hc, _⟩ := Expr.commit_spec arg arg' ha
        obtain ⟨rfl, hcs⟩ := commitAll_spec args args' has
        exact ⟨rfl, by simp only [clearAll, hc, hcs]⟩
end

theorem Expr.commit_call {args : List Expr} {slot : TypeSlot}
    (h : (Expr.call name args span slot).commit scope ty tree = .done expr' tree') :
    ∃ found sig args', synthAll tree scope args = .ok found ∧
      tree.overloadFor scope name found ty span = .ok sig ∧
      commitAll scope args sig.params found tree = .done args' tree ∧
      expr' = .call name args' span (some ty) := by
  unfold Expr.commit at h
  split at h
  · simp only [bind_eq_done, scopes_eq_done, ofExcept_eq_done, note_eq_done, within_eq_done,
      Expr.writeSlot_eq_done] at h
    obtain ⟨_, _, ⟨rfl, rfl⟩, found, _, ⟨hf, rfl⟩, sig, _, ⟨ho, rfl⟩, _, _, rfl, args', _, ha, _,
      rfl, rfl⟩ := h
    obtain ⟨rfl, _⟩ := commitAll_spec args args' ha
    exact ⟨found, sig, args', hf, ho, ha, rfl⟩
  · rw [stop_eq_done] at h
    exact h.elim

/-! ## Consuming expressions -/

/-- What is left of an expression that was consumed at a type. -/
def Expr.Written (mode : Mode) (scope : ScopeId) (tree : ScopeTree) (expr : Expr) (ty : Ty)
    (expr' : Expr) : Prop :=
  match mode with
  | .probe => expr' = expr
  | .commit => expr.commit scope ty tree = .done expr' tree

/-- The expression was found to have a type that merges with the expected one. -/
def Expr.Consumed (mode : Mode) (scope : ScopeId) (tree : ScopeTree) (expr : Expr) (expected : Ty)
    (expr' : Expr) (ty : Ty) : Prop :=
  ∃ found, expr.synth tree scope = .ok found ∧ expected.unify found = some ty ∧
    ty.isVariant = false ∧ expr.Written mode scope tree ty expr'

theorem Ty.unifyOrMismatch_eq_ok {found : Ty} {origin : Origin} :
    expected.unifyOrMismatch found origin = .ok ty ↔ expected.unify found = some ty := by
  unfold Ty.unifyOrMismatch
  cases expected.unify found <;> simp

theorem Expr.consume_eq_done {mode : Mode} {expr : Expr} {origin : Origin} :
    expr.consume mode scope expected origin tree = .done (expr', ty) tree' ↔
      expr.Consumed mode scope tree expected expr' ty ∧ tree' = tree := by
  simp only [Expr.consume, bind_eq_done, scopes_eq_done, ofExcept_eq_done, mapError_eq_ok,
    Ty.unifyOrMismatch_eq_ok]
  constructor
  · rintro ⟨_, _, ⟨rfl, rfl⟩, found, _, ⟨hf, rfl⟩, ty', _, ⟨hu, rfl⟩, h⟩
    split at h
    · rw [stop_eq_done] at h
      exact h.elim
    · rename_i hv
      rw [Bool.not_eq_true] at hv
      cases mode with
      | probe =>
        obtain ⟨he, rfl⟩ := pure_eq_done.mp h
        cases he
        exact ⟨⟨found, hf, hu, hv, rfl⟩, rfl⟩
      | commit =>
        simp only [bind_eq_done, pure_eq_done, Prod.mk.injEq] at h
        obtain ⟨_, _, hc, ⟨rfl, rfl⟩, rfl⟩ := h
        obtain ⟨rfl, _⟩ := Expr.commit_spec _ _ hc
        exact ⟨⟨found, hf, hu, hv, hc⟩, rfl⟩
  · rintro ⟨⟨found, hf, hu, hv, hw⟩, rfl⟩
    refine ⟨tree', tree', ⟨rfl, rfl⟩, found, tree', ⟨hf, rfl⟩, ty, tree', ⟨hu, rfl⟩, ?_⟩
    rw [if_neg (by simp [hv])]
    cases mode with
    | probe =>
      cases hw
      rfl
    | commit =>
      simp only [bind_eq_done, pure_eq_done]
      exact ⟨expr', tree', hw, rfl, rfl⟩

theorem consumeAll_eq_done {mode : Mode} {scope : ScopeId} {expected : Ty} {origin : Span → Origin}
    {tree : ScopeTree} : ∀ {exprs exprs' : List Expr} {tree' : ScopeTree},
    consumeAll mode scope expected origin exprs tree = .done exprs' tree' ↔
      List.Forall₂ (fun expr expr' => ∃ ty, expr.Consumed mode scope tree expected expr' ty)
        exprs exprs' ∧ tree' = tree
  | [], _, _ => by
    simp only [consumeAll, pure_eq_done, List.forall₂_nil_left_iff, @eq_comm _ tree,
      @eq_comm _ []]
  | _ :: _, exprs', tree' => by
    simp only [consumeAll, bind_eq_done, within_eq_done, pure_eq_done, Prod.exists,
      Expr.consume_eq_done, consumeAll_eq_done, List.forall₂_cons_left_iff]
    constructor
    · rintro ⟨expr', ty, _, ⟨hc, rfl⟩, exprs', _, ⟨hcs, rfl⟩, rfl, rfl⟩
      exact ⟨⟨expr', exprs', ⟨ty, hc⟩, hcs, rfl⟩, rfl⟩
    · rintro ⟨⟨expr', exprs', ⟨ty, hc⟩, hcs, rfl⟩, rfl⟩
      exact ⟨expr', ty, tree', ⟨hc, rfl⟩, exprs', tree', ⟨hcs, rfl⟩, rfl, rfl⟩

/-! ## Statements -/

section

variable {mode : Mode} {scope : ScopeId} {ctx ctx' : RoutineContext} {tree tree' : ScopeTree}

theorem boundVariable_eq_ok {what : String} {var : VarDecl} :
    boundVariable tree handle what span = .ok (id, var) ↔
      handle = some id ∧ tree.decls[id]? = some var := by
  simp only [boundVariable, bind_eq_ok, demand_eq_ok, declaration_eq_ok, pure_eq_ok, Prod.mk.injEq]
  constructor
  · rintro ⟨_, hh, _, hv, rfl, rfl⟩
    exact ⟨hh, hv⟩
  · rintro ⟨hh, hv⟩
    exact ⟨id, hh, var, hv, rfl, rfl⟩

theorem assignedVariable_eq_ok {target : String} {var : VarDecl} :
    assignedVariable tree handle target span = .ok (id, var) ↔
      handle = some id ∧ tree.decls[id]? = some var ∧ var.assignable = true := by
  simp only [assignedVariable, bind_eq_ok, Prod.exists, boundVariable_eq_ok]
  constructor
  · rintro ⟨id', var', ⟨hh, hv⟩, h⟩
    split at h
    · rename_i ha
      cases pure_eq_ok.mp h
      exact ⟨hh, hv, ha⟩
    · cases h
  · rintro ⟨hh, hv, ha⟩
    refine ⟨id, var, ⟨hh, hv⟩, ?_⟩
    rw [if_pos ha]
    rfl

theorem storable_eq_ok {u : Unit} : storable name expected ty span = .ok u ↔ ty.isVoid = false := by
  unfold storable
  cases ty.isVoid <;> simp

theorem setTypeHere_eq_done {node : ν} {u : Unit} :
    setTypeHere node id ty tree = .done u tree' ↔
      ∃ var, tree.decls[id]? = some var ∧ tree' = tree.retype id var ty := by
  simp only [setTypeHere, bind_eq_done, scopes_eq_done, ofExcept_eq_done, mapError_eq_ok,
    setVarType_eq_ok, setScopes_eq_done]
  constructor
  · rintro ⟨_, _, ⟨rfl, rfl⟩, _, _, ⟨⟨var, hv, rfl⟩, rfl⟩, rfl⟩
    exact ⟨var, hv, rfl⟩
  · rintro ⟨var, hv, rfl⟩
    exact ⟨tree, tree, ⟨rfl, rfl⟩, _, tree, ⟨⟨var, hv, rfl⟩, rfl⟩, rfl⟩

theorem Stmt.infer_decl {ascription : Option TypeExpr} :
    (Stmt.decl name ascription value span handle).infer mode scope ctx tree =
        .done (stmt', ctx') tree' ↔
      ∃ id var value' ty, handle = some id ∧ tree.decls[id]? = some var ∧
        value.Consumed mode scope tree var.declared value' ty ∧ ty.isVoid = false ∧
        stmt' = .decl name ascription value' span handle ∧ ctx' = ctx ∧
        tree' = tree.retype id var ty := by
  -- on a given constructor the pass is its first bind by definition
  refine bind_eq_done.trans ?_
  simp only [bind_eq_done, scopes_eq_done, ofExcept_eq_done, within_eq_done,
    note_eq_done, pure_eq_done, Prod.exists, boundVariable_eq_ok, Expr.consume_eq_done,
    storable_eq_ok, setTypeHere_eq_done, Prod.mk.injEq]
  constructor
  · rintro ⟨_, _, ⟨rfl, rfl⟩, id, var, _, ⟨⟨hh, hv⟩, rfl⟩, value', ty, _, ⟨hc, rfl⟩, _, _,
      ⟨hn, rfl⟩, _, _, rfl, _, _, ⟨var', hv', rfl⟩, ⟨rfl, rfl⟩, rfl⟩
    rw [hv] at hv'
    cases hv'
    exact ⟨id, var, value', ty, hh, hv, hc, hn, rfl, rfl, rfl⟩
  · rintro ⟨id, var, value', ty, hh, hv, hc, hn, rfl, rfl, rfl⟩
    exact ⟨tree, tree, ⟨rfl, rfl⟩, id, var, tree, ⟨⟨hh, hv⟩, rfl⟩, value', ty, tree, ⟨hc, rfl⟩, (),
      tree, ⟨hn, rfl⟩, (), tree, rfl, (), _, ⟨var, hv, rfl⟩, ⟨rfl, rfl⟩, rfl⟩

theorem Stmt.infer_assign {target : String} :
    (Stmt.assign target value span handle).infer mode scope ctx tree =
        .done (stmt', ctx') tree' ↔
      ∃ id var value' ty, handle = some id ∧ tree.decls[id]? = some var ∧
        var.assignable = true ∧ value.Consumed mode scope tree var.ty value' ty ∧
        ty.isVoid = false ∧ stmt' = .assign target value' span handle ∧ ctx' = ctx ∧
        tree' = tree.retype id var ty := by
  refine bind_eq_done.trans ?_
  simp only [bind_eq_done, scopes_eq_done, ofExcept_eq_done, within_eq_done,
    pure_eq_done, Prod.exists, assignedVariable_eq_ok, Expr.consume_eq_done,
    storable_eq_ok, setTypeHere_eq_done, Prod.mk.injEq]
  constructor
  · rintro ⟨_, _, ⟨rfl, rfl⟩, id, var, _, ⟨⟨hh, hv, ha⟩, rfl⟩, value', ty, _, ⟨hc, rfl⟩, _, _,
      ⟨hn, rfl⟩, _, _, ⟨var', hv', rfl⟩, ⟨rfl, rfl⟩, rfl⟩
    rw [hv] at hv'
    cases hv'
    exact ⟨id, var, value', ty, hh, hv, ha, hc, hn, rfl, rfl, rfl⟩
  · rintro ⟨id, var, value', ty, hh, hv, ha, hc, hn, rfl, rfl, rfl⟩
    exact ⟨tree, tree, ⟨rfl, rfl⟩, id, var, tree, ⟨⟨hh, hv, ha⟩, rfl⟩, value', ty, tree, ⟨hc, rfl⟩,
      (), tree, ⟨hn, rfl⟩, (), _, ⟨var, hv, rfl⟩, ⟨rfl, rfl⟩, rfl⟩

theorem Stmt.infer_branch {conds : List Expr} {blocks : List Block} :
    (Stmt.branch conds blocks span).infer mode scope ctx tree = .done (stmt', ctx') tree' ↔
      ∃ conds' blocks',
        List.Forall₂ (fun cond cond' => ∃ ty, cond.Consumed mode scope tree .bool cond' ty)
          conds conds' ∧
        inferBlocks mode scope blocks ctx tree = .done (blocks', ctx') tree' ∧
        stmt' = .branch conds' blocks' span := by
  refine bind_eq_done.trans ?_
  simp only [bind_eq_done, within_eq_done, pure_eq_done, Prod.exists,
    consumeAll_eq_done, Prod.mk.injEq]
  constructor
  · rintro ⟨conds', _, ⟨hc, rfl⟩, blocks', _, _, hb, ⟨rfl, rfl⟩, rfl⟩
    exact ⟨conds', blocks', hc, hb, rfl⟩
  · rintro ⟨conds', blocks', hc, hb, rfl⟩
    exact ⟨conds', tree, ⟨hc, rfl⟩, blocks', ctx', tree', hb, ⟨rfl, rfl⟩, rfl⟩

theorem Stmt.infer_forLoop {var : String} {lo hi : Expr} {body : Block} :
    (Stmt.forLoop var lo hi body span handle).infer mode scope ctx tree =
        .done (stmt', ctx') tree' ↔
      ∃ lo' hi' body' tyLo tyHi, lo.Consumed mode scope tree .int lo' tyLo ∧
        hi.Consumed mode scope tree .int hi' tyHi ∧
        body.infer mode scope ctx tree = .done (body', ctx') tree' ∧
        stmt' = .forLoop var lo' hi' body' span handle := by
  refine bind_eq_done.trans ?_
  simp only [bind_eq_done, within_eq_done, pure_eq_done, Prod.exists,
    Expr.consume_eq_done, Prod.mk.injEq]
  constructor
  · rintro ⟨lo', tyLo, _, ⟨hl, rfl⟩, hi', tyHi, _, ⟨hh, rfl⟩, body', _, _, hb, ⟨rfl, rfl⟩, rfl⟩
    exact ⟨lo', hi', body', tyLo, tyHi, hl, hh, hb, rfl⟩
  · rintro ⟨lo', hi', body', tyLo, tyHi, hl, hh, hb, rfl⟩
    exact ⟨lo', tyLo, tree, ⟨hl, rfl⟩, hi', tyHi, tree, ⟨hh, rfl⟩, body', ctx', tree', hb,
      ⟨rfl, rfl⟩, rfl⟩

theorem Stmt.infer_whileLoop {cond : Expr} {body : Block} :
    (Stmt.whileLoop cond body span).infer mode scope ctx tree = .done (stmt', ctx') tree' ↔
      ∃ cond' body' ty, cond.Consumed mode scope tree .bool cond' ty ∧
        body.infer mode scope ctx tree = .done (body', ctx') tree' ∧
        stmt' = .whileLoop cond' body' span := by
  refine bind_eq_done.trans ?_
  simp only [bind_eq_done, within_eq_done, pure_eq_done, Prod.exists,
    Expr.consume_eq_done, Prod.mk.injEq]
  constructor
  · rintro ⟨cond', ty, _, ⟨hc, rfl⟩, body', _, _, hb, ⟨rfl, rfl⟩, rfl⟩
    exact ⟨cond', body', ty, hc, hb, rfl⟩
  · rintro ⟨cond', body', ty, hc, hb, rfl⟩
    exact ⟨cond', ty, tree, ⟨hc, rfl⟩, body', ctx', tree', hb, ⟨rfl, rfl⟩, rfl⟩

theorem Stmt.infer_call :
    (Stmt.call value).infer mode scope ctx tree = .done (stmt', ctx') tree' ↔
      ∃ value' ty, value.Consumed mode scope tree .unknown value' ty ∧ stmt' = .call value' ∧
        ctx' = ctx ∧ tree' = tree := by
  refine bind_eq_done.trans ?_
  simp only [within_eq_done, pure_eq_done, Prod.exists,
    Expr.consume_eq_done, Prod.mk.injEq]
  constructor
  · rintro ⟨value', ty, _, ⟨hc, rfl⟩, ⟨rfl, rfl⟩, rfl⟩
    exact ⟨value', ty, hc, rfl, rfl, rfl⟩
  · rintro ⟨value', ty, hc, rfl, rfl, rfl⟩
    exact ⟨value', ty, tree', ⟨hc, rfl⟩, ⟨rfl, rfl⟩, rfl⟩

theorem Block.infer_none {brk : Option Break} {own : Option ScopeId} {block' : Block} :
    (Block.mk stmts none brk span own).infer mode scope ctx tree = .done (block', ctx') tree' ↔
      ∃ stmts', inferStmts mode scope stmts ctx tree = .done (stmts', ctx') tree' ∧
        block' = ⟨stmts', none, brk, span, own⟩ := by
  refine bind_eq_done.trans ?_
  simp only [within_eq_done, pure_eq_done, Prod.exists, Prod.mk.injEq]
  constructor
  · rintro ⟨stmts', _, _, hs, ⟨rfl, rfl⟩, rfl⟩
    exact ⟨stmts', hs, rfl⟩
  · rintro ⟨stmts', hs, rfl⟩
    exact ⟨stmts', ctx', tree', hs, ⟨rfl, rfl⟩, rfl⟩

theorem Block.infer_some {retSpan : Span} {brk : Option Break} {own : Option ScopeId}
    {block' : Block} :
    (Block.mk stmts (some ⟨value, retSpan⟩) brk span own).infer mode scope ctx tree =
        .done (block', ctx') tree' ↔
      ∃ stmts' ctx₁ value' ty,
        inferStmts mode scope stmts ctx tree = .done (stmts', ctx₁) tree' ∧
        value.Consumed mode scope tree' ctx₁.expected value' ty ∧
        block' = ⟨stmts', some ⟨value', retSpan⟩, brk, span, own⟩ ∧
        ctx' = { ctx₁ with ret := ty } := by
  refine bind_eq_done.trans ?_
  simp only [bind_eq_done, within_eq_done, pure_eq_done, Prod.exists,
    Expr.consume_eq_done, Prod.mk.injEq]
  constructor
  · rintro ⟨stmts', ctx₁, _, hs, value', ty, _, ⟨hc, rfl⟩, ⟨rfl, rfl⟩, rfl⟩
    exact ⟨stmts', ctx₁, value', ty, hs, hc, rfl, rfl⟩
  · rintro ⟨stmts', ctx₁, value', ty, hs, hc, rfl, rfl⟩
    exact ⟨stmts', ctx₁, tree', hs, value', ty, tree', ⟨hc, rfl⟩, ⟨rfl, rfl⟩, rfl⟩

theorem inferStmts_nil {stmts' : List Stmt} :
    inferStmts mode scope [] ctx tree = .done (stmts', ctx') tree' ↔
      stmts' = [] ∧ ctx' = ctx ∧ tree' = tree := by
  refine pure_eq_done.trans ?_
  simp only [Prod.mk.injEq, @eq_comm _ [], @eq_comm _ ctx,
    @eq_comm _ tree, and_assoc]

theorem inferStmts_cons {stmt : Stmt} {stmts' : List Stmt} :
    inferStmts mode scope (stmt :: stmts) ctx tree = .done (stmts', ctx') tree' ↔
      ∃ stmt' rest ctx₁ tree₁, stmt.infer mode scope ctx tree = .done (stmt', ctx₁) tree₁ ∧
        inferStmts mode scope stmts ctx₁ tree₁ = .done (rest, ctx') tree' ∧
        stmts' = stmt' :: rest := by
  refine bind_eq_done.trans ?_
  simp only [bind_eq_done, within_eq_done, pure_eq_done, Prod.exists, Prod.mk.injEq]
  constructor
  · rintro ⟨stmt', ctx₁, tree₁, hs, rest, _, _, hr, ⟨rfl, rfl⟩, rfl⟩
    exact ⟨stmt', rest, ctx₁, tree₁, hs, hr, rfl⟩
  · rintro ⟨stmt', rest, ctx₁, tree₁, hs, hr, rfl⟩
    exact ⟨stmt', ctx₁, tree₁, hs, rest, ctx', tree', hr, ⟨rfl, rfl⟩, rfl⟩

theorem inferBlocks_nil {blocks' : List Block} :
    inferBlocks mode scope [] ctx tree = .done (blocks', ctx') tree' ↔
      blocks' = [] ∧ ctx' = ctx ∧ tree' = tree := by
  refine pure_eq_done.trans ?_
  simp only [Prod.mk.injEq, @eq_comm _ [], @eq_comm _ ctx,
    @eq_comm _ tree, and_assoc]

theorem inferBlocks_cons {block : Block} {blocks blocks' : List Block} :
    inferBlocks mode scope (block :: blocks) ctx tree = .done (blocks', ctx') tree' ↔
      ∃ block' rest ctx₁ tree₁, block.infer mode scope ctx tree = .done (block', ctx₁) tree₁ ∧
        inferBlocks mode scope blocks ctx₁ tree₁ = .done (rest, ctx') tree' ∧
        blocks' = block' :: rest := by
  refine bind_eq_done.trans ?_
  simp only [bind_eq_done, within_eq_done, pure_eq_done, Prod.exists, Prod.mk.injEq]
  constructor
  · rintro ⟨block', ctx₁, tree₁, hb, rest, _, _, hr, ⟨rfl, rfl⟩, rfl⟩
    exact ⟨block', rest, ctx₁, tree₁, hb, hr, rfl⟩
  · rintro ⟨block', rest, ctx₁, tree₁, hb, hr, rfl⟩
    exact ⟨block', ctx₁, tree₁, hb, rest, ctx', tree', hr, ⟨rfl, rfl⟩, rfl⟩

end

end ScriptLang
