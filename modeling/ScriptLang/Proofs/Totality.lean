import ScriptLang.Proofs.Regularity
import ScriptLang.Proofs.Soundness

/-!
# When lowering fails

On a tree that no check has seen, lowering can only complain that an annotation is missing. On a
checked tree all annotations are there, every built-in has a lowering, and all that can go wrong is
a `break` that no loop of its routine encloses.
-/

namespace ScriptLang

open Emit ScopeTree

variable {ty : Ty} {tree : ScopeTree} {scope : ScopeId}

/-! ## Any tree -/

theorem onlyMissing_emitWithHeader (ctx : BodyContext) (header : Header) (body : Block) (c : Cursor) :
    OnlyMissing (emitWithHeader ctx header body c) := by
  intro halt he
  rcases Emit.bind_eq_error.mp he with he | ⟨_, _, _, _, he⟩
  · exact (regular_emitRoutine ctx body).capture.missing c halt he
  · cases he

theorem Param.onlyMissing_emit (scopes : ScopeTree) (param : Param) :
    OnlyMissing (param.emit scopes) :=
  .bind (onlyMissing_demand _ _ _) fun _ => .bind (onlyMissing_demand _ _ _) fun var =>
    .bind (var.ty.onlyMissing_irType _) fun _ => .ok _

theorem OnlyMissing.mapM {f : α → Except Halt β} (hf : ∀ a, OnlyMissing (f a)) :
    ∀ as : List α, OnlyMissing (as.mapM f)
  | [] => .ok _
  | a :: as => by
    rw [List.mapM_cons]
    exact .bind (hf a) fun _ => .bind (OnlyMissing.mapM hf as) fun _ => .ok _

theorem FnDef.onlyMissing_header (scopes : ScopeTree) (functions : List String) (fn : FnDef) :
    OnlyMissing (fn.header scopes functions) :=
  .bind (onlyMissing_demand _ _ _) fun ret => .bind (ret.onlyMissing_irType _) fun _ =>
    .bind (.mapM (Param.onlyMissing_emit scopes) _) fun _ => .ok _

theorem onlyMissing_emitFunctions (scopes : ScopeTree) (functions : List String) :
    ∀ (fns : List FnDef) (c : Cursor), OnlyMissing (emitFunctions scopes functions fns c).2
  | [], _ => .ok _
  | fn :: fns, _ => by
    unfold emitFunctions
    cases hh : fn.header scopes functions with
    | error halt =>
      rintro halt' he
      cases he
      exact fn.onlyMissing_header scopes functions halt hh
    | ok header =>
      simp only
      split
      · rename_i halt he
        rintro halt' he'
        cases he'
        exact onlyMissing_emitWithHeader _ _ _ _ _ he
      · rename_i routine _ c' _
        intro halt he
        refine onlyMissing_emitFunctions scopes functions fns c' halt ?_
        cases hr : (emitFunctions scopes functions fns c').2 with
        | error halt' =>
          simp only [hr, Except.map] at he
          rw [← Except.error.inj he]
        | ok r => simp [hr, Except.map] at he

theorem CompileUnit.onlyMissing_lower (unit : CompileUnit) (scopes : ScopeTree) (options : Options) :
    OnlyMissing (unit.lower scopes options) := by
  unfold CompileUnit.lower CompileUnit.lowering
  have hf := onlyMissing_emitFunctions scopes (unit.functions.map (·.name)) unit.functions {}
  simp only
  split
  · rename_i halt he
    rw [he] at hf
    intro halt' he'
    cases he'
    exact hf halt rfl
  · split
    · rename_i halt he
      rintro halt' he'
      cases he'
      exact onlyMissing_emitWithHeader _ _ _ _ _ he
    · exact .ok _

/-! ## Breaks that no loop encloses -/

mutual
/-- The places of the `break`s of a statement that are in none of its loops, in textual order. -/
def Stmt.strayBreaks : Stmt → List Span
  | .branch _ blocks _ => strayBreaksOfBlocks blocks
  | .decl .. => []
  | .assign .. => []
  | .forLoop .. => []
  | .whileLoop .. => []
  | .call _ => []
def Block.strayBreaks : Block → List Span
  | ⟨stmts, _, brk, _, _⟩ => strayBreaksOf stmts ++ (brk.map Break.span).toList
def strayBreaksOf : List Stmt → List Span
  | [] => []
  | stmt :: stmts => stmt.strayBreaks ++ strayBreaksOf stmts
def strayBreaksOfBlocks : List Block → List Span
  | [] => []
  | block :: blocks => block.strayBreaks ++ strayBreaksOfBlocks blocks
end

/-- The places of all `break`s of a unit that are in no loop of their routine. -/
def CompileUnit.strayBreaks (unit : CompileUnit) : List Span :=
  unit.functions.flatMap (·.body.strayBreaks) ++ unit.script.body.strayBreaks

mutual
theorem Stmt.strayBreaks_clear (keep : Bool) : ∀ stmt : Stmt,
    (stmt.clear keep).strayBreaks = stmt.strayBreaks
  | .decl .. => rfl
  | .assign .. => rfl
  | .branch _ blocks _ => strayBreaksOfBlocks_clear keep blocks
  | .forLoop .. => rfl
  | .whileLoop .. => rfl
  | .call _ => rfl
theorem Block.strayBreaks_clear (keep : Bool) : ∀ block : Block,
    (block.clear keep).strayBreaks = block.strayBreaks
  | ⟨stmts, _, _, _, _⟩ => by
    simp only [Block.clear, Block.strayBreaks, strayBreaksOf_clear keep stmts]
theorem strayBreaksOf_clear (keep : Bool) : ∀ stmts : List Stmt,
    strayBreaksOf (clearStmts keep stmts) = strayBreaksOf stmts
  | [] => rfl
  | stmt :: stmts => by
    simp only [clearStmts, strayBreaksOf, stmt.strayBreaks_clear keep, strayBreaksOf_clear keep stmts]
theorem strayBreaksOfBlocks_clear (keep : Bool) : ∀ blocks : List Block,
    strayBreaksOfBlocks (clearBlocks keep blocks) = strayBreaksOfBlocks blocks
  | [] => rfl
  | block :: blocks => by
    simp only [clearBlocks, strayBreaksOfBlocks, block.strayBreaks_clear keep,
      strayBreaksOfBlocks_clear keep blocks]
end

theorem CompileUnit.strayBreaks_clear (keep : Bool) (unit : CompileUnit) :
    (unit.clear keep).strayBreaks = unit.strayBreaks := by
  simp only [CompileUnit.strayBreaks, CompileUnit.clear, FnDef.clear, Script.clear,
    List.flatMap_map, Block.strayBreaks_clear]

/-- How the first of some stray `break`s stops emission; inside a loop nothing is stray. -/
def strayStop (exit : Option Label) (spans : List Span) : Option Halt :=
  match exit with
  | some _ => none
  | none => spans.head?.map (.missing "break outside of a loop")

theorem strayStop_nil (exit : Option Label) : strayStop exit [] = none := by
  cases exit <;> rfl

theorem strayStop_append (exit : Option Label) (spans more : List Span) :
    (strayStop exit spans).or (strayStop exit more) = strayStop exit (spans ++ more) := by
  cases exit with
  | some _ => rfl
  | none => cases spans <;> rfl

/-! ## Typed expressions -/

/-- The spelling of a basic type in the IR. -/
def Ty.ir (ty : Ty) : IrType :=
  if ty = .int then .i64 else if ty = .float then .double else if ty = .bool then .i1 else .void

theorem Ty.Prim.irType (h : ty.Prim) (span : Span) : ty.irType span = .ok ty.ir := by
  unfold Ty.irType Ty.ir
  repeat' split
  all_goals first | rfl | skip
  rename_i h₁ h₂ h₃ h₄
  rcases h with h | h | h | h
  · exact (h₁ h).elim
  · exact (h₂ h).elim
  · exact (h₃ h).elim
  · exact (h₄ h).elim

theorem Expr.HasType.irType {expr : Expr} (h : expr.HasType tree scope ty) :
    expr.irType = .ok ty.ir := by
  unfold Expr.irType
  rw [h.slot]
  exact h.prim.irType _

theorem builtin_lowered : ∀ sig ∈ builtinSignatures,
    (Native.find? sig.name (sig.params.map Ty.ir)).isSome = true ∨
      (RuntimeRoutine.find? sig.name (sig.params.map Ty.ir)).isSome = true := by
  decide

/-- What a body may call is a built-in, or has the name of a function of the unit. -/
def BodyContext.Covers (ctx : BodyContext) : Prop :=
  ∀ sig ∈ ctx.scopes.sigs, sig ∈ builtinSignatures ∨ ctx.isUserFunction sig.name = true

section

variable {ctx : BodyContext} {scope : ScopeId}

theorem emitCall_ends (hcov : ctx.Covers) {name : String} {args : List (IrType × Operand)}
    {tys : List Ty} {found : List Signature} {sig : Signature} (ret : IrType) (span : Span)
    (hargs : args.map (·.1) = tys.map Ty.ir) (hn : ctx.scopes.NearestOverloads name scope found)
    (hf : found.filter (fun sig => sig.params = tys) = [sig]) :
    Total (emitCall ctx name args ret span) := by
  have hm : sig ∈ found.filter fun sig => sig.params = tys := by simp [hf]
  obtain ⟨hfound, hparams⟩ := List.mem_filter.mp hm
  have hname : sig.name = name := by
    obtain ⟨_, rfl, _⟩ := hn.exists_scope
    exact (mem_overloads.mp hfound).2.2
  simp only [emitCall]
  by_cases hu : ctx.isUserFunction name = true
  · rw [if_pos hu]
    exact .pure trivial
  · rw [if_neg hu]
    have hb : sig ∈ builtinSignatures := by
      rcases hcov sig (hn.subset hfound) with hb | hb
      · exact hb
      · rw [hname] at hb
        exact (hu hb).elim
    have hlow := builtin_lowered sig hb
    rw [hname, of_decide_eq_true hparams, ← hargs] at hlow
    cases hnat : Native.find? name (args.map (·.1)) with
    | some native =>
      obtain ⟨computation, hc⟩ := Native.compute_of_find? hnat
      exact (total_ofExcept hc).seq fun _ _ => .pure trivial
    | none =>
      cases hrun : RuntimeRoutine.find? name (args.map (·.1)) with
      | some routine => exact (total_use routine).seq fun _ _ => .pure trivial
      | none => simp [hnat, hrun] at hlow

mutual
theorem Expr.HasType.emitValue (hcov : ctx.Covers) : ∀ (expr : Expr) {ty : Ty},
    expr.HasType ctx.scopes scope ty → Total (expr.emitValue ctx)
  | .lit .., _, h => by
    unfold Expr.emitValue
    exact (total_ofExcept h.irType).seq fun _ _ => .pure trivial
  | .var name _ span _, _, h => by
    unfold Expr.emitValue
    refine (total_ofExcept h.irType).seq fun ir _ => ?_
    obtain ⟨_, _, id, var, rfl, hv, _, _⟩ := h
    have hok : ∃ value, emitVariable ctx name (some id) ir span = .ok value := by
      simp only [emitVariable, demand, ScopeTree.declaration, var?, hv, bind, Except.bind]
      split <;> exact ⟨_, rfl⟩
    obtain ⟨value, hvalue⟩ := hok
    exact .ofExcept hvalue trivial
  | .call _ args span _, _, h => by
    unfold Expr.emitValue
    refine (total_ofExcept h.irType).seq fun ret _ => ?_
    obtain ⟨_, _, tys, found, sig, hargs, hn, hf, _⟩ := h
    exact (HaveTypes.emitArgs hcov args hargs).seq fun _ ha =>
      emitCall_ends hcov ret span ha hn hf
theorem HaveTypes.emitArgs (hcov : ctx.Covers) : ∀ (args : List Expr) {tys : List Ty},
    HaveTypes ctx.scopes scope args tys →
    Ends (emitArgs ctx args) none fun done => done.map (·.1) = tys.map Ty.ir
  | [], _, h => by
    unfold ScriptLang.emitArgs
    cases h
    exact .pure rfl
  | arg :: args, _, h => by
    unfold ScriptLang.emitArgs
    obtain ⟨ty, rest, hty, hrest, rfl⟩ := h
    have hir : Ends (ofExcept arg.irType) none (· = ty.ir) := .ofExcept hty.irType rfl
    refine hir.seq fun ir he => (Expr.HasType.emitValue hcov arg hty).seq fun value _ => ?_
    refine value.still_toOperand.seq fun operand _ => ?_
    refine (HaveTypes.emitArgs hcov args hrest).seq fun done hd => .pure ?_
    rw [List.map_cons, List.map_cons, he, hd]
end

variable {expr : Expr} {ty : Ty}

theorem Expr.HasType.emitOperand (hcov : ctx.Covers) (h : expr.HasType ctx.scopes scope ty) :
    Total (expr.emitOperand ctx) :=
  (Expr.HasType.emitValue hcov expr h).seq fun value _ => value.still_toOperand.total

theorem Expr.HasType.emitEffect (hcov : ctx.Covers) (h : expr.HasType ctx.scopes scope ty) :
    Total (expr.emitEffect ctx) := by
  refine (total_ofExcept h.irType).seq fun ir _ => ?_
  refine (Expr.HasType.emitValue hcov expr h).seq fun value _ => ?_
  cases value with
  | operand o => exact .pure trivial
  | pending computation =>
    dsimp only
    split
    · exact (still_emit _).total
    · exact still_freshReg.seq fun _ _ => (still_emit _).total

theorem Expr.HasType.emitStore (hcov : ctx.Covers) (h : expr.HasType ctx.scopes scope ty)
    (name : String) (id : DeclId) : Total (emitStore ctx name id expr) :=
  (total_ofExcept h.irType).seq fun _ _ => (h.emitOperand hcov).seq fun _ _ => (still_emit _).total

theorem Return.emit_total (hcov : ctx.Covers) {ret : Return}
    (h : ret.value.HasType ctx.scopes scope ty) : Total (ret.emit ctx) := by
  unfold Return.emit
  split
  · exact (h.emitOperand hcov).seq fun _ _ => still_freshReg.seq fun _ _ =>
      (still_emit _).seq fun _ _ => (still_terminate _).total
  · exact (h.emitEffect hcov).seq fun _ _ => (still_terminate _).total
  · exact (h.emitOperand hcov).seq fun _ _ => (still_terminate _).total

/-! ## Typed statements -/

theorem emitBreak?_ends (exit : Option Label) (brk : Option Break) :
    Ends (emitBreak? exit brk) (strayStop exit (brk.map Break.span).toList) fun _ => True := by
  cases brk with
  | none =>
    rw [Option.map_none, Option.toList_none, strayStop_nil]
    exact .pure trivial
  | some brk =>
    cases exit with
    | none => exact .fail
    | some exit => exact (still_terminate _).total

theorem branchShapeFits_cons {conds blocks : Nat}
    (h : branchShapeFits (conds + 1) (blocks + 1) = true) :
    if conds = 0 then blocks ≤ 1 else branchShapeFits conds blocks = true := by
  simp only [branchShapeFits, ne_eq, Nat.add_eq_zero_iff, Nat.one_ne_zero, and_false,
    not_false_eq_true, decide_true, Bool.true_and, Nat.add_right_cancel_iff, Bool.or_eq_true,
    decide_eq_true_eq] at h
  split
  · omega
  · rename_i hne
    simp only [branchShapeFits, Bool.and_eq_true, Bool.or_eq_true, decide_eq_true_eq]
    exact ⟨hne, h⟩

mutual
theorem Stmt.emit_ends (hcov : ctx.Covers) : ∀ (stmt : Stmt) {env : Env} {ret : Ty}
    (exit : Option Label), stmt.Resolved env → stmt.WellTyped ctx.scopes scope ret →
    Ends (stmt.emit ctx exit) (strayStop exit stmt.strayBreaks) fun _ => True
  | .decl .., _, _, _, _, h => by
    obtain ⟨id, var, rfl, _, _, _, hv, _, _⟩ := h
    unfold Stmt.emit
    rw [Stmt.strayBreaks, strayStop_nil]
    exact (total_ofExcept rfl).seq fun _ _ => hv.emitStore hcov _ _
  | .assign .., _, _, _, _, h => by
    obtain ⟨id, var, rfl, _, _, _, hv, _⟩ := h
    unfold Stmt.emit
    rw [Stmt.strayBreaks, strayStop_nil]
    exact (total_ofExcept rfl).seq fun _ _ => hv.emitStore hcov _ _
  | .branch conds blocks span, _, _, exit, hr, h => by
    unfold Stmt.emit
    exact emitArms_ends hcov blocks conds span exit hr.1 hr.2.2 h.1 h.2
  | .forLoop _ _ _ body _ _, _, _, _, hr, h => by
    obtain ⟨⟨id, var, rfl, _⟩, hlo, hhi, hbody⟩ := h
    obtain ⟨_, _, _, _, hrb⟩ := hr
    have hinner := fun label => Block.emit_ends hcov body (some label) hrb hbody
    unfold Stmt.emit
    rw [Stmt.strayBreaks, strayStop_nil]
    refine (total_ofExcept rfl).seq fun decl _ => (hlo.emitOperand hcov).seq fun _ _ => ?_
    refine (hhi.emitOperand hcov).seq fun _ _ => still_ensureOpen.seq fun _ _ => ?_
    refine still_cursor.seq fun _ _ => still_freshLabel.seq fun id _ => ?_
    refine still_freshReg.seq fun _ _ => still_freshReg.seq fun _ _ => ?_
    refine (still_terminate _).seq fun _ _ => ?_
    refine (((still_openBlock _).seq fun _ _ => (hinner _).seq fun _ _ =>
      (still_emitLoopTail _ _ _).total).capture).seq fun r _ => ?_
    exact (still_emitLoopHead _ _ _ _ _).seq fun _ _ => (still_append _).seq fun _ _ =>
      (still_openBlock _).total
  | .whileLoop _ body _, _, _, _, hr, h => by
    have hinner := fun label => Block.emit_ends hcov body (some label) hr.2 h.2
    unfold Stmt.emit
    rw [Stmt.strayBreaks, strayStop_nil]
    refine still_freshLabel.seq fun id _ => (still_terminate _).seq fun _ _ => ?_
    refine (still_openBlock _).seq fun _ _ => (h.1.emitOperand hcov).seq fun _ _ => ?_
    refine (still_terminate _).seq fun _ _ => (still_openBlock _).seq fun _ _ => ?_
    exact (hinner _).seq fun _ _ => (still_fallTo _).seq fun _ _ => (still_openBlock _).total
  | .call _, _, _, _, _, h => by
    obtain ⟨ty, h⟩ := h
    unfold Stmt.emit
    rw [Stmt.strayBreaks, strayStop_nil]
    exact h.emitEffect hcov
theorem Block.emit_ends (hcov : ctx.Covers) : ∀ (block : Block) {env : Env} {ret : Ty}
    (exit : Option Label), block.Resolved env → block.WellTyped ctx.scopes scope ret →
    Ends (block.emit ctx exit) (strayStop exit block.strayBreaks) fun _ => True
  | ⟨stmts, result, brk, _, _⟩, _, _, exit, hr, h => by
    rw [Block.emit_eq, Block.strayBreaks, ← strayStop_append]
    refine (emitStmts_ends hcov stmts exit hr.1 h.1).bind fun _ _ => ?_
    cases result with
    | none => exact Ends.seq (.pure trivial) fun _ (_ : True) => emitBreak?_ends exit brk
    | some result =>
      exact (Return.emit_total hcov (h.2 result rfl)).seq fun _ _ => emitBreak?_ends exit brk
theorem emitStmts_ends (hcov : ctx.Covers) : ∀ (stmts : List Stmt) {env : Env} {ret : Ty}
    (exit : Option Label), StmtsResolved env stmts → StmtsWellTyped ctx.scopes scope ret stmts →
    Ends (emitStmts ctx exit stmts) (strayStop exit (strayBreaksOf stmts)) fun _ => True
  | [], _, _, _, _, _ => by
    unfold emitStmts
    rw [strayBreaksOf, strayStop_nil]
    exact .pure trivial
  | stmt :: stmts, _, _, exit, hr, h => by
    unfold emitStmts
    rw [strayBreaksOf, ← strayStop_append]
    exact (Stmt.emit_ends hcov stmt exit hr.1 h.1).bind fun _ _ =>
      emitStmts_ends hcov stmts exit hr.2 h.2
theorem emitArms_ends (hcov : ctx.Covers) : ∀ (blocks : List Block) (conds : List Expr)
    (span : Span) {env : Env} {ret : Ty} (exit : Option Label),
    branchShapeFits conds.length blocks.length = true → BlocksResolved env blocks →
    (∀ cond ∈ conds, cond.HasType ctx.scopes scope .bool) →
    BlocksWellTyped ctx.scopes scope ret blocks →
    Ends (emitArms ctx exit span conds blocks) (strayStop exit (strayBreaksOfBlocks blocks))
      fun _ => True
  | _, [], _, _, _, _, hs, _, _, _ => by simp [branchShapeFits] at hs
  | [], _ :: _, _, _, _, _, hs, _, _, _ => by simp [branchShapeFits] at hs
  | block :: blocks, cond :: conds, span, _, _, exit, hs, hr, hc, h => by
    rw [emitArms_cons, strayBreaksOfBlocks, ← strayStop_append]
    refine still_freshLabel.seq fun id _ => ?_
    refine ((hc cond List.mem_cons_self).emitOperand hcov).seq fun _ _ => ?_
    refine (still_terminate _).seq fun _ _ => (still_openBlock _).seq fun _ _ => ?_
    refine (Block.emit_ends hcov block exit hr.1 h.1).bind fun _ _ => ?_
    refine (still_fallTo _).seq fun _ _ => (still_openBlock _).seq fun _ _ => ?_
    have hrest : Ends (emitElse ctx exit span conds blocks)
        (strayStop exit (strayBreaksOfBlocks blocks)) fun _ => True := by
      have hshape := branchShapeFits_cons hs
      unfold emitElse
      cases conds with
      | nil => exact emitLast_ends hcov blocks exit hshape hr.2 h.2
      | cons cond' conds =>
        exact emitArms_ends hcov blocks (cond' :: conds) span exit hshape hr.2
          (fun c hm => hc c (List.mem_cons_of_mem cond hm)) h.2
    refine hrest.andThen fun _ _ => (still_fallTo _).seq fun _ _ => ?_
    split
    · exact (still_openBlock _).total
    · exact .pure trivial
theorem emitLast_ends (hcov : ctx.Covers) : ∀ (blocks : List Block) {env : Env} {ret : Ty}
    (exit : Option Label), blocks.length ≤ 1 → BlocksResolved env blocks →
    BlocksWellTyped ctx.scopes scope ret blocks →
    Ends (emitLast ctx exit blocks) (strayStop exit (strayBreaksOfBlocks blocks)) fun _ => True
  | [], _, _, _, _, _, _ => by
    unfold emitLast
    rw [strayBreaksOfBlocks, strayStop_nil]
    exact .pure trivial
  | [block], _, _, exit, _, hr, h => by
    unfold emitLast
    rw [strayBreaksOfBlocks, strayBreaksOfBlocks, List.append_nil]
    exact Block.emit_ends hcov block exit hr.1 h.1
  | _ :: _ :: _, _, _, _, hs, _, _ => by simp at hs
end

/-! ## Routines -/

/-- A local that can be given a cell. -/
def Local.Typed (var : Local) : Prop :=
  ∃ id ty, var.handle = some id ∧ var.slot = some ty ∧ ty.Prim

/-- A local that is declared with the type in its slot. -/
def Local.Declared (tree : ScopeTree) (var : Local) : Prop :=
  ∃ id decl, var.handle = some id ∧ tree.decls[id]? = some decl ∧ decl.name = var.name ∧
    decl.kind = .localVar ∧ var.slot = some decl.ty ∧ decl.ty.Prim ∧ decl.ty ≠ .void

theorem Local.Declared.typed {var : Local} (h : var.Declared tree) : var.Typed := by
  obtain ⟨id, decl, hh, _, _, _, hs, hp, _⟩ := h
  exact ⟨id, decl.ty, hh, hs, hp⟩

mutual
theorem Stmt.WellTyped.locals {tree : ScopeTree} {ret : Ty} : ∀ stmt : Stmt,
    stmt.WellTyped tree scope ret → ∀ var ∈ stmt.locals, var.Declared tree
  | .decl .., h, _, hm => by
    obtain ⟨id, decl, rfl, hd, hn, hk, hv, hne, _⟩ := h
    rw [Stmt.locals, List.mem_singleton] at hm
    subst hm
    exact ⟨id, decl, rfl, hd, hn, hk, hv.slot, hv.prim, hne⟩
  | .assign .., _, _, hm => by cases hm
  | .branch _ blocks _, h, var, hm => BlocksWellTyped.locals blocks h.2 var hm
  | .forLoop _ _ _ body _ _, h, var, hm =>
    Block.WellTyped.locals body h.2.2.2 var hm
  | .whileLoop _ body _, h, var, hm => Block.WellTyped.locals body h.2 var hm
  | .call _, _, _, hm => by cases hm
theorem Block.WellTyped.locals {tree : ScopeTree} {ret : Ty} : ∀ block : Block,
    block.WellTyped tree scope ret → ∀ var ∈ block.locals, var.Declared tree
  | ⟨stmts, _, _, _, _⟩, h, var, hm => StmtsWellTyped.locals stmts h.1 var hm
theorem StmtsWellTyped.locals {tree : ScopeTree} {ret : Ty} : ∀ stmts : List Stmt,
    StmtsWellTyped tree scope ret stmts → ∀ var ∈ localsOf stmts, var.Declared tree
  | [], _, _, hm => by cases hm
  | stmt :: stmts, h, var, hm => by
    rcases List.mem_append.mp hm with hm | hm
    · exact Stmt.WellTyped.locals stmt h.1 var hm
    · exact StmtsWellTyped.locals stmts h.2 var hm
theorem BlocksWellTyped.locals {tree : ScopeTree} {ret : Ty} : ∀ blocks : List Block,
    BlocksWellTyped tree scope ret blocks → ∀ var ∈ localsOfBlocks blocks, var.Declared tree
  | [], _, _, hm => by cases hm
  | block :: blocks, h, var, hm => by
    rcases List.mem_append.mp hm with hm | hm
    · exact Block.WellTyped.locals block h.1 var hm
    · exact BlocksWellTyped.locals blocks h.2 var hm
end

theorem emitCells_total : ∀ {locals : List Local}, (∀ var ∈ locals, var.Typed) →
    Total (emitCells locals)
  | [], _ => .pure trivial
  | var :: _, h => by
    obtain ⟨id, ty, hh, hs, hp⟩ := h var List.mem_cons_self
    unfold emitCells
    rw [hh, hs]
    have hslot : Ends (ofExcept (.ok ty)) none (· = ty) := .ofExcept rfl rfl
    refine (total_ofExcept rfl).seq fun id _ => hslot.seq fun ty' he => ?_
    refine (total_ofExcept (he ▸ hp.irType _)).seq fun _ _ => (still_emit _).seq fun _ _ => ?_
    exact emitCells_total fun var hm => h var (List.mem_cons_of_mem _ hm)

theorem emitWithHeader_ends (hcov : ctx.Covers) {body : Block} {env : Env} {ret : Ty}
    (header : Header) (hr : body.Resolved env) (h : body.WellTyped ctx.scopes scope ret) :
    Ends (emitWithHeader ctx header body) (strayStop none body.strayBreaks) fun _ => True := by
  have hroutine : Ends (emitRoutine ctx body) (strayStop none body.strayBreaks) fun _ => True := by
    refine (still_openBlock _).seq fun _ _ => ?_
    have hlocals : ∀ var ∈ body.locals, var.Typed :=
      fun var hm => (Block.WellTyped.locals body h var hm).typed
    refine (emitCells_total hlocals).seq fun _ _ => ?_
    refine (Block.emit_ends hcov body none hr h).andThen fun _ _ => still_falls.seq fun open? _ => ?_
    split
    · exact (still_emitEpilogue _).total
    · exact .pure trivial
  exact hroutine.capture.andThen fun _ _ => .pure trivial

end

/-! ## Units -/

theorem mapM_eq_ok {f : α → Except ε β} : ∀ {as : List α}, (∀ a ∈ as, ∃ b, f a = .ok b) →
    ∃ bs, as.mapM f = .ok bs
  | [], _ => ⟨[], rfl⟩
  | a :: _, h => by
    obtain ⟨b, hb⟩ := h a List.mem_cons_self
    obtain ⟨bs, hbs⟩ := mapM_eq_ok fun a hm => h a (List.mem_cons_of_mem _ hm)
    refine ⟨b :: bs, ?_⟩
    rw [List.mapM_cons, hb, hbs]
    rfl

theorem Param.WellTyped.emit {param : Param} (h : param.WellTyped tree ty) :
    ∃ header, param.emit tree = .ok header := by
  obtain ⟨hty, id, var, hh, hv, _, _, rfl⟩ := h
  have hir := (TypeExpr.resolve_eq_ok hty).2.irType param.span
  refine ⟨(var.ty.ir, .variable param.name id), ?_⟩
  simp only [Param.emit, hh, demand, ScopeTree.declaration, var?, hv, bind, Except.bind, hir]
  rfl

theorem FnDef.WellTyped.header {fn : FnDef} {sig : Signature} (h : fn.WellTyped tree scope sig)
    (functions : List String) : ∃ header, fn.header tree functions = .ok header := by
  obtain ⟨params, hparams⟩ : ∃ params, fn.params.mapM (Param.emit tree) = .ok params := by
    refine mapM_eq_ok fun param hm => ?_
    obtain ⟨i, hlt, rfl⟩ := List.getElem_of_mem hm
    exact (h.params.get hlt (h.params.length_eq ▸ hlt)).emit
  refine ⟨⟨sig.ret.ir, functionSymbol functions fn.name (params.map (·.1)), params⟩, ?_⟩
  simp only [FnDef.header, ScriptLang.bind_eq_ok, demand_eq_ok, ScriptLang.pure_eq_ok]
  exact ⟨sig.ret, h.retSlot, sig.ret.ir, h.known.irType _, params, hparams, rfl⟩

/-- What comes of something that may be stopped. -/
def Stops (x : Except Halt α) (stop : Option Halt) : Prop :=
  match stop with
  | none => ∃ a, x = .ok a
  | some halt => x = .error halt

theorem emitFunctions_stops {scopes : ScopeTree} {functions : List String}
    (hcov : ∀ kind, (BodyContext.mk scopes functions kind).Covers) :
    ∀ {fns : List FnDef} {sigs : List Signature} (c : Cursor), (∀ fn ∈ fns, fn.Resolved) →
    List.Forall₂ (fun fn sig => fn.WellTyped scopes scope sig) fns sigs →
    Stops (emitFunctions scopes functions fns c).2
      (strayStop none (fns.flatMap (·.body.strayBreaks)))
  | [], _, _, _, _ => ⟨_, rfl⟩
  | fn :: fns, _, c, hr, .cons h hs => by
    obtain ⟨header, hheader⟩ := h.header functions
    have hends := emitWithHeader_ends (hcov (.function header.ret)) header
      (hr fn List.mem_cons_self) h.body c
    rw [List.flatMap_cons, ← strayStop_append]
    unfold emitFunctions
    simp only [hheader]
    cases hstop : strayStop none fn.body.strayBreaks with
    | some halt =>
      rw [hstop] at hends
      simp only [hends]
      exact rfl
    | none =>
      rw [hstop] at hends
      obtain ⟨routine, lines, c', he, _⟩ := hends
      have hrest := emitFunctions_stops hcov c' (fun fn' hm => hr fn' (List.mem_cons_of_mem fn hm)) hs
      simp only [he]
      rw [Option.none_or]
      cases hstop' : strayStop none (fns.flatMap (·.body.strayBreaks)) with
      | some halt =>
        rw [hstop'] at hrest
        have hrest : (emitFunctions scopes functions fns c').2 = .error halt := hrest
        simp only [hrest]
        exact rfl
      | none =>
        rw [hstop'] at hrest
        obtain ⟨r, hrest⟩ := hrest
        simp only [hrest]
        exact ⟨_, rfl⟩

theorem CompileUnit.Checked.covers {unit : CompileUnit} {res : Resolution} (h : unit.Checked res)
    (kind : RoutineKind) :
    (BodyContext.mk res.scopes (unit.functions.map (·.name)) kind).Covers := by
  obtain ⟨users, hsigs, hf⟩ := h.sigs
  intro sig hm
  have hm : sig ∈ res.scopes.sigs := hm
  rw [hsigs] at hm
  rcases List.mem_append.mp hm with hm | hm
  · exact Or.inl hm
  · obtain ⟨fn, hfn, ht, _⟩ := forall₂_mem_right hf hm
    refine Or.inr (decide_eq_true ?_)
    rw [ht.name]
    exact List.mem_map_of_mem hfn

theorem CompileUnit.Checked.lower_stops {unit : CompileUnit} {res : Resolution}
    (h : unit.Checked res) (options : Options) :
    Stops (unit.lower res.scopes options) (strayStop none unit.strayBreaks) := by
  obtain ⟨users, _, hf⟩ := h.sigs
  have htyped : List.Forall₂ (fun fn sig => fn.WellTyped res.scopes res.unitScope sig)
      unit.functions users := hf.imp fun _ _ h => h.1
  have hfns := emitFunctions_stops h.covers {} h.functions htyped
  rw [CompileUnit.strayBreaks, ← strayStop_append]
  unfold CompileUnit.lower CompileUnit.lowering
  simp only
  cases hstop : strayStop none (unit.functions.flatMap (·.body.strayBreaks)) with
  | some halt =>
    rw [hstop] at hfns
    have hfns : (emitFunctions res.scopes (unit.functions.map (·.name)) unit.functions {}).2 =
      .error halt := hfns
    split
    · rename_i he
      rw [he] at hfns
      cases hfns
      exact rfl
    · rename_i he
      rw [he] at hfns
      cases hfns
  | none =>
    rw [hstop] at hfns
    obtain ⟨_, hfns⟩ := hfns
    rw [Option.none_or]
    split
    · rename_i he
      rw [he] at hfns
      cases hfns
    · rename_i begun routines c he
      have hends := emitWithHeader_ends (h.covers .script) (scriptHeader options) h.script
        h.scriptTyped c
      cases hstop' : strayStop none unit.script.body.strayBreaks with
      | some halt =>
        rw [hstop'] at hends
        simp only [hends]
        exact rfl
      | none =>
        rw [hstop'] at hends
        obtain ⟨routine, lines, c', he', _⟩ := hends
        simp only [he']
        exact ⟨_, rfl⟩

/-- Lowering a checked unit goes through just if no `break` is stray, and else reports the first
that is; on any tree at all it reports nothing but missing annotations. -/
theorem lower_total (unit : CompileUnit) (options : Options) :
    (∀ res, unit.check.result = .ok res →
      ((∃ m, unit.check.unit.lower res.scopes options = .ok m) ↔ unit.strayBreaks = []) ∧
      ∀ span rest, unit.strayBreaks = span :: rest →
        unit.check.unit.lower res.scopes options =
          .error (.missing "break outside of a loop" span)) ∧
    ∀ (tree : CompileUnit) (scopes : ScopeTree) (halt : Halt),
      tree.lower scopes options = .error halt → ∃ what span, halt = .missing what span := by
  refine ⟨fun res h => ?_, fun tree scopes halt he => tree.onlyMissing_lower scopes options halt he⟩
  obtain ⟨hchecked, hclear⟩ := CompileUnit.check_spec h
  have hstray : unit.check.unit.strayBreaks = unit.strayBreaks := by
    rw [← CompileUnit.strayBreaks_clear false, hclear, CompileUnit.strayBreaks_clear]
  have hstops := hchecked.lower_stops options
  rw [hstray] at hstops
  cases hs : unit.strayBreaks with
  | nil =>
    rw [hs] at hstops
    exact ⟨⟨fun _ => rfl, fun _ => hstops⟩, by simp⟩
  | cons span rest =>
    rw [hs] at hstops
    have herror : unit.check.unit.lower res.scopes options =
      .error (.missing "break outside of a loop" span) := hstops
    rw [herror]
    refine ⟨by simp, ?_⟩
    intro span' rest' he
    rw [(List.cons.inj he).1]

/-- Breaks out of a loop, and then out of nothing. -/
def strayExit : CompileUnit where
  functions := []
  script :=
    { name := "main"
      body := {
        stmts := [
          .whileLoop (.lit (.bool true)) { stmts := [], brk := some { span := ⟨14, 19⟩ } },
          .branch [.lit (.bool true)] [{ stmts := [], brk := some { span := ⟨33, 38⟩ } }]] } }

theorem lower_total_strayExit :
    ∃ res, strayExit.check.result = .ok res ∧ strayExit.check.unit.lower res.scopes {} =
      .error (.missing "break outside of a loop" ⟨33, 38⟩) := by
  have hok : strayExit.check.result.isOk = true := by decide +kernel
  cases h : strayExit.check.result with
  | error halt =>
    rw [h] at hok
    cases hok
  | ok res => exact ⟨res, rfl, ((lower_total strayExit {}).1 res h).2 _ [] rfl⟩

end ScriptLang
