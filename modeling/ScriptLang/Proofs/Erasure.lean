import ScriptLang.Proofs.Resolved

/-!
# Trees without their annotations

The passes write annotations and change nothing else. A tree is cleared of its type slots, and of
handles and scopes as well unless they are kept; binding leaves the fully cleared tree alone, and
inference also leaves the handles and scopes.
-/

namespace ScriptLang

/-- An annotation that may be kept. -/
def kept (keep : Bool) (slot : Option α) : Option α :=
  if keep then slot else none

@[simp] theorem kept_true (slot : Option α) : kept true slot = slot := rfl
@[simp] theorem kept_false (slot : Option α) : kept false slot = none := rfl

mutual
def Expr.clear (keep : Bool) : Expr → Expr
  | .lit value span _ => .lit value span none
  | .var name handle span _ => .var name (kept keep handle) span none
  | .call name args span _ => .call name (clearAll keep args) span none
def clearAll (keep : Bool) : List Expr → List Expr
  | [] => []
  | expr :: exprs => expr.clear keep :: clearAll keep exprs
end

def Return.clear (keep : Bool) (ret : Return) : Return :=
  ⟨ret.value.clear keep, ret.span⟩

mutual
def Stmt.clear (keep : Bool) : Stmt → Stmt
  | .decl name ascription value span handle =>
    .decl name ascription (value.clear keep) span (kept keep handle)
  | .assign target value span handle =>
    .assign target (value.clear keep) span (kept keep handle)
  | .branch conds blocks span => .branch (clearAll keep conds) (clearBlocks keep blocks) span
  | .forLoop var lo hi body span handle =>
    .forLoop var (lo.clear keep) (hi.clear keep) (body.clear keep) span (kept keep handle)
  | .whileLoop cond body span => .whileLoop (cond.clear keep) (body.clear keep) span
  | .call value => .call (value.clear keep)
def Block.clear (keep : Bool) : Block → Block
  | ⟨stmts, ret, brk, span, scope⟩ =>
    ⟨clearStmts keep stmts, ret.map (Return.clear keep), brk, span, kept keep scope⟩
def clearStmts (keep : Bool) : List Stmt → List Stmt
  | [] => []
  | stmt :: stmts => stmt.clear keep :: clearStmts keep stmts
def clearBlocks (keep : Bool) : List Block → List Block
  | [] => []
  | block :: blocks => block.clear keep :: clearBlocks keep blocks
end

def Param.clear (keep : Bool) (param : Param) : Param :=
  { param with handle := kept keep param.handle }

def FnDef.clear (keep : Bool) (fn : FnDef) : FnDef :=
  { fn with
    params := fn.params.map (Param.clear keep)
    body := fn.body.clear keep
    retSlot := none }

def Script.clear (keep : Bool) (script : Script) : Script :=
  { script with body := script.body.clear keep }

def CompileUnit.clear (keep : Bool) (unit : CompileUnit) : CompileUnit :=
  { unit with
    functions := unit.functions.map (FnDef.clear keep)
    script := unit.script.clear keep
    scope := kept keep unit.scope }

theorem length_clearAll (keep : Bool) (exprs : List Expr) :
    (clearAll keep exprs).length = exprs.length := by
  induction exprs with
  | nil => rfl
  | cons expr exprs ih => simp [clearAll, ih]

theorem length_clearBlocks (keep : Bool) (blocks : List Block) :
    (clearBlocks keep blocks).length = blocks.length := by
  induction blocks with
  | nil => rfl
  | cons block blocks ih => simp [clearBlocks, ih]

theorem length_eq_of_clearAll {keep : Bool} {exprs exprs' : List Expr}
    (h : clearAll keep exprs' = clearAll keep exprs) : exprs'.length = exprs.length := by
  rw [← length_clearAll keep exprs', h, length_clearAll]

theorem length_eq_of_clearBlocks {keep : Bool} {blocks blocks' : List Block}
    (h : clearBlocks keep blocks' = clearBlocks keep blocks) : blocks'.length = blocks.length := by
  rw [← length_clearBlocks keep blocks', h, length_clearBlocks]

/-! ## Clearing the rest -/

mutual
theorem Expr.clear_clear (keep : Bool) : ∀ expr : Expr,
    (expr.clear keep).clear false = expr.clear false
  | .lit .. => rfl
  | .var .. => rfl
  | .call name args span slot => by
    simp only [Expr.clear, clearAll_clearAll keep args]
theorem clearAll_clearAll (keep : Bool) : ∀ exprs : List Expr,
    clearAll false (clearAll keep exprs) = clearAll false exprs
  | [] => rfl
  | expr :: exprs => by
    simp only [clearAll, expr.clear_clear keep, clearAll_clearAll keep exprs]
end

theorem Return.clear_clear (keep : Bool) (ret : Return) :
    (ret.clear keep).clear false = ret.clear false := by
  simp only [Return.clear, Expr.clear_clear]

mutual
theorem Stmt.clear_clear (keep : Bool) : ∀ stmt : Stmt,
    (stmt.clear keep).clear false = stmt.clear false
  | .decl .. => by simp [Stmt.clear, Expr.clear_clear]
  | .assign .. => by simp [Stmt.clear, Expr.clear_clear]
  | .branch conds blocks span => by
    simp only [Stmt.clear, clearAll_clearAll, clearBlocks_clearBlocks keep blocks]
  | .forLoop var lo hi body span handle => by
    simp [Stmt.clear, Expr.clear_clear, body.clear_clear keep]
  | .whileLoop cond body span => by
    simp only [Stmt.clear, Expr.clear_clear, body.clear_clear keep]
  | .call value => by simp only [Stmt.clear, Expr.clear_clear]
theorem Block.clear_clear (keep : Bool) : ∀ block : Block,
    (block.clear keep).clear false = block.clear false
  | ⟨stmts, ret, _, _, _⟩ => by
    cases ret <;> simp [Block.clear, clearStmts_clearStmts keep stmts, Return.clear_clear]
theorem clearStmts_clearStmts (keep : Bool) : ∀ stmts : List Stmt,
    clearStmts false (clearStmts keep stmts) = clearStmts false stmts
  | [] => rfl
  | stmt :: stmts => by
    simp only [clearStmts, stmt.clear_clear keep, clearStmts_clearStmts keep stmts]
theorem clearBlocks_clearBlocks (keep : Bool) : ∀ blocks : List Block,
    clearBlocks false (clearBlocks keep blocks) = clearBlocks false blocks
  | [] => rfl
  | block :: blocks => by
    simp only [clearBlocks, block.clear_clear keep, clearBlocks_clearBlocks keep blocks]
end

/-! ## Binding does not depend on slots -/

mutual
theorem Stmt.extend_clear (env : Env) : ∀ stmt : Stmt, (stmt.clear true).extend env = stmt.extend env
  | .decl .. => rfl
  | .assign .. => rfl
  | .branch _ blocks _ => extendBlocks_clear env blocks
  | .forLoop .. => rfl
  | .whileLoop _ body _ => body.extend_clear env
  | .call _ => rfl
theorem Block.extend_clear (env : Env) : ∀ block : Block,
    (block.clear true).extend env = block.extend env
  | ⟨stmts, _, _, _, _⟩ => extendStmts_clear env stmts
theorem extendStmts_clear (env : Env) : ∀ stmts : List Stmt,
    extendStmts env (clearStmts true stmts) = extendStmts env stmts
  | [] => rfl
  | stmt :: stmts => by
    simp only [clearStmts, extendStmts, stmt.extend_clear env, extendStmts_clear _ stmts]
theorem extendBlocks_clear (env : Env) : ∀ blocks : List Block,
    extendBlocks env (clearBlocks true blocks) = extendBlocks env blocks
  | [] => rfl
  | block :: blocks => by
    simp only [clearBlocks, extendBlocks, block.extend_clear env, extendBlocks_clear _ blocks]
end

mutual
theorem Stmt.sites_clear : ∀ stmt : Stmt, (stmt.clear true).sites = stmt.sites
  | .decl .. => rfl
  | .assign .. => rfl
  | .branch _ blocks _ => sitesOfBlocks_clear blocks
  | .forLoop _ _ _ body _ _ => by simp only [Stmt.clear, Stmt.sites, body.sites_clear, kept_true]
  | .whileLoop _ body _ => body.sites_clear
  | .call _ => rfl
theorem Block.sites_clear : ∀ block : Block, (block.clear true).sites = block.sites
  | ⟨stmts, _, _, _, _⟩ => sitesOf_clear stmts
theorem sitesOf_clear : ∀ stmts : List Stmt, sitesOf (clearStmts true stmts) = sitesOf stmts
  | [] => rfl
  | stmt :: stmts => by simp only [clearStmts, sitesOf, stmt.sites_clear, sitesOf_clear stmts]
theorem sitesOfBlocks_clear : ∀ blocks : List Block,
    sitesOfBlocks (clearBlocks true blocks) = sitesOfBlocks blocks
  | [] => rfl
  | block :: blocks => by
    simp only [clearBlocks, sitesOfBlocks, block.sites_clear, sitesOfBlocks_clear blocks]
end

mutual
theorem Expr.resolved_clear (env : Env) : ∀ expr : Expr,
    (expr.clear true).Resolved env ↔ expr.Resolved env
  | .lit .. => Iff.rfl
  | .var .. => Iff.rfl
  | .call _ args _ _ => allResolved_clear env args
theorem allResolved_clear (env : Env) : ∀ exprs : List Expr,
    AllResolved env (clearAll true exprs) ↔ AllResolved env exprs
  | [] => Iff.rfl
  | expr :: exprs => and_congr (expr.resolved_clear env) (allResolved_clear env exprs)
end

mutual
theorem Stmt.resolved_clear (env : Env) : ∀ stmt : Stmt,
    (stmt.clear true).Resolved env ↔ stmt.Resolved env
  | .decl _ _ value _ _ => and_congr (value.resolved_clear env) Iff.rfl
  | .assign _ value _ _ => and_congr (value.resolved_clear env) Iff.rfl
  | .branch conds blocks _ => by
    simp only [Stmt.clear, Stmt.Resolved, length_clearAll, length_clearBlocks, allResolved_clear env,
      blocksResolved_clear env blocks]
  | .forLoop var lo hi body _ _ => by
    simp only [Stmt.clear, Stmt.Resolved, Expr.resolved_clear env, kept_true]
    simp only [body.resolved_clear]
  | .whileLoop cond body _ => and_congr (cond.resolved_clear env) (body.resolved_clear env)
  | .call value => value.resolved_clear env
theorem Block.resolved_clear (env : Env) : ∀ block : Block,
    (block.clear true).Resolved env ↔ block.Resolved env
  | ⟨stmts, ret, _, _, _⟩ => by
    simp only [Block.clear, Block.Resolved, stmtsResolved_clear env stmts, extendStmts_clear]
    cases ret <;> simp [Return.clear, Expr.resolved_clear]
theorem stmtsResolved_clear (env : Env) : ∀ stmts : List Stmt,
    StmtsResolved env (clearStmts true stmts) ↔ StmtsResolved env stmts
  | [] => Iff.rfl
  | stmt :: stmts => by
    simp only [clearStmts, StmtsResolved, stmt.resolved_clear env, Stmt.extend_clear,
      stmtsResolved_clear _ stmts]
theorem blocksResolved_clear (env : Env) : ∀ blocks : List Block,
    BlocksResolved env (clearBlocks true blocks) ↔ BlocksResolved env blocks
  | [] => Iff.rfl
  | block :: blocks => by
    simp only [clearBlocks, BlocksResolved, block.resolved_clear env, Block.extend_clear,
      blocksResolved_clear _ blocks]
end

@[simp] theorem map_clear_params (params : List Param) : params.map (Param.clear true) = params :=
  List.map_id'' (fun _ => rfl) params

theorem extendParams_clear (env : Env) (params : List Param) :
    extendParams env (params.map (Param.clear true)) = extendParams env params := by
  induction params generalizing env with
  | nil => rfl
  | cons param params ih => exact ih _

theorem FnDef.sites_clear (fn : FnDef) : (fn.clear true).sites = fn.sites := by
  simp only [FnDef.sites, FnDef.clear, Block.sites_clear, List.map_map]
  rfl

theorem CompileUnit.sites_clear (unit : CompileUnit) : (unit.clear true).sites = unit.sites := by
  simp only [CompileUnit.sites, CompileUnit.clear, Script.clear, Block.sites_clear, List.flatMap_map,
    FnDef.sites_clear]

/-! ## Clearing units -/

theorem FnDef.clear_clear (keep : Bool) (fn : FnDef) :
    (fn.clear keep).clear false = fn.clear false := by
  simp only [FnDef.clear, Block.clear_clear, List.map_map]
  rfl

theorem CompileUnit.clear_clear (keep : Bool) (unit : CompileUnit) :
    (unit.clear keep).clear false = unit.clear false := by
  simp only [CompileUnit.clear, Script.clear, Block.clear_clear, List.map_map, kept_false]
  congr 1
  exact List.map_congr_left fun fn _ => fn.clear_clear keep

end ScriptLang
