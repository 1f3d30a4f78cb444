import ScriptLang.Proofs.AlikeUnits

/-!
# Handles that a unit arrives with

Binding writes every handle and reads none, and nobody reads the mark that says which scope a block
has. So the handles and marks that a unit arrives with make no difference to what the checker and
the compiler say. A tree is stripped of its marks, and of its handles as well unless they are kept;
types stay.
-/

namespace ScriptLang

open Pass

/-! ## Stripping -/

mutual
def Expr.strip (keep : Bool) : Expr → Expr
  | .lit value span slot => .lit value span slot
  | .var name handle span slot => .var name (kept keep handle) span slot
  | .call name args span slot => .call name (stripAll keep args) span slot
def stripAll (keep : Bool) : List Expr → List Expr
  | [] => []
  | expr :: exprs => expr.strip keep :: stripAll keep exprs
end

def Return.strip (keep : Bool) (ret : Return) : Return :=
  ⟨ret.value.strip keep, ret.span⟩

mutual
def Stmt.strip (keep : Bool) : Stmt → Stmt
  | .decl name ascription value span handle =>
    .decl name ascription (value.strip keep) span (kept keep handle)
  | .assign target value span handle =>
    .assign target (value.strip keep) span (kept keep handle)
  | .branch conds blocks span => .branch (stripAll keep conds) (stripBlocks keep blocks) span
  | .forLoop var lo hi body span handle =>
    .forLoop var (lo.strip keep) (hi.strip keep) (body.strip keep) span (kept keep handle)
  | .whileLoop cond body span => .whileLoop (cond.strip keep) (body.strip keep) span
  | .call value => .call (value.strip keep)
def Block.strip (keep : Bool) : Block → Block
  | ⟨stmts, ret, brk, span, _⟩ =>
    ⟨stripStmts keep stmts, ret.map (Return.strip keep), brk, span, none⟩
def stripStmts (keep : Bool) : List Stmt → List Stmt
  | [] => []
  | stmt :: stmts => stmt.strip keep :: stripStmts keep stmts
def stripBlocks (keep : Bool) : List Block → List Block
  | [] => []
  | block :: blocks => block.strip keep :: stripBlocks keep blocks
end

def FnDef.strip (keep : Bool) (fn : FnDef) : FnDef :=
  { fn with params := fn.params.map (Param.clear keep), body := fn.body.strip keep }

def Script.strip (keep : Bool) (script : Script) : Script :=
  { script with body := script.body.strip keep }

def CompileUnit.strip (keep : Bool) (unit : CompileUnit) : CompileUnit :=
  { unit with
    functions := unit.functions.map (FnDef.strip keep)
    script := unit.script.strip keep
    scope := none }

@[simp] theorem length_stripAll (keep : Bool) (exprs : List Expr) :
    (stripAll keep exprs).length = exprs.length := by
  induction exprs with
  | nil => rfl
  | cons expr exprs ih => simp [stripAll, ih]

@[simp] theorem length_stripBlocks (keep : Bool) (blocks : List Block) :
    (stripBlocks keep blocks).length = blocks.length := by
  induction blocks with
  | nil => rfl
  | cons block blocks ih => simp [stripBlocks, ih]

mutual
theorem Block.containsReturn_strip (keep : Bool) : ∀ block : Block,
    (block.strip keep).containsReturn = block.containsReturn
  | ⟨stmts, _, _, _, _⟩ => by
    simp only [Block.strip, Block.containsReturn, anyReturn_strip keep stmts, Option.isSome_map]
theorem Stmt.containsReturn_strip (keep : Bool) : ∀ stmt : Stmt,
    (stmt.strip keep).containsReturn = stmt.containsReturn
  | .decl .. => rfl
  | .assign .. => rfl
  | .branch _ blocks _ => anyBlockReturns_strip keep blocks
  | .forLoop _ _ _ body _ _ => body.containsReturn_strip keep
  | .whileLoop _ body _ => body.containsReturn_strip keep
  | .call _ => rfl
theorem anyReturn_strip (keep : Bool) : ∀ stmts : List Stmt,
    anyReturn (stripStmts keep stmts) = anyReturn stmts
  | [] => rfl
  | stmt :: stmts => by
    simp only [stripStmts, anyReturn, stmt.containsReturn_strip keep, anyReturn_strip keep stmts]
theorem anyBlockReturns_strip (keep : Bool) : ∀ blocks : List Block,
    anyBlockReturns (stripBlocks keep blocks) = anyBlockReturns blocks
  | [] => rfl
  | block :: blocks => by
    simp only [stripBlocks, anyBlockReturns, block.containsReturn_strip keep,
      anyBlockReturns_strip keep blocks]
end

theorem FnDef.signatureTypes_strip (keep : Bool) (fn : FnDef) :
    (fn.strip keep).signatureTypes = fn.signatureTypes := by
  simp only [FnDef.signatureTypes, FnDef.strip, Block.containsReturn_strip, List.mapM_map]
  rfl

/-! ## Runs in the same state -/

theorem VarDecl.Like.refl (var : VarDecl) : var.Like var :=
  ⟨rfl, rfl, rfl⟩

theorem Coupling.steady_equal (σ : Type) [Workspace σ] (scope : ScopeId) :
    (Coupling.equal σ).Steady scope (· = ·) where
  candidates := by
    rintro tree _ rfl name args
    exact .refl (fun _ => rfl) (fun sigs => ⟨.refl sigs, rfl⟩) _
  declaration := by
    rintro tree _ rfl i _ rfl span
    exact .refl (fun _ => rfl) VarDecl.Like.refl _
  setVarType := by
    rintro tree _ rfl i _ rfl ty
    exact .refl (fun _ => rfl) (fun _ => rfl) _
  halts _ _ h := h
  signature := by
    rintro tree _ rfl sig
    rfl
  setReturn := by
    rintro tree _ rfl sig ret
    exact .refl (fun _ => rfl) (fun _ => rfl) _
  reset h := h ▸ rfl

/-! ## Binding -/

section

variable {σ : Type} [Workspace σ]

/-- Passes in the same state that give what `R` relates. -/
abbrev SideBySide (R : α → β → Prop) (p : Pass σ ν α) (q : Pass σ μ β) : Prop :=
  Parallel (.equal σ) R p q

theorem openScope_sideBySide (parent : ScopeId) : SideBySide (· = ·)
    (openScope parent : Pass σ ν ScopeId) (openScope parent : Pass σ μ ScopeId) :=
  .step .scopes fun _ => .step (.setScopes rfl) fun _ => .pure rfl

theorem declareHere_sideBySide {node : ν} {other : μ} {scope : ScopeId} {name : String} {ty : Ty}
    {kind : DeclKind} {span : Span} : SideBySide (· = ·)
    (declareHere node scope name ty kind span : Pass σ ν DeclId)
    (declareHere other scope name ty kind span : Pass σ μ DeclId) :=
  .step .scopes fun _ => .step (.share _) fun _ => .step (.setScopes rfl) fun _ => .pure rfl

mutual
theorem Expr.bind_strip (scope : ScopeId) : ∀ expr : Expr,
    SideBySide (Expr.Alike (· = ·)) ((expr.strip false).bind scope : Pass σ Expr Expr)
      (expr.bind scope)
  | .lit .. => .pure rfl
  | .var .. => .step .scopes fun _ => .step (.share _) fun id => .pure ⟨some id, .some rfl, rfl⟩
  | .call _ args _ _ => .part (bindAll_strip scope args) fun _ args₁ ha => .pure ⟨args₁, ha, rfl⟩
theorem bindAll_strip (scope : ScopeId) : ∀ exprs : List Expr,
    SideBySide (AllAlike (· = ·))
      (bindAll scope (stripAll false exprs) : Pass σ (List Expr) (List Expr)) (bindAll scope exprs)
  | [] => .pure rfl
  | expr :: exprs => .part (expr.bind_strip scope) fun _ expr₁ he =>
    .part (bindAll_strip scope exprs) fun _ exprs₁ hes => .pure ⟨expr₁, exprs₁, he, hes, rfl⟩
end

mutual
theorem Stmt.bind_strip : ∀ (scope : ScopeId) (stmt : Stmt),
    SideBySide (Stmt.Alike (· = ·)) ((stmt.strip false).bind scope : Pass σ Stmt Stmt)
      (stmt.bind scope)
  | scope, .decl _ _ value _ _ =>
    .part (value.bind_strip scope) fun _ value₁ hv => .step (.share _) fun _ =>
      .step declareHere_sideBySide fun id => .pure ⟨value₁, some id, hv, .some rfl, rfl⟩
  | scope, .assign _ value _ _ =>
    .part (value.bind_strip scope) fun _ value₁ hv => .step .scopes fun _ =>
      .step (.share _) fun id => .pure ⟨value₁, some id, hv, .some rfl, rfl⟩
  | scope, .branch conds blocks _ => by
    simp only [Stmt.strip, Stmt.bind, length_stripAll, length_stripBlocks]
    split
    · refine .part (bindAll_strip scope conds) fun _ conds₁ hcs => ?_
      exact .part (bindBlocks_strip scope blocks) fun _ blocks₁ hbs =>
        .pure ⟨conds₁, blocks₁, hcs, hbs, rfl⟩
    · exact .stop
  | scope, .forLoop _ lo hi body _ _ => by
    refine .part (lo.bind_strip scope) fun _ lo₁ hl => ?_
    refine .part (hi.bind_strip scope) fun _ hi₁ hh => ?_
    refine .step (openScope_sideBySide scope) fun inner => .step declareHere_sideBySide fun id => ?_
    refine .part (Block.bind_strip inner body _ _) fun _ body₁ hb => .pure ?_
    exact ⟨lo₁, hi₁, body₁, some id, hl, hh, hb, .some rfl, rfl⟩
  | scope, .whileLoop cond body _ => by
    refine .part (cond.bind_strip scope) fun _ cond₁ hc => ?_
    refine .part (Block.bind_strip scope body _ _) fun _ body₁ hb => .pure ?_
    exact ⟨cond₁, body₁, hc, hb, rfl⟩
  | scope, .call value =>
    .part (value.bind_strip scope) fun _ value₁ hv => .pure ⟨value₁, hv, rfl⟩
theorem Block.bind_strip : ∀ (scope : ScopeId) (block : Block) (mark mark' : Option ScopeId),
    SideBySide (Block.Alike (· = ·)) ((block.strip false).bind scope mark : Pass σ Block Block)
      (block.bind scope mark')
  | scope, ⟨stmts, none, _, _, _⟩, _, mark' =>
    .part (bindStmts_strip scope stmts) fun _ stmts₁ hs =>
      .pure ⟨stmts₁, none, mark', hs, .none, rfl⟩
  | scope, ⟨stmts, some ⟨value, retSpan⟩, _, _, _⟩, _, mark' =>
    .part (bindStmts_strip scope stmts) fun _ stmts₁ hs =>
      .part (value.bind_strip scope) fun _ value₁ hv =>
        .pure ⟨stmts₁, some ⟨value₁, retSpan⟩, mark', hs, .some ⟨hv, rfl⟩, rfl⟩
theorem bindStmts_strip : ∀ (scope : ScopeId) (stmts : List Stmt),
    SideBySide (StmtsAlike (· = ·))
      (bindStmts scope (stripStmts false stmts) : Pass σ (List Stmt) (List Stmt))
      (bindStmts scope stmts)
  | _, [] => .pure rfl
  | scope, stmt :: stmts =>
    .part (Stmt.bind_strip scope stmt) fun _ stmt₁ hs =>
      .part (bindStmts_strip scope stmts) fun _ stmts₁ hss => .pure ⟨stmt₁, stmts₁, hs, hss, rfl⟩
theorem bindBlocks_strip : ∀ (scope : ScopeId) (blocks : List Block),
    SideBySide (BlocksAlike (· = ·))
      (bindBlocks scope (stripBlocks false blocks) : Pass σ (List Block) (List Block))
      (bindBlocks scope blocks)
  | _, [] => .pure rfl
  | scope, block :: blocks =>
    .part (Block.bind_strip scope block _ _) fun _ block₁ hb =>
      .part (bindBlocks_strip scope blocks) fun _ blocks₁ hbs =>
        .pure ⟨block₁, blocks₁, hb, hbs, rfl⟩
end

theorem declareSignatures_strip {node : ν} {other : μ} (scope : ScopeId) (fns : List FnDef) :
    SideBySide (· = ·)
      (declareSignatures node scope (fns.map (FnDef.strip false)) : Pass σ ν (List SigId))
      (declareSignatures other scope fns : Pass σ μ (List SigId)) := by
  induction fns with
  | nil => exact .pure rfl
  | cons fn fns ih =>
    have hsig : SideBySide (· = ·)
        (declareSignature node scope (fn.strip false) : Pass σ ν SigId)
        (declareSignature other scope fn : Pass σ μ SigId) := by
      unfold declareSignature
      rw [fn.signatureTypes_strip]
      exact .step (.share _) fun _ => .step (.note _) fun _ => .step .scopes fun _ =>
        .step (.share _) fun _ => .step (.setScopes rfl) fun _ => .pure rfl
    exact .step hsig fun _ => .step ih fun _ => .pure rfl

theorem bindParams_strip (scope : ScopeId) (params : List Param) :
    SideBySide (List.Forall₂ (Param.Alike (· = ·)))
      (bindParams scope (params.map (Param.clear false)) : Pass σ (List Param) (List Param))
      (bindParams scope params) := by
  induction params with
  | nil => exact .pure .nil
  | cons param params ih =>
    exact .step (.share _) fun _ => .step declareHere_sideBySide fun _ =>
      .part ih fun _ _ hps => .pure (.cons ⟨.some rfl, rfl⟩ hps)

theorem FnDef.bind_strip (scope : ScopeId) (fn : FnDef) :
    SideBySide (FnDef.Alike (· = ·)) ((fn.strip false).bind scope : Pass σ FnDef FnDef)
      (fn.bind scope) :=
  .step (openScope_sideBySide scope) fun inner =>
    .part (bindParams_strip inner fn.params) fun _ _ hps =>
      .part (Block.bind_strip inner fn.body _ _) fun _ _ hb => .pure ⟨hps, hb, rfl⟩

theorem bindFunctions_strip (scope : ScopeId) (fns : List FnDef) :
    SideBySide (List.Forall₂ (FnDef.Alike (· = ·)))
      (bindFunctions scope (fns.map (FnDef.strip false)) : Pass σ (List FnDef) (List FnDef))
      (bindFunctions scope fns) := by
  induction fns with
  | nil => exact .pure .nil
  | cons fn fns ih =>
    exact .part (fn.bind_strip scope) fun _ _ hfn => .part ih fun _ _ hfns => .pure (.cons hfn hfns)

theorem CompileUnit.resolve_strip (unit : CompileUnit) :
    SideBySide (Beside (CompileUnit.Alike (· = ·)))
      ((unit.strip false).resolve : Pass σ CompileUnit (CompileUnit × Resolution))
      unit.resolve := by
  refine .step (.setScopes rfl) fun _ => .step (openScope_sideBySide _) fun unitScope => ?_
  refine .step (declareSignatures_strip unitScope unit.functions) fun signatures => ?_
  refine .part (bindFunctions_strip unitScope unit.functions) fun _ _ hfns => ?_
  refine .step (openScope_sideBySide _) fun scope => ?_
  refine .part (Block.bind_strip scope unit.script.body _ _) fun _ _ hb => ?_
  exact .step .scopes fun tree => .pure ⟨⟨hfns, hb, rfl⟩, rfl⟩

end

/-! ## The whole way -/

theorem CompileUnit.checkPass_strip {σ : Type} [Workspace σ] (unit : CompileUnit) :
    SideBySide (Beside (CompileUnit.Alike (· = ·)))
      ((unit.strip false).checkPass : Pass σ CompileUnit (CompileUnit × Resolution))
      unit.checkPass := by
  refine .step (.note _) fun _ => .bind unit.resolve_strip ?_
  rintro ⟨stripped, resolution⟩ ⟨bound, _⟩ ⟨halike, rfl⟩
  refine .bind (CompileUnit.infer_alike (Coupling.steady_equal σ _) halike _) fun _ _ halike => ?_
  exact .step .scopes fun _ => .pure ⟨halike, rfl⟩

namespace CompileUnit

theorem lowering_eq_of_alike {left right : CompileUnit} (h : left.Alike (· = ·) right)
    (scopes : ScopeTree) (options : Options) :
    left.lowering scopes options = right.lowering scopes options := by
  have hlike : scopes.LikeAt (· = ·) scopes := by
    rintro i _ rfl
    refine ⟨rfl, ?_⟩
    cases scopes.decls[i]? with
    | none => exact .none
    | some var => exact .some (.refl var)
  simp only [lowering, names_alike h.functions, emitFunctions_alike hlike _ h.functions,
    emitWithHeader_alike hlike _ h.script.body]

/-- Both checks fail alike, or they end with the same resolution and with units that differ at most
in the marks on their blocks. -/
theorem check_strip (unit : CompileUnit) :
    (∃ left right halt, (unit.strip false).check = ⟨left, .error halt⟩ ∧
      unit.check = ⟨right, .error halt⟩) ∨
    ∃ left right resolution, (unit.strip false).check = ⟨left, .ok resolution⟩ ∧
      unit.check = ⟨right, .ok resolution⟩ ∧ left.Alike (· = ·) right := by
  have h := unit.checkPass_strip ({} : ScopeTree) {} rfl
  unfold check
  dsimp only
  generalize (unit.strip false).checkPass ({} : ScopeTree) = left at h ⊢
  generalize unit.checkPass ({} : ScopeTree) = right at h ⊢
  cases h with
  | @stopped node other halt _ _ _ _ hh =>
    obtain rfl := hh
    exact .inl ⟨node, other, halt, rfl, rfl⟩
  | @done a b _ _ _ h =>
    obtain ⟨left, resolution⟩ := a
    obtain ⟨right, _⟩ := b
    obtain ⟨halike, rfl⟩ := h
    exact .inr ⟨left, right, resolution, rfl, rfl, halike⟩

theorem check_result_strip (unit : CompileUnit) :
    (unit.strip false).check.result = unit.check.result := by
  obtain ⟨_, _, _, hleft, hright⟩ | ⟨_, _, _, hleft, hright, _⟩ := unit.check_strip <;>
    rw [hleft, hright]

theorem compile_result_strip (unit : CompileUnit) (options : Options) :
    ((unit.strip false).compile options).result = (unit.compile options).result := by
  unfold compile
  obtain ⟨_, _, _, hleft, hright⟩ | ⟨_, _, _, hleft, hright, halike⟩ := unit.check_strip
  · rw [hleft, hright]
  · simp only [hleft, hright, lower, lowering_eq_of_alike halike]

theorem trace_strip (unit : CompileUnit) (options : Options) :
    (unit.strip false).trace options = unit.trace options := by
  have h := unit.checkPass_strip ({} : Recorded) {} rfl
  unfold trace
  dsimp only
  generalize (unit.strip false).checkPass ({} : Recorded) = left at h ⊢
  generalize unit.checkPass ({} : Recorded) = right at h ⊢
  cases h with
  | stopped hs hh => rw [hs, hh]
  | @done a b work _ hs h =>
    obtain ⟨left, resolution⟩ := a
    obtain ⟨right, _⟩ := b
    obtain ⟨halike, rfl⟩ := h
    obtain rfl : work = _ := hs
    simp only [lowering_eq_of_alike halike]

end CompileUnit

/-- Units that differ only in the handles and scopes they arrive with are checked and compiled
alike, down to what happens on the way. -/
theorem check_compile_handles {unit unit' : CompileUnit}
    (h : unit.strip false = unit'.strip false) :
    unit.check.result = unit'.check.result ∧ ∀ options,
      (unit.compile options).result = (unit'.compile options).result ∧
        unit.trace options = unit'.trace options := by
  constructor
  · rw [← unit.check_result_strip, h, unit'.check_result_strip]
  · intro options
    constructor
    · rw [← unit.compile_result_strip, h, unit'.compile_result_strip]
    · rw [← unit.trace_strip, h, unit'.trace_strip]

/-- A script that counts to three; every handle and scope it arrives with is `mark`. -/
def counting (mark : Option Nat) : CompileUnit where
  functions := []
  script :=
    { name := "main"
      body :=
        { stmts :=
            [.forLoop "i" (.lit (.int 1) {} none) (.lit (.int 3) {} none)
              { stmts :=
                  [.decl "n" none (.var "i" mark {} none) {} mark,
                    .assign "n" (.var "n" mark {} none) {} mark]
                scope := mark } {} mark,
              .branch [.lit (.bool true) {} none] [{ stmts := [], scope := mark }] {}]
          scope := mark } }
  scope := mark

theorem check_compile_handles_counting :
    (counting none).strip false = (counting (some 99)).strip false ∧
      (∃ resolution, (counting none).check.result = .ok resolution ∧
        (counting (some 99)).check.result = .ok resolution) ∧
      ((counting none).compile {}).result = ((counting (some 99)).compile {}).result := by
  have h : (counting none).strip false = (counting (some 99)).strip false := rfl
  obtain ⟨hcheck, hcompile⟩ := check_compile_handles h
  refine ⟨h, ?_, (hcompile {}).1⟩
  have hok : (counting none).check.result.isOk = true := by decide +kernel
  cases hresult : (counting none).check.result with
  | ok resolution => exact ⟨resolution, rfl, hcheck.symm.trans hresult⟩
  | error halt =>
    rw [hresult] at hok
    cases hok

end ScriptLang
