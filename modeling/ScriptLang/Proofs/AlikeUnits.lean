import ScriptLang.Compile
import ScriptLang.Proofs.Covering
import ScriptLang.Proofs.Renumbering

/-!
# Units that differ in numbering

What inference does to alike bodies it does to alike functions and units: the same return types are
found out, the same complaints are kept, and functions are committed alike. Where the numbers are
the same as well, alike trees are emitted as the same lines.
-/

set_option linter.unusedSectionVars false

namespace ScriptLang

open Pass ScopeTree

variable {fn fn' : FnDef} {fns fns' : List FnDef} {expr other : Expr}

section

variable {r : DeclId → DeclId → Prop}

mutual
theorem Stmt.Alike.containsReturn : ∀ (stmt other : Stmt), stmt.Alike r other →
    other.containsReturn = stmt.containsReturn
  | .decl .., _, ⟨_, _, _, _, rfl⟩ => rfl
  | .assign .., _, ⟨_, _, _, _, rfl⟩ => rfl
  | .branch _ blocks _, _, ⟨_, blocks', _, hb, rfl⟩ => by
    simp only [Stmt.containsReturn, BlocksAlike.containsReturn blocks blocks' hb]
  | .forLoop _ _ _ body _ _, _, ⟨_, _, body', _, _, _, hb, _, rfl⟩ => by
    simp only [Stmt.containsReturn, Block.Alike.containsReturn body body' hb]
  | .whileLoop _ body _, _, ⟨_, body', _, hb, rfl⟩ => by
    simp only [Stmt.containsReturn, Block.Alike.containsReturn body body' hb]
  | .call _, _, ⟨_, _, rfl⟩ => rfl
termination_by structural stmt => stmt
theorem Block.Alike.containsReturn : ∀ (block other : Block), block.Alike r other →
    other.containsReturn = block.containsReturn
  | ⟨stmts, ret, _, _, _⟩, _, ⟨stmts', ret', _, hs, hr, rfl⟩ => by
    have hsome : ret'.isSome = ret.isSome := by cases hr <;> rfl
    simp only [Block.containsReturn, StmtsAlike.containsReturn stmts stmts' hs, hsome]
termination_by structural block => block
theorem StmtsAlike.containsReturn : ∀ (stmts others : List Stmt), StmtsAlike r stmts others →
    anyReturn others = anyReturn stmts
  | [], _, h => by
    obtain rfl := h
    rfl
  | stmt :: stmts, _, ⟨stmt', stmts', hs, hss, rfl⟩ => by
    simp only [anyReturn, Stmt.Alike.containsReturn stmt stmt' hs,
      StmtsAlike.containsReturn stmts stmts' hss]
termination_by structural stmts => stmts
theorem BlocksAlike.containsReturn : ∀ (blocks others : List Block), BlocksAlike r blocks others →
    anyBlockReturns others = anyBlockReturns blocks
  | [], _, h => by
    obtain rfl := h
    rfl
  | block :: blocks, _, ⟨block', blocks', hb, hbs, rfl⟩ => by
    simp only [anyBlockReturns, Block.Alike.containsReturn block block' hb,
      BlocksAlike.containsReturn blocks blocks' hbs]
termination_by structural blocks => blocks
end

end

/-- What discovery does to signatures is the same on both sides as well, and no error can be told
from the other. -/
structure Coupling.Steady {σ : Type} [Workspace σ] (C : Coupling σ) (scope : ScopeId)
    (r : DeclId → DeclId → Prop) : Prop extends C.Attuned scope r where
  halts : ∀ halt halt', C.halts halt halt' → halt = halt'
  signature : ∀ {tree tree' : ScopeTree}, C.trees tree tree' → ∀ sig : SigId,
    tree.signature sig = tree'.signature sig
  setReturn : ∀ {tree tree' : ScopeTree}, C.trees tree tree' → ∀ (sig : SigId) (ret : Ty),
    Results C.halts C.trees ((tree.setReturn sig ret).mapError .fault)
      ((tree'.setReturn sig ret).mapError .fault)
  reset : ∀ {tree tree' : ScopeTree}, C.trees tree tree' →
    C.trees tree.resetInferred tree'.resetInferred

/-! ## Routines -/

section

variable {σ ν μ : Type} [Workspace σ] {C : Coupling σ} {scope : ScopeId}
  {r : DeclId → DeclId → Prop} {node : ν} {other : μ}

theorem Script.commit_alike (h : C.Attuned scope r) {script script' : Script}
    (ha : script.Alike r script') :
    Parallel C (Script.Alike r) (script.commit scope) (script'.commit scope) := by
  obtain ⟨body, hsame⟩ := ha
  rw [hsame]
  refine .step (.note _) fun _ => ?_
  refine .pair (Block.infer_alike h _ _ _ body) fun _ body₁ _ hb => .pure ?_
  exact ⟨hb, rfl⟩

theorem FnDef.inferBody_alike (h : C.Steady scope r) (ha : fn.Alike r fn') (mode : Mode)
    (sig : SigId) :
    Parallel C (Beside (FnDef.Alike r)) (fn.inferBody mode scope sig)
      (fn'.inferBody mode scope sig) := by
  obtain ⟨params, body, hsame⟩ := ha
  rw [hsame]
  refine .bind .scopes fun tree tree' ht => ?_
  rw [h.signature ht sig]
  refine .step (.share _) fun signature => ?_
  refine .pair (Block.infer_alike h.toAttuned _ _ _ body) fun _ body₁ ctx hb => .pure ?_
  exact ⟨⟨params, hb, rfl⟩, rfl⟩

theorem setReturnHere_alike (h : C.Steady scope r) (sig : SigId) (ret : Ty) {α β : Type}
    {R : α → β → Prop} {a : α} {b : β} (hab : R a b) :
    Parallel C R
      (do
        let tree ← Pass.scopes
        let tree ← Pass.ofExcept node ((tree.setReturn sig ret).mapError .fault)
        Pass.setScopes tree
        return a)
      (do
        let tree ← Pass.scopes
        let tree ← Pass.ofExcept other ((tree.setReturn sig ret).mapError .fault)
        Pass.setScopes tree
        return b) :=
  .bind .scopes fun _ _ ht => .bind (.ofExcept (h.setReturn ht sig ret)) fun _ _ ht =>
    .step (.setScopes ht) fun _ => .pure hab

theorem FnDef.commit_alike (h : C.Steady scope r) (ha : fn.Alike r fn') (sig : SigId) :
    Parallel C (FnDef.Alike r) (fn.commit scope sig) (fn'.commit scope sig) := by
  have hname : fn'.name = fn.name := by rw [ha.same]
  unfold FnDef.commit
  rw [hname]
  refine .step (.note _) fun _ => ?_
  refine .bind (FnDef.inferBody_alike h ha .commit sig) ?_
  rintro ⟨fn₁, ret⟩ ⟨fn₁', _⟩ ⟨⟨params, body, hsame⟩, rfl⟩
  dsimp only at hsame body params ⊢
  rw [hsame]
  simp only [FnDef.checkReturn, Block.Alike.containsReturn _ _ body]
  refine .step (.share _) fun _ => .step (.share _) fun retSlot => ?_
  exact setReturnHere_alike h sig ret ⟨params, body, rfl⟩

/-! ## Discovery -/

theorem resetHere_alike (h : C.Steady scope r) :
    Parallel C (· = ·) (resetHere : Pass σ ν Unit) (resetHere : Pass σ μ Unit) :=
  .bind .scopes fun _ _ ht => .setScopes (h.reset ht)

theorem probe_alike (h : C.Steady scope r) (ha : fn.Alike r fn') (round : Nat) (sig : SigId)
    (last : LastError) : Parallel C (· = ·)
      (probe node scope round fn sig last) (probe other scope round fn' sig last) := by
  have hname : fn'.name = fn.name := by rw [ha.same]
  refine .bind .scopes fun tree tree' ht => ?_
  rw [h.signature ht sig]
  refine .step (.share _) fun signature => ?_
  split
  · exact .pure rfl
  · refine .step (resetHere_alike h) fun _ => ?_
    refine .bind (.attempt (FnDef.inferBody_alike h ha .probe sig) h.halts _ _) fun x y hxy => ?_
    rw [hname]
    obtain ⟨e, rfl, rfl⟩ | ⟨⟨_, ret⟩, ⟨_, _⟩, rfl, rfl, _, rfl⟩ := hxy
    · exact .step (.note _) fun _ => .pure rfl
    · dsimp only
      split
      · exact .step (.note _) fun _ => setReturnHere_alike h sig ret rfl
      · exact .step (.note _) fun _ => .pure rfl

theorem probeRound_alike (h : C.Steady scope r) (round : Nat) :
    ∀ {fns fns' : List FnDef}, List.Forall₂ (FnDef.Alike r) fns fns' →
    ∀ (sigs : List SigId) (lasts : List LastError), Parallel C (· = ·)
      (probeRound node scope round fns sigs lasts) (probeRound other scope round fns' sigs lasts)
  | _, _, .nil, _, _ => .pure rfl
  | _, _, .cons _ _, [], _ => .pure rfl
  | _, _, .cons _ _, _ :: _, [] => .pure rfl
  | _, _, .cons ha hs, sig :: sigs, last :: lasts =>
    .step (probe_alike h ha round sig last) fun _ =>
      .step (probeRound_alike h round hs sigs lasts) fun _ => .pure rfl

theorem probeRounds_alike (h : C.Steady scope r) (ha : List.Forall₂ (FnDef.Alike r) fns fns')
    (sigs : List SigId) :
    ∀ (fuel round : Nat) (lasts : List LastError), Parallel C (· = ·)
      (probeRounds node scope fns sigs fuel round lasts)
      (probeRounds other scope fns' sigs fuel round lasts)
  | 0, _, _ => .pure rfl
  | fuel + 1, round, lasts => by
    refine .step (probeRound_alike h round ha sigs lasts) fun result => ?_
    dsimp only
    split
    · exact probeRounds_alike h ha sigs fuel (round + 1) result.1
    · exact .pure rfl

theorem discoverReturns_alike (h : C.Steady scope r) (ha : List.Forall₂ (FnDef.Alike r) fns fns')
    (sigs : List SigId) : Parallel C (· = ·)
      (discoverReturns node scope fns sigs) (discoverReturns other scope fns' sigs) := by
  have hlasts : fns'.map (fun _ => (none : LastError)) = fns.map fun _ => none := by
    rw [List.map_const', List.map_const', ha.length_eq]
  unfold discoverReturns
  rw [hlasts, ha.length_eq]
  exact probeRounds_alike h ha sigs _ _ _

/-! ## Units -/

theorem commitFunctions_alike (h : C.Steady scope r) (sigs : List SigId) :
    ∀ (order : List Nat) {fns fns' : List FnDef}, List.Forall₂ (FnDef.Alike r) fns fns' →
    Parallel C (List.Forall₂ (FnDef.Alike r)) (commitFunctions scope sigs order fns)
      (commitFunctions scope sigs order fns')
  | [], _, _, ha => .pure ha
  | i :: order, fns, fns', ha => by
    have hrel := forall₂_rel ha i
    unfold commitFunctions
    generalize fns[i]? = fn at hrel ⊢
    generalize fns'[i]? = fn' at hrel ⊢
    cases hrel with
    | none => exact commitFunctions_alike h sigs order ha
    | some hfn =>
      cases sigs[i]? with
      | none => exact .stop
      | some sig =>
        refine .part (FnDef.commit_alike h hfn sig) fun _ _ hfn₁ => ?_
        exact commitFunctions_alike h sigs order (forall₂_set ha i hfn₁)

/-- The same unit, with handles that belong together. -/
structure CompileUnit.Alike (r : DeclId → DeclId → Prop) (unit other : CompileUnit) : Prop where
  functions : List.Forall₂ (FnDef.Alike r) unit.functions other.functions
  script : unit.script.Alike r other.script

/-- Everything up to the script. -/
def CompileUnit.inferFunctions (unit : CompileUnit) (unitScope : ScopeId)
    (signatures : List SigId) : Pass σ CompileUnit (List FnDef) := do
  let lasts ← discoverReturns unit unitScope unit.functions signatures
  Pass.note .committing
  resetHere
  within ({ unit with functions := · })
    (commitFunctions unitScope signatures (commitOrder lasts) unit.functions)

theorem CompileUnit.infer_eq (unit : CompileUnit) (unitScope : ScopeId) (signatures : List SigId) :
    (unit.infer unitScope signatures : Pass σ CompileUnit CompileUnit) = (do
      let functions ← unit.inferFunctions unitScope signatures
      let script ← within ({ unit with functions, script := · }) (unit.script.commit unitScope)
      return { unit with functions, script }) := by
  simp only [CompileUnit.infer, CompileUnit.inferFunctions, Pass.bind_assoc]

theorem CompileUnit.inferFunctions_alike (h : C.Steady scope r) {unit unit' : CompileUnit}
    (ha : List.Forall₂ (FnDef.Alike r) unit.functions unit'.functions) (sigs : List SigId) :
    Parallel C (List.Forall₂ (FnDef.Alike r)) (unit.inferFunctions scope sigs)
      (unit'.inferFunctions scope sigs) :=
  .step (discoverReturns_alike h ha sigs) fun _ => .step (.note _) fun _ =>
    .step (resetHere_alike h) fun _ => .within (commitFunctions_alike h sigs _ ha) _ _

theorem CompileUnit.infer_alike (h : C.Steady scope r) {unit unit' : CompileUnit}
    (ha : unit.Alike r unit') (sigs : List SigId) :
    Parallel C (CompileUnit.Alike r) (unit.infer scope sigs) (unit'.infer scope sigs) := by
  rw [CompileUnit.infer_eq, CompileUnit.infer_eq]
  refine .bind (CompileUnit.inferFunctions_alike h ha.functions sigs) fun fns fns' hfns => ?_
  exact .part (Script.commit_alike h.toAttuned ha.script) fun _ _ hscript => .pure ⟨hfns, hscript⟩

end

/-! ## Emission -/

/-- Only variables that have the same number belong together, and they are alike. -/
def ScopeTree.LikeAt (r : DeclId → DeclId → Prop) (tree tree' : ScopeTree) : Prop :=
  ∀ i j, r i j → i = j ∧ Option.Rel VarDecl.Like tree.decls[i]? tree'.decls[j]?

section

variable {r : DeclId → DeclId → Prop} {tree tree' : ScopeTree} {functions : List String}
  {kind : RoutineKind}

theorem Expr.Alike.irType (ha : expr.Alike r other) : expr.irType = other.irType := by
  unfold Expr.irType
  rw [ha.slot_span.1, ha.slot_span.2]

theorem names_alike (ha : List.Forall₂ (FnDef.Alike r) fns fns') :
    fns.map (·.name) = fns'.map (·.name) := by
  induction ha with
  | nil => rfl
  | cons h _ ih => rw [List.map_cons, List.map_cons, ih, h.same]

variable (h : tree.LikeAt r tree')

include h

theorem ScopeTree.LikeAt.handle {handle handle' : Option DeclId}
    (hh : Option.Rel r handle handle') : handle = handle' := by
  cases hh with
  | some hr => rw [(h _ _ hr).1]
  | none => rfl

theorem emitVariable_alike {handle handle' : Option DeclId}
    (hh : Option.Rel r handle handle') {name : String} {ty : IrType} {span : Span} :
    emitVariable ⟨tree, functions, kind⟩ name handle ty span =
      emitVariable ⟨tree', functions, kind⟩ name handle' ty span := by
  refine Results.eq (.bind (.demand hh rfl) fun i j hr => ?_)
  obtain ⟨rfl, hrel⟩ := h i j hr
  refine .bind (.demand hrel rfl) fun var var' hl => ?_
  rw [hl.kind]
  exact .refl (fun _ => rfl) (fun _ => rfl) _

mutual
theorem Expr.emitValue_alike : ∀ (expr other : Expr),
    expr.Alike r other →
    expr.emitValue ⟨tree, functions, kind⟩ = other.emitValue ⟨tree', functions, kind⟩
  | .lit .., _, ha => by
    obtain rfl := ha
    rfl
  | .var .., _, ha => by
    have hty := ha.irType
    obtain ⟨handle', hh, rfl⟩ := ha
    simp only [Expr.emitValue, hty, emitVariable_alike h hh]
  | .call _ args _ _, _, ha => by
    have hty := ha.irType
    obtain ⟨args', hargs, rfl⟩ := ha
    simp only [Expr.emitValue, hty, emitArgs_alike args args' hargs]
    rfl
termination_by structural expr => expr
theorem emitArgs_alike : ∀ (exprs others : List Expr),
    AllAlike r exprs others →
    emitArgs ⟨tree, functions, kind⟩ exprs = emitArgs ⟨tree', functions, kind⟩ others
  | [], _, ha => by
    obtain rfl := ha
    rfl
  | expr :: exprs, _, ha => by
    obtain ⟨expr', exprs', he, hes, rfl⟩ := ha
    simp only [emitArgs, he.irType, Expr.emitValue_alike expr expr' he,
      emitArgs_alike exprs exprs' hes]
termination_by structural exprs => exprs
end

theorem Expr.emitOperand_alike (ha : expr.Alike r other) :
    expr.emitOperand ⟨tree, functions, kind⟩ = other.emitOperand ⟨tree', functions, kind⟩ := by
  unfold Expr.emitOperand
  rw [Expr.emitValue_alike h expr other ha]

theorem Expr.emitEffect_alike (ha : expr.Alike r other) :
    expr.emitEffect ⟨tree, functions, kind⟩ = other.emitEffect ⟨tree', functions, kind⟩ := by
  unfold Expr.emitEffect
  rw [ha.irType, Expr.emitValue_alike h expr other ha]

theorem emitStore_alike (ha : expr.Alike r other) (name : String)
    (id : DeclId) :
    emitStore ⟨tree, functions, kind⟩ name id expr =
      emitStore ⟨tree', functions, kind⟩ name id other := by
  unfold emitStore
  rw [ha.irType, Expr.emitOperand_alike h ha]

theorem Return.emit_alike {ret other : Return}
    (ha : ret.value.Alike r other.value) :
    ret.emit ⟨tree, functions, kind⟩ = other.emit ⟨tree', functions, kind⟩ := by
  unfold Return.emit
  rw [Expr.emitOperand_alike h ha, Expr.emitEffect_alike h ha]

mutual
theorem Stmt.emit_alike (exit : Option Label) :
    ∀ (stmt other : Stmt), stmt.Alike r other →
    stmt.emit ⟨tree, functions, kind⟩ exit = other.emit ⟨tree', functions, kind⟩ exit
  | .decl .., _, ha => by
    obtain ⟨value', handle', hv, hh, rfl⟩ := ha
    simp only [Stmt.emit, h.handle hh, emitStore_alike h hv]
  | .assign .., _, ha => by
    obtain ⟨value', handle', hv, hh, rfl⟩ := ha
    simp only [Stmt.emit, h.handle hh, emitStore_alike h hv]
  | .branch conds blocks span, _, ha => by
    obtain ⟨conds', blocks', hcs, hbs, rfl⟩ := ha
    exact emitArms_alike exit span conds blocks conds' blocks' hcs hbs
  | .forLoop _ _ _ body _ _, _, ha => by
    obtain ⟨lo', hi', body', handle', hl, hh, hb, hd, rfl⟩ := ha
    simp only [Stmt.emit, h.handle hd, Expr.emitOperand_alike h hl, Expr.emitOperand_alike h hh,
      Block.emit_alike _ body body' hb]
  | .whileLoop _ body _, _, ha => by
    obtain ⟨cond', body', hc, hb, rfl⟩ := ha
    simp only [Stmt.emit, Expr.emitOperand_alike h hc, Block.emit_alike _ body body' hb]
  | .call _, _, ha => by
    obtain ⟨value', hv, rfl⟩ := ha
    exact Expr.emitEffect_alike h hv
termination_by structural stmt => stmt
theorem Block.emit_alike (exit : Option Label) :
    ∀ (block other : Block), block.Alike r other →
    block.emit ⟨tree, functions, kind⟩ exit = other.emit ⟨tree', functions, kind⟩ exit
  | ⟨stmts, _, _, _, _⟩, _, ha => by
    obtain ⟨stmts', ret', own', hs, hr, rfl⟩ := ha
    simp only [Block.emit, emitStmts_alike exit stmts stmts' hs]
    cases hr with
    | none => rfl
    | some hr => simp only [Return.emit_alike h hr.1]
termination_by structural block => block
theorem emitStmts_alike (exit : Option Label) :
    ∀ (stmts others : List Stmt), StmtsAlike r stmts others →
    emitStmts ⟨tree, functions, kind⟩ exit stmts = emitStmts ⟨tree', functions, kind⟩ exit others
  | [], _, ha => by
    obtain rfl := ha
    rfl
  | stmt :: stmts, _, ha => by
    obtain ⟨stmt', stmts', hs, hss, rfl⟩ := ha
    simp only [emitStmts, Stmt.emit_alike exit stmt stmt' hs,
      emitStmts_alike exit stmts stmts' hss]
termination_by structural stmts => stmts
theorem emitArms_alike (exit : Option Label) (span : Span) :
    ∀ (conds : List Expr) (blocks : List Block) (conds' : List Expr) (blocks' : List Block),
    AllAlike r conds conds' → BlocksAlike r blocks blocks' →
    emitArms ⟨tree, functions, kind⟩ exit span conds blocks =
      emitArms ⟨tree', functions, kind⟩ exit span conds' blocks'
  | [], blocks, _, _, hcs, _ => by
    obtain rfl := hcs
    cases blocks <;> unfold emitArms <;> rfl
  | _ :: _, [], _, _, hcs, hbs => by
    obtain ⟨cond', conds', hc, hcs, rfl⟩ := hcs
    obtain rfl := hbs
    unfold emitArms
    simp only [Expr.emitOperand_alike h hc]
  | _ :: conds, block :: blocks, _, _, hcs, hbs => by
    obtain ⟨cond', conds', hc, hcs, rfl⟩ := hcs
    obtain ⟨block', blocks', hb, hbs, rfl⟩ := hbs
    have hempty : conds'.isEmpty = conds.isEmpty := by
      cases conds with
      | nil => obtain rfl := hcs; rfl
      | cons => obtain ⟨_, _, _, _, rfl⟩ := hcs; rfl
    unfold emitArms
    simp only [Expr.emitOperand_alike h hc, Block.emit_alike exit block block' hb, hempty,
      emitLast_alike exit blocks blocks' hbs,
      emitArms_alike exit span conds blocks conds' blocks' hcs hbs]
termination_by structural _ blocks => blocks
theorem emitLast_alike (exit : Option Label) :
    ∀ (blocks others : List Block), BlocksAlike r blocks others →
    emitLast ⟨tree, functions, kind⟩ exit blocks = emitLast ⟨tree', functions, kind⟩ exit others
  | [], _, ha => by
    obtain rfl := ha
    rfl
  | [block], _, ha => by
    obtain ⟨block', _, hb, rfl, rfl⟩ := ha
    exact Block.emit_alike exit block block' hb
  | _ :: next :: blocks, _, ha => by
    obtain ⟨block', _, hb, hbs, rfl⟩ := ha
    have hrest := emitLast_alike exit (next :: blocks) _ hbs
    obtain ⟨next', blocks', _, _, rfl⟩ := hbs
    exact hrest
termination_by structural blocks => blocks
end

mutual
theorem Stmt.locals_alike : ∀ (stmt other : Stmt), stmt.Alike r other →
    stmt.locals = other.locals
  | .decl .., _, ha => by
    obtain ⟨value', handle', hv, hh, rfl⟩ := ha
    simp only [Stmt.locals, h.handle hh, hv.slot_span.1]
  | .assign .., _, ha => by
    obtain ⟨_, _, _, _, rfl⟩ := ha
    rfl
  | .branch _ blocks _, _, ha => by
    obtain ⟨_, blocks', _, hb, rfl⟩ := ha
    exact BlocksAlike.locals blocks blocks' hb
  | .forLoop _ _ _ body _ _, _, ha => by
    obtain ⟨_, _, body', _, _, _, hb, _, rfl⟩ := ha
    exact Block.locals_alike body body' hb
  | .whileLoop _ body _, _, ha => by
    obtain ⟨_, body', _, hb, rfl⟩ := ha
    exact Block.locals_alike body body' hb
  | .call _, _, ha => by
    obtain ⟨_, _, rfl⟩ := ha
    rfl
termination_by structural stmt => stmt
theorem Block.locals_alike : ∀ (block other : Block),
    block.Alike r other → block.locals = other.locals
  | ⟨stmts, _, _, _, _⟩, _, ha => by
    obtain ⟨stmts', _, _, hs, _, rfl⟩ := ha
    exact StmtsAlike.locals stmts stmts' hs
termination_by structural block => block
theorem StmtsAlike.locals : ∀ (stmts others : List Stmt),
    StmtsAlike r stmts others → localsOf stmts = localsOf others
  | [], _, ha => by
    obtain rfl := ha
    rfl
  | stmt :: stmts, _, ha => by
    obtain ⟨stmt', stmts', hs, hss, rfl⟩ := ha
    simp only [localsOf, Stmt.locals_alike stmt stmt' hs, StmtsAlike.locals stmts stmts' hss]
termination_by structural stmts => stmts
theorem BlocksAlike.locals : ∀ (blocks others : List Block),
    BlocksAlike r blocks others → localsOfBlocks blocks = localsOfBlocks others
  | [], _, ha => by
    obtain rfl := ha
    rfl
  | block :: blocks, _, ha => by
    obtain ⟨block', blocks', hb, hbs, rfl⟩ := ha
    simp only [localsOfBlocks, Block.locals_alike block block' hb,
      BlocksAlike.locals blocks blocks' hbs]
termination_by structural blocks => blocks
end

theorem emitWithHeader_alike (header : Header) {block other : Block}
    (ha : block.Alike r other) :
    emitWithHeader ⟨tree, functions, kind⟩ header block =
      emitWithHeader ⟨tree', functions, kind⟩ header other := by
  simp only [emitWithHeader, emitRoutine, Block.locals_alike h block other ha,
    Block.emit_alike h none block other ha]

theorem Param.emit_alike {param other : Param}
    (ha : param.Alike r other) : param.emit tree = other.emit tree' := by
  obtain ⟨hh, hsame⟩ := ha
  rw [hsame]
  refine Results.eq (.bind (.demand hh rfl) fun i j hr => ?_)
  obtain ⟨rfl, hrel⟩ := h i j hr
  refine .bind (.demand hrel rfl) fun var var' hl => ?_
  rw [hl.ty]
  exact .refl (fun _ => rfl) (fun _ => rfl) _

theorem FnDef.header_alike {other : FnDef} (ha : fn.Alike r other) :
    fn.header tree functions = other.header tree' functions := by
  have hparams : ∀ {params others : List Param}, List.Forall₂ (Param.Alike r) params others →
      params.mapM (Param.emit tree) = others.mapM (Param.emit tree') := by
    intro params others hp
    induction hp with
    | nil => rfl
    | cons hp _ ih => simp only [List.mapM_cons, Param.emit_alike h hp, ih]
  simp only [FnDef.header, hparams ha.params]
  rw [ha.same]

theorem emitFunctions_alike (functions : List String) :
    ∀ {fns fns' : List FnDef}, List.Forall₂ (FnDef.Alike r) fns fns' →
    emitFunctions tree functions fns = emitFunctions tree' functions fns'
  | _, _, .nil => rfl
  | _, _, .cons ha hs => by
    funext cursor
    simp only [emitFunctions, FnDef.header_alike h ha, emitWithHeader_alike h _ ha.body,
      emitFunctions_alike functions hs]

end

end ScriptLang
