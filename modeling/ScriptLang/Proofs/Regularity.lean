import ScriptLang.Ir.Lowering
import ScriptLang.Proofs.Blocks
import ScriptLang.Proofs.Emission

/-!
# Emission of any tree

On a tree that no check has seen, emission can only complain that an annotation is missing. A routine
of the runtime is noted where a call is translated, but the instruction comes later, from whoever
needs the value: until then the call is owed. In every place that a value can have, also in code that
nothing reaches, the debt is paid.
-/

namespace ScriptLang

/-! ## Calls of the runtime -/

def Computation.callee? : Computation → Option Callee
  | .call _ callee _ => some callee
  | _ => none

def Instr.callee? : Instr → Option Callee
  | .assign _ value => value.callee?
  | .perform effect => effect.callee?
  | _ => none

def Callee.runtime? : Callee → Option RuntimeRoutine
  | .runtime routine => some routine
  | .function _ => none

/-- The routines of the runtime that the lines call. -/
def runtimeCalls (lines : List Line) : List RuntimeRoutine :=
  (instrsOf lines).filterMap fun i => i.callee?.bind Callee.runtime?

theorem runtimeCalls_append (lines more : List Line) :
    runtimeCalls (lines ++ more) = runtimeCalls lines ++ runtimeCalls more := by
  simp [runtimeCalls]

/-- The routine that a value is still to call. -/
def Value.owes : Value → List RuntimeRoutine
  | .operand _ => []
  | .pending computation => (computation.callee?.bind Callee.runtime?).toList

/-! ## Missing annotations -/

/-- The error says that an annotation is not there. -/
def Halt.IsMissing (halt : Halt) : Prop :=
  ∃ what span, halt = .missing what span

/-- Whatever comes of it is a value or a missing annotation. -/
def OnlyMissing (x : Except Halt α) : Prop :=
  ∀ halt, x = .error halt → halt.IsMissing

theorem OnlyMissing.ok (a : α) : OnlyMissing (.ok a) := by
  intro halt h
  cases h

theorem OnlyMissing.bind {x : Except Halt α} {f : α → Except Halt β} (h : OnlyMissing x)
    (hf : ∀ a, OnlyMissing (f a)) : OnlyMissing (x >>= f) := by
  intro halt he
  cases x with
  | error halt' =>
    cases he
    exact h halt rfl
  | ok a => exact hf a halt he

theorem onlyMissing_demand (value : Option α) (what : String) (span : Span) :
    OnlyMissing (demand value (.missing what span)) := by
  intro halt h
  cases value with
  | some a => cases h
  | none =>
    cases h
    exact ⟨what, span, rfl⟩

theorem Ty.onlyMissing_irType (ty : Ty) (span : Span) : OnlyMissing (ty.irType span) := by
  unfold Ty.irType
  repeat' split
  all_goals first | exact .ok _ | skip
  intro halt h
  cases h
  exact ⟨_, _, rfl⟩

theorem Expr.onlyMissing_irType (expr : Expr) : OnlyMissing expr.irType :=
  .bind (onlyMissing_demand _ _ _) fun ty => ty.onlyMissing_irType _

theorem onlyMissing_emitVariable (ctx : BodyContext) (name : String) (handle : Option DeclId)
    (ty : IrType) (span : Span) : OnlyMissing (emitVariable ctx name handle ty span) := by
  refine .bind (onlyMissing_demand _ _ _) fun id => .bind (onlyMissing_demand _ _ _) fun var => ?_
  split <;> exact .ok _

/-! ## Cursors -/

namespace Cursor

theorem opened_used (c : Cursor) : c.opened.used = c.used := by
  unfold opened
  split <;> rfl

/-- Code that starts in an open block ends in it, and only more of the runtime is used. -/
structure Onward (c c' : Cursor) : Prop where
  used : c.used ⊆ c'.used
  opens : c.terminated = false → c'.terminated = false
  block : c.terminated = false → c'.block = c.block

theorem Onward.refl (c : Cursor) : c.Onward c :=
  ⟨List.Subset.refl _, id, fun _ => rfl⟩

theorem Onward.trans {c c₁ c' : Cursor} (h₁ : c.Onward c₁) (h₂ : c₁.Onward c') : c.Onward c' where
  used := List.Subset.trans h₁.used h₂.used
  opens hc := h₂.opens (h₁.opens hc)
  block hc := (h₂.block (h₁.opens hc)).trans (h₁.block hc)

end Cursor

/-! ## Emitters -/

namespace Emit

variable {α β : Type}

def Uses (e : Emit α) : Prop :=
  ∀ (c : Cursor) (a : α) (lines : List Line) (c' : Cursor), e c = .ok (a, lines, c') →
    c.used ⊆ c'.used

theorem Uses.bind {e : Emit α} {f : α → Emit β} (h : Uses e) (hf : ∀ a, Uses (f a)) :
    Uses (e >>= f) := by
  intro c b lines c' he
  obtain ⟨a, first, c₁, rest, h₁, h₂, rfl⟩ := bind_eq_ok.mp he
  exact List.Subset.trans (h c a first c₁ h₁) (hf a c₁ b rest c' h₂)

theorem Still.uses {e : Emit α} (h : Still e) : Uses e := by
  intro c a lines c' he
  obtain ⟨_, _, _, hok, hused⟩ := h c
  cases hok.symm.trans he
  rw [hused]
  exact List.Subset.refl _

theorem Still.missing {e : Emit α} (h : Still e) (c : Cursor) : OnlyMissing (e c) := by
  intro halt he
  obtain ⟨_, _, _, hok, _⟩ := h c
  cases hok.symm.trans he

/-- What the cursor notes is called in the lines that are paid or in those that are emitted, or it is
owed for the result. There may be a debt at the start. -/
def Pays (debt : List RuntimeRoutine) (e : Emit α) (owed : α → List RuntimeRoutine) : Prop :=
  ∀ (c : Cursor) (a : α) (lines : List Line) (c' : Cursor), e c = .ok (a, lines, c') →
    ∀ paid, c.used ⊆ debt ++ paid → c'.used ⊆ owed a ++ (runtimeCalls lines ++ paid)

/-- What emitters do on any tree. Straight ones stay in their block. -/
structure Regular (straight : Prop) (debt : List RuntimeRoutine) (e : Emit α)
    (owed : α → List RuntimeRoutine) : Prop where
  missing : ∀ c, OnlyMissing (e c)
  uses : Uses e
  onward : straight → ∀ {c a lines c'}, e c = .ok (a, lines, c') → c.Onward c'
  pays : Pays debt e owed

namespace Regular

variable {straight : Prop} {debt : List RuntimeRoutine} {owed : α → List RuntimeRoutine}
  {owed' : β → List RuntimeRoutine} {e : Emit α} {f : α → Emit β}

theorem still (h : Still e) (hon : straight → ∀ {c a lines c'}, e c = .ok (a, lines, c') →
      c.Onward c') : Regular straight debt e fun _ => debt where
  missing := h.missing
  uses := h.uses
  onward := hon
  pays c a lines c' he paid hc := by
    obtain ⟨_, _, _, hok, hused⟩ := h c
    cases hok.symm.trans he
    rw [hused]
    intro r hr
    have hmem := hc hr
    simp only [List.mem_append] at hmem ⊢
    tauto

theorem bind (h : Regular straight debt e owed)
    (hf : ∀ a, Regular straight (owed a) (f a) owed') : Regular straight debt (e >>= f) owed' where
  missing c halt he := by
    rcases bind_eq_error.mp he with he | ⟨a, _, c₁, _, he⟩
    · exact h.missing c halt he
    · exact (hf a).missing c₁ halt he
  uses := h.uses.bind fun a => (hf a).uses
  onward hs c b lines c' he := by
    obtain ⟨a, _, c₁, _, h₁, h₂, -⟩ := bind_eq_ok.mp he
    exact (h.onward hs h₁).trans ((hf a).onward hs h₂)
  pays c b lines c' he paid hc r hr := by
    obtain ⟨a, first, c₁, rest, h₁, h₂, rfl⟩ := bind_eq_ok.mp he
    have hmem := (hf a).pays c₁ b rest c' h₂ _ (h.pays c a first c₁ h₁ paid hc) hr
    simp only [runtimeCalls_append, List.mem_append] at hmem ⊢
    tauto

/-- A step that the runtime has no part in. -/
theorem step (h : Still e) (hf : ∀ a, Regular False debt (f a) owed') :
    Regular False debt (e >>= f) owed' :=
  (still h False.elim).bind hf

theorem last (h : Still e) : Regular False debt e fun _ => debt :=
  still h False.elim

theorem ofExcept {x : Except Halt α} (hx : OnlyMissing x) (h : ∀ a, x = .ok a → debt = owed a) :
    Regular straight debt (Emit.ofExcept x) owed where
  missing c := by
    intro halt he
    cases x with
    | ok a => cases he
    | error halt' =>
      cases he
      exact hx halt rfl
  uses c a lines c' he := by
    obtain ⟨_, _, rfl⟩ := ofExcept_eq_ok.mp he
    exact List.Subset.refl _
  onward _ c a lines c' he := by
    obtain ⟨_, _, rfl⟩ := ofExcept_eq_ok.mp he
    exact .refl _
  pays c a lines c' he paid hc := by
    obtain ⟨hx, rfl, rfl⟩ := ofExcept_eq_ok.mp he
    exact h a hx ▸ hc

theorem pure {a : α} (h : debt = owed a) : Regular straight debt (pure a) owed :=
  ofExcept (OnlyMissing.ok a) (by rintro _ ⟨⟩; exact h)

theorem fail {halt : Halt} (h : halt.IsMissing) : Regular straight debt (Emit.fail halt) owed :=
  ofExcept (x := .error halt) (by rintro _ ⟨⟩; exact h) (by rintro _ ⟨⟩)

/-- Whatever is looked up costs nothing. -/
theorem check {x : Except Halt α} (hx : OnlyMissing x)
    (hf : ∀ a, Regular straight debt (f a) owed') :
    Regular straight debt (Emit.ofExcept x >>= f) owed' :=
  (ofExcept hx fun _ _ => rfl).bind hf

theorem freshReg : Regular straight debt Emit.freshReg fun _ => debt := by
  refine .still still_freshReg ?_
  rintro _ _ _ _ _ ⟨⟩
  exact ⟨List.Subset.refl _, id, fun _ => rfl⟩

theorem use (routine : RuntimeRoutine) :
    Regular straight [] (Emit.use routine) fun _ => [routine] := by
  have hnoted (c : Cursor) : c.used ⊆ if routine ∈ c.used then c.used else routine :: c.used := by
    split
    · exact List.Subset.refl _
    · exact List.subset_cons_self _ _
  refine ⟨?_, ?_, ?_, ?_⟩
  · rintro _ _ ⟨⟩
  · rintro c _ _ _ ⟨⟩
    exact hnoted c
  · rintro _ c _ _ _ ⟨⟩
    exact ⟨hnoted c, id, fun _ => rfl⟩
  · rintro c _ _ _ ⟨⟩ paid hc
    dsimp only
    split
    · exact List.subset_cons_of_subset _ hc
    · exact List.cons_subset_cons _ hc

theorem emit {i : Instr} (h : debt ⊆ (i.callee?.bind Callee.runtime?).toList) :
    Regular straight debt (Emit.emit i) fun _ => [] := by
  refine ⟨(still_emit i).missing, (still_emit i).uses, ?_, ?_⟩
  · intro _ c _ _ _ he
    rw [emit_apply] at he
    cases he
    refine ⟨?_, fun _ => c.opened_terminated, fun hc => by rw [Cursor.opened_of_open hc]⟩
    rw [c.opened_used]
    exact List.Subset.refl _
  · intro c _ _ _ he paid hc r hr
    rw [emit_apply] at he
    cases he
    rw [Cursor.opened_used] at hr
    rw [Cursor.line, runtimeCalls_append]
    simp only [runtimeCalls, List.nil_append, List.mem_append, List.mem_filterMap, instrsOf_instr,
      List.mem_cons]
    rcases List.mem_append.mp (hc hr) with hd | hp
    · exact .inl (.inr ⟨i, .inl rfl, Option.mem_toList.mp (h hd)⟩)
    · exact .inr hp

/-- Lines that were put aside are owed until they are appended. -/
theorem capture (h : Regular straight debt e fun _ => []) :
    Regular straight debt (capture e) fun r => runtimeCalls r.2 where
  missing c halt he := by
    unfold Emit.capture at he
    split at he
    · rename_i hc
      cases he
      exact h.missing c halt hc
    · cases he
  uses c r lines c' he := h.uses c _ _ c' (capture_eq_ok.mp he).1
  onward hs c r lines c' he := h.onward hs (capture_eq_ok.mp he).1
  pays c r lines c' he paid hc := by
    obtain ⟨hinner, rfl⟩ := capture_eq_ok.mp he
    exact h.pays c _ _ c' hinner paid hc

theorem append (lines : List Line) :
    Regular straight (runtimeCalls lines) (append lines) fun _ => [] := by
  refine ⟨?_, (still_append lines).uses, ?_, ?_⟩
  · rintro _ _ ⟨⟩
  · rintro _ _ _ _ _ ⟨⟩
    exact .refl _
  · rintro _ _ _ _ ⟨⟩ paid hc
    exact hc

end Regular

end Emit

open Emit

/-! ## Expressions -/

theorem Native.compute_of_find? {name : String} {args : List (IrType × Operand)} {native : Native}
    (h : Native.find? name (args.map (·.1)) = some native) :
    ∃ computation, native.compute (args.map (·.2)) = .ok computation := by
  unfold Native.find? at h
  split at h
  case h_7 => cases h
  case h_1 hargs | h_2 hargs | h_3 hargs =>
    obtain ⟨op, _, rfl⟩ := Option.map_eq_some_iff.mp h
    rcases args with _ | ⟨a, _ | ⟨b, _ | ⟨_, _⟩⟩⟩ <;> simp at hargs
    exact ⟨_, rfl⟩
  case h_4 hargs | h_5 hargs | h_6 hargs =>
    rw [Option.ite_none_right_eq_some, Option.some.injEq] at h
    obtain ⟨_, rfl⟩ := h
    rcases args with _ | ⟨a, _ | ⟨_, _⟩⟩ <;> simp at hargs
    exact ⟨_, rfl⟩

theorem emitVariable_calls {ctx : BodyContext} {name : String} {handle : Option DeclId} {ty : IrType}
    {span : Span} {value : Value} (h : emitVariable ctx name handle ty span = .ok value) :
    ∀ computation, value = .pending computation → computation.callee? = none := by
  simp only [emitVariable, ScriptLang.bind_eq_ok] at h
  obtain ⟨id, -, var, -, h⟩ := h
  split at h
  · cases h
    rintro _ ⟨⟩
    rfl
  · cases h
    rintro _ ⟨⟩

section

variable {straight : Prop} (ctx : BodyContext)

theorem Value.regular_toOperand : ∀ value : Value,
    Regular straight value.owes value.toOperand fun _ => []
  | .operand _ => .pure rfl
  | .pending computation => Regular.freshReg.bind fun reg =>
    (Regular.emit (i := .assign reg computation) (List.Subset.refl _)).bind fun _ => .pure rfl

theorem regular_emitCall (name : String) (args : List (IrType × Operand)) (ret : IrType)
    (span : Span) : Regular straight [] (emitCall ctx name args ret span) Value.owes := by
  simp only [emitCall]
  split
  · exact .pure rfl
  · cases hn : Native.find? name (args.map (·.1)) with
    | some native =>
      obtain ⟨computation, hc⟩ := Native.compute_of_find? hn
      have howes : [] = (Value.pending computation).owes := by
        unfold Native.compute at hc
        split at hc <;> cases hc <;> rfl
      simp only [hc]
      exact .bind (.ofExcept (OnlyMissing.ok _) (by rintro _ ⟨⟩; exact howes)) fun _ => .pure rfl
    | none =>
      cases RuntimeRoutine.find? name (args.map (·.1)) with
      | some routine => exact (Regular.use _).bind fun _ => .pure rfl
      | none => exact .fail ⟨_, _, rfl⟩

mutual
theorem Expr.regular_emitValue : ∀ expr : Expr,
    Regular straight [] (expr.emitValue ctx) Value.owes
  | .lit .. => by
    unfold Expr.emitValue
    exact .check (Expr.onlyMissing_irType _) fun _ => .pure rfl
  | .var .. => by
    unfold Expr.emitValue
    refine .check (Expr.onlyMissing_irType _) fun ty =>
      .ofExcept (onlyMissing_emitVariable _ _ _ _ _) fun value hv => ?_
    cases value with
    | operand o => rfl
    | pending computation => simp [Value.owes, emitVariable_calls hv computation rfl]
  | .call _ args .. => by
    unfold Expr.emitValue
    exact .check (Expr.onlyMissing_irType _) fun _ => (regular_emitArgs args).bind fun _ =>
      regular_emitCall ctx _ _ _ _
theorem regular_emitArgs : ∀ args : List Expr,
    Regular straight [] (emitArgs ctx args) fun _ => []
  | [] => .pure rfl
  | arg :: args => by
    unfold emitArgs
    exact .check arg.onlyMissing_irType fun _ => arg.regular_emitValue.bind fun value =>
      value.regular_toOperand.bind fun _ => (regular_emitArgs args).bind fun _ => .pure rfl
end

theorem Expr.regular_emitOperand (expr : Expr) :
    Regular straight [] (expr.emitOperand ctx) fun _ => [] :=
  (expr.regular_emitValue ctx).bind fun value => value.regular_toOperand

theorem Expr.regular_emitEffect (expr : Expr) :
    Regular straight [] (expr.emitEffect ctx) fun _ => [] := by
  refine .check expr.onlyMissing_irType fun ty => (expr.regular_emitValue ctx).bind fun value => ?_
  cases value with
  | operand o => exact .pure rfl
  | pending computation =>
    dsimp only
    split
    · exact .emit (List.Subset.refl _)
    · exact Regular.freshReg.bind fun _ => .emit (List.Subset.refl _)

theorem regular_emitStore (name : String) (id : DeclId) (value : Expr) :
    Regular straight [] (emitStore ctx name id value) fun _ => [] :=
  .check value.onlyMissing_irType fun _ => (value.regular_emitOperand ctx).bind fun _ =>
    .emit (List.nil_subset _)

end

/-! ## Statements -/

section

variable (ctx : BodyContext)

theorem Return.regular_emit (ret : Return) : Regular False [] (ret.emit ctx) fun _ => [] := by
  unfold Return.emit
  split
  · exact (ret.value.regular_emitOperand ctx).bind fun _ => .step still_freshReg fun _ =>
      .step (still_emit _) fun _ => .last (still_terminate _)
  · exact (ret.value.regular_emitEffect ctx).bind fun _ => .last (still_terminate _)
  · exact (ret.value.regular_emitOperand ctx).bind fun _ => .last (still_terminate _)

theorem regular_emitReturn? : ∀ ret : Option Return,
    Regular False [] (emitReturn? ctx ret) fun _ => []
  | some ret => ret.regular_emit ctx
  | none => .pure rfl

theorem regular_emitBreak? : ∀ (exit : Option Label) (brk : Option Break),
    Regular False [] (emitBreak? exit brk) fun _ => []
  | _, none => .pure rfl
  | none, some _ => .fail ⟨_, _, rfl⟩
  | some _, some _ => .last (still_terminate _)

mutual
theorem Stmt.regular_emit : ∀ (stmt : Stmt) (exit : Option Label),
    Regular False [] (stmt.emit ctx exit) fun _ => []
  | .decl .., _ => by
    unfold Stmt.emit
    exact .check (onlyMissing_demand _ _ _) fun _ => regular_emitStore ctx _ _ _
  | .assign .., _ => by
    unfold Stmt.emit
    exact .check (onlyMissing_demand _ _ _) fun _ => regular_emitStore ctx _ _ _
  | .branch conds blocks span, exit => by
    unfold Stmt.emit
    exact regular_emitArms span blocks conds exit
  | .forLoop _ lo hi body _ _, _ => by
    unfold Stmt.emit
    refine .check (onlyMissing_demand _ _ _) fun decl => ?_
    refine (lo.regular_emitOperand ctx).bind fun _ => (hi.regular_emitOperand ctx).bind fun _ => ?_
    refine .step still_ensureOpen fun _ => .step still_cursor fun _ => ?_
    refine .step still_freshLabel fun id => .step still_freshReg fun _ => ?_
    refine .step still_freshReg fun _ => .step (still_terminate _) fun _ => ?_
    refine (Regular.capture (.step (still_openBlock _) fun _ =>
      (body.regular_emit _).bind fun _ => .last (still_emitLoopTail _ _ _))).bind fun r => ?_
    exact .step (still_emitLoopHead _ _ _ _ _) fun _ => (Regular.append _).bind fun _ =>
      .last (still_openBlock _)
  | .whileLoop cond body _, _ => by
    unfold Stmt.emit
    refine .step still_freshLabel fun id => .step (still_terminate _) fun _ => ?_
    refine .step (still_openBlock _) fun _ => (cond.regular_emitOperand ctx).bind fun _ => ?_
    refine .step (still_terminate _) fun _ => .step (still_openBlock _) fun _ => ?_
    exact (body.regular_emit _).bind fun _ => .step (still_fallTo _) fun _ =>
      .last (still_openBlock _)
  | .call value, _ => by
    unfold Stmt.emit
    exact value.regular_emitEffect ctx
theorem Block.regular_emit : ∀ (block : Block) (exit : Option Label),
    Regular False [] (block.emit ctx exit) fun _ => []
  | ⟨stmts, ret, brk, _, _⟩, exit => by
    rw [Block.emit_eq]
    exact (regular_emitStmts stmts exit).bind fun _ => (regular_emitReturn? ctx ret).bind fun _ =>
      regular_emitBreak? exit brk
theorem regular_emitStmts : ∀ (stmts : List Stmt) (exit : Option Label),
    Regular False [] (emitStmts ctx exit stmts) fun _ => []
  | [], _ => .pure rfl
  | stmt :: stmts, exit => by
    unfold emitStmts
    exact (stmt.regular_emit exit).bind fun _ => regular_emitStmts stmts exit
theorem regular_emitArms (span : Span) : ∀ (blocks : List Block) (conds : List Expr)
    (exit : Option Label), Regular False [] (emitArms ctx exit span conds blocks) fun _ => []
  | _, [], _ => by
    unfold emitArms
    exact .step still_freshLabel fun _ => .fail ⟨_, _, rfl⟩
  | [], cond :: _, _ => by
    unfold emitArms
    exact .step still_freshLabel fun _ => (cond.regular_emitOperand ctx).bind fun _ =>
      .step (still_terminate _) fun _ => .step (still_openBlock _) fun _ => .fail ⟨_, _, rfl⟩
  | block :: blocks, cond :: conds, exit => by
    rw [emitArms_cons]
    refine .step still_freshLabel fun _ => (cond.regular_emitOperand ctx).bind fun _ => ?_
    refine .step (still_terminate _) fun _ => .step (still_openBlock _) fun _ => ?_
    refine (block.regular_emit exit).bind fun _ => .step (still_fallTo _) fun _ => ?_
    have hothers : Regular False [] (emitElse ctx exit span conds blocks) fun _ => [] := by
      unfold emitElse
      split
      · exact regular_emitLast blocks exit
      · exact regular_emitArms span blocks conds exit
    refine .step (still_openBlock _) fun _ => hothers.bind fun _ => .step (still_fallTo _) fun _ => ?_
    split
    · exact .last (still_openBlock _)
    · exact .pure rfl
theorem regular_emitLast : ∀ (blocks : List Block) (exit : Option Label),
    Regular False [] (emitLast ctx exit blocks) fun _ => []
  | [], _ => .pure rfl
  | [block], exit => block.regular_emit exit
  | _ :: next :: blocks, exit => regular_emitLast (next :: blocks) exit
end

theorem regular_emitElse (span : Span) (blocks : List Block) (conds : List Expr)
    (exit : Option Label) : Regular False [] (emitElse ctx exit span conds blocks) fun _ => [] := by
  unfold emitElse
  split
  · exact regular_emitLast ctx blocks exit
  · exact regular_emitArms ctx span blocks conds exit

/-! ## Routines -/

theorem regular_emitCells : ∀ vars : List Local, Regular False [] (emitCells vars) fun _ => []
  | [] => .pure rfl
  | _ :: vars =>
    .check (onlyMissing_demand _ _ _) fun _ => .check (onlyMissing_demand _ _ _) fun ty =>
      .check (ty.onlyMissing_irType _) fun _ => .step (still_emit _) fun _ => regular_emitCells vars

theorem still_emitEpilogue (kind : RoutineKind) : Still (emitEpilogue kind) := by
  unfold emitEpilogue
  split <;> exact still_terminate _

theorem regular_emitRoutine (body : Block) :
    Regular False [] (emitRoutine ctx body) fun _ => [] := by
  refine .step (still_openBlock _) fun _ => (regular_emitCells _).bind fun _ => ?_
  refine (body.regular_emit ctx none).bind fun _ => .step still_falls fun open? => ?_
  split
  · exact .last (still_emitEpilogue _)
  · exact .pure rfl

end

end ScriptLang
