import ScriptLang.Ir.Body
import ScriptLang.Proofs.Passes

/-!
# How emitters end

Whether an emitter fails, and with what, does not depend on where it starts: an expected ending is
stated once and composes along a sequence of emitters.
-/

namespace ScriptLang

variable {c c' : Cursor} {lines : List Line}

namespace Emit

variable {α β : Type}

/-! ## What a composed emitter appends -/

theorem bind_eq_ok {e : Emit α} {f : α → Emit β} {b : β} :
    (e >>= f) c = .ok (b, lines, c') ↔
      ∃ a first c₁ rest, e c = .ok (a, first, c₁) ∧ f a c₁ = .ok (b, rest, c') ∧
        lines = first ++ rest := by
  change Emit.bind e f c = _ ↔ _
  unfold Emit.bind
  cases e c with
  | error halt => simp
  | ok r =>
    obtain ⟨a, first, c₁⟩ := r
    simp only [Except.ok.injEq, Prod.mk.injEq]
    constructor
    · intro h
      split at h
      · cases h
      · rename_i hf
        cases h
        exact ⟨a, first, c₁, _, ⟨rfl, rfl, rfl⟩, hf, rfl⟩
    · rintro ⟨_, _, _, rest, ⟨rfl, rfl, rfl⟩, hf, rfl⟩
      rw [hf]

theorem bind_eq_error {e : Emit α} {f : α → Emit β} {halt : Halt} :
    (e >>= f) c = .error halt ↔
      e c = .error halt ∨ ∃ a lines c₁, e c = .ok (a, lines, c₁) ∧ f a c₁ = .error halt := by
  change Emit.bind e f c = _ ↔ _
  unfold Emit.bind
  cases e c with
  | error halt' => simp
  | ok r =>
    obtain ⟨a, first, c₁⟩ := r
    simp only [Except.ok.injEq, Prod.mk.injEq, reduceCtorEq, false_or]
    constructor
    · intro h
      split at h
      · rename_i hf
        cases h
        exact ⟨a, first, c₁, ⟨rfl, rfl, rfl⟩, hf⟩
      · cases h
    · rintro ⟨_, _, _, ⟨rfl, rfl, rfl⟩, hf⟩
      rw [hf]

theorem pure_eq_ok {a b : α} :
    (pure a : Emit α) c = .ok (b, lines, c') ↔ b = a ∧ lines = [] ∧ c' = c := by
  change Except.ok (a, [], c) = Except.ok (b, lines, c') ↔ _
  simp [eq_comm]

theorem ofExcept_eq_ok {x : Except Halt α} {a : α} :
    ofExcept x c = .ok (a, lines, c') ↔ x = .ok a ∧ lines = [] ∧ c' = c := by
  cases x <;> simp [ofExcept, eq_comm]

theorem capture_eq_ok {e : Emit α} {r : α × List Line} :
    capture e c = .ok (r, lines, c') ↔ e c = .ok (r.1, r.2, c') ∧ lines = [] := by
  unfold capture
  obtain ⟨a, inner⟩ := r
  cases e c with
  | error halt => simp
  | ok r =>
    simp only [Except.ok.injEq, Prod.ext_iff, @eq_comm _ lines]
    constructor
    · rintro ⟨⟨ha, hl⟩, he, hc⟩
      exact ⟨⟨ha, hl, hc⟩, he⟩
    · rintro ⟨⟨ha, hl, hc⟩, he⟩
      exact ⟨⟨ha, hl⟩, he, hc⟩

theorem pure_bind (a : α) (f : α → Emit β) : (pure a >>= f : Emit β) = f a := by
  funext c
  change Emit.bind (Emit.pure a) f c = f a c
  simp only [Emit.bind, Emit.pure]
  cases f a c <;> rfl

/-! ## Expected endings -/

/-- The emitter goes through with a value that satisfies `post` or, where `stop` says so, fails. -/
def Ends (e : Emit α) (stop : Option Halt) (post : α → Prop) : Prop :=
  ∀ c, match stop with
    | none => ∃ a lines c', e c = .ok (a, lines, c') ∧ post a
    | some halt => e c = .error halt

/-- The emitter never fails. -/
abbrev Total (e : Emit α) : Prop :=
  Ends e none fun _ => True

namespace Ends

variable {e : Emit α} {f : α → Emit β} {stop stop' : Option Halt} {post : α → Prop}
  {post' : β → Prop}

theorem pure {a : α} (h : post a) : Ends (pure a) none post :=
  fun c => ⟨a, [], c, rfl, h⟩

theorem fail {halt : Halt} : Ends (fail halt) (some halt) post :=
  fun _ => rfl

theorem ofExcept {x : Except Halt α} {a : α} (hx : x = .ok a) (h : post a) :
    Ends (ofExcept x) none post := by
  intro c
  rw [hx]
  exact ⟨a, [], c, rfl, h⟩

theorem bind (h : Ends e stop post) (hf : ∀ a, post a → Ends (f a) stop' post') :
    Ends (e >>= f) (stop.or stop') post' := by
  intro c
  have hc := h c
  cases stop with
  | some halt => exact bind_eq_error.mpr (Or.inl hc)
  | none =>
    obtain ⟨a, lines, c₁, he, ha⟩ := hc
    have hfc := hf a ha c₁
    cases stop' with
    | some halt => exact bind_eq_error.mpr (Or.inr ⟨a, lines, c₁, he, hfc⟩)
    | none =>
      obtain ⟨b, more, c', hb, hpost⟩ := hfc
      exact ⟨b, lines ++ more, c', bind_eq_ok.mpr ⟨a, lines, c₁, more, he, hb, rfl⟩, hpost⟩

theorem seq (h : Ends e none post) (hf : ∀ a, post a → Ends (f a) stop post') :
    Ends (e >>= f) stop post' :=
  h.bind hf

theorem andThen (h : Ends e stop post) (hf : ∀ a, post a → Ends (f a) none post') :
    Ends (e >>= f) stop post' := by
  have hb := h.bind hf
  rwa [Option.or_none] at hb

theorem capture (h : Ends e stop post) : Ends (capture e) stop fun r => post r.1 := by
  intro c
  have hc := h c
  cases stop with
  | some halt => simp only [Emit.capture, hc]
  | none =>
    obtain ⟨a, lines, c', he, ha⟩ := hc
    exact ⟨(a, lines), [], c', by simp only [Emit.capture, he], ha⟩

end Ends

theorem total_ofExcept {x : Except Halt α} {a : α} (h : x = .ok a) : Total (ofExcept x) :=
  .ofExcept h trivial

theorem total_use (routine : RuntimeRoutine) : Total (use routine) := fun _ => ⟨_, _, _, rfl, trivial⟩

/-- The emitter never fails, and it uses no more of the runtime. -/
def Still (e : Emit α) : Prop :=
  ∀ c, ∃ a lines c', e c = .ok (a, lines, c') ∧ c'.used = c.used

namespace Still

variable {e : Emit α} {f : α → Emit β}

theorem total (h : Still e) : Total e := by
  intro c
  obtain ⟨a, lines, c', he, _⟩ := h c
  exact ⟨a, lines, c', he, trivial⟩

theorem seq {stop : Option Halt} {post : β → Prop} (h : Still e)
    (hf : ∀ a, True → Ends (f a) stop post) : Ends (e >>= f) stop post :=
  h.total.seq hf

theorem pure (a : α) : Still (pure a) :=
  fun c => ⟨a, [], c, rfl, rfl⟩

theorem bind (h : Still e) (hf : ∀ a, Still (f a)) : Still (e >>= f) := by
  intro c
  obtain ⟨a, lines, c₁, he, hused⟩ := h c
  obtain ⟨b, more, c', hb, hused'⟩ := hf a c₁
  exact ⟨b, lines ++ more, c', bind_eq_ok.mpr ⟨a, lines, c₁, more, he, hb, rfl⟩,
    hused'.trans hused⟩

end Still

theorem still_freshReg : Still freshReg := fun _ => ⟨_, _, _, rfl, rfl⟩
theorem still_freshLabel : Still freshLabel := fun _ => ⟨_, _, _, rfl, rfl⟩
theorem still_cursor : Still cursor := fun _ => ⟨_, _, _, rfl, rfl⟩
theorem still_append (lines : List Line) : Still (append lines) := fun _ => ⟨_, _, _, rfl, rfl⟩
theorem still_openBlock (label : Label) : Still (openBlock label) := fun _ => ⟨_, _, _, rfl, rfl⟩

theorem still_ensureOpen : Still ensureOpen := by
  refine still_cursor.bind fun c => ?_
  split
  · exact still_freshLabel.bind fun id => still_openBlock _
  · exact .pure _

theorem still_emit (instr : Instr) : Still (emit instr) :=
  still_ensureOpen.bind fun _ => still_append _

theorem still_terminate (instr : Instr) : Still (terminate instr) :=
  (still_emit instr).bind fun _ _ => ⟨_, _, _, rfl, rfl⟩

end Emit

open Emit

theorem still_falls : Still falls :=
  still_cursor.bind fun _ => .pure _

theorem still_fallTo (target : Label) : Still (fallTo target) := by
  refine still_falls.bind fun open? => ?_
  cases open?
  · exact .pure _
  · exact (still_terminate _).bind fun _ => .pure _

theorem still_emitLoopHead (id : Nat) (var cmp : ValueName) (incoming : List (Operand × Label))
    (hi : Operand) : Still (emitLoopHead id var cmp incoming hi) :=
  (still_openBlock _).bind fun _ => (still_emit _).bind fun _ =>
    (still_emit _).bind fun _ => still_terminate _

theorem still_emitLoopTail (id : Nat) (var next : ValueName) : Still (emitLoopTail id var next) := by
  refine still_falls.bind fun open? => ?_
  cases open?
  · exact .pure _
  · exact (still_emit _).bind fun _ => still_cursor.bind fun _ =>
      (still_terminate _).bind fun _ => .pure _

theorem Value.still_toOperand (value : Value) : Still value.toOperand := by
  cases value with
  | operand o => exact .pure _
  | pending computation =>
    exact still_freshReg.bind fun _ => (still_emit _).bind fun _ => .pure _

/-! ## The parts of blocks and branches -/

/-- The `return` of a block, if it has one. -/
def emitReturn? (ctx : BodyContext) : Option Return → Emit Unit
  | some ret => ret.emit ctx
  | none => pure ()

/-- The `break` of a block, if it has one. -/
def emitBreak? (exit : Option Label) : Option Break → Emit Unit
  | some brk => brk.emit exit
  | none => pure ()

theorem Block.emit_eq (ctx : BodyContext) (exit : Option Label) (stmts : List Stmt)
    (ret : Option Return) (brk : Option Break) (span : Span) (scope : Option ScopeId) :
    (Block.mk stmts ret brk span scope).emit ctx exit = (do
      emitStmts ctx exit stmts
      emitReturn? ctx ret
      emitBreak? exit brk) := by
  unfold Block.emit
  congr 1
  funext _
  cases ret with
  | none => exact (pure_bind () fun _ => emitBreak? exit brk).symm
  | some ret => rfl

/-- What stands in the `else` of a condition: the other conditions, or the last block. -/
def emitElse (ctx : BodyContext) (exit : Option Label) (span : Span) (conds : List Expr)
    (blocks : List Block) : Emit Unit :=
  if conds.isEmpty then emitLast ctx exit blocks else emitArms ctx exit span conds blocks

theorem emitArms_cons (ctx : BodyContext) (exit : Option Label) (span : Span) (cond : Expr)
    (conds : List Expr) (block : Block) (blocks : List Block) :
    emitArms ctx exit span (cond :: conds) (block :: blocks) = (do
      let id ← freshLabel
      let cond ← cond.emitOperand ctx
      terminate (.condBr cond (.thenArm id) (.elseArm id))
      openBlock (.thenArm id)
      block.emit ctx exit
      let thenFalls ← fallTo (.cont id)
      openBlock (.elseArm id)
      emitElse ctx exit span conds blocks
      let elseFalls ← fallTo (.cont id)
      if thenFalls || elseFalls then
        openBlock (.cont id)) := by
  unfold emitArms emitElse
  cases conds <;> rfl

end ScriptLang
