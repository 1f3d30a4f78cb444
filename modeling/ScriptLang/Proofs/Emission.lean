import ScriptLang.Proofs.Emitters

/-!
# What emitters append

The lines that each construct appends and the cursor it leaves, in terms of what its parts append.
Everything proved about emitted code starts from these.
-/

namespace ScriptLang

variable {c : Cursor} {cond : Expr} {span : Span}

/-! ## Moves of the cursor -/

namespace Cursor

/-- The label that opens a block in place of one that has ended. -/
def lead (c : Cursor) : List Line :=
  if c.terminated then [.label (.dead c.nextLabel)] else []

/-- The cursor once a block is open. -/
def opened (c : Cursor) : Cursor :=
  if c.terminated then
    { c with block := .dead c.nextLabel, terminated := false, nextLabel := c.nextLabel + 1 }
  else c

/-- The lines that an instruction is appended with. -/
def line (c : Cursor) (i : Instr) : List Line :=
  c.lead ++ [.instr i]

def stopped (c : Cursor) : Cursor :=
  { c with terminated := true }

def enter (c : Cursor) (label : Label) : Cursor :=
  { c with block := label, terminated := false }

/-- The cursor after `n` labels were numbered. -/
def skipLabels (c : Cursor) (n : Nat) : Cursor :=
  { c with nextLabel := c.nextLabel + n }

/-- The cursor after `n` registers were numbered. -/
def skipRegs (c : Cursor) (n : Nat) : Cursor :=
  { c with nextReg := c.nextReg + n }

/-- The jump to `target` from a block that has not ended. -/
def jump (c : Cursor) (target : Label) : List Line :=
  if c.terminated then [] else [.instr (.br target)]

theorem with_terminated {b : Bool} (h : c.terminated = b) : { c with terminated := b } = c := by
  subst h
  rfl

@[simp] theorem opened_terminated (c : Cursor) : c.opened.terminated = false := by
  unfold opened
  cases h : c.terminated <;> simp [h]

theorem opened_of_open (h : c.terminated = false) : c.opened = c := by
  simp [opened, h]

theorem lead_of_open (h : c.terminated = false) : c.lead = [] := by
  simp [lead, h]

end Cursor

namespace Emit

variable (c : Cursor)

theorem freshLabel_apply : freshLabel c = .ok (c.nextLabel, [], c.skipLabels 1) := rfl

theorem freshReg_apply : freshReg c = .ok (.reg c.nextReg, [], c.skipRegs 1) := rfl

theorem cursor_apply : cursor c = .ok (c, [], c) := rfl

theorem openBlock_apply (label : Label) :
    openBlock label c = .ok ((), [.label label], c.enter label) := rfl

theorem ensureOpen_apply : ensureOpen c = .ok ((), c.lead, c.opened) := by
  refine bind_eq_ok.mpr ⟨c, [], c, c.lead, rfl, ?_, rfl⟩
  simp only [Cursor.lead, Cursor.opened]
  cases c.terminated <;> rfl

theorem emit_apply (i : Instr) : emit i c = .ok ((), c.line i, c.opened) :=
  bind_eq_ok.mpr ⟨(), c.lead, c.opened, _, ensureOpen_apply c, rfl, rfl⟩

theorem terminate_apply (i : Instr) : terminate i c = .ok ((), c.line i, c.opened.stopped) :=
  bind_eq_ok.mpr ⟨(), c.line i, c.opened, [], emit_apply c i, rfl, (List.append_nil _).symm⟩

end Emit

open Emit

theorem falls_apply (c : Cursor) : falls c = .ok (!c.terminated, [], c) :=
  rfl

theorem fallTo_apply (target : Label) (c : Cursor) :
    fallTo target c = .ok (!c.terminated, c.jump target, c.stopped) := by
  refine Emit.bind_eq_ok.mpr ⟨!c.terminated, [], c, c.jump target, falls_apply c, ?_, rfl⟩
  cases h : c.terminated with
  | true =>
    rw [Cursor.stopped, Cursor.with_terminated h, Cursor.jump, h]
    rfl
  | false =>
    refine Emit.bind_eq_ok.mpr ⟨(), c.line (.br target), c.opened.stopped, [],
      terminate_apply c _, ?_, ?_⟩
    · rw [Cursor.opened_of_open h]
      rfl
    · simp [Cursor.jump, Cursor.line, Cursor.lead_of_open h, h]

/-- The lines that bring a counting loop to its next turn, and the block they stand in. -/
def Cursor.loopTail (c : Cursor) (id : Nat) (var next : ValueName) : List Line :=
  if c.terminated then []
  else [.instr (.assign next (.binary .add .i64 (.const (.int 1)) (.value var))),
    .instr (.br (.head id))]

def Cursor.tailBlock (c : Cursor) : Option Label :=
  if c.terminated then none else some c.block

theorem emitLoopTail_apply (id : Nat) (var next : ValueName) (c : Cursor) :
    emitLoopTail id var next c = .ok (c.tailBlock, c.loopTail id var next, c.stopped) := by
  refine Emit.bind_eq_ok.mpr ⟨!c.terminated, [], c, c.loopTail id var next, falls_apply c, ?_, rfl⟩
  cases h : c.terminated with
  | true =>
    rw [Cursor.stopped, Cursor.with_terminated h, Cursor.tailBlock, Cursor.loopTail, h]
    rfl
  | false =>
    rw [Cursor.tailBlock, Cursor.loopTail, h]
    have he (i : Instr) : emit i c = .ok ((), [.instr i], c) := by
      rw [emit_apply, Cursor.line, Cursor.lead_of_open h, Cursor.opened_of_open h]
      rfl
    have ht (i : Instr) : terminate i c = .ok ((), [.instr i], c.stopped) := by
      rw [terminate_apply, Cursor.line, Cursor.lead_of_open h, Cursor.opened_of_open h]
      rfl
    refine Emit.bind_eq_ok.mpr ⟨(), _, c, _, he _, ?_, rfl⟩
    refine Emit.bind_eq_ok.mpr ⟨c, [], c, _, rfl, ?_, rfl⟩
    exact Emit.bind_eq_ok.mpr ⟨(), _, c.stopped, [], ht _, rfl, rfl⟩

/-- The lines at the head of a counting loop. -/
def loopHead (id : Nat) (var cmp : ValueName) (incoming : List (Operand × Label)) (hi : Operand) :
    List Line :=
  [.label (.head id), .instr (.assign var (.phi incoming)),
    .instr (.assign cmp (.binary (.icmp .sle) .i64 (.value var) hi)),
    .instr (.condBr (.value cmp) (.body id) (.cont id))]

theorem emitLoopHead_apply (id : Nat) (var cmp : ValueName) (incoming : List (Operand × Label))
    (hi : Operand) (c : Cursor) :
    emitLoopHead id var cmp incoming hi c =
      .ok ((), loopHead id var cmp incoming hi, (c.enter (.head id)).stopped) := by
  refine Emit.bind_eq_ok.mpr ⟨(), _, c.enter (.head id), _, rfl, ?_, rfl⟩
  refine Emit.bind_eq_ok.mpr ⟨(), _, _, _, emit_apply _ _, ?_, rfl⟩
  refine Emit.bind_eq_ok.mpr ⟨(), _, _, _, emit_apply _ _, ?_, rfl⟩
  exact terminate_apply _ _

/-! ## Control flow -/

theorem Emit.bind_eq_ok_of_apply {α β : Type} {e : Emit α} {f : α → Emit β} {a : α} {b : β}
    {first lines : List Line} {c₁ c' : Cursor} (he : e c = .ok (a, first, c₁))
    (h : (e >>= f) c = .ok (b, lines, c')) :
    ∃ rest, f a c₁ = .ok (b, rest, c') ∧ lines = first ++ rest := by
  obtain ⟨a', first', c₁', rest, he', hf, rfl⟩ := Emit.bind_eq_ok.mp h
  rw [he] at he'
  cases he'
  exact ⟨rest, hf, rfl⟩

section

variable {ctx : BodyContext} {exit : Option Label} {c c' : Cursor} {lines : List Line}

theorem emit_while_eq_ok {body : Block}
    (h : (Stmt.whileLoop cond body span).emit ctx exit c = .ok ((), lines, c')) :
    ∃ id operand condLines c₁ bodyLines c₂, id = c.nextLabel ∧
      cond.emitOperand ctx ((c.skipLabels 1).opened.stopped.enter (.head id)) =
        .ok (operand, condLines, c₁) ∧
      body.emit ctx (some (.cont id)) (c₁.opened.stopped.enter (.body id)) =
        .ok ((), bodyLines, c₂) ∧
      lines = (c.skipLabels 1).line (.br (.head id)) ++ ([.label (.head id)] ++ (condLines ++
        (c₁.line (.condBr operand (.body id) (.cont id)) ++ ([.label (.body id)] ++ (bodyLines ++
          (c₂.jump (.head id) ++ [.label (.cont id)])))))) ∧
      c' = c₂.stopped.enter (.cont id) := by
  unfold Stmt.emit at h
  obtain ⟨_, h₁, rfl⟩ := Emit.bind_eq_ok_of_apply (freshLabel_apply c) h
  obtain ⟨_, h₂, rfl⟩ := Emit.bind_eq_ok_of_apply (terminate_apply _ _) h₁
  obtain ⟨_, h₃, rfl⟩ := Emit.bind_eq_ok_of_apply (openBlock_apply _ _) h₂
  obtain ⟨operand, condLines, c₁, _, hcond, h₄, rfl⟩ := Emit.bind_eq_ok.mp h₃
  obtain ⟨_, h₅, rfl⟩ := Emit.bind_eq_ok_of_apply (terminate_apply _ _) h₄
  obtain ⟨_, h₆, rfl⟩ := Emit.bind_eq_ok_of_apply (openBlock_apply _ _) h₅
  obtain ⟨_, bodyLines, c₂, _, hbody, h₇, rfl⟩ := Emit.bind_eq_ok.mp h₆
  obtain ⟨_, h₈, rfl⟩ := Emit.bind_eq_ok_of_apply (fallTo_apply _ _) h₇
  cases h₈
  exact ⟨_, operand, condLines, c₁, bodyLines, c₂, rfl, hcond, hbody, rfl, rfl⟩

theorem emitArms_eq_ok {conds : List Expr} {block : Block} {blocks : List Block}
    (h : emitArms ctx exit span (cond :: conds) (block :: blocks) c = .ok ((), lines, c')) :
    ∃ id operand condLines c₁ thenLines c₂ elseLines c₃, id = c.nextLabel ∧
      cond.emitOperand ctx (c.skipLabels 1) = .ok (operand, condLines, c₁) ∧
      block.emit ctx exit (c₁.opened.stopped.enter (.thenArm id)) = .ok ((), thenLines, c₂) ∧
      emitElse ctx exit span conds blocks (c₂.stopped.enter (.elseArm id)) =
        .ok ((), elseLines, c₃) ∧
      lines = condLines ++ (c₁.line (.condBr operand (.thenArm id) (.elseArm id)) ++
        ([.label (.thenArm id)] ++ (thenLines ++ (c₂.jump (.cont id) ++
          ([.label (.elseArm id)] ++ (elseLines ++ (c₃.jump (.cont id) ++
            if !c₂.terminated || !c₃.terminated then [.label (.cont id)] else []))))))) ∧
      c' = if !c₂.terminated || !c₃.terminated then c₃.stopped.enter (.cont id)
        else c₃.stopped := by
  rw [emitArms_cons] at h
  obtain ⟨_, h₁, rfl⟩ := Emit.bind_eq_ok_of_apply (freshLabel_apply c) h
  obtain ⟨operand, condLines, c₁, _, hcond, h₂, rfl⟩ := Emit.bind_eq_ok.mp h₁
  obtain ⟨_, h₃, rfl⟩ := Emit.bind_eq_ok_of_apply (terminate_apply _ _) h₂
  obtain ⟨_, h₄, rfl⟩ := Emit.bind_eq_ok_of_apply (openBlock_apply _ _) h₃
  obtain ⟨_, thenLines, c₂, _, hthen, h₅, rfl⟩ := Emit.bind_eq_ok.mp h₄
  obtain ⟨_, h₆, rfl⟩ := Emit.bind_eq_ok_of_apply (fallTo_apply _ _) h₅
  obtain ⟨_, h₇, rfl⟩ := Emit.bind_eq_ok_of_apply (openBlock_apply _ _) h₆
  obtain ⟨_, elseLines, c₃, _, helse, h₈, rfl⟩ := Emit.bind_eq_ok.mp h₇
  obtain ⟨_, h₉, rfl⟩ := Emit.bind_eq_ok_of_apply (fallTo_apply _ _) h₈
  refine ⟨_, operand, condLines, c₁, thenLines, c₂, elseLines, c₃, rfl, hcond, hthen, helse, ?_⟩
  cases hfalls : (!c₂.terminated || !c₃.terminated) with
  | true =>
    rw [hfalls] at h₉
    cases h₉
    exact ⟨rfl, rfl⟩
  | false =>
    rw [hfalls] at h₉
    cases h₉
    exact ⟨rfl, rfl⟩

theorem emitArms_no_cond {blocks : List Block} {r : Unit × List Line × Cursor} :
    emitArms ctx exit span [] blocks c ≠ .ok r := by
  intro h
  unfold emitArms at h
  obtain ⟨_, h₁, _⟩ := Emit.bind_eq_ok_of_apply (freshLabel_apply c) h
  cases h₁

theorem emitArms_no_block {conds : List Expr} {r : Unit × List Line × Cursor} :
    emitArms ctx exit span (cond :: conds) [] c ≠ .ok r := by
  intro h
  unfold emitArms at h
  obtain ⟨_, h₁, _⟩ := Emit.bind_eq_ok_of_apply (freshLabel_apply c) h
  obtain ⟨_, _, _, _, _, h₂, _⟩ := Emit.bind_eq_ok.mp h₁
  obtain ⟨_, h₃, _⟩ := Emit.bind_eq_ok_of_apply (terminate_apply _ _) h₂
  obtain ⟨_, h₄, _⟩ := Emit.bind_eq_ok_of_apply (openBlock_apply _ _) h₃
  cases h₄

theorem capture_turn_eq_ok {id : Nat} {body : Block} {var next : ValueName}
    {r : Option Label × List Line}
    (h : capture (do
      openBlock (.body id)
      body.emit ctx (some (.cont id))
      emitLoopTail id var next) c = .ok (r, lines, c')) :
    ∃ bodyLines c₁, body.emit ctx (some (.cont id)) (c.enter (.body id)) =
        .ok ((), bodyLines, c₁) ∧
      r = (c₁.tailBlock, [.label (.body id)] ++ (bodyLines ++ c₁.loopTail id var next)) ∧
      lines = [] ∧ c' = c₁.stopped := by
  obtain ⟨hturn, hlines⟩ := capture_eq_ok.mp h
  obtain ⟨_, h₁, hr⟩ := Emit.bind_eq_ok_of_apply (openBlock_apply _ _) hturn
  obtain ⟨_, bodyLines, c₁, _, hbody, h₂, rfl⟩ := Emit.bind_eq_ok.mp h₁
  rw [emitLoopTail_apply] at h₂
  obtain ⟨htail, hback, hc⟩ := Prod.mk.inj (Except.ok.inj h₂) |>.imp_right Prod.mk.inj
  rw [← hback] at hr
  exact ⟨bodyLines, c₁, hbody, Prod.ext htail.symm hr, hlines, hc.symm⟩

theorem emit_for_eq_ok {var : String} {lo hi : Expr} {body : Block} {handle : Option DeclId}
    (h : (Stmt.forLoop var lo hi body span handle).emit ctx exit c = .ok ((), lines, c')) :
    ∃ decl start loLines c₁ limit hiLines c₂ bodyLines c₃ id counter next cmp,
      handle = some decl ∧ counter = ValueName.variable var decl ∧ id = c₂.opened.nextLabel ∧
      next = ValueName.reg c₂.opened.nextReg ∧ cmp = ValueName.reg (c₂.opened.nextReg + 1) ∧
      lo.emitOperand ctx c = .ok (start, loLines, c₁) ∧
      hi.emitOperand ctx c₁ = .ok (limit, hiLines, c₂) ∧
      body.emit ctx (some (.cont id))
        (((c₂.opened.skipLabels 1).skipRegs 2).stopped.enter (.body id)) =
          .ok ((), bodyLines, c₃) ∧
      lines = loLines ++ (hiLines ++ (c₂.line (.br (.head id)) ++
        (loopHead id counter cmp
            ((start, c₂.opened.block) ::
              c₃.tailBlock.toList.map fun tail => (Operand.value next, tail)) limit ++
          ([.label (.body id)] ++ (bodyLines ++ (c₃.loopTail id counter next ++
            [.label (.cont id)])))))) ∧
      c' = c₃.stopped.enter (.cont id) := by
  unfold Stmt.emit at h
  obtain ⟨decl, _, _, _, hof, h₁, rfl⟩ := Emit.bind_eq_ok.mp h
  obtain ⟨hdecl, rfl, rfl⟩ := ofExcept_eq_ok.mp hof
  obtain ⟨start, loLines, c₁, _, hlo, h₂, rfl⟩ := Emit.bind_eq_ok.mp h₁
  obtain ⟨limit, hiLines, c₂, _, hhi, h₃, rfl⟩ := Emit.bind_eq_ok.mp h₂
  obtain ⟨_, h₄, rfl⟩ := Emit.bind_eq_ok_of_apply (ensureOpen_apply _) h₃
  obtain ⟨_, h₅, rfl⟩ := Emit.bind_eq_ok_of_apply (cursor_apply _) h₄
  obtain ⟨_, h₆, rfl⟩ := Emit.bind_eq_ok_of_apply (freshLabel_apply _) h₅
  obtain ⟨_, h₇, rfl⟩ := Emit.bind_eq_ok_of_apply (freshReg_apply _) h₆
  obtain ⟨_, h₈, rfl⟩ := Emit.bind_eq_ok_of_apply (freshReg_apply _) h₇
  obtain ⟨_, h₉, rfl⟩ := Emit.bind_eq_ok_of_apply (terminate_apply _ _) h₈
  have hopen : (((c₂.opened.skipLabels 1).skipRegs 1).skipRegs 1).terminated = false :=
    c₂.opened_terminated
  rw [Cursor.opened_of_open hopen] at h₉
  obtain ⟨r, _, c₄, _, hcapture, h₁₀, rfl⟩ := Emit.bind_eq_ok.mp h₉
  obtain ⟨bodyLines, c₃, hbody, rfl, rfl, rfl⟩ := capture_turn_eq_ok hcapture
  obtain ⟨_, h₁₁, rfl⟩ := Emit.bind_eq_ok_of_apply (emitLoopHead_apply _ _ _ _ _ _) h₁₀
  obtain ⟨_, h₁₂, rfl⟩ := Emit.bind_eq_ok_of_apply rfl h₁₁
  cases h₁₂
  refine ⟨decl, start, loLines, c₁, limit, hiLines, c₂, bodyLines, c₃, _, _, _, _,
    demand_eq_ok.mp hdecl, rfl, rfl, rfl, rfl, hlo, hhi, hbody, ?_, rfl⟩
  rw [Cursor.line, Cursor.lead_of_open hopen, Cursor.line]
  simp only [List.nil_append, List.append_assoc]
  rfl

end

end ScriptLang
