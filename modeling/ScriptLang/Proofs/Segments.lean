import ScriptLang.Proofs.Blocks
import ScriptLang.Proofs.Emission
import ScriptLang.Proofs.Resolved

/-!
# Segments of emitted code

What the lines between two positions of the cursor look like, whatever the tree: blocks are opened
and ended in turn, labels and registers are new, and control goes to labels of the segment or to
labels that its surroundings allow. A construct numbers its labels before it emits its parts, so a
segment lists the labels and values that were numbered before it.
-/

namespace ScriptLang

variable {c c' c₁ c₂ : Cursor} {lines : List Line} {sites : List Site} {id n : Nat}
  {exit : Option Label}

/-! ## Fresh numbers -/

section

variable {α : Type} {number : α → Option Nat} {lo mid hi : Nat} {xs ys : List α}

/-- Distinct members with numbers from `lo` to below `hi`. -/
structure Fresh (number : α → Option Nat) (lo hi : Nat) (xs : List α) : Prop where
  nodup : xs.Nodup
  range : ∀ x ∈ xs, ∃ n, number x = some n ∧ lo ≤ n ∧ n < hi

theorem Fresh.nil : Fresh number lo hi [] :=
  ⟨List.nodup_nil, fun _ hm => nomatch hm⟩

theorem Fresh.same (hd : xs.Nodup) (hn : ∀ x ∈ xs, number x = some n) : Fresh number n (n + 1) xs :=
  ⟨hd, fun x hx => ⟨n, hn x hx, Nat.le_refl n, Nat.lt_succ_self n⟩⟩

theorem Fresh.mono {lo' hi' : Nat} (h : Fresh number lo hi xs) (hlo : lo' ≤ lo) (hhi : hi ≤ hi') :
    Fresh number lo' hi' xs := by
  refine ⟨h.nodup, ?_⟩
  intro x hx
  obtain ⟨n, hn, h₁, h₂⟩ := h.range x hx
  exact ⟨n, hn, Nat.le_trans hlo h₁, Nat.lt_of_lt_of_le h₂ hhi⟩

theorem Fresh.append (h₁ : Fresh number lo mid xs) (h₂ : Fresh number mid hi ys) (hlo : lo ≤ mid)
    (hhi : mid ≤ hi) : Fresh number lo hi (xs ++ ys) := by
  refine ⟨?_, ?_⟩
  · refine List.nodup_append.mpr ⟨h₁.nodup, h₂.nodup, ?_⟩
    rintro x hx y hy rfl
    obtain ⟨n, hn, _, hlt⟩ := h₁.range x hx
    obtain ⟨m, hm, hle, _⟩ := h₂.range x hy
    rw [hn, Option.some.injEq] at hm
    omega
  · intro x hx
    rcases List.mem_append.mp hx with hx | hx
    · exact (h₁.mono (Nat.le_refl lo) hhi).range x hx
    · exact (h₂.mono hlo (Nat.le_refl hi)).range x hx

theorem Fresh.perm (h : Fresh number lo hi xs) (hp : xs.Perm ys) : Fresh number lo hi ys :=
  ⟨hp.nodup_iff.mp h.nodup, fun x hx => h.range x (hp.mem_iff.mpr hx)⟩

end

def ValueName.number? : ValueName → Option Nat
  | .reg n => some n
  | .variable _ _ => none

/-! ## Segments -/

/-- Control can go on at the label: neither `entry` nor an unreachable block. -/
def Label.IsTarget (l : Label) : Prop :=
  l ≠ .entry ∧ ∀ id, l ≠ .dead id

/-- The lines take the cursor from `c` to `c'`. All labels but those of `own` and all values but
those of `defs` were numbered on the way. -/
structure Segment (allowed : Label → Prop) (own : List Label) (defs : List ValueName)
    (c : Cursor) (lines : List Line) (c' : Cursor) : Prop where
  fill : fill c.terminated lines = some c'.terminated
  block : c'.block = blockAfter c.block lines
  labels_le : c.nextLabel ≤ c'.nextLabel
  regs_le : c.nextReg ≤ c'.nextReg
  labels : ∃ fresh, Fresh Label.number? c.nextLabel c'.nextLabel fresh ∧
    (labelsOf lines).Perm (own ++ fresh)
  values : ∃ fresh, Fresh ValueName.number? c.nextReg c'.nextReg fresh ∧
    (definedIn (instrsOf lines)).Perm (defs ++ fresh)
  targets : ∀ l ∈ targetsOf lines, l.IsTarget ∧ (l ∈ labelsOf lines ∨ allowed l)

namespace Segment

variable {allowed allowed' : Label → Prop} {own own₁ own₂ : List Label}
  {defs defs₁ defs₂ : List ValueName} {c c₁ c' : Cursor} {lines lines₁ lines₂ : List Line}

theorem nil : Segment allowed [] [] c [] c :=
  ⟨rfl, rfl, Nat.le_refl _, Nat.le_refl _, ⟨[], .nil, .refl _⟩, ⟨[], .nil, .refl _⟩,
    fun _ hm => nomatch hm⟩

theorem perm_append {α : Type} {xs ys own₁ own₂ fresh₁ fresh₂ : List α}
    (h₁ : xs.Perm (own₁ ++ fresh₁)) (h₂ : ys.Perm (own₂ ++ fresh₂)) :
    (xs ++ ys).Perm (own₁ ++ own₂ ++ (fresh₁ ++ fresh₂)) := by
  refine (h₁.append h₂).trans ?_
  rw [List.append_assoc, List.append_assoc]
  refine List.Perm.append_left own₁ ?_
  rw [← List.append_assoc, ← List.append_assoc]
  exact List.Perm.append_right fresh₂ List.perm_append_comm

theorem append (h₁ : Segment allowed own₁ defs₁ c lines₁ c₁)
    (h₂ : Segment allowed own₂ defs₂ c₁ lines₂ c') :
    Segment allowed (own₁ ++ own₂) (defs₁ ++ defs₂) c (lines₁ ++ lines₂) c' where
  fill := by rw [fill_append, h₁.fill, Option.bind_some, h₂.fill]
  block := by rw [blockAfter_append, ← h₁.block, h₂.block]
  labels_le := Nat.le_trans h₁.labels_le h₂.labels_le
  regs_le := Nat.le_trans h₁.regs_le h₂.regs_le
  labels := by
    obtain ⟨fresh₁, hf₁, hp₁⟩ := h₁.labels
    obtain ⟨fresh₂, hf₂, hp₂⟩ := h₂.labels
    refine ⟨fresh₁ ++ fresh₂, hf₁.append hf₂ h₁.labels_le h₂.labels_le, ?_⟩
    rw [labelsOf_append]
    exact perm_append hp₁ hp₂
  values := by
    obtain ⟨fresh₁, hf₁, hp₁⟩ := h₁.values
    obtain ⟨fresh₂, hf₂, hp₂⟩ := h₂.values
    refine ⟨fresh₁ ++ fresh₂, hf₁.append hf₂ h₁.regs_le h₂.regs_le, ?_⟩
    rw [instrsOf_append, definedIn_append]
    exact perm_append hp₁ hp₂
  targets := by
    intro l hl
    rw [targetsOf_append] at hl
    rw [labelsOf_append]
    rcases List.mem_append.mp hl with hl | hl
    · obtain ⟨ht, hl⟩ := h₁.targets l hl
      exact ⟨ht, hl.imp_left (List.mem_append_left _)⟩
    · obtain ⟨ht, hl⟩ := h₂.targets l hl
      exact ⟨ht, hl.imp_left (List.mem_append_right _)⟩

/-- Targets that the surroundings no longer allow must be labels of the segment. -/
theorem resolve (h : Segment allowed' own defs c lines c')
    (ha : ∀ l, allowed' l → l ∈ labelsOf lines ∨ allowed l) :
    Segment allowed own defs c lines c' := by
  refine ⟨h.fill, h.block, h.labels_le, h.regs_le, h.labels, h.values, ?_⟩
  intro l hl
  obtain ⟨ht, hl⟩ := h.targets l hl
  exact ⟨ht, hl.elim Or.inl (ha l)⟩

theorem weaken (h : Segment allowed' own defs c lines c') (ha : ∀ l, allowed' l → allowed l) :
    Segment allowed own defs c lines c' :=
  h.resolve fun l hl => Or.inr (ha l hl)

/-- Labels numbered at the start of the segment count as numbered on the way. -/
theorem numberLabels (h : Segment allowed own defs (c.skipLabels n) lines c')
    (hown : own.Perm (own₁ ++ own₂)) (hf : Fresh Label.number? c.nextLabel (c.nextLabel + n) own₂) :
    Segment allowed own₁ defs c lines c' := by
  refine ⟨h.fill, h.block, Nat.le_trans (Nat.le_add_right _ n) h.labels_le, h.regs_le, ?_, h.values,
    h.targets⟩
  obtain ⟨fresh, hfresh, hp⟩ := h.labels
  refine ⟨own₂ ++ fresh, hf.append hfresh (Nat.le_add_right _ n) h.labels_le, ?_⟩
  rw [← List.append_assoc]
  exact hp.trans (hown.append_right fresh)

theorem numberRegs (h : Segment allowed own defs (c.skipRegs n) lines c')
    (hdefs : defs.Perm (defs₁ ++ defs₂))
    (hf : Fresh ValueName.number? c.nextReg (c.nextReg + n) defs₂) :
    Segment allowed own defs₁ c lines c' := by
  refine ⟨h.fill, h.block, h.labels_le, Nat.le_trans (Nat.le_add_right _ n) h.regs_le, h.labels, ?_,
    h.targets⟩
  obtain ⟨fresh, hfresh, hp⟩ := h.values
  refine ⟨defs₂ ++ fresh, hf.append hfresh (Nat.le_add_right _ n) h.regs_le, ?_⟩
  rw [← List.append_assoc]
  exact hp.trans (hdefs.append_right fresh)

/-! ## Single steps -/

theorem openBlock (label : Label) (h : c.terminated = true) :
    Segment allowed [label] [] c [.label label] (c.enter label) where
  fill := by rw [h]; rfl
  block := rfl
  labels_le := Nat.le_refl _
  regs_le := Nat.le_refl _
  labels := ⟨[], .nil, .refl _⟩
  values := ⟨[], .nil, .refl _⟩
  targets := fun _ hm => nomatch hm

theorem lead (c : Cursor) : Segment allowed [] [] c c.lead c.opened := by
  cases h : c.terminated with
  | false =>
    rw [Cursor.lead_of_open h, Cursor.opened_of_open h]
    exact .nil
  | true =>
    have hopened : c.opened = (c.skipLabels 1).enter (.dead c.nextLabel) := by
      simp [Cursor.opened, h, Cursor.skipLabels, Cursor.enter]
    have hlead : c.lead = [.label (.dead c.nextLabel)] := by simp [Cursor.lead, h]
    rw [hopened, hlead]
    refine (openBlock _ ?_).numberLabels (.refl _) (.same (by simp) (by simp [Label.number?]))
    exact h

theorem instr (i : Instr) (h : c.terminated = false)
    (hi : ∀ l ∈ i.targets, l.IsTarget ∧ allowed l) :
    Segment allowed [] i.dest?.toList c [.instr i] { c with terminated := i.isTerminator } where
  fill := by rw [h]; rfl
  block := rfl
  labels_le := Nat.le_refl _
  regs_le := Nat.le_refl _
  labels := ⟨[], .nil, .refl _⟩
  values := by
    refine ⟨[], .nil, ?_⟩
    rw [List.append_nil, instrsOf_instr, definedIn_cons]
    exact .of_eq (List.append_nil _)
  targets := by
    intro l hl
    have hl : l ∈ i.targets := by simpa using hl
    exact ⟨(hi l hl).1, Or.inr (hi l hl).2⟩

theorem emit (c : Cursor) {i : Instr} (hi : i.isTerminator = false) :
    Segment allowed [] i.dest?.toList c (c.line i) c.opened := by
  have ht : ∀ l ∈ i.targets, l.IsTarget ∧ allowed l := by
    rw [Instr.targets_of_not_terminator hi]
    exact fun _ hm => nomatch hm
  have h := (lead c).append (instr i c.opened_terminated ht)
  rw [hi, Cursor.with_terminated c.opened_terminated] at h
  exact h

theorem terminate (c : Cursor) {i : Instr} (hi : i.isTerminator = true)
    (ht : ∀ l ∈ i.targets, l.IsTarget ∧ allowed l) :
    Segment allowed [] [] c (c.line i) c.opened.stopped := by
  have h := (lead c).append (instr i c.opened_terminated ht)
  rw [hi, Instr.dest?_of_terminator hi] at h
  exact h

theorem br (c : Cursor) {target : Label} (ht : target.IsTarget) (ha : allowed target) :
    Segment allowed [] [] c (c.line (.br target)) c.opened.stopped := by
  refine terminate c rfl ?_
  intro l hl
  rw [List.mem_singleton.mp hl]
  exact ⟨ht, ha⟩

theorem condBr (c : Cursor) (cond : Operand) {thenTo elseTo : Label} (ht : thenTo.IsTarget)
    (he : elseTo.IsTarget) (hat : allowed thenTo) (hae : allowed elseTo) :
    Segment allowed [] [] c (c.line (.condBr cond thenTo elseTo)) c.opened.stopped := by
  refine terminate c rfl ?_
  intro l hl
  rcases List.mem_cons.mp hl with rfl | hl
  · exact ⟨ht, hat⟩
  · rw [List.mem_singleton.mp hl]
    exact ⟨he, hae⟩

theorem jump (c : Cursor) {target : Label} (ht : target.IsTarget)
    (ha : c.terminated = false → allowed target) :
    Segment allowed [] [] c (c.jump target) c.stopped := by
  cases h : c.terminated with
  | true =>
    rw [Cursor.stopped, Cursor.with_terminated h, Cursor.jump, h]
    exact .nil
  | false =>
    have hb := br c ht (ha h)
    rw [Cursor.line, Cursor.lead_of_open h, Cursor.opened_of_open h] at hb
    rw [Cursor.jump, h]
    exact hb

theorem assign (c : Cursor) (computation : Computation) :
    Segment allowed [] [] c
      ((c.skipRegs 1).line (.assign (.reg c.nextReg) computation)) (c.skipRegs 1).opened :=
  (emit (c.skipRegs 1) rfl).numberRegs (.refl _)
    (.same (by simp) (by simp [ValueName.number?]))

end Segment

/-! ## Expressions -/

/-- Everything that the emitter appends is new. -/
def Emit.Straight {α : Type} (e : Emit α) : Prop :=
  ∀ (allowed : Label → Prop) (c : Cursor) (a : α) (lines : List Line) (c' : Cursor),
    e c = .ok (a, lines, c') → Segment allowed [] [] c lines c'

namespace Emit.Straight

variable {α β : Type}

theorem pure (a : α) : Straight (pure a) := by
  intro allowed c b lines c' h
  obtain ⟨rfl, rfl, rfl⟩ := pure_eq_ok.mp h
  exact .nil

theorem fail (halt : Halt) : Straight (fail halt : Emit α) := by
  intro allowed c b lines c' h
  cases h

theorem ofExcept (x : Except Halt α) : Straight (ofExcept x) := by
  intro allowed c b lines c' h
  obtain ⟨rfl, rfl, rfl⟩ := ofExcept_eq_ok.mp h
  exact .nil

theorem bind {e : Emit α} {f : α → Emit β} (h : Straight e) (hf : ∀ a, Straight (f a)) :
    Straight (e >>= f) := by
  intro allowed c b lines c' hb
  obtain ⟨a, first, c₁, rest, he, hr, rfl⟩ := bind_eq_ok.mp hb
  exact (h _ _ _ _ _ he).append (hf a _ _ _ _ _ hr)

theorem use (routine : RuntimeRoutine) : Straight (use routine) := by
  intro allowed c b lines c' h
  cases h
  exact { Segment.nil (c := c) with }

theorem assign (computation : Computation) {f : ValueName → Emit β} (hf : ∀ reg, Straight (f reg)) :
    Straight (do
      let reg ← freshReg
      emit (.assign reg computation)
      f reg) := by
  intro allowed c b lines c' h
  obtain ⟨_, h₁, rfl⟩ := bind_eq_ok_of_apply (freshReg_apply c) h
  obtain ⟨_, h₂, rfl⟩ := bind_eq_ok_of_apply (emit_apply _ _) h₁
  exact (Segment.assign c computation).append (hf _ _ _ _ _ _ h₂)

theorem emit {i : Instr} (hi : i.isTerminator = false) (hd : i.dest? = none) :
    Straight (emit i) := by
  intro allowed c b lines c' h
  rw [emit_apply] at h
  cases h
  have hs : Segment allowed [] i.dest?.toList c (c.line i) c.opened := .emit c hi
  rw [hd] at hs
  exact hs

theorem ret (value : Option (IrType × Operand)) : Straight (terminate (.ret value)) := by
  intro allowed c b lines c' h
  rw [terminate_apply] at h
  cases h
  exact Segment.terminate c rfl fun _ hm => nomatch hm

end Emit.Straight

open Emit

theorem Value.straight_toOperand : ∀ value : Value, Straight value.toOperand
  | .operand o => .pure o
  | .pending computation => .assign computation fun reg => .pure (Operand.value reg)

theorem straight_emitCall (ctx : BodyContext) (name : String) (args : List (IrType × Operand))
    (ret : IrType) (span : Span) : Straight (emitCall ctx name args ret span) := by
  unfold emitCall
  simp only
  split
  · exact .pure _
  · split
    · exact (Straight.ofExcept _).bind fun _ => .pure _
    · exact (Straight.use _).bind fun _ => .pure _
    · exact .fail _

mutual
theorem Expr.straight_emitValue (ctx : BodyContext) : ∀ expr : Expr, Straight (expr.emitValue ctx)
  | .lit value span slot => by
    unfold Expr.emitValue
    exact (Straight.ofExcept _).bind fun _ => .pure _
  | .var name handle span slot => by
    unfold Expr.emitValue
    exact (Straight.ofExcept _).bind fun _ => .ofExcept _
  | .call name args span slot => by
    unfold Expr.emitValue
    exact (Straight.ofExcept _).bind fun _ =>
      (straight_emitArgs ctx args).bind fun _ => straight_emitCall _ _ _ _ _
theorem straight_emitArgs (ctx : BodyContext) : ∀ args : List Expr, Straight (emitArgs ctx args)
  | [] => .pure []
  | arg :: args => by
    unfold emitArgs
    exact (Straight.ofExcept _).bind fun _ => (arg.straight_emitValue ctx).bind fun value =>
      value.straight_toOperand.bind fun _ => (straight_emitArgs ctx args).bind fun _ => .pure _
end

theorem Expr.straight_emitOperand (ctx : BodyContext) (expr : Expr) :
    Straight (expr.emitOperand ctx) :=
  (expr.straight_emitValue ctx).bind fun value => value.straight_toOperand

theorem Expr.straight_emitEffect (ctx : BodyContext) (expr : Expr) :
    Straight (expr.emitEffect ctx) := by
  refine (Straight.ofExcept _).bind fun ty => (expr.straight_emitValue ctx).bind fun value => ?_
  cases value with
  | operand o => exact .pure _
  | pending computation =>
    simp only
    split
    · exact .emit rfl rfl
    · intro allowed c b lines c' h
      obtain ⟨_, h₁, rfl⟩ := bind_eq_ok_of_apply (freshReg_apply c) h
      rw [emit_apply] at h₁
      cases h₁
      exact .assign c computation

theorem straight_emitStore (ctx : BodyContext) (name : String) (id : DeclId) (value : Expr) :
    Straight (emitStore ctx name id value) :=
  (Straight.ofExcept _).bind fun _ => (value.straight_emitOperand ctx).bind fun _ => .emit rfl rfl

theorem Return.straight_emit (ctx : BodyContext) (ret : Return) : Straight (ret.emit ctx) := by
  unfold Return.emit
  split
  · exact (ret.value.straight_emitOperand ctx).bind fun _ => .assign _ fun _ => .ret _
  · exact (ret.value.straight_emitEffect ctx).bind fun _ => .ret _
  · exact (ret.value.straight_emitOperand ctx).bind fun _ => .ret _

/-! ## Statements -/

/-- The value that a binding site declares. -/
def Site.value? (site : Site) : Option ValueName :=
  site.handle.map (.variable site.name)

def Site.isLoop (site : Site) : Bool :=
  site.kind = .loopVar

/-- The variables of the counting loops among the sites. -/
def counters (sites : List Site) : List ValueName :=
  (sites.filter Site.isLoop).filterMap Site.value?

theorem counters_append (sites more : List Site) :
    counters (sites ++ more) = counters sites ++ counters more := by
  simp [counters]

/-- The lines that a part with the given sites appends inside a loop with the given exit. -/
def Emitted (exit : Option Label) (sites : List Site) (c : Cursor) (lines : List Line)
    (c' : Cursor) : Prop :=
  ∃ defs, defs.Sublist (counters sites) ∧ Segment (fun l => exit = some l) [] defs c lines c'

theorem Emit.Straight.emitted {α : Type} {e : Emit α} (h : Straight e) {a : α}
    (he : e c = .ok (a, lines, c')) : Emitted exit sites c lines c' :=
  ⟨[], List.nil_sublist _, h _ _ _ _ _ he⟩

theorem Emitted.append {exit : Option Label} {sites more : List Site} {c c₁ c' : Cursor}
    {lines₁ lines₂ : List Line} (h₁ : Emitted exit sites c lines₁ c₁)
    (h₂ : Emitted exit more c₁ lines₂ c') :
    Emitted exit (sites ++ more) c (lines₁ ++ lines₂) c' := by
  obtain ⟨defs₁, hd₁, hs₁⟩ := h₁
  obtain ⟨defs₂, hd₂, hs₂⟩ := h₂
  refine ⟨defs₁ ++ defs₂, ?_, hs₁.append hs₂⟩
  rw [counters_append]
  exact hd₁.append hd₂

theorem emitBreak?_emitted (hexit : ∀ l, exit = some l → l.IsTarget) {brk : Option Break}
    (h : emitBreak? exit brk c = .ok ((), lines, c')) : Emitted exit [] c lines c' := by
  cases brk with
  | none => exact (Straight.pure ()).emitted h
  | some brk =>
    cases exit with
    | none => cases h
    | some l =>
      change terminate (.br l) c = _ at h
      rw [terminate_apply] at h
      cases h
      exact ⟨[], List.nil_sublist _, .br c (hexit l rfl) rfl⟩

theorem emitReturn?_emitted {ctx : BodyContext} {ret : Option Return}
    (h : emitReturn? ctx ret c = .ok ((), lines, c')) : Emitted exit [] c lines c' := by
  cases ret with
  | none => exact (Straight.pure ()).emitted h
  | some ret => exact (ret.straight_emit ctx).emitted h

/-- Control stays among the labels of a construct, or leaves the enclosing loop. -/
def allowing (own : List Label) (exit : Option Label) (l : Label) : Prop :=
  l ∈ own ∨ exit = some l

/-- A construct opens each of the labels that it numbered. -/
theorem Segment.close {own : List Label} {defs : List ValueName}
    (h : Segment (allowing own exit) own defs (c.skipLabels 1) lines c')
    (hf : Fresh Label.number? c.nextLabel (c.nextLabel + 1) own) :
    Segment (fun l => exit = some l) [] defs c lines c' := by
  obtain ⟨fresh, _, hp⟩ := h.labels
  have hopen : ∀ l, allowing own exit l → l ∈ labelsOf lines ∨ exit = some l := by
    intro l hl
    exact hl.imp_left fun hm => hp.mem_iff.mpr (List.mem_append_left fresh hm)
  exact (h.resolve hopen).numberLabels (.refl _) hf

/-- The labels of a loop. -/
def loopLabels (id : Nat) : List Label :=
  [.head id, .body id, .cont id]

theorem loopLabels_fresh (id : Nat) : Fresh Label.number? id (id + 1) (loopLabels id) :=
  .same (by simp [loopLabels]) (by simp [loopLabels, Label.number?])

theorem allowing_loop (id : Nat) (exit : Option Label) :
    allowing (loopLabels id) exit (.head id) ∧ allowing (loopLabels id) exit (.body id) ∧
      allowing (loopLabels id) exit (.cont id) := by
  simp [allowing, loopLabels]

theorem emitted_while {operand : Operand} {condLines bodyLines : List Line} (hid : id = c.nextLabel)
    (hcond : ∀ allowed,
      Segment allowed [] [] ((c.skipLabels 1).opened.stopped.enter (.head id)) condLines c₁)
    (hbody : Emitted (some (.cont id)) sites (c₁.opened.stopped.enter (.body id)) bodyLines c₂) :
    Emitted exit sites c
      ((c.skipLabels 1).line (.br (.head id)) ++ ([.label (.head id)] ++ (condLines ++
        (c₁.line (.condBr operand (.body id) (.cont id)) ++ ([.label (.body id)] ++ (bodyLines ++
          (c₂.jump (.head id) ++ [.label (.cont id)])))))))
      (c₂.stopped.enter (.cont id)) := by
  obtain ⟨defs, hdefs, hbody⟩ := hbody
  obtain ⟨hhead, hin, hout⟩ := allowing_loop id exit
  have hturn : Segment (allowing (loopLabels id) exit) [] defs _ bodyLines c₂ :=
    hbody.weaken (by rintro l ⟨⟩; exact hout)
  have htest := Segment.condBr c₁ operand (by simp [Label.IsTarget]) (by simp [Label.IsTarget])
    hin hout
  have hs := (Segment.br (c.skipLabels 1) (by simp [Label.IsTarget]) hhead).append
    ((Segment.openBlock (.head id) rfl).append ((hcond _).append (htest.append
      ((Segment.openBlock (.body id) rfl).append (hturn.append
        ((Segment.jump c₂ (by simp [Label.IsTarget]) fun _ => hhead).append
          (.openBlock (.cont id) rfl)))))))
  exact ⟨_, by simpa using hdefs, hs.close (hid ▸ loopLabels_fresh id)⟩

/-- The labels of a condition with its two arms. -/
def armLabels (id : Nat) (joined : Bool) : List Label :=
  [.thenArm id, .elseArm id] ++ if joined then [.cont id] else []

theorem armLabels_fresh (id : Nat) (joined : Bool) :
    Fresh Label.number? id (id + 1) (armLabels id joined) := by
  cases joined <;> exact .same (by simp [armLabels]) (by simp [armLabels, Label.number?])

theorem emitted_arms {thenSites elseSites : List Site} {c₃ : Cursor} {operand : Operand}
    {condLines thenLines elseLines : List Line} (hid : id = c.nextLabel)
    (hcond : ∀ allowed, Segment allowed [] [] (c.skipLabels 1) condLines c₁)
    (hthen : Emitted exit thenSites (c₁.opened.stopped.enter (.thenArm id)) thenLines c₂)
    (helse : Emitted exit elseSites (c₂.stopped.enter (.elseArm id)) elseLines c₃) :
    Emitted exit (thenSites ++ elseSites) c
      (condLines ++ (c₁.line (.condBr operand (.thenArm id) (.elseArm id)) ++
        ([.label (.thenArm id)] ++ (thenLines ++ (c₂.jump (.cont id) ++
          ([.label (.elseArm id)] ++ (elseLines ++ (c₃.jump (.cont id) ++
            if !c₂.terminated || !c₃.terminated then [.label (.cont id)] else []))))))))
      (if !c₂.terminated || !c₃.terminated then c₃.stopped.enter (.cont id) else c₃.stopped) := by
  obtain ⟨defs₁, hdefs₁, hthen⟩ := hthen
  obtain ⟨defs₂, hdefs₂, helse⟩ := helse
  generalize hj : (!c₂.terminated || !c₃.terminated) = joined
  have houter : ∀ l, exit = some l → allowing (armLabels id joined) exit l := fun l => Or.inr
  have hcont : joined = true → allowing (armLabels id joined) exit (.cont id) := by
    rintro rfl
    exact Or.inl (by simp [armLabels])
  have hjoin : Segment (allowing (armLabels id joined) exit) (if joined then [.cont id] else []) []
      c₃.stopped (if joined then [.label (.cont id)] else [])
      (if joined then c₃.stopped.enter (.cont id) else c₃.stopped) := by
    cases joined with
    | true => exact .openBlock (.cont id) rfl
    | false => exact .nil
  have htest : Segment (allowing (armLabels id joined) exit) [] [] c₁
      (c₁.line (.condBr operand (.thenArm id) (.elseArm id))) c₁.opened.stopped :=
    .condBr c₁ operand (by simp [Label.IsTarget]) (by simp [Label.IsTarget])
      (Or.inl (by simp [armLabels])) (Or.inl (by simp [armLabels]))
  have hs := (hcond _).append (htest.append ((Segment.openBlock (.thenArm id) rfl).append
    ((hthen.weaken houter).append
      ((Segment.jump c₂ (by simp [Label.IsTarget]) fun h => hcont (by simp [← hj, h])).append
        ((Segment.openBlock (.elseArm id) rfl).append ((helse.weaken houter).append
          ((Segment.jump c₃ (by simp [Label.IsTarget]) fun h => hcont (by simp [← hj, h])).append
            hjoin)))))))
  refine ⟨_, ?_, hs.close (hid ▸ armLabels_fresh id joined)⟩
  rw [counters_append]
  simpa using hdefs₁.append hdefs₂

theorem segment_loopHead {allowed : Label → Prop} (c : Cursor) (var cmp : ValueName)
    (incoming : List (Operand × Label)) (hi : Operand) (h : c.terminated = true)
    (hin : allowed (.body id)) (hout : allowed (.cont id)) :
    Segment allowed [.head id] [var, cmp] c (loopHead id var cmp incoming hi)
      ((c.enter (.head id)).stopped) := by
  have hplain (v : ValueName) (computation : Computation) :
      Segment allowed [] [v] (c.enter (.head id)) [.instr (.assign v computation)]
        (c.enter (.head id)) :=
    .instr (.assign v computation) rfl fun _ hm => nomatch hm
  exact (Segment.openBlock (.head id) h).append ((hplain var _).append ((hplain cmp _).append
    (.condBr (c.enter (.head id)) (.value cmp) (by simp [Label.IsTarget]) (by simp [Label.IsTarget])
      hin hout)))

theorem segment_loopTail {allowed : Label → Prop} (c : Cursor) (var next : ValueName)
    (hhead : allowed (.head id)) :
    Segment allowed [] (if c.terminated then [] else [next]) c (c.loopTail id var next)
      c.stopped := by
  cases h : c.terminated with
  | true =>
    rw [Cursor.stopped, Cursor.with_terminated h, Cursor.loopTail, h]
    exact .nil
  | false =>
    have hstep : Segment allowed [] [next] c (c.line
        (.assign next (.binary .add .i64 (.const (.int 1)) (.value var)))) c.opened :=
      Segment.emit c (i := .assign next _) rfl
    have hjump := Segment.jump c (by simp [Label.IsTarget]) fun _ => hhead
    rw [Cursor.line, Cursor.lead_of_open h, Cursor.opened_of_open h] at hstep
    rw [Cursor.jump, h] at hjump
    rw [Cursor.loopTail, h]
    exact hstep.append hjump

theorem fresh_loopRegs (n : Nat) (ended : Bool) :
    Fresh ValueName.number? n (n + 2)
      (ValueName.reg (n + 1) :: if ended then [] else [ValueName.reg n]) := by
  refine ⟨by cases ended <;> simp, ?_⟩
  intro v hv
  have hv : v = .reg (n + 1) ∨ v = .reg n := by
    cases ended <;> simp at hv <;> simp [hv]
  rcases hv with rfl | rfl
  · exact ⟨n + 1, rfl, by omega, by omega⟩
  · exact ⟨n, rfl, by omega, by omega⟩

theorem emitted_for (site : Site) {c₃ : Cursor} {counter next cmp : ValueName} {limit : Operand}
    {loLines hiLines bodyLines : List Line} (hloop : site.isLoop = true)
    (hsite : site.value? = some counter) (hid : id = c₂.opened.nextLabel)
    (hnext : next = .reg c₂.opened.nextReg) (hcmp : cmp = .reg (c₂.opened.nextReg + 1))
    (hlo : ∀ allowed, Segment allowed [] [] c loLines c₁)
    (hhi : ∀ allowed, Segment allowed [] [] c₁ hiLines c₂)
    (hbody : Emitted (some (.cont id)) sites
      (((c₂.opened.skipLabels 1).skipRegs 2).stopped.enter (.body id)) bodyLines c₃)
    (incoming : List (Operand × Label)) :
    Emitted exit (site :: sites) c
      (loLines ++ (hiLines ++ (c₂.line (.br (.head id)) ++ (loopHead id counter cmp incoming limit ++
        ([.label (.body id)] ++ (bodyLines ++ (c₃.loopTail id counter next ++
          [.label (.cont id)])))))))
      (c₃.stopped.enter (.cont id)) := by
  obtain ⟨defs, hdefs, hbody⟩ := hbody
  obtain ⟨hhead, hin, hout⟩ := allowing_loop id exit
  have hturn : Segment (allowing (loopLabels id) exit) [] defs _ bodyLines c₃ :=
    hbody.weaken (by rintro l ⟨⟩; exact hout)
  have hrest : Segment (allowing (loopLabels id) exit) (loopLabels id) _
      ((c₂.opened.stopped.skipLabels 1).skipRegs 2) _ _ :=
    (segment_loopHead _ counter cmp incoming limit rfl hin hout).append
      ((Segment.openBlock (.body id) rfl).append (hturn.append
        ((segment_loopTail c₃ counter next hhead).append (.openBlock (.cont id) rfl))))
  -- The registers and labels of the loop were numbered after the block before it was opened.
  have hdefs' : ([counter, cmp] ++ ([] ++ (defs ++ ((if c₃.terminated then [] else [next]) ++ []))) :
      List ValueName).Perm
        ((counter :: defs) ++ (cmp :: if c₃.terminated then [] else [next])) := by
    have hmiddle (ends : List ValueName) : (defs ++ cmp :: ends).Perm (cmp :: (defs ++ ends)) :=
      List.perm_middle
    simpa using (hmiddle _).symm
  have hnumbered := (hrest.numberRegs hdefs' (by
    rw [hcmp, hnext]
    exact fresh_loopRegs _ _)).numberLabels
      (show (loopLabels id).Perm ([] ++ loopLabels id) from .refl _) (hid ▸ loopLabels_fresh id)
  have hwhole := ((Segment.br c₂ (by simp [Label.IsTarget]) hhead).append hnumbered).resolve (by
    intro l hl
    refine hl.imp_left ?_
    intro hm
    have hm : l = .head id ∨ l = .body id ∨ l = .cont id := by simpa [loopLabels] using hm
    rcases hm with rfl | rfl | rfl <;> simp [loopHead])
  refine ⟨_, ?_, (hlo _).append ((hhi _).append hwhole)⟩
  have hcounters : counters (site :: sites) = counter :: counters sites := by
    simp [counters, hloop, hsite]
  rw [hcounters]
  exact hdefs.cons_cons counter

mutual
theorem Stmt.emit_emitted {ctx : BodyContext} : ∀ (stmt : Stmt) {exit : Option Label},
    (∀ l, exit = some l → l.IsTarget) → ∀ {c c' : Cursor} {lines : List Line},
    stmt.emit ctx exit c = .ok ((), lines, c') → Emitted exit stmt.sites c lines c'
  | .decl .., _, _, _, _, _, h => by
    unfold Stmt.emit at h
    exact ((Straight.ofExcept _).bind fun _ => straight_emitStore _ _ _ _).emitted h
  | .assign .., _, _, _, _, _, h => by
    unfold Stmt.emit at h
    exact ((Straight.ofExcept _).bind fun _ => straight_emitStore _ _ _ _).emitted h
  | .branch conds blocks _, _, hexit, _, _, _, h => by
    unfold Stmt.emit at h
    exact emitArms_emitted blocks conds hexit h
  | .forLoop var lo hi body span _, _, _, _, _, _, h => by
    obtain ⟨decl, start, loLines, c₁, limit, hiLines, c₂, bodyLines, c₃, id, counter, next, cmp, rfl,
      hcounter, hid, hnext, hcmp, hlo, hhi, hbody, rfl, rfl⟩ := emit_for_eq_ok h
    exact emitted_for ⟨var, .loopVar, none, span, some decl⟩ rfl (congrArg some hcounter.symm) hid
      hnext hcmp
      (fun _ => lo.straight_emitOperand ctx _ _ _ _ _ hlo)
      (fun _ => hi.straight_emitOperand ctx _ _ _ _ _ hhi)
      (body.emit_emitted (by simp [Label.IsTarget]) hbody) _
  | .whileLoop cond body _, _, _, _, _, _, h => by
    obtain ⟨id, operand, condLines, c₁, bodyLines, c₂, hid, hcond, hbody, rfl, rfl⟩ :=
      emit_while_eq_ok h
    exact emitted_while hid (fun _ => cond.straight_emitOperand ctx _ _ _ _ _ hcond)
      (body.emit_emitted (by simp [Label.IsTarget]) hbody)
  | .call value, _, _, _, _, _, h => by
    unfold Stmt.emit at h
    exact (value.straight_emitEffect ctx).emitted h
theorem Block.emit_emitted {ctx : BodyContext} : ∀ (block : Block) {exit : Option Label},
    (∀ l, exit = some l → l.IsTarget) → ∀ {c c' : Cursor} {lines : List Line},
    block.emit ctx exit c = .ok ((), lines, c') → Emitted exit block.sites c lines c'
  | ⟨stmts, _, _, _, _⟩, _, hexit, _, _, _, h => by
    rw [Block.emit_eq] at h
    obtain ⟨_, first, c₁, _, hstmts, h₁, rfl⟩ := Emit.bind_eq_ok.mp h
    obtain ⟨_, mid, c₂, last, hret, hbrk, rfl⟩ := Emit.bind_eq_ok.mp h₁
    have hs := (emitStmts_emitted stmts hexit hstmts).append
      ((emitReturn?_emitted hret).append (emitBreak?_emitted hexit hbrk))
    rw [List.append_nil, List.append_nil] at hs
    exact hs
theorem emitStmts_emitted {ctx : BodyContext} : ∀ (stmts : List Stmt) {exit : Option Label},
    (∀ l, exit = some l → l.IsTarget) → ∀ {c c' : Cursor} {lines : List Line},
    emitStmts ctx exit stmts c = .ok ((), lines, c') → Emitted exit (sitesOf stmts) c lines c'
  | [], _, _, _, _, _, h => (Straight.pure ()).emitted h
  | stmt :: stmts, _, hexit, _, _, _, h => by
    unfold emitStmts at h
    obtain ⟨_, first, c₁, rest, hstmt, hrest, rfl⟩ := Emit.bind_eq_ok.mp h
    exact (stmt.emit_emitted hexit hstmt).append (emitStmts_emitted stmts hexit hrest)
theorem emitArms_emitted {ctx : BodyContext} {span : Span} : ∀ (blocks : List Block)
    (conds : List Expr) {exit : Option Label}, (∀ l, exit = some l → l.IsTarget) →
    ∀ {c c' : Cursor} {lines : List Line},
    emitArms ctx exit span conds blocks c = .ok ((), lines, c') →
    Emitted exit (sitesOfBlocks blocks) c lines c'
  | _, [], _, _, _, _, _, h =>
    absurd h emitArms_no_cond
  | [], _ :: _, _, _, _, _, _, h =>
    absurd h emitArms_no_block
  | block :: blocks, cond :: conds, _, hexit, _, _, _, h => by
    obtain ⟨id, operand, condLines, c₁, thenLines, c₂, elseLines, c₃, hid, hcond, hthen, helse, rfl,
      rfl⟩ := emitArms_eq_ok h
    refine emitted_arms hid (fun _ => cond.straight_emitOperand ctx _ _ _ _ _ hcond)
      (block.emit_emitted hexit hthen) ?_
    unfold emitElse at helse
    cases conds with
    | nil => exact emitLast_emitted blocks hexit helse
    | cons cond conds => exact emitArms_emitted blocks (cond :: conds) hexit helse
theorem emitLast_emitted {ctx : BodyContext} : ∀ (blocks : List Block) {exit : Option Label},
    (∀ l, exit = some l → l.IsTarget) → ∀ {c c' : Cursor} {lines : List Line},
    emitLast ctx exit blocks c = .ok ((), lines, c') →
    Emitted exit (sitesOfBlocks blocks) c lines c'
  | [], _, _, _, _, _, h => (Straight.pure ()).emitted h
  | [block], _, hexit, _, _, _, h => by
    have hb := block.emit_emitted hexit h
    rwa [← List.append_nil block.sites] at hb
  | _ :: next :: blocks, _, hexit, _, _, _, h => by
    obtain ⟨defs, hdefs, hs⟩ := emitLast_emitted (next :: blocks) hexit h
    refine ⟨defs, ?_, hs⟩
    rw [sitesOfBlocks, counters_append]
    exact hdefs.trans (List.sublist_append_right _ _)
end

end ScriptLang
