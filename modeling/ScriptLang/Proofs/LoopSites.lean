import ScriptLang.Proofs.StatementFlow

/-!
# Where counting loops stand

A counting loop is emitted as a head, a body and a way back from the body to the head. The sites of
a body list its counting loops in the order of the text, each with the blocks that were open where
it was entered and where its body ended. The lines of each loop stand together in the emitted code,
and only these two blocks jump to its head.
-/

namespace ScriptLang

open Emit

variable {c c' c₁ c₂ : Cursor} {exit : Option Label} {sites : List Site} {condLines : List Line}

/-! ## Sites -/

/-- A counting loop as it was emitted. -/
structure LoopSite where
  id : Nat
  /-- The loop variable. -/
  counter : ValueName
  /-- The registers for the next number and for the test. -/
  next : ValueName
  cmp : ValueName
  /-- The bounds. -/
  start : Operand
  limit : Operand
  /-- The block that was open when the loop was entered. -/
  pred : Label
  body : List Line
  /-- The block that was open at the end of the body, unless it had ended. -/
  tail : Option Label
  deriving DecidableEq, Repr

/-- What a `phi` defines, and where it takes it from. -/
def Line.phi? : Line → Option (ValueName × List (Operand × Label))
  | .instr (.assign dest (.phi incoming)) => some (dest, incoming)
  | _ => none

def phisOf (lines : List Line) : List (ValueName × List (Operand × Label)) :=
  lines.filterMap Line.phi?

@[simp] theorem phisOf_nil : phisOf [] = [] := rfl

@[simp] theorem phisOf_append (lines more : List Line) :
    phisOf (lines ++ more) = phisOf lines ++ phisOf more :=
  List.filterMap_append

@[simp] theorem phisOf_label (l : Label) (lines : List Line) :
    phisOf (.label l :: lines) = phisOf lines := rfl

namespace LoopSite

/-- Where the loop variable comes from. -/
def incoming (site : LoopSite) : List (Operand × Label) :=
  loopIncoming site.start site.pred site.next site.tail

/-- The loop variable with where it comes from. -/
def phi (site : LoopSite) : ValueName × List (Operand × Label) :=
  (site.counter, site.incoming)

/-- Counts up. -/
def step (site : LoopSite) : Instr :=
  .assign site.next (.binary .add .i64 (.const (.int 1)) (.value site.counter))

/-- The way back from the body to the head. -/
def back (site : LoopSite) : List Line :=
  if site.tail.isSome then [.instr site.step, .instr (.br (.head site.id))] else []

/-- The instructions of the head. -/
def head (site : LoopSite) : List Instr :=
  [.assign site.counter (.phi site.incoming),
    .assign site.cmp (.binary (.icmp .sle) .i64 (.value site.counter) site.limit),
    .condBr (.value site.cmp) (.body site.id) (.cont site.id)]

def lines (site : LoopSite) : List Line :=
  .label (.head site.id) :: (site.head.map .instr ++
    (.label (.body site.id) :: (site.body ++ (site.back ++ [.label (.cont site.id)]))))

end LoopSite

mutual
/-- The counting loops of a statement that is emitted from the given cursor. -/
def Stmt.loopSites (ctx : BodyContext) (exit : Option Label) :
    Stmt → Cursor → Except Halt (List LoopSite)
  | .branch conds blocks _, c => armLoopSites ctx exit conds blocks c
  | .forLoop var lo hi body span handle, c => do
    let decl ← demand handle (.missing ("loop variable `" ++ var ++ "`") span)
    let (start, _, c) ← lo.emitOperand ctx c
    let (limit, _, c) ← hi.emitOperand ctx c
    let entered := c.opened
    let id := entered.nextLabel
    let inside := ((entered.skipLabels 1).skipRegs 2).stopped.enter (.body id)
    let (_, lines, ended) ← body.emit ctx (some (.cont id)) inside
    let inner ← body.loopSites ctx (some (.cont id)) inside
    return {
      id, start, limit
      counter := .variable var decl
      next := .reg entered.nextReg
      cmp := .reg (entered.nextReg + 1)
      pred := entered.block
      body := lines
      tail := ended.tailBlock } :: inner
  | .whileLoop cond body _, c => do
    let id := c.nextLabel
    let (_, _, c) ← cond.emitOperand ctx ((c.skipLabels 1).opened.stopped.enter (.head id))
    body.loopSites ctx (some (.cont id)) (c.opened.stopped.enter (.body id))
  | .decl .., _ => return []
  | .assign .., _ => return []
  | .call _, _ => return []
def Block.loopSites (ctx : BodyContext) (exit : Option Label) :
    Block → Cursor → Except Halt (List LoopSite)
  | ⟨stmts, _, _, _, _⟩, c => stmtLoopSites ctx exit stmts c
def stmtLoopSites (ctx : BodyContext) (exit : Option Label) :
    List Stmt → Cursor → Except Halt (List LoopSite)
  | [], _ => return []
  | stmt :: stmts, c => do
    let sites ← stmt.loopSites ctx exit c
    let (_, _, c) ← stmt.emit ctx exit c
    return sites ++ (← stmtLoopSites ctx exit stmts c)
def armLoopSites (ctx : BodyContext) (exit : Option Label) :
    List Expr → List Block → Cursor → Except Halt (List LoopSite)
  | cond :: conds, block :: blocks, c => do
    let id := c.nextLabel
    let (_, _, c) ← cond.emitOperand ctx (c.skipLabels 1)
    let c := c.opened.stopped.enter (.thenArm id)
    let sites ← block.loopSites ctx exit c
    let (_, _, c) ← block.emit ctx exit c
    let c := c.stopped.enter (.elseArm id)
    if conds.isEmpty then
      return sites ++ (← lastLoopSites ctx exit blocks c)
    else
      return sites ++ (← armLoopSites ctx exit conds blocks c)
  | _, _, _ => return []
def lastLoopSites (ctx : BodyContext) (exit : Option Label) :
    List Block → Cursor → Except Halt (List LoopSite)
  | [], _ => return []
  | block :: blocks, c =>
    match blocks with
    | [] => block.loopSites ctx exit c
    | _ :: _ => lastLoopSites ctx exit blocks c
end

/-! ## Sources of jumps -/

/-- The blocks that jump to a label, in the order of the lines. -/
def sources (target block : Label) (lines : List Line) : List Label :=
  ((edges block lines).filter (·.2 = target)).map (·.1)

section

variable {target block l : Label} {lines more : List Line}

theorem sources_append : sources target block (lines ++ more) =
    sources target block lines ++ sources target (blockAfter block lines) more := by
  simp only [sources, edges_append, List.filter_append, List.map_append]

theorem sources_of_not_target (h : target ∉ targetsOf lines) : sources target block lines = [] := by
  induction lines generalizing block with
  | nil => rfl
  | cons line lines ih =>
    cases line with
    | label l => exact ih h
    | instr i =>
      rw [targetsOf_instr, List.mem_append, not_or] at h
      have hnone : (i.targets.map (block, ·)).filter (·.2 = target) = [] := by
        refine List.filter_eq_nil_iff.mpr ?_
        intro edge he
        obtain ⟨l, hl, rfl⟩ := List.mem_map.mp he
        simpa using fun he : l = target => h.1 (he ▸ hl)
      rw [sources, edges, List.filter_append, hnone]
      exact ih h.2

end

/-! ## Sites among lines -/

/-- The body ends where the loop says, and jumps out of itself only to the block after the loop. -/
structure LoopSite.Formed (site : LoopSite) : Prop where
  tail : site.tail =
    if fill false site.body = some true then none else some (blockAfter (.body site.id) site.body)
  stays : ∀ l ∈ targetsOf site.body, l ∈ labelsOf site.body ∨ l = .cont site.id

/-- The lines of the loop stand among the given ones, after a jump to its head, and the head is
entered from there just as its `phi` says. Its number is one of those from `lo` to below `hi`. -/
structure LoopSite.In (site : LoopSite) (lo hi : Nat) (block : Label) (lines : List Line) :
    Prop where
  first : lo ≤ site.id
  last : site.id < hi
  formed : site.Formed
  layout : ∃ before after,
    lines = before ++ (.instr (.br (.head site.id)) :: (site.lines ++ after)) ∧
      blockAfter block before = site.pred
  sources : sources (.head site.id) block lines = site.pred :: site.tail.toList

namespace LoopSite.In

variable {site : LoopSite} {lo lo' hi hi' : Nat} {block l : Label} {lines more : List Line}

theorem mono (h : site.In lo hi block lines) (hlo : lo' ≤ lo) (hhi : hi ≤ hi') :
    site.In lo' hi' block lines :=
  ⟨Nat.le_trans hlo h.first, Nat.lt_of_lt_of_le h.last hhi, h.formed, h.layout, h.sources⟩

theorem append_right (h : site.In lo hi block lines) (hno : .head site.id ∉ targetsOf more) :
    site.In lo hi block (lines ++ more) where
  first := h.first
  last := h.last
  formed := h.formed
  layout := by
    obtain ⟨before, after, rfl, hpred⟩ := h.layout
    exact ⟨before, after ++ more, by simp, hpred⟩
  sources := by rw [sources_append, h.sources, sources_of_not_target hno, List.append_nil]

theorem append_left (h : site.In lo hi (blockAfter block lines) more)
    (hno : .head site.id ∉ targetsOf lines) : site.In lo hi block (lines ++ more) where
  first := h.first
  last := h.last
  formed := h.formed
  layout := by
    obtain ⟨before, after, rfl, hpred⟩ := h.layout
    exact ⟨lines ++ before, after, by simp, by rw [blockAfter_append, hpred]⟩
  sources := by rw [sources_append, sources_of_not_target hno, h.sources, List.nil_append]

theorem label (h : site.In lo hi l lines) : site.In lo hi block ([.label l] ++ lines) :=
  append_left h List.not_mem_nil

end LoopSite.In

@[simp] theorem Cursor.targetsOf_lead (c : Cursor) : targetsOf c.lead = [] := by
  unfold Cursor.lead
  split <;> rfl

@[simp] theorem Cursor.targetsOf_line (c : Cursor) (i : Instr) :
    targetsOf (c.line i) = i.targets := by
  rw [Cursor.line, targetsOf_append, Cursor.targetsOf_lead]
  simp

theorem Cursor.mem_targetsOf_jump {target l : Label} (h : l ∈ targetsOf (c.jump target)) :
    l = target := by
  unfold Cursor.jump at h
  split at h
  · cases h
  · simpa [Instr.targets] using h

/-- A loop is left at the block after it. -/
def Leaving (exit : Option Label) : Prop :=
  ∀ l, exit = some l → ∃ id, l = .cont id

theorem Leaving.isTarget (h : Leaving exit) : ∀ l, exit = some l → l.IsTarget := by
  rintro l rfl
  obtain ⟨id, rfl⟩ := h l rfl
  simp [Label.IsTarget]

theorem leaving_cont (id : Nat) : Leaving (some (.cont id)) := by
  rintro l ⟨⟩
  exact ⟨id, rfl⟩

theorem Segment.head_not_target {allowed : Label → Prop} {defs : List ValueName} {lines : List Line}
    {id : Nat} (h : Segment allowed [] defs c lines c') (hno : ¬ allowed (.head id))
    (hid : id < c.nextLabel ∨ c'.nextLabel ≤ id) : .head id ∉ targetsOf lines := by
  intro hm
  rcases (h.targets _ hm).2 with hl | hl
  · obtain ⟨fresh, hf, hp⟩ := h.labels
    obtain ⟨n, hn, hlo, hhi⟩ := hf.range _ (hp.mem_iff.mp hl)
    cases hn
    omega
  · exact hno hl

theorem Emitted.head_not_target {lines : List Line} {id : Nat} (h : Emitted exit sites c lines c')
    (hexit : Leaving exit) (hid : id < c.nextLabel ∨ c'.nextLabel ≤ id) :
    .head id ∉ targetsOf lines := by
  obtain ⟨defs, -, hs⟩ := h
  refine hs.head_not_target ?_ hid
  intro hl
  obtain ⟨k, hk⟩ := hexit _ hl
  cases hk

theorem Emitted.labels_le {lines : List Line} (h : Emitted exit sites c lines c') :
    c.nextLabel ≤ c'.nextLabel := by
  obtain ⟨_, -, hs⟩ := h
  exact hs.labels_le

theorem Emitted.block {lines : List Line} (h : Emitted exit sites c lines c') :
    c'.block = blockAfter c.block lines := by
  obtain ⟨_, -, hs⟩ := h
  exact hs.block

/-! ## Constructs -/

section

variable {site : LoopSite} {exit : Option Label} {sites more : List Site} {id : Nat}
  {operand : Operand} {block : Label}

theorem LoopSite.In.whileLoop {bodyLines : List Line} (hid : id = c.nextLabel)
    (hcond : Emitted none [] ((c.skipLabels 1).opened.stopped.enter (.head id)) condLines c₁)
    (h : site.In (c₁.opened.stopped.enter (.body id)).nextLabel c₂.nextLabel (.body id) bodyLines) :
    site.In c.nextLabel (c₂.stopped.enter (.cont id)).nextLabel block
      ((c.skipLabels 1).line (.br (.head id)) ++ ([.label (.head id)] ++ (condLines ++
        (c₁.line (.condBr operand (.body id) (.cont id)) ++ ([.label (.body id)] ++ (bodyLines ++
          (c₂.jump (.head id) ++ [.label (.cont id)]))))))) := by
  have hle₁ : id + 1 ≤ c₁.nextLabel := by
    obtain ⟨_, -, hs⟩ := hcond
    rw [hid]
    exact Nat.le_trans (c.skipLabels 1).nextLabel_le_opened hs.labels_le
  have hle₂ : c₁.nextLabel ≤ site.id := Nat.le_trans c₁.nextLabel_le_opened h.first
  have hhead : Label.head site.id ≠ .head id := by
    intro he
    cases he
    omega
  have hback : .head site.id ∉ targetsOf (c₂.jump (.head id) ++ [.label (.cont id)]) := by
    intro hm
    rw [targetsOf_append, targetsOf_label, targetsOf_nil, List.append_nil] at hm
    exact hhead (Cursor.mem_targetsOf_jump hm)
  have htest : .head site.id ∉ targetsOf condLines :=
    hcond.head_not_target (by rintro l ⟨⟩) (.inr hle₂)
  have hturn := h.append_right hback
  refine .mono (.append_left (.label (.append_left (.append_left (.label hturn) ?_) htest)) ?_)
    (Nat.le_trans (by omega) c₁.nextLabel_le_opened) (Nat.le_refl _)
  · simp [Instr.targets]
  · simpa [Instr.targets] using hhead

theorem LoopSite.In.arms {c₃ : Cursor} {thenLines elseLines : List Line} (hexit : Leaving exit)
    (hcond : Emitted none [] (c.skipLabels 1) condLines c₁)
    (hthen : Emitted exit sites (c₁.opened.stopped.enter (.thenArm id)) thenLines c₂)
    (helse : Emitted exit more (c₂.stopped.enter (.elseArm id)) elseLines c₃)
    (h : site.In (c₁.opened.stopped.enter (.thenArm id)).nextLabel c₂.nextLabel (.thenArm id)
        thenLines ∨
      site.In (c₂.stopped.enter (.elseArm id)).nextLabel c₃.nextLabel (.elseArm id) elseLines) :
    site.In c.nextLabel c₃.nextLabel block
      (condLines ++ (c₁.line (.condBr operand (.thenArm id) (.elseArm id)) ++
        ([.label (.thenArm id)] ++ (thenLines ++ (c₂.jump (.cont id) ++
          ([.label (.elseArm id)] ++ (elseLines ++ (c₃.jump (.cont id) ++
            if !c₂.terminated || !c₃.terminated then [.label (.cont id)] else [])))))))) := by
  have hle₁ : c.nextLabel ≤ c₁.nextLabel := by
    obtain ⟨_, -, hs⟩ := hcond
    exact Nat.le_trans (Nat.le_succ _) hs.labels_le
  have hle₂ : c₁.nextLabel ≤ c₂.nextLabel := by
    obtain ⟨_, -, hs⟩ := hthen
    exact Nat.le_trans c₁.nextLabel_le_opened hs.labels_le
  have hle₃ : c₂.nextLabel ≤ c₃.nextLabel := by
    obtain ⟨_, -, hs⟩ := helse
    exact hs.labels_le
  have hjump (c : Cursor) : .head site.id ∉ targetsOf (c.jump (.cont id)) := by
    intro hm
    cases Cursor.mem_targetsOf_jump hm
  have hjoin : .head site.id ∉ targetsOf (c₃.jump (.cont id) ++
      if !c₂.terminated || !c₃.terminated then [.label (.cont id)] else []) := by
    rw [targetsOf_append, List.mem_append, not_or]
    refine ⟨hjump c₃, ?_⟩
    split <;> simp
  have htest : c₁.nextLabel ≤ site.id → .head site.id ∉ targetsOf condLines :=
    fun hle => hcond.head_not_target (by rintro l ⟨⟩) (.inr hle)
  rcases h with h | h
  · have hfirst : c₁.nextLabel ≤ site.id := Nat.le_trans c₁.nextLabel_le_opened h.first
    have hrest : .head site.id ∉ targetsOf elseLines :=
      helse.head_not_target hexit (.inl h.last)
    refine .mono (.append_left (.append_left (.label (h.append_right ?_)) ?_) (htest hfirst))
      (Nat.le_trans hle₁ c₁.nextLabel_le_opened) hle₃
    · simp only [targetsOf_append, List.mem_append, not_or] at hjoin ⊢
      exact ⟨hjump c₂, by simp, hrest, hjoin⟩
    · simp [Instr.targets]
  · have hfirst : c₂.nextLabel ≤ site.id := h.first
    have hbefore : .head site.id ∉ targetsOf thenLines :=
      hthen.head_not_target hexit (.inr hfirst)
    have harm := h.append_right hjoin
    refine .mono (.append_left (.append_left (.label (.append_left (.append_left (.label harm)
      (hjump c₂)) hbefore)) ?_) (htest (Nat.le_trans hle₂ hfirst))) (Nat.le_trans hle₁ hle₂)
      (Nat.le_refl _)
    simp [Instr.targets]

theorem sources_br (c : Cursor) (l : Label) :
    sources l c.block (c.line (.br l)) = [c.opened.block] := by
  unfold Cursor.line Cursor.lead Cursor.opened
  cases c.terminated <;> simp [sources, edges, Instr.targets]

theorem sources_loopTail (c : Cursor) (id : Nat) (counter next : ValueName) :
    sources (.head id) c.block (c.loopTail id counter next) = c.tailBlock.toList := by
  unfold Cursor.loopTail Cursor.tailBlock
  cases c.terminated <;> simp [sources, edges, Instr.targets]

theorem LoopSite.back_eq (h : site.tail = c.tailBlock) :
    site.back = c.loopTail site.id site.counter site.next := by
  unfold LoopSite.back Cursor.loopTail
  rw [h, Cursor.tailBlock]
  cases c.terminated <;> rfl

theorem LoopSite.in_lines (hid : site.id = c.opened.nextLabel) (hpred : site.pred = c.opened.block)
    (htail : site.tail = c'.tailBlock) (hbody : Emitted (some (.cont site.id)) sites
      (((c.opened.skipLabels 1).skipRegs 2).stopped.enter (.body site.id)) site.body c') :
    site.In c.nextLabel c'.nextLabel c.block (c.line (.br (.head site.id)) ++ site.lines) := by
  have hquiet : .head site.id ∉ targetsOf site.body :=
    hbody.head_not_target (leaving_cont _) (.inl (hid ▸ Nat.lt_succ_self _))
  obtain ⟨_, -, hs⟩ := hbody
  have hends : blockAfter (.body site.id) site.body = c'.block := hs.block.symm
  refine ⟨?_, ?_, ⟨?_, ?_⟩, ⟨c.lead, [], ?_, ?_⟩, ?_⟩
  · rw [hid]
    exact c.nextLabel_le_opened
  · rw [hid]
    exact hs.labels_le
  · have hfill : fill false site.body = some c'.terminated := hs.fill
    rw [htail, hfill, hends, Cursor.tailBlock]
    simp
  · intro l hl
    exact (hs.targets l hl).2.imp_right fun he => (Option.some.inj he).symm
  · simp [Cursor.line]
  · rw [hpred, Cursor.lead, Cursor.opened]
    cases c.terminated <;> rfl
  · have hhead : sources (.head site.id) (blockAfter c.block (c.line (.br (.head site.id))))
        site.lines = sources (.head site.id) (.body site.id)
          (site.body ++ (site.back ++ [.label (.cont site.id)])) := by
      simp [LoopSite.lines, LoopSite.head, sources, edges, Instr.targets]
    have hlast (block : Label) : sources (.head site.id) block [.label (.cont site.id)] = [] := rfl
    rw [sources_append, sources_br, hhead, sources_append, sources_of_not_target hquiet, hends,
      sources_append, LoopSite.back_eq htail, sources_loopTail, hlast, hpred, htail]
    simp

theorem LoopSite.In.forLoop {outer : LoopSite} (hid : outer.id = c.opened.nextLabel)
    (h : site.In (outer.id + 1) c'.nextLabel (.body outer.id) outer.body) :
    site.In c.nextLabel c'.nextLabel block (c.line (.br (.head outer.id)) ++ outer.lines) := by
  have hne : Label.head site.id ≠ .head outer.id := by
    intro he
    have hfirst := h.first
    rw [Label.head.inj he] at hfirst
    exact Nat.not_succ_le_self _ hfirst
  have hback : .head site.id ∉ targetsOf (outer.back ++ [.label (.cont outer.id)]) := by
    unfold LoopSite.back
    split <;> simp [Instr.targets, LoopSite.step, hne]
  have hhead : .head site.id ∉
      targetsOf (.label (.head outer.id) :: outer.head.map Line.instr) := by
    simp [LoopSite.head, Instr.targets]
  have hturn : site.In (outer.id + 1) c'.nextLabel
      (blockAfter (blockAfter block (c.line (.br (.head outer.id))))
        (.label (.head outer.id) :: outer.head.map Line.instr))
      ([.label (.body outer.id)] ++ (outer.body ++ (outer.back ++ [.label (.cont outer.id)]))) :=
    .label (h.append_right hback)
  refine .mono (.append_left (.append_left hturn hhead) ?_) ?_ (Nat.le_refl _)
  · simpa [Instr.targets] using hne
  · rw [hid]
    exact Nat.le_trans c.nextLabel_le_opened (Nat.le_succ _)

end

/-! ## Expressions -/

/-- Nothing that is emitted is a `phi`. -/
def Emit.PhiFree {α : Type} (e : Emit α) (post : α → Prop) : Prop :=
  ∀ (c : Cursor) (a : α) (lines : List Line) (c' : Cursor), e c = .ok (a, lines, c') →
    phisOf lines = [] ∧ post a

@[simp] theorem Cursor.phisOf_lead (c : Cursor) : phisOf c.lead = [] := by
  unfold Cursor.lead
  split <;> rfl

@[simp] theorem Cursor.phisOf_line (c : Cursor) (i : Instr) :
    phisOf (c.line i) = (Line.phi? (.instr i)).toList := by
  rw [Cursor.line, phisOf_append, Cursor.phisOf_lead, List.nil_append]
  cases h : Line.phi? (.instr i) <;> simp [phisOf, h]

@[simp] theorem Cursor.phisOf_jump (c : Cursor) (target : Label) : phisOf (c.jump target) = [] := by
  unfold Cursor.jump
  split <;> rfl

namespace Emit.PhiFree

variable {α β : Type} {post : α → Prop} {post' : β → Prop}

theorem pure {a : α} (h : post a) : PhiFree (pure a) post := by
  intro c b lines c' he
  obtain ⟨rfl, rfl, rfl⟩ := pure_eq_ok.mp he
  exact ⟨rfl, h⟩

theorem fail (halt : Halt) : PhiFree (Emit.fail halt) post := by
  intro c a lines c' he
  cases he

theorem ofExcept {x : Except Halt α} (h : ∀ a, x = .ok a → post a) :
    PhiFree (Emit.ofExcept x) post := by
  intro c a lines c' he
  obtain ⟨hx, rfl, rfl⟩ := ofExcept_eq_ok.mp he
  exact ⟨rfl, h a hx⟩

theorem check (x : Except Halt α) : PhiFree (Emit.ofExcept x) fun _ => True :=
  ofExcept fun _ _ => trivial

theorem bind {e : Emit α} {f : α → Emit β} (h : PhiFree e post)
    (hf : ∀ a, post a → PhiFree (f a) post') : PhiFree (e >>= f) post' := by
  intro c b lines c' he
  obtain ⟨a, first, c₁, rest, h₁, h₂, rfl⟩ := bind_eq_ok.mp he
  obtain ⟨hfirst, ha⟩ := h c a first c₁ h₁
  obtain ⟨hrest, hb⟩ := hf a ha c₁ b rest c' h₂
  rw [phisOf_append, hfirst, hrest]
  exact ⟨rfl, hb⟩

theorem use (routine : RuntimeRoutine) : PhiFree (Emit.use routine) fun _ => True := by
  intro c a lines c' he
  cases he
  exact ⟨rfl, trivial⟩

theorem freshReg : PhiFree Emit.freshReg fun _ => True := by
  intro c a lines c' he
  cases he
  exact ⟨rfl, trivial⟩

theorem emit {i : Instr} (h : Line.phi? (.instr i) = none) :
    PhiFree (Emit.emit i) fun _ => True := by
  intro c a lines c' he
  rw [emit_apply] at he
  cases he
  exact ⟨by rw [c.phisOf_line, h]; rfl, trivial⟩

theorem terminate {i : Instr} (h : Line.phi? (.instr i) = none) :
    PhiFree (Emit.terminate i) fun _ => True := by
  intro c a lines c' he
  rw [terminate_apply] at he
  cases he
  exact ⟨by rw [c.phisOf_line, h]; rfl, trivial⟩

end Emit.PhiFree

/-- A computation that is left to do is no `phi`. -/
def Value.NoPhi : Value → Prop
  | .operand _ => True
  | .pending computation => ∀ dest, Line.phi? (.instr (.assign dest computation)) = none

theorem Value.phiFree_toOperand {value : Value} (h : value.NoPhi) :
    PhiFree value.toOperand fun _ => True := by
  cases value with
  | operand o => exact .pure trivial
  | pending computation =>
    exact PhiFree.freshReg.bind fun reg _ => (PhiFree.emit (h reg)).bind fun _ _ => .pure trivial

theorem Native.compute_phiFree {native : Native} {args : List Operand} {computation : Computation}
    (h : native.compute args = .ok computation) : (Value.pending computation).NoPhi := by
  unfold Native.compute at h
  split at h <;> cases h <;> exact fun _ => rfl

theorem phiFree_emitCall (ctx : BodyContext) (name : String) (args : List (IrType × Operand))
    (ret : IrType) (span : Span) : PhiFree (emitCall ctx name args ret span) Value.NoPhi := by
  unfold emitCall
  simp only
  split
  · exact .pure fun _ => rfl
  · split
    · exact (PhiFree.ofExcept fun _ hc => Native.compute_phiFree hc).bind fun _ hv => .pure hv
    · exact (PhiFree.use _).bind fun _ _ => .pure fun _ => rfl
    · exact .fail _

theorem emitVariable_phiFree {ctx : BodyContext} {name : String} {handle : Option DeclId}
    {ty : IrType} {span : Span} {value : Value}
    (h : emitVariable ctx name handle ty span = .ok value) : value.NoPhi := by
  simp only [emitVariable, ScriptLang.bind_eq_ok] at h
  obtain ⟨_, -, var, -, h⟩ := h
  split at h <;> cases h
  · exact fun _ => rfl
  · trivial

mutual
theorem Expr.phiFree_emitValue (ctx : BodyContext) : ∀ expr : Expr,
    PhiFree (expr.emitValue ctx) Value.NoPhi
  | .lit value span slot => by
    unfold Expr.emitValue
    exact (PhiFree.check _).bind fun _ _ => .pure trivial
  | .var name handle span slot => by
    unfold Expr.emitValue
    exact (PhiFree.check _).bind fun _ _ => .ofExcept fun _ hv => emitVariable_phiFree hv
  | .call name args span slot => by
    unfold Expr.emitValue
    refine (PhiFree.check _).bind fun _ _ => (phiFree_emitArgs ctx args).bind fun _ _ => ?_
    exact phiFree_emitCall ctx name _ _ span
theorem phiFree_emitArgs (ctx : BodyContext) : ∀ args : List Expr,
    PhiFree (emitArgs ctx args) fun _ => True
  | [] => .pure trivial
  | arg :: args => by
    unfold emitArgs
    refine (PhiFree.check _).bind fun _ _ => (arg.phiFree_emitValue ctx).bind fun value hv => ?_
    refine (Value.phiFree_toOperand hv).bind fun _ _ => ?_
    exact (phiFree_emitArgs ctx args).bind fun _ _ => .pure trivial
end

theorem Expr.phiFree_emitOperand (ctx : BodyContext) (expr : Expr) :
    PhiFree (expr.emitOperand ctx) fun _ => True :=
  (expr.phiFree_emitValue ctx).bind fun _ hv => Value.phiFree_toOperand hv

theorem Expr.phiFree_emitEffect (ctx : BodyContext) (expr : Expr) :
    PhiFree (expr.emitEffect ctx) fun _ => True := by
  refine (PhiFree.check _).bind fun ty _ => (expr.phiFree_emitValue ctx).bind fun value hv => ?_
  cases value with
  | operand o => exact .pure trivial
  | pending computation =>
    dsimp only
    split
    · exact .emit rfl
    · exact PhiFree.freshReg.bind fun reg _ => .emit (hv reg)

theorem phiFree_emitStore (ctx : BodyContext) (name : String) (id : DeclId) (value : Expr) :
    PhiFree (emitStore ctx name id value) fun _ => True :=
  (PhiFree.check _).bind fun _ _ => (value.phiFree_emitOperand ctx).bind fun _ _ => .emit rfl

theorem Return.phiFree_emit (ctx : BodyContext) (ret : Return) :
    PhiFree (ret.emit ctx) fun _ => True := by
  unfold Return.emit
  split
  · refine (ret.value.phiFree_emitOperand ctx).bind fun _ _ => PhiFree.freshReg.bind fun _ _ => ?_
    exact (PhiFree.emit rfl).bind fun _ _ => .terminate rfl
  · exact (ret.value.phiFree_emitEffect ctx).bind fun _ _ => .terminate rfl
  · exact (ret.value.phiFree_emitOperand ctx).bind fun _ _ => .terminate rfl

theorem phiFree_emitReturn? (ctx : BodyContext) (ret : Option Return) :
    PhiFree (emitReturn? ctx ret) fun _ => True := by
  cases ret with
  | none => exact .pure trivial
  | some ret => exact ret.phiFree_emit ctx

theorem phiFree_emitBreak? (exit : Option Label) (brk : Option Break) :
    PhiFree (emitBreak? exit brk) fun _ => True := by
  cases brk with
  | none => exact .pure trivial
  | some brk =>
    cases exit with
    | none => exact .fail _
    | some l => exact .terminate rfl

/-! ## Statements -/

theorem LoopSite.phisOf_lines (site : LoopSite) :
    phisOf site.lines = site.phi :: phisOf site.body := by
  have hback : phisOf site.back = [] := by
    unfold LoopSite.back
    split <;> rfl
  have hhead : phisOf (site.head.map .instr) = [site.phi] := rfl
  rw [LoopSite.lines, phisOf_label, phisOf_append, hhead, phisOf_label, phisOf_append,
    phisOf_append, hback, phisOf_label, phisOf_nil, List.append_nil]
  simp

theorem phisOf_arms {c₃ : Cursor} {id : Nat} {operand : Operand} {thenLines elseLines : List Line}
    {sites more : List LoopSite} (hcond : phisOf condLines = [])
    (hthen : phisOf thenLines = sites.map LoopSite.phi)
    (helse : phisOf elseLines = more.map LoopSite.phi) :
    phisOf (condLines ++ (c₁.line (.condBr operand (.thenArm id) (.elseArm id)) ++
      ([.label (.thenArm id)] ++ (thenLines ++ (c₂.jump (.cont id) ++
        ([.label (.elseArm id)] ++ (elseLines ++ (c₃.jump (.cont id) ++
          if !c₂.terminated || !c₃.terminated then [.label (.cont id)] else [])))))))) =
      (sites ++ more).map LoopSite.phi := by
  have hlast : phisOf (if !c₂.terminated || !c₃.terminated then [.label (.cont id)] else []) =
      [] := by
    split <;> rfl
  simp only [phisOf_append, hcond, hthen, helse, hlast, Cursor.phisOf_line, Cursor.phisOf_jump,
    phisOf_label, phisOf_nil, List.map_append, List.append_nil, List.nil_append]
  rfl

mutual
theorem Stmt.loopSites_in {ctx : BodyContext} : ∀ (stmt : Stmt) {exit : Option Label},
    Leaving exit → ∀ {c c' : Cursor} {lines : List Line},
    stmt.emit ctx exit c = .ok ((), lines, c') →
    ∃ sites, stmt.loopSites ctx exit c = .ok sites ∧
      phisOf lines = sites.map LoopSite.phi ∧
      ∀ site ∈ sites, site.In c.nextLabel c'.nextLabel c.block lines
  | .decl _ _ value _ _, _, _, c, c', lines, h => by
    unfold Stmt.emit at h
    have hfree : phisOf lines = [] :=
      ((PhiFree.check _).bind (fun _ _ => phiFree_emitStore ctx _ _ value) c () lines c' h).1
    exact ⟨[], rfl, hfree, List.forall_mem_nil _⟩
  | .assign _ value _ _, _, _, c, c', lines, h => by
    unfold Stmt.emit at h
    have hfree : phisOf lines = [] :=
      ((PhiFree.check _).bind (fun _ _ => phiFree_emitStore ctx _ _ value) c () lines c' h).1
    exact ⟨[], rfl, hfree, List.forall_mem_nil _⟩
  | .branch conds blocks _, _, hexit, _, _, _, h => by
    unfold Stmt.emit at h
    exact armLoopSites_in blocks conds hexit h
  | .forLoop var lo hi body _ _, _, _, c, _, lines, h => by
    obtain ⟨decl, start, loLines, c₁, limit, hiLines, c₂, bodyLines, c₃, id, _, _, _, rfl, rfl, hid,
      rfl, rfl, hlo, hhi, hbody, rfl, rfl⟩ := emit_for_eq_ok h
    obtain ⟨inner, hinner, hphis, hin⟩ := body.loopSites_in (leaving_cont id) hbody
    subst hid
    set site : LoopSite := {
      start, limit
      id := c₂.opened.nextLabel
      counter := .variable var decl
      next := .reg c₂.opened.nextReg
      cmp := .reg (c₂.opened.nextReg + 1)
      pred := c₂.opened.block
      body := bodyLines
      tail := c₃.tailBlock }
    have hlines : c₂.line (.br (.head site.id)) ++ (loopHead site.id site.counter site.cmp
        ((start, c₂.opened.block) :: c₃.tailBlock.toList.map fun tail => (.value site.next, tail))
        limit ++ ([.label (.body site.id)] ++ (bodyLines ++ (c₃.loopTail site.id site.counter
          site.next ++ [.label (.cont site.id)])))) =
        c₂.line (.br (.head site.id)) ++ site.lines := by
      have hback : site.back = c₃.loopTail site.id site.counter site.next := LoopSite.back_eq rfl
      rw [← hback]
      rfl
    rw [hlines]
    refine ⟨site :: inner, ScriptLang.bind_eq_ok.mpr ⟨decl, rfl, ScriptLang.bind_eq_ok.mpr ⟨_, hlo,
      ScriptLang.bind_eq_ok.mpr ⟨_, hhi, ScriptLang.bind_eq_ok.mpr ⟨_, hbody,
        ScriptLang.bind_eq_ok.mpr ⟨_, hinner, rfl⟩⟩⟩⟩⟩, ?_, ?_⟩
    · rw [phisOf_append, phisOf_append, phisOf_append, (lo.phiFree_emitOperand ctx _ _ _ _ hlo).1,
        (hi.phiFree_emitOperand ctx _ _ _ _ hhi).1, Cursor.phisOf_line, site.phisOf_lines, hphis]
      rfl
    have hlos : Emitted none [] c loLines c₁ := (lo.straight_emitOperand ctx).emitted hlo
    have hhis : Emitted none [] c₁ hiLines c₂ := (hi.straight_emitOperand ctx).emitted hhi
    have hturn := body.emit_emitted (leaving_cont _).isTarget hbody
    -- The bounds do not jump, so only what comes after them matters.
    have hplace {site : LoopSite} {lines : List Line}
        (hs : site.In c₂.nextLabel c₃.nextLabel c₂.block lines) :
        site.In c.nextLabel c₃.nextLabel c.block (loLines ++ (hiLines ++ lines)) := by
      have hno₁ := hlos.head_not_target (by rintro l ⟨⟩)
        (.inr (Nat.le_trans hhis.labels_le hs.first))
      have hno₂ := hhis.head_not_target (by rintro l ⟨⟩) (.inr hs.first)
      rw [hhis.block, hlos.block] at hs
      exact ((hs.append_left hno₂).append_left hno₁).mono
        (Nat.le_trans hlos.labels_le hhis.labels_le) (Nat.le_refl _)
    refine List.forall_mem_cons.mpr ⟨hplace (LoopSite.in_lines rfl rfl rfl hturn), ?_⟩
    intro site' hm
    exact hplace (.forLoop rfl (hin site' hm))
  | .whileLoop cond body _, _, _, _, _, _, h => by
    obtain ⟨id, operand, condLines, c₁, bodyLines, c₂, hid, hcond, hbody, rfl, rfl⟩ :=
      emit_while_eq_ok h
    obtain ⟨sites, hsites, hphis, hin⟩ := body.loopSites_in (leaving_cont id) hbody
    subst hid
    refine ⟨sites, ScriptLang.bind_eq_ok.mpr ⟨_, hcond, hsites⟩, ?_, fun site hm => ?_⟩
    · simp [(cond.phiFree_emitOperand ctx _ _ _ _ hcond).1, Line.phi?, hphis]
    exact .whileLoop rfl ((cond.straight_emitOperand ctx).emitted hcond) (hin site hm)
  | .call value, _, _, c, c', lines, h => by
    unfold Stmt.emit at h
    exact ⟨[], rfl, (value.phiFree_emitEffect ctx c () lines c' h).1, List.forall_mem_nil _⟩
theorem Block.loopSites_in {ctx : BodyContext} : ∀ (block : Block) {exit : Option Label},
    Leaving exit → ∀ {c c' : Cursor} {lines : List Line},
    block.emit ctx exit c = .ok ((), lines, c') →
    ∃ sites, block.loopSites ctx exit c = .ok sites ∧
      phisOf lines = sites.map LoopSite.phi ∧
      ∀ site ∈ sites, site.In c.nextLabel c'.nextLabel c.block lines
  | ⟨stmts, ret, brk, _, _⟩, exit, hexit, _, _, _, h => by
    rw [Block.emit_eq] at h
    obtain ⟨_, first, c₁, _, hstmts, h₁, rfl⟩ := Emit.bind_eq_ok.mp h
    obtain ⟨_, mid, c₂, last, hret, hbrk, rfl⟩ := Emit.bind_eq_ok.mp h₁
    obtain ⟨sites, hsites, hphis, hin⟩ := stmtLoopSites_in stmts hexit hstmts
    have hend := (emitReturn?_emitted hret).append (emitBreak?_emitted hexit.isTarget hbrk)
    refine ⟨sites, hsites, ?_, fun site hm => ?_⟩
    · rw [phisOf_append, phisOf_append, (phiFree_emitReturn? ctx ret _ _ _ _ hret).1,
        (phiFree_emitBreak? exit brk _ _ _ _ hbrk).1, hphis]
      simp
    have hsite := hin site hm
    exact (hsite.append_right (hend.head_not_target hexit (.inl hsite.last))).mono
      (Nat.le_refl _) hend.labels_le
theorem stmtLoopSites_in {ctx : BodyContext} : ∀ (stmts : List Stmt) {exit : Option Label},
    Leaving exit → ∀ {c c' : Cursor} {lines : List Line},
    emitStmts ctx exit stmts c = .ok ((), lines, c') →
    ∃ sites, stmtLoopSites ctx exit stmts c = .ok sites ∧
      phisOf lines = sites.map LoopSite.phi ∧
      ∀ site ∈ sites, site.In c.nextLabel c'.nextLabel c.block lines
  | [], _, _, _, _, _, h => by
    cases h
    exact ⟨[], rfl, rfl, List.forall_mem_nil _⟩
  | stmt :: stmts, _, hexit, _, _, _, h => by
    unfold emitStmts at h
    obtain ⟨_, first, c₁, rest, hstmt, hrest, rfl⟩ := Emit.bind_eq_ok.mp h
    obtain ⟨sites, hsites, hphis, hin⟩ := stmt.loopSites_in hexit hstmt
    obtain ⟨more, hmore, hphis', hins⟩ := stmtLoopSites_in stmts hexit hrest
    have hfirst := stmt.emit_emitted hexit.isTarget hstmt
    have hlater := emitStmts_emitted stmts hexit.isTarget hrest
    refine ⟨sites ++ more, ScriptLang.bind_eq_ok.mpr ⟨sites, hsites, ScriptLang.bind_eq_ok.mpr
      ⟨_, hstmt, ScriptLang.bind_eq_ok.mpr ⟨more, hmore, rfl⟩⟩⟩, ?_, fun site hm => ?_⟩
    · rw [phisOf_append, hphis, hphis', List.map_append]
    rcases List.mem_append.mp hm with hm | hm
    · have hsite := hin site hm
      exact (hsite.append_right (hlater.head_not_target hexit (.inl hsite.last))).mono
        (Nat.le_refl _) hlater.labels_le
    · have hsite := hins site hm
      rw [hfirst.block] at hsite
      exact (hsite.append_left (hfirst.head_not_target hexit (.inr hsite.first))).mono
        hfirst.labels_le (Nat.le_refl _)
theorem armLoopSites_in {ctx : BodyContext} {span : Span} : ∀ (blocks : List Block)
    (conds : List Expr) {exit : Option Label}, Leaving exit → ∀ {c c' : Cursor} {lines : List Line},
    emitArms ctx exit span conds blocks c = .ok ((), lines, c') →
    ∃ sites, armLoopSites ctx exit conds blocks c = .ok sites ∧
      phisOf lines = sites.map LoopSite.phi ∧
      ∀ site ∈ sites, site.In c.nextLabel c'.nextLabel c.block lines
  | _, [], _, _, _, _, _, h => absurd h emitArms_no_cond
  | [], _ :: _, _, _, _, _, _, h => absurd h emitArms_no_block
  | block :: blocks, cond :: conds, _, hexit, c, _, _, h => by
    obtain ⟨id, operand, condLines, c₁, thenLines, c₂, elseLines, c₃, hid, hcond, hthen, helse, rfl,
      rfl⟩ := emitArms_eq_ok h
    subst hid
    obtain ⟨sites, hsites, hphis, hin⟩ := block.loopSites_in hexit hthen
    have hconds : Emitted none [] (c.skipLabels 1) condLines c₁ :=
      (cond.straight_emitOperand ctx).emitted hcond
    have hthens := block.emit_emitted hexit.isTarget hthen
    have hnext : (if !c₂.terminated || !c₃.terminated then c₃.stopped.enter (.cont c.nextLabel)
        else c₃.stopped).nextLabel = c₃.nextLabel := by
      split <;> rfl
    rw [hnext]
    have hfree := (cond.phiFree_emitOperand ctx _ _ _ _ hcond).1
    -- The else arm holds the last block, or the rest of the chain.
    unfold emitElse at helse
    cases conds with
    | nil =>
      obtain ⟨more, hmore, hphis', hins⟩ := lastLoopSites_in blocks hexit helse
      refine ⟨sites ++ more, ScriptLang.bind_eq_ok.mpr ⟨_, hcond, ScriptLang.bind_eq_ok.mpr
        ⟨sites, hsites, ScriptLang.bind_eq_ok.mpr ⟨_, hthen, ScriptLang.bind_eq_ok.mpr
          ⟨more, hmore, rfl⟩⟩⟩⟩, phisOf_arms hfree hphis hphis', fun site hm => ?_⟩
      exact .arms hexit hconds hthens (emitLast_emitted blocks hexit.isTarget helse)
        ((List.mem_append.mp hm).imp (hin site) (hins site))
    | cons next conds =>
      obtain ⟨more, hmore, hphis', hins⟩ := armLoopSites_in blocks (next :: conds) hexit helse
      refine ⟨sites ++ more, ScriptLang.bind_eq_ok.mpr ⟨_, hcond, ScriptLang.bind_eq_ok.mpr
        ⟨sites, hsites, ScriptLang.bind_eq_ok.mpr ⟨_, hthen, ScriptLang.bind_eq_ok.mpr
          ⟨more, hmore, rfl⟩⟩⟩⟩, phisOf_arms hfree hphis hphis', fun site hm => ?_⟩
      exact .arms hexit hconds hthens (emitArms_emitted blocks (next :: conds) hexit.isTarget helse)
        ((List.mem_append.mp hm).imp (hin site) (hins site))
theorem lastLoopSites_in {ctx : BodyContext} : ∀ (blocks : List Block) {exit : Option Label},
    Leaving exit → ∀ {c c' : Cursor} {lines : List Line},
    emitLast ctx exit blocks c = .ok ((), lines, c') →
    ∃ sites, lastLoopSites ctx exit blocks c = .ok sites ∧
      phisOf lines = sites.map LoopSite.phi ∧
      ∀ site ∈ sites, site.In c.nextLabel c'.nextLabel c.block lines
  | [], _, _, _, _, _, h => by
    cases h
    exact ⟨[], rfl, rfl, List.forall_mem_nil _⟩
  | [block], _, hexit, _, _, _, h => block.loopSites_in hexit h
  | _ :: next :: blocks, _, hexit, _, _, _, h => lastLoopSites_in (next :: blocks) hexit h
end

end ScriptLang
