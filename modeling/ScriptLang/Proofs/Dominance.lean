import ScriptLang.Proofs.Blocks
import Mathlib.Data.List.Nodup

/-!
# Definitions and uses of values

Static single assignment form: each name is defined once, and control cannot reach a use without
passing through the definition. Instead of paths, a flow states for each block which values are
known where it starts and which its `phi` instructions take from where. Whether a flow fits is seen
line by line.
-/

namespace ScriptLang

variable {block : BasicBlock} {past : List BasicBlock} {routine : Routine} {v : ValueName}

/-! ## What instructions use -/

def Operand.uses : Operand → List ValueName
  | .const _ => []
  | .value name => [name]

namespace Computation

/-- The values that are read where the computation stands. -/
def uses : Computation → List ValueName
  | .binary _ _ a b => a.uses ++ b.uses
  | .unary _ a => a.uses
  | .alloca _ => []
  | .load _ cell => [cell]
  | .call _ _ args => args.flatMap (·.2.uses)
  | .phi _ => []
  | .trunc a => a.uses

/-- The values that are read at the end of another block, with its label. -/
def incoming : Computation → List (ValueName × Label)
  | .phi incoming => incoming.flatMap fun pair => pair.1.uses.map (·, pair.2)
  | _ => []

end Computation

namespace Instr

def uses : Instr → List ValueName
  | .assign _ value => value.uses
  | .perform effect => effect.uses
  | .store _ value cell => value.uses ++ [cell]
  | .br _ => []
  | .condBr cond _ _ => cond.uses
  | .ret none => []
  | .ret (some (_, value)) => value.uses

def incoming : Instr → List (ValueName × Label)
  | .assign _ value => value.incoming
  | .perform effect => effect.incoming
  | _ => []

end Instr

/-! ## Paths -/

/-- Control gets from the entry of the routine to the start of a block through the blocks before. -/
inductive Path (routine : Routine) : List BasicBlock → BasicBlock → Prop where
  | entry {first : BasicBlock} {rest : List BasicBlock} (h : routine.blocks = first :: rest) :
      Path routine [] first
  | step {past : List BasicBlock} {block next : BasicBlock} (h : Path routine past block)
      (hn : next ∈ routine.blocks) (hs : next.label ∈ block.successors) :
      Path routine (past ++ [block]) next

def Routine.arguments (routine : Routine) : List ValueName :=
  routine.params.map (·.2)

/-- Everything that has a value once control went through the blocks and the instructions. -/
def Routine.passed (routine : Routine) (past : List BasicBlock) (before : List Instr) :
    List ValueName :=
  routine.arguments ++ definedIn (past.flatMap (·.instrs) ++ before)

/-- Every definition of a routine: its parameters, and what its instructions give. -/
def Routine.definitions (routine : Routine) : List ValueName :=
  routine.passed routine.blocks []

/-- Static single assignment form. A `phi` reads its operands at the end of the blocks it lists. -/
structure Routine.SingleAssignment (routine : Routine) : Prop where
  once : (routine.definitions.map ValueName.text).Nodup
  apart : ∀ v ∈ routine.definitions, ∀ block ∈ routine.blocks, v.text ≠ "%" ++ block.label.text
  defined : ∀ block ∈ routine.blocks, ∀ i ∈ block.instrs,
    (∀ v ∈ i.uses, v ∈ routine.definitions) ∧ ∀ pair ∈ i.incoming, pair.1 ∈ routine.definitions
  dominates : ∀ past block, Path routine past block →
    ∀ before i after, block.instrs = before ++ i :: after →
      ∀ v ∈ i.uses, v ∈ routine.passed past before
  dominatesIncoming : ∀ block ∈ routine.blocks, ∀ i ∈ block.instrs, ∀ v l, (v, l) ∈ i.incoming →
    ∀ past pred, Path routine past pred → pred.label = l → v ∈ routine.passed past pred.instrs

theorem Path.mem (h : Path routine past block) : block ∈ routine.blocks := by
  cases h with
  | entry h => rw [h]; exact List.mem_cons_self
  | step _ hn _ => exact hn

/-! ## Flows -/

/-- For each block, what is known where it starts, and what its `phi` instructions take from
where. -/
structure Flow where
  known : Label → List ValueName
  phis : Label → List (ValueName × Label)

namespace Flow

variable (flow : Flow)

/-- The instruction reads what is known, and so does every block it can go to. -/
structure Accepts (block : Label) (known : List ValueName) (i : Instr) : Prop where
  uses : ∀ v ∈ i.uses, v ∈ known
  incoming : ∀ pair ∈ i.incoming, pair ∈ flow.phis block
  targets : ∀ l ∈ i.targets,
    (∀ v ∈ flow.known l, v ∈ known) ∧ ∀ v, (v, block) ∈ flow.phis l → v ∈ known

/-- The lines, read in the given block with the given values known, agree with the flow. -/
def Fits : Label → List ValueName → List Line → Prop
  | _, _, [] => True
  | _, known, .label l :: lines => (∀ v ∈ flow.known l, v ∈ known) ∧ Fits l (flow.known l) lines
  | block, known, .instr i :: lines =>
    flow.Accepts block known i ∧ Fits block (known ++ i.dest?.toList) lines

/-- What is known after the lines. -/
def knownAfter : List ValueName → List Line → List ValueName
  | known, [] => known
  | _, .label l :: lines => knownAfter (flow.known l) lines
  | known, .instr i :: lines => knownAfter (known ++ i.dest?.toList) lines

end Flow

/-- The jumps of the lines, each from the block it stands in. -/
def edges : Label → List Line → List (Label × Label)
  | _, [] => []
  | _, .label l :: lines => edges l lines
  | block, .instr i :: lines => i.targets.map (block, ·) ++ edges block lines

section

variable {flow : Flow} {block : Label} {known : List ValueName} {lines : List Line}

theorem Flow.Fits.accepts (h : flow.Fits block known lines) :
    (∀ before i after, (readLines lines).1 = before ++ i :: after →
      flow.Accepts block (known ++ definedIn before) i) ∧
    ∀ b ∈ (readLines lines).2, ∀ before i after, b.instrs = before ++ i :: after →
      flow.Accepts b.label (flow.known b.label ++ definedIn before) i := by
  induction lines generalizing block known with
  | nil =>
    constructor
    · intro before i after he
      simp [readLines] at he
    · intro b hb
      cases hb
  | cons line lines ih =>
    cases line with
    | label l =>
      obtain ⟨hlead, hrest⟩ := ih h.2
      constructor
      · intro before i after he
        simp [readLines] at he
      · intro b hb
        rcases List.mem_cons.mp hb with rfl | hb
        · exact hlead
        · exact hrest b hb
    | instr i =>
      obtain ⟨hlead, hrest⟩ := ih h.2
      refine ⟨?_, hrest⟩
      intro before j after he
      cases before with
      | nil =>
        obtain ⟨rfl, -⟩ := List.cons.inj he
        rw [definedIn_nil, List.append_nil]
        exact h.1
      | cons first before =>
        obtain ⟨rfl, hrest⟩ := List.cons.inj he
        rw [definedIn_cons, ← List.append_assoc]
        exact hlead before j after hrest

theorem Flow.Fits.bounded (h : flow.Fits block known lines) :
    ∀ b ∈ (readLines lines).2, ∀ v ∈ flow.known b.label,
      v ∈ known ∨ v ∈ definedIn (instrsOf lines) := by
  induction lines generalizing block known with
  | nil =>
    intro b hb
    cases hb
  | cons line lines ih =>
    cases line with
    | label l =>
      intro b hb v hv
      rcases List.mem_cons.mp hb with rfl | hb
      · exact Or.inl (h.1 v hv)
      · rcases ih h.2 b hb v hv with hk | hd
        · exact Or.inl (h.1 v hk)
        · exact Or.inr hd
    | instr i =>
      intro b hb v hv
      rw [instrsOf_instr, definedIn_cons, List.mem_append]
      rcases ih h.2 b hb v hv with hk | hd
      · rcases List.mem_append.mp hk with hk | hk
        · exact Or.inl hk
        · exact Or.inr (Or.inl hk)
      · exact Or.inr (Or.inr hd)

theorem mem_edges {source target : Label} (h : (source, target) ∈ edges block lines) :
    (source = block ∧ target ∈ (readLines lines).1.flatMap Instr.targets) ∨
      ∃ b ∈ (readLines lines).2, b.label = source ∧ target ∈ b.successors := by
  induction lines generalizing block with
  | nil => cases h
  | cons line lines ih =>
    cases line with
    | label l =>
      rcases ih h with ⟨rfl, ht⟩ | ⟨b, hb, he, ht⟩
      · exact Or.inr ⟨_, List.mem_cons_self, rfl, ht⟩
      · exact Or.inr ⟨b, List.mem_cons_of_mem _ hb, he, ht⟩
    | instr i =>
      rw [readLines, List.flatMap_cons, List.mem_append]
      rcases List.mem_append.mp h with h | h
      · obtain ⟨l, hl, he⟩ := List.mem_map.mp h
        obtain ⟨rfl, rfl⟩ := Prod.mk.inj he
        exact Or.inl ⟨rfl, Or.inl hl⟩
      · rcases ih h with ⟨rfl, ht⟩ | hb
        · exact Or.inl ⟨rfl, Or.inr ht⟩
        · exact Or.inr hb

end

/-! ## Routines with a fitting flow -/

/-- The flow fits the routine, and `phi` instructions name blocks that lead to them. -/
structure Flow.FitsRoutine (flow : Flow) (routine : Routine) : Prop where
  fits : flow.Fits .entry routine.arguments routine.lines
  phis : ∀ block ∈ routine.blocks, ∀ pair ∈ flow.phis block.label,
    (pair.2, block.label) ∈ edges .entry routine.lines

theorem Routine.WellFormed.labels_inj (hw : routine.WellFormed) {a b : BasicBlock}
    (ha : a ∈ routine.blocks) (hb : b ∈ routine.blocks) (h : a.label = b.label) : a = b :=
  List.inj_on_of_nodup_map hw.distinct ha hb (congrArg Label.text h)

theorem Routine.WellFormed.lead_nil (hw : routine.WellFormed) :
    (readLines routine.lines).1 = [] := by
  obtain ⟨first, rest, hblocks, _⟩ := hw.entry
  rw [hw.lines, hblocks]
  rfl

namespace Flow.FitsRoutine

variable {flow : Flow} {routine : Routine} (hf : flow.FitsRoutine routine)
include hf

theorem accepts {block : BasicBlock} (hb : block ∈ routine.blocks) {before after : List Instr}
    {i : Instr} (h : block.instrs = before ++ i :: after) :
    flow.Accepts block.label (flow.known block.label ++ definedIn before) i :=
  hf.fits.accepts.2 block hb before i after h

theorem known_successor (hb : block ∈ routine.blocks) {l : Label} (hl : l ∈ block.successors)
    (hv : v ∈ flow.known l ∨ (v, block.label) ∈ flow.phis l) :
    v ∈ flow.known block.label ++ definedIn block.instrs := by
  obtain ⟨i, hi, hl⟩ := List.mem_flatMap.mp hl
  obtain ⟨before, after, hsplit⟩ := List.append_of_mem hi
  obtain ⟨hknown, hphi⟩ := (hf.accepts hb hsplit).targets l hl
  rw [hsplit, definedIn_append, ← List.append_assoc]
  apply List.mem_append_left
  rcases hv with hv | hv
  · exact hknown v hv
  · exact hphi v hv

/-- What is known where a block starts was defined on every path to it. -/
theorem known_path (hw : routine.WellFormed) (h : Path routine past block)
    (hv : v ∈ flow.known block.label) :
    v ∈ routine.arguments ++ definedIn (past.flatMap (·.instrs)) := by
  induction h generalizing v with
  | @entry first rest h =>
    have hfits := hf.fits
    rw [hw.lines, h] at hfits
    exact List.mem_append_left _ (hfits.1 v hv)
  | @step past block next hp hn hs ih =>
    rw [List.flatMap_append, definedIn_append, ← List.append_assoc, List.flatMap_singleton]
    rcases List.mem_append.mp (hf.known_successor hp.mem hs (Or.inl hv)) with hk | hd
    · exact List.mem_append_left _ (ih hk)
    · exact List.mem_append_right _ hd

theorem passed_of_known (hw : routine.WellFormed) (h : Path routine past block)
    {before : List Instr} (hv : v ∈ flow.known block.label ++ definedIn before) :
    v ∈ routine.passed past before := by
  rw [Routine.passed, definedIn_append, ← List.append_assoc]
  rcases List.mem_append.mp hv with hk | hd
  · exact List.mem_append_left _ (hf.known_path hw h hk)
  · exact List.mem_append_right _ hd

theorem defined_of_known (hw : routine.WellFormed) (hb : block ∈ routine.blocks)
    {before after : List Instr} (hsplit : block.instrs = before ++ after)
    (hv : v ∈ flow.known block.label ++ definedIn before) : v ∈ routine.definitions := by
  rw [Routine.definitions, Routine.passed, List.append_nil]
  rcases List.mem_append.mp hv with hk | hd
  · rcases hf.fits.bounded block hb v hk with ha | hd
    · exact List.mem_append_left _ ha
    · rw [← readLines_instrs, hw.lead_nil] at hd
      exact List.mem_append_right _ hd
  · apply List.mem_append_right
    obtain ⟨i, hi, he⟩ := List.mem_filterMap.mp hd
    have hi : i ∈ block.instrs := hsplit ▸ List.mem_append_left _ hi
    exact List.mem_filterMap.mpr ⟨i, List.mem_flatMap.mpr ⟨block, hb, hi⟩, he⟩

theorem incoming_known (hw : routine.WellFormed) (hb : block ∈ routine.blocks) {i : Instr}
    (hi : i ∈ block.instrs) {l : Label} (h : (v, l) ∈ i.incoming) :
    ∃ pred ∈ routine.blocks, pred.label = l ∧
      v ∈ flow.known pred.label ++ definedIn pred.instrs := by
  obtain ⟨before, after, hsplit⟩ := List.append_of_mem hi
  have hphi := (hf.accepts hb hsplit).incoming _ h
  rcases mem_edges (hf.phis block hb _ hphi) with ⟨_, ht⟩ | ⟨pred, hp, he, ht⟩
  · rw [hw.lead_nil] at ht
    cases ht
  · have hl : pred.label = l := he
    rw [← hl] at hphi
    exact ⟨pred, hp, hl, hf.known_successor hp ht (Or.inr hphi)⟩

theorem singleAssignment (hw : routine.WellFormed) (hn : routine.definitions.Nodup) :
    routine.SingleAssignment where
  once := hn.map ValueName.text_injective
  apart := fun v _ block _ => v.text_ne_label block.label
  defined := by
    intro block hb i hi
    constructor
    · intro v hv
      obtain ⟨before, after, hsplit⟩ := List.append_of_mem hi
      exact hf.defined_of_known hw hb hsplit ((hf.accepts hb hsplit).uses v hv)
    · rintro ⟨v, l⟩ hpair
      obtain ⟨pred, hp, _, hk⟩ := hf.incoming_known hw hb hi hpair
      exact hf.defined_of_known hw hp (List.append_nil _).symm hk
  dominates := by
    intro past block hp before i after hsplit v hv
    exact hf.passed_of_known hw hp ((hf.accepts hp.mem hsplit).uses v hv)
  dominatesIncoming := by
    intro block hb i hi v l hpair past pred hp hl
    obtain ⟨pred', hp', hl', hk⟩ := hf.incoming_known hw hb hi hpair
    obtain rfl : pred' = pred := hw.labels_inj hp' hp.mem (hl'.trans hl.symm)
    exact hf.passed_of_known hw hp hk

end Flow.FitsRoutine

end ScriptLang
