import ScriptLang.Ir.Instr
import Mathlib.Data.List.Basic

/-!
# Basic blocks

The lines of a routine read as basic blocks, and when that reading is well formed: every block ends
with its only terminator, labels are distinct, and control goes to blocks of the same routine.
-/

namespace ScriptLang

/-! ## What lines name -/

/-- The labels to which control can go on. -/
def Instr.targets : Instr → List Label
  | .br target => [target]
  | .condBr _ thenTo elseTo => [thenTo, elseTo]
  | _ => []

/-- The value that an instruction defines. -/
def Instr.dest? : Instr → Option ValueName
  | .assign dest _ => some dest
  | _ => none

theorem Instr.targets_of_not_terminator {i : Instr} (h : i.isTerminator = false) :
    i.targets = [] := by
  cases i <;> simp_all [Instr.isTerminator, Instr.targets]

theorem Instr.dest?_of_terminator {i : Instr} (h : i.isTerminator = true) : i.dest? = none := by
  cases i <;> simp_all [Instr.isTerminator, Instr.dest?]

def Line.label? : Line → Option Label
  | .label l => some l
  | .instr _ => none

def Line.instr? : Line → Option Instr
  | .label _ => none
  | .instr i => some i

def labelsOf (lines : List Line) : List Label :=
  lines.filterMap Line.label?

def instrsOf (lines : List Line) : List Instr :=
  lines.filterMap Line.instr?

def targetsOf (lines : List Line) : List Label :=
  (instrsOf lines).flatMap Instr.targets

def definedIn (instrs : List Instr) : List ValueName :=
  instrs.filterMap Instr.dest?

section

variable (l : Label) (i : Instr) (lines more : List Line)

@[simp] theorem labelsOf_nil : labelsOf [] = [] := rfl
@[simp] theorem labelsOf_label : labelsOf (.label l :: lines) = l :: labelsOf lines := rfl
@[simp] theorem labelsOf_instr : labelsOf (.instr i :: lines) = labelsOf lines := rfl
@[simp] theorem labelsOf_append : labelsOf (lines ++ more) = labelsOf lines ++ labelsOf more :=
  List.filterMap_append

@[simp] theorem instrsOf_nil : instrsOf [] = [] := rfl
@[simp] theorem instrsOf_label : instrsOf (.label l :: lines) = instrsOf lines := rfl
@[simp] theorem instrsOf_instr : instrsOf (.instr i :: lines) = i :: instrsOf lines := rfl
@[simp] theorem instrsOf_append : instrsOf (lines ++ more) = instrsOf lines ++ instrsOf more :=
  List.filterMap_append

@[simp] theorem targetsOf_nil : targetsOf [] = [] := rfl
@[simp] theorem targetsOf_label : targetsOf (.label l :: lines) = targetsOf lines := rfl
@[simp] theorem targetsOf_instr : targetsOf (.instr i :: lines) = i.targets ++ targetsOf lines := rfl
@[simp] theorem targetsOf_append : targetsOf (lines ++ more) = targetsOf lines ++ targetsOf more := by
  simp [targetsOf]

@[simp] theorem definedIn_nil : definedIn [] = [] := rfl
@[simp] theorem definedIn_append (is js : List Instr) :
    definedIn (is ++ js) = definedIn is ++ definedIn js :=
  List.filterMap_append

theorem definedIn_cons (is : List Instr) :
    definedIn (i :: is) = i.dest?.toList ++ definedIn is := by
  cases h : i.dest? <;> simp [definedIn, h]

end

/-! ## Reading blocks -/

structure BasicBlock where
  label : Label
  instrs : List Instr
  deriving DecidableEq, Repr

def BasicBlock.lines (block : BasicBlock) : List Line :=
  .label block.label :: block.instrs.map .instr

/-- The labels to which control can go from the end of a block. -/
def BasicBlock.successors (block : BasicBlock) : List Label :=
  block.instrs.flatMap Instr.targets

/-- The instructions before the first label, and the blocks after it. -/
def readLines : List Line → List Instr × List BasicBlock
  | [] => ([], [])
  | .instr i :: lines => (i :: (readLines lines).1, (readLines lines).2)
  | .label l :: lines => ([], ⟨l, (readLines lines).1⟩ :: (readLines lines).2)

def Routine.blocks (routine : Routine) : List BasicBlock :=
  (readLines routine.lines).2

theorem readLines_lines (lines : List Line) :
    lines = (readLines lines).1.map .instr ++ (readLines lines).2.flatMap BasicBlock.lines := by
  induction lines with
  | nil => rfl
  | cons line lines ih =>
    cases line with
    | instr i =>
      simp only [readLines, List.map_cons, List.cons_append, ← ih]
    | label l =>
      simp only [readLines, List.map_nil, List.nil_append, List.flatMap_cons, BasicBlock.lines,
        List.cons_append, ← ih]

theorem readLines_labels (lines : List Line) :
    (readLines lines).2.map (·.label) = labelsOf lines := by
  induction lines with
  | nil => rfl
  | cons line lines ih =>
    cases line with
    | instr i => exact ih
    | label l => exact congrArg (l :: ·) ih

theorem readLines_instrs (lines : List Line) :
    (readLines lines).1 ++ (readLines lines).2.flatMap (·.instrs) = instrsOf lines := by
  induction lines with
  | nil => rfl
  | cons line lines ih =>
    cases line with
    | instr i => exact congrArg (i :: ·) ih
    | label l => exact ih

/-- The block in which the lines end. -/
def blockAfter : Label → List Line → Label
  | block, [] => block
  | _, .label l :: lines => blockAfter l lines
  | block, .instr _ :: lines => blockAfter block lines

theorem blockAfter_append (block : Label) (lines more : List Line) :
    blockAfter block (lines ++ more) = blockAfter (blockAfter block lines) more := by
  induction lines generalizing block with
  | nil => rfl
  | cons line lines ih => cases line <;> exact ih _

theorem blockAfter_mem (block : Label) (lines : List Line) :
    blockAfter block lines = block ∨ blockAfter block lines ∈ labelsOf lines := by
  induction lines generalizing block with
  | nil => exact Or.inl rfl
  | cons line lines ih =>
    cases line with
    | instr i => exact ih block
    | label l =>
      refine Or.inr (List.mem_cons.mpr ?_)
      exact ih l

/-! ## Well-formed blocks -/

/-- There is exactly one terminator, and it comes last. -/
def Ended (instrs : List Instr) : Prop :=
  ∃ init last, instrs = init ++ [last] ∧ last.isTerminator = true ∧
    ∀ i ∈ init, i.isTerminator = false

theorem Ended.single {i : Instr} (h : i.isTerminator = true) : Ended [i] :=
  ⟨[], i, rfl, h, fun _ hm => nomatch hm⟩

theorem Ended.cons {i : Instr} {is : List Instr} (hi : i.isTerminator = false) (h : Ended is) :
    Ended (i :: is) := by
  obtain ⟨init, last, rfl, hlast, hinit⟩ := h
  refine ⟨i :: init, last, rfl, hlast, ?_⟩
  intro j hj
  rcases List.mem_cons.mp hj with rfl | hj
  · exact hi
  · exact hinit j hj

/-- Whether the last block has ended after the lines, given whether it had before them. There is no
answer if a label stands in a block that has not ended, or an instruction in one that has. -/
def fill : Bool → List Line → Option Bool
  | ended, [] => some ended
  | ended, .label _ :: lines => if ended then fill false lines else none
  | ended, .instr i :: lines => if ended then none else fill i.isTerminator lines

theorem fill_append (ended : Bool) (lines more : List Line) :
    fill ended (lines ++ more) = (fill ended lines).bind (fill · more) := by
  induction lines generalizing ended with
  | nil => rfl
  | cons line lines ih => cases line <;> cases ended <;> simp [fill, ih]

theorem fill_ended {lines : List Line} {ended : Bool} (h : fill ended lines = some true) :
    (if ended then (readLines lines).1 = [] else Ended (readLines lines).1) ∧
      ∀ block ∈ (readLines lines).2, Ended block.instrs := by
  induction lines generalizing ended with
  | nil =>
    cases h
    exact ⟨rfl, fun _ hm => nomatch hm⟩
  | cons line lines ih =>
    cases line with
    | label l =>
      cases ended with
      | false => cases h
      | true =>
        obtain ⟨hlead, hrest⟩ := ih h
        refine ⟨rfl, ?_⟩
        intro block hb
        rcases List.mem_cons.mp hb with rfl | hb
        · exact hlead
        · exact hrest block hb
    | instr i =>
      cases ended with
      | true => cases h
      | false =>
        obtain ⟨hlead, hrest⟩ := ih h
        refine ⟨?_, hrest⟩
        cases hi : i.isTerminator with
        | false =>
          rw [hi] at hlead
          exact hlead.cons hi
        | true =>
          rw [hi] at hlead
          have hnil : (readLines lines).1 = [] := hlead
          change Ended (i :: (readLines lines).1)
          rw [hnil]
          exact .single hi

/-- The body of a routine is a sequence of basic blocks that starts at `entry`. -/
structure Routine.WellFormed (routine : Routine) : Prop where
  lines : routine.lines = routine.blocks.flatMap BasicBlock.lines
  entry : ∃ first rest, routine.blocks = first :: rest ∧ first.label = .entry
  ended : ∀ block ∈ routine.blocks, Ended block.instrs
  distinct : (routine.blocks.map (·.label.text)).Nodup
  targets : ∀ block ∈ routine.blocks, ∀ l ∈ block.successors,
    (∃ target ∈ routine.blocks, target.label = l) ∧ l ≠ .entry ∧ ∀ id, l ≠ .dead id

/-- The labels of a routine but for `entry`. -/
def Routine.innerLabels (routine : Routine) : List Label :=
  (routine.blocks.map (·.label)).filter (· ≠ .entry)

/-! ## Names in the text -/

def Label.number? : Label → Option Nat
  | .entry => none
  | .thenArm id => some id
  | .elseArm id => some id
  | .cont id => some id
  | .head id => some id
  | .body id => some id
  | .dead id => some id

/-- What the text of a label starts with. -/
def Label.stem : Label → List Char
  | .entry => ['e', 'n', 't', 'r', 'y']
  | .thenArm _ => ['t', 'h', 'e', 'n', '_']
  | .elseArm _ => ['e', 'l', 's', 'e', '_']
  | .cont _ => ['c', 'o', 'n', 't', '_']
  | .head _ => ['h', 'e', 'a', 'd', '_']
  | .body _ => ['b', 'o', 'd', 'y', '_']
  | .dead _ => ['d', 'e', 'a', 'd', '_']

def numeral : Option Nat → List Char
  | none => []
  | some n => Nat.toDigits 10 n

theorem numeral_injective : Function.Injective numeral := by
  intro a b h
  cases a with
  | none =>
    cases b with
    | none => rfl
    | some n => exact absurd h.symm Nat.toDigits_ne_nil
  | some m =>
    cases b with
    | none => exact absurd h Nat.toDigits_ne_nil
    | some n =>
      have hd := congrArg (Nat.ofDigitChars 10 · 0) (show Nat.toDigits 10 m = Nat.toDigits 10 n from h)
      simp only [Nat.ofDigitChars_toDigits (by decide : 1 < 10) (by decide : 10 ≤ 10)] at hd
      rw [hd]

theorem Label.toList_text (l : Label) : l.text.toList = l.stem ++ numeral l.number? := by
  have literal (s : String) : toString s = s := rfl
  cases l <;>
    simp [Label.text, Label.stem, Label.number?, numeral, Nat.toString_eq_repr, Nat.toList_repr,
      literal]

theorem isDigit_of_mem_numeral {n : Option Nat} {c : Char} (h : c ∈ numeral n) :
    c.isDigit = true := by
  cases n with
  | none => cases h
  | some n => exact Nat.isDigit_of_mem_toDigits (by decide) (by decide) h

theorem dot_not_mem_numeral (n : Option Nat) : '.' ∉ numeral n := by
  intro h
  have hd := isDigit_of_mem_numeral h
  cases hd

theorem Label.eq_of_stem {a b : Label} (hstem : a.stem = b.stem) (hnum : a.number? = b.number?) :
    a = b := by
  cases a <;> cases b <;> simp_all [Label.stem, Label.number?]

theorem Label.text_injective : Function.Injective Label.text := by
  intro a b h
  have hl : a.stem ++ numeral a.number? = b.stem ++ numeral b.number? := by
    rw [← a.toList_text, ← b.toList_text, h]
  have hlen : a.stem.length = b.stem.length := by
    cases a <;> cases b <;> rfl
  obtain ⟨hstem, hnum⟩ := List.append_inj hl hlen
  exact Label.eq_of_stem hstem (numeral_injective hnum)

theorem Label.dot_not_mem_text (l : Label) : '.' ∉ l.text.toList := by
  rw [l.toList_text]
  intro h
  rcases List.mem_append.mp h with h | h
  · cases l <;> simp [Label.stem] at h
  · exact dot_not_mem_numeral _ h

theorem ValueName.toList_reg (n : Nat) :
    (ValueName.reg n).text.toList = '%' :: 'r' :: numeral (some n) := by
  have literal (s : String) : toString s = s := rfl
  simp [ValueName.text, numeral, Nat.toString_eq_repr, Nat.toList_repr, literal]

theorem ValueName.toList_variable (name : String) (id : DeclId) :
    (ValueName.variable name id).text.toList =
      '%' :: (name.toList ++ '.' :: numeral (some id)) := by
  have literal (s : String) : toString s = s := rfl
  simp [ValueName.text, numeral, Nat.toString_eq_repr, Nat.toList_repr, literal]

theorem append_dot_inj {xs ys ds es : List Char} (hd : '.' ∉ ds) (he : '.' ∉ es)
    (h : xs ++ '.' :: ds = ys ++ '.' :: es) : xs = ys ∧ ds = es := by
  rcases List.append_eq_append_iff.mp h with ⟨zs, rfl, hz⟩ | ⟨zs, rfl, hz⟩
  · cases zs with
    | nil => exact ⟨(List.append_nil xs).symm, (List.cons.inj hz).2⟩
    | cons z zs =>
      refine absurd ?_ hd
      rw [(List.cons.inj hz).2]
      exact List.mem_append_right _ List.mem_cons_self
  · cases zs with
    | nil => exact ⟨List.append_nil ys, ((List.cons.inj hz).2).symm⟩
    | cons z zs =>
      refine absurd ?_ he
      rw [(List.cons.inj hz).2]
      exact List.mem_append_right _ List.mem_cons_self

theorem ValueName.dot_mem_text {v : ValueName} :
    '.' ∈ v.text.toList ↔ ∃ name id, v = .variable name id := by
  rcases v with n | ⟨name, id⟩
  · rw [ValueName.toList_reg]
    simp [dot_not_mem_numeral]
  · rw [ValueName.toList_variable]
    simp

theorem ValueName.text_injective : Function.Injective ValueName.text := by
  intro v w h
  have hl := congrArg String.toList h
  have hdot : (∃ name id, v = .variable name id) ↔ ∃ name id, w = .variable name id := by
    rw [← ValueName.dot_mem_text, ← ValueName.dot_mem_text, hl]
  rcases v with m | ⟨name, id⟩ <;> rcases w with n | ⟨name', id'⟩
  · rw [ValueName.toList_reg, ValueName.toList_reg] at hl
    have hn := numeral_injective (List.cons.inj (List.cons.inj hl).2).2
    rw [Option.some.inj hn]
  · simp at hdot
  · simp at hdot
  · rw [ValueName.toList_variable, ValueName.toList_variable] at hl
    obtain ⟨hn, hi⟩ := append_dot_inj (dot_not_mem_numeral _) (dot_not_mem_numeral _)
      (List.cons.inj hl).2
    rw [String.toList_inj.mp hn, Option.some.inj (numeral_injective hi)]

theorem ValueName.text_ne_label (v : ValueName) (l : Label) : v.text ≠ "%" ++ l.text := by
  intro h
  have hl := congrArg String.toList h
  rw [String.toList_append] at hl
  rcases v with n | ⟨name, id⟩
  · rw [ValueName.toList_reg, l.toList_text] at hl
    have hr := (List.cons.inj hl).2
    cases l <;> simp [Label.stem] at hr
  · have hdot := ValueName.dot_mem_text.mpr ⟨name, id, rfl⟩
    rw [hl] at hdot
    rcases List.mem_append.mp hdot with hd | hd
    · simp at hd
    · exact l.dot_not_mem_text hd

end ScriptLang
