import ScriptLang.Ir.Instr

/-!
# Emitting lines

An emitter appends lines and keeps track of where it is: the block it is filling, whether that
block has ended, and the next unused numbers. Numbers count over the whole module.

Nothing is ever appended to a block that has ended: an instruction that comes after the end opens a
block of its own, which nothing reaches.
-/

namespace ScriptLang

structure Cursor where
  /-- The block being filled. -/
  block : Label := .entry
  /-- Whether the block ends already. -/
  terminated : Bool := false
  nextReg : Nat := 1
  nextLabel : Nat := 0
  /-- The runtime routines called so far. -/
  used : List RuntimeRoutine := []
  deriving DecidableEq, Repr

/-- Gives a value and the lines it appends. -/
def Emit (α : Type) : Type :=
  Cursor → Except Halt (α × List Line × Cursor)

namespace Emit

variable {α β : Type}

protected def pure (a : α) : Emit α :=
  fun c => .ok (a, [], c)

protected def bind (e : Emit α) (f : α → Emit β) : Emit β :=
  fun c =>
    match e c with
    | .error halt => .error halt
    | .ok (a, lines, c) =>
      match f a c with
      | .error halt => .error halt
      | .ok (b, more, c) => .ok (b, lines ++ more, c)

instance : Monad Emit where
  pure := Emit.pure
  bind := Emit.bind

def ofExcept : Except Halt α → Emit α
  | .ok a => fun c => .ok (a, [], c)
  | .error halt => fun _ => .error halt

def fail (halt : Halt) : Emit α :=
  fun _ => .error halt

def cursor : Emit Cursor :=
  fun c => .ok (c, [], c)

def append (lines : List Line) : Emit Unit :=
  fun c => .ok ((), lines, c)

/-- Runs an emitter and hands its lines over instead of appending them. -/
def capture (e : Emit α) : Emit (α × List Line) :=
  fun c =>
    match e c with
    | .error halt => .error halt
    | .ok (a, lines, c) => .ok ((a, lines), [], c)

def freshReg : Emit ValueName :=
  fun c => .ok (.reg c.nextReg, [], { c with nextReg := c.nextReg + 1 })

def freshLabel : Emit Nat :=
  fun c => .ok (c.nextLabel, [], { c with nextLabel := c.nextLabel + 1 })

def use (routine : RuntimeRoutine) : Emit Unit :=
  fun c => .ok ((), [], { c with used := if routine ∈ c.used then c.used else routine :: c.used })

/-- Opens a block. The one before it must have ended. -/
def openBlock (label : Label) : Emit Unit :=
  fun c => .ok ((), [.label label], { c with block := label, terminated := false })

/-- Opens an unreachable block if the current one has ended. -/
def ensureOpen : Emit Unit := do
  if (← cursor).terminated then
    openBlock (.dead (← freshLabel))

def emit (instr : Instr) : Emit Unit := do
  ensureOpen
  append [.instr instr]

/-- Appends the instruction that ends the block. -/
def terminate (instr : Instr) : Emit Unit := do
  emit instr
  fun c => .ok ((), [], { c with terminated := true })

end Emit

end ScriptLang
