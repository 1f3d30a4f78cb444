import ScriptLang.Proofs.Evaluation
import ScriptLang.Proofs.Totality
import Mathlib.Logic.Relation

/-!
# Running modules

A machine for emitted modules. Control is a position in the lines of a routine, jumps look for their
label, calls look for their symbol among the globals of the module, and values live in registers and
cells. Whatever is out of order makes it stop without a result.
-/

namespace ScriptLang

variable {dest : Option ValueName} {ty : IrType} {args : List (IrType × Operand)} {vals : List Val}

/-! ## Types and operations -/

def Val.irType : Val → IrType
  | .bool _ => .i1
  | .int _ => .i64
  | .float _ => .double
  | .status _ => .i32
  | .nothing => .void

/-- A constant at a type. -/
def Literal.atType : Literal → IrType → Option Val
  | .bool b, .i1 => some (.bool b)
  | .int n, .i64 => some (.int n)
  | .int n, .i32 => some (.status (statusOf n))
  | .float x, .double => some (.float x)
  | _, _ => none

/-- What a call of a routine with the given return type gives. -/
def Val.result (v : Val) (ret : IrType) : Option Val :=
  if ret = .void then none else some v

/-- A new cell of a type. -/
def Contents.cell (contents : Contents) : IrType → Option Val
  | .i1 => some (.bool contents.bool)
  | .i64 => some (.int contents.int)
  | .double => some (.float contents.float)
  | _ => none

def IntPredicate.symbol : IntPredicate → String
  | .eq => "=="
  | .ne => "!="
  | .slt => "<"
  | .sle => "<="
  | .sgt => ">"
  | .sge => ">="

def FloatPredicate.symbol : FloatPredicate → String
  | .oeq => "=="
  | .one => "!="
  | .olt => "<"
  | .ole => "<="
  | .ogt => ">"
  | .oge => ">="

/-- What an instruction does to operands of a type, as an operation of the language. -/
def Opcode.meaning : Opcode → IrType → Option Operation
  | .add, .i64 => some ⟨"+", [.int, .int]⟩
  | .sub, .i64 => some ⟨"-", [.int, .int]⟩
  | .mul, .i64 => some ⟨"*", [.int, .int]⟩
  | .sdiv, .i64 => some ⟨"/", [.int, .int]⟩
  | .srem, .i64 => some ⟨"%", [.int, .int]⟩
  | .icmp predicate, .i64 => some ⟨predicate.symbol, [.int, .int]⟩
  | .fadd, .double => some ⟨"+", [.float, .float]⟩
  | .fsub, .double => some ⟨"-", [.float, .float]⟩
  | .fmul, .double => some ⟨"*", [.float, .float]⟩
  | .fdiv, .double => some ⟨"/", [.float, .float]⟩
  | .frem, .double => some ⟨"%", [.float, .float]⟩
  | .fcmp predicate, .double => some ⟨predicate.symbol, [.float, .float]⟩
  | .icmp .eq, .i1 => some ⟨"==", [.bool, .bool]⟩
  | .icmp .ne, .i1 => some ⟨"!=", [.bool, .bool]⟩
  | .and, .i1 => some ⟨"and", [.bool, .bool]⟩
  | .or, .i1 => some ⟨"or", [.bool, .bool]⟩
  | _, _ => none

def UnaryOp.meaning : UnaryOp → Operation
  | .negInt => ⟨"-", [.int]⟩
  | .negFloat => ⟨"-", [.float]⟩
  | .not => ⟨"not", [.bool]⟩

/-- The type of the operand. -/
def UnaryOp.type : UnaryOp → IrType
  | .negInt => .i64
  | .negFloat => .double
  | .not => .i1

def RuntimeRoutine.meaning : RuntimeRoutine → Operation
  | .floatPower => ⟨"^", [.float, .float]⟩
  | .intPower => ⟨"^", [.int, .int]⟩
  | .printBool => ⟨"print", [.bool]⟩
  | .printFloat => ⟨"print", [.float]⟩
  | .printInt => ⟨"print", [.int]⟩

/-! ## Frames -/

/-- The lines after a label. -/
def codeAt (l : Label) : List Line → Option (List Line)
  | [] => none
  | .label l' :: lines => if l' = l then some lines else codeAt l lines
  | .instr _ :: lines => codeAt l lines

/-- An activation of a routine. -/
structure Frame where
  routine : Routine
  /-- What comes next. -/
  code : List Line
  block : Label
  /-- The block that control came from. -/
  origin : Option Label
  regs : ValueName → Option Val
  cells : ValueName → Option Val

namespace Frame

/-- The frame with the given code to come. -/
def before (f : Frame) (code : List Line) : Frame :=
  { f with code }

/-- An operand at a type. -/
def operand (f : Frame) (ty : IrType) : Operand → Option Val
  | .const literal => literal.atType ty
  | .value name => (f.regs name).filter (·.irType = ty)

def operands (f : Frame) : List (IrType × Operand) → Option (List Val)
  | [] => some []
  | (ty, o) :: args => do
    let v ← f.operand ty o
    let vs ← f.operands args
    return v :: vs

def assign (f : Frame) (dest : ValueName) (v : Val) : Frame :=
  { f with regs := Function.update f.regs dest (some v) }

def setCell (f : Frame) (cell : ValueName) (v : Val) : Frame :=
  { f with cells := Function.update f.cells cell (some v) }

/-- The frame at the beginning of another block. -/
def arrive (f : Frame) (target : Label) : Frame :=
  { f with block := target, origin := some f.block }

def jump (f : Frame) (target : Label) : Option Frame := do
  let code ← codeAt target f.routine.lines
  return (f.arrive target).before code

/-- A routine called with the given arguments. -/
def start (routine : Routine) (args : List Val) : Option Frame := do
  let code ← codeAt .entry routine.lines
  if routine.params.map (·.1) = args.map Val.irType then
    return {
      routine, code, block := .entry, origin := none
      regs := fun name => ((routine.params.map (·.2)).zip args).lookup name
      cells := fun _ => none }
  else none

/-- Takes what a call gave. Where a value is expected there must be one. -/
def receive (f : Frame) : Option ValueName → Option Val → Option Frame
  | some dest, some v => some (f.assign dest v)
  | some _, none => none
  | none, _ => some f

end Frame

/-! ## Machines -/

/-- A symbol of a module stands for a routine, or for one that the runtime provides. -/
inductive Global where
  | routine (r : Routine)
  | runtime (r : RuntimeRoutine)

namespace Module

def globals (m : Module) : List (String × Global) :=
  m.routines.map (fun r => (r.symbol, .routine r)) ++
    m.declares.map fun r => ((Callee.runtime r).text, .runtime r)

/-- The symbols that a module defines or declares. -/
def symbols (m : Module) : List String :=
  m.globals.map (·.1)

def find (m : Module) (symbol : String) : Option Global :=
  m.globals.lookup symbol

end Module

/-- The frame that runs, the frames that wait for it with the names of what they wait for, and the
world. -/
structure Machine (World : Type) where
  frame : Frame
  callers : List (Option ValueName × Frame)
  world : World

inductive Config (World : Type) where
  | running (machine : Machine World)
  | ended (result : Option Val) (world : World)

section

variable {World : Type} (m : Module) (I : Interpretation World)

/-- What a computation other than an allocation or a call gives. -/
def Frame.compute (f : Frame) : Computation → World → Option (Val × World)
  | .binary op ty a b, w => do
    let operation ← op.meaning ty
    let args ← f.operands [(ty, a), (ty, b)]
    I.operate operation args w
  | .unary op a, w => do
    let args ← f.operands [(op.type, a)]
    I.operate op.meaning args w
  | .load ty cell, w => do
    let v ← (f.cells cell).filter (·.irType = ty)
    return (v, w)
  | .phi incoming, w => do
    let origin ← f.origin
    let (o, _) ← incoming.find? (·.2 = origin)
    let v ← f.operand .i64 o
    return (v, w)
  | .trunc a, w =>
    match f.operand .i64 a with
    | some (.int n) => some (.status (statusOf n), w)
    | _ => none
  | .alloca _, _ => none
  | .call _ _ _, _ => none

/-- What becomes of a machine when its frame returns. -/
def returnTo (result : Option Val) (w : World) :
    List (Option ValueName × Frame) → Option (Config World)
  | [] => some (.ended result w)
  | (dest, f) :: callers => do
    let f ← f.receive dest result
    return .running ⟨f, callers, w⟩

/-- Calls a global; routines of the runtime return at once. -/
def Module.enter (ret : IrType) (callee : Callee) (args : List Val)
    (callers : List (Option ValueName × Frame)) (w : World) : Option (Config World) :=
  match m.find callee.text with
  | some (.routine r) => do
    let f ← Frame.start r args
    if r.ret = ret then return .running ⟨f, callers, w⟩ else none
  | some (.runtime r) => do
    let (v, w) ← I.operate r.meaning args w
    if r.ret = ret ∧ r.params = args.map Val.irType then
      returnTo (v.result ret) w callers
    else none
  | none => none

/-- Runs an instruction in a frame whose code is what comes after it. -/
def Module.perform (f : Frame) (callers : List (Option ValueName × Frame)) (w : World) :
    Instr → Option (Config World)
  | .assign dest (.call ret callee args) => do
    m.enter I ret callee (← f.operands args) ((some dest, f) :: callers) w
  | .perform (.call ret callee args) => do
    m.enter I ret callee (← f.operands args) ((none, f) :: callers) w
  | .assign (.variable name id) (.alloca ty) => do
    let v ← (I.initial id).cell ty
    return .running ⟨f.setCell (.variable name id) v, callers, w⟩
  | .assign dest computation => do
    let (v, w) ← f.compute I computation w
    return .running ⟨f.assign dest v, callers, w⟩
  | .perform _ => none
  | .store ty value cell => do
    let v ← f.operand ty value
    let old ← f.cells cell
    if old.irType = ty then return .running ⟨f.setCell cell v, callers, w⟩ else none
  | .br target => do
    let f ← f.jump target
    return .running ⟨f, callers, w⟩
  | .condBr cond thenTo elseTo =>
    match f.operand .i1 cond with
    | some (.bool b) => do
      let f ← f.jump (if b then thenTo else elseTo)
      return .running ⟨f, callers, w⟩
    | _ => none
  | .ret none => if f.routine.ret = .void then returnTo none w callers else none
  | .ret (some (ty, value)) => do
    let v ← f.operand ty value
    if f.routine.ret = ty then returnTo (some v) w callers else none

def Module.step (machine : Machine World) : Option (Config World) :=
  match machine.frame.code with
  | .instr i :: code => m.perform I (machine.frame.before code) machine.callers machine.world i
  | _ => none

def Module.run : Nat → Machine World → Option (Option Val × World)
  | 0, _ => none
  | steps + 1, machine =>
    match m.step I machine with
    | some (.running machine) => run steps machine
    | some (.ended result w) => some (result, w)
    | none => none

/-- Calls a routine of the module without arguments, and gives what it returns if it does so within
the given number of steps. -/
def Module.execute (symbol : String) (steps : Nat) (w : World) : Option (Option Val × World) :=
  match m.find symbol with
  | some (.routine r) => do m.run I steps ⟨← Frame.start r [], [], w⟩
  | _ => none

/-! ## Steps -/

/-- Some steps lead from one machine to another. -/
def Module.Steps : Machine World → Machine World → Prop :=
  Relation.ReflTransGen fun before after => m.step I before = some (.running after)

/-- The frame goes on to another one, whoever called it. -/
def Module.Goes (f : Frame) (w : World) (f' : Frame) (w' : World) : Prop :=
  ∀ callers, m.Steps I ⟨f, callers, w⟩ ⟨f', callers, w'⟩

/-- The frame returns, whoever called it. -/
def Module.Returns (f : Frame) (w : World) (result : Option Val) (w' : World) : Prop :=
  ∀ callers, ∃ machine, m.Steps I ⟨f, callers, w⟩ machine ∧
    m.step I machine = returnTo result w' callers

variable {m I} {f f₁ f' : Frame} {w w₁ w' : World} {v : Val} {result : Option Val}
  {code next : List Line}

namespace Module

theorem Goes.refl : m.Goes I f w f w :=
  fun _ => .refl

theorem Goes.trans (h₁ : m.Goes I f w f₁ w₁) (h₂ : m.Goes I f₁ w₁ f' w') : m.Goes I f w f' w' :=
  fun callers => (h₁ callers).trans (h₂ callers)

theorem Goes.returns (h₁ : m.Goes I f w f₁ w₁) (h₂ : m.Returns I f₁ w₁ result w') :
    m.Returns I f w result w' := by
  intro callers
  obtain ⟨machine, hsteps, hret⟩ := h₂ callers
  exact ⟨machine, (h₁ callers).trans hsteps, hret⟩

theorem Steps.run {before after : Machine World} (h : m.Steps I before after)
    (hend : m.step I after = some (.ended result w)) :
    ∃ steps, m.run I steps before = some (result, w) := by
  induction h using Relation.ReflTransGen.head_induction_on with
  | refl => exact ⟨1, by rw [Module.run, hend]⟩
  | head hstep _ ih =>
    obtain ⟨steps, hrun⟩ := ih
    refine ⟨steps + 1, ?_⟩
    rw [Module.run, hstep]
    exact hrun

/-! ## One instruction -/

theorem goes_instr {i : Instr}
    (h : ∀ callers, m.perform I (f.before code) callers w i = some (.running ⟨f', callers, w'⟩)) :
    m.Goes I (f.before (.instr i :: code)) w f' w' :=
  fun callers => .single (h callers)

theorem perform_assign {dest : ValueName} {computation : Computation}
    (callers : List (Option ValueName × Frame)) (h : f.compute I computation w = some (v, w')) :
    m.perform I (f.before code) callers w (.assign dest computation) =
      some (.running ⟨(f.assign dest v).before code, callers, w'⟩) := by
  have hcode : (f.before code).compute I computation w = some (v, w') := by
    rw [← h]
    cases computation <;> rfl
  cases computation with
  | alloca ty => cases h
  | call ret callee args => cases h
  | _ =>
    change ((f.before code).compute I _ w >>= fun _ => _) = _
    rw [hcode]
    rfl

theorem goes_assign {dest : ValueName} {computation : Computation}
    (h : f.compute I computation w = some (v, w')) :
    m.Goes I (f.before (.instr (.assign dest computation) :: code)) w
      ((f.assign dest v).before code) w' :=
  goes_instr fun callers => perform_assign callers h

theorem goes_alloca {name : String} {id : DeclId} (h : (I.initial id).cell ty = some v) :
    m.Goes I (f.before (.instr (.assign (.variable name id) (.alloca ty)) :: code)) w
      ((f.setCell (.variable name id) v).before code) w := by
  refine goes_instr fun callers => ?_
  change ((I.initial id).cell ty >>= fun _ => _) = _
  rw [h]
  rfl

theorem goes_store {value : Operand} {cell : ValueName} {old : Val}
    (hv : f.operand ty value = some v) (hold : f.cells cell = some old) (hty : old.irType = ty) :
    m.Goes I (f.before (.instr (.store ty value cell) :: code)) w
      ((f.setCell cell v).before code) w := by
  refine goes_instr fun callers => ?_
  have hv' : (f.before code).operand ty value = some v := hv
  have hold' : (f.before code).cells cell = some old := hold
  simp only [perform, hv', hold', Option.bind_eq_bind, Option.bind_some, hty, if_true]
  rfl

theorem perform_br {target : Label} (callers : List (Option ValueName × Frame))
    (h : codeAt target f.routine.lines = some next) :
    m.perform I (f.before code) callers w (.br target) =
      some (.running ⟨(f.arrive target).before next, callers, w⟩) := by
  have hjump : (f.before code).jump target = some ((f.arrive target).before next) := by
    change (codeAt target f.routine.lines >>= fun next => _) = _
    rw [h]
    rfl
  change ((f.before code).jump target >>= fun _ => _) = _
  rw [hjump]
  rfl

theorem goes_br {target : Label} (h : codeAt target f.routine.lines = some next) :
    m.Goes I (f.before (.instr (.br target) :: code)) w ((f.arrive target).before next) w :=
  goes_instr fun callers => perform_br callers h

theorem perform_condBr {cond : Operand} {thenTo elseTo : Label} {b : Bool}
    (callers : List (Option ValueName × Frame)) (hb : f.operand .i1 cond = some (.bool b))
    (h : codeAt (if b then thenTo else elseTo) f.routine.lines = some next) :
    m.perform I (f.before code) callers w (.condBr cond thenTo elseTo) =
      some (.running ⟨(f.arrive (if b then thenTo else elseTo)).before next, callers, w⟩) := by
  have hb' : (f.before code).operand .i1 cond = some (.bool b) := hb
  have hjump : (f.before code).jump (if b then thenTo else elseTo) =
      some ((f.arrive (if b then thenTo else elseTo)).before next) := by
    change (codeAt _ f.routine.lines >>= fun next => _) = _
    rw [h]
    rfl
  simp only [perform, hb', hjump]
  rfl

theorem goes_condBr {cond : Operand} {thenTo elseTo : Label} {b : Bool}
    (hb : f.operand .i1 cond = some (.bool b))
    (h : codeAt (if b then thenTo else elseTo) f.routine.lines = some next) :
    m.Goes I (f.before (.instr (.condBr cond thenTo elseTo) :: code)) w
      ((f.arrive (if b then thenTo else elseTo)).before next) w :=
  goes_instr fun callers => perform_condBr callers hb h

theorem returns_void (h : f.routine.ret = .void) :
    m.Returns I (f.before (.instr (.ret none) :: code)) w none w := by
  intro callers
  exact ⟨_, .refl, if_pos h⟩

theorem returns_value {value : Operand} (hv : f.operand ty value = some v)
    (h : f.routine.ret = ty) :
    m.Returns I (f.before (.instr (.ret (some (ty, value))) :: code)) w (some v) w := by
  intro callers
  refine ⟨_, .refl, ?_⟩
  change (f.operand ty value >>= fun _ => _) = _
  rw [hv]
  exact if_pos h

/-! ## Calls -/

/-- Calls with and without a place for what they give. -/
def callTo (dest : Option ValueName) (computation : Computation) : Instr :=
  match dest with
  | some dest => .assign dest computation
  | none => .perform computation

theorem perform_call {callers : List (Option ValueName × Frame)} {ret : IrType} {callee : Callee}
    (h : f.operands args = some vals) :
    m.perform I f callers w (callTo dest (.call ret callee args)) =
      m.enter I ret callee vals ((dest, f) :: callers) w := by
  have henter :
      (f.operands args >>= fun vals => m.enter I ret callee vals ((dest, f) :: callers) w) =
        m.enter I ret callee vals ((dest, f) :: callers) w := by
    rw [h]
    rfl
  cases dest <;> exact henter

theorem operands_before (args : List (IrType × Operand)) :
    (f.before code).operands args = f.operands args := by
  induction args with
  | nil => rfl
  | cons arg args ih => simp only [Frame.operands, ih]; rfl

theorem receive_before (dest : Option ValueName) :
    (f.before code).receive dest result = (f.receive dest result).map (·.before code) := by
  cases dest <;> cases result <;> rfl

theorem goes_call {ret : IrType} {callee : Callee} {r : Routine} {inner : Frame}
    (hargs : f.operands args = some vals) (hfind : m.find callee.text = some (.routine r))
    (hret : r.ret = ret) (hstart : Frame.start r vals = some inner)
    (hinner : m.Returns I inner w result w') (hreceive : f.receive dest result = some f') :
    m.Goes I (f.before (.instr (callTo dest (.call ret callee args)) :: code)) w
      (f'.before code) w' := by
  intro callers
  have hcall : m.step I
      ⟨f.before (.instr (callTo dest (.call ret callee args)) :: code), callers, w⟩ =
      some (.running ⟨inner, (dest, f.before code) :: callers, w⟩) := by
    change m.perform I (f.before code) callers w _ = _
    rw [perform_call ((operands_before args).trans hargs)]
    simp only [enter, hfind, hstart, hret, Option.bind_eq_bind, Option.bind_some, if_true]
    rfl
  obtain ⟨machine, hsteps, hend⟩ := hinner ((dest, f.before code) :: callers)
  have hback : m.step I machine = some (.running ⟨f'.before code, callers, w'⟩) := by
    rw [hend]
    simp only [returnTo, receive_before, hreceive]
    rfl
  exact Relation.ReflTransGen.head hcall (hsteps.tail hback)

theorem goes_runtime {r : RuntimeRoutine} (hargs : f.operands args = some vals)
    (hfind : m.find (Callee.runtime r).text = some (.runtime r))
    (htypes : r.params = vals.map Val.irType) (hrun : I.operate r.meaning vals w = some (v, w'))
    (hreceive : f.receive dest (v.result r.ret) = some f') :
    m.Goes I (f.before (.instr (callTo dest (.call r.ret (.runtime r) args)) :: code)) w
      (f'.before code) w' := by
  refine goes_instr fun callers => ?_
  rw [perform_call ((operands_before args).trans hargs)]
  simp only [enter, hfind, hrun, htypes, Option.bind_eq_bind, Option.bind_some, and_self, if_true,
    returnTo, receive_before, hreceive]
  rfl

end Module

end

end ScriptLang
