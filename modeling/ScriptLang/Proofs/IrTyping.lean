import ScriptLang.Proofs.Simulation

/-!
# Types of emitted code

A type system for routines. A name has the type at which it is defined: a parameter that of the
`define` line, a cell that of its `alloca`, any other value that of the instruction that gives it.
Every use spells a type of its own, and the rules ask that the two agree.

The code of a well-typed expression obeys the rules, and what is left to do for its value has the
type of the expression.
-/

namespace ScriptLang

open Emit

variable {var : VarDecl} {i : Instr} {computation : Computation} {types : Typings}
  {scopes : ScopeTree} {known : List ValueName} {name : String} {id : DeclId}

/-! ## What names stand for -/

/-- What a name stands for: a value, or a cell that holds one. -/
inductive NameType where
  | value (ty : IrType)
  | cell (ty : IrType)
  deriving DecidableEq, Repr

/-- A comparison gives a truth value, any other instruction what it takes. -/
def Opcode.result (op : Opcode) (ty : IrType) : IrType :=
  match op with
  | .icmp _ => .i1
  | .fcmp _ => .i1
  | _ => ty

/-- What a computation gives. -/
def Computation.result : Computation → NameType
  | .binary op ty _ _ => .value (op.result ty)
  | .unary op _ => .value op.type
  | .alloca ty => .cell ty
  | .load ty _ => .value ty
  | .call ret _ _ => .value ret
  | .phi _ => .value .i64
  | .trunc _ => .value .i32

/-- Names with the types at which they are defined. -/
abbrev Typings := List (ValueName × NameType)

def Instr.typing? : Instr → Option (ValueName × NameType)
  | .assign dest value => some (dest, value.result)
  | _ => none

def typingsOf (lines : List Line) : Typings :=
  (instrsOf lines).filterMap Instr.typing?

/-- Every name of a routine: its parameters, and what its instructions give. -/
def Routine.typings (routine : Routine) : Typings :=
  routine.params.map (fun param => (param.2, .value param.1)) ++ typingsOf routine.lines

@[simp] theorem typingsOf_append (lines more : List Line) :
    typingsOf (lines ++ more) = typingsOf lines ++ typingsOf more := by
  simp [typingsOf]

theorem typingsOf_names (lines : List Line) :
    (typingsOf lines).map (·.1) = definedIn (instrsOf lines) := by
  rw [typingsOf, definedIn, List.map_filterMap]
  congr 1
  funext i
  cases i <;> rfl

theorem Routine.typings_names (routine : Routine) :
    routine.typings.map (·.1) = routine.arguments ++ definedIn (instrsOf routine.lines) := by
  rw [Routine.typings, List.map_append, typingsOf_names, List.map_map]
  rfl

/-! ## The rules -/

def Operand.HasType (types : Typings) : Operand → IrType → Prop
  | .const literal, ty => literal.ty.ir = ty
  | .value name, ty => (name, .value ty) ∈ types

/-- The module has the routine that a call names, with the result and the parameters that the call
spells. -/
def Module.Offers (m : Module) (ret : IrType) (params : List IrType) : Callee → Prop
  | .function symbol => ∃ r ∈ m.routines, r.symbol = symbol ∧ r.ret = ret ∧
    r.params.map (·.1) = params
  | .runtime routine => routine ∈ m.declares ∧ routine.ret = ret ∧ routine.params = params

def Computation.Typed (m : Module) (types : Typings) : Computation → Prop
  | .binary op ty a b => (op.meaning ty).isSome ∧ a.HasType types ty ∧ b.HasType types ty
  | .unary op a => a.HasType types op.type
  | .alloca _ => True
  | .load ty cell => (cell, .cell ty) ∈ types
  | .call ret callee args =>
    m.Offers ret (args.map (·.1)) callee ∧ ∀ arg ∈ args, arg.2.HasType types arg.1
  | .phi incoming => ∀ pair ∈ incoming, pair.1.HasType types .i64
  | .trunc a => a.HasType types .i64

/-- The rules for an instruction of a routine that returns `ret`. The status `0` of a script that
comes to its end is the only constant that is narrower than its literal. -/
def Instr.Typed (m : Module) (types : Typings) (ret : IrType) : Instr → Prop
  | .assign _ value => value.Typed m types
  | .perform effect => effect.Typed m types ∧ effect.result = .value .void
  | .store ty value cell => value.HasType types ty ∧ (cell, .cell ty) ∈ types
  | .br _ => True
  | .condBr cond _ _ => cond.HasType types .i1
  | .ret none => ret = .void
  | .ret (some (ty, value)) =>
    ret = ty ∧ (value.HasType types ty ∨ ty = .i32 ∧ value = .const (.int 0))

/-- A loop in the lines counts the variable in `i64`: the head takes it from a `phi` and compares
it with a limit, and a turn that gets to its end adds one. -/
def CountedIn (lines : List Line) (var : ValueName) (incoming : List (Operand × Label)) : Prop :=
  ∃ id cmp limit start pred next tail, loopHead id var cmp incoming limit <:+: lines ∧
    incoming = loopIncoming start pred next tail ∧
    ∀ l, tail = some l →
      .instr (.assign next (.binary .add .i64 (.const (.int 1)) (.value var))) ∈ lines

structure Conforms (m : Module) (types : Typings) (ret : IrType) (lines : List Line) : Prop where
  instrs : ∀ i ∈ instrsOf lines, i.Typed m types ret
  loops : ∀ var incoming, .assign var (.phi incoming) ∈ instrsOf lines →
    CountedIn lines var incoming

/-- Each name has one type, and all the lines obey the rules. -/
structure Routine.Typed (m : Module) (routine : Routine) : Prop where
  once : (routine.typings.map (·.1)).Nodup
  conforms : Conforms m routine.typings routine.ret routine.lines

/-! ## Lines -/

section

variable {m : Module} {types : Typings} {ret : IrType} {lines more : List Line}

theorem CountedIn.mono {var : ValueName} {incoming : List (Operand × Label)}
    (h : CountedIn lines var incoming) (hs : lines <:+: more) : CountedIn more var incoming := by
  obtain ⟨id, cmp, limit, start, pred, next, tail, hhead, hin, hnext⟩ := h
  exact ⟨id, cmp, limit, start, pred, next, tail, hhead.trans hs, hin,
    fun l hl => hs.subset (hnext l hl)⟩

namespace Conforms

theorem nil : Conforms m types ret [] where
  instrs _ hm := by cases hm
  loops _ _ hm := by cases hm

theorem label (l : Label) : Conforms m types ret [.label l] where
  instrs _ hm := by cases hm
  loops _ _ hm := by cases hm

theorem instr (hi : i.Typed m types ret) (hphi : ∀ var incoming, i ≠ .assign var (.phi incoming)) :
    Conforms m types ret [.instr i] where
  instrs j hj := by
    rw [List.mem_singleton.mp hj]
    exact hi
  loops var incoming hm := absurd (List.mem_singleton.mp hm).symm (hphi var incoming)

theorem append (h₁ : Conforms m types ret lines) (h₂ : Conforms m types ret more) :
    Conforms m types ret (lines ++ more) where
  instrs i hi := by
    rw [instrsOf_append] at hi
    rcases List.mem_append.mp hi with hi | hi
    · exact h₁.instrs i hi
    · exact h₂.instrs i hi
  loops var incoming hm := by
    rw [instrsOf_append] at hm
    rcases List.mem_append.mp hm with hm | hm
    · exact (h₁.loops var incoming hm).mono (List.prefix_append _ _).isInfix
    · exact (h₂.loops var incoming hm).mono (List.suffix_append _ _).isInfix

theorem lead (c : Cursor) : Conforms m types ret c.lead := by
  unfold Cursor.lead
  split
  · exact label _
  · exact nil

theorem line (c : Cursor) (hi : i.Typed m types ret)
    (hphi : ∀ var incoming, i ≠ .assign var (.phi incoming)) : Conforms m types ret (c.line i) :=
  (lead c).append (instr hi hphi)

theorem jump (c : Cursor) (target : Label) : Conforms m types ret (c.jump target) := by
  unfold Cursor.jump
  split
  · exact nil
  · exact instr trivial nofun

end Conforms

theorem typingsOf_line (c : Cursor) (i : Instr) : typingsOf (c.line i) = i.typing?.toList := by
  rw [Cursor.line, typingsOf_append, Cursor.lead]
  cases c.terminated <;> cases h : i.typing? <;> simp [typingsOf, h]

end

/-! ## Emitters -/

/-- Whatever is emitted obeys the rules, provided that its own definitions have the types they give
and that the routines of the runtime that it uses are declared. -/
def Emit.Types {α : Type} (m : Module) (types : Typings) (ret : IrType) (e : Emit α)
    (post : α → Prop) : Prop :=
  ∀ (c : Cursor) (a : α) (lines : List Line) (c' : Cursor), e c = .ok (a, lines, c') →
    typingsOf lines ⊆ types → c'.used ⊆ m.declares → Conforms m types ret lines ∧ post a

namespace Emit.Types

variable {α β : Type} {m : Module} {types : Typings} {ret : IrType} {post : α → Prop}
  {post' : β → Prop}

theorem pure {a : α} (h : post a) : Types m types ret (pure a) post := by
  intro c b lines c' he _ _
  obtain ⟨rfl, rfl, rfl⟩ := pure_eq_ok.mp he
  exact ⟨.nil, h⟩

theorem ofExcept {x : Except Halt α} (h : ∀ a, x = .ok a → post a) :
    Types m types ret (Emit.ofExcept x) post := by
  intro c a lines c' he _ _
  obtain ⟨hx, rfl, rfl⟩ := ofExcept_eq_ok.mp he
  exact ⟨.nil, h a hx⟩

theorem fail (halt : Halt) : Types m types ret (Emit.fail halt) post := by
  intro c a lines c' he
  cases he

theorem imp {post₁ : α → Prop} {e : Emit α} (h : Types m types ret e post₁)
    (hp : ∀ a, post₁ a → post a) : Types m types ret e post := by
  intro c a lines c' he ht hd
  obtain ⟨hlines, ha⟩ := h c a lines c' he ht hd
  exact ⟨hlines, hp a ha⟩

theorem check {x : Except Halt α} {f : α → Emit β}
    (h : ∀ a, x = .ok a → Types m types ret (f a) post') :
    Types m types ret (Emit.ofExcept x >>= f) post' := by
  intro c b lines c' he
  obtain ⟨a, _, _, rest, h₁, h₂, rfl⟩ := bind_eq_ok.mp he
  obtain ⟨hx, rfl, rfl⟩ := ofExcept_eq_ok.mp h₁
  exact h a hx _ b rest c' h₂

theorem bind {e : Emit α} {f : α → Emit β} (h : Types m types ret e post)
    (hf : ∀ a, post a → Types m types ret (f a) post') (hu : ∀ a, Uses (f a)) :
    Types m types ret (e >>= f) post' := by
  intro c b lines c' he ht hd
  obtain ⟨a, first, c₁, rest, h₁, h₂, rfl⟩ := bind_eq_ok.mp he
  rw [typingsOf_append] at ht
  obtain ⟨ht₁, ht₂⟩ := List.append_subset.mp ht
  obtain ⟨hfirst, ha⟩ := h c a first c₁ h₁ ht₁ (List.Subset.trans (hu a _ _ _ _ h₂) hd)
  obtain ⟨hrest, hb⟩ := hf a ha c₁ b rest c' h₂ ht₂ hd
  exact ⟨hfirst.append hrest, hb⟩

theorem freshReg : Types m types ret Emit.freshReg fun _ => True := by
  intro c a lines c' he _ _
  cases he
  exact ⟨.nil, trivial⟩

theorem use (routine : RuntimeRoutine) :
    Types m types ret (Emit.use routine) fun _ => routine ∈ m.declares := by
  intro c a lines c' he _ hd
  cases he
  exact ⟨.nil, hd (mem_used routine c)⟩

theorem emit (hi : i.Typed m types ret) (hphi : ∀ var incoming, i ≠ .assign var (.phi incoming)) :
    Types m types ret (Emit.emit i) fun _ => i.typing?.toList ⊆ types := by
  intro c a lines c' he ht _
  rw [emit_apply] at he
  cases he
  rw [typingsOf_line] at ht
  exact ⟨.line c hi hphi, ht⟩

theorem terminate (hi : i.Typed m types ret)
    (hphi : ∀ var incoming, i ≠ .assign var (.phi incoming)) :
    Types m types ret (Emit.terminate i) fun _ => True := by
  intro c a lines c' he _ _
  rw [terminate_apply] at he
  cases he
  exact ⟨.line c hi hphi, trivial⟩

theorem define {dest : ValueName} (h : computation.Typed m types)
    (hphi : ∀ incoming, computation ≠ .phi incoming) :
    Types m types ret (Emit.emit (.assign dest computation)) fun _ =>
      (dest, computation.result) ∈ types := by
  have hnot : ∀ var incoming, Instr.assign dest computation ≠ .assign var (.phi incoming) :=
    fun var incoming he => hphi incoming (Instr.assign.inj he).2
  exact (emit (i := .assign dest computation) h hnot).imp fun _ hs => hs List.mem_cons_self

theorem assign {f : ValueName → Emit β} (h : computation.Typed m types)
    (hphi : ∀ incoming, computation ≠ .phi incoming)
    (hf : ∀ reg, (reg, computation.result) ∈ types → Types m types ret (f reg) post')
    (hu : ∀ reg, Uses (f reg)) :
    Types m types ret (do
      let reg ← Emit.freshReg
      Emit.emit (.assign reg computation)
      f reg) post' :=
  freshReg.bind (fun reg _ => (define h hphi).bind (fun _ => hf reg) fun _ => hu reg) fun reg =>
    (still_emit _).uses.bind fun _ => hu reg

end Emit.Types

/-! ## Variables -/

/-- Locals live in cells, other variables are values. -/
def VarDecl.typing (var : VarDecl) : NameType :=
  if var.kind = .localVar then .cell var.ty.ir else .value var.ty.ir

/-- What is known has the type of its declaration. -/
def Typings.Declare (types : Typings) (scopes : ScopeTree) (known : List ValueName) : Prop :=
  ∀ name id, .variable name id ∈ known →
    ∃ var, scopes.decls[id]? = some var ∧ (.variable name id, var.typing) ∈ types

theorem Typings.Declare.typing (h : types.Declare scopes known) (hm : .variable name id ∈ known)
    (hv : scopes.decls[id]? = some var) : (.variable name id, var.typing) ∈ types := by
  obtain ⟨var', hv', ht⟩ := h name id hm
  rw [hv, Option.some.injEq] at hv'
  exact hv' ▸ ht

theorem Typings.Declare.subset {more : Typings} (h : types.Declare scopes known)
    (hs : types ⊆ more) :
    more.Declare scopes known := by
  intro name id hm
  obtain ⟨var, hv, ht⟩ := h name id hm
  exact ⟨var, hv, hs ht⟩

theorem Typings.Declare.append {more : List ValueName} (h₁ : types.Declare scopes known)
    (h₂ : types.Declare scopes more) : types.Declare scopes (known ++ more) := by
  intro name id hm
  rcases List.mem_append.mp hm with hm | hm
  · exact h₁ name id hm
  · exact h₂ name id hm

theorem Typings.Declare.cons (h : types.Declare scopes known) (hv : scopes.decls[id]? = some var)
    (ht : (.variable name id, var.typing) ∈ types) :
    types.Declare scopes (.variable name id :: known) := by
  intro name' id' hm
  rcases List.mem_cons.mp hm with he | hm
  · obtain ⟨rfl, rfl⟩ := ValueName.variable.inj he
    exact ⟨var, hv, ht⟩
  · exact h name' id' hm

/-! ## Expressions -/

/-- What is left to do for a value has the type. -/
def Value.HasType (m : Module) (types : Typings) (ty : IrType) : Value → Prop
  | .operand o => o.HasType types ty
  | .pending computation => computation.Typed m types ∧ computation.result = .value ty ∧
    ∀ incoming, computation ≠ .phi incoming

def Native.result : Native → IrType
  | .binary op ty => op.result ty
  | .unary op => op.type

theorem native_result : ∀ b ∈ Builtin.all,
    ∀ native ∈ Native.find? b.name (b.params.map Ty.ir), native.result = b.ret.ir := by
  decide

theorem Native.compute_typed {m : Module} {native : Native} {args : List (IrType × Operand)}
    {operation : Operation} (h : native.compute (args.map (·.2)) = .ok computation)
    (ht : native.types = args.map (·.1)) (hm : native.meaning = some operation)
    (hargs : ∀ arg ∈ args, arg.2.HasType types arg.1) :
    (Value.pending computation).HasType m types native.result := by
  cases native with
  | binary op ty =>
    match args, ht with
    | [(_, a), (_, b)], rfl =>
      cases h
      have ha := hargs _ List.mem_cons_self
      have hb := hargs _ (List.mem_cons_of_mem _ List.mem_cons_self)
      exact ⟨⟨Option.isSome_of_eq_some hm, ha, hb⟩, rfl, nofun⟩
  | unary op =>
    match args, ht with
    | [(_, a)], rfl =>
      cases h
      exact ⟨hargs _ List.mem_cons_self, rfl, nofun⟩

section

variable (m : Module) (ctx : BodyContext) (scope : ScopeId)

/-- The module has a routine for each call that checking allows: a built-in, or a function of the
unit. -/
structure Supplied : Prop where
  covers : ctx.Covers
  functions : ∀ name tys found sig, ctx.isUserFunction name = true →
    ctx.scopes.NearestOverloads name scope found →
    found.filter (fun sig => sig.params = tys) = [sig] →
    m.Offers sig.ret.ir (tys.map Ty.ir)
      (.function (functionSymbol ctx.functions name (tys.map Ty.ir)))

variable {m ctx scope} {types : Typings} {ret : IrType} {env : Env} {known : List ValueName}

theorem Expr.HasType.types_irType {expr : Expr} {ty : Ty} (h : expr.HasType ctx.scopes scope ty)
    {β : Type} {f : IrType → Emit β} {post : β → Prop} (hf : Types m types ret (f ty.ir) post) :
    Types m types ret (Emit.ofExcept expr.irType >>= f) post := by
  refine .check fun ir hir => ?_
  rw [h.irType, Except.ok.injEq] at hir
  exact hir ▸ hf

theorem Value.types_toOperand {value : Value} {ty : IrType} (h : value.HasType m types ty) :
    Types m types ret value.toOperand fun o => o.HasType types ty := by
  cases value with
  | operand o => exact .pure h
  | pending computation =>
    obtain ⟨htyped, hresult, hphi⟩ := h
    refine .assign htyped hphi (fun reg hreg => .pure ?_) fun _ => (Still.pure _).uses
    rw [hresult] at hreg
    exact hreg

theorem emitVariable_typed {span : Span} {value : Value} (hv : ctx.scopes.decls[id]? = some var)
    (ht : (.variable name id, var.typing) ∈ types)
    (h : emitVariable ctx name (some id) var.ty.ir span = .ok value) :
    value.HasType m types var.ty.ir := by
  simp only [emitVariable, ScopeTree.declaration, ScopeTree.var?, hv, ScriptLang.bind_eq_ok,
    demand_eq_ok, Option.some.injEq, exists_eq_left'] at h
  split at h
  · rename_i hlocal
    cases h
    rw [VarDecl.typing, if_pos hlocal] at ht
    exact ⟨ht, rfl, by rintro _ ⟨⟩⟩
  · rename_i hlocal
    cases h
    rw [VarDecl.typing, if_neg hlocal] at ht
    exact ht

theorem types_emitCall (hs : Supplied m ctx scope) {args : List (IrType × Operand)} {tys : List Ty}
    {found : List Signature} {sig : Signature} {span : Span}
    (hn : ctx.scopes.NearestOverloads name scope found)
    (hf : found.filter (fun sig => sig.params = tys) = [sig])
    (hirs : args.map (·.1) = tys.map Ty.ir) (hargs : ∀ arg ∈ args, arg.2.HasType types arg.1) :
    Types m types ret (emitCall ctx name args sig.ret.ir span) fun value =>
      value.HasType m types sig.ret.ir := by
  simp only [emitCall]
  by_cases hu : ctx.isUserFunction name = true
  · rw [if_pos hu]
    have hoffers := hs.functions name tys found sig hu hn hf
    rw [← hirs] at hoffers
    exact .pure ⟨⟨hoffers, hargs⟩, rfl, by rintro _ ⟨⟩⟩
  · rw [if_neg hu, hirs]
    have hm : sig ∈ found.filter fun sig => sig.params = tys := by simp [hf]
    obtain ⟨hfound, hparams⟩ := List.mem_filter.mp hm
    have hb : ⟨name, tys, sig.ret⟩ ∈ Builtin.all :=
      hs.covers.builtin hn hfound (of_decide_eq_true hparams) hu
    cases hnative : Native.find? name (tys.map Ty.ir) with
    | some native =>
      obtain ⟨hmeaning, hnt, -⟩ := native_meaning _ hb native hnative
      have hresult : native.result = sig.ret.ir := native_result _ hb native hnative
      have hcompute : Types m types ret
          (Emit.ofExcept (native.compute (args.map (·.2)))) fun computation =>
            (Value.pending computation).HasType m types sig.ret.ir := by
        refine .ofExcept fun computation hc => ?_
        rw [← hresult]
        exact Native.compute_typed hc (hnt.trans hirs.symm) hmeaning hargs
      exact hcompute.bind (fun _ hc => .pure hc) fun _ => (Still.pure _).uses
    | none =>
      cases hr : RuntimeRoutine.find? name (tys.map Ty.ir) with
      | some r =>
        obtain ⟨-, hparams, hret⟩ := runtime_meaning _ hb r hr
        have hret : r.ret = sig.ret.ir := hret
        refine (Types.use r).bind (fun _ hd => .pure ?_) fun _ => (Still.pure _).uses
        refine ⟨⟨⟨hd, rfl, ?_⟩, hargs⟩, ?_, by rintro _ ⟨⟩⟩
        · rw [hparams, hirs]
        · rw [Computation.result, hret]
      | none => exact .fail _

mutual
theorem Expr.types_emitValue (hs : Supplied m ctx scope) (hd : types.Declare ctx.scopes known)
    (he : env.KnownIn known) : ∀ (expr : Expr) {ty : Ty}, expr.HasType ctx.scopes scope ty →
    expr.Resolved env →
    Types m types ret (expr.emitValue ctx) fun value => value.HasType m types ty.ir
  | .lit .., _, ht, _ => by
    unfold Expr.emitValue
    obtain ⟨-, rfl⟩ := ht
    exact .check fun _ _ => .pure rfl
  | .var .., _, ht, hr => by
    unfold Expr.emitValue
    refine ht.types_irType ?_
    obtain ⟨-, -, id, var, rfl, hdecl, -, rfl⟩ := ht
    obtain ⟨_, ⟨⟩, hlookup⟩ := hr
    have htyping := hd.typing (he _ (Env.mem_of_lookup hlookup)) hdecl
    exact .ofExcept fun value hv => emitVariable_typed hdecl htyping hv
  | .call name args span _, _, ht, hr => by
    unfold Expr.emitValue
    refine ht.types_irType ?_
    obtain ⟨-, -, tys, found, sig, hts, hn, hf, rfl⟩ := ht
    refine (types_emitArgs hs hd he args hts hr).bind (fun done hdone => ?_) fun done =>
      (@regular_emitCall True ctx name done _ span).uses
    exact types_emitCall hs hn hf hdone.1 hdone.2
theorem types_emitArgs (hs : Supplied m ctx scope) (hd : types.Declare ctx.scopes known)
    (he : env.KnownIn known) : ∀ (args : List Expr) {tys : List Ty},
    HaveTypes ctx.scopes scope args tys → AllResolved env args →
    Types m types ret (emitArgs ctx args) fun done =>
      done.map (·.1) = tys.map Ty.ir ∧ ∀ arg ∈ done, arg.2.HasType types arg.1
  | [], _, ht, _ => by
    cases ht
    exact .pure ⟨rfl, nofun⟩
  | arg :: args, _, ht, hr => by
    unfold emitArgs
    obtain ⟨ty, rest, hty, htys, rfl⟩ := ht
    have hrest (o : Operand) : Uses (do
        let done ← emitArgs ctx args
        return (ty.ir, o) :: done) :=
      (@regular_emitArgs True ctx args).uses.bind fun _ => (Still.pure _).uses
    refine hty.types_irType ?_
    refine (arg.types_emitValue hs hd he hty hr.1).bind (fun value hv => ?_) fun value =>
      value.still_toOperand.uses.bind hrest
    refine (Value.types_toOperand hv).bind (fun o ho => ?_) hrest
    refine (types_emitArgs hs hd he args htys hr.2).bind (fun done hdone => .pure ?_) fun _ =>
      (Still.pure _).uses
    obtain ⟨hirs, hargs⟩ := hdone
    refine ⟨by rw [List.map_cons, List.map_cons, hirs], ?_⟩
    intro use hm
    rcases List.mem_cons.mp hm with rfl | hm
    · exact ho
    · exact hargs use hm
end

variable {expr : Expr} {ty : Ty}

theorem Expr.types_emitOperand (hs : Supplied m ctx scope) (hd : types.Declare ctx.scopes known)
    (he : env.KnownIn known) (ht : expr.HasType ctx.scopes scope ty) (hr : expr.Resolved env) :
    Types m types ret (expr.emitOperand ctx) fun o => o.HasType types ty.ir :=
  (expr.types_emitValue hs hd he ht hr).bind (fun _ hv => Value.types_toOperand hv) fun value =>
    value.still_toOperand.uses

theorem Expr.types_emitEffect (hs : Supplied m ctx scope) (hd : types.Declare ctx.scopes known)
    (he : env.KnownIn known) (ht : expr.HasType ctx.scopes scope ty) (hr : expr.Resolved env) :
    Types m types ret (expr.emitEffect ctx) fun _ => True := by
  refine ht.types_irType ?_
  refine (expr.types_emitValue hs hd he ht hr).bind (fun value hv => ?_) fun value => ?_
  · cases value with
    | operand o => exact .pure trivial
    | pending computation =>
      obtain ⟨htyped, hresult, hphi⟩ := hv
      dsimp only
      split
      · rename_i hvoid
        rw [hvoid] at hresult
        exact (Types.emit (i := .perform computation) ⟨htyped, hresult⟩ nofun).imp
          fun _ _ => trivial
      · exact Types.freshReg.bind (fun _ _ => (Types.define htyped hphi).imp fun _ _ => trivial)
          fun _ => (still_emit _).uses
  · cases value with
    | operand o => exact (Still.pure _).uses
    | pending computation =>
      dsimp only
      split
      · exact (still_emit _).uses
      · exact (still_freshReg.bind fun _ => still_emit _).uses

end

end ScriptLang
