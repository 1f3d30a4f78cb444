import ScriptLang.Proofs.Completeness
import ScriptLang.Proofs.TypeConsistency

/-!
# Where calls go

Inference picks an overload for each call, and lowering makes an instruction of each call without
asking again: it goes by the name and by the types that were written into the tree. The two agree.

The instructions of a body are read next to its calls, in the order in which they are made. Each
call has an instruction of its own, and what stands between these calls nothing.
-/

set_option linter.unusedSectionVars false

namespace ScriptLang

open Emit

variable {i : Instr} {call : Expr} {sig : Signature}

variable {expr : Expr} {issued : Expr → Instr → Prop} {i : Instr} {sig : Signature} {name : String}
  {ty : Ty}

/-! ## Calls of a body -/

mutual
/-- The calls in an expression in the order in which they are made, arguments first. -/
def Expr.calls : Expr → List Expr
  | .lit .. => []
  | .var .. => []
  | .call name args span slot => callsOf args ++ [.call name args span slot]
def callsOf : List Expr → List Expr
  | [] => []
  | expr :: exprs => expr.calls ++ callsOf exprs
end

mutual
def Stmt.calls : Stmt → List Expr
  | .decl _ _ value _ _ => value.calls
  | .assign _ value _ _ => value.calls
  | .branch conds blocks _ => callsOfArms blocks conds
  | .forLoop _ lo hi body _ _ => lo.calls ++ (hi.calls ++ body.calls)
  | .whileLoop cond body _ => cond.calls ++ body.calls
  | .call value => value.calls
def Block.calls : Block → List Expr
  | ⟨stmts, ret, _, _, _⟩ => callsOfStmts stmts ++ callsOf (ret.toList.map (·.value))
def callsOfStmts : List Stmt → List Expr
  | [] => []
  | stmt :: stmts => stmt.calls ++ callsOfStmts stmts
/-- Each condition is followed by its block, and the last of them by the `else` block. -/
def callsOfArms : List Block → List Expr → List Expr
  | [], conds => callsOf conds
  | block :: blocks, [] => block.calls ++ callsOfArms blocks []
  | block :: blocks, cond :: conds => cond.calls ++ (block.calls ++ callsOfArms blocks conds)
end

/-- What is called before the outermost call of an expression. -/
def Expr.inner : Expr → List Expr
  | .call _ args _ _ => callsOf args
  | _ => []

/-- The outermost call, if the expression is one. -/
def Expr.outer : Expr → List Expr
  | .call name args span slot => [.call name args span slot]
  | _ => []

theorem Expr.calls_eq (expr : Expr) : expr.calls = expr.inner ++ expr.outer := by
  cases expr <;> simp [Expr.calls, Expr.inner, Expr.outer]

/-! ## Overloads that are picked -/

/-- Inference picks the overload for the call: it finds the types of the arguments, and the overload
takes these and returns what the call is annotated with. -/
def ScopeTree.Picks (tree : ScopeTree) (scope : ScopeId) : Expr → Signature → Prop
  | .call name args span slot, sig => slot = some sig.ret ∧ ∃ tys,
    synthAll tree scope args = .ok tys ∧ tree.overloadFor scope name tys sig.ret span = .ok sig
  | _, _ => False

section

variable {tree : ScopeTree} {name : String} {tys : List Ty} {found : List Signature}
  {sig : Signature}

theorem ScopeTree.NearestOverloads.selected (hroot : tree.Rooted)
    (hn : tree.NearestOverloads name 1 found)
    (hf : found.filter (fun sig => sig.params = tys) = [sig]) :
    sig ∈ tree.visible name ∧ sig.params = tys := by
  have hm : sig ∈ found.filter fun sig => sig.params = tys := by simp [hf]
  obtain ⟨hfound, hparams⟩ := List.mem_filter.mp hm
  exact ⟨hn.visible hroot ▸ hfound, of_decide_eq_true hparams⟩

mutual
theorem Expr.HasType.synth (hs : tree.Settled) (hroot : tree.Rooted) : ∀ (expr : Expr) {ty : Ty},
    expr.HasType tree 1 ty → expr.synth tree 1 = .ok ty
  | .lit .., _, h => by
    rw [Expr.synth, h.2]
  | .var .., _, h => by
    obtain ⟨-, -, id, var, rfl, hv, -, rfl⟩ := h
    simp [Expr.synth, demand, ScopeTree.declaration, ScopeTree.var?, hv, bind_eq_ok]
  | .call _ args _ _, _, h => by
    obtain ⟨-, -, tys, found, sig, hts, hn, hf, rfl⟩ := h
    obtain ⟨hvisible, rfl⟩ := hn.selected hroot hf
    have hargs := hts.synthAll hs hroot args
    have hret := hs.rets sig (ScopeTree.mem_visible hvisible).1
    simp only [Expr.synth, hargs, hroot.candidates, hs.reached hroot hvisible, bind_eq_ok,
      Except.ok.injEq, exists_eq_left', pure_eq_ok]
    exact returnType_singleton hret
theorem HaveTypes.synthAll (hs : tree.Settled) (hroot : tree.Rooted) : ∀ (exprs : List Expr)
    {tys : List Ty}, HaveTypes tree 1 exprs tys → ScriptLang.synthAll tree 1 exprs = .ok tys
  | [], _, h => by
    cases h
    rfl
  | expr :: exprs, _, h => by
    obtain ⟨ty, rest, ht, hts, rfl⟩ := h
    simp only [ScriptLang.synthAll, bind_eq_ok, pure_eq_ok]
    exact ⟨ty, ht.synth hs hroot expr, rest, hts.synthAll hs hroot exprs, rfl⟩
end

/-- The one overload that takes the arguments of a well-typed call is the one that is picked. -/
theorem HaveTypes.picks (hs : tree.Settled) (hroot : tree.Rooted) {args : List Expr}
    (ht : HaveTypes tree 1 args tys) (hn : tree.NearestOverloads name 1 found)
    (hf : found.filter (fun sig => sig.params = tys) = [sig]) (span : Span) :
    tree.Picks 1 (.call name args span (some sig.ret)) sig := by
  obtain ⟨hvisible, rfl⟩ := hn.selected hroot hf
  exact ⟨rfl, sig.params, ht.synthAll hs hroot args, hs.overloadFor hroot hvisible span⟩

end

/-! ## Instructions of calls -/

/-- A computation that does what the overload says: a call of the function of the unit, the
instruction of a built-in, or a call of the runtime. -/
inductive Computation.Does (functions : List String) (sig : Signature) : Computation → Prop where
  | function {args : List (IrType × Operand)} (user : sig.name ∈ functions)
    (types : args.map (·.1) = sig.params.map Ty.ir) :
    Does functions sig
      (.call sig.ret.ir (.function (functionSymbol functions sig.name (sig.params.map Ty.ir))) args)
  | native {native : Native} {operands : List Operand} {computation : Computation}
    (builtin : sig.name ∉ functions)
    (meaning : native.meaning = some ⟨sig.name, sig.params⟩)
    (types : native.types = sig.params.map Ty.ir) (result : native.result = sig.ret.ir)
    (compute : native.compute operands = .ok computation) : Does functions sig computation
  | runtime {routine : RuntimeRoutine} {args : List (IrType × Operand)}
    (builtin : sig.name ∉ functions) (meaning : routine.meaning = ⟨sig.name, sig.params⟩)
    (params : routine.params = sig.params.map Ty.ir) (ret : routine.ret = sig.ret.ir)
    (types : args.map (·.1) = sig.params.map Ty.ir) :
    Does functions sig (.call sig.ret.ir (.runtime routine) args)

/-- The instruction makes the call. A result that is kept has a type that `fits`. -/
def Issued (tree : ScopeTree) (functions : List String) (fits : Ty → Prop) (call : Expr)
    (i : Instr) : Prop :=
  ∃ sig computation, tree.Picks 1 call sig ∧ computation.Does functions sig ∧
    (i = .perform computation ∧ sig.ret = .void ∨
      ∃ reg, i = .assign reg computation ∧ fits sig.ret)

/-- The lines make the calls one after the other, and no others. -/
inductive InTurn (issued : Expr → Instr → Prop) : List Expr → List Line → Prop where
  | nil : InTurn issued [] []
  | call {call i calls lines} (h : issued call i) (rest : InTurn issued calls lines) :
    InTurn issued (call :: calls) (.instr i :: lines)
  | other {i calls lines} (h : i.callee? = none) (rest : InTurn issued calls lines) :
    InTurn issued calls (.instr i :: lines)
  | label {calls lines} (l : Label) (rest : InTurn issued calls lines) :
    InTurn issued calls (.label l :: lines)

namespace InTurn

variable {issued issued' : Expr → Instr → Prop} {calls more : List Expr} {lines lines' : List Line}

theorem append (h : InTurn issued calls lines) (h' : InTurn issued more lines') :
    InTurn issued (calls ++ more) (lines ++ lines') := by
  induction h with
  | nil => exact h'
  | call hi _ ih => exact .call hi ih
  | other hi _ ih => exact .other hi ih
  | label l _ ih => exact .label l ih

theorem after (h : InTurn issued [] lines) (h' : InTurn issued more lines') :
    InTurn issued more (lines ++ lines') :=
  h.append h'

theorem before (h : InTurn issued calls lines) (h' : InTurn issued [] lines') :
    InTurn issued calls (lines ++ lines') := by
  rw [← List.append_nil calls]
  exact h.append h'

theorem imp (h : InTurn issued calls lines) (hi : ∀ call i, issued call i → issued' call i) :
    InTurn issued' calls lines := by
  induction h with
  | nil => exact .nil
  | call h _ ih => exact .call (hi _ _ h) ih
  | other h _ ih => exact .other h ih
  | label l _ ih => exact .label l ih

theorem of_callee (h : InTurn issued calls lines) (hm : i ∈ instrsOf lines)
    (hi : i.callee? ≠ none) : ∃ call ∈ calls, issued call i := by
  induction h with
  | nil => cases hm
  | call h _ ih =>
    rcases List.mem_cons.mp hm with rfl | hm
    · exact ⟨_, List.mem_cons_self, h⟩
    · obtain ⟨call, hc, hcall⟩ := ih hm
      exact ⟨call, List.mem_cons_of_mem _ hc, hcall⟩
  | other h _ ih =>
    rcases List.mem_cons.mp hm with rfl | hm
    · exact absurd h hi
    · exact ih hm
  | label l _ ih => exact ih hm

theorem lead (c : Cursor) : InTurn issued [] c.lead := by
  unfold Cursor.lead
  split
  · exact .label _ .nil
  · exact .nil

theorem line (c : Cursor) (h : i.callee? = none) : InTurn issued [] (c.line i) :=
  (lead c).after (.other h .nil)

theorem jump (c : Cursor) (target : Label) : InTurn issued [] (c.jump target) := by
  unfold Cursor.jump
  split
  · exact .nil
  · exact .other rfl .nil

theorem loopHead (id : Nat) (var cmp : ValueName) (incoming : List (Operand × Label))
    (limit : Operand) : InTurn issued [] (loopHead id var cmp incoming limit) :=
  .label _ (.other rfl (.other rfl (.other rfl .nil)))

theorem loopTail (c : Cursor) (id : Nat) (var next : ValueName) :
    InTurn issued [] (c.loopTail id var next) := by
  unfold Cursor.loopTail
  split
  · exact .nil
  · exact .other rfl (.other rfl .nil)

end InTurn

/-! ## Emitters -/

/-- Whatever is emitted makes the calls. -/
def Emit.Makes {α : Type} (issued : Expr → Instr → Prop) (calls : List Expr) (e : Emit α)
    (post : α → Prop) : Prop :=
  ∀ (c : Cursor) (a : α) (lines : List Line) (c' : Cursor), e c = .ok (a, lines, c') →
    InTurn issued calls lines ∧ post a

namespace Emit.Makes

variable {α β : Type} {issued : Expr → Instr → Prop} {calls more : List Expr} {post : α → Prop}
  {post' : β → Prop}

theorem pure {a : α} (h : post a) : Makes issued [] (pure a) post := by
  intro c b lines c' he
  obtain ⟨rfl, rfl, rfl⟩ := pure_eq_ok.mp he
  exact ⟨.nil, h⟩

theorem fail (halt : Halt) : Makes issued calls (Emit.fail halt) post := by
  intro c a lines c' he
  cases he

theorem ofExcept {x : Except Halt α} (h : ∀ a, x = .ok a → post a) :
    Makes issued [] (Emit.ofExcept x) post := by
  intro c a lines c' he
  obtain ⟨hx, rfl, rfl⟩ := ofExcept_eq_ok.mp he
  exact ⟨.nil, h a hx⟩

theorem check {x : Except Halt α} {f : α → Emit β}
    (h : ∀ a, x = .ok a → Makes issued calls (f a) post') :
    Makes issued calls (Emit.ofExcept x >>= f) post' := by
  intro c b lines c' he
  obtain ⟨a, _, _, rest, h₁, h₂, rfl⟩ := bind_eq_ok.mp he
  obtain ⟨hx, rfl, rfl⟩ := ofExcept_eq_ok.mp h₁
  exact h a hx _ b rest c' h₂

theorem bind {e : Emit α} {f : α → Emit β} (h : Makes issued calls e post)
    (hf : ∀ a, post a → Makes issued more (f a) post') :
    Makes issued (calls ++ more) (e >>= f) post' := by
  intro c b lines c' he
  obtain ⟨a, first, c₁, rest, h₁, h₂, rfl⟩ := bind_eq_ok.mp he
  obtain ⟨hfirst, ha⟩ := h c a first c₁ h₁
  obtain ⟨hrest, hb⟩ := hf a ha c₁ b rest c' h₂
  exact ⟨hfirst.append hrest, hb⟩

theorem after {e : Emit α} {f : α → Emit β} (h : Makes issued [] e post)
    (hf : ∀ a, post a → Makes issued calls (f a) post') : Makes issued calls (e >>= f) post' :=
  h.bind hf

theorem before {e : Emit α} {f : α → Emit β} (h : Makes issued calls e post)
    (hf : ∀ a, post a → Makes issued [] (f a) post') : Makes issued calls (e >>= f) post' := by
  rw [← List.append_nil calls]
  exact h.bind hf

theorem freshReg : Makes issued [] Emit.freshReg fun _ => True := by
  intro c a lines c' he
  cases he
  exact ⟨.nil, trivial⟩

theorem use (routine : RuntimeRoutine) : Makes issued [] (Emit.use routine) fun _ => True := by
  intro c a lines c' he
  cases he
  exact ⟨.nil, trivial⟩

theorem emit (h : i.callee? = none) : Makes issued [] (Emit.emit i) fun _ => True := by
  intro c a lines c' he
  rw [emit_apply] at he
  cases he
  exact ⟨.line c h, trivial⟩

theorem terminate (h : i.callee? = none) : Makes issued [] (Emit.terminate i) fun _ => True := by
  intro c a lines c' he
  rw [terminate_apply] at he
  cases he
  exact ⟨.line c h, trivial⟩

theorem issue (h : issued call i) : Makes issued [call] (Emit.emit i) fun _ => True := by
  intro c a lines c' he
  rw [emit_apply] at he
  cases he
  exact ⟨(InTurn.lead c).after (.call h .nil), trivial⟩

end Emit.Makes

/-! ## Expressions -/

/-- What the emission of calls relies on. Operands have types that `fits` allows: any but `Void`,
and what functions take. -/
structure Directed (ctx : BodyContext) (fits : Ty → Prop) : Prop where
  covers : ctx.Covers
  settled : ctx.scopes.Settled
  rooted : ctx.scopes.Rooted
  stored : ∀ ty, ty ≠ .void → fits ty
  passed : ∀ sig ∈ ctx.scopes.sigs, ∀ ty ∈ sig.params, fits ty

/-- What is left to do for the value of an expression: if it is a call, to make it. -/
def Value.Awaits (ctx : BodyContext) (value : Value) : Expr → Prop
  | .call name args span slot => ∃ sig computation, value = .pending computation ∧
    ctx.scopes.Picks 1 (.call name args span slot) sig ∧ computation.Does ctx.functions sig
  | _ => ∀ computation, value = .pending computation → computation.callee? = none

section

variable {ctx : BodyContext} {fits : Ty → Prop}

theorem Expr.HasType.makes_irType {calls : List Expr} (h : expr.HasType ctx.scopes 1 ty) {β : Type}
    {f : IrType → Emit β} {post : β → Prop} (hf : Makes issued calls (f ty.ir) post) :
    Makes issued calls (Emit.ofExcept expr.irType >>= f) post := by
  refine .check fun ir hir => ?_
  rw [h.irType, Except.ok.injEq] at hir
  exact hir ▸ hf

theorem makes_emitCall (h : Directed ctx fits) {args : List Expr} {done : List (IrType × Operand)}
    {tys : List Ty} {found : List Signature} {span : Span} (ht : HaveTypes ctx.scopes 1 args tys)
    (hn : ctx.scopes.NearestOverloads name 1 found)
    (hf : found.filter (fun sig => sig.params = tys) = [sig])
    (hirs : done.map (·.1) = tys.map Ty.ir) :
    Makes (Issued ctx.scopes ctx.functions fits) [] (emitCall ctx name done sig.ret.ir span)
      fun value => value.Awaits ctx (.call name args span (some sig.ret)) := by
  have hpicks := ht.picks h.settled h.rooted hn hf span
  obtain ⟨hvisible, rfl⟩ := hn.selected h.rooted hf
  obtain ⟨-, rfl⟩ := ScopeTree.mem_visible hvisible
  simp only [emitCall]
  by_cases hu : ctx.isUserFunction sig.name = true
  · rw [if_pos hu, hirs]
    exact .pure ⟨sig, _, rfl, hpicks, .function (of_decide_eq_true hu) hirs⟩
  · rw [if_neg hu, hirs]
    have hnot : sig.name ∉ ctx.functions := fun hm => hu (decide_eq_true hm)
    have hb : ⟨sig.name, sig.params, sig.ret⟩ ∈ Builtin.all := by
      have hm : sig ∈ found := by
        rw [hn.visible h.rooted]
        exact hvisible
      exact h.covers.builtin hn hm rfl hu
    cases hnative : Native.find? sig.name (sig.params.map Ty.ir) with
    | some native =>
      obtain ⟨hmeaning, htypes, -⟩ := native_meaning _ hb native hnative
      have hresult : native.result = sig.ret.ir := native_result _ hb native hnative
      refine .check fun computation hc => .pure ?_
      exact ⟨sig, computation, rfl, hpicks, .native hnot hmeaning htypes hresult hc⟩
    | none =>
      cases hr : RuntimeRoutine.find? sig.name (sig.params.map Ty.ir) with
      | some r =>
        obtain ⟨hmeaning, hparams, hret⟩ := runtime_meaning _ hb r hr
        have hret : r.ret = sig.ret.ir := hret
        refine (Makes.use r).after fun _ _ => .pure ?_
        rw [hret]
        exact ⟨sig, _, rfl, hpicks, .runtime hnot hmeaning hparams hret hirs⟩
      | none => exact .fail _

/-- The computation that is left to do makes the outermost call, or the expression is none. -/
theorem Value.Awaits.pending {computation : Computation}
    (hv : (Value.pending computation).Awaits ctx expr) (hs : expr.slot = some ty) :
    expr.outer = [] ∧ computation.callee? = none ∨
      expr.outer = [expr] ∧ ∃ sig, sig.ret = ty ∧ ctx.scopes.Picks 1 expr sig ∧
        computation.Does ctx.functions sig := by
  cases expr with
  | lit literal span slot => exact Or.inl ⟨rfl, hv computation rfl⟩
  | var name handle span slot => exact Or.inl ⟨rfl, hv computation rfl⟩
  | call name args span slot =>
    obtain ⟨sig, _, ⟨⟩, hpicks, hdoes⟩ := hv
    exact Or.inr ⟨rfl, sig, Option.some.inj (hpicks.1.symm.trans hs), hpicks, hdoes⟩

theorem Value.Awaits.operand {o : Operand} (hv : (Value.operand o).Awaits ctx expr) :
    expr.outer = [] := by
  cases expr with
  | lit literal span slot => rfl
  | var name handle span slot => rfl
  | call name args span slot => obtain ⟨sig, _, ⟨⟩, -⟩ := hv

theorem Value.Awaits.toOperand {value : Value} {expr : Expr} {ty : Ty}
    (hv : value.Awaits ctx expr) (hs : expr.slot = some ty) (hty : fits ty) :
    Makes (Issued ctx.scopes ctx.functions fits) expr.outer value.toOperand fun _ => True := by
  cases value with
  | operand o =>
    rw [hv.operand]
    exact .pure trivial
  | pending computation =>
    refine Makes.freshReg.after fun reg _ => ?_
    rcases hv.pending hs with ⟨houter, hload⟩ | ⟨houter, sig, rfl, hpicks, hdoes⟩
    · rw [houter]
      exact (Makes.emit (i := .assign reg computation) hload).after fun _ _ => .pure trivial
    · rw [houter]
      have hissued : Issued ctx.scopes ctx.functions fits expr (.assign reg computation) :=
        ⟨sig, computation, hpicks, hdoes, Or.inr ⟨reg, rfl, hty⟩⟩
      exact (Makes.issue hissued).before fun _ _ => .pure trivial

mutual
theorem Expr.makes_emitValue (h : Directed ctx fits) : ∀ (expr : Expr) {ty : Ty},
    expr.HasType ctx.scopes 1 ty →
    Makes (Issued ctx.scopes ctx.functions fits) expr.inner (expr.emitValue ctx)
      fun value => value.Awaits ctx expr
  | .lit .., _, _ => by
    unfold Expr.emitValue
    refine .check fun _ _ => .pure ?_
    rintro _ ⟨⟩
  | .var .., _, _ => by
    unfold Expr.emitValue
    refine .check fun ir _ => .ofExcept fun value hv => ?_
    exact emitVariable_calls hv
  | .call _ args _ _, ty, ht => by
    unfold Expr.emitValue
    refine ht.makes_irType ?_
    obtain ⟨rfl, -, tys, found, sig, hts, hn, hf, rfl⟩ := ht
    have hfits : ∀ ty ∈ tys, fits ty := by
      obtain ⟨hvisible, rfl⟩ := hn.selected h.rooted hf
      exact h.passed sig (ScopeTree.mem_visible hvisible).1
    exact (makes_emitArgs h args hts hfits).before fun done hdone =>
      makes_emitCall h hts hn hf hdone
theorem makes_emitArgs (h : Directed ctx fits) : ∀ (args : List Expr) {tys : List Ty},
    HaveTypes ctx.scopes 1 args tys → (∀ ty ∈ tys, fits ty) →
    Makes (Issued ctx.scopes ctx.functions fits) (callsOf args) (emitArgs ctx args) fun done =>
      done.map (·.1) = tys.map Ty.ir
  | [], _, ht, _ => by
    cases ht
    exact .pure rfl
  | arg :: args, _, ht, hfits => by
    unfold emitArgs
    obtain ⟨ty, rest, hty, htys, rfl⟩ := ht
    obtain ⟨hfit, hfits⟩ := List.forall_mem_cons.mp hfits
    refine hty.makes_irType ?_
    rw [callsOf, arg.calls_eq, List.append_assoc]
    refine (arg.makes_emitValue h hty).bind fun value hv => ?_
    refine (hv.toOperand hty.slot hfit).bind fun o _ => ?_
    refine (makes_emitArgs h args htys hfits).before fun done hdone => .pure ?_
    rw [List.map_cons, List.map_cons, hdone]
end

variable {expr : Expr} {ty : Ty}

theorem Expr.makes_emitOperand (h : Directed ctx fits) (ht : expr.HasType ctx.scopes 1 ty)
    (hfit : fits ty) :
    Makes (Issued ctx.scopes ctx.functions fits) expr.calls (expr.emitOperand ctx)
      fun _ => True := by
  rw [expr.calls_eq]
  exact (expr.makes_emitValue h ht).bind fun value hv => hv.toOperand ht.slot hfit

/-- Where only the effect matters, a result of type `Void` gets no register. -/
theorem Expr.makes_emitEffect (h : Directed ctx fits) (ht : expr.HasType ctx.scopes 1 ty) :
    Makes (Issued ctx.scopes ctx.functions fits) expr.calls (expr.emitEffect ctx)
      fun _ => True := by
  rw [expr.calls_eq]
  refine ht.makes_irType ?_
  refine (expr.makes_emitValue h ht).bind fun value hv => ?_
  cases value with
  | operand o =>
    rw [hv.operand]
    exact .pure trivial
  | pending computation =>
    dsimp only
    rcases hv.pending ht.slot with ⟨houter, hload⟩ | ⟨houter, sig, rfl, hpicks, hdoes⟩
    · rw [houter]
      split
      · exact .emit hload
      · exact Makes.freshReg.after fun _ _ => .emit hload
    · rw [houter]
      split
      · rename_i hvoid
        exact .issue ⟨sig, computation, hpicks, hdoes, Or.inl ⟨rfl, ht.prim.ir_eq_void.mp hvoid⟩⟩
      · rename_i hvoid
        have hne : sig.ret ≠ .void := fun he => hvoid (ht.prim.ir_eq_void.mpr he)
        exact Makes.freshReg.after fun reg _ =>
          .issue ⟨sig, computation, hpicks, hdoes, Or.inr ⟨reg, rfl, h.stored _ hne⟩⟩

end

/-! ## Statements -/

section

variable {issued : Expr → Instr → Prop} {c c₁ c₂ c₃ : Cursor} {id : Nat}
  {counter next cmp : ValueName} {limit operand : Operand} {incoming : List (Operand × Label)}

theorem inTurn_for {lo hi body : List Expr} {loLines hiLines bodyLines : List Line}
    (hlo : InTurn issued lo loLines) (hhi : InTurn issued hi hiLines)
    (hbody : InTurn issued body bodyLines) :
    InTurn issued (lo ++ (hi ++ body)) (loLines ++ (hiLines ++ (c₂.line (.br (.head id)) ++
      (loopHead id counter cmp incoming limit ++ ([.label (.body id)] ++ (bodyLines ++
        (c₃.loopTail id counter next ++ [.label (.cont id)]))))))) := by
  have hend := hbody.before ((InTurn.loopTail c₃ id counter next).before (.label (.cont id) .nil))
  have hhead := (InTurn.loopHead id counter cmp incoming limit).after (.label (.body id) hend)
  exact hlo.append (hhi.append ((InTurn.line c₂ rfl).after hhead))

theorem inTurn_while {cond body : List Expr} {condLines bodyLines : List Line}
    (hcond : InTurn issued cond condLines) (hbody : InTurn issued body bodyLines) :
    InTurn issued (cond ++ body) (c.line (.br (.head id)) ++ ([.label (.head id)] ++ (condLines ++
      (c₁.line (.condBr operand (.body id) (.cont id)) ++ ([.label (.body id)] ++ (bodyLines ++
        (c₂.jump (.head id) ++ [.label (.cont id)]))))))) := by
  have hend := hbody.before ((InTurn.jump c₂ (.head id)).before (.label (.cont id) .nil))
  refine (InTurn.line c rfl).after (.label (.head id) ?_)
  exact hcond.append ((InTurn.line c₁ rfl).after (.label (.body id) hend))

theorem inTurn_arms {cond first others : List Expr} {condLines thenLines elseLines : List Line}
    (hcond : InTurn issued cond condLines) (hthen : InTurn issued first thenLines)
    (helse : InTurn issued others elseLines) :
    InTurn issued (cond ++ (first ++ others))
      (condLines ++ (c₁.line (.condBr operand (.thenArm id) (.elseArm id)) ++
        ([.label (.thenArm id)] ++ (thenLines ++ (c₂.jump (.cont id) ++
          ([.label (.elseArm id)] ++ (elseLines ++ (c₃.jump (.cont id) ++
            if !c₂.terminated || !c₃.terminated then [.label (.cont id)] else [])))))))) := by
  have hjoin : InTurn issued []
      (if !c₂.terminated || !c₃.terminated then [.label (.cont id)] else []) := by
    split
    · exact .label _ .nil
    · exact .nil
  have hend := helse.before ((InTurn.jump c₃ (.cont id)).before hjoin)
  have hrest := hthen.append ((InTurn.jump c₂ (.cont id)).after (.label (.elseArm id) hend))
  exact hcond.append ((InTurn.line c₁ rfl).after (.label (.thenArm id) hrest))

end

section

variable {ctx : BodyContext} {fits : Ty → Prop} {ret : Ty}

theorem makes_emitStore (h : Directed ctx fits) {id : DeclId} {value : Expr}
    (ht : value.HasType ctx.scopes 1 ty) (hne : ty ≠ .void) :
    Makes (Issued ctx.scopes ctx.functions fits) value.calls (emitStore ctx name id value)
      fun _ => True := by
  refine ht.makes_irType ?_
  exact (Expr.makes_emitOperand h ht (h.stored _ hne)).before fun _ _ => .emit rfl

theorem Return.makes_emit (h : Directed ctx fits) (hfit : ctx.kind.Fits ret) {back : Return}
    (ht : back.value.HasType ctx.scopes 1 ret) :
    Makes (Issued ctx.scopes ctx.functions fits) back.value.calls (back.emit ctx)
      fun _ => True := by
  cases hk : ctx.kind with
  | script =>
    rw [hk] at hfit
    obtain rfl : ret = .int := hfit
    rw [Return.emit_script back hk]
    refine (Expr.makes_emitOperand h ht (h.stored _ nofun)).before fun o _ => ?_
    exact Makes.freshReg.after fun _ _ => (Makes.emit rfl).after fun _ _ => .terminate rfl
  | function ty =>
    rw [hk] at hfit
    by_cases hvoid : ty = .void
    · subst hvoid
      rw [Return.emit_procedure back hk]
      exact (Expr.makes_emitEffect h ht).before fun _ _ => .terminate rfl
    · rw [Return.emit_function back hk hvoid]
      obtain rfl : ret.ir = ty := hfit
      have hne : ret ≠ .void := fun he => hvoid (ht.prim.ir_eq_void.mpr he)
      exact (Expr.makes_emitOperand h ht (h.stored _ hne)).before fun _ _ => .terminate rfl

theorem makes_emitReturn? (h : Directed ctx fits) (hfit : ctx.kind.Fits ret)
    {result : Option Return}
    (ht : ∀ back, result = some back → back.value.HasType ctx.scopes 1 ret) :
    Makes (Issued ctx.scopes ctx.functions fits) (callsOf (result.toList.map (·.value)))
      (emitReturn? ctx result) fun _ => True := by
  cases result with
  | none => exact .pure trivial
  | some back =>
    have hcalls : callsOf ((some back).toList.map (·.value)) = back.value.calls := by
      simp [callsOf]
    rw [hcalls]
    exact Return.makes_emit h hfit (ht back rfl)

theorem makes_emitBreak? (exit : Option Label) (brk : Option Break) :
    Makes issued [] (emitBreak? exit brk) fun _ => True := by
  cases brk with
  | none => exact .pure trivial
  | some brk =>
    cases exit with
    | none => exact .fail _
    | some l => exact .terminate rfl

section

variable (h : Directed ctx fits) (hfit : ctx.kind.Fits ret)

include h hfit

mutual
theorem Stmt.makes_emit : ∀ (stmt : Stmt)
    {env : Env} (exit : Option Label), stmt.Resolved env → stmt.WellTyped ctx.scopes 1 ret →
    Makes (Issued ctx.scopes ctx.functions fits) stmt.calls (stmt.emit ctx exit) fun _ => True
  | .decl .., _, _, _, ht => by
    unfold Stmt.emit
    obtain ⟨id, var, rfl, -, -, -, hvalue, hne, -⟩ := ht
    exact .check fun _ _ => makes_emitStore h hvalue hne
  | .assign .., _, _, _, ht => by
    unfold Stmt.emit
    obtain ⟨id, var, rfl, -, -, -, hvalue, hne⟩ := ht
    exact .check fun _ _ => makes_emitStore h hvalue hne
  | .branch conds blocks _, _, exit, hr, ht => by
    unfold Stmt.emit
    exact makes_emitArms blocks conds exit hr.1 hr.2.2 ht.1 ht.2
  | .forLoop _ _ _ body _ _, _, _, hr, ht => by
    intro c _ lines c' he
    obtain ⟨decl, start, loLines, c₁, limit, hiLines, c₂, bodyLines, c₃, id, counter, next, cmp,
      rfl, hcounter, hid, hnext, hcmp, hlo, hhi, hbody, rfl, rfl⟩ := emit_for_eq_ok he
    obtain ⟨-, htlo, hthi, htbody⟩ := ht
    obtain ⟨-, -, _, ⟨⟩, hrbody⟩ := hr
    have hint : fits .int := h.stored _ nofun
    obtain ⟨hlines₁, -⟩ := Expr.makes_emitOperand h htlo hint _ _ _ _ hlo
    obtain ⟨hlines₂, -⟩ := Expr.makes_emitOperand h hthi hint _ _ _ _ hhi
    obtain ⟨hlines₃, -⟩ := body.makes_emit _ hrbody htbody _ _ _ _ hbody
    exact ⟨inTurn_for hlines₁ hlines₂ hlines₃, trivial⟩
  | .whileLoop _ body _, _, _, hr, ht => by
    intro c _ lines c' he
    obtain ⟨id, operand, condLines, c₁, bodyLines, c₂, hid, hcond, hbody, rfl, rfl⟩ :=
      emit_while_eq_ok he
    have hbool : fits .bool := h.stored _ nofun
    obtain ⟨hlines₁, -⟩ := Expr.makes_emitOperand h ht.1 hbool _ _ _ _ hcond
    obtain ⟨hlines₂, -⟩ := body.makes_emit _ hr.2 ht.2 _ _ _ _ hbody
    exact ⟨inTurn_while hlines₁ hlines₂, trivial⟩
  | .call _, _, _, _, ht => by
    unfold Stmt.emit
    obtain ⟨ty, hvalue⟩ := ht
    exact Expr.makes_emitEffect h hvalue
theorem Block.makes_emit : ∀ (block : Block)
    {env : Env} (exit : Option Label), block.Resolved env → block.WellTyped ctx.scopes 1 ret →
    Makes (Issued ctx.scopes ctx.functions fits) block.calls (block.emit ctx exit) fun _ => True
  | ⟨stmts, _, brk, _, _⟩, _, exit, hr, ht => by
    rw [Block.emit_eq, Block.calls]
    refine (makes_emitStmts stmts exit hr.1 ht.1).bind fun _ _ => ?_
    exact (makes_emitReturn? h hfit ht.2).before fun _ _ => makes_emitBreak? exit brk
theorem makes_emitStmts :
    ∀ (stmts : List Stmt) {env : Env} (exit : Option Label), StmtsResolved env stmts →
    StmtsWellTyped ctx.scopes 1 ret stmts →
    Makes (Issued ctx.scopes ctx.functions fits) (callsOfStmts stmts) (emitStmts ctx exit stmts)
      fun _ => True
  | [], _, _, _, _ => by
    unfold emitStmts
    exact .pure trivial
  | stmt :: stmts, _, exit, hr, ht => by
    unfold emitStmts
    rw [callsOfStmts]
    exact (stmt.makes_emit exit hr.1 ht.1).bind fun _ _ =>
      makes_emitStmts stmts exit hr.2 ht.2
theorem makes_emitArms {span : Span} :
    ∀ (blocks : List Block) (conds : List Expr) {env : Env} (exit : Option Label),
    branchShapeFits conds.length blocks.length = true → BlocksResolved env blocks →
    (∀ cond ∈ conds, cond.HasType ctx.scopes 1 .bool) → BlocksWellTyped ctx.scopes 1 ret blocks →
    Makes (Issued ctx.scopes ctx.functions fits) (callsOfArms blocks conds)
      (emitArms ctx exit span conds blocks) fun _ => True
  | _, [], _, _, _, _, _, _ => fun _ _ _ _ he => absurd he emitArms_no_cond
  | [], _ :: _, _, _, _, _, _, _ => fun _ _ _ _ he => absurd he emitArms_no_block
  | block :: blocks, cond :: conds, _, exit, hshape, hr, htc, htb => by
    intro c _ lines c' he
    obtain ⟨id, operand, condLines, c₁, thenLines, c₂, elseLines, c₃, hid, hcond, hthen, helse, rfl,
      rfl⟩ := emitArms_eq_ok he
    have hbool : fits .bool := h.stored _ nofun
    have htcond := htc cond List.mem_cons_self
    obtain ⟨hlines₁, -⟩ := Expr.makes_emitOperand h htcond hbool _ _ _ _ hcond
    obtain ⟨hlines₂, -⟩ := block.makes_emit exit hr.1 htb.1 _ _ _ _ hthen
    have hothers : Makes (Issued ctx.scopes ctx.functions fits) (callsOfArms blocks conds)
        (emitElse ctx exit span conds blocks) fun _ => True := by
      unfold emitElse
      simp only [branchShapeFits, List.length_cons] at hshape
      cases conds with
      | nil => exact makes_emitLast blocks exit (by grind) hr.2 htb.2
      | cons next conds =>
        have hshape' : branchShapeFits (next :: conds).length blocks.length = true := by
          simp only [branchShapeFits, List.length_cons]
          grind
        exact makes_emitArms blocks (next :: conds) exit hshape' hr.2
          (fun cond hm => htc cond (List.mem_cons_of_mem _ hm)) htb.2
    obtain ⟨hlines₃, -⟩ := hothers _ _ _ _ helse
    exact ⟨inTurn_arms hlines₁ hlines₂ hlines₃, trivial⟩
theorem makes_emitLast :
    ∀ (blocks : List Block) {env : Env} (exit : Option Label), blocks.length ≤ 1 →
    BlocksResolved env blocks → BlocksWellTyped ctx.scopes 1 ret blocks →
    Makes (Issued ctx.scopes ctx.functions fits) (callsOfArms blocks []) (emitLast ctx exit blocks)
      fun _ => True
  | [], _, _, _, _, _ => by
    unfold emitLast
    exact .pure trivial
  | [block], _, exit, _, hr, ht => by
    have hcalls : callsOfArms [block] [] = block.calls := by
      simp [callsOfArms, callsOf]
    rw [hcalls]
    exact block.makes_emit exit hr.1 ht.1
  | _ :: _ :: _, _, _, hlen, _, _ => by simp at hlen
end

end

/-! ## Routines -/

theorem makes_emitCells (vars : List Local) : Makes issued [] (emitCells vars) fun _ => True := by
  induction vars with
  | nil =>
    unfold emitCells
    exact .pure trivial
  | cons var vars ih =>
    unfold emitCells
    exact .check fun _ _ => .check fun _ _ => .check fun _ _ => (Makes.emit rfl).after fun _ _ => ih

theorem makes_emitEpilogue (kind : RoutineKind) :
    Makes issued [] (emitEpilogue kind) fun _ => True := by
  unfold emitEpilogue
  split <;> exact .terminate rfl

theorem Routine.From.inTurn (h : Directed ctx fits) (hfit : ctx.kind.Fits ret) {r : Routine}
    {params : List (IrType × ValueName)} {body : Block} {c c' : Cursor} {env : Env}
    (hr : r.From ctx params body c c') (hres : body.Resolved env)
    (ht : body.WellTyped ctx.scopes 1 ret) :
    InTurn (Issued ctx.scopes ctx.functions fits) body.calls r.lines := by
  obtain ⟨cellLines, c₁, bodyLines, c₂, last, hcells, hbody, hlines, hlast⟩ :=
    emitRoutine_eq_ok hr.2
  have hend : InTurn (Issued ctx.scopes ctx.functions fits) [] last := by
    rcases hlast with ⟨-, rfl, -⟩ | ⟨-, hret⟩
    · exact .nil
    · exact (makes_emitEpilogue ctx.kind _ _ _ _ hret).1
  have hcalls := (body.makes_emit h hfit none hres ht _ _ _ _ hbody).1
  rw [hlines]
  exact .label _ ((makes_emitCells _ _ _ _ _ hcells).1.after (hcalls.before hend))

end

/-! ## Units -/

/-- The signature is that of the function at the given position. -/
def CompileUnit.Owns (unit : CompileUnit) (res : Resolution) (k : Nat) (sig : Signature) : Prop :=
  k < unit.functions.length ∧ ∃ id, res.signatures[k]? = some id ∧ res.scopes.sigs[id]? = some sig

/-- The instruction makes the call with the overload that inference picked. A name that the unit
defines stands for the one function with the signature that was picked, and the instruction spells
what the `define` line of its routine does. Any other name is a built-in. -/
def CompileUnit.Reaches (unit : CompileUnit) (res : Resolution) (m : Module) (call : Expr)
    (i : Instr) : Prop :=
  ∃ sig args span computation, call = .call sig.name args span (some sig.ret) ∧
    res.scopes.Picks res.unitScope call sig ∧
    (i = .perform computation ∨ ∃ reg, i = .assign reg computation) ∧
    if sig.name ∈ unit.functions.map (·.name) then
      sig.kind = .user ∧ ∃ k r operands, unit.Owns res k sig ∧
        (∀ other, unit.Owns res other sig → other = k) ∧ m.routines[k]? = some r ∧
        computation = .call r.ret (.function r.symbol) operands ∧
        operands.map (·.1) = r.params.map (·.1)
    else
      sig.kind = .builtin ∧ ⟨sig.name, sig.params, sig.ret⟩ ∈ Builtin.all ∧
        computation.Does (unit.functions.map (·.name)) sig

section

variable {unit : CompileUnit} {res : Resolution} {m : Module}

theorem ScopeTree.Settled.sigs_nodup {tree : ScopeTree} (h : tree.Settled) : tree.sigs.Nodup := by
  have hapart := h.unambiguous
  rw [ScopeTree.Unambiguous] at hapart
  refine hapart.imp fun hne he => ?_
  subst he
  exact hne ⟨rfl, rfl, rfl⟩

theorem CompileUnit.Checked.owns_unique (h : unit.Checked res) (hs : res.scopes.Settled)
    {k other : Nat} (hk : unit.Owns res k sig) (ho : unit.Owns res other sig) : other = k := by
  obtain ⟨hlt, id, hid, hsig⟩ := hk
  obtain ⟨hlt', id', hid', hsig'⟩ := ho
  rw [h.signatures, List.getElem?_range' hlt, Option.some.injEq] at hid
  rw [h.signatures, List.getElem?_range' hlt', Option.some.injEq] at hid'
  obtain ⟨hbound, -⟩ := List.getElem?_eq_some_iff.mp hsig
  have hsame : id = id' := (List.getElem?_inj hbound hs.sigs_nodup).mp (hsig.trans hsig'.symm)
  rw [← hsame, ← hid] at hid'
  simpa using hid'

theorem CompileUnit.Checked.owns (h : unit.Checked res) (hu : name ∈ unit.functions.map (·.name))
    (hv : sig ∈ res.scopes.visible name) :
    sig.kind = .user ∧ ∃ k fn, unit.Owns res k sig ∧ unit.functions[k]? = some fn ∧
      fn.WellTyped res.scopes res.unitScope sig := by
  have hscope : sig.scope = 1 := by
    obtain ⟨own, hown, rfl⟩ := List.mem_map.mp hu
    obtain ⟨_, hvisible, -⟩ := h.visible hown
    rw [h.unitScope] at hvisible
    rw [ScopeTree.visible, if_neg (List.ne_nil_of_mem hvisible)] at hv
    exact (ScopeTree.mem_overloads.mp hv).2.1
  obtain ⟨users, hsigs, hf⟩ := h.sigs
  have hm : sig ∈ users := by
    have hm := (ScopeTree.mem_visible hv).1
    rw [hsigs] at hm
    rcases List.mem_append.mp hm with hm | hm
    · have hroot := builtin_scope sig hm
      rw [hscope] at hroot
      cases hroot
    · exact hm
  obtain ⟨k, hlt, rfl⟩ := List.mem_iff_getElem.mp hm
  have hlt' : k < unit.functions.length := hf.length_eq ▸ hlt
  obtain ⟨ht, hkind, -⟩ := hf.get hlt' hlt
  have hsignature : res.signatures[k]? = some (builtinSignatures.length + 1 * k) := by
    rw [h.signatures, List.getElem?_range' hlt']
  refine ⟨hkind, k, unit.functions[k], ⟨hlt', _, hsignature, ?_⟩, List.getElem?_eq_getElem hlt', ht⟩
  simp [hsigs, hlt]

theorem CompileUnit.Checked.builtin (h : unit.Checked res) (hm : sig ∈ res.scopes.sigs)
    (hu : sig.name ∉ unit.functions.map (·.name)) :
    sig.kind = .builtin ∧ ⟨sig.name, sig.params, sig.ret⟩ ∈ Builtin.all := by
  rcases h.covers .script sig hm with hb | hb
  · obtain ⟨b, hmem, rfl⟩ := List.mem_map.mp hb
    exact ⟨rfl, hmem⟩
  · exact absurd (of_decide_eq_true hb) hu

theorem ScopeTree.Picks.visible {tree : ScopeTree} (hroot : tree.Rooted)
    (h : tree.Picks 1 call sig) :
    sig ∈ tree.visible sig.name ∧ ∃ args span, call = .call sig.name args span (some sig.ret) := by
  cases call with
  | lit => exact h.elim
  | var => exact h.elim
  | call name args span slot =>
    obtain ⟨rfl, tys, -, hover⟩ := h
    rw [overloadFor_eq_ok hroot] at hover
    have hm : sig ∈ (tree.reached name tys).filter
        fun other => (other.ret.unify sig.ret).isSome := by
      simp [hover]
    have hvisible := (mem_reached.mp (List.mem_filter.mp hm).1).1
    obtain ⟨-, rfl⟩ := mem_visible hvisible
    exact ⟨hvisible, args, span, rfl⟩

theorem CompileUnit.Checked.reaches (h : unit.Checked res) (hs : res.scopes.Settled)
    {fits : Ty → Prop} {routines : List Routine} {script : Routine}
    (hroutines : m.routines = routines ++ [script])
    (hlow : List.Forall₂ (FnDef.Lowered res.scopes (unit.functions.map (·.name)) m.declares)
      unit.functions routines)
    (hi : Issued res.scopes (unit.functions.map (·.name)) fits call i) :
    unit.Reaches res m call i := by
  obtain ⟨sig, computation, hpicks, hdoes, hissue⟩ := hi
  obtain ⟨hvisible, args, span, hcall⟩ := hpicks.visible h.parents
  refine ⟨sig, args, span, computation, hcall, h.unitScope ▸ hpicks, ?_, ?_⟩
  · exact hissue.imp (fun hi => hi.1) fun ⟨reg, hi⟩ => ⟨reg, hi.1⟩
  · split
    · rename_i hu
      obtain ⟨hkind, k, fn, howns, hfn, ht⟩ := h.owns hu hvisible
      obtain ⟨hlt, rfl⟩ := List.getElem?_eq_some_iff.mp hfn
      have hlt' : k < routines.length := hlow.length_eq ▸ hlt
      obtain ⟨hret, htypes, hsymbol⟩ := (hlow.get hlt hlt').spells ht
      have hroutine : m.routines[k]? = some (routines.get ⟨k, hlt'⟩) := by
        rw [hroutines, List.getElem?_append_left hlt', List.getElem?_eq_getElem hlt']
        rfl
      refine ⟨hkind, k, routines.get ⟨k, hlt'⟩, ?_⟩
      cases hdoes with
      | @function operands _ hoperands =>
        refine ⟨operands, howns, fun _ ho => h.owns_unique hs howns ho, hroutine, ?_, ?_⟩
        · rw [hret, hsymbol]
        · rw [hoperands, htypes]
      | native hnot => exact absurd hu hnot
      | runtime hnot => exact absurd hu hnot
    · rename_i hu
      obtain ⟨hkind, hb⟩ := h.builtin (ScopeTree.mem_visible hvisible).1 hu
      exact ⟨hkind, hb, hdoes⟩

theorem CompileUnit.Checked.directed (h : unit.Checked res) (hs : res.scopes.Settled)
    (fits : Ty → Prop) (hstored : ∀ ty, ty ≠ .void → fits ty)
    (hpassed : ∀ sig ∈ res.scopes.sigs, ∀ ty ∈ sig.params, fits ty) (kind : RoutineKind) :
    Directed ⟨res.scopes, unit.functions.map (·.name), kind⟩ fits :=
  ⟨h.covers kind, hs, h.parents, hstored, hpassed⟩

theorem FnDef.Lowered.inTurn {scopes : ScopeTree} {functions : List String} {fits : Ty → Prop}
    {used : List RuntimeRoutine} {fn : FnDef} {r : Routine} (h : fn.Lowered scopes functions used r)
    (hd : ∀ kind, Directed ⟨scopes, functions, kind⟩ fits) (ht : fn.WellTyped scopes 1 sig)
    (hr : fn.Resolved) : InTurn (Issued scopes functions fits) fn.body.calls r.lines := by
  obtain ⟨header, c, c', hheader, hdef, -⟩ := h
  obtain ⟨hret, -, -⟩ := ht.header_eq hheader
  have hfits : (RoutineKind.function header.ret).Fits sig.ret := hret.symm
  exact hdef.lines.inTurn (hd _) hfits hr ht.body

/-- Each call reaches the overload that inference picked for it. -/
theorem compile_reaches_picked {options : Options} (h : (unit.compile options).result = .ok m) :
    ∃ res routines script, unit.check.result = .ok res ∧ m.routines = routines ++ [script] ∧
      List.Forall₂ (fun fn r =>
          InTurn ((unit.compile options).unit.Reaches res m) fn.body.calls r.lines)
        (unit.compile options).unit.functions routines ∧
      InTurn ((unit.compile options).unit.Reaches res m)
        (unit.compile options).unit.script.body.calls script.lines := by
  obtain ⟨res, hcheck, hlower⟩ := CompileUnit.compile_eq_ok h
  obtain ⟨hchecked, -⟩ := CompileUnit.check_spec hcheck
  obtain ⟨routines, script, hroutines, hlow, c, c', hscript, -⟩ :=
    CompileUnit.lower_lowered hlower
  have hs := CompileUnit.check_settled hcheck
  have hd := hchecked.directed hs (fun _ => True) (fun _ _ => trivial) fun _ _ _ _ => trivial
  have hreaches (call : Expr) (i : Instr)
      (hi : Issued res.scopes (unit.check.unit.functions.map (·.name)) (fun _ => True) call i) :
      unit.check.unit.Reaches res m call i :=
    hchecked.reaches hs hroutines hlow hi
  rw [CompileUnit.compile_unit]
  refine ⟨res, routines, script, hcheck, hroutines, forall₂_imp_of_mem hlow ?_, ?_⟩
  · intro fn hfn r hlowered
    obtain ⟨sig, -, ht⟩ := hchecked.visible hfn
    rw [hchecked.unitScope] at ht
    exact (hlowered.inTurn hd ht (hchecked.functions fn hfn)).imp hreaches
  · have hcalls := hscript.lines.inTurn (hd .script) rfl hchecked.script
      (hchecked.unitScope ▸ hchecked.scriptTyped)
    exact hcalls.imp hreaches

end

/-- Overloads, and a function that hides the built-ins of its name. -/
def eclipsed : CompileUnit where
  functions := [
    { name := "scale", params := [{ name := "n", ty := { name := "Int" } }], ret := none
      body := { stmts := [], ret := some { value := .call "*" [.var "n", .lit (.int 2)] } } },
    { name := "scale", params := [{ name := "x", ty := { name := "Float" } }], ret := none
      body := { stmts := [], ret := some { value := .call "*" [.var "x", .var "x"] } } },
    { name := "+"
      params := [
        { name := "a", ty := { name := "Bool" } }, { name := "b", ty := { name := "Bool" } }]
      ret := none
      body := { stmts := [], ret := some { value := .call "or" [.var "a", .var "b"] } } }]
  script :=
    { name := "main"
      body := {
        stmts := [
          .forLoop "i" (.lit (.int 1)) (.call "scale" [.lit (.int 4)]) {
            stmts := [
              .branch [.call "+" [.lit (.bool false), .call "<" [.var "i", .lit (.int 3)]]]
                [{ stmts := [.call (.call "print" [.call "scale" [.var "i"]])] }] ] },
          .call (.call "print" [.call "scale" [.lit (.float ⟨0x3fd0000000000000⟩)]])] } }

theorem compile_reaches_picked_eclipsed :
    ∃ m, (eclipsed.compile {}).result = .ok m ∧
      (eclipsed.compile {}).unit.script.body.calls.length = 7 ∧
      ∃ res routines script, eclipsed.check.result = .ok res ∧ m.routines = routines ++ [script] ∧
        List.Forall₂ (fun fn r =>
            InTurn ((eclipsed.compile {}).unit.Reaches res m) fn.body.calls r.lines)
          (eclipsed.compile {}).unit.functions routines ∧
        InTurn ((eclipsed.compile {}).unit.Reaches res m)
          (eclipsed.compile {}).unit.script.body.calls script.lines := by
  have hok : (eclipsed.compile {}).result.map (fun m => m.routines.length) = .ok 4 := by
    decide +kernel
  have hcalls : (eclipsed.compile {}).unit.script.body.calls.length = 7 := by
    decide +kernel
  obtain ⟨m, h, -⟩ := map_eq_ok.mp hok
  exact ⟨m, h, hcalls, compile_reaches_picked h⟩

end ScriptLang
