import ScriptLang.Proofs.Availability
import ScriptLang.Proofs.Machine
import ScriptLang.Proofs.Regularity

/-!
# Running the code of expressions

The code of an expression computes its value: it runs straight through, leaves cells and older
registers alone, and has the effects that evaluation has, in the same order.
-/

namespace ScriptLang

open Emit

variable {computation : Computation} {c : Cursor} {id : DeclId} {f : Frame} {found : List Signature}
  {tys : List Ty} {vals : List Val} {n : Nat} {o : Operand} {sig : Signature} {name : String}
  {ty : Ty} {v : Val} {value : Value} {var : VarDecl}

/-! ## Types at run time -/

theorem Val.irType_of_type (h : v.type? = some ty) : v.irType = ty.ir := by
  cases v <;> cases h <;> rfl

theorem Val.eq_int (h : v.type? = some .int) : ∃ n, v = .int n := by
  cases v with
  | int n => exact ⟨n, rfl⟩
  | _ => simp [Val.type?, Ty.int, Ty.bool, Ty.float, Ty.void] at h

theorem Val.eq_bool (h : v.type? = some .bool) : ∃ b, v = .bool b := by
  cases v with
  | bool b => exact ⟨b, rfl⟩
  | _ => simp [Val.type?, Ty.int, Ty.bool, Ty.float, Ty.void] at h

theorem irTypes_of_types (h : vals.map Val.type? = tys.map some) :
    vals.map Val.irType = tys.map Ty.ir := by
  induction vals generalizing tys with
  | nil => cases tys <;> simp_all
  | cons v vals ih =>
    cases tys with
    | nil => cases h
    | cons ty tys =>
      obtain ⟨hv, hvs⟩ := List.cons.inj h
      rw [List.map_cons, List.map_cons, Val.irType_of_type hv, ih hvs]

theorem Literal.type_val (literal : Literal) : literal.val.type? = some literal.ty := by
  cases literal <;> rfl

theorem Literal.atType_val (literal : Literal) :
    literal.atType literal.ty.ir = some literal.val := by
  cases literal <;> rfl

theorem Ty.Prim.ir_eq_void (h : ty.Prim) : ty.ir = .void ↔ ty = .void := by
  rcases h with rfl | rfl | rfl | rfl <;> decide

/-! ## Built-ins -/

/-- What the instruction does, as an operation of the language. -/
def Native.meaning : Native → Option Operation
  | .binary op ty => op.meaning ty
  | .unary op => some op.meaning

def Native.types : Native → List IrType
  | .binary _ ty => [ty, ty]
  | .unary op => [op.type]

theorem native_meaning : ∀ b ∈ Builtin.all,
    ∀ native ∈ Native.find? b.name (b.params.map Ty.ir),
      native.meaning = some ⟨b.name, b.params⟩ ∧ native.types = b.params.map Ty.ir ∧
        b.ret ≠ .void := by
  decide

theorem runtime_meaning : ∀ b ∈ Builtin.all,
    ∀ r ∈ RuntimeRoutine.find? b.name (b.params.map Ty.ir),
      r.meaning = ⟨b.name, b.params⟩ ∧ r.params = b.params.map Ty.ir ∧ r.ret = b.ret.ir := by
  decide

theorem Native.compute_run {World : Type} {I : Interpretation World} {native : Native}
    {args : List (IrType × Operand)} {operation : Operation} {w : World}
    (h : native.compute (args.map (·.2)) = .ok computation) (ht : native.types = args.map (·.1))
    (hm : native.meaning = some operation) (hv : f.operands args = some vals) :
    f.compute I computation w = I.operate operation vals w := by
  cases native with
  | binary op ty =>
    rcases args with _ | ⟨⟨ta, a⟩, _ | ⟨⟨tb, b⟩, _ | ⟨_, _⟩⟩⟩ <;> cases h
    obtain ⟨rfl, hb⟩ := List.cons.inj ht
    obtain ⟨rfl, -⟩ := List.cons.inj hb
    have hop : op.meaning ty = some operation := hm
    simp only [Frame.compute, hop, hv, Option.bind_eq_bind, Option.bind_some]
  | unary op =>
    rcases args with _ | ⟨⟨ta, a⟩, _ | ⟨_, _⟩⟩ <;> cases h
    obtain ⟨rfl, -⟩ := List.cons.inj ht
    cases hm
    simp only [Frame.compute, hv, Option.bind_eq_bind, Option.bind_some]

/-! ## Frames that run on -/

/-- The name is not that of a register from the given number on. -/
def ValueName.Below (n : Nat) (v : ValueName) : Prop :=
  ∀ k, v.number? = some k → k < n

/-- The operand is a known variable, or a register with a smaller number. -/
def Operand.Within (known : List ValueName) (n : Nat) (o : Operand) : Prop :=
  ∀ v ∈ o.uses, v.Below n ∧ (v.number? = none → v ∈ known)

theorem ValueName.Below.mono {n' : Nat} {v : ValueName} (h : v.Below n) (hn : n ≤ n') :
    v.Below n' :=
  fun k hk => Nat.lt_of_lt_of_le (h k hk) hn

theorem ValueName.below_variable (n : Nat) (name : String) (id : DeclId) :
    (ValueName.variable name id).Below n := by
  intro k hk
  cases hk

/-- Only registers from the given number on have changed. -/
structure Frame.Extends (n : Nat) (f f' : Frame) : Prop where
  routine : f'.routine = f.routine
  block : f'.block = f.block
  cells : f'.cells = f.cells
  regs : ∀ v : ValueName, v.Below n → f'.regs v = f.regs v

theorem Frame.operand_congr {f' : Frame} (h : ∀ v ∈ o.uses, f'.regs v = f.regs v) (ty : IrType) :
    f'.operand ty o = f.operand ty o := by
  cases o with
  | const literal => rfl
  | value name => simp only [Frame.operand, h name List.mem_cons_self]

namespace Frame.Extends

variable {n n' : Nat} {f f₁ f' : Frame}

theorem refl : f.Extends n f :=
  ⟨rfl, rfl, rfl, fun _ _ => rfl⟩

theorem trans (h₁ : f.Extends n f₁) (hn : n ≤ n') (h₂ : f₁.Extends n' f') : f.Extends n f' where
  routine := h₂.routine.trans h₁.routine
  block := h₂.block.trans h₁.block
  cells := h₂.cells.trans h₁.cells
  regs v hv := (h₂.regs v (hv.mono hn)).trans (h₁.regs v hv)

theorem assign (v : Val) (hn : n ≤ n') : f.Extends n (f.assign (.reg n') v) where
  routine := rfl
  block := rfl
  cells := rfl
  regs name hname := by
    refine Function.update_of_ne ?_ _ _
    rintro rfl
    exact absurd (hname n' rfl) (Nat.not_lt.mpr hn)

theorem operand {known : List ValueName} (h : f.Extends n f') {o : Operand}
    (ho : o.Within known n) (ty : IrType) : f'.operand ty o = f.operand ty o :=
  Frame.operand_congr (fun v hv => h.regs v (ho v hv).1) ty

end Frame.Extends

theorem Frame.operand_assign {dest : ValueName} {ty : IrType} (h : v.irType = ty) :
    (f.assign dest v).operand ty (.value dest) = some v := by
  simp only [Frame.operand, Frame.assign, Function.update_self, Option.filter_some, h, decide_true,
    if_true]

theorem Operand.within_reg (known : List ValueName) (n : Nat) :
    (Operand.value (.reg n)).Within known (n + 1) := by
  intro v hv
  rw [List.mem_singleton.mp hv]
  refine ⟨?_, fun h => by cases h⟩
  intro k hk
  cases hk
  exact Nat.lt_succ_self n

/-! ## Variables -/

/-- Where a frame keeps a variable. -/
def Frame.holds (f : Frame) (kind : DeclKind) (v : ValueName) : Option Val :=
  if kind = .localVar then f.cells v else f.regs v

section

variable {World : Type} {I : Interpretation World} {scopes : ScopeTree} {known : List ValueName}
  {store : Store} {f f' : Frame}

/-- The frame holds what the store does for one variable. -/
structure Frame.Mirrors (I : Interpretation World) (store : Store) (f : Frame) (id : DeclId)
    (var : VarDecl) : Prop where
  notVoid : var.ty.ir ≠ .void
  typed : (store.read I id var.ty).type? = some var.ty
  holds : f.holds var.kind (.variable var.name id) = some (store.read I id var.ty)

/-- The frame holds what the store does, at least for the variables that are known. -/
def Tracks (I : Interpretation World) (scopes : ScopeTree) (known : List ValueName) (store : Store)
    (f : Frame) : Prop :=
  ∀ name id, .variable name id ∈ known →
    ∃ var, scopes.decls[id]? = some var ∧ var.name = name ∧ f.Mirrors I store id var

theorem Tracks.mono {more : List ValueName} (h : Tracks I scopes more store f)
    (hs : known ⊆ more) : Tracks I scopes known store f :=
  fun name id hm => h name id (hs hm)

theorem Frame.Mirrors.extends (h : f.Mirrors I store id var) (he : f.Extends n f') :
    f'.Mirrors I store id var := by
  refine ⟨h.notVoid, h.typed, ?_⟩
  have hr := he.regs _ (ValueName.below_variable n var.name id)
  rw [← h.holds, Frame.holds, Frame.holds, he.cells, hr]

theorem Tracks.extends {n : Nat} (h : Tracks I scopes known store f) (he : f.Extends n f') :
    Tracks I scopes known store f' := by
  intro name id hm
  obtain ⟨var, hv, hn, hmirror⟩ := h name id hm
  exact ⟨var, hv, hn, hmirror.extends he⟩

theorem Tracks.update {id : DeclId} {var : VarDecl} {v : Val} (h : Tracks I scopes known store f)
    (hv : scopes.decls[id]? = some var)
    (hnew : f'.Mirrors I (Function.update store id (some v)) id var)
    (hsame : ∀ kind name id', id' ≠ id →
      f'.holds kind (.variable name id') = f.holds kind (.variable name id')) :
    Tracks I scopes known (Function.update store id (some v)) f' := by
  intro name id' hm
  obtain ⟨var', hv', hn', hmirror⟩ := h name id' hm
  refine ⟨var', hv', hn', ?_⟩
  by_cases hid : id' = id
  · subst hid
    rw [hv, Option.some.injEq] at hv'
    exact hv' ▸ hnew
  · have hread : Store.read I (Function.update store id (some v)) id' var'.ty =
        store.read I id' var'.ty := by
      rw [Store.read, Store.read, Function.update_of_ne hid]
    refine ⟨hmirror.notVoid, ?_, ?_⟩
    · rw [hread]
      exact hmirror.typed
    · rw [hread, hsame _ _ _ hid]
      exact hmirror.holds

theorem Store.read_update (store : Store) (id : DeclId) (v : Val) (ty : Ty) :
    Store.read I (Function.update store id (some v)) id ty = v := by
  rw [Store.read, Function.update_self]
  rfl

theorem Tracks.setCell {id : DeclId} {var : VarDecl} {v : Val} (h : Tracks I scopes known store f)
    (hv : scopes.decls[id]? = some var) (hk : var.kind = .localVar) (hne : var.ty.ir ≠ .void)
    (ht : v.type? = some var.ty) : Tracks I scopes known (Function.update store id (some v))
      (f.setCell (.variable var.name id) v) := by
  refine h.update hv ⟨hne, ?_, ?_⟩ ?_
  · rw [Store.read_update]
    exact ht
  · rw [Store.read_update, Frame.holds, if_pos hk]
    exact Function.update_self _ _ _
  · intro kind name id' hid
    have hcell : (f.setCell (.variable var.name id) v).cells (.variable name id') =
        f.cells (.variable name id') :=
      Function.update_of_ne (fun he => hid (ValueName.variable.inj he).2) _ _
    rw [Frame.holds, Frame.holds, hcell]
    rfl

theorem Tracks.mirrors {env : Env} (h : Tracks I scopes known store f) (he : env.KnownIn known)
    (hl : env.lookup name = some id) (hv : scopes.decls[id]? = some var) :
    f.Mirrors I store id var := by
  obtain ⟨var', hv', -, hmirror⟩ := h name id (he _ (Env.mem_of_lookup hl))
  rw [hv, Option.some.injEq] at hv'
  exact hv' ▸ hmirror

end

theorem Emit.emit_open (h : c.terminated = false) (i : Instr) :
    emit i c = .ok ((), [.instr i], c) := by
  rw [emit_apply, Cursor.line, Cursor.lead_of_open h, Cursor.opened_of_open h]
  rfl

theorem Emit.terminate_open (h : c.terminated = false) (i : Instr) :
    terminate i c = .ok ((), [.instr i], c.stopped) := by
  rw [terminate_apply, Cursor.line, Cursor.lead_of_open h, Cursor.opened_of_open h]
  rfl

theorem Emit.Straight.nextReg_le {α : Type} {e : Emit α} (h : Straight e) {c' : Cursor} {a : α}
    {lines : List Line} (he : e c = .ok (a, lines, c')) : c.nextReg ≤ c'.nextReg :=
  (h (fun _ => True) c a lines c' he).regs_le

/-! ## Expressions -/

section

variable {World : Type} (m : Module) (I : Interpretation World)

/-- Lines without labels and jumps, whatever comes after them. -/
def Module.Runs (f : Frame) (w : World) (lines : List Line) (f' : Frame) (w' : World) : Prop :=
  ∀ code, m.Goes I (f.before (lines ++ code)) w (f'.before code) w'

/-- What a body calls is there and does what it should: functions of the unit return what
evaluation gives, and the routines of the runtime are declared. -/
structure Linked (ctx : BodyContext) (scope : ScopeId) (call : Calls World) : Prop where
  covers : ctx.Covers
  noVoid : ∀ sig ∈ ctx.scopes.sigs, .void ∉ sig.params
  runtime : ∀ r ∈ m.declares, m.find (Callee.runtime r).text = some (.runtime r)
  builtins : ∀ name tys args w result, ctx.isUserFunction name = false →
    call name tys args w = some result → I.operate ⟨name, tys⟩ args w = some result
  functions : ∀ name tys found sig args w v w', ctx.isUserFunction name = true →
    ctx.scopes.NearestOverloads name scope found →
    found.filter (fun sig => sig.params = tys) = [sig] → args.map Val.type? = tys.map some →
    call name tys args w = some (v, w') → v.type? = some sig.ret ∧
      ∃ r f, m.find (functionSymbol ctx.functions name (tys.map Ty.ir)) = some (.routine r) ∧
        r.ret = sig.ret.ir ∧ Frame.start r args = some f ∧
        m.Returns I f w (v.result sig.ret.ir) w'

/-- What is left to do for a value: nothing for an operand, one instruction for a computation. -/
def Value.Yields (known : List ValueName) (f : Frame) (w : World) (n : Nat) (ty : IrType) (v : Val)
    (w' : World) : Value → Prop
  | .operand o => f.operand ty o = some v ∧ o.Within known n ∧ w = w'
  | .pending computation =>
    (ty ≠ .void → ∀ dest code, m.Goes I (f.before (.instr (.assign dest computation) :: code)) w
      ((f.assign dest v).before code) w') ∧
    (ty = .void → ∀ code, m.Goes I (f.before (.instr (.perform computation) :: code)) w
      (f.before code) w')

variable {m I} {ctx : BodyContext} {scope : ScopeId} {call : Calls World} {env : Env}
  {known : List ValueName} {store : Store} {f f₁ f' : Frame} {w w₁ w' : World} {v : Val}
  {c c' : Cursor} {lines lines' : List Line}

theorem Module.Runs.nil : m.Runs I f w [] f w :=
  fun _ => .refl

theorem Module.Runs.append (h₁ : m.Runs I f w lines f₁ w₁) (h₂ : m.Runs I f₁ w₁ lines' f' w') :
    m.Runs I f w (lines ++ lines') f' w' := by
  intro code
  rw [List.append_assoc]
  exact (h₁ _).trans (h₂ code)

theorem Value.Yields.compute {ty : IrType} (h : f.compute I computation w = some (v, w'))
    (hty : ty ≠ .void) : (Value.pending computation).Yields m I known f w n ty v w' :=
  ⟨fun _ _ _ => Module.goes_assign h, fun he => absurd he hty⟩

theorem Value.Yields.of_call {computation : Computation} {ty : IrType} {n : Nat}
    (h : ∀ dest f' code, f.receive dest (v.result ty) = some f' →
      m.Goes I (f.before (.instr (Module.callTo dest computation) :: code)) w (f'.before code) w') :
    (Value.pending computation).Yields m I known f w n ty v w' := by
  refine ⟨fun hty dest code => h (some dest) _ code ?_, fun hty code => h none _ code rfl⟩
  rw [Val.result, if_neg hty]
  rfl

theorem Value.toOperand_runs (hy : value.Yields m I known f w n ty.ir v w') (hty : ty.ir ≠ .void)
    (hv : v.type? = some ty) (hn : n = c.nextReg) (hc : c.terminated = false)
    (h : value.toOperand c = .ok (o, lines, c')) :
    ∃ f', m.Runs I f w lines f' w' ∧ f.Extends c.nextReg f' ∧ f'.operand ty.ir o = some v ∧
      o.Within known c'.nextReg := by
  cases value with
  | operand o' =>
    obtain ⟨rfl, rfl, rfl⟩ := Emit.pure_eq_ok.mp h
    obtain ⟨ho, hb, rfl⟩ := hy
    exact ⟨f, .nil, .refl, ho, hn ▸ hb⟩
  | pending computation =>
    obtain ⟨_, h₁, rfl⟩ := Emit.bind_eq_ok_of_apply (freshReg_apply c) h
    have hopen : (c.skipRegs 1).terminated = false := hc
    obtain ⟨_, h₂, rfl⟩ := Emit.bind_eq_ok_of_apply (emit_open hopen _) h₁
    obtain ⟨rfl, rfl, rfl⟩ := Emit.pure_eq_ok.mp h₂
    refine ⟨f.assign (.reg c.nextReg) v, fun code => hy.1 hty _ code, .assign v (Nat.le_refl _), ?_,
      Operand.within_reg known _⟩
    exact Frame.operand_assign (Val.irType_of_type hv)

theorem emitVariable_yields {span : Span} (hv : ctx.scopes.decls[id]? = some var)
    (hn : var.name = name) (hk : .variable name id ∈ known) (hm : f.Mirrors I store id var)
    (h : emitVariable ctx name (some id) var.ty.ir span = .ok value) :
    value.Yields m I known f w n var.ty.ir (store.read I id var.ty) w := by
  have hir := Val.irType_of_type hm.typed
  have hh := hm.holds
  rw [hn] at hh
  simp only [emitVariable, ScopeTree.declaration, ScopeTree.var?, hv, ScriptLang.bind_eq_ok,
    demand_eq_ok, Option.some.injEq, exists_eq_left'] at h
  split at h
  · rename_i hlocal
    cases h
    refine .compute ?_ hm.notVoid
    rw [Frame.holds, if_pos hlocal] at hh
    simp only [Frame.compute, hh, Option.filter_some, hir, decide_true, if_true,
      Option.bind_eq_bind, Option.bind_some]
    rfl
  · rename_i hlocal
    cases h
    rw [Frame.holds, if_neg hlocal] at hh
    refine ⟨?_, ?_, rfl⟩
    · simp only [Frame.operand, hh, Option.filter_some, hir, decide_true, if_true]
    · intro v hv
      rw [List.mem_singleton.mp hv]
      exact ⟨ValueName.below_variable _ _ _, fun _ => hk⟩

theorem HaveTypes.slots {tree : ScopeTree} : ∀ {args : List Expr} {tys tys' : List Ty},
    HaveTypes tree scope args tys → args.mapM Expr.slot = some tys' → tys = tys'
  | [], _, _, ht, h => by
    cases ht
    cases h
    rfl
  | _ :: _, _, _, ⟨_, _, hty, hrest, rfl⟩, h => by
    simp only [List.mapM_cons, hty.slot, Option.pure_def, Option.bind_eq_bind, Option.bind_some,
      Option.bind_eq_some_iff, Option.some.injEq] at h
    obtain ⟨_, h, rfl⟩ := h
    rw [HaveTypes.slots hrest h]

theorem Linked.noVoid_args (hl : Linked m I ctx scope call)
    (hn : ctx.scopes.NearestOverloads name scope found)
    (hf : found.filter (fun sig => sig.params = tys) = [sig]) : .void ∉ tys := by
  have hm : sig ∈ found.filter fun sig => sig.params = tys := by simp [hf]
  obtain ⟨hfound, hparams⟩ := List.mem_filter.mp hm
  rw [← of_decide_eq_true hparams]
  exact hl.noVoid sig (hn.subset hfound)

theorem BodyContext.Covers.builtin (h : ctx.Covers)
    (hn : ctx.scopes.NearestOverloads name scope found) (hs : sig ∈ found) (hp : sig.params = tys)
    (hu : ¬ ctx.isUserFunction name = true) : ⟨name, tys, sig.ret⟩ ∈ Builtin.all := by
  have hname : sig.name = name := by
    obtain ⟨_, rfl, _⟩ := hn.exists_scope
    exact (ScopeTree.mem_overloads.mp hs).2.2
  rcases h sig (hn.subset hs) with hb | hb
  · obtain ⟨b, hmem, rfl⟩ := List.mem_map.mp hb
    subst hname hp
    exact hmem
  · rw [hname] at hb
    exact absurd hb hu

theorem builtin_prim {b : Builtin} (h : b ∈ Builtin.all) : b.ret.Prim :=
  (builtinSignatures_prim _ (List.mem_map_of_mem h)).2

theorem mem_used (r : RuntimeRoutine) (c : Cursor) :
    r ∈ (if r ∈ c.used then c.used else r :: c.used) := by
  split
  · assumption
  · exact List.mem_cons_self

theorem emitCall_yields (hl : Linked m I ctx scope call) {args : List (IrType × Operand)}
    {span : Span} (hn : ctx.scopes.NearestOverloads name scope found)
    (hf : found.filter (fun sig => sig.params = tys) = [sig])
    (hargs : args.map (·.1) = tys.map Ty.ir) (hvals : f.operands args = some vals)
    (htypes : vals.map Val.type? = tys.map some) (hused : c'.used ⊆ m.declares)
    (h : emitCall ctx name args sig.ret.ir span c = .ok (value, lines, c'))
    (he : call name tys vals w = some (v, w')) :
    lines = [] ∧ v.type? = some sig.ret ∧ value.Yields m I known f w n sig.ret.ir v w' := by
  have hm : sig ∈ found.filter fun sig => sig.params = tys := by simp [hf]
  obtain ⟨hfound, hparams⟩ := List.mem_filter.mp hm
  simp only [emitCall] at h
  by_cases hu : ctx.isUserFunction name = true
  · rw [if_pos hu] at h
    obtain ⟨rfl, rfl, rfl⟩ := Emit.pure_eq_ok.mp h
    obtain ⟨htyped, r, inner, hfind, hret, hstart, hreturns⟩ :=
      hl.functions name tys found sig vals w v w' hu hn hf htypes he
    refine ⟨rfl, htyped, .of_call fun dest f' code hreceive => ?_⟩
    rw [hargs]
    exact Module.goes_call hvals hfind hret hstart hreturns hreceive
  · rw [if_neg hu] at h
    have hb : ⟨name, tys, sig.ret⟩ ∈ Builtin.all := hl.covers.builtin hn hfound
      (of_decide_eq_true hparams) hu
    have hop := hl.builtins name tys vals w (v, w') (Bool.eq_false_iff.mpr hu) he
    have htyped : v.type? = some sig.ret := I.typed _ hb vals w v w' htypes hop
    rw [hargs] at h
    cases hnative : Native.find? name (tys.map Ty.ir) with
    | some native =>
      simp only [hnative] at h
      obtain ⟨hmeaning, hnt, hret⟩ := native_meaning _ hb native hnative
      obtain ⟨computation, _, _, _, hof, h₁, rfl⟩ := Emit.bind_eq_ok.mp h
      obtain ⟨hcompute, rfl, rfl⟩ := Emit.ofExcept_eq_ok.mp hof
      obtain ⟨rfl, rfl, rfl⟩ := Emit.pure_eq_ok.mp h₁
      refine ⟨rfl, htyped, .compute ?_ ?_⟩
      · rw [Native.compute_run hcompute (hnt.trans hargs.symm) hmeaning hvals]
        exact hop
      · intro he
        exact hret ((builtin_prim hb).ir_eq_void.mp he)
    | none =>
      cases hr : RuntimeRoutine.find? name (tys.map Ty.ir) with
      | some r =>
        simp only [hnative, hr] at h
        obtain ⟨hmeaning, hparams, hret⟩ := runtime_meaning _ hb r hr
        obtain ⟨_, _, _, _, huse, h₁, rfl⟩ := Emit.bind_eq_ok.mp h
        obtain ⟨rfl, rfl, rfl⟩ := Emit.pure_eq_ok.mp h₁
        cases huse
        have hr : r ∈ m.declares := hused (mem_used r c)
        refine ⟨rfl, htyped, .of_call fun dest f' code hreceive => ?_⟩
        have hrets : r.ret = sig.ret.ir := hret
        refine Module.goes_runtime hvals (hl.runtime r hr) ?_ (hmeaning ▸ hop) (hrets ▸ hreceive)
        rw [hparams, irTypes_of_types htypes]
      | none =>
        simp only [hnative, hr] at h
        cases h

mutual
theorem Expr.emitValue_runs (hl : Linked m I ctx scope call) (he : env.KnownIn known) :
    ∀ (expr : Expr) {ty : Ty} {c c' : Cursor} {lines : List Line} {value : Value} {f : Frame}
      {w w' : World} {v : Val}, expr.HasType ctx.scopes scope ty → expr.Resolved env →
    expr.emitValue ctx c = .ok (value, lines, c') → c.terminated = false →
    c'.used ⊆ m.declares → Tracks I ctx.scopes known store f →
    expr.eval I call store w = some (v, w') → v.type? = some ty ∧
      ∃ f' w₁, m.Runs I f w lines f' w₁ ∧ f.Extends c.nextReg f' ∧
        value.Yields m I known f' w₁ c'.nextReg ty.ir v w'
  | .lit literal _ _, _, _, _, _, _, f, w, _, v, ht, _, h, _, _, _, hv => by
    unfold Expr.emitValue at h
    obtain ⟨_, _, _, _, hof, h₁, rfl⟩ := Emit.bind_eq_ok.mp h
    obtain ⟨-, rfl, rfl⟩ := Emit.ofExcept_eq_ok.mp hof
    obtain ⟨rfl, rfl, rfl⟩ := Emit.pure_eq_ok.mp h₁
    cases hv
    obtain ⟨-, rfl⟩ := ht
    refine ⟨literal.type_val, f, w, .nil, .refl, literal.atType_val, ?_, rfl⟩
    intro v hm
    cases hm
  | .var .., _, _, _, _, _, f, w, _, _, ht, hr, h, _, _, htr, hv => by
    unfold Expr.emitValue at h
    obtain ⟨ir, _, _, _, hof, h₁, rfl⟩ := Emit.bind_eq_ok.mp h
    obtain ⟨hir, rfl, rfl⟩ := Emit.ofExcept_eq_ok.mp hof
    obtain ⟨hvalue, rfl, rfl⟩ := Emit.ofExcept_eq_ok.mp h₁
    rw [ht.irType, Except.ok.injEq] at hir
    obtain ⟨rfl, -, id, var, rfl, hdecl, hname, rfl⟩ := ht
    obtain ⟨_, ⟨⟩, hlookup⟩ := hr
    cases hv
    have hmirror := htr.mirrors he hlookup hdecl
    have hk := he _ (Env.mem_of_lookup hlookup)
    subst hir
    exact ⟨hmirror.typed, f, w, .nil, .refl, emitVariable_yields hdecl hname hk hmirror hvalue⟩
  | .call _ args _ _, _, _, _, _, _, _, _, _, _, ht, hr, h, hc, hused, htr, hv => by
    unfold Expr.emitValue at h
    obtain ⟨ret, _, _, _, hof, h₁, rfl⟩ := Emit.bind_eq_ok.mp h
    obtain ⟨hir, rfl, rfl⟩ := Emit.ofExcept_eq_ok.mp hof
    obtain ⟨done, argLines, c₁, _, hargs, hcall, rfl⟩ := Emit.bind_eq_ok.mp h₁
    rw [ht.irType, Except.ok.injEq] at hir
    subst hir
    obtain ⟨-, -, tys, found, sig, hts, hn, hf, rfl⟩ := ht
    simp only [Expr.eval, Option.bind_eq_bind, Option.bind_eq_some_iff, Prod.exists] at hv
    obtain ⟨vals, w₁, hvals, tys', htys, hv⟩ := hv
    obtain rfl := hts.slots htys
    have hused₁ : c₁.used ⊆ m.declares :=
      List.Subset.trans ((regular_emitCall _ _ _ _ _).onward trivial hcall).used hused
    have hvoid : .void ∉ tys := hl.noVoid_args hn hf
    obtain ⟨f', hruns, hext, hoperands, hirs, htypes⟩ :=
      emitArgs_runs hl he args hts hr hvoid hargs hc hused₁ htr hvals
    obtain ⟨rfl, htyped, hyields⟩ :=
      emitCall_yields hl hn hf hirs hoperands htypes hused hcall hv
    rw [List.append_nil]
    exact ⟨htyped, f', w₁, hruns, hext, hyields⟩
theorem emitArgs_runs (hl : Linked m I ctx scope call) (he : env.KnownIn known) :
    ∀ (args : List Expr) {tys : List Ty} {c c' : Cursor} {lines : List Line}
      {done : List (IrType × Operand)} {f : Frame} {w w' : World} {vals : List Val},
    HaveTypes ctx.scopes scope args tys → AllResolved env args → .void ∉ tys →
    emitArgs ctx args c = .ok (done, lines, c') → c.terminated = false →
    c'.used ⊆ m.declares → Tracks I ctx.scopes known store f →
    evalArgs I call store args w = some (vals, w') →
    ∃ f', m.Runs I f w lines f' w' ∧ f.Extends c.nextReg f' ∧ f'.operands done = some vals ∧
      done.map (·.1) = tys.map Ty.ir ∧ vals.map Val.type? = tys.map some
  | [], _, _, _, _, _, f, _, _, _, ht, _, _, h, _, _, _, hv => by
    obtain ⟨rfl, rfl, rfl⟩ := Emit.pure_eq_ok.mp h
    cases hv
    cases ht
    exact ⟨f, .nil, .refl, rfl, rfl, rfl⟩
  | arg :: args, tys, _, _, _, _, _, _, _, _, ht, hr, hvoid, h, hc, hused, htr, hv => by
    unfold emitArgs at h
    obtain ⟨ir, _, _, _, hof, h₁, rfl⟩ := Emit.bind_eq_ok.mp h
    obtain ⟨hir, rfl, rfl⟩ := Emit.ofExcept_eq_ok.mp hof
    obtain ⟨value, first, c₁, _, hvalue, h₂, rfl⟩ := Emit.bind_eq_ok.mp h₁
    obtain ⟨o, mid, c₂, _, hoperand, h₃, rfl⟩ := Emit.bind_eq_ok.mp h₂
    obtain ⟨rest, last, c₃, _, hrest, h₄, rfl⟩ := Emit.bind_eq_ok.mp h₃
    obtain ⟨rfl, rfl, rfl⟩ := Emit.pure_eq_ok.mp h₄
    obtain ⟨ty, tys, hty, htys, rfl⟩ := ht
    rw [hty.irType, Except.ok.injEq] at hir
    subst hir
    obtain ⟨hne, hvoid⟩ := not_or.mp (List.mem_cons.not.mp hvoid)
    have hty' : ty.ir ≠ .void := fun he => hne (hty.prim.ir_eq_void.mp he).symm
    simp only [evalArgs, Option.bind_eq_bind, Option.bind_eq_some_iff, Prod.exists,
      Option.pure_def, Option.some.injEq, Prod.mk.injEq] at hv
    obtain ⟨v, w₁, hv, vs, _, hvs, rfl, rfl⟩ := hv
    have hon₁ := (arg.regular_emitValue ctx).onward trivial hvalue
    have hon₂ := value.regular_toOperand.onward trivial hoperand
    have hon₃ := (regular_emitArgs ctx args).onward trivial hrest
    have hle₁ := (arg.straight_emitValue ctx).nextReg_le hvalue
    have hle₂ := value.straight_toOperand.nextReg_le hoperand
    have hused₁ := List.Subset.trans (hon₂.trans hon₃).used hused
    obtain ⟨htyped, f₁, _, hruns₁, hext₁, hyields⟩ :=
      arg.emitValue_runs hl he hty hr.1 hvalue hc hused₁ htr hv
    obtain ⟨f₂, hruns₂, hext₂, hvalueOf, hbelow⟩ :=
      Value.toOperand_runs hyields hty' htyped rfl (hon₁.opens hc) hoperand
    obtain ⟨f₃, hruns₃, hext₃, hvaluesOf, hirs, htypes⟩ :=
      emitArgs_runs hl he args htys hr.2 hvoid hrest ((hon₁.trans hon₂).opens hc) hused
        ((htr.extends hext₁).extends hext₂) hvs
    refine ⟨f₃, hruns₁.append (hruns₂.append (hruns₃.append .nil)),
      (hext₁.trans hle₁ hext₂).trans (Nat.le_trans hle₁ hle₂) hext₃, ?_, ?_, ?_⟩
    · simp only [Frame.operands, hext₃.operand hbelow, hvalueOf, hvaluesOf, Option.bind_eq_bind,
        Option.bind_some]
      rfl
    · rw [List.map_cons, List.map_cons, hirs]
    · rw [List.map_cons, List.map_cons, htyped, htypes]
end

variable {expr : Expr} {ty : Ty}

theorem Expr.emitOperand_runs (hl : Linked m I ctx scope call) (he : env.KnownIn known)
    (ht : expr.HasType ctx.scopes scope ty) (hr : expr.Resolved env) (hty : ty.ir ≠ .void)
    (h : expr.emitOperand ctx c = .ok (o, lines, c')) (hc : c.terminated = false)
    (hused : c'.used ⊆ m.declares) (htr : Tracks I ctx.scopes known store f)
    (hv : expr.eval I call store w = some (v, w')) : v.type? = some ty ∧
      ∃ f', m.Runs I f w lines f' w' ∧ f.Extends c.nextReg f' ∧ f'.operand ty.ir o = some v ∧
        o.Within known c'.nextReg := by
  obtain ⟨value, first, c₁, rest, hvalue, hoperand, rfl⟩ := Emit.bind_eq_ok.mp h
  have hon := value.regular_toOperand.onward trivial hoperand
  have hopen := ((expr.regular_emitValue ctx).onward trivial hvalue).opens hc
  have hle := (expr.straight_emitValue ctx).nextReg_le hvalue
  obtain ⟨htyped, f₁, _, hruns₁, hext₁, hyields⟩ := expr.emitValue_runs hl he ht hr hvalue hc
    (List.Subset.trans hon.used hused) htr hv
  obtain ⟨f₂, hruns₂, hext₂, hvalueOf, hbelow⟩ :=
    Value.toOperand_runs hyields hty htyped rfl hopen hoperand
  exact ⟨htyped, f₂, hruns₁.append hruns₂, hext₁.trans hle hext₂, hvalueOf, hbelow⟩

theorem Expr.emitEffect_runs (hl : Linked m I ctx scope call) (he : env.KnownIn known)
    (ht : expr.HasType ctx.scopes scope ty) (hr : expr.Resolved env)
    (h : expr.emitEffect ctx c = .ok ((), lines, c')) (hc : c.terminated = false)
    (hused : c'.used ⊆ m.declares) (htr : Tracks I ctx.scopes known store f)
    (hv : expr.eval I call store w = some (v, w')) : v.type? = some ty ∧
      ∃ f', m.Runs I f w lines f' w' ∧ f.Extends c.nextReg f' := by
  obtain ⟨ir, _, _, _, hof, h₁, rfl⟩ := Emit.bind_eq_ok.mp h
  obtain ⟨hir, rfl, rfl⟩ := Emit.ofExcept_eq_ok.mp hof
  obtain ⟨value, first, c₁, rest, hvalue, h₂, rfl⟩ := Emit.bind_eq_ok.mp h₁
  rw [ht.irType, Except.ok.injEq] at hir
  subst hir
  have hopen := ((expr.regular_emitValue ctx).onward trivial hvalue).opens hc
  have hle := (expr.straight_emitValue ctx).nextReg_le hvalue
  have hused₁ : c₁.used ⊆ m.declares := by
    refine List.Subset.trans ?_ hused
    cases value with
    | operand o =>
      obtain ⟨-, -, rfl⟩ := Emit.pure_eq_ok.mp h₂
      exact List.Subset.refl _
    | pending computation =>
      dsimp only at h₂
      split at h₂
      · exact (still_emit _).uses _ _ _ _ h₂
      · exact (still_freshReg.bind fun _ => still_emit _).uses _ _ _ _ h₂
  obtain ⟨htyped, f₁, _, hruns, hext, hyields⟩ :=
    expr.emitValue_runs hl he ht hr hvalue hc hused₁ htr hv
  refine ⟨htyped, ?_⟩
  cases value with
  | operand o =>
    obtain ⟨-, rfl, rfl⟩ := Emit.pure_eq_ok.mp h₂
    obtain ⟨-, -, rfl⟩ := hyields
    exact ⟨f₁, hruns.append .nil, hext⟩
  | pending computation =>
    dsimp only at h₂
    split at h₂
    · rename_i hvoid
      rw [emit_open hopen] at h₂
      cases h₂
      exact ⟨f₁, hruns.append fun code => hyields.2 hvoid code, hext⟩
    · rename_i hvoid
      obtain ⟨_, h₃, rfl⟩ := Emit.bind_eq_ok_of_apply (freshReg_apply c₁) h₂
      have hopen' : (c₁.skipRegs 1).terminated = false := hopen
      rw [emit_open hopen'] at h₃
      cases h₃
      exact ⟨f₁.assign (.reg c₁.nextReg) v, hruns.append fun code => hyields.1 hvoid _ code,
        hext.trans hle (.assign v (Nat.le_refl _))⟩

/-- Apart from cells, the frame is as it was before a statement that has the given loops. -/
structure Frame.Follows (n : Nat) (loops : List ValueName) (f f' : Frame) : Prop where
  routine : f'.routine = f.routine
  regs : ∀ v : ValueName, v.Below n → v ∉ loops → f'.regs v = f.regs v

theorem emitStore_runs (hl : Linked m I ctx scope call) (he : env.KnownIn known)
    (hdecl : ctx.scopes.decls[id]? = some var) (hk : var.kind = .localVar)
    (hm : .variable var.name id ∈ known) (ht : expr.HasType ctx.scopes scope var.ty)
    (hr : expr.Resolved env) (h : emitStore ctx var.name id expr c = .ok ((), lines, c'))
    (hc : c.terminated = false) (hused : c'.used ⊆ m.declares)
    (htr : Tracks I ctx.scopes known store f) (hv : expr.eval I call store w = some (v, w')) :
    ∃ f', m.Runs I f w lines f' w' ∧ f.Follows c.nextReg [] f' ∧ f'.block = f.block ∧
      Tracks I ctx.scopes known (Function.update store id (some v)) f' := by
  obtain ⟨ir, _, _, _, hof, h₁, rfl⟩ := Emit.bind_eq_ok.mp h
  obtain ⟨hir, rfl, rfl⟩ := Emit.ofExcept_eq_ok.mp hof
  obtain ⟨o, first, c₁, rest, hoperand, h₂, rfl⟩ := Emit.bind_eq_ok.mp h₁
  rw [ht.irType, Except.ok.injEq] at hir
  subst hir
  have hopen := ((expr.regular_emitOperand ctx).onward trivial hoperand).opens hc
  rw [emit_open hopen] at h₂
  cases h₂
  obtain ⟨var', hdecl', -, hmirror⟩ := htr var.name id hm
  rw [hdecl, Option.some.injEq] at hdecl'
  subst hdecl'
  obtain ⟨htyped, f₁, hruns, hext, hvalue, -⟩ :=
    Expr.emitOperand_runs hl he ht hr hmirror.notVoid hoperand hc hused htr hv
  have hold := (hmirror.extends hext).holds
  rw [Frame.holds, if_pos hk] at hold
  refine ⟨f₁.setCell (.variable var.name id) v, hruns.append fun code => ?_, ?_, hext.block,
    (htr.extends hext).setCell hdecl hk hmirror.notVoid htyped⟩
  · exact Module.goes_store hvalue hold (Val.irType_of_type hmirror.typed)
  · exact ⟨hext.routine, fun name hb _ => hext.regs name hb⟩

end

end ScriptLang
