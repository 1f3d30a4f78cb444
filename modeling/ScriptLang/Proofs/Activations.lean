import ScriptLang.Proofs.BlockStructure
import ScriptLang.Proofs.Machine

/-!
# Activations

An activation is followed through the steps of a machine by the callers that wait for it. Its frame
runs, or waits itself until a call returns; the steps of the calls it makes do not change it. What
one step can do is said once, and whatever holds along the activation follows from that.
-/

namespace ScriptLang

/-! ## What a step does -/

/-- What an instruction that goes on in its routine makes of a frame. -/
inductive Frame.After (i : Instr) (f : Frame) : Frame → Prop where
  | same : After i f f
  | assign {dest : ValueName} (h : i.dest? = some dest) (v : Val) : After i f (f.assign dest v)
  | setCell (cell : ValueName) (v : Val) : After i f (f.setCell cell v)
  | jump {l : Label} {code : List Line} (hl : l ∈ i.targets)
      (h : codeAt l f.routine.lines = some code) : After i f ((f.arrive l).before code)

theorem Frame.receive_eq_some {f f' : Frame} {dest : Option ValueName} {result : Option Val}
    (h : f.receive dest result = some f') :
    f' = f ∨ ∃ name v, dest = some name ∧ f' = f.assign name v := by
  cases dest with
  | none => exact Or.inl (Option.some.inj h).symm
  | some name =>
    cases result with
    | none => cases h
    | some v => exact Or.inr ⟨name, v, rfl, (Option.some.inj h).symm⟩

section

variable {World : Type} {m : Module} {I : Interpretation World}

/-- A step of a running machine: its frame goes on, or calls a routine, or returns to a frame that
waits. -/
inductive Machine.Next (before after : Machine World) : Prop where
  | own (i : Instr) (code : List Line) (hcode : before.frame.code = .instr i :: code)
      (hcallers : after.callers = before.callers)
      (hafter : (before.frame.before code).After i after.frame)
  | call (i : Instr) (code : List Line) (hcode : before.frame.code = .instr i :: code)
      (hcallers : after.callers = (i.dest?, before.frame.before code) :: before.callers)
  | ret (dest : Option ValueName) (f : Frame) (result : Option Val)
      (hcallers : before.callers = (dest, f) :: after.callers)
      (hreceive : f.receive dest result = some after.frame)

theorem returnTo_eq_running {callers : List (Option ValueName × Frame)} {result : Option Val}
    {w : World} {after : Machine World} (h : returnTo result w callers = some (.running after)) :
    ∃ dest f, callers = (dest, f) :: after.callers ∧ f.receive dest result = some after.frame := by
  cases callers with
  | nil => cases h
  | cons caller callers =>
    obtain ⟨dest, f⟩ := caller
    obtain ⟨f', hf, h⟩ := Option.bind_eq_some_iff.mp h
    cases h
    exact ⟨dest, f, rfl, hf⟩

theorem Module.enter_eq_running {ret : IrType} {callee : Callee} {args : List Val}
    {dest : Option ValueName} {f : Frame} {callers : List (Option ValueName × Frame)} {w : World}
    {after : Machine World}
    (h : m.enter I ret callee args ((dest, f) :: callers) w = some (.running after)) :
    after.callers = (dest, f) :: callers ∨
      after.callers = callers ∧ ∃ result, f.receive dest result = some after.frame := by
  unfold Module.enter at h
  split at h
  · obtain ⟨f', -, h⟩ := Option.bind_eq_some_iff.mp h
    split at h
    · cases h
      exact Or.inl rfl
    · cases h
  · obtain ⟨⟨v, w'⟩, -, h⟩ := Option.bind_eq_some_iff.mp h
    dsimp only at h
    split at h
    · obtain ⟨_, _, hcallers, hf⟩ := returnTo_eq_running h
      cases hcallers
      exact Or.inr ⟨rfl, _, hf⟩
    · cases h
  · cases h

theorem Module.step_next {before after : Machine World}
    (h : m.step I before = some (.running after)) : before.Next after := by
  obtain ⟨f, callers, w⟩ := before
  unfold Module.step at h
  split at h
  case h_2 => cases h
  rename_i i code hcode
  have hcall {dest : Option ValueName} {ret : IrType} {callee : Callee} {args : List Val}
      (hd : i.dest? = dest)
      (he : m.enter I ret callee args ((dest, f.before code) :: callers) w =
        some (.running after)) :
      Machine.Next ⟨f, callers, w⟩ after := by
    subst hd
    rcases m.enter_eq_running he with hc | ⟨hc, result, hf⟩
    · exact .call i code hcode hc
    · refine .own i code hcode hc ?_
      rcases Frame.receive_eq_some hf with he | ⟨name, v, hd, he⟩
      · rw [he]
        exact .same
      · rw [he]
        exact .assign hd v
  have hown {f' : Frame} {w' : World} (hf : (f.before code).After i f')
      (he : after = ⟨f', callers, w'⟩) : Machine.Next ⟨f, callers, w⟩ after := by
    subst he
    exact .own i code hcode rfl hf
  unfold Module.perform at h
  split at h
  · obtain ⟨args, -, h⟩ := Option.bind_eq_some_iff.mp h
    exact hcall rfl h
  · obtain ⟨args, -, h⟩ := Option.bind_eq_some_iff.mp h
    exact hcall rfl h
  · obtain ⟨v, -, h⟩ := Option.bind_eq_some_iff.mp h
    cases h
    exact hown (.setCell _ v) rfl
  · obtain ⟨⟨v, w'⟩, -, h⟩ := Option.bind_eq_some_iff.mp h
    cases h
    exact hown (.assign rfl v) rfl
  · cases h
  · obtain ⟨v, -, h⟩ := Option.bind_eq_some_iff.mp h
    obtain ⟨old, -, h⟩ := Option.bind_eq_some_iff.mp h
    split at h
    · cases h
      exact hown (.setCell _ v) rfl
    · cases h
  · obtain ⟨f', hf, h⟩ := Option.bind_eq_some_iff.mp h
    cases h
    obtain ⟨next, hnext, hf⟩ := Option.bind_eq_some_iff.mp hf
    cases hf
    exact hown (.jump List.mem_cons_self hnext) rfl
  · split at h
    · obtain ⟨f', hf, h⟩ := Option.bind_eq_some_iff.mp h
      cases h
      obtain ⟨next, hnext, hf⟩ := Option.bind_eq_some_iff.mp hf
      cases hf
      exact hown (.jump (by split <;> simp [Instr.targets]) hnext) rfl
    · cases h
  · split at h
    · obtain ⟨dest, g, hcallers, hf⟩ := returnTo_eq_running h
      exact .ret dest g _ hcallers hf
    · cases h
  · obtain ⟨v, -, h⟩ := Option.bind_eq_some_iff.mp h
    split at h
    · obtain ⟨dest, g, hcallers, hf⟩ := returnTo_eq_running h
      exact .ret dest g _ hcallers hf
    · cases h

/-! ## Following an activation -/

/-- The activation that the callers wait for has not returned and, if it is its frame that runs, is
in none of the given blocks. -/
structure Machine.Stays (callers : List (Option ValueName × Frame)) (avoid : List Label)
    (machine : Machine World) : Prop where
  suffix : callers <:+ machine.callers
  block : machine.callers = callers → machine.frame.block ∉ avoid

variable (m I) in
/-- Steps along which the activation goes on outside the given blocks. -/
def Module.Moves (callers : List (Option ValueName × Frame)) (avoid : List Label) :
    Machine World → Machine World → Prop :=
  Relation.ReflTransGen fun before after =>
    m.step I before = some (.running after) ∧ after.Stays callers avoid

/-- The frame of the activation has a property, whether it runs or waits for a call. What it waits
for goes to a value of the given ones. -/
inductive Machine.Active (callers : List (Option ValueName × Frame)) (has : Frame → Prop)
    (awaits : ValueName → Prop) (machine : Machine World) : Prop where
  | runs (hcallers : machine.callers = callers) (hf : has machine.frame)
  | waits (upper : List (Option ValueName × Frame)) (dest : Option ValueName) (f : Frame)
      (hcallers : machine.callers = upper ++ (dest, f) :: callers) (hf : has f)
      (hd : ∀ name, dest = some name → awaits name)

variable {callers : List (Option ValueName × Frame)} {has : Frame → Prop}
  {awaits : ValueName → Prop} {before after : Machine World}

theorem Module.Moves.stays {avoid : List Label} (h : m.Moves I callers avoid before after)
    (hbefore : before.Stays callers avoid) : after.Stays callers avoid := by
  cases h with
  | refl => exact hbefore
  | tail _ hstep => exact hstep.2

theorem Machine.Active.frame (h : after.Active callers has awaits) (hc : after.callers = callers) :
    has after.frame := by
  cases h with
  | runs _ hf => exact hf
  | waits upper dest f hcallers _ _ =>
    have hlength := congrArg List.length (hcallers.symm.trans hc)
    simp only [List.length_append, List.length_cons] at hlength
    omega

/-- What a step preserves in the frame of an activation that does not return. Steps of calls leave
it alone, so only its own instructions and what it receives matter. -/
theorem Machine.Active.next (h : before.Active callers has awaits) (hn : before.Next after)
    (hc : callers <:+ after.callers)
    (hreceive : ∀ f name v, has f → awaits name → has (f.assign name v))
    (hown : before.callers = callers → has before.frame →
      ∀ i code, before.frame.code = .instr i :: code →
        has (before.frame.before code) ∧ (∀ name, i.dest? = some name → awaits name) ∧
          (after.callers = callers → (before.frame.before code).After i after.frame →
            has after.frame)) :
    after.Active callers has awaits := by
  cases h with
  | runs hcallers hf =>
    cases hn with
    | own i code hcode hsame hafter =>
      obtain ⟨-, -, hhas⟩ := hown hcallers hf i code hcode
      exact .runs (hsame.trans hcallers) (hhas (hsame.trans hcallers) hafter)
    | call i code hcode hmore =>
      obtain ⟨hhas, hawaits, -⟩ := hown hcallers hf i code hcode
      exact .waits [] _ _ (by rw [hmore, hcallers]; rfl) hhas hawaits
    | ret dest f result hless _ =>
      -- The activation itself would have returned.
      have hlength := hc.length_le
      rw [← hcallers, hless, List.length_cons] at hlength
      omega
  | waits upper dest f hcallers hf hd =>
    cases hn with
    | own i code hcode hsame hafter => exact .waits upper dest f (hsame.trans hcallers) hf hd
    | call i code hcode hmore =>
      exact .waits (_ :: upper) dest f (by rw [hmore, hcallers]; rfl) hf hd
    | ret dest' f' result hless hf' =>
      rw [hcallers] at hless
      cases upper with
      | nil =>
        obtain ⟨he, hrest⟩ := List.cons.inj hless
        obtain ⟨rfl, rfl⟩ := Prod.mk.inj he
        refine .runs hrest.symm ?_
        rcases Frame.receive_eq_some hf' with he | ⟨name, v, hname, he⟩
        · rw [he]
          exact hf
        · rw [he]
          exact hreceive _ _ _ hf (hd name hname)
      | cons top upper =>
        obtain ⟨-, hrest⟩ := List.cons.inj hless
        exact .waits upper dest f hrest.symm hf hd

/-! ## Steps of the running frame -/

/-- The frame of the activation runs in the given block of its routine. -/
structure Machine.At (routine : Routine) (callers : List (Option ValueName × Frame)) (l : Label)
    (machine : Machine World) : Prop where
  stack : machine.callers = callers
  routine : machine.frame.routine = routine
  block : machine.frame.block = l

namespace Module

variable {machine : Machine World} {routine : Routine} {l : Label} {v : Val}
  {code next : List Line}

theorem step_instr {i : Instr} (h : machine.frame.code = .instr i :: code) :
    m.step I machine =
      m.perform I (machine.frame.before code) machine.callers machine.world i := by
  unfold Module.step
  simp only [h]

theorem step_assign {dest : ValueName} {computation : Computation}
    (hat : machine.At routine callers l)
    (h : machine.frame.code = .instr (.assign dest computation) :: code)
    (hv : machine.frame.compute I computation machine.world = some (v, machine.world)) :
    ∃ after, m.step I machine = some (.running after) ∧ after.At routine callers l ∧
      after.frame.code = code ∧
      after.frame.regs = Function.update machine.frame.regs dest (some v) :=
  ⟨_, (step_instr h).trans (perform_assign machine.callers hv), ⟨hat.stack, hat.routine, hat.block⟩,
    rfl, rfl⟩

theorem step_br {target : Label} (hat : machine.At routine callers l)
    (h : machine.frame.code = .instr (.br target) :: code)
    (hl : codeAt target routine.lines = some next) :
    ∃ after, m.step I machine = some (.running after) ∧ after.At routine callers target ∧
      after.frame.code = next ∧ after.frame.origin = some l ∧
      after.frame.regs = machine.frame.regs := by
  refine ⟨_, (step_instr h).trans (perform_br machine.callers (hat.routine ▸ hl)),
    ⟨hat.stack, hat.routine, rfl⟩, rfl, ?_, rfl⟩
  rw [← hat.block]
  rfl

theorem step_condBr {cond : Operand} {thenTo elseTo : Label} {b : Bool}
    (hat : machine.At routine callers l)
    (h : machine.frame.code = .instr (.condBr cond thenTo elseTo) :: code)
    (hb : machine.frame.operand .i1 cond = some (.bool b))
    (hl : codeAt (if b then thenTo else elseTo) routine.lines = some next) :
    ∃ after, m.step I machine = some (.running after) ∧
      after.At routine callers (if b then thenTo else elseTo) ∧ after.frame.code = next ∧
      after.frame.regs = machine.frame.regs :=
  ⟨_, (step_instr h).trans (perform_condBr machine.callers hb (hat.routine ▸ hl)),
    ⟨hat.stack, hat.routine, rfl⟩, rfl, rfl⟩

end Module

end

end ScriptLang
