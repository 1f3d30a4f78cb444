import ScriptLang.Proofs.Execution
import ScriptLang.Proofs.SingleAssignment

/-!
# Running the code of statements

The code of a statement does what running the statement does. Control goes on after the code, at the
end of the loop around it, or leaves the routine, just as the statement ends; the frame holds what
the store does all the way.
-/

namespace ScriptLang

open Emit

variable {b : Bool} {block l : Label} {lines next rest : List Line} {counter : ValueName}

/-! ## Labels -/

theorem codeAt_of_suffix {code : List Line} (hn : (labelsOf lines).Nodup)
    (hs : .label l :: code <:+ lines) : codeAt l lines = some code := by
  obtain ⟨before, rfl⟩ := hs
  induction before with
  | nil => exact if_pos rfl
  | cons line before ih =>
    cases line with
    | label l' =>
      rw [List.cons_append, labelsOf_label] at hn
      obtain ⟨hnot, hn⟩ := List.nodup_cons.mp hn
      have hne : l' ≠ l := by
        rintro rfl
        exact hnot (by simp)
      rw [List.cons_append, codeAt, if_neg hne]
      exact ih hn
    | instr i =>
      rw [List.cons_append, labelsOf_instr] at hn
      exact ih hn

theorem suffix_of_append {first : List Line} (h : first ++ rest <:+ lines) : rest <:+ lines :=
  (List.suffix_append first rest).trans h

theorem suffix_of_cons {line : Line} (h : line :: rest <:+ lines) : rest <:+ lines :=
  (List.suffix_cons line rest).trans h

/-! ## Frames along statements -/

namespace RoutineKind

/-- What the `define` line says. -/
def ret : RoutineKind → IrType
  | .function ret => ret
  | .script => .i32

/-- What a routine gives for a `return` of the given value. -/
def result : RoutineKind → Val → Option Val
  | .function ret, v => v.result ret
  | .script, .int n => some (.status (statusOf n))
  | .script, _ => none

/-- The type of what is returned. -/
def Fits : RoutineKind → Ty → Prop
  | .function ret, ty => ty.ir = ret
  | .script, ty => ty = .int

end RoutineKind

namespace Frame.Follows

variable {n n' : Nat} {loops loops' : List ValueName} {f f₁ f' : Frame}

theorem refl : f.Follows n loops f :=
  ⟨rfl, fun _ _ _ => rfl⟩

theorem trans (h₁ : f.Follows n loops f₁) (hn : n ≤ n') (h₂ : f₁.Follows n' loops f') :
    f.Follows n loops f' where
  routine := h₂.routine.trans h₁.routine
  regs v hv hl := (h₂.regs v (hv.mono hn) hl).trans (h₁.regs v hv hl)

theorem mono (h : f.Follows n' loops f') (hn : n ≤ n') (hs : loops ⊆ loops') :
    f.Follows n loops' f' :=
  ⟨h.routine, fun v hv hl => h.regs v (hv.mono hn) fun hm => hl (hs hm)⟩

theorem arrive (h : f.Follows n loops f') (l : Label) : f.Follows n loops (f'.arrive l) :=
  ⟨h.routine, h.regs⟩

theorem assign (h : f.Follows n loops f') {dest : ValueName} (v : Val)
    (hd : dest ∈ loops ∨ ¬ dest.Below n) : f.Follows n loops (f'.assign dest v) := by
  refine ⟨h.routine, fun name hb hm => ?_⟩
  have hne : name ≠ dest := by
    rintro rfl
    exact hd.elim hm fun hn => hn hb
  exact (Function.update_of_ne hne _ _).trans (h.regs name hb hm)

end Frame.Follows

theorem Frame.Extends.follows {n : Nat} {loops : List ValueName} {f f' : Frame}
    (h : f.Extends n f') : f.Follows n loops f' :=
  ⟨h.routine, fun v hv _ => h.regs v hv⟩

/-- What is known are variables, but not those of loops to come, and these are all different. -/
structure Apart (known : List ValueName) (sites : List Site) : Prop where
  named : ∀ v ∈ known, v.number? = none
  known : ∀ v ∈ known, v ∉ counters sites
  nodup : (counters sites).Nodup

theorem Apart.append {known : List ValueName} {sites more : List Site}
    (h : Apart known (sites ++ more)) : Apart known sites ∧ Apart known more := by
  obtain ⟨hv, hk, hn⟩ := h
  rw [counters_append] at hn
  simp only [counters_append, List.mem_append, not_or] at hk
  exact ⟨⟨hv, fun v hm => (hk v hm).1, hn.of_append_left⟩,
    ⟨hv, fun v hm => (hk v hm).2, hn.of_append_right⟩⟩

theorem number_of_mem_counters {sites : List Site} {v : ValueName} (h : v ∈ counters sites) :
    v.number? = none := by
  obtain ⟨site, -, hv⟩ := List.mem_filterMap.mp h
  exact Site.number_value hv

theorem Frame.Follows.operand {n : Nat} {known loops : List ValueName} {f f' : Frame}
    (h : f.Follows n loops f') (hl : ∀ v ∈ loops, v.number? = none) (ha : ∀ v ∈ known, v ∉ loops)
    {o : Operand} (ho : o.Within known n) (ty : IrType) : f'.operand ty o = f.operand ty o := by
  refine Frame.operand_congr (fun v hv => ?_) ty
  obtain ⟨hb, hk⟩ := ho v hv
  exact h.regs v hb fun hm => ha v (hk (hl v hm)) hm

section

variable {World : Type} (m : Module) (I : Interpretation World) (ctx : BodyContext)
  (scope : ScopeId) (call : Calls World) (r : Routine) (ret : Ty)

/-- The body of a routine, with all that it depends on. -/
structure Running : Prop extends Linked m I ctx scope call where
  returns : r.ret = ctx.kind.ret
  fits : ctx.kind.Fits ret
  distinct : (labelsOf r.lines).Nodup

/-- The frame is in a block of the routine and holds what the store does. -/
structure Frame.Stands (known : List ValueName) (store : Store) (block : Label) (f : Frame) :
    Prop where
  routine : f.routine = r
  block : f.block = block
  tracks : Tracks I ctx.scopes known store f

/-- Where a frame gets from some code when what the code was emitted for has run: after the code, to
the end of the loop around it, or out of the routine. -/
def Arrives (known : List ValueName) (n : Nat) (loops : List ValueName) (exit : Option Label)
    (f : Frame) (w : World) (code : List Line) (c' : Cursor) (post : List Line) :
    Course World → Prop
  | (.falls, store, w') => c'.terminated = false ∧
    ∃ f', m.Goes I (f.before code) w (f'.before post) w' ∧
      f'.Stands I ctx r known store c'.block ∧ f.Follows n loops f'
  | (.breaks, store, w') => ∃ l next f', exit = some l ∧ codeAt l r.lines = some next ∧
    m.Goes I (f.before code) w (f'.before next) w' ∧ f'.Stands I ctx r known store l ∧
      f.Follows n loops f'
  | (.returns v, _, w') =>
    v.type? = some ret ∧ m.Returns I (f.before code) w (ctx.kind.result v) w'

/-- The loop around a statement can be left. -/
def Exits (exit : Option Label) : Prop :=
  ∀ l, exit = some l → l.IsTarget ∧ ∃ next, codeAt l r.lines = some next

variable {m I ctx scope call r ret} {known more : List ValueName} {n n' : Nat}
  {loops : List ValueName} {exit : Option Label} {f f₁ : Frame} {w w₁ : World}
  {code code₁ post : List Line} {c c₁ c₂ c₃ c' : Cursor} {store : Store} {course : Course World}

theorem Frame.Stands.extends {block : Label} {f' : Frame} (h : f.Stands I ctx r known store block)
    (he : f.Extends n f') : f'.Stands I ctx r known store block :=
  ⟨he.routine.trans h.routine, he.block.trans h.block, h.tracks.extends he⟩

theorem Frame.Stands.arrive {block : Label} (h : f.Stands I ctx r known store block) (l : Label) :
    (f.arrive l).Stands I ctx r known store l := by
  refine ⟨h.routine, rfl, ?_⟩
  intro name id hm
  obtain ⟨var, hv, hn, hmirror⟩ := h.tracks name id hm
  exact ⟨var, hv, hn, hmirror.notVoid, hmirror.typed, hmirror.holds⟩

theorem Frame.Stands.mono {block : Label} (h : f.Stands I ctx r more store block)
    (hs : known ⊆ more) : f.Stands I ctx r known store block :=
  ⟨h.routine, h.block, h.tracks.mono hs⟩

theorem Arrives.after (hgo : m.Goes I (f.before code) w (f₁.before code₁) w₁)
    (hf : f.Follows n loops f₁) (hn : n ≤ n')
    (h : Arrives m I ctx r ret known n' loops exit f₁ w₁ code₁ c' post course) :
    Arrives m I ctx r ret known n loops exit f w code c' post course := by
  obtain ⟨ending, store, w'⟩ := course
  cases ending with
  | falls =>
    obtain ⟨hc, f', hgo', hstands, hf'⟩ := h
    exact ⟨hc, f', hgo.trans hgo', hstands, hf.trans hn hf'⟩
  | breaks =>
    obtain ⟨l, next, f', hl, hnext, hgo', hstands, hf'⟩ := h
    exact ⟨l, next, f', hl, hnext, hgo.trans hgo', hstands, hf.trans hn hf'⟩
  | returns v => exact ⟨h.1, hgo.returns h.2⟩

theorem Arrives.weaken {loops' : List ValueName}
    (h : Arrives m I ctx r ret known n' loops exit f w code c' post course) (hn : n ≤ n')
    (hl : loops ⊆ loops') : Arrives m I ctx r ret known n loops' exit f w code c' post course := by
  obtain ⟨ending, store, w'⟩ := course
  cases ending with
  | falls =>
    obtain ⟨hc, f', hgo, hstands, hf⟩ := h
    exact ⟨hc, f', hgo, hstands, hf.mono hn hl⟩
  | breaks =>
    obtain ⟨l, next, f', he, hnext, hgo, hstands, hf⟩ := h
    exact ⟨l, next, f', he, hnext, hgo, hstands, hf.mono hn hl⟩
  | returns v => exact h

theorem Module.goes_jump (hl : codeAt l r.lines = some next)
    (hs : f.Stands I ctx r known store block) :
    m.Goes I (f.before (.instr (.br l) :: code)) w ((f.arrive l).before next) w :=
  Module.goes_br (hs.routine ▸ hl)

theorem Arrives.leave (h : Arrives m I ctx r ret known n loops exit f w code c₁ code₁ course)
    (hne : course.1 ≠ .falls) :
    Arrives m I ctx r ret known n loops exit f w code c' post course := by
  obtain ⟨ending, store, w'⟩ := course
  cases ending with
  | falls => exact absurd rfl hne
  | breaks => exact h
  | returns v => exact h

theorem Arrives.join {l : Label} {rest : List Line}
    (h : Arrives m I ctx r ret known n loops exit f w code c₁ (c₁.jump l ++ rest) course)
    (hj : c₁.terminated = false →
      codeAt l r.lines = some post ∧ c'.terminated = false ∧ c'.block = l) :
    Arrives m I ctx r ret known n loops exit f w code c' post course := by
  obtain ⟨ending, store, w'⟩ := course
  cases ending with
  | falls =>
    obtain ⟨hc, f', hgo, hstands, hf⟩ := h
    obtain ⟨hl, hc', hb⟩ := hj hc
    rw [Cursor.jump, hc] at hgo
    exact ⟨hc', f'.arrive l, hgo.trans (Module.goes_jump hl hstands), hb ▸ hstands.arrive l,
      hf.arrive l⟩
  | breaks => exact h
  | returns v => exact h

/-! ## Sequences -/

theorem thenRun_eq_some {first : Option (Course World)}
    {next : Store → World → Option (Course World)} (h : thenRun first next = some course) :
    (∃ store w, first = some (.falls, store, w) ∧ next store w = some course) ∨
      (first = some course ∧ course.1 ≠ .falls) := by
  rcases first with _ | ⟨_ | _ | v, store, w⟩
  · cases h
  · exact Or.inl ⟨store, w, rfl, h⟩
  · cases h
    exact Or.inr ⟨rfl, by simp⟩
  · cases h
    exact Or.inr ⟨rfl, by simp⟩

theorem afterTurn_eq_some {turn : Option (Course World)}
    {again : Store → World → Option (Course World)} (h : afterTurn turn again = some course) :
    (∃ store w, turn = some (.falls, store, w) ∧ again store w = some course) ∨
      (∃ store w, turn = some (.breaks, store, w) ∧ course = (.falls, store, w)) ∨
      ∃ v store w, turn = some (.returns v, store, w) ∧ course = (.returns v, store, w) := by
  rcases turn with _ | ⟨_ | _ | v, store, w⟩
  · cases h
  · exact Or.inl ⟨store, w, rfl, h⟩
  · cases h
    exact Or.inr (Or.inl ⟨store, w, rfl, rfl⟩)
  · cases h
    exact Or.inr (Or.inr ⟨v, store, w, rfl, rfl⟩)

theorem Arrives.seq {first : Option (Course World)} {next : Store → World → Option (Course World)}
    (h : thenRun first next = some course) (hn : n ≤ n')
    (hfirst : ∀ course, first = some course →
      Arrives m I ctx r ret known n loops exit f w code c₁ code₁ course)
    (hnext : ∀ store w f, c₁.terminated = false → f.Stands I ctx r known store c₁.block →
      next store w = some course →
      Arrives m I ctx r ret known n' loops exit f w code₁ c' post course) :
    Arrives m I ctx r ret known n loops exit f w code c' post course := by
  rcases thenRun_eq_some h with ⟨store, w₁, hone, htwo⟩ | ⟨hone, hne⟩
  · obtain ⟨hc, f', hgo, hstands, hf⟩ := hfirst _ hone
    exact .after hgo hf hn (hnext store w₁ f' hc hstands htwo)
  · exact (hfirst _ hone).leave hne

/-! ## Ends of blocks -/

theorem Return.emit_function {ty : IrType} (back : Return) (hk : ctx.kind = .function ty)
    (hty : ty ≠ .void) : back.emit ctx = (do
      let operand ← back.value.emitOperand ctx
      terminate (.ret (some (ty, operand)))) := by
  unfold Return.emit
  rw [hk]
  cases ty with
  | void => exact absurd rfl hty
  | _ => rfl

theorem Return.emit_procedure (back : Return) (hk : ctx.kind = .function .void) :
    back.emit ctx = (do
      back.value.emitEffect ctx
      terminate (.ret none)) := by
  unfold Return.emit
  rw [hk]

theorem Return.emit_script (back : Return) (hk : ctx.kind = .script) :
    back.emit ctx = (do
      let operand ← back.value.emitOperand ctx
      let status ← freshReg
      Emit.emit (.assign status (.trunc operand))
      terminate (.ret (some (.i32, .value status)))) := by
  unfold Return.emit
  rw [hk]

theorem Return.emit_returns (hl : Running m I ctx scope call r ret) {env : Env}
    (he : env.KnownIn known) {back : Return} (ht : back.value.HasType ctx.scopes scope ret)
    (hr : back.value.Resolved env) {v : Val} {w' : World}
    (h : back.emit ctx c = .ok ((), lines, c')) (hc : c.terminated = false)
    (hused : c'.used ⊆ m.declares) (hs : f.Stands I ctx r known store block)
    (hv : back.value.eval I call store w = some (v, w')) : v.type? = some ret ∧
      m.Returns I (f.before (lines ++ post)) w (ctx.kind.result v) w' := by
  have hfits := hl.fits
  have hret : f.routine.ret = ctx.kind.ret := hs.routine ▸ hl.returns
  cases hkind : ctx.kind with
  | script =>
    rw [hkind] at hfits hret
    cases hfits
    rw [back.emit_script hkind] at h
    obtain ⟨o, first, c₁, _, hoperand, h₁, rfl⟩ := Emit.bind_eq_ok.mp h
    have hopen := ((back.value.regular_emitOperand ctx).onward trivial hoperand).opens hc
    obtain ⟨_, h₂, rfl⟩ := Emit.bind_eq_ok_of_apply (freshReg_apply c₁) h₁
    have hopen' : (c₁.skipRegs 1).terminated = false := hopen
    obtain ⟨_, h₃, rfl⟩ := Emit.bind_eq_ok_of_apply (emit_open hopen' _) h₂
    rw [terminate_open hopen'] at h₃
    cases h₃
    obtain ⟨htyped, f₁, hruns, hext, hvalue, -⟩ :=
      Expr.emitOperand_runs hl.toLinked he ht hr (by decide) hoperand hc hused hs.tracks hv
    refine ⟨htyped, ?_⟩
    obtain ⟨k, rfl⟩ := Val.eq_int htyped
    have hint : f₁.operand .i64 o = some (.int k) := hvalue
    have htrunc : f₁.compute I (.trunc o) w' = some (.status (statusOf k), w') := by
      simp only [Frame.compute, hint]
    rw [List.append_assoc]
    refine (hruns _).returns ((Module.goes_assign htrunc).returns ?_)
    exact Module.returns_value (Frame.operand_assign rfl) (hext.routine ▸ hret)
  | function ty =>
    rw [hkind] at hfits hret
    obtain rfl : ret.ir = ty := hfits
    by_cases hvoid : ret.ir = .void
    · rw [back.emit_procedure (hvoid ▸ hkind)] at h
      obtain ⟨_, first, c₁, _, heffect, h₁, rfl⟩ := Emit.bind_eq_ok.mp h
      have hopen := ((back.value.regular_emitEffect ctx).onward trivial heffect).opens hc
      rw [terminate_open hopen] at h₁
      cases h₁
      obtain ⟨htyped, f₁, hruns, hext⟩ :=
        Expr.emitEffect_runs hl.toLinked he ht hr heffect hc hused hs.tracks hv
      have hnone : RoutineKind.result (.function ret.ir) v = none := if_pos hvoid
      rw [hnone, List.append_assoc]
      refine ⟨htyped, (hruns _).returns (Module.returns_void ?_)⟩
      rw [hext.routine, hret]
      exact hvoid
    · rw [back.emit_function hkind hvoid] at h
      obtain ⟨o, first, c₁, _, hoperand, h₁, rfl⟩ := Emit.bind_eq_ok.mp h
      have hopen := ((back.value.regular_emitOperand ctx).onward trivial hoperand).opens hc
      rw [terminate_open hopen] at h₁
      cases h₁
      obtain ⟨htyped, f₁, hruns, hext, hvalue, -⟩ :=
        Expr.emitOperand_runs hl.toLinked he ht hr hvoid hoperand hc hused hs.tracks hv
      have hsome : RoutineKind.result (.function ret.ir) v = some v := if_neg hvoid
      rw [hsome, List.append_assoc]
      refine ⟨htyped, (hruns _).returns (Module.returns_value hvalue ?_)⟩
      rw [hext.routine]
      exact hret

theorem emitEnd_arrives (hl : Running m I ctx scope call r ret) {env : Env}
    (he : env.KnownIn known) {result : Option Return} {brk : Option Break}
    (ht : ∀ back, result = some back → back.value.HasType ctx.scopes scope ret)
    (hr : ∀ back, result = some back → back.value.Resolved env) {mid last : List Line}
    (hret : emitReturn? ctx result c = .ok ((), mid, c₁))
    (hbrk : emitBreak? exit brk c₁ = .ok ((), last, c')) (hexit : Exits r exit)
    (hc : c.terminated = false) (hused : c'.used ⊆ m.declares)
    (hs : f.Stands I ctx r known store c.block)
    (hrun : runEnd I call result brk store w = some course) :
    Arrives m I ctx r ret known n loops exit f w (mid ++ (last ++ post)) c' post course := by
  cases result with
  | some back =>
    simp only [runEnd, Option.bind_eq_bind, Option.bind_eq_some_iff, Prod.exists, Option.pure_def,
      Option.some.injEq] at hrun
    obtain ⟨v, w', hv, rfl⟩ := hrun
    have hused₁ := List.Subset.trans ((regular_emitBreak? _ _).uses _ _ _ _ hbrk) hused
    exact Return.emit_returns hl he (ht back rfl) (hr back rfl) hret hc hused₁ hs hv
  | none =>
    cases hret
    cases brk with
    | some brk =>
      cases hrun
      cases exit with
      | none => cases hbrk
      | some l =>
        change terminate (.br l) c = _ at hbrk
        rw [terminate_open hc] at hbrk
        cases hbrk
        obtain ⟨-, next, hnext⟩ := hexit l rfl
        exact ⟨l, next, f.arrive l, rfl, hnext, Module.goes_jump hnext hs, hs.arrive l,
          .arrive .refl l⟩
    | none =>
      cases hrun
      cases hbrk
      exact ⟨hc, f, .refl, hs, .refl⟩

/-! ## Branches and loops -/

variable {id : Nat} {operand : Operand} {condLines thenLines elseLines bodyLines : List Line}
  {rest rest' : List Line}

theorem Module.goes_choice {thenTo elseTo : Label} (hs : f.Stands I ctx r known store block)
    (hb : f.operand .i1 operand = some (.bool b))
    (hl : codeAt (if b then thenTo else elseTo) r.lines = some next) :
    m.Goes I (f.before (.instr (.condBr operand thenTo elseTo) :: code)) w
      ((f.arrive (if b then thenTo else elseTo)).before next) w :=
  Module.goes_condBr hb (hs.routine ▸ hl)

theorem arrives_arms {b : Bool} {block : Label} (hs : f.Stands I ctx r known store block)
    (hruns : m.Runs I f w condLines f₁ w₁) (hext : f.Extends n f₁)
    (hb : f₁.operand .i1 operand = some (.bool b))
    (hthenAt : codeAt (.thenArm id) r.lines = some (thenLines ++ (c₂.jump (.cont id) ++ rest)))
    (helseAt : codeAt (.elseArm id) r.lines = some (elseLines ++ (c₃.jump (.cont id) ++ rest')))
    (hcontAt : c₂.terminated = false ∨ c₃.terminated = false →
      codeAt (.cont id) r.lines = some post ∧ c'.terminated = false ∧ c'.block = .cont id)
    (hthen : ∀ f, b = true → f.Stands I ctx r known store (.thenArm id) →
      Arrives m I ctx r ret known n loops exit f w₁ (thenLines ++ (c₂.jump (.cont id) ++ rest)) c₂
        (c₂.jump (.cont id) ++ rest) course)
    (helse : ∀ f, b = false → f.Stands I ctx r known store (.elseArm id) →
      Arrives m I ctx r ret known n loops exit f w₁ (elseLines ++ (c₃.jump (.cont id) ++ rest')) c₃
        (c₃.jump (.cont id) ++ rest') course) :
    Arrives m I ctx r ret known n loops exit f w
      (condLines ++ (.instr (.condBr operand (.thenArm id) (.elseArm id)) :: code)) c' post
        course := by
  have hs₁ := hs.extends hext
  cases b with
  | true =>
    refine .after ((hruns _).trans (Module.goes_choice hs₁ hb hthenAt)) (hext.follows.arrive _)
      (Nat.le_refl n) ?_
    exact (hthen _ rfl (hs₁.arrive _)).join fun hc => hcontAt (Or.inl hc)
  | false =>
    refine .after ((hruns _).trans (Module.goes_choice hs₁ hb helseAt)) (hext.follows.arrive _)
      (Nat.le_refl n) ?_
    exact (helse _ rfl (hs₁.arrive _)).join fun hc => hcontAt (Or.inr hc)

/-- From the head of a loop, by induction on the turns that are left. -/
theorem arrives_while {test : Store → World → Option (Val × World)}
    {turn : Store → World → Option (Course World)} (hn : n ≤ n')
    (htest : ∀ store w v w' f, f.Stands I ctx r known store (.head id) →
      test store w = some (v, w') → v.type? = some .bool ∧
        ∃ f', m.Runs I f w condLines f' w' ∧ f.Extends n f' ∧ f'.operand .i1 operand = some v)
    (hturn : ∀ store w f course, f.Stands I ctx r known store (.body id) →
      turn store w = some course →
      Arrives m I ctx r ret known n' loops (some (.cont id)) f w
        (bodyLines ++ (c₂.jump (.head id) ++ rest)) c₂ (c₂.jump (.head id) ++ rest) course)
    (hheadAt : codeAt (.head id) r.lines = some
      (condLines ++ (.instr (.condBr operand (.body id) (.cont id)) :: code)))
    (hbodyAt : codeAt (.body id) r.lines = some (bodyLines ++ (c₂.jump (.head id) ++ rest)))
    (hcontAt : codeAt (.cont id) r.lines = some post)
    (hc' : c'.terminated = false ∧ c'.block = .cont id) :
    ∀ (fuel : Nat) {store : Store} {w : World} {f : Frame} {course : Course World},
    f.Stands I ctx r known store (.head id) → loopWhile test turn fuel store w = some course →
    Arrives m I ctx r ret known n loops exit f w
      (condLines ++ (.instr (.condBr operand (.body id) (.cont id)) :: code)) c' post course := by
  intro fuel
  induction fuel with
  | zero =>
    intro store w f course _ hloop
    cases hloop
  | succ fuel ih =>
    intro store w f course hs hloop
    unfold loopWhile at hloop
    cases hv : test store w with
    | none =>
      rw [hv] at hloop
      cases hloop
    | some pair =>
      obtain ⟨v, w₁⟩ := pair
      obtain ⟨htyped, f₁, hruns, hext, hoperand⟩ := htest store w v w₁ f hs hv
      obtain ⟨b, rfl⟩ := Val.eq_bool htyped
      rw [hv] at hloop
      have hs₁ := hs.extends hext
      have hfollows (l : Label) : f.Follows n loops (f₁.arrive l) := hext.follows.arrive l
      cases b with
      | false =>
        cases hloop
        refine ⟨hc'.1, f₁.arrive (.cont id), ?_, hc'.2 ▸ hs₁.arrive _, hfollows _⟩
        exact (hruns _).trans (Module.goes_choice hs₁ hoperand hcontAt)
      | true =>
        have hgo : m.Goes I
            (f.before (condLines ++ (.instr (.condBr operand (.body id) (.cont id)) :: code))) w
            ((f₁.arrive (.body id)).before (bodyLines ++ (c₂.jump (.head id) ++ rest))) w₁ :=
          (hruns _).trans (Module.goes_choice hs₁ hoperand hbodyAt)
        -- A turn goes on to the next one, breaks out of the loop or returns.
        rcases afterTurn_eq_some hloop with ⟨store₂, w₂, hone, hmore⟩ | ⟨store₂, w₂, hone, rfl⟩ |
          ⟨v, store₂, w₂, hone, rfl⟩
        · obtain ⟨hopen, f₂, hgo₂, hs₂, hf₂⟩ := hturn _ _ _ _ (hs₁.arrive _) hone
          have hback := hgo.trans hgo₂
          rw [Cursor.jump, hopen] at hback
          have hf : f.Follows n loops (f₂.arrive (.head id)) :=
            ((hfollows _).trans hn hf₂).arrive _
          exact .after (hback.trans (Module.goes_jump hheadAt hs₂)) hf (Nat.le_refl n)
            (ih (hs₂.arrive _) hmore)
        · obtain ⟨_, next, f₂, ⟨⟩, hnext, hgo₂, hs₂, hf₂⟩ := hturn _ _ _ _ (hs₁.arrive _) hone
          rw [hcontAt] at hnext
          cases hnext
          exact ⟨hc'.1, f₂, hgo.trans hgo₂, hc'.2 ▸ hs₂, (hfollows _).trans hn hf₂⟩
        · obtain ⟨htyped, hreturns⟩ := hturn _ _ _ _ (hs₁.arrive _) hone
          exact ⟨htyped, hgo.returns hreturns⟩

/-! ## Counting loops -/

theorem ValueName.not_below_reg {k : Nat} (h : n ≤ k) : ¬ (ValueName.reg k).Below n :=
  fun hb => absurd (hb k rfl) (Nat.not_lt.mpr h)

theorem Frame.Stands.assign {block : Label} {dest : ValueName} (v : Val)
    (h : f.Stands I ctx r known store block) (hd : dest ∉ known) :
    (f.assign dest v).Stands I ctx r known store block := by
  refine ⟨h.routine, h.block, fun name id hm => ?_⟩
  obtain ⟨var, hv, rfl, hmirror⟩ := h.tracks name id hm
  refine ⟨var, hv, rfl, hmirror.notVoid, hmirror.typed, ?_⟩
  have hreg : (f.assign dest v).regs (.variable var.name id) = f.regs (.variable var.name id) := by
    refine Function.update_of_ne ?_ _ _
    rintro rfl
    exact hd hm
  rw [← hmirror.holds, Frame.holds, Frame.holds, hreg]
  rfl

variable {decl : DeclId} {var : VarDecl} {i hi : Int64} {start limit : Operand} {pred : Label}
  {sites : List Site}

theorem Frame.Stands.count (h : f.Stands I ctx r known store block)
    (hc : counter = .variable var.name decl) (hv : ctx.scopes.decls[decl]? = some var)
    (hk : var.kind = .loopVar) (ht : var.ty = .int) (hreg : f.regs counter = some (.int i)) :
    f.Stands I ctx r (counter :: known) (Function.update store decl (some (.int i))) block := by
  subst hc
  have hmirror : f.Mirrors I (Function.update store decl (some (.int i))) decl var := by
    refine ⟨?_, ?_, ?_⟩
    · rw [ht]
      decide
    · rw [Store.read_update, ht]
      rfl
    · rw [Store.read_update, Frame.holds, if_neg (by rw [hk]; decide)]
      exact hreg
  refine ⟨h.routine, h.block, fun name id hm => ?_⟩
  rcases List.mem_cons.mp hm with he | hm
  · obtain ⟨rfl, rfl⟩ := ValueName.variable.inj he
    exact ⟨var, hv, rfl, hmirror⟩
  · exact h.tracks.update hv hmirror (fun _ _ _ _ => rfl) name id hm

/-- The lines at the head of a counting loop, after its label. -/
def headCode (id n : Nat) (counter : ValueName) (incoming : List (Operand × Label))
    (limit : Operand) (code : List Line) : List Line :=
  .instr (.assign counter (.phi incoming)) ::
    .instr (.assign (.reg (n + 1)) (.binary (.icmp .sle) .i64 (.value counter) limit)) ::
      .instr (.condBr (.value (.reg (n + 1))) (.body id) (.cont id)) :: code

theorem compute_test (hcounter : f.operand .i64 (.value counter) = some (.int i))
    (hlimit : f.operand .i64 limit = some (.int hi)) :
    f.compute I (.binary (.icmp .sle) .i64 (.value counter) limit) w =
      some (.bool (decide (i ≤ hi)), w) := by
  simp only [Frame.compute, Opcode.meaning, IntPredicate.symbol, Frame.operands, hcounter, hlimit,
    Option.bind_eq_bind, Option.bind_some, Option.pure_def]
  exact I.compares i hi w

theorem compute_count (hreg : f.regs counter = some (.int i)) :
    f.compute I (.binary .add .i64 (.const (.int 1)) (.value counter)) w =
      some (.int (i + 1), w) := by
  have hcounter : f.operand .i64 (.value counter) = some (.int i) := by
    simp only [Frame.operand, hreg]
    rfl
  have hone : f.operand .i64 (.const (.int 1)) = some (.int 1) := rfl
  simp only [Frame.compute, Opcode.meaning, Frame.operands, hone, hcounter, Option.bind_eq_bind,
    Option.bind_some, Option.pure_def]
  exact I.counts i w

theorem goes_headCode {incoming : List (Operand × Label)} (hs : f.Stands I ctx r known store block)
    (hphi : f.compute I (.phi incoming) w = some (.int i, w))
    (hlimit : (f.assign counter (.int i)).operand .i64 limit = some (.int hi))
    (hb : decide (i ≤ hi) = b)
    (hat : codeAt (if b then .body id else .cont id) r.lines = some next) :
    m.Goes I (f.before (headCode id n counter incoming limit code)) w
      ((((f.assign counter (.int i)).assign (.reg (n + 1)) (.bool b)).arrive
        (if b then .body id else .cont id)).before next) w := by
  have hr : f.routine = r := hs.routine
  have htest : (f.assign counter (.int i)).compute I
      (.binary (.icmp .sle) .i64 (.value counter) limit) w = some (.bool b, w) := by
    rw [← hb]
    exact compute_test (Frame.operand_assign rfl) hlimit
  exact (Module.goes_assign hphi).trans ((Module.goes_assign htest).trans
    (Module.goes_condBr (Frame.operand_assign rfl) (hr ▸ hat)))

theorem goes_loopTail (hc : c₃.terminated = false) (hs : f.Stands I ctx r known store block)
    (hreg : f.regs counter = some (.int i)) (hat : codeAt (.head id) r.lines = some next) :
    m.Goes I (f.before (c₃.loopTail id counter (.reg n) ++ code)) w
      (((f.assign (.reg n) (.int (i + 1))).arrive (.head id)).before next) w := by
  have hr : f.routine = r := hs.routine
  rw [Cursor.loopTail, hc]
  exact (Module.goes_assign (compute_count hreg)).trans (Module.goes_br (hr ▸ hat))

theorem compute_phi {next : ValueName} {tail : Option Label} (h : f.origin = some pred)
    (hv : f.operand .i64 start = some (.int i)) :
    f.compute I (.phi (loopIncoming start pred next tail)) w = some (.int i, w) := by
  simp only [Frame.compute, h, loopIncoming, Option.bind_eq_bind, Option.bind_some,
    List.find?_cons_of_pos, decide_true, hv]
  rfl

theorem compute_phi_back {next : ValueName} {tail : Option Label} {back : Label}
    (ht : tail = some back) (hne : pred ≠ back) (h : f.origin = some back)
    (hv : f.operand .i64 (.value next) = some (.int i)) :
    f.compute I (.phi (loopIncoming start pred next tail)) w = some (.int i, w) := by
  have hfind : (loopIncoming start pred next tail).find? (·.2 = back) =
      some (.value next, back) := by
    rw [loopIncoming, ht, List.find?_cons_of_neg (by simpa using hne)]
    exact List.find?_cons_of_pos (by simp)
  simp only [Frame.compute, h, hfind, Option.bind_eq_bind, Option.bind_some, hv]
  rfl

/-- From the head of a counting loop, by induction on the turns that are left. -/
theorem arrives_for {turn : Store → World → Option (Course World)}
    (hcounter : counter = .variable var.name decl) (hdecl : ctx.scopes.decls[decl]? = some var)
    (hkind : var.kind = .loopVar) (hty : var.ty = .int) (hnew : counter ∉ known)
    (hnot : counter ∉ counters sites) (hapart : Apart known sites) (hlimit : limit.Within known n)
    (hne : pred ≠ c₃.block)
    (hturn : ∀ store w f course, f.Stands I ctx r (counter :: known) store (.body id) →
      turn store w = some course → Arrives m I ctx r ret (counter :: known) (n + 2) (counters sites)
        (some (.cont id)) f w (bodyLines ++ (c₃.loopTail id counter (.reg n) ++ rest)) c₃
        (c₃.loopTail id counter (.reg n) ++ rest) course)
    (hheadAt : codeAt (.head id) r.lines =
      some (headCode id n counter (loopIncoming start pred (.reg n) c₃.tailBlock) limit code))
    (hbodyAt : codeAt (.body id) r.lines =
      some (bodyLines ++ (c₃.loopTail id counter (.reg n) ++ rest)))
    (hcontAt : codeAt (.cont id) r.lines = some post)
    (hc' : c'.terminated = false ∧ c'.block = .cont id) :
    ∀ (fuel : Nat) {i : Int64} {store : Store} {w : World} {f : Frame} {course : Course World},
    f.Stands I ctx r known store (.head id) →
    (∀ w, f.compute I (.phi (loopIncoming start pred (.reg n) c₃.tailBlock)) w = some (.int i, w)) →
    f.operand .i64 limit = some (.int hi) → loopFor decl hi turn fuel i store w = some course →
    Arrives m I ctx r ret known n (counter :: counters sites) exit f w (headCode id n counter
      (loopIncoming start pred (.reg n) c₃.tailBlock) limit code) c' post course := by
  have hnames : ∀ v ∈ counter :: counters sites, v.number? = none := by
    intro v hv
    rcases List.mem_cons.mp hv with rfl | hv
    · rw [hcounter]
      rfl
    · exact number_of_mem_counters hv
  have hdisjoint : ∀ v ∈ known, v ∉ counter :: counters sites := by
    intro v hv hm
    rcases List.mem_cons.mp hm with rfl | hm
    · exact hnew hv
    · exact hapart.known v hv hm
  have hreg (k : Nat) : ValueName.reg k ∉ known := by
    intro hm
    cases hapart.named _ hm
  intro fuel
  induction fuel with
  | zero =>
    intro i store w f course _ _ _ hloop
    cases hloop
  | succ fuel ih =>
    intro i store w f course hs hphi hlim hloop
    unfold loopFor at hloop
    have hf₁ : f.Follows n (counter :: counters sites) (f.assign counter (.int i)) :=
      .assign .refl _ (Or.inl List.mem_cons_self)
    -- The limit was computed before the loop, and no turn writes to a register that old.
    have hlim₁ := (hf₁.operand hnames hdisjoint hlimit .i64).trans hlim
    have hf₂ (b : Bool) (l : Label) : f.Follows n (counter :: counters sites)
        (((f.assign counter (.int i)).assign (.reg (n + 1)) (.bool b)).arrive l) :=
      (hf₁.assign _ (Or.inr (ValueName.not_below_reg (Nat.le_succ n)))).arrive l
    have hs₂ (b : Bool) (l : Label) :
        (((f.assign counter (.int i)).assign (.reg (n + 1)) (.bool b)).arrive l).Stands
          I ctx r known store l :=
      ((hs.assign _ hnew).assign _ (hreg _)).arrive l
    by_cases hle : i ≤ hi
    · rw [if_pos hle] at hloop
      have hgo : m.Goes I (f.before (headCode id n counter
          (loopIncoming start pred (.reg n) c₃.tailBlock) limit code)) w (Frame.before _ _) w :=
        goes_headCode hs (hphi w) hlim₁ (decide_eq_true hle) hbodyAt
      have hheld : (((f.assign counter (.int i)).assign (.reg (n + 1)) (.bool true)).arrive
          (.body id)).regs counter = some (.int i) := by
        refine (Function.update_of_ne ?_ _ (f.assign counter (.int i)).regs).trans
          (Function.update_self _ _ _)
        rw [hcounter]
        exact nofun
      have hs₃ : Frame.Stands I ctx r (counter :: known)
          (Function.update store decl (some (.int i))) (.body id) _ :=
        (hs₂ true (.body id)).count hcounter hdecl hkind hty hheld
      have hturned {f₃ : Frame} (hf₃ : Frame.Follows (n + 2) (counters sites) _ f₃) :
          f.Follows n (counter :: counters sites) f₃ :=
        (hf₂ true (.body id)).trans (Nat.le_add_right n 2)
          (hf₃.mono (Nat.le_refl _) (List.subset_cons_self _ _))
      rcases afterTurn_eq_some hloop with ⟨store₃, w₃, hone, hmore⟩ | ⟨store₃, w₃, hone, rfl⟩ |
        ⟨v, store₃, w₃, hone, rfl⟩
      · obtain ⟨hopen, f₃, hgo₃, hs₄, hf₃⟩ := hturn _ _ _ _ hs₃ hone
        have hheld₃ : f₃.regs counter = some (.int i) :=
          (hf₃.regs counter (hcounter ▸ ValueName.below_variable _ _ _) hnot).trans hheld
        have hgo₄ := hgo.trans (hgo₃.trans (goes_loopTail hopen hs₄ hheld₃ hheadAt))
        have hs₅ : ((f₃.assign (.reg n) (.int (i + 1))).arrive (.head id)).Stands I ctx r known
            store₃ (.head id) :=
          ((hs₄.mono (List.subset_cons_self _ _)).assign _ (hreg n)).arrive _
        have hf₄ : f.Follows n (counter :: counters sites)
            ((f₃.assign (.reg n) (.int (i + 1))).arrive (.head id)) :=
          ((hturned hf₃).assign _ (Or.inr (ValueName.not_below_reg (Nat.le_refl n)))).arrive _
        -- Entered from the tail, the head takes the incremented counter.
        have horigin : ((f₃.assign (.reg n) (.int (i + 1))).arrive (.head id)).origin =
            some c₃.block :=
          congrArg some hs₄.block
        have hback : c₃.tailBlock = some c₃.block := by
          rw [Cursor.tailBlock, hopen]
          rfl
        exact .after hgo₄ hf₄ (Nat.le_refl n) (ih hs₅
          (fun w => compute_phi_back hback hne horigin (Frame.operand_assign rfl))
          ((hf₄.operand hnames hdisjoint hlimit .i64).trans hlim) hmore)
      · obtain ⟨_, next, f₃, ⟨⟩, hnext, hgo₃, hs₄, hf₃⟩ := hturn _ _ _ _ hs₃ hone
        rw [hcontAt] at hnext
        cases hnext
        exact ⟨hc'.1, f₃, hgo.trans hgo₃, hc'.2 ▸ hs₄.mono (List.subset_cons_self _ _),
          hturned hf₃⟩
      · obtain ⟨htyped, hreturns⟩ := hturn _ _ _ _ hs₃ hone
        exact ⟨htyped, hgo.returns hreturns⟩
    · rw [if_neg hle] at hloop
      cases hloop
      refine ⟨hc'.1, _, goes_headCode hs (hphi w) hlim₁ (decide_eq_false hle) hcontAt, ?_, hf₂ _ _⟩
      exact hc'.2 ▸ hs₂ _ _

end

end ScriptLang
