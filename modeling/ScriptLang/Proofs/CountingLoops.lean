import ScriptLang.Proofs.Activations
import ScriptLang.Proofs.LoopBounds
import ScriptLang.Proofs.Preservation
import Mathlib.Data.List.Forall2

/-!
# Counting loops run over the inclusive range

One turn takes the machine from the head of a loop back to the head with the next number, as long as
the number is not above the limit. So a loop whose body always gets to its end runs once for each
number of the range, unless the limit is the largest number there is: then counting up wraps around,
and the loop goes on forever.
-/

namespace ScriptLang

/-! ## Runs of a loop -/

section

variable {World : Type}

namespace LoopSite

variable (m : Module) (I : Interpretation World) (site : LoopSite) (routine : Routine)
  (callers : List (Option ValueName × Frame))

/-- Control has come to the head from outside, with the bounds evaluated. -/
structure Entered (lo hi : Int64) (machine : Machine World) : Prop where
  place : machine.At routine callers (.head site.id)
  code : codeAt (.head site.id) routine.lines = some machine.frame.code
  origin : machine.frame.origin = some site.pred
  start : machine.frame.operand .i64 site.start = some (.int lo)
  limit : machine.frame.operand .i64 site.limit = some (.int hi)

/-- A step from the head to the body begins a turn. -/
structure Begins (before after : Machine World) : Prop where
  head : before.At routine callers (.head site.id)
  body : after.At routine callers (.body site.id)
  code : codeAt (.body site.id) routine.lines = some after.frame.code

/-- A step to the block after the loop leaves it. -/
def Leaves (machine : Machine World) : Prop :=
  ∃ after, m.step I machine = some (.running after) ∧ after.At routine callers (.cont site.id)

/-- Steps that stay in the loop, with the loop variable of each turn that begins on the way. -/
inductive Turns : Machine World → List Int64 → Machine World → Prop where
  | done {machine : Machine World} : Turns machine [] machine
  | pass {before after last : Machine World} {vs : List Int64}
      (hstep : m.step I before = some (.running after)) (hin : after.Stays callers [.cont site.id])
      (hno : ¬ site.Begins routine callers before after) (hrest : Turns after vs last) :
      Turns before vs last
  | turn {before after last : Machine World} {v : Int64} {vs : List Int64}
      (hstep : m.step I before = some (.running after))
      (hbegins : site.Begins routine callers before after)
      (hv : after.frame.regs site.counter = some (.int v)) (hrest : Turns after vs last) :
      Turns before (v :: vs) last

/-- Control is at the end of the body, where the loop counts up. -/
def Counts (machine : Machine World) : Prop :=
  machine.callers = callers ∧ ∃ code, machine.frame.code = .instr site.step :: code

/-- Each turn that begins from here on, before the loop is left, gets to the end of the body. -/
def Completes (machine : Machine World) : Prop :=
  ∀ before after, m.Moves I callers [.cont site.id] machine before →
    m.step I before = some (.running after) → site.Begins routine callers before after →
    ∃ last, m.Moves I callers [.head site.id, .cont site.id] after last ∧ site.Counts callers last

variable {m I site routine callers} {before after last machine : Machine World}
  {vs ws : List Int64}

theorem Turns.trans (h : site.Turns m I routine callers before vs after)
    (h' : site.Turns m I routine callers after ws last) :
    site.Turns m I routine callers before (vs ++ ws) last := by
  induction h with
  | done => exact h'
  | pass hstep hin hno _ ih => exact .pass hstep hin hno (ih h')
  | turn hstep hbegins hv _ ih => exact .turn hstep hbegins hv (ih h')

theorem Begins.stays (h : site.Begins routine callers before after) :
    after.Stays callers [.cont site.id] := by
  refine ⟨h.body.stack ▸ List.suffix_refl _, fun _ => ?_⟩
  rw [h.body.block]
  simp

theorem Turns.moves (h : site.Turns m I routine callers before vs after) :
    m.Moves I callers [.cont site.id] before after := by
  induction h with
  | done => exact .refl
  | pass hstep hin _ _ ih => exact .head ⟨hstep, hin⟩ ih
  | turn hstep hbegins _ _ ih => exact .head ⟨hstep, hbegins.stays⟩ ih

theorem Completes.of_turns (h : site.Completes m I routine callers before)
    (hturns : site.Turns m I routine callers before vs after) :
    site.Completes m I routine callers after :=
  fun first next hmoves => h first next (hturns.moves.trans hmoves)

theorem turns_of_moves (hmoves : m.Moves I callers [.head site.id, .cont site.id] before after)
    (hin : before.callers = callers → before.frame.block ∉ [.head site.id, .cont site.id]) :
    site.Turns m I routine callers before [] after := by
  induction hmoves using Relation.ReflTransGen.head_induction_on with
  | refl => exact .done
  | head hstep _ ih =>
    obtain ⟨hstep, hstays⟩ := hstep
    refine .pass hstep ⟨hstays.suffix, fun hc hm => ?_⟩ (fun hbegins => ?_) (ih hstays.block)
    · exact hstays.block hc (List.mem_cons_of_mem _ hm)
    · refine hin hbegins.head.stack ?_
      rw [hbegins.head.block]
      exact List.mem_cons_self

theorem Turns.continues (h : site.Turns m I routine callers machine vs after)
    (h' : site.Turns m I routine callers machine ws last) (hlt : vs.length < ws.length) :
    ∃ us, us ≠ [] ∧ site.Turns m I routine callers after us last := by
  induction h generalizing ws with
  | done =>
    refine ⟨ws, ?_, h'⟩
    rintro rfl
    cases hlt
  | pass hstep hin hno _ ih =>
    cases h' with
    | done => cases hlt
    | pass hstep' _ _ hrest' =>
      cases hstep.symm.trans hstep'
      exact ih hrest' hlt
    | turn hstep' hbegins' _ _ =>
      cases hstep.symm.trans hstep'
      exact absurd hbegins' hno
  | turn hstep hbegins hv _ ih =>
    cases h' with
    | done => cases hlt
    | pass hstep' _ hno' _ =>
      cases hstep.symm.trans hstep'
      exact absurd hbegins hno'
    | turn hstep' _ _ hrest' =>
      cases hstep.symm.trans hstep'
      exact ih hrest' (Nat.lt_of_succ_lt_succ hlt)

theorem Turns.not_leaves (h : site.Turns m I routine callers machine vs after)
    (h' : site.Turns m I routine callers machine ws last) (hlt : vs.length < ws.length) :
    ¬ site.Leaves m I routine callers after := by
  rintro ⟨next, hnext, hcont⟩
  obtain ⟨us, hne, hus⟩ := h.continues h' hlt
  have hblock : next.frame.block ∉ [Label.cont site.id] := by
    cases hus with
    | done => exact absurd rfl hne
    | pass hstep hin _ _ =>
      cases hnext.symm.trans hstep
      exact hin.block hcont.stack
    | turn hstep hbegins _ _ =>
      cases hnext.symm.trans hstep
      exact hbegins.stays.block hcont.stack
  rw [hcont.block] at hblock
  exact hblock List.mem_cons_self

end LoopSite

end

/-! ## Where the lines of a loop stand -/

/-- What comes after the body, and after the loop. -/
def LoopSite.after (site : LoopSite) (post : List Line) : List Line :=
  site.back ++ .label (.cont site.id) :: post

/-- Jumps to the labels of the loop find its lines. -/
structure LoopSite.Coded (site : LoopSite) (routine : Routine) (post : List Line) : Prop where
  head : codeAt (.head site.id) routine.lines =
    some (site.head.map .instr ++ .label (.body site.id) :: (site.body ++ site.after post))
  body : codeAt (.body site.id) routine.lines = some (site.body ++ site.after post)
  cont : codeAt (.cont site.id) routine.lines = some post
  inner : ∀ done l todo, site.body = done ++ .label l :: todo →
    codeAt l routine.lines = some (todo ++ site.after post)

theorem LoopSite.Stands.coded {site : LoopSite} {routine : Routine} (h : site.Stands routine)
    (hw : routine.WellFormed) : ∃ post, site.Coded routine post := by
  obtain ⟨before, post, hlines, -⟩ := h.layout
  have hn := hw.labels_nodup
  have hsuffix : site.lines ++ post <:+ routine.lines := by
    rw [hlines]
    exact ((List.suffix_cons _ _).trans (List.suffix_append _ _))
  have hsite : site.lines ++ post = .label (.head site.id) :: (site.head.map .instr ++
      .label (.body site.id) :: (site.body ++ site.after post)) := by
    simp [LoopSite.lines, LoopSite.after]
  rw [hsite] at hsuffix
  have hbody := suffix_of_append (suffix_of_cons hsuffix)
  have hafter := suffix_of_append (suffix_of_cons hbody)
  refine ⟨post, codeAt_of_suffix hn hsuffix, codeAt_of_suffix hn hbody,
    codeAt_of_suffix hn (suffix_of_append hafter), ?_⟩
  intro done l todo hsplit
  have hinner : done ++ (.label l :: (todo ++ site.after post)) <:+ routine.lines := by
    rw [hsplit] at hbody
    simpa using suffix_of_cons hbody
  exact codeAt_of_suffix hn (suffix_of_append hinner)

/-! ## The head -/

section

variable {World : Type} {m : Module} {I : Interpretation World} {site : LoopSite}
  {routine : Routine} {callers : List (Option ValueName × Frame)} {post code : List Line}
  {i hi : Int64} {f : Frame} {w : World} {machine : Machine World}

theorem LoopSite.Turns.inHead {after last : Machine World} {vs : List Int64}
    (hstep : m.step I machine = some (.running after))
    (hat : after.At routine callers (.head site.id))
    (hrest : site.Turns m I routine callers after vs last) :
    site.Turns m I routine callers machine vs last := by
  refine .pass hstep ⟨hat.stack ▸ List.suffix_refl _, fun _ => ?_⟩ (fun hbegins => ?_) hrest
  · rw [hat.block]
    simp
  · cases hat.block.symm.trans hbegins.body.block

theorem Frame.operand_of_update {f f' : Frame} {name : ValueName} {v : Val} {ty : IrType}
    (h : f'.regs = Function.update f.regs name (some v)) (hty : v.irType = ty) :
    f'.operand ty (.value name) = some v := by
  simp only [Frame.operand, h, Function.update_self, Option.filter_some, hty, decide_true, if_true]

theorem Frame.operand_of_not_mem {f f' : Frame} {name : ValueName} {v : Option Val} {ty : IrType}
    {o : Operand} (h : f'.regs = Function.update f.regs name v) (hno : name ∉ o.uses) :
    f'.operand ty o = f.operand ty o := by
  refine Frame.operand_congr (fun u hu => ?_) ty
  rw [h]
  refine Function.update_of_ne ?_ _ _
  rintro rfl
  exact hno hu

variable (I site routine callers) in
/-- The machine is at the head, and the loop variable is about to be `i`. -/
structure LoopSite.AtHead (i hi : Int64) (machine : Machine World) : Prop where
  place : machine.At routine callers (.head site.id)
  code : codeAt (.head site.id) routine.lines = some machine.frame.code
  phi : ∀ w, machine.frame.compute I (.phi site.incoming) w = some (.int i, w)
  limit : machine.frame.operand .i64 site.limit = some (.int hi)

theorem LoopSite.Entered.atHead {lo : Int64} (h : site.Entered routine callers lo hi machine) :
    site.AtHead I routine callers lo hi machine :=
  ⟨h.place, h.code, fun _ => compute_phi h.origin h.start, h.limit⟩

theorem LoopSite.AtHead.decides (h : site.AtHead I routine callers i hi machine)
    (hc : site.Coded routine post) (hs : site.Steady) :
    ∃ last after, site.Turns m I routine callers machine [] last ∧
      last.At routine callers (.head site.id) ∧ m.step I last = some (.running after) ∧
      after.At routine callers (if decide (i ≤ hi) then .body site.id else .cont site.id) ∧
      codeAt (if decide (i ≤ hi) then .body site.id else .cont site.id) routine.lines =
        some after.frame.code ∧
      after.frame.regs site.counter = some (.int i) ∧
      after.frame.operand .i64 site.limit = some (.int hi) := by
  obtain ⟨next, hnext⟩ : ∃ next, codeAt (if decide (i ≤ hi) then .body site.id
      else .cont site.id) routine.lines = some next := by
    split
    · exact ⟨_, hc.body⟩
    · exact ⟨_, hc.cont⟩
  obtain ⟨rest, hcode⟩ : ∃ rest, machine.frame.code =
      .instr (.assign site.counter (.phi site.incoming)) ::
        .instr (.assign site.cmp (.binary (.icmp .sle) .i64 (.value site.counter) site.limit)) ::
          .instr (.condBr (.value site.cmp) (.body site.id) (.cont site.id)) :: rest :=
    ⟨_, (Option.some.inj (hc.head.symm.trans h.code)).symm⟩
  obtain ⟨m₁, hstep₁, hat₁, hcode₁, hregs₁⟩ :=
    Module.step_assign (m := m) h.place hcode (h.phi machine.world)
  have hcounter₁ : m₁.frame.operand .i64 (.value site.counter) = some (.int i) :=
    Frame.operand_of_update hregs₁ rfl
  have hlimit₁ : m₁.frame.operand .i64 site.limit = some (.int hi) := by
    rw [Frame.operand_of_not_mem hregs₁ fun hu => hs.limit _ hu List.mem_cons_self, h.limit]
  obtain ⟨m₂, hstep₂, hat₂, hcode₂, hregs₂⟩ :=
    Module.step_assign (m := m) hat₁ hcode₁ (compute_test hcounter₁ hlimit₁)
  obtain ⟨m₃, hstep₃, hat₃, hcode₃, hregs₃⟩ := Module.step_condBr (m := m) (I := I) hat₂ hcode₂
    (Frame.operand_of_update hregs₂ rfl) hnext
  refine ⟨m₂, m₃, .inHead hstep₁ hat₁ (.inHead hstep₂ hat₂ .done), hat₂, hstep₃, hat₃, ?_, ?_, ?_⟩
  · rw [hnext, hcode₃]
  · have hne : site.counter ≠ site.cmp := fun he => hs.counter (by rw [he]; simp)
    rw [hregs₃, hregs₂, Function.update_of_ne hne, hregs₁, Function.update_self]
  · have hno : site.cmp ∉ site.limit.uses := fun hu => hs.limit _ hu (by simp)
    have hlimit₃ : m₃.frame.operand .i64 site.limit = m₂.frame.operand .i64 site.limit :=
      Frame.operand_congr (fun _ _ => by rw [hregs₃]) .i64
    rw [hlimit₃, Frame.operand_of_not_mem hregs₂ hno, hlimit₁]

/-! ## The body -/

variable (site routine post) in
/-- The frame is in the body of the loop, or at its end, in a turn with the loop variable `i`. -/
structure LoopSite.InTurn (i hi : Int64) (f : Frame) : Prop where
  home : f.routine = routine
  place : ∃ done todo, site.body = done ++ todo ∧ f.code = todo ++ site.after post ∧
    f.block = blockAfter (.body site.id) done
  counter : f.regs site.counter = some (.int i)
  limit : f.operand .i64 site.limit = some (.int hi)

theorem LoopSite.InTurn.assign {name : ValueName} (h : site.InTurn routine post i hi f)
    (hs : site.Steady) (hname : name ∈ definedIn (instrsOf site.body)) (v : Val) :
    site.InTurn routine post i hi (f.assign name v) := by
  have hne : site.counter ≠ name := by
    rintro rfl
    exact hs.counter (List.mem_cons_of_mem _ (List.mem_cons_of_mem _ hname))
  have hno : name ∉ site.limit.uses := by
    intro hu
    exact hs.limit _ hu
      (List.mem_cons_of_mem _ (List.mem_cons_of_mem _ (List.mem_cons_of_mem _ hname)))
  exact ⟨h.home, h.place, (Function.update_of_ne hne _ _).trans h.counter,
    (Frame.operand_of_not_mem rfl hno).trans h.limit⟩

theorem LoopSite.InTurn.instr {j : Instr} (h : site.InTurn routine post i hi f)
    (hcode : f.code = .instr j :: code) (hj : j ≠ site.step) :
    j ∈ instrsOf site.body ∧ site.InTurn routine post i hi (f.before code) := by
  obtain ⟨done, todo, hbody, htodo, hblock⟩ := h.place
  rw [hcode] at htodo
  cases todo with
  | nil =>
    unfold LoopSite.after LoopSite.back at htodo
    split at htodo
    · cases htodo
      exact absurd rfl hj
    · cases htodo
  | cons line todo =>
    obtain ⟨rfl, hrest⟩ := List.cons.inj htodo
    refine ⟨by simp [hbody], h.home, ⟨done ++ [.instr j], todo, ?_, hrest, ?_⟩, h.counter, h.limit⟩
    · rw [hbody, List.append_assoc, List.singleton_append]
    · rw [blockAfter_append]
      exact hblock

theorem exists_label_of_mem_labelsOf {l : Label} {lines : List Line} (h : l ∈ labelsOf lines) :
    ∃ done todo, lines = done ++ .label l :: todo := by
  obtain ⟨line, hline, hl⟩ := List.mem_filterMap.mp h
  cases line with
  | label l' =>
    cases hl
    exact List.append_of_mem hline
  | instr j => cases hl

/-- What one instruction of the body does to the frame of a turn. A jump stays in the body, unless
it leaves the loop. -/
theorem LoopSite.InTurn.after {j : Instr} {f' : Frame} (h : site.InTurn routine post i hi f)
    (hform : site.Formed) (hc : site.Coded routine post) (hs : site.Steady)
    (hj : j ∈ instrsOf site.body) (hafter : f.After j f') (hstay : f'.block ≠ .cont site.id) :
    site.InTurn routine post i hi f' := by
  cases hafter with
  | same => exact h
  | assign hdest v => exact h.assign hs (List.mem_filterMap.mpr ⟨j, hj, hdest⟩) v
  | setCell cell v => exact ⟨h.home, h.place, h.counter, h.limit⟩
  | jump hl hat =>
    rename_i l next
    rcases hform.stays l (List.mem_flatMap.mpr ⟨j, hj, hl⟩) with hm | rfl
    · obtain ⟨done, todo, hbody⟩ := exists_label_of_mem_labelsOf hm
      rw [h.home, hc.inner done l todo hbody] at hat
      refine ⟨h.home, ⟨done ++ [.label l], todo, ?_, (Option.some.inj hat).symm, ?_⟩, h.counter,
        h.limit⟩
      · rw [hbody, List.append_assoc, List.singleton_append]
      · rw [blockAfter_append]
        rfl
    · exact absurd rfl hstay

theorem LoopSite.InTurn.ends (h : site.InTurn routine post i hi f) (hform : site.Formed)
    (hs : site.Steady) (hcode : f.code = .instr site.step :: code) :
    site.tail = some f.block ∧ ∃ rest, code = .instr (.br (.head site.id)) :: rest := by
  obtain ⟨done, todo, hbody, htodo, hblock⟩ := h.place
  rw [hcode] at htodo
  cases todo with
  | nil =>
    rw [List.append_nil] at hbody
    unfold LoopSite.after LoopSite.back at htodo
    split at htodo
    · rename_i htail
      obtain ⟨tail, ht⟩ := Option.isSome_iff_exists.mp htail
      refine ⟨?_, _, (List.cons.inj htodo).2⟩
      have hend := hform.tail
      rw [ht] at hend ⊢
      split at hend
      · cases hend
      · rw [hend, hblock, hbody]
    · cases htodo
  | cons line todo =>
    -- The body would assign to the next number.
    obtain ⟨rfl, -⟩ := List.cons.inj htodo
    refine absurd ?_ hs.next
    rw [hbody]
    exact List.mem_filterMap.mpr ⟨site.step, by simp, rfl⟩

/-! ## Turns -/

section

variable {before after last : Machine World}

/-- What one step of a turn preserves, also while the body waits for a call. -/
theorem LoopSite.InTurn.next (hform : site.Formed) (hc : site.Coded routine post)
    (hs : site.Steady) (hstep : m.step I before = some (.running after))
    (hstays : after.Stays callers [.head site.id, .cont site.id])
    (hno : ¬ site.Counts callers before)
    (h : before.Active callers (site.InTurn routine post i hi)
      (· ∈ definedIn (instrsOf site.body))) :
    after.Active callers (site.InTurn routine post i hi)
      (· ∈ definedIn (instrsOf site.body)) := by
  refine h.next (m.step_next hstep) hstays.suffix (fun _ _ v hf hname => hf.assign hs hname v) ?_
  intro hcallers hf j code hcode
  have hj : j ≠ site.step := by
    rintro rfl
    exact hno ⟨hcallers, code, hcode⟩
  obtain ⟨hbody, hin⟩ := hf.instr hcode hj
  refine ⟨hin, fun name hd => List.mem_filterMap.mpr ⟨j, hbody, hd⟩, fun hsame hafter => ?_⟩
  refine hin.after hform hc hs hbody hafter fun hcont => hstays.block hsame ?_
  rw [hcont]
  simp

theorem LoopSite.InTurn.reaches (hform : site.Formed) (hc : site.Coded routine post)
    (hs : site.Steady) (hmoves : m.Moves I callers [.head site.id, .cont site.id] before last)
    (hlast : site.Counts callers last)
    (h : before.Active callers (site.InTurn routine post i hi)
      (· ∈ definedIn (instrsOf site.body))) :
    ∃ first, m.Moves I callers [.head site.id, .cont site.id] before first ∧
      site.Counts callers first ∧ site.InTurn routine post i hi first.frame := by
  induction hmoves using Relation.ReflTransGen.head_induction_on with
  | refl => exact ⟨last, .refl, hlast, h.frame hlast.1⟩
  | @head before after hstep _ ih =>
    by_cases hcounts : site.Counts callers before
    · exact ⟨before, .refl, hcounts, h.frame hcounts.1⟩
    · obtain ⟨first, hmoves, hfirst⟩ :=
        ih (LoopSite.InTurn.next hform hc hs hstep.1 hstep.2 hcounts h)
      exact ⟨first, .head hstep hmoves, hfirst⟩

theorem LoopSite.Stands.pred_ne (h : site.Stands routine) {tail : Label}
    (ht : site.tail = some tail) : site.pred ≠ tail := by
  have honce := h.once
  rw [site.incoming_labels, ht] at honce
  simpa using honce

theorem LoopSite.InTurn.back (hst : site.Stands routine) (hc : site.Coded routine post)
    (hs : site.Steady) (hstays : machine.Stays callers [.head site.id, .cont site.id])
    (hcounts : site.Counts callers machine) (h : site.InTurn routine post i hi machine.frame) :
    ∃ after, site.Turns m I routine callers machine [] after ∧
      site.AtHead I routine callers (i + 1) hi after := by
  obtain ⟨hcallers, code, hcode⟩ := hcounts
  obtain ⟨htail, rest, rfl⟩ := h.ends hst.formed hs hcode
  have hat : machine.At routine callers machine.frame.block := ⟨hcallers, h.home, rfl⟩
  obtain ⟨m₁, hstep₁, hat₁, hcode₁, hregs₁⟩ :=
    Module.step_assign (m := m) (I := I) hat hcode (compute_count h.counter)
  obtain ⟨m₂, hstep₂, hat₂, hcode₂, horigin₂, hregs₂⟩ :=
    Module.step_br (m := m) (I := I) hat₁ hcode₁ hc.head
  have hstays₁ : m₁.Stays callers [.head site.id, .cont site.id] :=
    ⟨hat₁.stack ▸ List.suffix_refl _, fun _ => hat₁.block ▸ hstays.block hcallers⟩
  have hturns : site.Turns m I routine callers machine [] m₁ :=
    turns_of_moves (.single ⟨hstep₁, hstays₁⟩) hstays.block
  refine ⟨m₂, hturns.trans (.inHead hstep₂ hat₂ .done), hat₂, ?_, fun w => ?_, ?_⟩
  · rw [hc.head, hcode₂]
  · have hnext : m₂.frame.operand .i64 (.value site.next) = some (.int (i + 1)) :=
      Frame.operand_of_update (hregs₂.trans hregs₁) rfl
    exact compute_phi_back htail (hst.pred_ne htail) horigin₂ hnext
  · have hno : site.next ∉ site.limit.uses := fun hu => hs.limit _ hu (by simp)
    rw [Frame.operand_of_not_mem (hregs₂.trans hregs₁) hno, h.limit]

/-- One turn: the head lets a number through that is not above the limit, the body gets to its end,
and the head is reached again with the next number. -/
theorem LoopSite.AtHead.turn (h : site.AtHead I routine callers i hi machine)
    (hst : site.Stands routine) (hc : site.Coded routine post) (hs : site.Steady)
    (hcompletes : site.Completes m I routine callers machine) (hle : i ≤ hi) :
    ∃ after, site.Turns m I routine callers machine [i] after ∧
      site.AtHead I routine callers (i + 1) hi after := by
  obtain ⟨test, first, hturns, hhead, hstep, hat, hcode, hcounter, hlimit⟩ :=
    h.decides (m := m) hc hs
  rw [decide_eq_true hle, if_pos rfl] at hat hcode
  have hbegins : site.Begins routine callers test first := ⟨hhead, hat, hcode⟩
  obtain ⟨last, hmoves, hlast⟩ := hcompletes test first hturns.moves hstep hbegins
  have hin : site.InTurn routine post i hi first.frame := by
    refine ⟨hat.routine, ⟨[], site.body, rfl, ?_, hat.block⟩, hcounter, hlimit⟩
    exact Option.some.inj (hcode.symm.trans hc.body)
  obtain ⟨stop, hmoves, hcounts, hstop⟩ :=
    LoopSite.InTurn.reaches hst.formed hc hs hmoves hlast (.runs hat.stack hin)
  have hfirst : first.Stays callers [.head site.id, .cont site.id] := by
    refine ⟨hat.stack ▸ List.suffix_refl _, fun _ => ?_⟩
    rw [hat.block]
    simp
  obtain ⟨after, hback, hafter⟩ :=
    hstop.back (m := m) (I := I) hst hc hs (hmoves.stays hfirst) hcounts
  have hbody : site.Turns m I routine callers first [] stop := turns_of_moves hmoves hfirst.block
  exact ⟨after, hturns.trans (.turn hstep hbegins hcounter (hbody.trans hback)), hafter⟩

/-- As many turns as there are numbers up to the limit, by induction on them. -/
theorem LoopSite.AtHead.turns (h : site.AtHead I routine callers i hi machine)
    (hst : site.Stands routine) (hc : site.Coded routine post) (hs : site.Steady)
    (hcompletes : site.Completes m I routine callers machine) (n : Nat)
    (hle : ∀ k < n, i + Int64.ofNat k ≤ hi) :
    ∃ after,
      site.Turns m I routine callers machine
        ((List.range n).map fun k => i + Int64.ofNat k) after ∧
      site.AtHead I routine callers (i + Int64.ofNat n) hi after := by
  induction n with
  | zero =>
    refine ⟨machine, .done, ?_⟩
    simpa using h
  | succ n ih =>
    obtain ⟨middle, hturns, hmiddle⟩ := ih fun k hk => hle k (Nat.lt_succ_of_lt hk)
    obtain ⟨after, hone, hafter⟩ :=
      hmiddle.turn hst hc hs (hcompletes.of_turns hturns) (hle n n.lt_succ_self)
    refine ⟨after, ?_, ?_⟩
    · rw [List.range_succ, List.map_append]
      exact hturns.trans hone
    · have hsum : i + Int64.ofNat n + 1 = i + Int64.ofNat (n + 1) := by
        rw [Int64.ofNat_add, ← Int64.add_assoc]
        rfl
      exact hsum ▸ hafter

theorem LoopSite.AtHead.leaves (h : site.AtHead I routine callers i hi machine)
    (hc : site.Coded routine post) (hs : site.Steady) (hgt : ¬ i ≤ hi) :
    ∃ last, site.Turns m I routine callers machine [] last ∧
      site.Leaves m I routine callers last := by
  obtain ⟨last, after, hturns, -, hstep, hat, -⟩ := h.decides (m := m) hc hs
  rw [decide_eq_false hgt, if_neg Bool.false_ne_true] at hat
  exact ⟨last, hturns, after, hstep, hat⟩

end

/-! ## The whole loop -/

theorem toInt_add_ofNat {i : Int64} {k : Nat} (h : i.toInt + k ≤ Int64.maxValue.toInt) :
    (i + Int64.ofNat k).toInt = i.toInt + k := by
  have hmin := i.le_toInt
  rw [Int64.toInt_maxValue] at h
  rw [Int64.toInt_add, Int64.toInt_ofNat', Int64.size, Int.add_bmod_bmod]
  apply Int.bmod_eq_of_le <;> omega

variable (m I site routine callers) in
/-- The body runs once for each number from the lower bound to the limit, in order, and then control
goes on after the loop. -/
def LoopSite.CountsThrough (lo hi : Int64) (start : Machine World) : Prop :=
  ∃ vs last, site.Turns m I routine callers start vs last ∧
    vs.map Int64.toInt =
      (List.range (hi.toInt - lo.toInt + 1).toNat).map (fun k : Nat => lo.toInt + (k : Int)) ∧
    site.Leaves m I routine callers last

variable (m I site routine callers) in
/-- The body runs more often than any number says, and control never goes on after the loop. -/
structure LoopSite.RunsForever (lo : Int64) (start : Machine World) : Prop where
  turns : ∀ n, ∃ last, site.Turns m I routine callers start
    ((List.range n).map fun k => lo + Int64.ofNat k) last
  stays : ∀ vs last, site.Turns m I routine callers start vs last →
    ¬ site.Leaves m I routine callers last

section

variable {lo : Int64}

theorem LoopSite.Entered.countsThrough (h : site.Entered routine callers lo hi machine)
    (hst : site.Stands routine) (hc : site.Coded routine post) (hs : site.Steady)
    (hcompletes : site.Completes m I routine callers machine) (hmax : hi ≠ Int64.maxValue) :
    site.CountsThrough m I routine callers lo hi machine := by
  obtain ⟨n, hn⟩ : ∃ n, n = (hi.toInt - lo.toInt + 1).toNat := ⟨_, rfl⟩
  have hbelow : hi.toInt < Int64.maxValue.toInt :=
    Int.lt_iff_le_and_ne.mpr ⟨hi.toInt_le, fun he => hmax (Int64.toInt_inj.mp he)⟩
  have hlo := lo.toInt_le
  have hvalue : ∀ k ≤ n, (lo + Int64.ofNat k).toInt = lo.toInt + k :=
    fun k hk => toInt_add_ofNat (by omega)
  have hle : ∀ k < n, lo + Int64.ofNat k ≤ hi := by
    intro k hk
    rw [Int64.le_iff_toInt_le, hvalue k (Nat.le_of_lt hk)]
    omega
  have hgt : ¬ lo + Int64.ofNat n ≤ hi := by
    rw [Int64.le_iff_toInt_le, hvalue n (Nat.le_refl n)]
    omega
  obtain ⟨middle, hturns, hmiddle⟩ := h.atHead.turns (m := m) hst hc hs hcompletes n hle
  obtain ⟨last, htest, hleaves⟩ := hmiddle.leaves (m := m) hc hs hgt
  refine ⟨_, last, hturns.trans htest, ?_, hleaves⟩
  rw [List.append_nil, List.map_map, ← hn]
  exact List.map_congr_left fun k hk => hvalue k (Nat.le_of_lt (List.mem_range.mp hk))

theorem LoopSite.Entered.runsForever
    (h : site.Entered routine callers lo Int64.maxValue machine)
    (hst : site.Stands routine) (hc : site.Coded routine post) (hs : site.Steady)
    (hcompletes : site.Completes m I routine callers machine) :
    site.RunsForever m I routine callers lo machine := by
  have hturns (n : Nat) : ∃ last, site.Turns m I routine callers machine
      ((List.range n).map fun k => lo + Int64.ofNat k) last := by
    obtain ⟨last, hlast, -⟩ := h.atHead.turns (m := m) hst hc hs hcompletes n fun k _ =>
      Int64.le_iff_toInt_le.mpr (Int64.toInt_le _)
    exact ⟨last, hlast⟩
  refine ⟨hturns, fun vs last hlast => ?_⟩
  obtain ⟨more, hmore⟩ := hturns (vs.length + 1)
  exact hlast.not_leaves hmore (by simp)

end

end

/-! ## Compiled modules -/

/-- The counting loops of a unit as it is when it has been checked, for each of its routines. -/
def CompileUnit.compiledLoops (unit : CompileUnit) : Except Halt (List (List LoopSite)) := do
  let res ← unit.check.result
  unit.check.unit.loopSites res.scopes

theorem CompileUnit.compile_hasLoops {unit : CompileUnit} {options : Options} {m : Module}
    (h : (unit.compile options).result = .ok m) :
    ∃ sites, unit.compiledLoops = .ok sites ∧
      List.Forall₂ (fun routine loops => (∀ site ∈ loops, site.Steady) ∧ routine.WellFormed ∧
        routine.HasLoops loops) m.routines sites := by
  obtain ⟨res, hcheck, hlower⟩ := CompileUnit.compile_eq_ok h
  obtain ⟨sites, hsites, hall⟩ := CompileUnit.lower_hasLoops hlower
  have hsteady := CompileUnit.loopSites_steady hcheck hsites
  refine ⟨sites, ScriptLang.bind_eq_ok.mpr ⟨res, hcheck, hsites⟩, ?_⟩
  exact ((List.forall₂_and_left _ _).mpr ⟨hsteady, hall.flip⟩).flip

/-- In a compiled module, a counting loop that is entered with bounds from `lo` to `hi`, and whose
body gets to its end in each turn, runs its body once for each number of the range, in order, and is
left then. There is one exception: if `hi` is the largest number, the loop variable wraps around
after it, and the loop is never left. -/
theorem compile_counts_range {unit : CompileUnit} {options : Options} {m : Module}
    (h : (unit.compile options).result = .ok m) :
    ∃ sites, unit.compiledLoops = .ok sites ∧
      List.Forall₂ (fun routine loops => routine.HasLoops loops ∧
        ∀ site ∈ loops, ∀ (World : Type) (I : Interpretation World)
          (callers : List (Option ValueName × Frame)) (lo hi : Int64) (start : Machine World),
          site.Entered routine callers lo hi start → site.Completes m I routine callers start →
          if hi = Int64.maxValue then site.RunsForever m I routine callers lo start
          else site.CountsThrough m I routine callers lo hi start) m.routines sites := by
  obtain ⟨sites, hsites, hall⟩ := unit.compile_hasLoops h
  refine ⟨sites, hsites, hall.imp fun routine loops hroutine => ?_⟩
  obtain ⟨hsteady, hw, hloops⟩ := hroutine
  refine ⟨hloops, fun site hsite World I callers lo hi start hentered hcompletes => ?_⟩
  have hs := hsteady site hsite
  have hst := hloops.stands site hsite
  obtain ⟨post, hc⟩ := hst.coded hw
  by_cases hmax : hi = Int64.maxValue
  · subst hmax
    rw [if_pos rfl]
    exact hentered.runsForever hst hc hs hcompletes
  · rw [if_neg hmax]
    exact hentered.countsThrough hst hc hs hcompletes hmax

/-- Prints the same number in each turn. -/
def repeating (lo hi : Int64) : CompileUnit where
  functions := []
  script :=
    { name := "main"
      body := {
        stmts := [
          .forLoop "i" (.lit (.int lo)) (.lit (.int hi)) {
            stmts := [.call (.call "print" [.lit (.int 7)])] }] } }

def repeatingLoop (lo hi : Int64) : LoopSite where
  id := 0
  counter := .variable "i" 0
  next := .reg 1
  cmp := .reg 2
  start := .const (.int lo)
  limit := .const (.int hi)
  pred := .entry
  body := [.instr (Module.callTo none (.call .void (.runtime .printInt) [(.i64, .const (.int 7))]))]
  tail := some (.body 0)

def repeatingMain (lo hi : Int64) : Routine where
  ret := .i32
  symbol := "@main"
  params := []
  lines := .label .entry :: .instr (.br (.head 0)) ::
    ((repeatingLoop lo hi).lines ++ [.instr (.ret (some (.i32, .const (.int 0))))])

def repeatingModule (lo hi : Int64) : Module where
  name := "tarn_module"
  targetTriple := none
  routines := [repeatingMain lo hi]
  declares := [.printInt]

/-- The machine that has just come to the loop. -/
def repeatingStart (lo hi : Int64) : Machine (List Val) where
  frame := {
    routine := repeatingMain lo hi
    code := (codeAt (.head 0) (repeatingMain lo hi).lines).getD []
    block := .head 0
    origin := some .entry
    regs := fun _ => none
    cells := fun _ => none }
  callers := []
  world := []

theorem repeatingStart_entered (lo hi : Int64) :
    (repeatingLoop lo hi).Entered (repeatingMain lo hi) [] lo hi (repeatingStart lo hi) :=
  ⟨⟨rfl, rfl, rfl⟩, rfl, rfl, rfl, rfl⟩

theorem repeatingStart_reached (lo hi : Int64) :
    ∃ f, Frame.start (repeatingMain lo hi) [] = some f ∧
      (repeatingModule lo hi).step calculator ⟨f, [], []⟩ =
        some (.running (repeatingStart lo hi)) :=
  ⟨_, rfl, rfl⟩

theorem repeating_completes (lo hi : Int64) (machine : Machine (List Val)) :
    (repeatingLoop lo hi).Completes (repeatingModule lo hi) calculator (repeatingMain lo hi) []
      machine := by
  intro before after _ _ hbegins
  obtain ⟨code, hcode⟩ : ∃ code, after.frame.code =
      .instr (Module.callTo none (.call .void (.runtime .printInt) [(.i64, .const (.int 7))])) ::
        .instr (repeatingLoop lo hi).step :: code :=
    ⟨_, (Option.some.inj hbegins.code).symm⟩
  have hprint : (repeatingModule lo hi).step calculator after = some (.running
      ⟨after.frame.before (.instr (repeatingLoop lo hi).step :: code), after.callers,
        after.world ++ [.int 7]⟩) := by
    rw [Module.step_instr hcode]
    rfl
  refine ⟨_, .single ⟨hprint, ?_, fun _ => ?_⟩, hbegins.body.stack, code, rfl⟩
  · exact List.nil_suffix
  · change after.frame.block ∉ _
    rw [hbegins.body.block]
    simp

theorem compile_counts_range_repeating :
    ((repeating 3 5).compile {}).result = .ok (repeatingModule 3 5) ∧
      (repeatingLoop 3 5).Entered (repeatingMain 3 5) [] 3 5 (repeatingStart 3 5) ∧
      (repeatingLoop 3 5).Completes (repeatingModule 3 5) calculator (repeatingMain 3 5) []
        (repeatingStart 3 5) ∧
      ∃ vs last,
        (repeatingLoop 3 5).Turns (repeatingModule 3 5) calculator (repeatingMain 3 5) []
          (repeatingStart 3 5) vs last ∧
        vs.map Int64.toInt = [3, 4, 5] ∧
        (repeatingLoop 3 5).Leaves (repeatingModule 3 5) calculator (repeatingMain 3 5) []
          last := by
  have hcompile : ((repeating 3 5).compile {}).result = .ok (repeatingModule 3 5) := by
    decide +kernel
  have hloops : (repeating 3 5).compiledLoops = .ok [[repeatingLoop 3 5]] := by
    decide +kernel
  refine ⟨hcompile, repeatingStart_entered 3 5, repeating_completes 3 5 _, ?_⟩
  obtain ⟨sites, hsites, hall⟩ := compile_counts_range hcompile
  cases hsites.symm.trans hloops
  cases hall with
  | cons hroutine _ =>
    have hcounts := hroutine.2 _ List.mem_cons_self _ calculator [] 3 5 _
      (repeatingStart_entered 3 5) (repeating_completes 3 5 _)
    rw [if_neg (by decide)] at hcounts
    exact hcounts

/-- From the largest number to itself a loop should run once. It is never left. -/
theorem compile_repeating_largest :
    ∃ (m : Module) (routine : Routine) (site : LoopSite) (start : Machine (List Val)),
      ((repeating Int64.maxValue Int64.maxValue).compile {}).result = .ok m ∧
      m.routines = [routine] ∧ site.Stands routine ∧
      (∃ f, Frame.start routine [] = some f ∧
        m.step calculator ⟨f, [], []⟩ = some (.running start)) ∧
      site.Entered routine [] Int64.maxValue Int64.maxValue start ∧
      site.Completes m calculator routine [] start ∧
      ¬ site.CountsThrough m calculator routine [] Int64.maxValue Int64.maxValue start := by
  have hcompile : ((repeating Int64.maxValue Int64.maxValue).compile {}).result =
      .ok (repeatingModule Int64.maxValue Int64.maxValue) := by
    decide +kernel
  have hloops : (repeating Int64.maxValue Int64.maxValue).compiledLoops =
      .ok [[repeatingLoop Int64.maxValue Int64.maxValue]] := by
    decide +kernel
  obtain ⟨sites, hsites, hall⟩ := CompileUnit.compile_hasLoops hcompile
  cases hsites.symm.trans hloops
  cases hall with
  | cons hroutine _ =>
    obtain ⟨hsteady, hw, hstands⟩ := hroutine
    have hs := hsteady _ List.mem_cons_self
    have hst := hstands.stands _ List.mem_cons_self
    obtain ⟨post, hc⟩ := hst.coded hw
    have hentered := repeatingStart_entered Int64.maxValue Int64.maxValue
    have hcompletes := repeating_completes Int64.maxValue Int64.maxValue
      (repeatingStart Int64.maxValue Int64.maxValue)
    refine ⟨_, _, _, _, hcompile, rfl, hst, repeatingStart_reached _ _, hentered, hcompletes, ?_⟩
    rintro ⟨vs, last, hturns, -, hleaves⟩
    exact (hentered.runsForever hst hc hs hcompletes).stays vs last hturns hleaves

end ScriptLang
