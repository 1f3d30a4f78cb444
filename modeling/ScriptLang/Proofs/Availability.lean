import ScriptLang.Proofs.Dominance
import ScriptLang.Proofs.Segments

/-!
# The flow of emitted code

Emission fixes the flow of the blocks it opens. A segment of code comes with a note for each of its
labels, and fits every flow that agrees with these notes and with the notes of the labels around it.
What is known only grows along a statement: the block after a branch or a loop knows what was known
before it.
-/

namespace ScriptLang

variable {i : Instr} {l : Label} {name : String}

variable {ctx : BodyContext} {env : Env} {known : List ValueName}

/-! ## Notes -/

/-- What a flow says of one block. -/
structure Note where
  label : Label
  known : List ValueName
  phis : List (ValueName × Label) := []

def Flow.Has (flow : Flow) (notes : List Note) : Prop :=
  ∀ note ∈ notes, flow.known note.label = note.known ∧ flow.phis note.label = note.phis

theorem Flow.Has.of_subset {flow : Flow} {notes more : List Note} (h : flow.Has more)
    (hs : notes ⊆ more) : flow.Has notes :=
  fun note hn => h note (hs hn)

section

variable (flow : Flow) (block : Label) (known : List ValueName) (lines more : List Line)

theorem Flow.knownAfter_append :
    flow.knownAfter known (lines ++ more) = flow.knownAfter (flow.knownAfter known lines) more := by
  induction lines generalizing known with
  | nil => rfl
  | cons line lines ih => cases line <;> exact ih _

theorem Flow.fits_append :
    flow.Fits block known (lines ++ more) ↔ flow.Fits block known lines ∧
      flow.Fits (blockAfter block lines) (flow.knownAfter known lines) more := by
  induction lines generalizing block known with
  | nil => exact (and_iff_right trivial).symm
  | cons line lines ih =>
    cases line with
    | label l => exact (and_congr_right fun _ => ih l (flow.known l)).trans and_assoc.symm
    | instr i =>
      exact (and_congr_right fun _ => ih block (known ++ i.dest?.toList)).trans and_assoc.symm

theorem edges_append :
    edges block (lines ++ more) = edges block lines ++ edges (blockAfter block lines) more := by
  induction lines generalizing block with
  | nil => rfl
  | cons line lines ih =>
    cases line with
    | label l => exact ih l
    | instr i =>
      rw [List.cons_append, edges, edges, ih, List.append_assoc]
      rfl

end

/-! ## Guided code -/

/-- The lines lead from a block with some values known to another. The notes of `outer` are those
of labels around the lines; `own` are some of the notes of their labels, whose `phi` instructions
are not accounted for yet. -/
structure Guided (outer own notes : List Note) (block : Label) (known : List ValueName)
    (lines : List Line) (block' : Label) (known' : List ValueName) : Prop where
  labels : notes.map (·.label) = labelsOf lines
  opens : own ⊆ notes
  fits : ∀ flow : Flow, flow.Has (outer ++ notes) →
    flow.Fits block known lines ∧ flow.knownAfter known lines = known'
  ends : blockAfter block lines = block'
  phis : ∀ note ∈ notes, note ∈ own ∨ ∀ pair ∈ note.phis, (pair.2, note.label) ∈ edges block lines

def Leads (outer own : List Note) (block : Label) (known : List ValueName) (lines : List Line)
    (block' : Label) (known' : List ValueName) : Prop :=
  ∃ notes, Guided outer own notes block known lines block' known'

namespace Leads

variable {outer own own₁ own₂ : List Note} {block block₁ block' : Label}
  {known known₁ known' : List ValueName} {lines lines₁ lines₂ : List Line}

theorem nil : Leads outer [] block known [] block known :=
  ⟨[], rfl, List.nil_subset _, fun _ _ => ⟨trivial, rfl⟩, rfl, fun _ hn => nomatch hn⟩

theorem append (h₁ : Leads outer own₁ block known lines₁ block₁ known₁)
    (h₂ : Leads outer own₂ block₁ known₁ lines₂ block' known') :
    Leads outer (own₁ ++ own₂) block known (lines₁ ++ lines₂) block' known' := by
  obtain ⟨notes₁, h₁⟩ := h₁
  obtain ⟨notes₂, h₂⟩ := h₂
  refine ⟨notes₁ ++ notes₂, ?_, ?_, ?_, ?_, ?_⟩
  · rw [List.map_append, h₁.labels, h₂.labels, labelsOf_append]
  · intro note hn
    rcases List.mem_append.mp hn with hn | hn
    · exact List.mem_append_left _ (h₁.opens hn)
    · exact List.mem_append_right _ (h₂.opens hn)
  · intro flow hflow
    have hleft : outer ++ notes₁ ⊆ outer ++ (notes₁ ++ notes₂) := by
      intro note hn
      rw [← List.append_assoc]
      exact List.mem_append_left _ hn
    have hright : outer ++ notes₂ ⊆ outer ++ (notes₁ ++ notes₂) := by
      intro note hn
      rcases List.mem_append.mp hn with hn | hn
      · exact List.mem_append_left _ hn
      · exact List.mem_append_right _ (List.mem_append_right _ hn)
    obtain ⟨hf₁, hk₁⟩ := h₁.fits flow (hflow.of_subset hleft)
    obtain ⟨hf₂, hk₂⟩ := h₂.fits flow (hflow.of_subset hright)
    rw [Flow.fits_append, Flow.knownAfter_append, hk₁, h₁.ends]
    exact ⟨⟨hf₁, hf₂⟩, hk₂⟩
  · rw [blockAfter_append, h₁.ends, h₂.ends]
  · intro note hn
    rw [edges_append, h₁.ends]
    rcases List.mem_append.mp hn with hn | hn
    · rcases h₁.phis note hn with ho | hp
      · exact Or.inl (List.mem_append_left _ ho)
      · exact Or.inr fun pair hpair => List.mem_append_left _ (hp pair hpair)
    · rcases h₂.phis note hn with ho | hp
      · exact Or.inl (List.mem_append_right _ ho)
      · exact Or.inr fun pair hpair => List.mem_append_right _ (hp pair hpair)

theorem settle (h : Leads outer own block known lines block' known')
    (hp : ∀ note ∈ own, ∀ pair ∈ note.phis, (pair.2, note.label) ∈ edges block lines) :
    Leads outer [] block known lines block' known' := by
  obtain ⟨notes, h⟩ := h
  refine ⟨notes, h.labels, List.nil_subset _, h.fits, h.ends, ?_⟩
  intro note hn
  rcases h.phis note hn with ho | hpairs
  · exact Or.inr (hp note ho)
  · exact Or.inr hpairs

theorem close (own : List Note) (h : Leads (own ++ outer) own block known lines block' known')
    (hp : ∀ note ∈ own, ∀ pair ∈ note.phis, (pair.2, note.label) ∈ edges block lines) :
    Leads outer [] block known lines block' known' := by
  refine settle ?_ hp
  obtain ⟨notes, h⟩ := h
  refine ⟨notes, h.labels, h.opens, ?_, h.ends, h.phis⟩
  intro flow hflow
  refine h.fits flow (hflow.of_subset ?_)
  intro note hn
  rcases List.mem_append.mp hn with hn | hn
  · rcases List.mem_append.mp hn with hn | hn
    · exact List.mem_append_right _ (h.opens hn)
    · exact List.mem_append_left _ hn
  · exact List.mem_append_right _ hn

theorem openBlock (note : Note) (h : note.known ⊆ known) :
    Leads outer [note] block known [.label note.label] note.label note.known := by
  refine ⟨[note], rfl, List.Subset.refl _, ?_, rfl, fun _ hn => Or.inl hn⟩
  intro flow hflow
  obtain ⟨hk, _⟩ := hflow note (List.mem_append_right _ List.mem_cons_self)
  refine ⟨⟨?_, trivial⟩, hk⟩
  intro v hv
  rw [hk] at hv
  exact h hv

/-- What an instruction must find in the notes around it. -/
structure Allows (outer : List Note) (block : Label) (known : List ValueName) (i : Instr) :
    Prop where
  uses : i.uses ⊆ known
  incoming : ∀ pair ∈ i.incoming, ∃ note ∈ outer, note.label = block ∧ pair ∈ note.phis
  targets : ∀ l ∈ i.targets, ∃ note ∈ outer, note.label = l ∧ note.known ⊆ known ∧
    ∀ v, (v, block) ∈ note.phis → v ∈ known

theorem instr (h : Allows outer block known i) :
    Leads outer [] block known [.instr i] block (known ++ i.dest?.toList) := by
  refine ⟨[], rfl, List.nil_subset _, ?_, rfl, fun _ hn => nomatch hn⟩
  intro flow hflow
  rw [List.append_nil] at hflow
  refine ⟨⟨⟨fun v hv => h.uses hv, ?_, ?_⟩, trivial⟩, rfl⟩
  · intro pair hp
    obtain ⟨note, hn, rfl, hmem⟩ := h.incoming pair hp
    rw [(hflow note hn).2]
    exact hmem
  · intro l hl
    obtain ⟨note, hn, rfl, hk, hp⟩ := h.targets l hl
    rw [(hflow note hn).1, (hflow note hn).2]
    exact ⟨fun v hv => hk hv, hp⟩

/-- An unreachable block starts with what was known before it. -/
theorem lead (c : Cursor) : Leads outer [] c.block known c.lead c.opened.block known := by
  unfold Cursor.lead Cursor.opened
  cases c.terminated with
  | false => exact .nil
  | true =>
    refine (openBlock ⟨.dead c.nextLabel, known, []⟩ (List.Subset.refl known)).settle ?_
    intro note hn pair hpair
    rw [List.mem_singleton.mp hn] at hpair
    cases hpair

theorem line (c : Cursor) (h : Allows outer c.opened.block known i) :
    Leads outer [] c.block known (c.line i) c.opened.block (known ++ i.dest?.toList) :=
  (lead c).append (instr h)

theorem terminate (c : Cursor) (hi : i.isTerminator = true)
    (h : Allows outer c.opened.block known i) :
    Leads outer [] c.block known (c.line i) c.opened.block known := by
  have hl := line c h
  rw [Instr.dest?_of_terminator hi, Option.toList_none, List.append_nil] at hl
  exact hl

end Leads

/-- Control can go on at the label where the given values are known, and takes none along. -/
def Enters (outer : List Note) (known : List ValueName) (l : Label) : Prop :=
  ∃ note ∈ outer, note.label = l ∧ note.known ⊆ known ∧ note.phis = []

theorem Enters.mono {outer more : List Note} {known' : List ValueName} (h : Enters outer known l)
    (ho : outer ⊆ more) (hs : known ⊆ known') : Enters more known' l := by
  obtain ⟨note, hn, hl, hk, hp⟩ := h
  exact ⟨note, ho hn, hl, List.Subset.trans hk hs, hp⟩

namespace Leads

variable {outer : List Note} {known : List ValueName}

theorem Allows.of_enters {block : Label} (hu : i.uses ⊆ known) (hp : i.incoming = [])
    (ht : ∀ l ∈ i.targets, Enters outer known l) : Allows outer block known i := by
  refine ⟨hu, ?_, ?_⟩
  · rw [hp]
    exact fun _ hm => nomatch hm
  · intro l hl
    obtain ⟨note, hn, he, hk, hphis⟩ := ht l hl
    refine ⟨note, hn, he, hk, ?_⟩
    rw [hphis]
    exact fun _ hm => nomatch hm

theorem br (c : Cursor) (h : Enters outer known l) :
    Leads outer [] c.block known (c.line (.br l)) c.opened.block known := by
  refine terminate c rfl (.of_enters (List.nil_subset _) rfl ?_)
  intro l' hl
  rw [List.mem_singleton.mp hl]
  exact h

theorem condBr (c : Cursor) {cond : Operand} {thenTo elseTo : Label} (hu : cond.uses ⊆ known)
    (ht : Enters outer known thenTo) (he : Enters outer known elseTo) :
    Leads outer [] c.block known (c.line (.condBr cond thenTo elseTo)) c.opened.block known := by
  refine terminate c rfl (.of_enters hu rfl ?_)
  intro l hl
  rcases List.mem_cons.mp hl with rfl | hl
  · exact ht
  · rw [List.mem_singleton.mp hl]
    exact he

theorem jump (c : Cursor) (h : c.terminated = false → Enters outer known l) :
    Leads outer [] c.block known (c.jump l) c.block known := by
  cases hc : c.terminated with
  | true =>
    rw [Cursor.jump, hc]
    exact .nil
  | false =>
    have hl := br c (h hc)
    rw [Cursor.line, Cursor.lead_of_open hc, Cursor.opened_of_open hc] at hl
    rw [Cursor.jump, hc]
    exact hl

end Leads

/-! ## Expressions -/

/-- Going through the emitter keeps what is known, and its result is as described. -/
def Emit.Carries {α : Type} (e : Emit α) (known : List ValueName)
    (post : α → List ValueName → Prop) : Prop :=
  ∀ (c : Cursor) (a : α) (lines : List Line) (c' : Cursor), e c = .ok (a, lines, c') →
    ∃ known', (∀ outer, Leads outer [] c.block known lines c'.block known') ∧ known ⊆ known' ∧
      post a known'

namespace Emit.Carries

variable {α β : Type} {known : List ValueName} {post : α → List ValueName → Prop}
  {post' : β → List ValueName → Prop}

theorem pure {a : α} (h : post a known) : Carries (pure a) known post := by
  intro c b lines c' he
  obtain ⟨rfl, rfl, rfl⟩ := pure_eq_ok.mp he
  exact ⟨known, fun _ => .nil, List.Subset.refl _, h⟩

theorem fail (halt : Halt) : Carries (fail halt) known post := by
  intro c a lines c' he
  cases he

theorem ofExcept {x : Except Halt α} (h : ∀ a, x = .ok a → post a known) :
    Carries (ofExcept x) known post := by
  intro c a lines c' he
  obtain ⟨hx, rfl, rfl⟩ := ofExcept_eq_ok.mp he
  exact ⟨known, fun _ => .nil, List.Subset.refl _, h a hx⟩

theorem check (x : Except Halt α) : Carries (Emit.ofExcept x) known fun _ _ => True :=
  ofExcept fun _ _ => trivial

theorem forget {e : Emit α} (h : Carries e known post) : Carries e known fun _ _ => True := by
  intro c a lines c' he
  obtain ⟨known', hl, hs, _⟩ := h c a lines c' he
  exact ⟨known', hl, hs, trivial⟩

theorem bind {e : Emit α} {f : α → Emit β} (h : Carries e known post)
    (hf : ∀ a known', known ⊆ known' → post a known' → Carries (f a) known' post') :
    Carries (e >>= f) known post' := by
  intro c b lines c' hb
  obtain ⟨a, first, c₁, rest, he, hr, rfl⟩ := bind_eq_ok.mp hb
  obtain ⟨known₁, hl₁, hs₁, hp₁⟩ := h c a first c₁ he
  obtain ⟨known₂, hl₂, hs₂, hp₂⟩ := hf a known₁ hs₁ hp₁ c₁ b rest c' hr
  exact ⟨known₂, fun outer => (hl₁ outer).append (hl₂ outer), List.Subset.trans hs₁ hs₂, hp₂⟩

theorem use (routine : RuntimeRoutine) : Carries (use routine) known fun _ _ => True := by
  intro c a lines c' he
  cases he
  exact ⟨known, fun _ => .nil, List.Subset.refl _, trivial⟩

theorem freshReg : Carries freshReg known fun _ _ => True := by
  intro c a lines c' he
  cases he
  exact ⟨known, fun _ => .nil, List.Subset.refl _, trivial⟩

theorem emit (hu : i.uses ⊆ known) (hp : i.incoming = []) (ht : i.isTerminator = false) :
    Carries (emit i) known fun _ known' => i.dest?.toList ⊆ known' := by
  intro c a lines c' he
  rw [emit_apply] at he
  cases he
  refine ⟨_, fun _ => .line c ⟨hu, ?_, ?_⟩, List.subset_append_left _ _,
    List.subset_append_right _ _⟩
  · rw [hp]
    exact fun _ hm => nomatch hm
  · rw [Instr.targets_of_not_terminator ht]
    exact fun _ hm => nomatch hm

theorem ret {value : Option (IrType × Operand)} (hu : (Instr.ret value).uses ⊆ known) :
    Carries (terminate (.ret value)) known fun _ _ => True := by
  intro c a lines c' he
  rw [terminate_apply] at he
  cases he
  exact ⟨_, fun _ => .line c ⟨hu, (fun _ hm => nomatch hm), (fun _ hm => nomatch hm)⟩,
    List.subset_append_left _ _, trivial⟩

theorem assign (computation : Computation) (hu : computation.uses ⊆ known)
    (hp : computation.incoming = []) {f : ValueName → Emit β}
    (hf : ∀ reg known', known ⊆ known' → reg ∈ known' → Carries (f reg) known' post') :
    Carries (do
      let reg ← Emit.freshReg
      Emit.emit (.assign reg computation)
      f reg) known post' := by
  refine freshReg.bind fun reg known₁ hs₁ _ => ?_
  have he : Carries (Emit.emit (.assign reg computation)) known₁ fun _ known' => [reg] ⊆ known' :=
    emit (i := .assign reg computation) (List.Subset.trans hu hs₁) hp rfl
  refine he.bind fun _ known₂ hs₂ hd => ?_
  exact hf reg known₂ (List.Subset.trans hs₁ hs₂) (hd List.mem_cons_self)

end Emit.Carries

open Emit

/-- The value can be used where the given values are known. -/
def Value.KnownIn (known : List ValueName) : Value → Prop
  | .operand o => o.uses ⊆ known
  | .pending computation => computation.uses ⊆ known ∧ computation.incoming = []

theorem Value.carries_toOperand {value : Value} (h : value.KnownIn known) :
    Carries value.toOperand known fun o known' => o.uses ⊆ known' := by
  cases value with
  | operand o => exact .pure h
  | pending computation =>
    refine .assign computation h.1 h.2 fun reg known' _ hr => .pure ?_
    intro v hv
    rw [List.mem_singleton.mp hv]
    exact hr

theorem Native.compute_uses {native : Native} {args : List Operand} {computation : Computation}
    (h : native.compute args = .ok computation) :
    computation.uses = args.flatMap Operand.uses ∧ computation.incoming = [] := by
  unfold Native.compute at h
  split at h
  · cases h
    simp [Computation.uses, Computation.incoming]
  · cases h
    simp [Computation.uses, Computation.incoming]
  · cases h

theorem carries_emitCall (ctx : BodyContext) (name : String) {args : List (IrType × Operand)}
    (ret : IrType) (span : Span) (h : args.flatMap (·.2.uses) ⊆ known) :
    Carries (emitCall ctx name args ret span) known fun value known' => value.KnownIn known' := by
  have hnative (native : Native) : Carries (Emit.ofExcept (native.compute (args.map (·.2)))) known
      fun computation known' => (Value.pending computation).KnownIn known' := by
    refine .ofExcept fun computation hc => ?_
    obtain ⟨hu, hp⟩ := Native.compute_uses hc
    rw [Value.KnownIn, hu, List.flatMap_map]
    exact ⟨h, hp⟩
  unfold emitCall
  simp only
  split
  · exact .pure ⟨h, rfl⟩
  · split
    · exact (hnative _).bind fun computation known' _ hk => .pure hk
    · exact (Carries.use _).bind fun _ known' hs _ => .pure ⟨List.Subset.trans h hs, rfl⟩
    · exact .fail _

/-- The variables in sight are known. -/
def Env.KnownIn (known : List ValueName) (env : Env) : Prop :=
  ∀ entry ∈ env, ValueName.variable entry.1 entry.2 ∈ known

theorem Env.KnownIn.nil : Env.KnownIn known [] := by
  intro entry hm
  cases hm

theorem Env.KnownIn.mono {known' : List ValueName} (h : env.KnownIn known) (hs : known ⊆ known') :
    env.KnownIn known' :=
  fun entry he => hs (h entry he)

theorem emitVariable_known {handle : Option DeclId} {ty : IrType} {span : Span} {value : Value}
    (he : env.KnownIn known) (hr : ∃ id, handle = some id ∧ env.lookup name = some id)
    (h : emitVariable ctx name handle ty span = .ok value) : value.KnownIn known := by
  obtain ⟨id, rfl, hl⟩ := hr
  have hv : ValueName.variable name id ∈ known := he _ (Env.mem_of_lookup hl)
  have hsub : [ValueName.variable name id] ⊆ known := by
    intro v hm
    rw [List.mem_singleton.mp hm]
    exact hv
  simp only [emitVariable, demand, ScriptLang.bind_eq_ok] at h
  obtain ⟨_, ⟨⟩, var, _, h⟩ := h
  split at h
  · cases h
    exact ⟨hsub, rfl⟩
  · cases h
    exact hsub

mutual
theorem Expr.carries_emitValue {ctx : BodyContext} {env : Env} : ∀ (expr : Expr)
    {known : List ValueName}, expr.Resolved env → env.KnownIn known →
    Carries (expr.emitValue ctx) known fun value known' => value.KnownIn known'
  | .lit .., _, _, _ => by
    unfold Expr.emitValue
    refine (Carries.check _).bind fun _ _ _ _ => ?_
    exact .pure (List.nil_subset _)
  | .var .., _, hr, he => by
    unfold Expr.emitValue
    refine (Carries.check _).bind fun ty _ hs _ => ?_
    exact .ofExcept fun value hv => emitVariable_known (he.mono hs) hr hv
  | .call name args span _, _, hr, he => by
    unfold Expr.emitValue
    refine (Carries.check _).bind fun ret _ hs _ => ?_
    refine (carries_emitArgs args hr (he.mono hs)).bind fun operands known' _ ha => ?_
    exact carries_emitCall ctx name ret span ha
theorem carries_emitArgs {ctx : BodyContext} {env : Env} : ∀ (args : List Expr)
    {known : List ValueName}, AllResolved env args → env.KnownIn known →
    Carries (emitArgs ctx args) known fun operands known' => operands.flatMap (·.2.uses) ⊆ known'
  | [], _, _, _ => .pure (List.nil_subset _)
  | arg :: args, _, hr, he => by
    unfold emitArgs
    refine (Carries.check _).bind fun ty _ hs₁ _ => ?_
    refine (arg.carries_emitValue hr.1 (he.mono hs₁)).bind fun value _ hs₂ hv => ?_
    refine (value.carries_toOperand hv).bind fun operand _ hs₃ ho => ?_
    have he := ((he.mono hs₁).mono hs₂).mono hs₃
    refine (carries_emitArgs args hr.2 he).bind fun operands known' hs₄ ha => .pure ?_
    rw [List.flatMap_cons]
    exact List.append_subset.mpr ⟨List.Subset.trans ho hs₄, ha⟩
end

theorem Expr.carries_emitOperand (expr : Expr) (hr : expr.Resolved env) (he : env.KnownIn known) :
    Carries (expr.emitOperand ctx) known fun o known' => o.uses ⊆ known' :=
  (expr.carries_emitValue hr he).bind fun value _ _ hv => value.carries_toOperand hv

theorem Expr.carries_emitEffect (expr : Expr) (hr : expr.Resolved env) (he : env.KnownIn known) :
    Carries (expr.emitEffect ctx) known fun _ _ => True := by
  refine (Carries.check _).bind fun ty _ hs _ => ?_
  refine (expr.carries_emitValue hr (he.mono hs)).bind fun value known' _ hv => ?_
  cases value with
  | operand o => exact .pure trivial
  | pending computation =>
    simp only
    split
    · exact (Carries.emit (i := .perform computation) hv.1 hv.2 rfl).forget
    · refine Carries.freshReg.bind fun reg _ hs _ => ?_
      exact (Carries.emit (i := .assign reg computation) (List.Subset.trans hv.1 hs) hv.2 rfl).forget

/-! ## Statements -/

theorem carries_emitStore {id : DeclId} {value : Expr} (hr : value.Resolved env)
    (he : env.KnownIn known) (hv : .variable name id ∈ known) :
    Carries (emitStore ctx name id value) known fun _ _ => True := by
  refine (Carries.check _).bind fun ty _ hs₁ _ => ?_
  refine (value.carries_emitOperand hr (he.mono hs₁)).bind fun operand _ hs₂ ho => ?_
  refine (Carries.emit (i := .store ty operand (.variable name id)) ?_ rfl rfl).forget
  refine List.append_subset.mpr ⟨ho, ?_⟩
  intro v hm
  rw [List.mem_singleton.mp hm]
  exact hs₂ (hs₁ hv)

theorem Return.carries_emit (ret : Return) (hr : ret.value.Resolved env) (he : env.KnownIn known) :
    Carries (ret.emit ctx) known fun _ _ => True := by
  unfold Return.emit
  split
  · refine (ret.value.carries_emitOperand hr he).bind fun operand _ _ ho => ?_
    refine .assign (.trunc operand) ho rfl fun status _ _ hstatus => .ret ?_
    intro v hm
    rw [List.mem_singleton.mp hm]
    exact hstatus
  · exact (ret.value.carries_emitEffect hr he).bind fun _ _ _ _ => .ret (List.nil_subset _)
  · exact (ret.value.carries_emitOperand hr he).bind fun operand _ _ ho => .ret ho

/-- The cells of the locals among the sites. -/
def cells (sites : List Site) : List ValueName :=
  (sites.filter fun site => !site.isLoop).filterMap Site.value?

theorem cells_append (sites more : List Site) :
    cells (sites ++ more) = cells sites ++ cells more := by
  simp [cells]

theorem cells_append_subset {sites more : List Site} :
    cells (sites ++ more) ⊆ known ↔ cells sites ⊆ known ∧ cells more ⊆ known := by
  rw [cells_append, List.append_subset]

theorem Env.KnownIn.bind {known : List ValueName} {env : Env} (he : env.KnownIn known)
    {handle : Option DeclId} (h : ∀ id, handle = some id → ValueName.variable name id ∈ known) :
    (env.bind name handle).KnownIn known := by
  cases handle with
  | none => exact he
  | some id =>
    intro entry hm
    rcases List.mem_cons.mp hm with rfl | hm
    · exact h id rfl
    · exact he entry hm

mutual
theorem Stmt.extend_known {known : List ValueName} : ∀ (stmt : Stmt) {env : Env},
    env.KnownIn known → cells stmt.sites ⊆ known → (stmt.extend env).KnownIn known
  | .decl .., _, he, hc => by
    refine he.bind fun id hid => hc ?_
    rw [hid]
    exact List.mem_cons_self
  | .assign .., _, he, _ => he
  | .branch _ blocks _, _, he, hc => extendBlocks_known blocks he hc
  | .forLoop .., _, he, _ => he
  | .whileLoop _ body _, _, he, hc => body.extend_known he hc
  | .call _, _, he, _ => he
theorem Block.extend_known {known : List ValueName} : ∀ (block : Block) {env : Env},
    env.KnownIn known → cells block.sites ⊆ known → (block.extend env).KnownIn known
  | ⟨stmts, _, _, _, _⟩, _, he, hc => extendStmts_known stmts he hc
theorem extendStmts_known {known : List ValueName} : ∀ (stmts : List Stmt) {env : Env},
    env.KnownIn known → cells (sitesOf stmts) ⊆ known → (extendStmts env stmts).KnownIn known
  | [], _, he, _ => he
  | stmt :: stmts, _, he, hc => by
    obtain ⟨hc₁, hc₂⟩ := cells_append_subset.mp hc
    exact extendStmts_known stmts (stmt.extend_known he hc₁) hc₂
theorem extendBlocks_known {known : List ValueName} : ∀ (blocks : List Block) {env : Env},
    env.KnownIn known → cells (sitesOfBlocks blocks) ⊆ known →
    (extendBlocks env blocks).KnownIn known
  | [], _, he, _ => he
  | block :: blocks, _, he, hc => by
    obtain ⟨hc₁, hc₂⟩ := cells_append_subset.mp hc
    exact extendBlocks_known blocks (block.extend_known he hc₁) hc₂
end

end ScriptLang
