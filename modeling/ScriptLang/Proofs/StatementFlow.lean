import ScriptLang.Proofs.Availability

/-!
# The flow of statements

The notes of the blocks of branches and loops, and the flow of every resolved statement. A variable
in sight is known wherever it is in sight: cells from the entry on, loop variables in the body of
their loop.
-/

namespace ScriptLang

open Emit

variable {outer : List Note} {c c' : Cursor} {known known' : List ValueName} {env : Env}
  {lines : List Line} {block : Label} {incoming : List (Operand × Label)}

/-! ## Statements in their surroundings -/

/-- The lines keep what is known. -/
def Reaches (outer : List Note) (c : Cursor) (known : List ValueName) (lines : List Line)
    (c' : Cursor) : Prop :=
  ∃ known', Leads outer [] c.block known lines c'.block known' ∧ known ⊆ known'

theorem Reaches.append {c₁ : Cursor} {lines₁ lines₂ : List Line}
    (h₁ : Reaches outer c known lines₁ c₁)
    (h₂ : ∀ known', known ⊆ known' → Reaches outer c₁ known' lines₂ c') :
    Reaches outer c known (lines₁ ++ lines₂) c' := by
  obtain ⟨known₁, hl₁, hs₁⟩ := h₁
  obtain ⟨known₂, hl₂, hs₂⟩ := h₂ known₁ hs₁
  exact ⟨known₂, hl₁.append hl₂, List.Subset.trans hs₁ hs₂⟩

section

variable {α : Type} {e : Emit α} {known : List ValueName} {post : α → List ValueName → Prop}
  {outer : List Note} {c c₁ c' : Cursor} {a : α} {lines more : List Line}

theorem Emit.Carries.reaches (h : Carries e known post) (he : e c = .ok (a, lines, c')) :
    Reaches outer c known lines c' := by
  obtain ⟨known', hl, hs, _⟩ := h c a lines c' he
  exact ⟨known', hl outer, hs⟩

theorem Emit.Carries.reaches_append (h : Carries e known post) (he : e c = .ok (a, lines, c₁))
    (hmore : ∀ known', known ⊆ known' → post a known' → Reaches outer c₁ known' more c') :
    Reaches outer c known (lines ++ more) c' := by
  obtain ⟨known₁, hl₁, hs₁, hp⟩ := h c a lines c₁ he
  obtain ⟨known₂, hl₂, hs₂⟩ := hmore known₁ hs₁ hp
  exact ⟨known₂, (hl₁ outer).append hl₂, List.Subset.trans hs₁ hs₂⟩

end

/-- The loop around a statement can be left from where the given values are known. -/
structure Leaves (outer : List Note) (exit : Option Label) (known : List ValueName) : Prop where
  target : ∀ l, exit = some l → l.IsTarget
  enters : ∀ l, exit = some l → Enters outer known l

theorem Leaves.mono {more : List Note} {exit : Option Label} (h : Leaves outer exit known)
    (ho : outer ⊆ more) (hs : known ⊆ known') : Leaves more exit known' :=
  ⟨h.target, fun l hl => (h.enters l hl).mono ho hs⟩

theorem Leaves.loop {id : Nat} (h : Enters outer known (.cont id)) :
    Leaves outer (some (.cont id)) known := by
  refine ⟨?_, ?_⟩
  · simp [Label.IsTarget]
  · rintro l ⟨⟩
    exact h

theorem carries_storeTo {ctx : BodyContext} {name : String} {handle : Option DeclId} {halt : Halt}
    {value : Expr} (hr : value.Resolved env) (he : env.KnownIn known)
    (hv : ∀ id, handle = some id → .variable name id ∈ known) :
    Carries (Emit.ofExcept (demand handle halt) >>= fun id => emitStore ctx name id value) known
      fun _ _ => True := by
  have hid : Carries (Emit.ofExcept (demand handle halt)) known
      fun id known' => .variable name id ∈ known' :=
    .ofExcept fun id hid => hv id (demand_eq_ok.mp hid)
  exact hid.bind fun id known' hs hm => carries_emitStore hr (he.mono hs) hm

theorem emitBreak?_reaches {exit : Option Label} (hexit : Leaves outer exit known)
    {brk : Option Break} (h : emitBreak? exit brk c = .ok ((), lines, c')) :
    Reaches outer c known lines c' := by
  cases brk with
  | none =>
    cases h
    exact ⟨known, .nil, List.Subset.refl _⟩
  | some brk =>
    cases exit with
    | none => cases h
    | some l =>
      change terminate (.br l) c = _ at h
      rw [terminate_apply] at h
      cases h
      exact ⟨known, .br c (hexit.enters l rfl), List.Subset.refl _⟩

theorem emitReturn?_reaches {ctx : BodyContext} {ret : Option Return}
    (hr : ∀ r, ret = some r → r.value.Resolved env) (he : env.KnownIn known)
    (h : emitReturn? ctx ret c = .ok ((), lines, c')) : Reaches outer c known lines c' := by
  cases ret with
  | none =>
    cases h
    exact ⟨known, .nil, List.Subset.refl _⟩
  | some ret => exact (ret.carries_emit (hr ret rfl) he).reaches h

/-! ## Branches and loops -/

section

variable {outer : List Note} {c c₁ c₂ c₃ : Cursor} {known known₁ : List ValueName} {id : Nat}
  {operand : Operand} {condLines thenLines elseLines bodyLines : List Line}

theorem Leads.enclose (own : List Note) {block' : Label}
    (h : Leads (own ++ outer) own block known lines block' known')
    (hp : ∀ note ∈ own, note.phis = []) : Leads outer [] block known lines block' known' := by
  refine h.close own ?_
  intro note hn pair hpair
  rw [hp note hn] at hpair
  cases hpair

/-- A loop is left as it was entered. -/
def whileNotes (id : Nat) (known inner : List ValueName) : List Note :=
  [⟨.head id, known, []⟩, ⟨.body id, inner, []⟩, ⟨.cont id, known, []⟩]

theorem reaches_while
    (hcond : ∀ outer, Leads outer [] (.head id) known condLines c₁.block known₁)
    (hs : known ⊆ known₁) (ho : operand.uses ⊆ known₁)
    (hbody : ∀ more, Enters more known₁ (.cont id) →
      Reaches more (c₁.opened.stopped.enter (.body id)) known₁ bodyLines c₂) :
    Reaches outer c known
      ((c.skipLabels 1).line (.br (.head id)) ++ ([.label (.head id)] ++ (condLines ++
        (c₁.line (.condBr operand (.body id) (.cont id)) ++ ([.label (.body id)] ++ (bodyLines ++
          (c₂.jump (.head id) ++ [.label (.cont id)])))))))
      (c₂.stopped.enter (.cont id)) := by
  have hhead {known' : List ValueName} (h : known ⊆ known') :
      Enters (whileNotes id known known₁ ++ outer) known' (.head id) :=
    ⟨⟨.head id, known, []⟩, by simp [whileNotes], rfl, h, rfl⟩
  have hin : Enters (whileNotes id known known₁ ++ outer) known₁ (.body id) :=
    ⟨⟨.body id, known₁, []⟩, by simp [whileNotes], rfl, List.Subset.refl _, rfl⟩
  have hout : Enters (whileNotes id known known₁ ++ outer) known₁ (.cont id) :=
    ⟨⟨.cont id, known, []⟩, by simp [whileNotes], rfl, hs, rfl⟩
  obtain ⟨known₂, hturn, hs₂⟩ := hbody _ hout
  have hs' : known ⊆ known₂ := List.Subset.trans hs hs₂
  refine ⟨known, Leads.enclose (whileNotes id known known₁) ?_ (by simp [whileNotes]),
    List.Subset.refl _⟩
  exact (Leads.br (c.skipLabels 1) (hhead (List.Subset.refl _))).append
    ((Leads.openBlock ⟨.head id, known, []⟩ (List.Subset.refl _)).append ((hcond _).append
      ((Leads.condBr c₁ ho hin hout).append
        ((Leads.openBlock ⟨.body id, known₁, []⟩ (List.Subset.refl _)).append (hturn.append
          ((Leads.jump c₂ fun _ => hhead hs').append (.openBlock ⟨.cont id, known, []⟩ hs')))))))

/-- Both arms start with what is known after the condition, and so does the block they join in. -/
def armNotes (id : Nat) (known : List ValueName) (joined : Bool) : List Note :=
  [⟨.thenArm id, known, []⟩, ⟨.elseArm id, known, []⟩] ++
    if joined then [⟨.cont id, known, []⟩] else []

theorem reaches_arms
    (hcond : ∀ outer, Leads outer [] c.block known condLines c₁.block known₁)
    (hs : known ⊆ known₁) (ho : operand.uses ⊆ known₁)
    (hthen : ∀ more, outer ⊆ more →
      Reaches more (c₁.opened.stopped.enter (.thenArm id)) known₁ thenLines c₂)
    (helse : ∀ more, outer ⊆ more →
      Reaches more (c₂.stopped.enter (.elseArm id)) known₁ elseLines c₃) :
    Reaches outer c known
      (condLines ++ (c₁.line (.condBr operand (.thenArm id) (.elseArm id)) ++
        ([.label (.thenArm id)] ++ (thenLines ++ (c₂.jump (.cont id) ++
          ([.label (.elseArm id)] ++ (elseLines ++ (c₃.jump (.cont id) ++
            if !c₂.terminated || !c₃.terminated then [.label (.cont id)] else []))))))))
      (if !c₂.terminated || !c₃.terminated then c₃.stopped.enter (.cont id) else c₃.stopped) := by
  generalize hj : (!c₂.terminated || !c₃.terminated) = joined
  have harm {known' : List ValueName} (h : known₁ ⊆ known') {l : Label}
      (hm : ⟨l, known₁, []⟩ ∈ armNotes id known₁ joined) :
      Enters (armNotes id known₁ joined ++ outer) known' l :=
    ⟨_, List.mem_append_left _ hm, rfl, h, rfl⟩
  obtain ⟨known₂, hthen, hs₂⟩ := hthen (armNotes id known₁ joined ++ outer)
    (List.subset_append_right _ _)
  obtain ⟨known₃, helse, hs₃⟩ := helse (armNotes id known₁ joined ++ outer)
    (List.subset_append_right _ _)
  obtain ⟨known', hjoin, hs'⟩ : ∃ known', Leads (armNotes id known₁ joined ++ outer)
      (if joined then [⟨.cont id, known₁, []⟩] else []) c₃.block known₃
      (if joined then [.label (.cont id)] else [])
      (if joined then c₃.stopped.enter (.cont id) else c₃.stopped).block known' ∧
        known₁ ⊆ known' := by
    cases joined with
    | true => exact ⟨known₁, .openBlock ⟨.cont id, known₁, []⟩ hs₃, List.Subset.refl _⟩
    | false => exact ⟨known₃, .nil, hs₃⟩
  refine ⟨known', Leads.enclose (armNotes id known₁ joined) ?_ ?_, List.Subset.trans hs hs'⟩
  · exact (hcond _).append
      ((Leads.condBr c₁ ho (harm (List.Subset.refl _) (by simp [armNotes]))
          (harm (List.Subset.refl _) (by simp [armNotes]))).append
        ((Leads.openBlock ⟨.thenArm id, known₁, []⟩ (List.Subset.refl _)).append (hthen.append
          ((Leads.jump c₂ fun h => harm hs₂ (by simp [armNotes, ← hj, h])).append
            ((Leads.openBlock ⟨.elseArm id, known₁, []⟩ hs₂).append (helse.append
              ((Leads.jump c₃ fun h => harm hs₃ (by simp [armNotes, ← hj, h])).append hjoin)))))))
  · cases joined <;> simp [armNotes]

/-- Where the variable of a counting loop comes from: the block before the loop, and the block that
ends a turn if there is one. -/
def loopIncoming (start : Operand) (pred : Label) (next : ValueName) (tail : Option Label) :
    List (Operand × Label) :=
  (start, pred) :: tail.toList.map fun l => (Operand.value next, l)

theorem mem_loopIncoming {start : Operand} {pred : Label} {next v : ValueName} {tail : Option Label}
    {l : Label} (h : (v, l) ∈ (Computation.phi (loopIncoming start pred next tail)).incoming) :
    (v ∈ start.uses ∧ l = pred) ∨ (v = next ∧ tail = some l) := by
  obtain ⟨⟨o, l'⟩, hm, hv⟩ := List.mem_flatMap.mp h
  obtain ⟨v', hv', he⟩ := List.mem_map.mp hv
  obtain ⟨rfl, rfl⟩ := Prod.mk.inj he
  rcases List.mem_cons.mp hm with he | hm
  · obtain ⟨rfl, rfl⟩ := Prod.mk.inj he
    exact Or.inl ⟨hv', rfl⟩
  · obtain ⟨l'', hl, he⟩ := List.mem_map.mp hm
    obtain ⟨rfl, rfl⟩ := Prod.mk.inj he
    exact Or.inr ⟨List.mem_singleton.mp hv', Option.mem_toList.mp hl⟩

theorem Cursor.tailBlock_eq_some {l : Label} (h : c.tailBlock = some l) :
    c.terminated = false ∧ l = c.block := by
  unfold Cursor.tailBlock at h
  split at h
  · cases h
  · rename_i hc
    exact ⟨Bool.eq_false_iff.mpr hc, (Option.some.inj h).symm⟩

/-- Only the head of a counting loop has a `phi` instruction. -/
def forNotes (id : Nat) (known inner : List ValueName) (phis : List (ValueName × Label)) :
    List Note :=
  [⟨.head id, known, phis⟩, ⟨.body id, inner, []⟩, ⟨.cont id, known, []⟩]

theorem mem_forNotes {inner : List ValueName} {phis : List (ValueName × Label)} {note : Note}
    (h : note ∈ forNotes id known inner phis) :
    note = ⟨.head id, known, phis⟩ ∨ note.phis = [] := by
  simp only [forNotes, List.mem_cons, List.not_mem_nil, or_false] at h
  rcases h with rfl | rfl | rfl
  · exact Or.inl rfl
  · exact Or.inr rfl
  · exact Or.inr rfl

theorem Leads.loopHead {counter cmp : ValueName} {limit : Operand} (hlimit : limit.uses ⊆ known)
    (hhead : ⟨.head id, known, (Computation.phi incoming).incoming⟩ ∈ outer)
    (hin : Enters outer (known ++ [counter] ++ [cmp]) (.body id))
    (hout : Enters outer (known ++ [counter] ++ [cmp]) (.cont id)) :
    Leads outer [⟨.head id, known, (Computation.phi incoming).incoming⟩] block known
      (loopHead id counter cmp incoming limit) (.head id) (known ++ [counter] ++ [cmp]) := by
  have hphi : Allows outer (.head id) known (.assign counter (.phi incoming)) :=
    ⟨List.nil_subset _, fun pair hp => ⟨_, hhead, rfl, hp⟩, fun _ hm => nomatch hm⟩
  have hcmp : Allows outer (.head id) (known ++ [counter])
      (.assign cmp (.binary (.icmp .sle) .i64 (.value counter) limit)) := by
    refine .of_enters ?_ rfl fun _ hm => nomatch hm
    refine List.append_subset.mpr ⟨List.subset_append_right _ _, ?_⟩
    exact List.Subset.trans hlimit (List.subset_append_left _ _)
  exact (openBlock ⟨.head id, known, (Computation.phi incoming).incoming⟩
    (List.Subset.refl _)).append ((instr hphi).append ((instr hcmp).append
      (condBr (Cursor.enter {} (.head id)) (List.subset_append_right _ _) hin hout)))

theorem Leads.loopTail (c : Cursor) {counter next : ValueName} (hv : counter ∈ known)
    (h : c.terminated = false → Allows outer c.block (known ++ [next]) (.br (.head id))) :
    Reaches outer c known (c.loopTail id counter next) c.stopped := by
  unfold Cursor.loopTail
  cases hc : c.terminated with
  | true => exact ⟨known, .nil, List.Subset.refl _⟩
  | false =>
    have hstep : Allows outer c.block known
        (.assign next (.binary .add .i64 (.const (.int 1)) (.value counter))) := by
      refine .of_enters ?_ rfl fun _ hm => nomatch hm
      intro v hm
      rw [List.mem_singleton.mp hm]
      exact hv
    refine ⟨_, (instr hstep).append (instr (h hc)), ?_⟩
    rw [List.append_assoc]
    exact List.subset_append_left _ _

theorem edges_br (c : Cursor) (l : Label) :
    (c.opened.block, l) ∈ edges c.block (c.line (.br l)) := by
  unfold Cursor.line Cursor.lead Cursor.opened
  cases c.terminated <;> exact List.mem_cons_self

theorem edges_loopTail (c : Cursor) (h : c.terminated = false) (counter next : ValueName) :
    (c.block, .head id) ∈ edges c.block (c.loopTail id counter next) := by
  unfold Cursor.loopTail
  rw [h]
  exact List.mem_cons_self

section

variable {counter next cmp : ValueName} {start limit : Operand}

theorem subset_turn : known ⊆ known ++ [counter] ++ [cmp] := by
  rw [List.append_assoc]
  exact List.subset_append_left _ _

theorem Env.KnownIn.turn {name : String} {decl : DeclId} (he : env.KnownIn known)
    (hcounter : counter = .variable name decl) :
    Env.KnownIn (known ++ [counter] ++ [cmp]) ((name, decl) :: env) := by
  intro entry hm
  rcases List.mem_cons.mp hm with rfl | hm
  · rw [hcounter]
    simp
  · exact subset_turn (he entry hm)

/-- The way into the loop brings the start value, and the way back the next one. -/
theorem allows_head (hhead : ⟨.head id, known, (Computation.phi incoming).incoming⟩ ∈ outer)
    (hs : known ⊆ known')
    (hv : ∀ v, (v, block) ∈ (Computation.phi incoming).incoming → v ∈ known') :
    Leads.Allows outer block known' (.br (.head id)) := by
  refine ⟨List.nil_subset _, (fun _ hm => nomatch hm), ?_⟩
  intro l hl
  rw [List.mem_singleton.mp hl]
  exact ⟨_, hhead, rfl, hs, hv⟩

theorem edges_for (hends : blockAfter (.body id) bodyLines = c₂.block) {pair : ValueName × Label}
    (h : pair ∈ (Computation.phi
      (loopIncoming start c₁.opened.block next c₂.tailBlock)).incoming) :
    (pair.2, .head id) ∈ edges c₁.block
      (c₁.line (.br (.head id)) ++ (loopHead id counter cmp incoming limit ++
        ([.label (.body id)] ++ (bodyLines ++ (c₂.loopTail id counter next ++
          [.label (.cont id)]))))) := by
  obtain ⟨v, l⟩ := pair
  rw [edges_append]
  rcases mem_loopIncoming h with ⟨-, rfl⟩ | ⟨-, ht⟩
  · exact List.mem_append_left _ (edges_br c₁ (.head id))
  · obtain ⟨hopen, rfl⟩ := Cursor.tailBlock_eq_some ht
    rw [edges_append, edges_append, edges_append, edges_append]
    refine List.mem_append_right _ (List.mem_append_right _ (List.mem_append_right _
      (List.mem_append_right _ (List.mem_append_left _ ?_))))
    change _ ∈ edges (blockAfter (.body id) bodyLines) _
    rw [hends]
    exact edges_loopTail c₂ hopen counter next

theorem reaches_for (hne : c₁.opened.block ≠ c₂.block) (hstart : start.uses ⊆ known)
    (hlimit : limit.uses ⊆ known)
    (hbody : ∀ more, Enters more (known ++ [counter] ++ [cmp]) (.cont id) →
      Reaches more (c.enter (.body id)) (known ++ [counter] ++ [cmp]) bodyLines c₂) :
    Reaches outer c₁ known
      (c₁.line (.br (.head id)) ++
        (loopHead id counter cmp (loopIncoming start c₁.opened.block next c₂.tailBlock) limit ++
          ([.label (.body id)] ++ (bodyLines ++ (c₂.loopTail id counter next ++
            [.label (.cont id)])))))
      (c₂.stopped.enter (.cont id)) := by
  generalize hphis : loopIncoming start c₁.opened.block next c₂.tailBlock = incoming
  generalize hinner : known ++ [counter] ++ [cmp] = inner at hbody
  generalize hown : forNotes id known inner (Computation.phi incoming).incoming = own
  have hs : known ⊆ inner := hinner ▸ subset_turn
  have hhead : ⟨.head id, known, (Computation.phi incoming).incoming⟩ ∈ own ++ outer := by
    simp [← hown, forNotes]
  have hin : Enters (own ++ outer) inner (.body id) :=
    ⟨⟨.body id, inner, []⟩, by simp [← hown, forNotes], rfl, List.Subset.refl _, rfl⟩
  have hout : Enters (own ++ outer) inner (.cont id) :=
    ⟨⟨.cont id, known, []⟩, by simp [← hown, forNotes], rfl, hs, rfl⟩
  obtain ⟨known₂, hturn, hs₂⟩ := hbody _ hout
  have hcounter : counter ∈ known₂ := hs₂ (by simp [← hinner])
  -- The two ways to the head leave from different blocks.
  have henter : Leads.Allows (own ++ outer) c₁.opened.block known (.br (.head id)) := by
    refine allows_head hhead (List.Subset.refl _) ?_
    intro v hv
    rw [← hphis] at hv
    rcases mem_loopIncoming hv with ⟨hv, -⟩ | ⟨-, ht⟩
    · exact hstart hv
    · exact absurd (Cursor.tailBlock_eq_some ht).2 hne
  have hback : Leads.Allows (own ++ outer) c₂.block (known₂ ++ [next]) (.br (.head id)) := by
    have hmore : known ⊆ known₂ ++ [next] := fun v hv => List.mem_append_left _ (hs₂ (hs hv))
    refine allows_head hhead hmore ?_
    intro v hv
    rw [← hphis] at hv
    rcases mem_loopIncoming hv with ⟨hv, -⟩ | ⟨rfl, -⟩
    · exact hmore (hstart hv)
    · exact List.mem_append_right _ List.mem_cons_self
  obtain ⟨known₃, htail, hs₃⟩ := Leads.loopTail c₂ hcounter fun _ => hback
  have hs' : known ⊆ known₃ := fun v hv => hs₃ (hs₂ (hs hv))
  refine ⟨known, Leads.close own ?_ ?_, List.Subset.refl _⟩
  · subst hinner hown
    exact (Leads.terminate c₁ rfl henter).append ((Leads.loopHead hlimit hhead hin hout).append
      ((Leads.openBlock ⟨.body id, _, []⟩ (List.Subset.refl _)).append (hturn.append
        (htail.append (.openBlock ⟨.cont id, known, []⟩ hs')))))
  · intro note hn pair hp
    subst hown
    rcases mem_forNotes hn with rfl | hnone
    · obtain ⟨_, hguided⟩ := hturn
      subst hphis
      exact edges_for hguided.ends hp
    · rw [hnone] at hp
      cases hp

end

end

/-! ## Numbering ahead of the blocks -/

/-- The block was numbered before the labels to come. -/
def Cursor.Ahead (c : Cursor) : Prop :=
  ∀ n, c.block.number? = some n → n < c.nextLabel

section

variable {allowed : Label → Prop} {defs : List ValueName} {c c' : Cursor} {lines : List Line}

theorem Cursor.Ahead.enter {label : Label} {n : Nat} (hn : label.number? = some n)
    (h : n < c.nextLabel) : (c.enter label).Ahead := by
  intro m hm
  change label.number? = some m at hm
  rw [hn, Option.some.injEq] at hm
  exact hm ▸ h

theorem Cursor.nextLabel_le_opened (c : Cursor) : c.nextLabel ≤ c.opened.nextLabel := by
  unfold Cursor.opened
  split
  · exact Nat.le_succ _
  · exact Nat.le_refl _

theorem Segment.block_cases (h : Segment allowed [] defs c lines c') :
    c'.block = c.block ∨
      ∃ n, c'.block.number? = some n ∧ c.nextLabel ≤ n ∧ n < c'.nextLabel := by
  obtain ⟨fresh, hf, hp⟩ := h.labels
  rw [h.block]
  rcases blockAfter_mem c.block lines with he | hm
  · exact Or.inl he
  · exact Or.inr (hf.range _ (hp.mem_iff.mp hm))

theorem Segment.ahead (h : Segment allowed [] defs c lines c') (hc : c.Ahead) : c'.Ahead := by
  intro n hn
  rcases h.block_cases with he | ⟨m, hm, _, hlt⟩
  · rw [he] at hn
    exact Nat.lt_of_lt_of_le (hc n hn) h.labels_le
  · rw [hm, Option.some.injEq] at hn
    exact hn ▸ hlt

theorem Cursor.Ahead.opened (h : c.Ahead) : c.opened.Ahead := by
  have hlead : Segment (fun _ => True) [] [] c c.lead c.opened := .lead c
  exact hlead.ahead h

theorem Emit.Straight.nextLabel_le {α : Type} {e : Emit α} (h : Straight e) {a : α}
    (he : e c = .ok (a, lines, c')) : c.nextLabel ≤ c'.nextLabel :=
  (h (fun _ => True) c a lines c' he).labels_le

theorem Emit.Straight.ahead {α : Type} {e : Emit α} (h : Straight e) {a : α}
    (he : e c = .ok (a, lines, c')) (hc : c.Ahead) : c'.Ahead :=
  (h (fun _ => True) c a lines c' he).ahead hc

theorem Segment.block_ne {id : Nat} {before : Cursor} (hb : before.Ahead)
    (hid : id = before.nextLabel) (h : Segment allowed [] defs c lines c')
    (hc : c.block = .body id) (hle : id ≤ c.nextLabel) : before.block ≠ c'.block := by
  intro he
  have hnumber : ∃ n, c'.block.number? = some n ∧ id ≤ n := by
    rcases h.block_cases with hsame | ⟨n, hn, hlo, _⟩
    · exact ⟨id, by rw [hsame, hc]; rfl, Nat.le_refl id⟩
    · exact ⟨n, hn, Nat.le_trans hle hlo⟩
  obtain ⟨n, hn, hge⟩ := hnumber
  have hlt := hb n (he ▸ hn)
  omega

end

/-! ## All statements -/

mutual
theorem Stmt.emit_reaches {ctx : BodyContext} : ∀ (stmt : Stmt) {env : Env} {exit : Option Label}
    {outer : List Note} {known : List ValueName}, stmt.Resolved env → env.KnownIn known →
    cells stmt.sites ⊆ known → Leaves outer exit known → ∀ {c c' : Cursor} {lines : List Line},
    c.Ahead → stmt.emit ctx exit c = .ok ((), lines, c') → Reaches outer c known lines c'
  | .decl .., _, _, _, _, hr, he, hcells, _, _, _, _, _, h => by
    unfold Stmt.emit at h
    refine (carries_storeTo hr.1 he fun id hid => ?_).reaches h
    subst hid
    exact hcells List.mem_cons_self
  | .assign .., _, _, _, _, hr, he, _, _, _, _, _, _, h => by
    unfold Stmt.emit at h
    obtain ⟨hvalue, id, rfl, hlookup⟩ := hr
    refine (carries_storeTo hvalue he fun id' hid => ?_).reaches h
    cases hid
    exact he _ (Env.mem_of_lookup hlookup)
  | .branch conds blocks _, _, _, _, _, hr, he, hcells, hexit, _, _, _, hc, h => by
    unfold Stmt.emit at h
    exact emitArms_reaches blocks conds hr.2.1 hr.2.2 he he hcells hexit hc h
  | .forLoop _ lo hi body _ _, _, _, _, known, hr, he, hcells, _, _, _, _, hc, h => by
    obtain ⟨decl, start, loLines, c₁, limit, hiLines, c₂, bodyLines, c₃, id, counter, next, cmp, rfl,
      hcounter, hid, hnext, hcmp, hlo, hhi, hbody, rfl, rfl⟩ := emit_for_eq_ok h
    obtain ⟨hrlo, hrhi, id', ⟨⟩, hrbody⟩ := hr
    refine (lo.carries_emitOperand hrlo he).reaches_append hlo fun known₁ hs₁ hstart => ?_
    refine (hi.carries_emitOperand hrhi (he.mono hs₁)).reaches_append hhi fun known₂ hs₂ hlimit => ?_
    have hs : known ⊆ known₂ := List.Subset.trans hs₁ hs₂
    have hbodyCells : cells body.sites ⊆ known₂ ++ [counter] ++ [cmp] :=
      fun v hv => subset_turn (hs (hcells hv))
    have hid' : id < (((c₂.opened.skipLabels 1).skipRegs 2).stopped).nextLabel := by
      rw [hid]
      exact Nat.lt_succ_self _
    -- The head tells the first turn from the later ones by the block it is entered from.
    have hne : c₂.opened.block ≠ c₃.block := by
      have hbefore := (hi.straight_emitOperand ctx).ahead hhi
        ((lo.straight_emitOperand ctx).ahead hlo hc)
      obtain ⟨_, _, hturn⟩ := body.emit_emitted (by simp [Label.IsTarget]) hbody
      exact hturn.block_ne hbefore.opened hid rfl (Nat.le_of_lt hid')
    exact reaches_for hne (List.Subset.trans hstart hs₂) hlimit fun more hout =>
      body.emit_reaches hrbody ((he.mono hs).turn hcounter) hbodyCells (.loop hout)
        (.enter rfl hid') hbody
  | .whileLoop cond body _, _, _, _, _, hr, he, hcells, _, c, _, _, _, h => by
    obtain ⟨id, operand, condLines, c₁, bodyLines, c₂, hid, hcond, hbody, rfl, rfl⟩ :=
      emit_while_eq_ok h
    obtain ⟨known₁, hleads, hs, ho⟩ := cond.carries_emitOperand hr.1 he _ _ _ _ hcond
    refine reaches_while hleads hs ho fun more hout => ?_
    subst hid
    have hid₁ : c.nextLabel < c₁.opened.nextLabel :=
      calc c.nextLabel < (c.skipLabels 1).nextLabel := Nat.lt_succ_self _
        _ ≤ ((c.skipLabels 1).opened.stopped.enter (.head c.nextLabel)).nextLabel :=
          Cursor.nextLabel_le_opened _
        _ ≤ c₁.nextLabel := (cond.straight_emitOperand ctx).nextLabel_le hcond
        _ ≤ c₁.opened.nextLabel := Cursor.nextLabel_le_opened _
    exact body.emit_reaches hr.2 (he.mono hs) (List.Subset.trans hcells hs) (.loop hout)
      (.enter rfl hid₁) hbody
  | .call value, _, _, _, _, hr, he, _, _, _, _, _, _, h => by
    unfold Stmt.emit at h
    exact (value.carries_emitEffect hr he).reaches h
theorem Block.emit_reaches {ctx : BodyContext} : ∀ (block : Block) {env : Env}
    {exit : Option Label} {outer : List Note} {known : List ValueName}, block.Resolved env →
    env.KnownIn known → cells block.sites ⊆ known → Leaves outer exit known →
    ∀ {c c' : Cursor} {lines : List Line}, c.Ahead → block.emit ctx exit c = .ok ((), lines, c') →
    Reaches outer c known lines c'
  | ⟨stmts, _, _, _, _⟩, env, _, _, _, hr, he, hcells, hexit, _, _, _, hc, h => by
    rw [Block.emit_eq] at h
    obtain ⟨_, first, c₁, _, hstmts, h₁, rfl⟩ := Emit.bind_eq_ok.mp h
    obtain ⟨_, mid, c₂, last, hret, hbrk, rfl⟩ := Emit.bind_eq_ok.mp h₁
    refine (emitStmts_reaches stmts hr.1 he hcells hexit hc hstmts).append fun known₁ hs₁ => ?_
    have henv : (extendStmts env stmts).KnownIn known₁ :=
      (extendStmts_known stmts he hcells).mono hs₁
    refine (emitReturn?_reaches hr.2 henv hret).append fun known₂ hs₂ => ?_
    exact emitBreak?_reaches (hexit.mono (List.Subset.refl _) (List.Subset.trans hs₁ hs₂)) hbrk
theorem emitStmts_reaches {ctx : BodyContext} : ∀ (stmts : List Stmt) {env : Env}
    {exit : Option Label} {outer : List Note} {known : List ValueName}, StmtsResolved env stmts →
    env.KnownIn known → cells (sitesOf stmts) ⊆ known → Leaves outer exit known →
    ∀ {c c' : Cursor} {lines : List Line}, c.Ahead →
    emitStmts ctx exit stmts c = .ok ((), lines, c') → Reaches outer c known lines c'
  | [], _, _, _, known, _, _, _, _, _, _, _, _, h => by
    cases h
    exact ⟨known, .nil, List.Subset.refl _⟩
  | stmt :: stmts, _, _, _, _, hr, he, hcells, hexit, _, _, _, hc, h => by
    unfold emitStmts at h
    obtain ⟨_, first, c₁, rest, hstmt, hrest, rfl⟩ := Emit.bind_eq_ok.mp h
    obtain ⟨hcells₁, hcells₂⟩ := cells_append_subset.mp hcells
    obtain ⟨_, _, hsegment⟩ := stmt.emit_emitted hexit.target hstmt
    refine (stmt.emit_reaches hr.1 he hcells₁ hexit hc hstmt).append fun known' hs => ?_
    exact emitStmts_reaches stmts hr.2 ((stmt.extend_known he hcells₁).mono hs)
      (List.Subset.trans hcells₂ hs) (hexit.mono (List.Subset.refl _) hs) (hsegment.ahead hc) hrest
theorem emitArms_reaches {ctx : BodyContext} {span : Span} : ∀ (blocks : List Block)
    (conds : List Expr) {env env' : Env} {exit : Option Label} {outer : List Note}
    {known : List ValueName}, AllResolved env' conds → BlocksResolved env blocks →
    env'.KnownIn known → env.KnownIn known → cells (sitesOfBlocks blocks) ⊆ known →
    Leaves outer exit known → ∀ {c c' : Cursor} {lines : List Line}, c.Ahead →
    emitArms ctx exit span conds blocks c = .ok ((), lines, c') → Reaches outer c known lines c'
  | _, [], _, _, _, _, _, _, _, _, _, _, _, _, _, _, _, h =>
    absurd h emitArms_no_cond
  | [], _ :: _, _, _, _, _, _, _, _, _, _, _, _, _, _, _, _, h =>
    absurd h emitArms_no_block
  | block :: blocks, cond :: conds, env, _, _, _, _, hrc, hrb, hec, he, hcells, hexit, c, _, _, _,
      h => by
    obtain ⟨id, operand, condLines, c₁, thenLines, c₂, elseLines, c₃, hid, hcond, hthen, helse, rfl,
      rfl⟩ := emitArms_eq_ok h
    obtain ⟨hcells₁, hcells₂⟩ := cells_append_subset.mp hcells
    obtain ⟨known₁, hleads, hs, ho⟩ := cond.carries_emitOperand hrc.1 hec _ _ _ _ hcond
    have hid₁ : id < c₁.opened.nextLabel := by
      rw [hid]
      calc c.nextLabel < (c.skipLabels 1).nextLabel := Nat.lt_succ_self _
        _ ≤ c₁.nextLabel := (cond.straight_emitOperand ctx).nextLabel_le hcond
        _ ≤ c₁.opened.nextLabel := Cursor.nextLabel_le_opened _
    have hid₂ : id < c₂.nextLabel := by
      obtain ⟨_, _, hseg⟩ := block.emit_emitted hexit.target hthen
      exact Nat.lt_of_lt_of_le hid₁ hseg.labels_le
    refine reaches_arms hleads hs ho (fun more hm => ?_) (fun more hm => ?_)
    · exact block.emit_reaches hrb.1 (he.mono hs) (List.Subset.trans hcells₁ hs) (hexit.mono hm hs)
        (.enter rfl hid₁) hthen
    · have henv : (block.extend env).KnownIn known₁ := (block.extend_known he hcells₁).mono hs
      unfold emitElse at helse
      cases conds with
      | nil =>
        exact emitLast_reaches blocks hrb.2 henv (List.Subset.trans hcells₂ hs) (hexit.mono hm hs)
          (.enter rfl hid₂) helse
      | cons next conds =>
        exact emitArms_reaches blocks (next :: conds) hrc.2 hrb.2 (hec.mono hs) henv
          (List.Subset.trans hcells₂ hs) (hexit.mono hm hs) (.enter rfl hid₂) helse
theorem emitLast_reaches {ctx : BodyContext} : ∀ (blocks : List Block) {env : Env}
    {exit : Option Label} {outer : List Note} {known : List ValueName}, BlocksResolved env blocks →
    env.KnownIn known → cells (sitesOfBlocks blocks) ⊆ known → Leaves outer exit known →
    ∀ {c c' : Cursor} {lines : List Line}, c.Ahead →
    emitLast ctx exit blocks c = .ok ((), lines, c') → Reaches outer c known lines c'
  | [], _, _, _, known, _, _, _, _, _, _, _, _, h => by
    cases h
    exact ⟨known, .nil, List.Subset.refl _⟩
  | [block], _, _, _, _, hr, he, hcells, hexit, _, _, _, hc, h =>
    block.emit_reaches hr.1 he (cells_append_subset.mp hcells).1 hexit hc h
  | block :: next :: blocks, _, _, _, _, hr, he, hcells, hexit, _, _, _, hc, h => by
    obtain ⟨hcells₁, hcells₂⟩ := cells_append_subset.mp hcells
    exact emitLast_reaches (next :: blocks) hr.2 (block.extend_known he hcells₁) hcells₂ hexit hc h
end

end ScriptLang
