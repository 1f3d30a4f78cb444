import ScriptLang.Compile
import ScriptLang.Proofs.BlockStructure
import ScriptLang.Proofs.Soundness
import ScriptLang.Proofs.StatementFlow

/-!
# Single assignment

Every routine of a compiled unit is in static single assignment form. Names are defined once because
checking numbers all binding sites, and emission numbers registers; definitions dominate their uses
because the notes of the emitted blocks make up a flow that fits the routine.
-/

namespace ScriptLang

open Emit

variable {sites : List Site} {known : List ValueName} {env : Env} {c c' : Cursor}
  {scopes : ScopeTree}

/-! ## The values of a routine -/

theorem Site.number_value {site : Site} {v : ValueName} (h : site.value? = some v) :
    v.number? = none := by
  obtain ⟨id, _, rfl⟩ := Option.map_eq_some_iff.mp h
  rfl

theorem Numbered.values_nodup {tree : ScopeTree} {n : Nat} (h : Numbered tree n sites) :
    (sites.filterMap Site.value?).Nodup := by
  induction sites generalizing n with
  | nil => exact List.nodup_nil
  | cons site sites ih =>
    obtain ⟨hhandle, -, hrest⟩ := h
    have hvalue : site.value? = some (.variable site.name n) := by
      rw [Site.value?, hhandle]
      rfl
    rw [List.filterMap_cons_some hvalue]
    refine List.nodup_cons.mpr ⟨?_, ih hrest⟩
    intro hm
    obtain ⟨other, ho, he⟩ := List.mem_filterMap.mp hm
    obtain ⟨id, _, hid, hlt, _⟩ := hrest.get ho
    rw [Site.value?, hid] at he
    obtain ⟨-, rfl⟩ := ValueName.variable.inj (Option.some.inj he)
    omega

theorem values_perm (sites : List Site) :
    (sites.filterMap Site.value?).Perm (cells sites ++ counters sites) := by
  have h := (List.filter_append_perm Site.isLoop sites).filterMap Site.value?
  rw [List.filterMap_append] at h
  exact h.symm.trans List.perm_append_comm

mutual
theorem Stmt.locals_cells : ∀ stmt : Stmt,
    stmt.locals.filterMap Local.value? = cells stmt.sites
  | .decl _ _ _ _ none => rfl
  | .decl _ _ _ _ (some _) => rfl
  | .assign .. => rfl
  | .branch _ blocks _ => localsOfBlocks_cells blocks
  | .forLoop _ _ _ body _ _ => body.locals_cells
  | .whileLoop _ body _ => body.locals_cells
  | .call _ => rfl
theorem Block.locals_cells : ∀ block : Block,
    block.locals.filterMap Local.value? = cells block.sites
  | ⟨stmts, _, _, _, _⟩ => localsOf_cells stmts
theorem localsOf_cells : ∀ stmts : List Stmt,
    (localsOf stmts).filterMap Local.value? = cells (sitesOf stmts)
  | [] => rfl
  | stmt :: stmts => by
    rw [localsOf, sitesOf, List.filterMap_append, cells_append, stmt.locals_cells,
      localsOf_cells stmts]
theorem localsOfBlocks_cells : ∀ blocks : List Block,
    (localsOfBlocks blocks).filterMap Local.value? = cells (sitesOfBlocks blocks)
  | [] => rfl
  | block :: blocks => by
    rw [localsOfBlocks, sitesOfBlocks, List.filterMap_append, cells_append, block.locals_cells,
      localsOfBlocks_cells blocks]
end

section

variable {ctx : BodyContext} {params : List (IrType × ValueName)} {body : Block} {c c' : Cursor}
  {routine : Routine}

theorem Routine.WellFormed.definitions_eq (hw : routine.WellFormed) :
    routine.definitions = routine.arguments ++ definedIn (instrsOf routine.lines) := by
  rw [Routine.definitions, Routine.passed, List.append_nil, ← readLines_instrs, hw.lead_nil]
  rfl

theorem Routine.From.definitions_nodup (h : routine.From ctx params body c c')
    (hparams : params.map (·.2) = sites.filterMap Site.value?)
    (hn : ((sites ++ body.sites).filterMap Site.value?).Nodup) : routine.definitions.Nodup := by
  obtain ⟨rest, defs, hlines, hdefs, hs, -⟩ := emitRoutine_segment h.2
  obtain ⟨fresh, hfresh, hperm⟩ := hs.values
  rw [body.locals_cells] at hperm
  rw [h.wellFormed.1.definitions_eq, Routine.arguments, h.1, hparams, hlines, instrsOf_label]
  have hall : ((sites ++ body.sites).filterMap Site.value?).Perm
      (sites.filterMap Site.value? ++ (cells body.sites ++ counters body.sites)) := by
    rw [List.filterMap_append]
    exact (values_perm body.sites).append_left _
  have hsub : (sites.filterMap Site.value? ++ (cells body.sites ++ defs)).Sublist
      (sites.filterMap Site.value? ++ (cells body.sites ++ counters body.sites)) :=
    (hdefs.append_left _).append_left _
  refine (hperm.append_left _).nodup_iff.mpr ?_
  rw [← List.append_assoc]
  refine List.nodup_append.mpr ⟨(hall.nodup_iff.mp hn).sublist hsub, hfresh.nodup, ?_⟩
  rintro v hv _ hr rfl
  obtain ⟨site, -, hsite⟩ := List.mem_filterMap.mp (hall.mem_iff.mpr (hsub.subset hv))
  obtain ⟨n, hnumber, _⟩ := hfresh.range v hr
  rw [Site.number_value hsite] at hnumber
  cases hnumber

end

/-! ## The flow of a routine -/

/-- The flow that the notes describe. -/
def Flow.ofNotes (notes : List Note) : Flow where
  known l := ((notes.find? (·.label = l)).map (·.known)).getD []
  phis l := ((notes.find? (·.label = l)).map (·.phis)).getD []

theorem find?_note {notes : List Note} (hn : (notes.map (·.label)).Nodup) {note : Note}
    (h : note ∈ notes) : notes.find? (·.label = note.label) = some note := by
  induction notes with
  | nil => cases h
  | cons first notes ih =>
    obtain ⟨hfirst, hrest⟩ := List.nodup_cons.mp hn
    rcases List.mem_cons.mp h with rfl | h
    · exact List.find?_cons_of_pos (by simp)
    · have hne : first.label ≠ note.label :=
        fun he => hfirst (List.mem_map.mpr ⟨note, h, he.symm⟩)
      rw [List.find?_cons_of_neg (by simpa using hne)]
      exact ih hrest h

theorem Flow.ofNotes_has {notes : List Note} (hn : (notes.map (·.label)).Nodup) :
    (Flow.ofNotes notes).Has notes := by
  intro note hm
  simp only [Flow.ofNotes, find?_note hn hm]
  exact ⟨rfl, rfl⟩

theorem Leads.fitsRoutine {routine : Routine} (hw : routine.WellFormed) {block : Label}
    (h : Leads [] [] .entry routine.arguments routine.lines block known) :
    ∃ flow : Flow, flow.FitsRoutine routine := by
  obtain ⟨notes, h⟩ := h
  have hn : (notes.map (·.label)).Nodup := by
    rw [h.labels, ← readLines_labels]
    refine List.Nodup.of_map Label.text ?_
    rw [List.map_map]
    exact hw.distinct
  refine ⟨Flow.ofNotes notes, (h.fits _ (Flow.ofNotes_has hn)).1, ?_⟩
  intro b _ pair hp
  simp only [Flow.ofNotes] at hp
  cases hfind : notes.find? (·.label = b.label) with
  | none =>
    rw [hfind] at hp
    cases hp
  | some note =>
    rw [hfind] at hp
    have hlabel : note.label = b.label := by simpa using List.find?_some hfind
    rcases h.phis note (List.mem_of_find?_eq_some hfind) with ho | hedges
    · cases ho
    · exact hlabel ▸ hedges pair hp

theorem carries_emitCells {vars : List Local} :
    Carries (emitCells vars) known fun _ known' => vars.filterMap Local.value? ⊆ known' := by
  induction vars generalizing known with
  | nil => exact .pure (List.nil_subset _)
  | cons var vars ih =>
    unfold emitCells
    have hhandle (halt : Halt) : Carries (Emit.ofExcept (demand var.handle halt)) known
        fun id _ => var.value? = some (.variable var.name id) := by
      refine .ofExcept fun id hid => ?_
      rw [Local.value?, demand_eq_ok.mp hid]
      rfl
    refine (hhandle _).bind fun id known₁ _ hvalue => ?_
    refine (Carries.check _).bind fun slot known₂ _ _ => ?_
    refine (Carries.check _).bind fun ty known₃ _ _ => ?_
    have hcell : Carries (emit (.assign (.variable var.name id) (.alloca ty))) known₃
        fun _ known' => [ValueName.variable var.name id] ⊆ known' :=
      .emit (List.nil_subset _) rfl rfl
    refine hcell.bind fun _ known₄ _ hfirst => ?_
    intro c a lines c' he
    obtain ⟨known', hl, hs, hrest⟩ := ih c a lines c' he
    refine ⟨known', hl, hs, ?_⟩
    rw [List.filterMap_cons_some hvalue]
    exact List.cons_subset.mpr ⟨hs (hfirst List.mem_cons_self), hrest⟩

theorem carries_emitEpilogue (kind : RoutineKind) :
    Carries (emitEpilogue kind) known fun _ _ => True := by
  cases kind with
  | script => exact .ret (List.nil_subset _)
  | function ret => cases ret <;> exact .ret (List.nil_subset _)

theorem emitRoutine_leads {ctx : BodyContext} {body : Block} (hr : body.Resolved env)
    (he : env.KnownIn known) {lines : List Line}
    (h : emitRoutine ctx body c = .ok ((), lines, c')) :
    ∃ known', Leads [] [] .entry known lines c'.block known' := by
  obtain ⟨cellLines, c₁, bodyLines, c₂, last, hcells, hbody, rfl, hlast⟩ := emitRoutine_eq_ok h
  have hahead : c₁.Ahead := by
    have hsegment : Segment (fun _ => True) [] _ (c.enter .entry) cellLines c₁ :=
      emitCells_segment hcells
    refine hsegment.ahead ?_
    intro n hn
    cases hn
  have hrest : Reaches [] (c.enter .entry) known (cellLines ++ (bodyLines ++ last)) c' := by
    refine carries_emitCells.reaches_append hcells fun known₁ hs₁ hlocals => ?_
    rw [body.locals_cells] at hlocals
    refine (body.emit_reaches hr (he.mono hs₁) hlocals ⟨by simp, by simp⟩ hahead hbody).append
      fun known₂ _ => ?_
    rcases hlast with ⟨_, rfl, rfl⟩ | ⟨_, hret⟩
    · exact ⟨known₂, .nil, List.Subset.refl _⟩
    · exact (carries_emitEpilogue _).reaches hret
  obtain ⟨known', hleads, _⟩ := hrest
  have hentry : Leads [] [⟨.entry, known, []⟩] .entry known [.label .entry] .entry known :=
    .openBlock ⟨.entry, known, []⟩ (List.Subset.refl known)
  exact ⟨known', (hentry.settle (by simp)).append hleads⟩

/-- A resolved body whose binding sites declare different values, with its parameters at `sites`. -/
theorem Routine.From.singleAssignment {ctx : BodyContext} {params : List (IrType × ValueName)}
    {body : Block} {routine : Routine} (h : routine.From ctx params body c c')
    (hparams : params.map (·.2) = sites.filterMap Site.value?) (hr : body.Resolved env)
    (he : env.KnownIn (sites.filterMap Site.value?))
    (hn : ((sites ++ body.sites).filterMap Site.value?).Nodup) :
    routine.WellFormed ∧ routine.SingleAssignment := by
  have hw := h.wellFormed.1
  have harguments : env.KnownIn routine.arguments := by
    rw [Routine.arguments, h.1, hparams]
    exact he
  obtain ⟨known', hleads⟩ := emitRoutine_leads hr harguments h.2
  obtain ⟨flow, hflow⟩ := hleads.fitsRoutine hw
  exact ⟨hw, hflow.singleAssignment hw (h.definitions_nodup hparams hn)⟩

/-! ## Units -/

theorem Param.emit_eq_ok {param : Param} {ty : IrType} {v : ValueName}
    (h : param.emit scopes = .ok (ty, v)) : param.site.value? = some v := by
  simp only [Param.emit, ScriptLang.bind_eq_ok, pure_eq_ok, Prod.mk.injEq] at h
  obtain ⟨id, hid, _, _, _, _, _, rfl⟩ := h
  rw [Site.value?, Param.site, demand_eq_ok.mp hid]
  rfl

theorem params_values {params : List Param} {pairs : List (IrType × ValueName)}
    (h : List.Forall₂ (fun param pair => Param.emit scopes param = .ok pair) params pairs) :
    pairs.map (·.2) = (params.map Param.site).filterMap Site.value? := by
  induction h with
  | nil => rfl
  | cons hemit _ ih =>
    rw [List.map_cons, List.map_cons, List.filterMap_cons_some (Param.emit_eq_ok hemit), ih]

theorem FnDef.header_arguments {functions : List String} {fn : FnDef} {header : Header}
    (h : fn.header scopes functions = .ok header) :
    header.params.map (·.2) = (fn.params.map Param.site).filterMap Site.value? := by
  simp only [FnDef.header, ScriptLang.bind_eq_ok, pure_eq_ok] at h
  obtain ⟨_, _, _, _, params, hparams, rfl⟩ := h
  exact params_values (forall₂_of_mapM hparams)

theorem extendParams_known {params : List Param} (he : env.KnownIn known)
    (hp : (params.map Param.site).filterMap Site.value? ⊆ known) :
    (extendParams env params).KnownIn known := by
  induction params generalizing env with
  | nil => exact he
  | cons param params ih =>
    refine ih (he.bind ?_) ?_
    · intro id hid
      refine hp (List.mem_filterMap.mpr ⟨param.site, List.mem_cons_self, ?_⟩)
      rw [Site.value?, Param.site, hid]
      rfl
    · intro v hv
      exact hp (((List.sublist_cons_self _ _).filterMap _).subset hv)

theorem emitFunctions_singleAssignment {functions begun : List String} {fns : List FnDef}
    {routines : List Routine} (hr : ∀ fn ∈ fns, fn.Resolved)
    (hn : ((fns.flatMap FnDef.sites).filterMap Site.value?).Nodup)
    (h : emitFunctions scopes functions fns c = (begun, .ok (routines, c'))) :
    ∀ routine ∈ routines, routine.WellFormed ∧ routine.SingleAssignment := by
  induction fns generalizing begun routines c with
  | nil =>
    cases h
    exact fun _ hm => nomatch hm
  | cons fn fns ih =>
    obtain ⟨header, routine, c₁, begun', rest, hheader, hroutine, hrest, rfl⟩ :=
      emitFunctions_cons_eq_ok h
    rw [List.flatMap_cons, List.filterMap_append] at hn
    intro r hm
    rcases List.mem_cons.mp hm with rfl | hm
    · have henv : (extendParams [] fn.params).KnownIn
          ((fn.params.map Param.site).filterMap Site.value?) :=
        extendParams_known .nil (List.Subset.refl _)
      exact hroutine.singleAssignment (FnDef.header_arguments hheader) (hr fn List.mem_cons_self)
        henv hn.of_append_left
    · exact ih (fun fn' hf => hr fn' (List.mem_cons_of_mem _ hf)) hn.of_append_right hrest r hm

theorem CompileUnit.compile_eq_ok {unit : CompileUnit} {options : Options} {m : Module}
    (h : (unit.compile options).result = .ok m) :
    ∃ res, unit.check.result = .ok res ∧ unit.check.unit.lower res.scopes options = .ok m := by
  unfold CompileUnit.compile at h
  split at h
  · cases h
  · rename_i unit' res hcheck
    rw [hcheck]
    exact ⟨res, rfl, h⟩

/-- Every routine of a compiled unit is in static single assignment form. -/
theorem compile_singleAssignment {unit : CompileUnit} {options : Options} {m : Module}
    (h : (unit.compile options).result = .ok m) :
    ∀ routine ∈ m.routines, routine.WellFormed ∧ routine.SingleAssignment := by
  obtain ⟨res, hcheck, hlower⟩ := CompileUnit.compile_eq_ok h
  obtain ⟨hchecked, -⟩ := CompileUnit.check_spec hcheck
  obtain ⟨begun, routines, c, script, c', hfns, hscript, hroutines⟩ :=
    CompileUnit.lower_eq_ok hlower
  have hn := hchecked.numbered.values_nodup
  rw [CompileUnit.sites, List.filterMap_append] at hn
  rw [hroutines]
  intro routine hm
  rcases List.mem_append.mp hm with hm | hm
  · exact emitFunctions_singleAssignment hchecked.functions hn.of_append_left hfns routine hm
  · have hnone : ([] : List (IrType × ValueName)).map (·.2) =
        ([] : List Site).filterMap Site.value? := rfl
    rw [List.mem_singleton.mp hm]
    exact hscript.singleAssignment hnone hchecked.script .nil hn.of_append_right

theorem compile_singleAssignment_triangle :
    ∃ m, (triangle.compile {}).result = .ok m ∧ m.routines.length = 3 ∧
      ∀ routine ∈ m.routines, routine.WellFormed ∧ routine.SingleAssignment := by
  have hlength : (triangle.compile {}).result.map (fun m => m.routines.length) = .ok 3 := by
    decide +kernel
  cases h : (triangle.compile {}).result with
  | error halt =>
    rw [h] at hlength
    cases hlength
  | ok m =>
    rw [h] at hlength
    exact ⟨m, rfl, Except.ok.inj hlength, compile_singleAssignment h⟩

end ScriptLang
