import ScriptLang.Ir.Lowering
import ScriptLang.Proofs.Segments
import Mathlib.Data.List.Nodup

/-!
# The blocks of a module

Every routine that lowering gives, for whatever tree, is a sequence of basic blocks, and no label
but `entry` is used twice in the module.
-/

namespace ScriptLang

open Emit

variable {body : Block} {ctx : BodyContext} {c c' : Cursor} {fns : List FnDef} {lines : List Line}
  {routines : List Routine} {begun functions : List String} {scopes : ScopeTree}

/-! ## Steps of lowering -/

/-- The routine has the lines of a body, emitted from `c` to `c'`. -/
def Routine.From (ctx : BodyContext) (params : List (IrType × ValueName)) (body : Block)
    (c : Cursor) (routine : Routine) (c' : Cursor) : Prop :=
  routine.params = params ∧ emitRoutine ctx body c = .ok ((), routine.lines, c')

/-- The routine has the given header, and the lines of a body. -/
structure Routine.Defines (ctx : BodyContext) (header : Header) (body : Block) (c : Cursor)
    (routine : Routine) (c' : Cursor) : Prop where
  ret : routine.ret = header.ret
  symbol : routine.symbol = header.symbol
  lines : routine.From ctx header.params body c c'

theorem emitWithHeader_eq_ok {header : Header} {routine : Routine}
    (h : emitWithHeader ctx header body c = .ok (routine, lines, c')) :
    routine.Defines ctx header body c c' := by
  obtain ⟨⟨_, captured⟩, _, c₁, _, hcapture, h₁, _⟩ := Emit.bind_eq_ok.mp h
  obtain ⟨hlines, -⟩ := capture_eq_ok.mp hcapture
  cases h₁
  exact ⟨rfl, rfl, rfl, hlines⟩

theorem emitFunctions_cons_defines {fn : FnDef}
    (h : emitFunctions scopes functions (fn :: fns) c = (begun, .ok (routines, c'))) :
    ∃ header routine c₁ begun' rest, fn.header scopes functions = .ok header ∧
      routine.Defines ⟨scopes, functions, .function header.ret⟩ header fn.body c c₁ ∧
      emitFunctions scopes functions fns c₁ = (begun', .ok (rest, c')) ∧
      routines = routine :: rest := by
  unfold emitFunctions at h
  split at h
  · cases (Prod.mk.inj h).2
  · rename_i header hheader
    split at h
    · cases (Prod.mk.inj h).2
    · rename_i routine _ c₁ hroutine
      cases hrest : emitFunctions scopes functions fns c₁ with
      | mk begun' result =>
        rw [hrest] at h
        cases result with
        | error halt => cases (Prod.mk.inj h).2
        | ok value =>
          obtain ⟨rest, c₂⟩ := value
          cases (Prod.mk.inj h).2
          exact ⟨header, routine, c₁, begun', rest, hheader, emitWithHeader_eq_ok hroutine, hrest,
            rfl⟩

theorem emitFunctions_cons_eq_ok {fn : FnDef}
    (h : emitFunctions scopes functions (fn :: fns) c = (begun, .ok (routines, c'))) :
    ∃ header routine c₁ begun' rest, fn.header scopes functions = .ok header ∧
      routine.From ⟨scopes, functions, .function header.ret⟩ header.params fn.body c c₁ ∧
      emitFunctions scopes functions fns c₁ = (begun', .ok (rest, c')) ∧
      routines = routine :: rest := by
  obtain ⟨header, routine, c₁, begun', rest, hheader, hroutine, hrest, hroutines⟩ :=
    emitFunctions_cons_defines h
  exact ⟨header, routine, c₁, begun', rest, hheader, hroutine.lines, hrest, hroutines⟩

theorem CompileUnit.lower_defines {unit : CompileUnit} {options : Options} {m : Module}
    (h : unit.lower scopes options = .ok m) :
    ∃ begun routines c script c', emitFunctions scopes (unit.functions.map (·.name)) unit.functions
        {} = (begun, .ok (routines, c)) ∧
      script.Defines ⟨scopes, unit.functions.map (·.name), .script⟩ (scriptHeader options)
        unit.script.body c c' ∧
      m.routines = routines ++ [script] ∧
      m.declares = RuntimeRoutine.all.filter (· ∈ c'.used) := by
  unfold CompileUnit.lower CompileUnit.lowering at h
  simp only at h
  split at h
  · cases h
  · rename_i begun routines c hfns
    split at h
    · cases h
    · rename_i script _ c' hscript
      cases h
      exact ⟨begun, routines, c, script, c', hfns, emitWithHeader_eq_ok hscript, rfl, rfl⟩

theorem CompileUnit.lower_eq_ok {unit : CompileUnit} {options : Options} {m : Module}
    (h : unit.lower scopes options = .ok m) :
    ∃ begun routines c script c', emitFunctions scopes (unit.functions.map (·.name)) unit.functions
        {} = (begun, .ok (routines, c)) ∧
      script.From ⟨scopes, unit.functions.map (·.name), .script⟩ [] unit.script.body c c' ∧
      m.routines = routines ++ [script] := by
  obtain ⟨begun, routines, c, script, c', hfns, hscript, hroutines, -⟩ :=
    CompileUnit.lower_defines h
  exact ⟨begun, routines, c, script, c', hfns, hscript.lines, hroutines⟩

/-! ## Routines -/

def Local.value? (var : Local) : Option ValueName :=
  var.handle.map (.variable var.name)

theorem emitCells_segment {allowed : Label → Prop} {vars : List Local}
    (h : emitCells vars c = .ok ((), lines, c')) :
    Segment allowed [] (vars.filterMap Local.value?) c lines c' := by
  induction vars generalizing c lines with
  | nil =>
    cases h
    exact .nil
  | cons var vars ih =>
    unfold emitCells at h
    obtain ⟨id, _, _, _, hof, h₁, rfl⟩ := Emit.bind_eq_ok.mp h
    obtain ⟨hid, rfl, rfl⟩ := ofExcept_eq_ok.mp hof
    obtain ⟨_, _, _, _, hslot, h₂, rfl⟩ := Emit.bind_eq_ok.mp h₁
    obtain ⟨-, rfl, rfl⟩ := ofExcept_eq_ok.mp hslot
    obtain ⟨ty, _, _, _, hty, h₃, rfl⟩ := Emit.bind_eq_ok.mp h₂
    obtain ⟨-, rfl, rfl⟩ := ofExcept_eq_ok.mp hty
    obtain ⟨_, h₄, rfl⟩ := Emit.bind_eq_ok_of_apply (emit_apply _ _) h₃
    have hvalue : var.value? = some (.variable var.name id) := by
      rw [Local.value?, demand_eq_ok.mp hid]
      rfl
    rw [List.filterMap_cons_some hvalue]
    exact (Segment.emit _ (i := .assign _ (.alloca ty)) rfl).append (ih h₄)

theorem emitEpilogue_eq (kind : RoutineKind) :
    ∃ value, emitEpilogue kind = terminate (.ret value) := by
  cases kind with
  | script => exact ⟨_, rfl⟩
  | function ret => cases ret <;> exact ⟨_, rfl⟩

theorem emitRoutine_eq_ok (h : emitRoutine ctx body c = .ok ((), lines, c')) :
    ∃ cellLines c₁ bodyLines c₂ last,
      emitCells body.locals (c.enter .entry) = .ok ((), cellLines, c₁) ∧
      body.emit ctx none c₁ = .ok ((), bodyLines, c₂) ∧
      lines = [.label .entry] ++ (cellLines ++ (bodyLines ++ last)) ∧
      ((c₂.terminated = true ∧ last = [] ∧ c' = c₂) ∨
        (c₂.terminated = false ∧ emitEpilogue ctx.kind c₂ = .ok ((), last, c'))) := by
  unfold emitRoutine at h
  obtain ⟨_, h₁, rfl⟩ := Emit.bind_eq_ok_of_apply (openBlock_apply c .entry) h
  obtain ⟨_, cellLines, c₁, _, hcells, h₂, rfl⟩ := Emit.bind_eq_ok.mp h₁
  obtain ⟨_, bodyLines, c₂, last, hbody, h₃, rfl⟩ := Emit.bind_eq_ok.mp h₂
  obtain ⟨_, h₄, rfl⟩ := Emit.bind_eq_ok_of_apply (falls_apply c₂) h₃
  refine ⟨cellLines, c₁, bodyLines, c₂, _, hcells, hbody, rfl, ?_⟩
  cases hend : c₂.terminated with
  | true =>
    rw [hend] at h₄
    cases h₄
    exact Or.inl ⟨rfl, rfl, rfl⟩
  | false =>
    rw [hend] at h₄
    exact Or.inr ⟨rfl, h₄⟩

theorem emitRoutine_segment (h : emitRoutine ctx body c = .ok ((), lines, c')) :
    ∃ rest defs, lines = .label .entry :: rest ∧ defs.Sublist (counters body.sites) ∧
      Segment (fun _ => False) [] (body.locals.filterMap Local.value? ++ defs) (c.enter .entry) rest
        c' ∧ c'.terminated = true := by
  obtain ⟨cellLines, c₁, bodyLines, c₂, last, hcells, hbody, rfl, hlast⟩ := emitRoutine_eq_ok h
  obtain ⟨defs, hdefs, hsegment⟩ := body.emit_emitted (by simp) hbody
  have hcode : Segment (fun _ => False) [] defs c₁ bodyLines c₂ :=
    hsegment.weaken (by rintro l ⟨⟩)
  have hend : Segment (fun _ => False) [] [] c₂ last c' ∧ c'.terminated = true := by
    rcases hlast with ⟨hc, rfl, rfl⟩ | ⟨_, hret⟩
    · exact ⟨.nil, hc⟩
    · obtain ⟨value, he⟩ := emitEpilogue_eq ctx.kind
      rw [he, terminate_apply] at hret
      cases hret
      exact ⟨.terminate c₂ rfl (fun _ hm => nomatch hm), rfl⟩
  refine ⟨_, defs ++ [], rfl, by rwa [List.append_nil], ?_, hend.2⟩
  exact (emitCells_segment hcells).append (hcode.append hend.1)

theorem Fresh.not_entry {lo hi : Nat} {labels : List Label}
    (h : Fresh Label.number? lo hi labels) : .entry ∉ labels := by
  intro hm
  obtain ⟨n, hn, _⟩ := h.range _ hm
  cases hn

section

variable {routine : Routine} {rest : List Line} {defs : List ValueName} {c c' : Cursor}

theorem Segment.freshLabels (h : Segment (fun _ => False) [] defs c rest c') :
    Fresh Label.number? c.nextLabel c'.nextLabel (labelsOf rest) := by
  obtain ⟨fresh, hf, hp⟩ := h.labels
  exact hf.perm hp.symm

theorem Segment.innerLabels (hlines : routine.lines = .label .entry :: rest)
    (h : Segment (fun _ => False) [] defs c rest c') :
    routine.innerLabels = labelsOf rest := by
  unfold Routine.innerLabels Routine.blocks
  rw [readLines_labels, hlines, labelsOf_label, List.filter_cons_of_neg (by simp)]
  refine List.filter_eq_self.mpr ?_
  intro l hl
  have hne : l ≠ .entry := fun he => h.freshLabels.not_entry (he ▸ hl)
  simpa using hne

theorem Segment.wellFormed (hlines : routine.lines = .label .entry :: rest)
    (h : Segment (fun _ => False) [] defs (c.enter .entry) rest c') (hend : c'.terminated = true) :
    routine.WellFormed := by
  have hlabels : routine.blocks.map (·.label) = .entry :: labelsOf rest := by
    rw [Routine.blocks, readLines_labels, hlines, labelsOf_label]
  have hfill : ScriptLang.fill true routine.lines = some true := by
    have hrest := h.fill
    rw [hend] at hrest
    rw [hlines]
    exact hrest
  refine ⟨?_, ?_, (fill_ended hfill).2, ?_, ?_⟩
  · have hread := readLines_lines routine.lines
    rw [(fill_ended hfill).1] at hread
    exact hread
  · refine ⟨⟨.entry, (readLines rest).1⟩, (readLines rest).2, ?_, rfl⟩
    rw [Routine.blocks, hlines]
    rfl
  · have hnodup : (routine.blocks.map (·.label)).Nodup := by
      rw [hlabels]
      exact List.nodup_cons.mpr ⟨h.freshLabels.not_entry, h.freshLabels.nodup⟩
    have htexts := hnodup.map Label.text_injective
    rwa [List.map_map] at htexts
  · intro block hb l hl
    have hmem : l ∈ targetsOf routine.lines := by
      rw [targetsOf, ← readLines_instrs, List.flatMap_append, List.mem_append]
      refine Or.inr (List.mem_flatMap.mpr ?_)
      obtain ⟨i, hi, hl⟩ := List.mem_flatMap.mp hl
      exact ⟨i, List.mem_flatMap.mpr ⟨block, hb, hi⟩, hl⟩
    rw [hlines, targetsOf_label] at hmem
    obtain ⟨htarget, hlabel⟩ := h.targets l hmem
    have hblock : l ∈ routine.blocks.map (·.label) := by
      rw [hlabels]
      exact List.mem_cons_of_mem _ (hlabel.resolve_right id)
    obtain ⟨target, ht, he⟩ := List.mem_map.mp hblock
    exact ⟨⟨target, ht, he⟩, htarget⟩

end

theorem Routine.From.wellFormed {ctx : BodyContext} {params : List (IrType × ValueName)}
    {body : Block} {c c' : Cursor} {routine : Routine} (h : routine.From ctx params body c c') :
    routine.WellFormed ∧ c.nextLabel ≤ c'.nextLabel ∧
      Fresh Label.number? c.nextLabel c'.nextLabel routine.innerLabels := by
  obtain ⟨rest, defs, hlines, _, hs, hend⟩ := emitRoutine_segment h.2
  refine ⟨hs.wellFormed hlines hend, hs.labels_le, ?_⟩
  rw [hs.innerLabels hlines]
  exact hs.freshLabels

/-! ## Modules -/

theorem emitFunctions_wellFormed
    (h : emitFunctions scopes functions fns c = (begun, .ok (routines, c'))) :
    (∀ routine ∈ routines, routine.WellFormed) ∧ c.nextLabel ≤ c'.nextLabel ∧
      Fresh Label.number? c.nextLabel c'.nextLabel (routines.flatMap Routine.innerLabels) := by
  induction fns generalizing begun routines c with
  | nil =>
    cases h
    exact ⟨by simp, Nat.le_refl _, .nil⟩
  | cons fn fns ih =>
    obtain ⟨header, routine, c₁, begun', rest, -, hroutine, hrest, rfl⟩ :=
      emitFunctions_cons_eq_ok h
    obtain ⟨hw, hle, hf⟩ := hroutine.wellFormed
    obtain ⟨hws, hles, hfs⟩ := ih hrest
    refine ⟨?_, Nat.le_trans hle hles, hf.append hfs hle hles⟩
    intro r hr
    rcases List.mem_cons.mp hr with rfl | hr
    · exact hw
    · exact hws r hr

/-- Whatever lowering gives is made of well-formed basic blocks, and no two blocks of the module
but the entries have the same label. -/
theorem lower_wellFormed {unit : CompileUnit} {scopes : ScopeTree} {options : Options} {m : Module}
    (h : unit.lower scopes options = .ok m) :
    (∀ routine ∈ m.routines, routine.WellFormed) ∧
      ((m.routines.flatMap Routine.innerLabels).map Label.text).Nodup := by
  obtain ⟨begun, routines, c, script, c', hfns, hscript, hroutines⟩ := CompileUnit.lower_eq_ok h
  obtain ⟨hws, hles, hfs⟩ := emitFunctions_wellFormed hfns
  obtain ⟨hw, hle, hf⟩ := hscript.wellFormed
  rw [hroutines]
  refine ⟨?_, ?_⟩
  · intro r hr
    rcases List.mem_append.mp hr with hr | hr
    · exact hws r hr
    · exact List.mem_singleton.mp hr ▸ hw
  · rw [List.flatMap_append, List.flatMap_cons, List.flatMap_nil, List.append_nil]
    exact (hfs.append hf hles hle).nodup.map Label.text_injective

/-- Leaves a loop in both arms of a branch, and once more where control does not get. -/
def leaving : CompileUnit where
  functions := []
  script :=
    { name := "main"
      body := {
        stmts := [
          .whileLoop (.lit (.bool true) {} (some .bool)) {
            stmts := [
              .branch [.lit (.bool false) {} (some .bool)] [
                { stmts := [], brk := some {} },
                { stmts := [], ret := some { value := .lit (.int 1) {} (some .int) } }]]
            brk := some {} }] } }

theorem lower_wellFormed_leaving :
    ∃ m, leaving.lower {} {} = .ok m ∧ m.routines.flatMap Routine.innerLabels =
        [.head 0, .body 0, .thenArm 1, .elseArm 1, .dead 2, .cont 0] ∧
      ∀ routine ∈ m.routines, routine.WellFormed := by
  have hlabels : (leaving.lower {} {}).map (fun m => m.routines.flatMap Routine.innerLabels) =
      .ok [.head 0, .body 0, .thenArm 1, .elseArm 1, .dead 2, .cont 0] := by
    decide +kernel
  cases h : leaving.lower {} {} with
  | error halt =>
    rw [h] at hlabels
    cases hlabels
  | ok m =>
    rw [h] at hlabels
    exact ⟨m, rfl, Except.ok.inj hlabels, (lower_wellFormed h).1⟩

end ScriptLang
