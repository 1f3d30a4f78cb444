import ScriptLang.Proofs.BlockStructure
import ScriptLang.Proofs.LoopSites

/-!
# Predecessors of loop heads

In every routine that lowering gives, for whatever tree, the `phi` instructions are those of the
counting loops, and the one at the head of a loop lists each block that jumps there just once.
-/

namespace ScriptLang

open Emit

/-! ## Predecessors -/

/-- The blocks from whose end control can go to a label. -/
def Routine.predecessors (routine : Routine) (l : Label) : List Label :=
  (routine.blocks.filter (l ∈ ·.successors)).map (·.label)

section

variable {routine : Routine} {l : Label} {before after body : List Line}

theorem edges_instrs (block : Label) (instrs : List Instr) :
    edges block (instrs.map .instr) = (instrs.flatMap Instr.targets).map (block, ·) := by
  induction instrs with
  | nil => rfl
  | cons i instrs ih => rw [List.map_cons, edges, ih, List.flatMap_cons, List.map_append]

theorem sources_blocks (target first : Label) (blocks : List BasicBlock) :
    sources target first (blocks.flatMap BasicBlock.lines) =
      blocks.flatMap fun block =>
        (block.successors.filter (· = target)).map fun _ => block.label := by
  induction blocks generalizing first with
  | nil => rfl
  | cons block blocks ih =>
    rw [List.flatMap_cons, List.flatMap_cons, sources_append, ih]
    congr 1
    rw [sources, BasicBlock.lines, edges, edges_instrs, List.filter_map, List.map_map]
    rfl

theorem Routine.WellFormed.predecessors_eq (hw : routine.WellFormed)
    (hn : (sources l .entry routine.lines).Nodup) :
    routine.predecessors l = sources l .entry routine.lines := by
  rw [hw.lines, sources_blocks] at hn ⊢
  have hjumps : ∀ block ∈ routine.blocks,
      (block.successors.filter (· = l)).map (fun _ => block.label) =
        if l ∈ block.successors then [block.label] else [] := by
    intro block hb
    have hone := (List.nodup_flatMap.mp hn).1 block hb
    cases hs : block.successors.filter (· = l) with
    | nil =>
      have hnot : l ∉ block.successors := fun hm => by simpa using List.filter_eq_nil_iff.mp hs l hm
      rw [if_neg hnot, List.map_nil]
    | cons first rest =>
      have hfirst : first ∈ block.successors.filter (· = l) := hs ▸ List.mem_cons_self
      obtain ⟨hm, he⟩ := List.mem_filter.mp hfirst
      obtain rfl : first = l := by simpa using he
      rw [hs, List.map_cons, List.nodup_cons] at hone
      have hrest : rest = [] := by
        cases rest with
        | nil => rfl
        | cons second rest => exact absurd List.mem_cons_self hone.1
      rw [if_pos hm, hrest, List.map_cons, List.map_nil]
  rw [List.flatMap_congr hjumps]
  unfold Routine.predecessors
  induction routine.blocks with
  | nil => rfl
  | cons block blocks ih =>
    rw [List.filter_cons, List.flatMap_cons, ← ih]
    by_cases hm : l ∈ block.successors <;> simp [hm]

theorem mem_readLines (instrs : List Instr) (l' : Label) :
    ⟨l, instrs⟩ ∈
      (readLines (before ++ (.label l :: (instrs.map .instr ++ .label l' :: after)))).2 := by
  have hlead : (readLines (instrs.map .instr ++ .label l' :: after)).1 = instrs := by
    induction instrs with
    | nil => rfl
    | cons i instrs ih => exact congrArg (i :: ·) ih
  induction before with
  | nil =>
    rw [List.nil_append, readLines, hlead]
    exact List.mem_cons_self
  | cons line before ih =>
    cases line with
    | label l' => exact List.mem_cons_of_mem _ ih
    | instr i => exact ih

theorem exists_last_block (block : Label) (lines : List Line) :
    ∃ (before : List Line) (instrs : List Instr),
      .label block :: lines = before ++ (.label (blockAfter block lines) :: instrs.map .instr) := by
  induction lines generalizing block with
  | nil => exact ⟨[], [], rfl⟩
  | cons line lines ih =>
    cases line with
    | label l =>
      obtain ⟨before, instrs, he⟩ := ih l
      exact ⟨.label block :: before, instrs, congrArg (.label block :: ·) he⟩
    | instr i =>
      obtain ⟨before, instrs, he⟩ := ih block
      rw [blockAfter]
      generalize blockAfter block lines = last at he ⊢
      cases before with
      | nil =>
        obtain ⟨rfl, rfl⟩ : block = last ∧ lines = instrs.map .instr := by simpa using he
        exact ⟨[], i :: instrs, rfl⟩
      | cons first before =>
        obtain ⟨rfl, rfl⟩ := List.cons.inj he
        exact ⟨.label block :: .instr i :: before, instrs, rfl⟩

end

/-! ## Loops in a routine -/

/-- The loop stands in the routine after the block from which it is entered. The blocks that jump to
its head are those that the `phi` there lists, each once, and the one that comes back from the body
is where the loop variable is counted up. -/
structure LoopSite.Stands (site : LoopSite) (routine : Routine) : Prop where
  formed : site.Formed
  layout : ∃ before after,
    routine.lines = before ++ (.instr (.br (.head site.id)) :: (site.lines ++ after)) ∧
      blockAfter .entry before = site.pred
  head : ⟨.head site.id, site.head⟩ ∈ routine.blocks
  predecessors : routine.predecessors (.head site.id) = site.incoming.map (·.2)
  once : (site.incoming.map (·.2)).Nodup
  back : ∀ tail, site.tail = some tail →
    ∃ instrs, ⟨tail, instrs ++ [site.step, .br (.head site.id)]⟩ ∈ routine.blocks

section

variable {routine : Routine} {site : LoopSite} {lo hi : Nat}

theorem Routine.WellFormed.labels_nodup (hw : routine.WellFormed) :
    (labelsOf routine.lines).Nodup := by
  have hd : ((routine.blocks.map (·.label)).map Label.text).Nodup := by
    rw [List.map_map]
    exact hw.distinct
  rw [← readLines_labels]
  exact hd.of_map

theorem Routine.WellFormed.lines_eq (hw : routine.WellFormed) :
    ∃ rest, routine.lines = .label .entry :: rest := by
  obtain ⟨first, rest, hblocks, hentry⟩ := hw.entry
  refine ⟨first.instrs.map .instr ++ rest.flatMap BasicBlock.lines, ?_⟩
  rw [hw.lines, hblocks, List.flatMap_cons, BasicBlock.lines, hentry]
  rfl

theorem LoopSite.In.pred_ne (h : site.In lo hi .entry routine.lines) (hw : routine.WellFormed)
    {tail : Label} (ht : site.tail = some tail) : site.pred ≠ tail := by
  obtain ⟨before, after, hlines, hpred⟩ := h.layout
  have hbefore : site.pred ∈ labelsOf before := by
    rw [← hpred]
    rcases blockAfter_mem .entry before with he | hm
    · obtain ⟨rest, hfirst⟩ := hw.lines_eq
      rw [hlines] at hfirst
      cases before with
      | nil => cases (List.cons.inj hfirst).1
      | cons line before =>
        rw [he, (List.cons.inj hfirst).1, labelsOf_label]
        exact List.mem_cons_self
    · exact hm
  have hafter : tail ∈ labelsOf site.lines := by
    have hends := h.formed.tail
    rw [ht] at hends
    have hin : tail = .body site.id ∨ tail ∈ labelsOf site.body := by
      split at hends
      · cases hends
      · rw [Option.some.inj hends]
        exact blockAfter_mem _ _
    rw [LoopSite.lines]
    simp only [labelsOf_label, labelsOf_append, List.mem_cons, List.mem_append]
    tauto
  have hn := hw.labels_nodup
  rw [hlines, labelsOf_append, labelsOf_instr, labelsOf_append] at hn
  rintro rfl
  exact (List.nodup_append.mp hn).2.2 _ hbefore _ (List.mem_append_left _ hafter) rfl

theorem LoopSite.incoming_labels (site : LoopSite) :
    site.incoming.map (·.2) = site.pred :: site.tail.toList := by
  unfold LoopSite.incoming loopIncoming
  cases site.tail <;> rfl

theorem LoopSite.In.stands (h : site.In lo hi .entry routine.lines) (hw : routine.WellFormed) :
    site.Stands routine := by
  have honce : (site.incoming.map (·.2)).Nodup := by
    rw [site.incoming_labels]
    cases ht : site.tail with
    | none => exact List.nodup_singleton _
    | some tail => simpa using h.pred_ne hw ht
  obtain ⟨before, after, hlines, hpred⟩ := h.layout
  refine ⟨h.formed, ⟨before, after, hlines, hpred⟩, ?_, ?_, honce, ?_⟩
  · have hhead : routine.lines = (before ++ [.instr (.br (.head site.id))]) ++
        (.label (.head site.id) :: (site.head.map .instr ++ .label (.body site.id) ::
          (site.body ++ (site.back ++ [.label (.cont site.id)]) ++ after))) := by
      simp [hlines, LoopSite.lines]
    rw [Routine.blocks, hhead]
    exact mem_readLines _ _
  · rw [site.incoming_labels, ← h.sources] at honce ⊢
    exact hw.predecessors_eq honce
  · intro tail ht
    have hends := h.formed.tail
    rw [ht] at hends
    obtain ⟨inner, instrs, hbody⟩ := exists_last_block (.body site.id) site.body
    have htail : tail = blockAfter (.body site.id) site.body := by
      split at hends
      · cases hends
      · exact Option.some.inj hends
    rw [← htail] at hbody
    refine ⟨instrs, ?_⟩
    have hback : routine.lines = (before ++ .instr (.br (.head site.id)) ::
        .label (.head site.id) :: site.head.map .instr ++ inner) ++
          (.label tail :: ((instrs ++ [site.step, .br (.head site.id)]).map .instr ++
            .label (.cont site.id) :: after)) := by
      have hsite : site.lines = .label (.head site.id) :: (site.head.map .instr ++
          ((.label (.body site.id) :: site.body) ++ (site.back ++ [.label (.cont site.id)]))) := by
        simp [LoopSite.lines]
      have hway : site.back = [site.step, .br (.head site.id)].map .instr := by
        rw [LoopSite.back, ht]
        rfl
      rw [hlines, hsite, hbody, hway]
      simp
    rw [Routine.blocks, hback]
    exact mem_readLines _ _

end

/-! ## Routines and units -/

/-- The counting loops of a routine that is emitted from the given cursor. -/
def Block.routineLoopSites (ctx : BodyContext) (body : Block) (c : Cursor) :
    Except Halt (List LoopSite) := do
  let (_, _, c) ← emitCells body.locals (c.enter .entry)
  body.loopSites ctx none c

def functionLoopSites (scopes : ScopeTree) (functions : List String) :
    List FnDef → Cursor → Except Halt (List (List LoopSite) × Cursor)
  | [], c => return ([], c)
  | fn :: fns, c => do
    let header ← fn.header scopes functions
    let ctx : BodyContext := ⟨scopes, functions, .function header.ret⟩
    let sites ← fn.body.routineLoopSites ctx c
    let (_, _, c) ← emitRoutine ctx fn.body c
    let (rest, c) ← functionLoopSites scopes functions fns c
    return (sites :: rest, c)

/-- The counting loops of a unit, for each of its routines. -/
def CompileUnit.loopSites (unit : CompileUnit) (scopes : ScopeTree) :
    Except Halt (List (List LoopSite)) := do
  let functions := unit.functions.map (·.name)
  let (sites, c) ← functionLoopSites scopes functions unit.functions {}
  let last ← unit.script.body.routineLoopSites ⟨scopes, functions, .script⟩ c
  return sites ++ [last]

/-- The `phi` instructions of the routine are those of the loops, which stand in it. -/
structure Routine.HasLoops (routine : Routine) (sites : List LoopSite) : Prop where
  phis : phisOf routine.lines = sites.map LoopSite.phi
  stands : ∀ site ∈ sites, site.Stands routine

theorem phiFree_emitCells (vars : List Local) : PhiFree (emitCells vars) fun _ => True := by
  induction vars with
  | nil => exact .pure trivial
  | cons var vars ih =>
    unfold emitCells
    refine (PhiFree.check _).bind fun _ _ => (PhiFree.check _).bind fun _ _ => ?_
    exact (PhiFree.check _).bind fun _ _ => (PhiFree.emit rfl).bind fun _ _ => ih

theorem Routine.From.hasLoops {ctx : BodyContext} {params : List (IrType × ValueName)}
    {body : Block} {c c' : Cursor} {routine : Routine} (h : routine.From ctx params body c c') :
    ∃ sites, body.routineLoopSites ctx c = .ok sites ∧ routine.HasLoops sites := by
  have hw := h.wellFormed.1
  obtain ⟨cellLines, c₁, bodyLines, c₂, last, hcells, hbody, hlines, hlast⟩ := emitRoutine_eq_ok h.2
  obtain ⟨sites, hsites, hphis, hin⟩ := body.loopSites_in (by rintro l ⟨⟩) hbody
  have hcellsSegment : Segment (fun _ => False) [] _ (c.enter .entry) cellLines c₁ :=
    emitCells_segment hcells
  have hend : targetsOf last = [] ∧ phisOf last = [] := by
    rcases hlast with ⟨_, rfl, _⟩ | ⟨_, hret⟩
    · exact ⟨rfl, rfl⟩
    · obtain ⟨value, he⟩ := emitEpilogue_eq ctx.kind
      rw [he, terminate_apply] at hret
      cases hret
      simp [Instr.targets, Line.phi?]
  refine ⟨sites, ScriptLang.bind_eq_ok.mpr ⟨_, hcells, hsites⟩, ?_, ?_⟩
  · rw [hlines, phisOf_append, phisOf_append, phisOf_append, hphis, hend.2,
      (phiFree_emitCells _ _ _ _ _ hcells).1, phisOf_label, phisOf_nil, List.append_nil]
    rfl
  · intro site hm
    have hsite := hin site hm
    rw [hcellsSegment.block] at hsite
    have hquiet : .head site.id ∉ targetsOf last := hend.1 ▸ List.not_mem_nil
    have hfirst : .head site.id ∉ targetsOf cellLines :=
      hcellsSegment.head_not_target id (.inr hsite.first)
    have hplace : site.In c₁.nextLabel c₂.nextLabel .entry routine.lines := by
      rw [hlines]
      exact .label (.append_left (hsite.append_right hquiet) hfirst)
    exact hplace.stands hw

theorem functionLoopSites_eq_ok {scopes : ScopeTree} {functions begun : List String}
    {fns : List FnDef} {routines : List Routine} {c c' : Cursor}
    (h : emitFunctions scopes functions fns c = (begun, .ok (routines, c'))) :
    ∃ sites, functionLoopSites scopes functions fns c = .ok (sites, c') ∧
      List.Forall₂ (fun routine loops => routine.WellFormed ∧ routine.HasLoops loops)
        routines sites := by
  induction fns generalizing begun routines c with
  | nil =>
    cases h
    exact ⟨[], rfl, .nil⟩
  | cons fn fns ih =>
    obtain ⟨header, routine, c₁, begun', rest, hheader, hroutine, hrest, rfl⟩ :=
      emitFunctions_cons_eq_ok h
    obtain ⟨sites, hsites, hloops⟩ := hroutine.hasLoops
    obtain ⟨more, hmore, hall⟩ := ih hrest
    refine ⟨sites :: more, ?_, .cons ⟨hroutine.wellFormed.1, hloops⟩ hall⟩
    exact ScriptLang.bind_eq_ok.mpr ⟨header, hheader, ScriptLang.bind_eq_ok.mpr ⟨sites, hsites,
      ScriptLang.bind_eq_ok.mpr ⟨_, hroutine.2, ScriptLang.bind_eq_ok.mpr ⟨_, hmore, rfl⟩⟩⟩⟩

theorem CompileUnit.lower_hasLoops {unit : CompileUnit} {scopes : ScopeTree} {options : Options}
    {m : Module} (h : unit.lower scopes options = .ok m) :
    ∃ sites, unit.loopSites scopes = .ok sites ∧
      List.Forall₂ (fun routine loops => routine.WellFormed ∧ routine.HasLoops loops)
        m.routines sites := by
  obtain ⟨begun, routines, c, script, c', hfns, hscript, hroutines⟩ := CompileUnit.lower_eq_ok h
  obtain ⟨sites, hsites, hall⟩ := functionLoopSites_eq_ok hfns
  obtain ⟨last, hlast, hloops⟩ := hscript.hasLoops
  refine ⟨sites ++ [last], ?_, ?_⟩
  · exact ScriptLang.bind_eq_ok.mpr ⟨_, hsites, ScriptLang.bind_eq_ok.mpr ⟨last, hlast, rfl⟩⟩
  · rw [hroutines]
    exact List.rel_append hall (.cons ⟨hscript.wellFormed.1, hloops⟩ .nil)

/-- Whatever lowering gives, the `phi` instructions of each routine are those of its counting loops,
in order. The head of such a loop is entered from the block that was open before it, with the lower
bound, and, unless the body has ended, from the block that is open at the end of the body, with the
number that is counted up there. -/
theorem lower_phi_predecessors {unit : CompileUnit} {scopes : ScopeTree} {options : Options}
    {m : Module} (h : unit.lower scopes options = .ok m) :
    ∃ sites, unit.loopSites scopes = .ok sites ∧
      List.Forall₂ Routine.HasLoops m.routines sites := by
  obtain ⟨sites, hsites, hall⟩ := unit.lower_hasLoops h
  exact ⟨sites, hsites, hall.imp fun _ _ hloops => hloops.2⟩

/-- A loop whose body ends after another loop, which is left in its first turn. -/
def turning : CompileUnit where
  functions := []
  script :=
    { name := "main"
      body := {
        stmts := [
          .forLoop "i" (.lit (.int 1) {} (some .int)) (.lit (.int 9) {} (some .int)) {
            stmts := [
              .branch [.lit (.bool true) {} (some .bool)] [
                { stmts := [] },
                { stmts := [], ret := some { value := .lit (.int 1) {} (some .int) } }],
              .forLoop "j" (.lit (.int 2) {} (some .int)) (.lit (.int 8) {} (some .int))
                { stmts := [], brk := some {} } {} (some 1)] } {} (some 0)] } }

theorem lower_phi_predecessors_turning :
    ∃ m sites, turning.lower {} {} = .ok m ∧ turning.loopSites {} = .ok sites ∧
      sites.map (·.map fun site => (site.id, site.pred, site.tail)) =
        [[(0, .entry, some (.cont 2)), (2, .cont 1, none)]] ∧
      List.Forall₂ Routine.HasLoops m.routines sites := by
  have hends : (turning.loopSites {}).map
      (·.map (·.map fun site => (site.id, site.pred, site.tail))) =
        .ok [[(0, .entry, some (.cont 2)), (2, .cont 1, none)]] := by
    decide +kernel
  have hlower : (turning.lower {} {}).isOk = true := by
    decide +kernel
  cases h : turning.lower {} {} with
  | error halt =>
    rw [h] at hlower
    cases hlower
  | ok m =>
    obtain ⟨sites, hsites, hloops⟩ := lower_phi_predecessors h
    rw [hsites] at hends
    exact ⟨m, sites, rfl, hsites, Except.ok.inj hends, hloops⟩

end ScriptLang
