import ScriptLang.Proofs.BodySimulation
import ScriptLang.Proofs.Predecessors

/-!
# What a counting loop leaves alone

In a compiled unit nothing in a counting loop assigns to what its limit is made of, and only the
head assigns to the loop variable. So a loop compares with the same limit in every turn, and counts
up from the number with which the turn began.
-/

namespace ScriptLang

open Emit

/-! ## Operands of expressions -/

section

variable {ctx : BodyContext} {env : Env} {known : List ValueName} {c c' : Cursor}
  {lines : List Line} {o : Operand}

theorem emitCall_pending {name : String} {args : List (IrType × Operand)} {ret : IrType}
    {span : Span} {value : Value} (h : emitCall ctx name args ret span c = .ok (value, lines, c')) :
    ∃ computation, value = .pending computation := by
  unfold emitCall at h
  by_cases huser : ctx.isUserFunction name = true
  · simp only [huser, if_true] at h
    cases h
    exact ⟨_, rfl⟩
  · simp only [huser] at h
    cases hnative : Native.find? name (args.map (·.1)) with
    | some native =>
      rw [hnative] at h
      obtain ⟨_, _, _, _, -, hpure, -⟩ := Emit.bind_eq_ok.mp h
      cases hpure
      exact ⟨_, rfl⟩
    | none =>
      cases hruntime : RuntimeRoutine.find? name (args.map (·.1)) with
      | some routine =>
        rw [hnative, hruntime] at h
        obtain ⟨_, _, _, _, -, hpure, -⟩ := Emit.bind_eq_ok.mp h
        cases hpure
        exact ⟨_, rfl⟩
      | none =>
        rw [hnative, hruntime] at h
        cases h

theorem Expr.emitValue_operand {expr : Expr} (hr : expr.Resolved env) (he : env.KnownIn known)
    (h : expr.emitValue ctx c = .ok (.operand o, lines, c')) (n : Nat) : o.Within known n := by
  cases expr with
  | lit value span slot =>
    unfold Expr.emitValue at h
    obtain ⟨_, _, _, _, -, hpure, -⟩ := Emit.bind_eq_ok.mp h
    cases hpure
    exact fun _ hv => absurd hv List.not_mem_nil
  | var name handle span slot =>
    unfold Expr.emitValue at h
    obtain ⟨_, _, _, _, -, hvar, -⟩ := Emit.bind_eq_ok.mp h
    obtain ⟨hvalue, -, -⟩ := ofExcept_eq_ok.mp hvar
    obtain ⟨id, rfl, hlookup⟩ := hr
    simp only [emitVariable, demand, ScriptLang.bind_eq_ok] at hvalue
    obtain ⟨_, ⟨⟩, var, -, hvalue⟩ := hvalue
    split at hvalue
    · cases hvalue
    · cases hvalue
      intro v hv
      rw [List.mem_singleton.mp hv]
      exact ⟨ValueName.below_variable _ _ _, fun _ => he _ (Env.mem_of_lookup hlookup)⟩
  | call name args span slot =>
    unfold Expr.emitValue at h
    obtain ⟨_, _, _, _, -, h₁, -⟩ := Emit.bind_eq_ok.mp h
    obtain ⟨done, _, c₁, _, -, hcall, -⟩ := Emit.bind_eq_ok.mp h₁
    obtain ⟨_, hpending⟩ := emitCall_pending hcall
    cases hpending

theorem Cursor.nextReg_opened (c : Cursor) : c.opened.nextReg = c.nextReg := by
  unfold Cursor.opened
  split <;> rfl

theorem Expr.emitOperand_within {expr : Expr} (hr : expr.Resolved env) (he : env.KnownIn known)
    (h : expr.emitOperand ctx c = .ok (o, lines, c')) : o.Within known c'.nextReg := by
  obtain ⟨value, _, c₁, _, hvalue, hoperand, -⟩ := Emit.bind_eq_ok.mp h
  cases value with
  | operand o' =>
    obtain ⟨rfl, -, rfl⟩ := pure_eq_ok.mp hoperand
    exact Expr.emitValue_operand hr he hvalue _
  | pending computation =>
    obtain ⟨_, h₁, -⟩ := bind_eq_ok_of_apply (freshReg_apply c₁) hoperand
    obtain ⟨_, h₂, -⟩ := bind_eq_ok_of_apply (emit_apply _ _) h₁
    obtain ⟨rfl, -, rfl⟩ := pure_eq_ok.mp h₂
    rw [Cursor.nextReg_opened]
    exact Operand.within_reg known _

end

/-! ## Steady loops -/

/-- The body assigns neither to the loop variable nor to the next number, and nothing in the loop
assigns to what the limit is made of. -/
structure LoopSite.Steady (site : LoopSite) : Prop where
  counter : site.counter ∉ site.next :: site.cmp :: definedIn (instrsOf site.body)
  next : site.next ∉ definedIn (instrsOf site.body)
  limit : ∀ v ∈ site.limit.uses,
    v ∉ site.counter :: site.next :: site.cmp :: definedIn (instrsOf site.body)

theorem Emitted.defined {exit : Option Label} {sites : List Site} {c c' : Cursor}
    {lines : List Line} (h : Emitted exit sites c lines c') {v : ValueName}
    (hv : v ∈ definedIn (instrsOf lines)) :
    v ∈ counters sites ∨ ∃ k, v = .reg k ∧ c.nextReg ≤ k := by
  obtain ⟨defs, hdefs, hs⟩ := h
  obtain ⟨fresh, hf, hp⟩ := hs.values
  rcases List.mem_append.mp (hp.mem_iff.mp hv) with hv | hv
  · exact Or.inl (hdefs.subset hv)
  · obtain ⟨k, hk, hle, -⟩ := hf.range v hv
    rcases v with n | ⟨name, id⟩
    · cases hk
      exact Or.inr ⟨_, rfl, hle⟩
    · cases hk

theorem LoopSite.Steady.of_apart {site : LoopSite} {known : List ValueName} {sites : List Site}
    {n : Nat} (hcounter : site.counter ∉ known ∧ site.counter ∉ counters sites)
    (hname : site.counter.number? = none) (hnext : site.next = .reg n)
    (hcmp : site.cmp = .reg (n + 1)) (hapart : Apart known sites)
    (hlimit : site.limit.Within known n)
    (hbody : ∀ v ∈ definedIn (instrsOf site.body),
      v ∈ counters sites ∨ ∃ k, v = .reg k ∧ n + 2 ≤ k) : site.Steady := by
  have hreg (k : Nat) : site.counter ≠ .reg k := by
    intro he
    rw [he] at hname
    cases hname
  refine ⟨?_, ?_, ?_⟩
  · rw [hnext, hcmp]
    simp only [List.mem_cons, not_or]
    refine ⟨hreg _, hreg _, fun hm => ?_⟩
    rcases hbody _ hm with hm | ⟨k, hk, -⟩
    · exact hcounter.2 hm
    · exact hreg k hk
  · rw [hnext]
    intro hm
    rcases hbody _ hm with hm | ⟨k, hk, hle⟩
    · cases number_of_mem_counters hm
    · cases hk
      omega
  · intro v hv hm
    obtain ⟨hbelow, hknown⟩ := hlimit v hv
    have hsmall (k : Nat) (he : v = .reg k) : k < n := hbelow k (by rw [he]; rfl)
    rw [hnext, hcmp] at hm
    simp only [List.mem_cons] at hm
    rcases hm with rfl | he | he | hm
    · exact hcounter.1 (hknown hname)
    · exact absurd (hsmall _ he) (Nat.lt_irrefl n)
    · exact absurd (hsmall _ he) (by omega)
    · rcases hbody v hm with hm | ⟨k, hk, hle⟩
      · exact hapart.known v (hknown (number_of_mem_counters hm)) hm
      · have := hsmall k hk
        omega

mutual
theorem Stmt.loopSites_steady {ctx : BodyContext} : ∀ (stmt : Stmt) {env : Env}
    {known : List ValueName} {exit : Option Label} {c : Cursor} {sites : List LoopSite},
    stmt.Resolved env → env.KnownIn known → cells stmt.sites ⊆ known → Apart known stmt.sites →
    stmt.loopSites ctx exit c = .ok sites → ∀ site ∈ sites, site.Steady
  | .decl .., _, _, _, _, _, _, _, _, _, h => by
    cases h
    exact List.forall_mem_nil _
  | .assign .., _, _, _, _, _, _, _, _, _, h => by
    cases h
    exact List.forall_mem_nil _
  | .branch conds blocks _, _, _, _, _, _, hr, he, hcells, hapart, h =>
    armLoopSites_steady blocks conds hr.2.2 he hcells hapart h
  | .forLoop _ _ _ body _ _, _, known, _, _, _, hr, he, hcells, hapart, h => by
    obtain ⟨hrlo, hrhi, decl, rfl, hrbody⟩ := hr
    unfold Stmt.loopSites at h
    obtain ⟨_, ⟨⟩, h⟩ := ScriptLang.bind_eq_ok.mp h
    obtain ⟨⟨start, loLines, c₁⟩, hlo, h⟩ := ScriptLang.bind_eq_ok.mp h
    obtain ⟨⟨limit, hiLines, c₂⟩, hhi, h⟩ := ScriptLang.bind_eq_ok.mp h
    obtain ⟨⟨_, lines, c₃⟩, hbody, h⟩ := ScriptLang.bind_eq_ok.mp h
    obtain ⟨inner, hinner, h⟩ := ScriptLang.bind_eq_ok.mp h
    cases h
    obtain ⟨hnew, hnot, hapart₁, hapart₂⟩ := hapart.turn rfl
    refine List.forall_mem_cons.mpr ⟨?_, ?_⟩
    · have hlimit : limit.Within known c₂.opened.nextReg := by
        rw [Cursor.nextReg_opened]
        exact Expr.emitOperand_within hrhi he hhi
      exact .of_apart ⟨hnew, hnot⟩ rfl rfl rfl hapart₁ hlimit fun v hv =>
        (body.emit_emitted (leaving_cont _).isTarget hbody).defined hv
    · exact body.loopSites_steady hrbody he.cons
        (List.Subset.trans hcells (List.subset_cons_self _ _)) hapart₂ hinner
  | .whileLoop _ body _, _, _, _, _, _, hr, he, hcells, hapart, h => by
    unfold Stmt.loopSites at h
    obtain ⟨⟨_, _, c₁⟩, -, h⟩ := ScriptLang.bind_eq_ok.mp h
    exact body.loopSites_steady hr.2 he hcells hapart h
  | .call _, _, _, _, _, _, _, _, _, _, h => by
    cases h
    exact List.forall_mem_nil _
theorem Block.loopSites_steady {ctx : BodyContext} : ∀ (block : Block) {env : Env}
    {known : List ValueName} {exit : Option Label} {c : Cursor} {sites : List LoopSite},
    block.Resolved env → env.KnownIn known → cells block.sites ⊆ known → Apart known block.sites →
    block.loopSites ctx exit c = .ok sites → ∀ site ∈ sites, site.Steady
  | ⟨stmts, _, _, _, _⟩, _, _, _, _, _, hr, he, hcells, hapart, h =>
    stmtLoopSites_steady stmts hr.1 he hcells hapart h
theorem stmtLoopSites_steady {ctx : BodyContext} : ∀ (stmts : List Stmt) {env : Env}
    {known : List ValueName} {exit : Option Label} {c : Cursor} {sites : List LoopSite},
    StmtsResolved env stmts → env.KnownIn known → cells (sitesOf stmts) ⊆ known →
    Apart known (sitesOf stmts) → stmtLoopSites ctx exit stmts c = .ok sites →
    ∀ site ∈ sites, site.Steady
  | [], _, _, _, _, _, _, _, _, _, h => by
    cases h
    exact List.forall_mem_nil _
  | stmt :: stmts, _, _, _, _, _, hr, he, hcells, hapart, h => by
    obtain ⟨hcells₁, hcells₂⟩ := cells_append_subset.mp hcells
    obtain ⟨hapart₁, hapart₂⟩ := hapart.append
    unfold stmtLoopSites at h
    obtain ⟨first, hfirst, h⟩ := ScriptLang.bind_eq_ok.mp h
    obtain ⟨⟨_, _, c₁⟩, -, h⟩ := ScriptLang.bind_eq_ok.mp h
    obtain ⟨rest, hrest, h⟩ := ScriptLang.bind_eq_ok.mp h
    cases h
    refine List.forall_mem_append.mpr ⟨stmt.loopSites_steady hr.1 he hcells₁ hapart₁ hfirst, ?_⟩
    exact stmtLoopSites_steady stmts hr.2 (stmt.extend_known he hcells₁) hcells₂ hapart₂ hrest
theorem armLoopSites_steady {ctx : BodyContext} : ∀ (blocks : List Block) (conds : List Expr)
    {env : Env} {known : List ValueName} {exit : Option Label} {c : Cursor}
    {sites : List LoopSite}, BlocksResolved env blocks → env.KnownIn known →
    cells (sitesOfBlocks blocks) ⊆ known → Apart known (sitesOfBlocks blocks) →
    armLoopSites ctx exit conds blocks c = .ok sites → ∀ site ∈ sites, site.Steady
  | [], [], _, _, _, _, _, _, _, _, _, h => by
    cases h
    exact List.forall_mem_nil _
  | [], _ :: _, _, _, _, _, _, _, _, _, _, h => by
    cases h
    exact List.forall_mem_nil _
  | _ :: _, [], _, _, _, _, _, _, _, _, _, h => by
    cases h
    exact List.forall_mem_nil _
  | block :: blocks, _ :: conds, _, _, _, _, _, hr, he, hcells, hapart, h => by
    obtain ⟨hcells₁, hcells₂⟩ := cells_append_subset.mp hcells
    obtain ⟨hapart₁, hapart₂⟩ := hapart.append
    have he' := block.extend_known he hcells₁
    unfold armLoopSites at h
    obtain ⟨⟨_, _, c₁⟩, -, h⟩ := ScriptLang.bind_eq_ok.mp h
    obtain ⟨first, hfirst, h⟩ := ScriptLang.bind_eq_ok.mp h
    obtain ⟨⟨_, _, c₂⟩, -, h⟩ := ScriptLang.bind_eq_ok.mp h
    have hsteady := block.loopSites_steady hr.1 he hcells₁ hapart₁ hfirst
    cases conds with
    | nil =>
      obtain ⟨rest, hrest, h⟩ := ScriptLang.bind_eq_ok.mp h
      cases h
      exact List.forall_mem_append.mpr
        ⟨hsteady, lastLoopSites_steady blocks hr.2 he' hcells₂ hapart₂ hrest⟩
    | cons next conds =>
      obtain ⟨rest, hrest, h⟩ := ScriptLang.bind_eq_ok.mp h
      cases h
      exact List.forall_mem_append.mpr
        ⟨hsteady, armLoopSites_steady blocks (next :: conds) hr.2 he' hcells₂ hapart₂ hrest⟩
theorem lastLoopSites_steady {ctx : BodyContext} : ∀ (blocks : List Block) {env : Env}
    {known : List ValueName} {exit : Option Label} {c : Cursor} {sites : List LoopSite},
    BlocksResolved env blocks → env.KnownIn known → cells (sitesOfBlocks blocks) ⊆ known →
    Apart known (sitesOfBlocks blocks) → lastLoopSites ctx exit blocks c = .ok sites →
    ∀ site ∈ sites, site.Steady
  | [], _, _, _, _, _, _, _, _, _, h => by
    cases h
    exact List.forall_mem_nil _
  | [block], _, _, _, _, _, hr, he, hcells, hapart, h => by
    obtain ⟨hcells₁, -⟩ := cells_append_subset.mp hcells
    exact block.loopSites_steady hr.1 he hcells₁ hapart.append.1 h
  | block :: next :: blocks, _, _, _, _, _, hr, he, hcells, hapart, h => by
    obtain ⟨hcells₁, hcells₂⟩ := cells_append_subset.mp hcells
    exact lastLoopSites_steady (next :: blocks) hr.2 (block.extend_known he hcells₁) hcells₂
      hapart.append.2 h
end

/-! ## Routines and units -/

theorem Block.routineLoopSites_steady {ctx : BodyContext} {body : Block} {c : Cursor} {env : Env}
    {params : List Site} {sites : List LoopSite} (hr : body.Resolved env)
    (he : env.KnownIn (params.filterMap Site.value?))
    (hn : ((params ++ body.sites).filterMap Site.value?).Nodup)
    (h : body.routineLoopSites ctx c = .ok sites) : ∀ site ∈ sites, site.Steady := by
  obtain ⟨⟨_, _, c₁⟩, -, h⟩ := ScriptLang.bind_eq_ok.mp h
  rw [List.filterMap_append] at hn
  have hnames : ∀ v ∈ params.filterMap Site.value?, v.number? = none := by
    intro v hv
    obtain ⟨site, -, hsite⟩ := List.mem_filterMap.mp hv
    exact Site.number_value hsite
  have hapart : Apart (cells body.sites ++ params.filterMap Site.value?) body.sites :=
    .of_nodup hnames (((values_perm body.sites).append_left _).nodup_iff.mp hn)
  exact body.loopSites_steady hr (he.mono (List.subset_append_right _ _))
    (List.subset_append_left _ _) hapart h

theorem functionLoopSites_steady {scopes : ScopeTree} {functions : List String} {fns : List FnDef}
    {c c' : Cursor} {sites : List (List LoopSite)} (hr : ∀ fn ∈ fns, fn.Resolved)
    (hn : ((fns.flatMap FnDef.sites).filterMap Site.value?).Nodup)
    (h : functionLoopSites scopes functions fns c = .ok (sites, c')) :
    ∀ loops ∈ sites, ∀ site ∈ loops, site.Steady := by
  induction fns generalizing c sites with
  | nil =>
    cases h
    exact List.forall_mem_nil _
  | cons fn fns ih =>
    rw [List.flatMap_cons, List.filterMap_append] at hn
    unfold functionLoopSites at h
    obtain ⟨header, -, h⟩ := ScriptLang.bind_eq_ok.mp h
    obtain ⟨loops, hloops, h⟩ := ScriptLang.bind_eq_ok.mp h
    obtain ⟨⟨_, _, c₁⟩, -, h⟩ := ScriptLang.bind_eq_ok.mp h
    obtain ⟨⟨rest, c₂⟩, hrest, h⟩ := ScriptLang.bind_eq_ok.mp h
    cases h
    have henv : (extendParams [] fn.params).KnownIn
        ((fn.params.map Param.site).filterMap Site.value?) :=
      extendParams_known .nil (List.Subset.refl _)
    refine List.forall_mem_cons.mpr ⟨?_, ?_⟩
    · exact Block.routineLoopSites_steady (hr fn List.mem_cons_self) henv hn.of_append_left hloops
    · exact ih (fun fn' hf => hr fn' (List.mem_cons_of_mem _ hf)) hn.of_append_right hrest

theorem CompileUnit.loopSites_steady {unit : CompileUnit} {res : Resolution}
    {sites : List (List LoopSite)} (hcheck : unit.check.result = .ok res)
    (h : unit.check.unit.loopSites res.scopes = .ok sites) :
    ∀ loops ∈ sites, ∀ site ∈ loops, site.Steady := by
  obtain ⟨hchecked, -⟩ := CompileUnit.check_spec hcheck
  have hn := hchecked.numbered.values_nodup
  rw [CompileUnit.sites, List.filterMap_append] at hn
  obtain ⟨⟨functions, c⟩, hfns, h⟩ := ScriptLang.bind_eq_ok.mp h
  obtain ⟨script, hscript, h⟩ := ScriptLang.bind_eq_ok.mp h
  cases h
  refine List.forall_mem_append.mpr ⟨?_, List.forall_mem_singleton.mpr ?_⟩
  · exact functionLoopSites_steady hchecked.functions hn.of_append_left hfns
  · have hbody : ((([] : List Site) ++ unit.check.unit.script.body.sites).filterMap
        Site.value?).Nodup :=
      hn.of_append_right
    exact Block.routineLoopSites_steady hchecked.script .nil hbody hscript

end ScriptLang
