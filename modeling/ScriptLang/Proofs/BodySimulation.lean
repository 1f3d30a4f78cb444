import ScriptLang.Proofs.Simulation

/-!
# Running the body of a routine

By induction on the tree of a body: wherever a statement stands in the code of a routine, its lines
do what running it does. Nothing is assumed about the rest of the routine but that the lines are
there and that no label stands in two places. A whole routine then does what running its body does.
-/

set_option linter.unusedSectionVars false

namespace ScriptLang

open Emit

variable {id : DeclId} {sites : List Site} {ty : Ty}

section

variable {World : Type} (m : Module) {I : Interpretation World} {ctx : BodyContext}
  {scope : ScopeId} {call : Calls World} (r : Routine) {ret : Ty}

/-- A part with the given sites stands in the code of a routine, where control can come. -/
structure Placed (env : Env) (known : List ValueName) (sites : List Site) (exit : Option Label)
    (c : Cursor) (lines : List Line) (c' : Cursor) (post : List Line) : Prop where
  env : env.KnownIn known
  cells : cells sites ⊆ known
  apart : Apart known sites
  exits : Exits r exit
  opened : c.terminated = false
  ahead : c.Ahead
  used : c'.used ⊆ m.declares
  code : lines ++ post <:+ r.lines

variable {m r} {env : Env} {known : List ValueName} {exit : Option Label} {c c' : Cursor}
  {lines post : List Line} {store : Store} {w : World} {f : Frame} {course : Course World}
  {fuel : Nat}

theorem Exits.target (h : Exits r exit) : ∀ l, exit = some l → l.IsTarget :=
  fun l hl => (h l hl).1

theorem Exits.cont {id : Nat} (h : codeAt (.cont id) r.lines = some post) :
    Exits r (some (.cont id)) := by
  intro l hl
  cases hl
  exact ⟨by simp [Label.IsTarget], post, h⟩

theorem Env.KnownIn.cons {name : String} (h : env.KnownIn known) :
    Env.KnownIn (.variable name id :: known) ((name, id) :: env) := by
  intro entry hm
  rcases List.mem_cons.mp hm with rfl | hm
  · exact List.mem_cons_self
  · exact List.mem_cons_of_mem _ (h entry hm)

theorem Apart.turn {site : Site} {counter : ValueName} (h : Apart known (site :: sites))
    (hl : counters (site :: sites) = counter :: counters sites) :
    counter ∉ known ∧ counter ∉ counters sites ∧ Apart known sites ∧
      Apart (counter :: known) sites := by
  obtain ⟨hv, hk, hn⟩ := h
  rw [hl] at hk hn
  obtain ⟨hnot, hn⟩ := List.nodup_cons.mp hn
  have hrest : ∀ v ∈ known, v ∉ counters sites := fun v hm hc => hk v hm (List.mem_cons_of_mem _ hc)
  have hname : counter.number? = none := by
    have hm : counter ∈ counters (site :: sites) := by
      rw [hl]
      exact List.mem_cons_self
    exact number_of_mem_counters hm
  refine ⟨fun hm => hk counter hm List.mem_cons_self, hnot, ⟨hv, hrest, hn⟩, ?_, ?_, hn⟩
  · exact List.forall_mem_cons.mpr ⟨hname, hv⟩
  · exact List.forall_mem_cons.mpr ⟨hnot, hrest⟩

theorem Apart.of_nodup (hv : ∀ v ∈ known, v.number? = none)
    (h : (known ++ (cells sites ++ counters sites)).Nodup) :
    Apart (cells sites ++ known) sites := by
  have hall : (cells sites ++ known ++ counters sites).Nodup := by
    rw [← List.append_assoc] at h
    exact (List.perm_append_comm.append_right _).nodup_iff.mp h
  obtain ⟨-, hn, hdisjoint⟩ := List.nodup_append.mp hall
  refine ⟨?_, fun v hm hc => hdisjoint v hm v hc rfl, hn⟩
  intro v hm
  rcases List.mem_append.mp hm with hm | hm
  · obtain ⟨site, -, hsite⟩ := List.mem_filterMap.mp hm
    exact Site.number_value hsite
  · exact hv v hm

/-! ## Statements without parts -/

theorem emitStore_arrives (hl : Running m I ctx scope call r ret) {value : Expr} {var : VarDecl}
    (hp : Placed m r env known sites exit c lines c' post)
    (hdecl : ctx.scopes.decls[id]? = some var) (hk : var.kind = .localVar)
    (hm : .variable var.name id ∈ known) (ht : value.HasType ctx.scopes scope var.ty)
    (hr : value.Resolved env) (h : emitStore ctx var.name id value c = .ok ((), lines, c'))
    (hs : f.Stands I ctx r known store c.block)
    (hrun : runStore I call (some id) value store w = some course) :
    Arrives m I ctx r ret known c.nextReg (counters sites) exit f w (lines ++ post) c' post
      course := by
  simp only [runStore, Option.bind_eq_bind, Option.bind_some, Option.bind_eq_some_iff, Prod.exists,
    Option.pure_def, Option.some.injEq] at hrun
  obtain ⟨v, w', hv, rfl⟩ := hrun
  obtain ⟨f', hruns, hf, hblock, htracks⟩ :=
    emitStore_runs hl.toLinked hp.env hdecl hk hm ht hr h hp.opened hp.used hs.tracks hv
  have hon := (regular_emitStore _ _ _ _).onward trivial h
  refine ⟨hon.opens hp.opened, f', hruns post, ⟨hf.routine.trans hs.routine, ?_, htracks⟩, ?_⟩
  · rw [hblock, hs.block, hon.block hp.opened]
  · exact hf.mono (Nat.le_refl _) (List.nil_subset _)

theorem emitBounds_runs (hl : Running m I ctx scope call r ret) (he : env.KnownIn known)
    {lo hi : Expr} (htlo : lo.HasType ctx.scopes scope .int)
    (hthi : hi.HasType ctx.scopes scope .int) (hrlo : lo.Resolved env) (hrhi : hi.Resolved env)
    {start limit : Operand} {loLines hiLines : List Line} {c₁ c₂ : Cursor}
    (hlo : lo.emitOperand ctx c = .ok (start, loLines, c₁))
    (hhi : hi.emitOperand ctx c₁ = .ok (limit, hiLines, c₂)) (hc : c.terminated = false)
    (hused : c₂.used ⊆ m.declares) (hs : f.Stands I ctx r known store c.block) {v₁ v₂ : Val}
    {w₁ w₂ : World} (hv₁ : lo.eval I call store w = some (v₁, w₁))
    (hv₂ : hi.eval I call store w₁ = some (v₂, w₂)) :
    ∃ i k f₂, v₁ = .int i ∧ v₂ = .int k ∧ m.Runs I f w (loLines ++ hiLines) f₂ w₂ ∧
      f.Extends c.nextReg f₂ ∧ f₂.Stands I ctx r known store c₂.block ∧
      f₂.operand .i64 start = some (.int i) ∧ f₂.operand .i64 limit = some (.int k) ∧
      limit.Within known c₂.nextReg := by
  have hon₁ := (lo.regular_emitOperand ctx).onward trivial hlo
  have hon₂ := (hi.regular_emitOperand ctx).onward trivial hhi
  obtain ⟨htyped₁, f₁, hruns₁, hext₁, hstart, hin₁⟩ := Expr.emitOperand_runs hl.toLinked he htlo
    hrlo (by decide) hlo hc (List.Subset.trans hon₂.used hused) hs.tracks hv₁
  have hs₁ := hs.extends hext₁
  obtain ⟨htyped₂, f₂, hruns₂, hext₂, hlimit, hin₂⟩ := Expr.emitOperand_runs hl.toLinked he hthi
    hrhi (by decide) hhi (hon₁.opens hc) hused hs₁.tracks hv₂
  obtain ⟨i, rfl⟩ := Val.eq_int htyped₁
  obtain ⟨k, rfl⟩ := Val.eq_int htyped₂
  have hblock : c₂.block = c.block := (hon₂.block (hon₁.opens hc)).trans (hon₁.block hc)
  refine ⟨i, k, f₂, rfl, rfl, hruns₁.append hruns₂, ?_, hblock ▸ hs₁.extends hext₂, ?_, hlimit,
    hin₂⟩
  · exact hext₁.trans ((lo.straight_emitOperand ctx).nextReg_le hlo) hext₂
  · exact (hext₂.operand hin₁ .i64).trans hstart

/-! ## All statements -/

section

variable (hl : Running m I ctx scope call r ret)

include hl

mutual
theorem Stmt.emit_arrives : ∀ (stmt : Stmt) {env : Env}
    {known : List ValueName} {exit : Option Label} {c c' : Cursor} {lines post : List Line},
    stmt.Resolved env → stmt.WellTyped ctx.scopes scope ret →
    Placed m r env known stmt.sites exit c lines c' post →
    stmt.emit ctx exit c = .ok ((), lines, c') →
    ∀ {store : Store} {w : World} {f : Frame} {course : Course World},
    f.Stands I ctx r known store c.block → stmt.run I call fuel store w = some course →
    Arrives m I ctx r ret known c.nextReg (counters stmt.sites) exit f w (lines ++ post) c' post
      course
  | .decl .., _, _, _, _, _, _, _, hr, ht, hp, h, _, _, _, _, hs, hrun => by
    unfold Stmt.emit at h
    unfold Stmt.run at hrun
    obtain ⟨id, var, rfl, hdecl, rfl, hk, hvalue, _, _⟩ := ht
    obtain ⟨_, h, rfl⟩ := Emit.bind_eq_ok_of_apply rfl h
    exact emitStore_arrives hl hp hdecl hk (hp.cells List.mem_cons_self) hvalue hr.1 h hs hrun
  | .assign .., env, known, _, _, _, _, _, hr, ht, hp, h, _, _, _, _, hs, hrun => by
    unfold Stmt.emit at h
    unfold Stmt.run at hrun
    obtain ⟨id, var, rfl, hdecl, rfl, hk, hvalue, _⟩ := ht
    obtain ⟨hrvalue, _, ⟨⟩, hlookup⟩ := hr
    obtain ⟨_, h, rfl⟩ := Emit.bind_eq_ok_of_apply rfl h
    have hm : .variable var.name id ∈ known := hp.env _ (Env.mem_of_lookup hlookup)
    exact emitStore_arrives hl hp hdecl hk hm hvalue hrvalue h hs hrun
  | .branch conds blocks _, env, _, _, _, _, _, _, hr, ht, hp, h, _, _, _, _, hs, hrun => by
    unfold Stmt.emit at h
    unfold Stmt.run at hrun
    exact emitArms_arrives blocks conds hr.1 hr.2.1 hr.2.2 ht.1 ht.2 hp.env hp h hs hrun
  | .forLoop name lo hi body _ _, env, known, _, _, _, _, _, hr, ht, hp, h, store, w, f, course, hs,
      hrun => by
    obtain ⟨decl, start, loLines, c₁, limit, hiLines, c₂, bodyLines, c₃, id, _, _, _, rfl, rfl,
      hid, rfl, rfl, hlo, hhi, hbody, rfl, rfl⟩ := emit_for_eq_ok h
    obtain ⟨hrlo, hrhi, _, ⟨⟩, hrbody⟩ := hr
    obtain ⟨⟨_, var, ⟨⟩, hdecl, rfl, hkind, hty⟩, htlo, hthi, htbody⟩ := ht
    simp only [Stmt.run, Option.bind_eq_bind, Option.bind_some, Option.bind_eq_some_iff,
      Prod.exists] at hrun
    obtain ⟨v₁, w₁, hv₁, v₂, w₂, hv₂, hrun⟩ := hrun
    have hopen₁ := ((lo.regular_emitOperand ctx).onward trivial hlo).opens hp.opened
    have hopen₂ := ((hi.regular_emitOperand ctx).onward trivial hhi).opens hopen₁
    have hcode := hp.code
    simp only [Cursor.opened_of_open hopen₂] at hid hbody hcode ⊢
    simp only [Cursor.line, Cursor.lead_of_open hopen₂, loopHead, List.nil_append, List.cons_append,
      List.append_assoc] at hcode ⊢
    -- No label stands twice, so a jump to the head, the body or the way out finds these lines.
    have hheadCode := suffix_of_cons (suffix_of_append (suffix_of_append hcode))
    have hbodyCode := suffix_of_cons (suffix_of_cons (suffix_of_cons (suffix_of_cons hheadCode)))
    have hcontCode := suffix_of_append (suffix_of_append (suffix_of_cons hbodyCode))
    have hheadAt := codeAt_of_suffix hl.distinct hheadCode
    have hbodyAt := codeAt_of_suffix hl.distinct hbodyCode
    have hcontAt := codeAt_of_suffix hl.distinct hcontCode
    have hused₂ := (body.regular_emit ctx _).uses _ _ _ _ hbody
    change c₂.used ⊆ c₃.used at hused₂
    replace hused₂ := List.Subset.trans hused₂ hp.used
    obtain ⟨i, k, f₂, rfl, rfl, hruns, hext, hs₂, hstart, hlimit, hin⟩ := emitBounds_runs hl hp.env
      htlo hthi hrlo hrhi hlo hhi hp.opened hused₂ hs hv₁ hv₂
    have hle := Nat.le_trans ((lo.straight_emitOperand ctx).nextReg_le hlo)
      ((hi.straight_emitOperand ctx).nextReg_le hhi)
    have hahead₂ := (hi.straight_emitOperand ctx).ahead hhi
      ((lo.straight_emitOperand ctx).ahead hlo hp.ahead)
    have hid₁ : id < ((c₂.skipLabels 1).skipRegs 2).stopped.nextLabel := by
      rw [hid]
      exact Nat.lt_succ_self _
    have hne : c₂.block ≠ c₃.block := by
      obtain ⟨_, _, hturn⟩ := body.emit_emitted (by simp [Label.IsTarget]) hbody
      exact hturn.block_ne hahead₂ hid rfl (Nat.le_of_lt hid₁)
    obtain ⟨hnew, hnot, hapart, hapart'⟩ := hp.apart.turn rfl
    rw [← List.append_assoc loLines]
    refine .after ((hruns _).trans (Module.goes_jump hheadAt hs₂)) (hext.follows.arrive _) hle ?_
    refine arrives_for rfl hdecl hkind hty hnew hnot hapart hin hne ?_ hheadAt hbodyAt hcontAt
      ⟨rfl, rfl⟩ fuel (hs₂.arrive _) ?_ hlimit hrun
    · intro store w f course hs hturn
      have hplaced : Placed m r ((var.name, decl) :: env) (.variable var.name decl :: known)
          body.sites (some (.cont id)) (((c₂.skipLabels 1).skipRegs 2).stopped.enter (.body id))
            bodyLines c₃ _ :=
        ⟨hp.env.cons, List.Subset.trans hp.cells (List.subset_cons_self _ _), hapart',
          .cont hcontAt, rfl, .enter rfl hid₁, hp.used, suffix_of_cons hbodyCode⟩
      exact body.emit_arrives hrbody htbody hplaced hbody hs hturn
    · intro w
      exact compute_phi (congrArg some hs₂.block) hstart
  | .whileLoop cond body _, env, known, _, c, _, _, _, hr, ht, hp, h, store, w, f, course, hs,
      hrun => by
    unfold Stmt.run at hrun
    obtain ⟨id, operand, condLines, c₁, bodyLines, c₂, hid, hcond, hbody, rfl, rfl⟩ :=
      emit_while_eq_ok h
    have hopen : (c.skipLabels 1).terminated = false := hp.opened
    have hopen₁ : c₁.terminated = false :=
      ((cond.regular_emitOperand ctx).onward trivial hcond).opens rfl
    rw [Cursor.opened_of_open hopen] at hcond
    rw [Cursor.opened_of_open hopen₁] at hbody
    have hcode := hp.code
    simp only [Cursor.line, Cursor.lead_of_open hopen, Cursor.lead_of_open hopen₁, List.nil_append,
      List.cons_append, List.append_assoc] at hcode ⊢
    have hheadCode := suffix_of_cons hcode
    have hbodyCode := suffix_of_cons (suffix_of_append (suffix_of_cons hheadCode))
    have hcontCode := suffix_of_append (suffix_of_append (suffix_of_cons hbodyCode))
    have hheadAt := codeAt_of_suffix hl.distinct hheadCode
    have hcontAt := codeAt_of_suffix hl.distinct hcontCode
    have hturnUses := (body.regular_emit ctx _).uses _ _ _ _ hbody
    change c₁.used ⊆ c₂.used at hturnUses
    have hused : c₁.used ⊆ m.declares := List.Subset.trans hturnUses hp.used
    have hid₁ : id < c₁.nextLabel := by
      rw [hid]
      exact Nat.lt_of_lt_of_le (Nat.lt_succ_self _)
        ((cond.straight_emitOperand ctx).nextLabel_le hcond)
    refine .after (Module.goes_jump hheadAt hs) (.arrive .refl _) (Nat.le_refl _) ?_
    refine arrives_while ((cond.straight_emitOperand ctx).nextReg_le hcond) ?_ ?_ hheadAt
      (codeAt_of_suffix hl.distinct hbodyCode) hcontAt ⟨rfl, rfl⟩ fuel (hs.arrive _) hrun
    · intro store w v w' f hs hv
      obtain ⟨htyped, f', hruns, hext, hvalue, _⟩ := Expr.emitOperand_runs hl.toLinked hp.env ht.1
        hr.1 (by decide) hcond rfl hused hs.tracks hv
      exact ⟨htyped, f', hruns, hext, hvalue⟩
    · intro store w f course hs hturn
      have hplaced : Placed m r env known body.sites (some (.cont id))
          (c₁.stopped.enter (.body id)) bodyLines c₂ _ :=
        ⟨hp.env, hp.cells, hp.apart, .cont hcontAt, rfl, .enter rfl hid₁, hp.used,
          suffix_of_cons hbodyCode⟩
      exact body.emit_arrives hr.2 ht.2 hplaced hbody hs hturn
  | .call value, env, _, _, _, _, _, post, hr, ht, hp, h, _, _, _, _, hs, hrun => by
    unfold Stmt.emit at h
    simp only [Stmt.run, Option.bind_eq_bind, Option.bind_eq_some_iff, Prod.exists, Option.pure_def,
      Option.some.injEq] at hrun
    obtain ⟨v, w', hv, rfl⟩ := hrun
    obtain ⟨ty, ht⟩ := ht
    obtain ⟨_, f', hruns, hext⟩ :=
      Expr.emitEffect_runs hl.toLinked hp.env ht hr h hp.opened hp.used hs.tracks hv
    have hon := (value.regular_emitEffect ctx).onward trivial h
    refine ⟨hon.opens hp.opened, f', hruns post, ?_, hext.follows⟩
    exact hon.block hp.opened ▸ hs.extends hext
theorem Block.emit_arrives : ∀ (block : Block) {env : Env}
    {known : List ValueName} {exit : Option Label} {c c' : Cursor} {lines post : List Line},
    block.Resolved env → block.WellTyped ctx.scopes scope ret →
    Placed m r env known block.sites exit c lines c' post →
    block.emit ctx exit c = .ok ((), lines, c') →
    ∀ {store : Store} {w : World} {f : Frame} {course : Course World},
    f.Stands I ctx r known store c.block → block.run I call fuel store w = some course →
    Arrives m I ctx r ret known c.nextReg (counters block.sites) exit f w (lines ++ post) c' post
      course
  | ⟨stmts, _, _, _, _⟩, env, known, exit, c, _, _, post, hr, ht, hp, h, store, w, f, course, hs,
      hrun => by
    unfold Block.run at hrun
    rw [Block.emit_eq] at h
    obtain ⟨_, first, c₁, _, hstmts, h₁, rfl⟩ := Emit.bind_eq_ok.mp h
    obtain ⟨_, mid, c₂, last, hret, hbrk, rfl⟩ := Emit.bind_eq_ok.mp h₁
    have hcode := hp.code
    simp only [List.append_assoc] at hcode ⊢
    have hused : c₁.used ⊆ m.declares :=
      List.Subset.trans ((regular_emitReturn? ctx _).uses _ _ _ _ hret)
        (List.Subset.trans ((regular_emitBreak? _ _).uses _ _ _ _ hbrk) hp.used)
    have henv : (extendStmts env stmts).KnownIn known := extendStmts_known stmts hp.env hp.cells
    have hfirst : ∀ course, runStmts I call fuel stmts store w = some course →
        Arrives m I ctx r ret known c.nextReg (counters (sitesOf stmts)) exit f w
          (first ++ (mid ++ (last ++ post))) c₁ (mid ++ (last ++ post)) course := by
      intro course hcourse
      exact emitStmts_arrives stmts hr.1 ht.1
        ⟨hp.env, hp.cells, hp.apart, hp.exits, hp.opened, hp.ahead, hused, hcode⟩ hstmts hs hcourse
    refine .seq hrun (Nat.le_refl _) hfirst ?_
    intro store w f hopen hs hend
    exact emitEnd_arrives hl henv ht.2 hr.2 hret hbrk hp.exits hopen hp.used hs hend
theorem emitStmts_arrives : ∀ (stmts : List Stmt)
    {env : Env} {known : List ValueName} {exit : Option Label} {c c' : Cursor}
    {lines post : List Line}, StmtsResolved env stmts → StmtsWellTyped ctx.scopes scope ret stmts →
    Placed m r env known (sitesOf stmts) exit c lines c' post →
    emitStmts ctx exit stmts c = .ok ((), lines, c') →
    ∀ {store : Store} {w : World} {f : Frame} {course : Course World},
    f.Stands I ctx r known store c.block → runStmts I call fuel stmts store w = some course →
    Arrives m I ctx r ret known c.nextReg (counters (sitesOf stmts)) exit f w (lines ++ post) c'
      post course
  | [], _, _, _, _, _, _, _, _, _, hp, h, _, _, f, _, hs, hrun => by
    cases h
    cases hrun
    exact ⟨hp.opened, f, .refl, hs, .refl⟩
  | stmt :: stmts, env, known, exit, c, c', _, post, hr, ht, hp, h, store, w, f, course, hs,
      hrun => by
    unfold runStmts at hrun
    unfold emitStmts at h
    obtain ⟨_, first, c₁, rest, hstmt, hrest, rfl⟩ := Emit.bind_eq_ok.mp h
    have hcode := hp.code
    rw [List.append_assoc] at hcode ⊢
    obtain ⟨hcells₁, hcells₂⟩ := cells_append_subset.mp hp.cells
    obtain ⟨hapart₁, hapart₂⟩ := hp.apart.append
    obtain ⟨_, _, hsegment⟩ := stmt.emit_emitted hp.exits.target hstmt
    have hused := List.Subset.trans ((regular_emitStmts ctx _ _).uses _ _ _ _ hrest) hp.used
    have hloops : counters (sitesOf (stmt :: stmts)) =
        counters stmt.sites ++ counters (sitesOf stmts) :=
      counters_append _ _
    rw [hloops]
    have hfirst : ∀ course, stmt.run I call fuel store w = some course →
        Arrives m I ctx r ret known c.nextReg (counters stmt.sites ++ counters (sitesOf stmts)) exit
          f w (first ++ (rest ++ post)) c₁ (rest ++ post) course := by
      intro course hcourse
      have hplaced : Placed m r env known stmt.sites exit c first c₁ (rest ++ post) :=
        ⟨hp.env, hcells₁, hapart₁, hp.exits, hp.opened, hp.ahead, hused, hcode⟩
      exact (stmt.emit_arrives hr.1 ht.1 hplaced hstmt hs hcourse).weaken (Nat.le_refl _)
        (List.subset_append_left _ _)
    refine .seq hrun hsegment.regs_le hfirst ?_
    intro store w f hopen hs hnext
    have hplaced : Placed m r (stmt.extend env) known (sitesOf stmts) exit c₁ rest c' post :=
      ⟨stmt.extend_known hp.env hcells₁, hcells₂, hapart₂, hp.exits, hopen, hsegment.ahead hp.ahead,
        hp.used, suffix_of_append hcode⟩
    exact (emitStmts_arrives stmts hr.2 ht.2 hplaced hrest hs hnext).weaken (Nat.le_refl _)
      (List.subset_append_right _ _)
theorem emitArms_arrives {span : Span} :
    ∀ (blocks : List Block) (conds : List Expr) {env env' : Env} {known : List ValueName}
    {exit : Option Label} {c c' : Cursor} {lines post : List Line},
    branchShapeFits conds.length blocks.length = true → AllResolved env' conds →
    BlocksResolved env blocks → (∀ cond ∈ conds, cond.HasType ctx.scopes scope .bool) →
    BlocksWellTyped ctx.scopes scope ret blocks → env'.KnownIn known →
    Placed m r env known (sitesOfBlocks blocks) exit c lines c' post →
    emitArms ctx exit span conds blocks c = .ok ((), lines, c') →
    ∀ {store : Store} {w : World} {f : Frame} {course : Course World},
    f.Stands I ctx r known store c.block → runArms I call fuel conds blocks store w = some course →
    Arrives m I ctx r ret known c.nextReg (counters (sitesOfBlocks blocks)) exit f w (lines ++ post)
      c' post course
  | _, [], _, _, _, _, _, _, _, _, _, _, _, _, _, _, _, h, _, _, _, _, _, _ =>
    absurd h emitArms_no_cond
  | [], _ :: _, _, _, _, _, _, _, _, _, _, _, _, _, _, _, _, h, _, _, _, _, _, _ =>
    absurd h emitArms_no_block
  | block :: blocks, cond :: conds, env, _, known, exit, c, _, _, _, hshape, hrc, hrb, htc, htb,
      hec, hp, h, store, w, f, _, hs, hrun => by
    obtain ⟨id, operand, condLines, c₁, thenLines, c₂, elseLines, c₃, hid, hcond, hthen, helse, rfl,
      rfl⟩ := emitArms_eq_ok h
    have hopen₁ : c₁.terminated = false :=
      ((cond.regular_emitOperand ctx).onward trivial hcond).opens hp.opened
    rw [Cursor.opened_of_open hopen₁] at hthen
    have hcode := hp.code
    simp only [Cursor.line, Cursor.lead_of_open hopen₁, List.nil_append, List.cons_append,
      List.append_assoc] at hcode ⊢
    have hthenCode := suffix_of_cons (suffix_of_append hcode)
    have helseCode := suffix_of_append (suffix_of_append (suffix_of_cons hthenCode))
    have hcontCode := suffix_of_append (suffix_of_append (suffix_of_cons helseCode))
    obtain ⟨hcells₁, hcells₂⟩ := cells_append_subset.mp hp.cells
    obtain ⟨hapart₁, hapart₂⟩ := hp.apart.append
    have hused₃ : c₃.used ⊆ m.declares := by
      have hused := hp.used
      split at hused
      · exact hused
      · exact hused
    have hused₂ := (regular_emitElse ctx span blocks conds exit).uses _ _ _ _ helse
    change c₂.used ⊆ c₃.used at hused₂
    replace hused₂ := List.Subset.trans hused₂ hused₃
    have hused₁ := (block.regular_emit ctx _).uses _ _ _ _ hthen
    change c₁.used ⊆ c₂.used at hused₁
    replace hused₁ := List.Subset.trans hused₁ hused₂
    have hle₁ := (cond.straight_emitOperand ctx).nextReg_le hcond
    change c.nextReg ≤ c₁.nextReg at hle₁
    obtain ⟨_, _, hsegment⟩ := block.emit_emitted hp.exits.target hthen
    have hle₂ := hsegment.regs_le
    change c₁.nextReg ≤ c₂.nextReg at hle₂
    have hid₁ : id < c₁.nextLabel := by
      rw [hid]
      exact Nat.lt_of_lt_of_le (Nat.lt_succ_self _)
        ((cond.straight_emitOperand ctx).nextLabel_le hcond)
    have hid₂ : id < c₂.nextLabel := Nat.lt_of_lt_of_le hid₁ hsegment.labels_le
    have hloops : counters (sitesOfBlocks (block :: blocks)) =
        counters block.sites ++ counters (sitesOfBlocks blocks) :=
      counters_append _ _
    rw [hloops]
    unfold runArms at hrun
    cases hv : cond.eval I call store w with
    | none =>
      rw [hv] at hrun
      cases hrun
    | some pair =>
      obtain ⟨v, w₁⟩ := pair
      obtain ⟨htyped, f₁, hruns, hext, hvalue, _⟩ := Expr.emitOperand_runs hl.toLinked hec
        (htc cond List.mem_cons_self) hrc.1 (by decide) hcond hp.opened hused₁ hs.tracks hv
      obtain ⟨b, rfl⟩ := Val.eq_bool htyped
      rw [hv] at hrun
      refine arrives_arms hs hruns hext hvalue (codeAt_of_suffix hl.distinct hthenCode)
        (codeAt_of_suffix hl.distinct helseCode) ?_ ?_ ?_
      · intro hfalls
        have hb : (!c₂.terminated || !c₃.terminated) = true := by
          rcases hfalls with hfalls | hfalls <;> simp [hfalls]
        rw [hb] at hcontCode ⊢
        exact ⟨codeAt_of_suffix hl.distinct hcontCode, rfl, rfl⟩
      · intro f hb hs
        subst hb
        have hplaced : Placed m r env known block.sites exit (c₁.stopped.enter (.thenArm id))
            thenLines c₂ _ :=
          ⟨hp.env, hcells₁, hapart₁, hp.exits, rfl, .enter rfl hid₁, hused₂,
            suffix_of_cons hthenCode⟩
        exact (block.emit_arrives hrb.1 htb.1 hplaced hthen hs hrun).weaken hle₁
          (List.subset_append_left _ _)
      · intro f hb hs
        subst hb
        have hplaced : Placed m r (block.extend env) known (sitesOfBlocks blocks) exit
            (c₂.stopped.enter (.elseArm id)) elseLines c₃ _ :=
          ⟨block.extend_known hp.env hcells₁, hcells₂, hapart₂, hp.exits, rfl, .enter rfl hid₂,
            hused₃, suffix_of_cons helseCode⟩
        have hle := Nat.le_trans hle₁ hle₂
        unfold emitElse at helse
        cases conds with
        | nil =>
          have hlen : blocks.length ≤ 1 := branchShapeFits_cons hshape
          exact (emitLast_arrives blocks hlen hrb.2 htb.2 hplaced helse hs hrun).weaken hle
            (List.subset_append_right _ _)
        | cons next conds =>
          have hfits := branchShapeFits_cons hshape
          exact (emitArms_arrives blocks (next :: conds) hfits hrc.2 hrb.2
            (fun cond hm => htc cond (List.mem_cons_of_mem _ hm)) htb.2 hec hplaced helse hs
              hrun).weaken hle (List.subset_append_right _ _)
theorem emitLast_arrives : ∀ (blocks : List Block)
    {env : Env} {known : List ValueName} {exit : Option Label} {c c' : Cursor}
    {lines post : List Line}, blocks.length ≤ 1 → BlocksResolved env blocks →
    BlocksWellTyped ctx.scopes scope ret blocks →
    Placed m r env known (sitesOfBlocks blocks) exit c lines c' post →
    emitLast ctx exit blocks c = .ok ((), lines, c') →
    ∀ {store : Store} {w : World} {f : Frame} {course : Course World},
    f.Stands I ctx r known store c.block → runArms I call fuel [] blocks store w = some course →
    Arrives m I ctx r ret known c.nextReg (counters (sitesOfBlocks blocks)) exit f w (lines ++ post)
      c' post course
  | [], _, _, _, _, _, _, _, _, _, _, hp, h, _, _, f, _, hs, hrun => by
    unfold runArms at hrun
    cases h
    cases hrun
    exact ⟨hp.opened, f, .refl, hs, .refl⟩
  | [block], _, _, _, _, _, _, _, _, hr, ht, hp, h, _, _, _, _, hs, hrun => by
    unfold runArms at hrun
    have hsites : sitesOfBlocks [block] = block.sites := List.append_nil _
    rw [hsites] at hp ⊢
    exact block.emit_arrives hr.1 ht.1 hp h hs hrun
  | _ :: _ :: _, _, _, _, _, _, _, _, hlen, _, _, _, _, _, _, _, _, _, _ => by
    simp at hlen
end

end

/-! ## Whole routines -/

theorem Contents.cell_ofType (contents : Contents) (hp : ty.Prim) (hne : ty ≠ .void) :
    contents.cell ty.ir = some (contents.ofType ty) := by
  rcases hp with rfl | rfl | rfl | rfl
  · rfl
  · rfl
  · rfl
  · exact absurd rfl hne

theorem Contents.type_ofType (contents : Contents) (hp : ty.Prim) :
    (contents.ofType ty).type? = some ty := by
  rcases hp with rfl | rfl | rfl | rfl <;> rfl

theorem Frame.Stands.alloca {block : Label} {var : VarDecl} (h : f.Stands I ctx r known store block)
    (hv : ctx.scopes.decls[id]? = some var) (hk : var.kind = .localVar) (hp : var.ty.Prim)
    (hne : var.ty ≠ .void) (hid : store id = none) :
    (f.setCell (.variable var.name id) ((I.initial id).ofType var.ty)).Stands I ctx r
      (.variable var.name id :: known) store block := by
  have hread : store.read I id var.ty = (I.initial id).ofType var.ty := by
    rw [Store.read, hid]
    rfl
  have hmirror : (f.setCell (.variable var.name id) ((I.initial id).ofType var.ty)).Mirrors I store
      id var := by
    refine ⟨fun he => hne (hp.ir_eq_void.mp he), ?_, ?_⟩
    · rw [hread]
      exact Contents.type_ofType _ hp
    · rw [hread, Frame.holds, if_pos hk]
      exact Function.update_self _ _ _
  refine ⟨h.routine, h.block, fun name id' hm => ?_⟩
  rcases List.mem_cons.mp hm with he | hm
  · obtain ⟨rfl, rfl⟩ := ValueName.variable.inj he
    exact ⟨var, hv, rfl, hmirror⟩
  · obtain ⟨var', hv', hname, hold⟩ := h.tracks name id' hm
    by_cases hsame : id' = id
    · subst hsame
      rw [hv, Option.some.injEq] at hv'
      exact ⟨var, hv, hv' ▸ hname, hmirror⟩
    · refine ⟨var', hv', hname, hold.notVoid, hold.typed, ?_⟩
      have hcell : (f.setCell (.variable var.name id) ((I.initial id).ofType var.ty)).cells
          (.variable var'.name id') = f.cells (.variable var'.name id') :=
        Function.update_of_ne (fun he => hsame (ValueName.variable.inj he).2) _ _
      rw [← hold.holds, Frame.holds, Frame.holds, hcell]
      rfl

theorem emitCells_runs {vars : List Local} (hd : ∀ var ∈ vars, var.Declared ctx.scopes)
    (hfresh : ∀ name id, .variable name id ∈ vars.filterMap Local.value? → store id = none)
    (h : emitCells vars c = .ok ((), lines, c')) (hc : c.terminated = false)
    (hs : f.Stands I ctx r known store c.block) :
    c'.terminated = false ∧ ∃ f', m.Runs I f w lines f' w ∧
      f'.Stands I ctx r (vars.filterMap Local.value? ++ known) store c'.block := by
  induction vars generalizing known c lines f with
  | nil =>
    cases h
    exact ⟨hc, f, .nil, hs⟩
  | cons entry vars ih =>
    obtain ⟨id, var, hhandle, hv, hname, hk, hslot, hp, hne⟩ := hd entry List.mem_cons_self
    have hvalue : entry.value? = some (.variable var.name id) := by
      rw [Local.value?, hhandle, hname]
      rfl
    rw [List.filterMap_cons_some hvalue] at hfresh ⊢
    unfold emitCells at h
    rw [hhandle, hslot, ← hname] at h
    obtain ⟨_, h₁, rfl⟩ := Emit.bind_eq_ok_of_apply rfl h
    obtain ⟨_, h₂, rfl⟩ := Emit.bind_eq_ok_of_apply rfl h₁
    obtain ⟨ty, _, _, _, hof, h₃, rfl⟩ := Emit.bind_eq_ok.mp h₂
    obtain ⟨hty, rfl, rfl⟩ := ofExcept_eq_ok.mp hof
    rw [hp.irType, Except.ok.injEq] at hty
    subst hty
    obtain ⟨_, h₄, rfl⟩ := Emit.bind_eq_ok_of_apply (emit_open hc _) h₃
    have hs₁ := hs.alloca hv hk hp hne (hfresh _ _ List.mem_cons_self)
    obtain ⟨hopen, f', hruns, hs'⟩ := ih (fun var hm => hd var (List.mem_cons_of_mem _ hm))
      (fun name id hm => hfresh name id (List.mem_cons_of_mem _ hm)) h₄ hc hs₁
    refine ⟨hopen, f', fun code => ?_, hs'.mono ?_⟩
    · exact (Module.goes_alloca (Contents.cell_ofType _ hp hne)).trans (hruns code)
    · exact List.perm_middle.symm.subset

theorem IrType.zero_atType (h : ty.ir ≠ .void) : ty.ir.zero.atType ty.ir = some ty.zero := by
  unfold Ty.ir at h ⊢
  unfold Ty.zero
  split
  · rfl
  · split
    · rfl
    · split
      · rfl
      · rename_i h₁ h₂ h₃
        rw [if_neg h₁, if_neg h₂, if_neg h₃] at h
        exact absurd rfl h

/-- What a routine gives when control falls off its end. -/
def RoutineKind.fallback (ret : Ty) : RoutineKind → Option Val
  | .function _ => ret.zero.result ret.ir
  | .script => some (.status 0)

theorem emitEpilogue_returns (hl : Running m I ctx scope call r ret)
    (h : emitEpilogue ctx.kind c = .ok ((), lines, c')) (hc : c.terminated = false) {block : Label}
    (hs : f.Stands I ctx r known store block) :
    m.Returns I (f.before (lines ++ post)) w (ctx.kind.fallback ret) w := by
  have hfits := hl.fits
  have hret : f.routine.ret = ctx.kind.ret := hs.routine ▸ hl.returns
  cases hkind : ctx.kind with
  | script =>
    rw [hkind] at h hret
    change terminate _ c = _ at h
    rw [terminate_open hc] at h
    cases h
    exact Module.returns_value rfl hret
  | function ty =>
    rw [hkind] at h hfits hret
    obtain rfl : ret.ir = ty := hfits
    by_cases hvoid : ret.ir = .void
    · rw [hvoid] at h hret
      change terminate _ c = _ at h
      rw [terminate_open hc] at h
      cases h
      have hnone : RoutineKind.fallback ret (.function ret.ir) = none := if_pos hvoid
      rw [hnone]
      exact Module.returns_void hret
    · have hterminate : emitEpilogue (.function ret.ir) =
          terminate (.ret (some (ret.ir, .const ret.ir.zero))) := by
        unfold emitEpilogue
        split
        · rename_i he
          cases he
        · rename_i he
          exact absurd (RoutineKind.function.inj he) hvoid
        · rename_i he
          cases he
          rfl
      rw [hterminate, terminate_open hc] at h
      cases h
      have hsome : RoutineKind.fallback ret (.function ret.ir) = some ret.zero := if_neg hvoid
      rw [hsome]
      exact Module.returns_value (IrType.zero_atType hvoid) hret

variable (m I ctx ret) in
/-- A frame at the beginning of its routine returns when the body of the routine has run. -/
def Finishes (f : Frame) (w : World) : Course World → Prop
  | (.falls, _, w') => m.Returns I f w (ctx.kind.fallback ret) w'
  | (.breaks, _, _) => False
  | (.returns v, _, w') => v.type? = some ret ∧ m.Returns I f w (ctx.kind.result v) w'

theorem labels_nodup {body : Block} (h : emitRoutine ctx body c = .ok ((), lines, c')) :
    (labelsOf lines).Nodup := by
  obtain ⟨rest, defs, rfl, -, hsegment, -⟩ := emitRoutine_segment h
  rw [labelsOf_label]
  exact List.nodup_cons.mpr ⟨hsegment.freshLabels.not_entry, hsegment.freshLabels.nodup⟩

theorem Routine.From.finishes {params : List (IrType × ValueName)} {body : Block}
    (h : r.From ctx params body c c') (hl : Running m I ctx scope call r ret)
    (hr : body.Resolved env) (ht : body.WellTyped ctx.scopes scope ret) (he : env.KnownIn known)
    (hnames : ∀ v ∈ known, v.number? = none)
    (hapart : (known ++ (cells body.sites ++ counters body.sites)).Nodup)
    (hfresh : ∀ name id, .variable name id ∈ cells body.sites → store id = none)
    (hused : c'.used ⊆ m.declares) (hs : f.Stands I ctx r known store .entry) {code : List Line}
    (hcode : codeAt .entry r.lines = some code)
    (hrun : body.run I call fuel store w = some course) :
    Finishes m I ctx ret (f.before code) w course := by
  obtain ⟨cellLines, c₁, bodyLines, c₂, last, hcells, hbody, hlines, hlast⟩ := emitRoutine_eq_ok h.2
  have hentry : codeAt .entry ([.label .entry] ++ (cellLines ++ (bodyLines ++ last))) =
      some (cellLines ++ (bodyLines ++ last)) :=
    if_pos rfl
  rw [hlines, hentry, Option.some.injEq] at hcode
  subst hcode
  have hahead : c₁.Ahead := by
    have hsegment : Segment (fun _ => True) [] _ (c.enter .entry) cellLines c₁ :=
      emitCells_segment hcells
    refine hsegment.ahead ?_
    intro n hn
    cases hn
  have hused₂ : c₂.used ⊆ m.declares := by
    rcases hlast with ⟨_, _, rfl⟩ | ⟨_, hret⟩
    · exact hused
    · exact List.Subset.trans ((still_emitEpilogue _).uses _ _ _ _ hret) hused
  obtain ⟨hopen₁, f₁, hruns, hs₁⟩ := emitCells_runs (m := m) (w := w)
    (Block.WellTyped.locals body ht) (body.locals_cells ▸ hfresh) hcells rfl hs
  rw [body.locals_cells] at hs₁
  have hsuffix : bodyLines ++ last <:+ r.lines :=
    ⟨[.label .entry] ++ cellLines, by rw [hlines, List.append_assoc]⟩
  have hplaced : Placed m r env (cells body.sites ++ known) body.sites none c₁ bodyLines c₂ last :=
    ⟨he.mono (List.subset_append_right _ _), List.subset_append_left _ _, .of_nodup hnames hapart,
      nofun, hopen₁, hahead, hused₂, hsuffix⟩
  have harrives := body.emit_arrives hl hr ht hplaced hbody hs₁ hrun
  obtain ⟨ending, store', w'⟩ := course
  cases ending with
  | falls =>
    obtain ⟨hopen₂, f₂, hgo, hs₂, -⟩ := harrives
    rcases hlast with ⟨hstop, _⟩ | ⟨_, hret⟩
    · rw [hopen₂] at hstop
      cases hstop
    · have hreturns : m.Returns I (f₂.before (last ++ [])) w' _ w' :=
        emitEpilogue_returns hl hret hopen₂ hs₂
      rw [List.append_nil] at hreturns
      exact ((hruns _).trans hgo).returns hreturns
  | breaks =>
    obtain ⟨l, _, _, hexit, _⟩ := harrives
    cases hexit
  | returns v => exact ⟨harrives.1, (hruns _).returns harrives.2⟩

end

end ScriptLang
