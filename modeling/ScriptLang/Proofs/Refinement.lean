import ScriptLang.Proofs.Rerunning

/-!
# Committing refines probing

From the same state a committing run and a probe go the same way, unless the committing run stalls
at an expression that the probe gets past. What can be committed can be probed, then, with the same
result. A function that cannot be probed cannot be committed either, and as such functions are
committed first, the first of them is where inference ends.
-/

namespace ScriptLang

open Pass ScopeTree

variable {tree : ScopeTree} {id : DeclId}

variable {env : Env} {expr expr' : Expr} {fn : FnDef} {lasts : List LastError} {sites : List Site}
  {mode : Mode} {ctx ctx' : RoutineContext} {scope : ScopeId} {tree tree' : ScopeTree} {sig : SigId}
  {span : Span} {name : String} {ty : Ty}

/-! ## What a committing run has in sight -/

theorem Expr.commit_isFullyKnown (h : expr.commit scope ty tree = .done expr' tree') :
    ty.isFullyKnown = true := by
  cases expr
  all_goals
    unfold Expr.commit at h
    split at h
    · assumption
    · exact (stop_eq_done.mp h).elim

theorem Expr.Consumed.prim {expected : Ty} (h : expr.Consumed .commit scope tree expected expr' ty)
    (hp : tree.Plain) (hx : expected.Flat) : ty.Prim := by
  have hflat := h.agreed.flat hp hx
  obtain ⟨_, _, _, _, hc⟩ := h
  exact hflat.prim_of_isFullyKnown (Expr.commit_isFullyKnown hc)

theorem ScopeTree.EnvTyped.retype {env : Env} (h : tree.EnvTyped env) {var : VarDecl} {ty : Ty}
    (hv : tree.decls[id]? = some var) (hp : ty.Prim) : (tree.retype id var ty).EnvTyped env := by
  intro entry hm
  obtain ⟨var', hv', hn, ht⟩ := h entry hm
  have hlt := (List.getElem?_eq_some_iff.mp hv).1
  by_cases he : entry.2 = id
  · rw [he, hv] at hv'
    cases hv'
    exact ⟨{ var with ty }, by simp [ScopeTree.retype, he, hlt], hn, hp⟩
  · exact ⟨var', by rw [ScopeTree.retype, List.getElem?_set_ne (Ne.symm he), hv'], hn, ht⟩

theorem ScopeTree.EnvTyped.cons (h : tree.EnvTyped env) {var : VarDecl}
    (hv : tree.decls[id]? = some var) (hn : var.name = name) (hp : var.ty.Prim) :
    tree.EnvTyped ((name, id) :: env) := by
  intro entry hm
  rcases List.mem_cons.mp hm with rfl | hm
  · exact ⟨var, hv, hn, hp⟩
  · exact h entry hm

/-- Variables that were known stay known. -/
def ScopeTree.Firm (tree tree' : ScopeTree) : Prop :=
  ∀ env, tree.EnvTyped env → tree'.EnvTyped env

/-- The tree declares what the sites say. -/
def ScopeTree.Declares (tree : ScopeTree) (sites : List Site) : Prop :=
  ∀ site ∈ sites, ∃ id var, site.handle = some id ∧ tree.decls[id]? = some var ∧ site.Declares var

theorem ScopeTree.Declares.append {more : List Site} (h : tree.Declares (sites ++ more)) :
    tree.Declares sites ∧ tree.Declares more :=
  ⟨fun site hm => h site (List.mem_append_left more hm),
    fun site hm => h site (List.mem_append_right sites hm)⟩

theorem ScopeTree.Declares.of_reset (h : tree.Declares sites)
    (hreset : tree'.resetInferred = tree.resetInferred) : tree'.Declares sites := by
  intro site hm
  obtain ⟨id, var, hh, hv, hd⟩ := h site hm
  have ha : tree.Agree (fun _ => False) tree' := ⟨hreset.symm, fun _ hid => hid.elim⟩
  obtain ⟨var', hv', he⟩ := ha.exists_decl hv
  rw [he] at hv'
  exact ⟨id, _, hh, hv', ⟨hd.name, hd.kind, hd.span, hd.type⟩⟩

/-- A body that a committing run is about to enter, with what is in sight there. -/
structure InSight (tree : ScopeTree) (env : Env) (ctx : RoutineContext) (sites : List Site) :
    Prop where
  rooted : tree.Rooted
  plain : tree.Plain
  unambiguous : tree.Unambiguous
  typed : tree.EnvTyped env
  declares : tree.Declares sites
  ret : ctx.ret.Flat

namespace InSight

variable {tree tree' : ScopeTree} {env env' : Env} {ctx ctx' : RoutineContext}
  {sites more : List Site}

theorem first (h : InSight tree env ctx (sites ++ more)) : InSight tree env ctx sites :=
  ⟨h.rooted, h.plain, h.unambiguous, h.typed, h.declares.append.1, h.ret⟩

theorem expected (h : InSight tree env ctx sites) : ctx.expected.Flat := by
  unfold RoutineContext.expected
  split
  · exact Ty.prim_int.flat
  · exact h.ret

theorem next {on : DeclId → Prop} (h : InSight tree env ctx (sites ++ more))
    (hsteps : InferSteps on scope (ctx, tree) (ctx', tree')) (ht : tree'.EnvTyped env') :
    InSight tree' env' ctx' more := by
  obtain ⟨hp, hr⟩ := hsteps.plain h.plain h.ret
  obtain ⟨above, hroot⟩ := h.rooted
  have hu : tree'.Unambiguous := by
    unfold ScopeTree.Unambiguous
    rw [← hsteps.agree.sigs]
    exact h.unambiguous
  exact ⟨⟨above, hsteps.agree.parents ▸ hroot⟩, hp, hu, ht,
    h.declares.append.2.of_reset hsteps.agree.skeleton.symm, hr⟩

theorem loop (h : InSight tree env ctx (⟨name, .loopVar, none, span, some id⟩ :: sites)) :
    InSight tree ((name, id) :: env) ctx sites := by
  obtain ⟨id', var, hid, hv, hd⟩ := h.declares _ List.mem_cons_self
  cases hid
  have hint : var.declared = .int := (Except.ok.inj hd.type).symm
  have hty : var.ty = .int := by
    rw [h.plain.fixed var (List.mem_of_getElem? hv) (hint ▸ Ty.prim_int), hint]
  exact ⟨h.rooted, h.plain, h.unambiguous, h.typed.cons hv hd.name (hty ▸ Ty.prim_int),
    fun site hm => h.declares site (List.mem_cons_of_mem _ hm), h.ret⟩

end InSight

theorem Stmt.Resolved.steps {stmt stmt' : Stmt} (hr : stmt.Resolved env)
    (h : stmt.infer mode scope ctx tree = .done (stmt', ctx') tree') :
    InferSteps (fun _ => True) scope (ctx, tree) (ctx', tree') :=
  Stmt.infer_steps stmt
    (Stmt.Resolved.within stmt (fun _ _ => trivial) (fun _ _ _ _ => trivial) hr).1 h

theorem Block.Resolved.steps {block block' : Block} (hr : block.Resolved env)
    (h : block.infer mode scope ctx tree = .done (block', ctx') tree') :
    InferSteps (fun _ => True) scope (ctx, tree) (ctx', tree') :=
  Block.infer_steps block
    (Block.Resolved.within block (fun _ _ => trivial) (fun _ _ _ _ => trivial) hr).1 h

theorem StmtsResolved.steps {stmts stmts' : List Stmt} (hr : StmtsResolved env stmts)
    (h : inferStmts mode scope stmts ctx tree = .done (stmts', ctx') tree') :
    InferSteps (fun _ => True) scope (ctx, tree) (ctx', tree') :=
  inferStmts_steps stmts
    (StmtsResolved.within stmts (fun _ _ => trivial) (fun _ _ _ _ => trivial) hr).1 h

section

variable {scope : ScopeId}

mutual
theorem Stmt.infer_firm : ∀ (stmt : Stmt) {env : Env} {stmt' : Stmt} {ctx ctx' : RoutineContext}
    {tree tree' : ScopeTree}, InSight tree env ctx stmt.sites → stmt.Resolved env →
    stmt.infer .commit scope ctx tree = .done (stmt', ctx') tree' →
    tree.Firm tree' ∧ tree'.EnvTyped (stmt.extend env)
  | .decl name _ _ _ _, _, _, _, _, tree, _, hi, _, h => by
    obtain ⟨id, var, value', ty, rfl, hv, hc, _, rfl, rfl, rfl⟩ := Stmt.infer_decl.mp h
    have hp := hc.prim hi.plain (hi.plain.declared var (List.mem_of_getElem? hv))
    obtain ⟨id', var', hid, hv', hd⟩ := hi.declares _ List.mem_cons_self
    cases hid
    rw [hv] at hv'
    cases hv'
    have hlt := (List.getElem?_eq_some_iff.mp hv).1
    have hset : (tree.retype id var ty).decls[id]? = some { var with ty } := by
      simp [retype, hlt]
    exact ⟨fun _ he => he.retype hv hp, (hi.typed.retype hv hp).cons hset hd.name hp⟩
  | .assign .., _, _, _, _, _, _, hi, _, h => by
    obtain ⟨id, var, value', ty, _, hv, _, hc, _, rfl, rfl, rfl⟩ := Stmt.infer_assign.mp h
    have hp := hc.prim hi.plain (hi.plain.types var (List.mem_of_getElem? hv))
    exact ⟨fun _ he => he.retype hv hp, hi.typed.retype hv hp⟩
  | .branch _ blocks _, _, _, _, _, _, _, hi, hr, h => by
    obtain ⟨_, _, _, hb, _⟩ := Stmt.infer_branch.mp h
    exact inferBlocks_firm blocks hi hr.2.2 hb
  | .forLoop _ _ _ body _ _, env, _, _, _, _, _, hs, hr, h => by
    obtain ⟨_, _, _, _, _, _, _, hb, _⟩ := Stmt.infer_forLoop.mp h
    obtain ⟨_, _, id, rfl, hrb⟩ := hr
    have hfirm := (Block.infer_firm body hs.loop hrb hb).1
    exact ⟨hfirm, hfirm env hs.typed⟩
  | .whileLoop _ body _, _, _, _, _, _, _, hi, hr, h => by
    obtain ⟨_, _, _, _, hb, _⟩ := Stmt.infer_whileLoop.mp h
    exact Block.infer_firm body hi hr.2 hb
  | .call _, _, _, _, _, _, _, hi, _, h => by
    obtain ⟨_, _, _, _, rfl, rfl⟩ := Stmt.infer_call.mp h
    exact ⟨fun _ he => he, hi.typed⟩
termination_by structural stmt => stmt
theorem Block.infer_firm : ∀ (block : Block) {env : Env} {block' : Block}
    {ctx ctx' : RoutineContext} {tree tree' : ScopeTree}, InSight tree env ctx block.sites →
    block.Resolved env → block.infer .commit scope ctx tree = .done (block', ctx') tree' →
    tree.Firm tree' ∧ tree'.EnvTyped (block.extend env)
  | ⟨stmts, none, _, _, _⟩, _, _, _, _, _, _, hi, hr, h => by
    obtain ⟨_, hs, _⟩ := Block.infer_none.mp h
    exact inferStmts_firm stmts hi hr.1 hs
  | ⟨stmts, some ⟨_, _⟩, _, _, _⟩, _, _, _, _, _, _, hi, hr, h => by
    obtain ⟨_, _, _, _, hs, _, _, _⟩ := Block.infer_some.mp h
    exact inferStmts_firm stmts hi hr.1 hs
termination_by structural block => block
theorem inferStmts_firm : ∀ (stmts : List Stmt) {env : Env} {stmts' : List Stmt}
    {ctx ctx' : RoutineContext} {tree tree' : ScopeTree}, InSight tree env ctx (sitesOf stmts) →
    StmtsResolved env stmts → inferStmts .commit scope stmts ctx tree = .done (stmts', ctx') tree' →
    tree.Firm tree' ∧ tree'.EnvTyped (extendStmts env stmts)
  | [], _, _, _, _, _, _, hi, _, h => by
    obtain ⟨_, rfl, rfl⟩ := inferStmts_nil.mp h
    exact ⟨fun _ he => he, hi.typed⟩
  | stmt :: stmts, env, _, _, _, _, _, hi, hr, h => by
    obtain ⟨_, _, _, _, hs, hrest, _⟩ := inferStmts_cons.mp h
    obtain ⟨hfirm, ht⟩ := Stmt.infer_firm stmt hi.first hr.1 hs
    obtain ⟨hfirm', ht'⟩ := inferStmts_firm stmts (hi.next (hr.1.steps hs) ht) hr.2 hrest
    exact ⟨fun env he => hfirm' env (hfirm env he), ht'⟩
termination_by structural stmts => stmts
theorem inferBlocks_firm : ∀ (blocks : List Block) {env : Env} {blocks' : List Block}
    {ctx ctx' : RoutineContext} {tree tree' : ScopeTree},
    InSight tree env ctx (sitesOfBlocks blocks) → BlocksResolved env blocks →
    inferBlocks .commit scope blocks ctx tree = .done (blocks', ctx') tree' →
    tree.Firm tree' ∧ tree'.EnvTyped (extendBlocks env blocks)
  | [], _, _, _, _, _, _, hi, _, h => by
    obtain ⟨_, rfl, rfl⟩ := inferBlocks_nil.mp h
    exact ⟨fun _ he => he, hi.typed⟩
  | block :: blocks, env, _, _, _, _, _, hi, hr, h => by
    obtain ⟨_, _, _, _, hb, hrest, _⟩ := inferBlocks_cons.mp h
    obtain ⟨hfirm, ht⟩ := Block.infer_firm block hi.first hr.1 hb
    obtain ⟨hfirm', ht'⟩ := inferBlocks_firm blocks (hi.next (hr.1.steps hb) ht) hr.2 hrest
    exact ⟨fun env he => hfirm' env (hfirm env he), ht'⟩
termination_by structural blocks => blocks
end

end

/-! ## What a probe gets past -/

/-- A probe gets past the expression, which has the property there. -/
def Expr.Passed (scope : ScopeId) (P : Expr → Ty → ScopeTree → Prop) (expected : Ty)
    (tree : ScopeTree) (expr : Expr) : Prop :=
  ∃ ty, expr.Consumed .probe scope tree expected expr ty ∧ P expr ty tree

/-- A probe gets past one of the expressions, which has the property. -/
def AnyPassed (scope : ScopeId) (P : Expr → Ty → ScopeTree → Prop) (expected : Ty)
    (tree : ScopeTree) : List Expr → Prop
  | [] => False
  | expr :: exprs =>
    expr.Passed scope P expected tree ∨
      (∃ ty, expr.Consumed .probe scope tree expected expr ty) ∧
        AnyPassed scope P expected tree exprs

mutual
/-- On its way through the statement a probe gets past an expression with the property. -/
def Stmt.Passes (scope : ScopeId) (P : Expr → Ty → ScopeTree → Prop) :
    Stmt → RoutineContext → ScopeTree → Prop
  | .decl _ _ value _ handle, _, tree =>
    ∃ id var, handle = some id ∧ tree.decls[id]? = some var ∧
      value.Passed scope P var.declared tree
  | .assign _ value _ handle, _, tree =>
    ∃ id var, handle = some id ∧ tree.decls[id]? = some var ∧ value.Passed scope P var.ty tree
  | .branch conds blocks _, ctx, tree =>
    AnyPassed scope P .bool tree conds ∨
      (∀ cond ∈ conds, ∃ ty, cond.Consumed .probe scope tree .bool cond ty) ∧
        BlocksPass scope P blocks ctx tree
  | .forLoop _ lo hi body _ _, ctx, tree =>
    AnyPassed scope P .int tree [lo, hi] ∨
      (∀ bound ∈ [lo, hi], ∃ ty, bound.Consumed .probe scope tree .int bound ty) ∧
        body.Passes scope P ctx tree
  | .whileLoop cond body _, ctx, tree =>
    cond.Passed scope P .bool tree ∨
      (∃ ty, cond.Consumed .probe scope tree .bool cond ty) ∧ body.Passes scope P ctx tree
  | .call value, _, tree => value.Passed scope P .unknown tree
def Block.Passes (scope : ScopeId) (P : Expr → Ty → ScopeTree → Prop) :
    Block → RoutineContext → ScopeTree → Prop
  | ⟨stmts, ret, _, _, _⟩, ctx, tree =>
    StmtsPass scope P stmts ctx tree ∨
      ∃ r ctx' tree', ret = some r ∧
        inferStmts .probe scope stmts ctx tree = .done (stmts, ctx') tree' ∧
        r.value.Passed scope P ctx'.expected tree'
def StmtsPass (scope : ScopeId) (P : Expr → Ty → ScopeTree → Prop) :
    List Stmt → RoutineContext → ScopeTree → Prop
  | [], _, _ => False
  | stmt :: stmts, ctx, tree =>
    stmt.Passes scope P ctx tree ∨
      ∃ ctx' tree', stmt.infer .probe scope ctx tree = .done (stmt, ctx') tree' ∧
        StmtsPass scope P stmts ctx' tree'
def BlocksPass (scope : ScopeId) (P : Expr → Ty → ScopeTree → Prop) :
    List Block → RoutineContext → ScopeTree → Prop
  | [], _, _ => False
  | block :: blocks, ctx, tree =>
    block.Passes scope P ctx tree ∨
      ∃ ctx' tree', block.infer .probe scope ctx tree = .done (block, ctx') tree' ∧
        BlocksPass scope P blocks ctx' tree'
end

section

variable {scope : ScopeId} {P : Expr → Ty → ScopeTree → Prop}

theorem Expr.Passed.exists {expected : Ty} (h : expr.Passed scope P expected tree) :
    ∃ expr ty tree, P expr ty tree := by
  obtain ⟨ty, _, hp⟩ := h
  exact ⟨expr, ty, tree, hp⟩

theorem AnyPassed.exists {expected : Ty} {exprs : List Expr}
    (h : AnyPassed scope P expected tree exprs) : ∃ expr ty tree, P expr ty tree := by
  induction exprs with
  | nil => exact h.elim
  | cons expr exprs ih =>
    rcases h with h | ⟨_, h⟩
    · exact h.exists
    · exact ih h

mutual
theorem Stmt.Passes.exists : ∀ (stmt : Stmt) {ctx : RoutineContext} {tree : ScopeTree},
    stmt.Passes scope P ctx tree → ∃ expr ty tree, P expr ty tree
  | .decl .., _, _, h => by
    obtain ⟨_, _, _, _, h⟩ := h
    exact h.exists
  | .assign .., _, _, h => by
    obtain ⟨_, _, _, _, h⟩ := h
    exact h.exists
  | .branch _ blocks _, _, _, h => by
    rcases h with h | ⟨_, h⟩
    · exact h.exists
    · exact BlocksPass.exists blocks h
  | .forLoop _ _ _ body _ _, _, _, h => by
    rcases h with h | ⟨_, h⟩
    · exact h.exists
    · exact Block.Passes.exists body h
  | .whileLoop _ body _, _, _, h => by
    rcases h with h | ⟨_, h⟩
    · exact h.exists
    · exact Block.Passes.exists body h
  | .call _, _, _, h => Expr.Passed.exists h
termination_by structural stmt => stmt
theorem Block.Passes.exists : ∀ (block : Block) {ctx : RoutineContext} {tree : ScopeTree},
    block.Passes scope P ctx tree → ∃ expr ty tree, P expr ty tree
  | ⟨stmts, _, _, _, _⟩, _, _, h => by
    rcases h with h | ⟨_, _, _, _, _, h⟩
    · exact StmtsPass.exists stmts h
    · exact h.exists
termination_by structural block => block
theorem StmtsPass.exists : ∀ (stmts : List Stmt) {ctx : RoutineContext} {tree : ScopeTree},
    StmtsPass scope P stmts ctx tree → ∃ expr ty tree, P expr ty tree
  | [], _, _, h => h.elim
  | stmt :: stmts, _, _, h => by
    rcases h with h | ⟨_, _, _, h⟩
    · exact Stmt.Passes.exists stmt h
    · exact StmtsPass.exists stmts h
termination_by structural stmts => stmts
theorem BlocksPass.exists : ∀ (blocks : List Block) {ctx : RoutineContext} {tree : ScopeTree},
    BlocksPass scope P blocks ctx tree → ∃ expr ty tree, P expr ty tree
  | [], _, _, h => h.elim
  | block :: blocks, _, _, h => by
    rcases h with h | ⟨_, _, _, h⟩
    · exact Block.Passes.exists block h
    · exact BlocksPass.exists blocks h
termination_by structural blocks => blocks
end

end

/-! ## What a probe leaves -/

theorem Expr.Consumed.eq_of_probe {expected : Ty}
    (h : expr.Consumed .probe scope tree expected expr' ty) : expr' = expr := by
  obtain ⟨_, _, _, _, hw⟩ := h
  exact hw

theorem consumed_of_probe {scope : ScopeId} {expected : Ty} :
    ∀ {exprs exprs' : List Expr}, List.Forall₂
      (fun expr expr' => ∃ ty, expr.Consumed .probe scope tree expected expr' ty) exprs exprs' →
    ∀ expr ∈ exprs, ∃ ty, expr.Consumed .probe scope tree expected expr ty
  | _, _, .nil => by simp
  | _, _, .cons ⟨ty, h⟩ hs => by
    simp only [List.forall_mem_cons]
    exact ⟨⟨ty, h.eq_of_probe ▸ h⟩, consumed_of_probe hs⟩

section

variable {scope : ScopeId} {env : Env} {ctx ctx' : RoutineContext} {tree tree' : ScopeTree}

theorem Stmt.Resolved.probe_same {stmt stmt' : Stmt} (hr : stmt.Resolved env)
    (h : stmt.infer .probe scope ctx tree = .done (stmt', ctx') tree') : stmt' = stmt := by
  obtain ⟨other, hp, _⟩ := Stmt.infer_probe stmt
    (Stmt.Resolved.within stmt (fun _ _ => trivial) (fun _ _ _ _ => trivial) hr).1 (.refl _ _) h
  rw [h] at hp
  cases hp
  rfl

theorem Block.Resolved.probe_same {block block' : Block} (hr : block.Resolved env)
    (h : block.infer .probe scope ctx tree = .done (block', ctx') tree') : block' = block := by
  obtain ⟨other, hp, _⟩ := Block.infer_probe block
    (Block.Resolved.within block (fun _ _ => trivial) (fun _ _ _ _ => trivial) hr).1 (.refl _ _) h
  rw [h] at hp
  cases hp
  rfl

theorem StmtsResolved.probe_same {stmts stmts' : List Stmt} (hr : StmtsResolved env stmts)
    (h : inferStmts .probe scope stmts ctx tree = .done (stmts', ctx') tree') : stmts' = stmts := by
  obtain ⟨other, hp, _⟩ := inferStmts_probe stmts
    (StmtsResolved.within stmts (fun _ _ => trivial) (fun _ _ _ _ => trivial) hr).1 (.refl _ _) h
  rw [h] at hp
  cases hp
  rfl

end

/-! ## Runs in lockstep -/

/-- How a committing run and a probe from the same state end: both done, alike in what `view` shows,
or both stopped for the same reason. Or the committing run has stalled, for a reason in `S`. -/
inductive Outcome.Lockstep (S : Halt → Prop) (view : α → κ) :
    Outcome σ ν α → Outcome σ ν α → Prop
  | done {a b : α} {state : σ} (h : view a = view b) :
    Lockstep S view (.done a state) (.done b state)
  | stopped {node other : ν} {halt : Halt} {state : σ} :
    Lockstep S view (.stopped node halt state) (.stopped other halt state)
  | stalled {node : ν} {halt : Halt} {state : σ} {probe : Outcome σ ν α} (h : S halt) :
    Lockstep S view (.stopped node halt state) probe

namespace Outcome.Lockstep

variable {σ ν μ α β : Type} {S S' : Halt → Prop} {view : α → κ} {view' : β → ι}

theorem mono {commit probe : Outcome σ ν α} (h : Lockstep S view commit probe)
    (hS : ∀ halt, S halt → S' halt) : Lockstep S' view commit probe := by
  cases h with
  | done h => exact .done h
  | stopped => exact .stopped
  | stalled h => exact .stalled (hS _ h)

theorem ofExcept {node other : ν} {x : Except Halt α} {f g : α → Pass σ ν β} {s : σ}
    (hf : ∀ a, x = .ok a → Lockstep S view' (f a s) (g a s)) :
    Lockstep S view' ((Pass.ofExcept node x >>= f) s) ((Pass.ofExcept other x >>= g) s) := by
  cases x with
  | ok a => exact hf a rfl
  | error halt => exact .stopped

theorem setTypeHere {node other : ν} {ty : Ty} {f g : Unit → Pass ScopeTree ν β} {s : ScopeTree}
    (hf : ∀ s', Lockstep S view' (f () s') (g () s')) :
    Lockstep S view' ((ScriptLang.setTypeHere node id ty >>= f) s)
      ((ScriptLang.setTypeHere other id ty >>= g) s) := by
  cases hset : (s.setVarType id ty).mapError Halt.fault with
  | error halt => simpa [ScriptLang.setTypeHere, hset] using .stopped
  | ok s' => simpa [ScriptLang.setTypeHere, hset] using hf s'

theorem within {p q : Pass σ μ α} {f g : α → Pass σ ν β} {rebuild rebuild' : μ → ν} {s : σ}
    (h : Lockstep S view (p s) (q s))
    (hf : ∀ a b s', p s = .done a s' → q s = .done b s' → view a = view b →
      Lockstep S view' (f a s') (g b s')) :
    Lockstep S view' ((Pass.within rebuild p >>= f) s) ((Pass.within rebuild' q >>= g) s) := by
  simp only [bind_apply, within_apply]
  cases hp : p s <;> cases hq : q s <;> rw [hp, hq] at h <;> cases h
  case done.done.done hv => exact hf _ _ _ hp hq hv
  case stopped.stopped.stopped => exact .stopped
  case stopped.stopped.stalled hs => exact .stalled hs
  case stopped.done.stalled hs => exact .stalled hs

end Outcome.Lockstep

/-- An expression where a committing run gets to it: what is in sight is known, and the expression
has a type that fits what is expected. A `fresh` tree has no types in its slots. -/
structure Expr.Met (fresh : Prop) (scope : ScopeId) (tree : ScopeTree) (expr : Expr) (ty : Ty) :
    Prop where
  rooted : tree.Rooted
  plain : tree.Plain
  unambiguous : tree.Unambiguous
  resolved : ∃ env, tree.EnvTyped env ∧ expr.Resolved env
  fits : ∃ expected, expected.Flat ∧ expr.Consumed .probe scope tree expected expr ty
  untyped : fresh → expr.clear true = expr

/-- Where a committing run stalls, `P` holds of the reason, the expression, the type asked of it and
the tree. -/
def StallsBy (fresh : Prop) (scope : ScopeId) (P : Halt → Expr → Ty → ScopeTree → Prop) : Prop :=
  ∀ (tree : ScopeTree) (expr : Expr) (ty : Ty) (node : Expr) (halt : Halt) (tree' : ScopeTree),
    expr.Met fresh scope tree ty → expr.commit scope ty tree = .stopped node halt tree' →
    P halt expr ty tree

theorem Expr.span_eq_of_clear (h : expr'.clear true = expr.clear true) :
    expr'.span = expr.span := by
  cases expr <;> cases expr' <;> simp_all [Expr.clear, Expr.span]

section

variable {fresh : Prop} {scope : ScopeId} {P : Halt → Expr → Ty → ScopeTree → Prop}

theorem Expr.consume_lockstep (hP : StallsBy fresh scope P) {expected : Ty} {origin : Origin}
    (hi : InSight tree env ctx sites) (hr : expr.Resolved env) (hx : expected.Flat)
    (hu : fresh → expr.clear true = expr) :
    Outcome.Lockstep (fun halt => expr.Passed scope (P halt) expected tree)
      (fun out => (out.1.span, out.2)) (expr.consume .commit scope expected origin tree)
      (expr.consume .probe scope expected origin tree) := by
  refine .ofExcept fun found hs => .ofExcept fun ty hty => ?_
  by_cases hv : ty.isVariant = true
  · simp only [hv, if_true, stop_apply]
    exact .stopped
  · simp only [hv, Bool.false_eq_true, if_false, bind_apply, pure_apply]
    have hc : expr.Consumed .probe scope tree expected expr ty :=
      ⟨found, hs, Ty.unifyOrMismatch_eq_ok.mp (mapError_eq_ok.mp hty), by simpa using hv, rfl⟩
    cases hcommit : expr.commit scope ty tree with
    | done expr' tree' =>
      obtain ⟨rfl, hclear, _⟩ := Expr.commit_spec expr expr' hcommit
      exact .done (by rw [Expr.span_eq_of_clear hclear])
    | stopped node halt tree' =>
      have hmet : expr.Met fresh scope tree ty :=
        ⟨hi.rooted, hi.plain, hi.unambiguous, ⟨env, hi.typed, hr⟩, ⟨expected, hx, hc⟩, hu⟩
      exact .stalled ⟨ty, hc, hP tree expr ty node halt tree' hmet hcommit⟩

theorem consumeAll_lockstep (hP : StallsBy fresh scope P) {env : Env} {ctx : RoutineContext}
    {sites : List Site} {expected : Ty} {origin : Span → Origin} {tree : ScopeTree}
    (hi : InSight tree env ctx sites) (hx : expected.Flat) : ∀ {exprs : List Expr},
    AllResolved env exprs → (fresh → clearAll true exprs = exprs) →
    Outcome.Lockstep (fun halt => AnyPassed scope (P halt) expected tree exprs) (fun _ => ())
      (consumeAll .commit scope expected origin exprs tree)
      (consumeAll .probe scope expected origin exprs tree)
  | [], _, _ => .done rfl
  | expr :: exprs, hr, hu => by
    have hue : fresh → expr.clear true = expr := fun hf => (List.cons.inj (hu hf)).1
    have hues : fresh → clearAll true exprs = exprs := fun hf => (List.cons.inj (hu hf)).2
    refine .within ((Expr.consume_lockstep hP hi hr.1 hx hue).mono fun _ h => Or.inl h)
      fun a b s _ hq _ => ?_
    obtain ⟨hc, rfl⟩ := Expr.consume_eq_done.mp hq
    obtain rfl := hc.eq_of_probe
    refine .within ((consumeAll_lockstep hP hi hx hr.2 hues).mono fun _ h => ?_)
      fun _ _ _ _ _ _ => .done rfl
    exact Or.inr ⟨⟨_, hc⟩, h⟩

mutual
theorem Stmt.infer_lockstep (hP : StallsBy fresh scope P) : ∀ (stmt : Stmt) {env : Env}
    {ctx : RoutineContext} {tree : ScopeTree}, InSight tree env ctx stmt.sites → stmt.Resolved env →
    (fresh → stmt.clear true = stmt) →
    Outcome.Lockstep (fun halt => stmt.Passes scope (P halt) ctx tree) Prod.snd
      (stmt.infer .commit scope ctx tree) (stmt.infer .probe scope ctx tree)
  | .decl _ _ value _ _, _, _, _, hi, hr, hu => by
    have huv : fresh → value.clear true = value := fun hf => by injection hu hf
    refine .ofExcept fun entry hb => ?_
    obtain ⟨id, var⟩ := entry
    obtain ⟨hh, hv⟩ := boundVariable_eq_ok.mp hb
    have hx := hi.plain.declared var (List.mem_of_getElem? hv)
    refine .within ((Expr.consume_lockstep hP hi hr.1 hx huv).mono fun _ h => ⟨id, var, hh, hv, h⟩)
      fun a b s ha hb hab => ?_
    obtain ⟨hspan, hty⟩ := Prod.mk.inj hab
    simp only [hspan, hty]
    exact .ofExcept fun _ _ => .setTypeHere fun _ => .done rfl
  | .assign _ value _ _, _, _, _, hi, hr, hu => by
    have huv : fresh → value.clear true = value := fun hf => by injection hu hf
    refine .ofExcept fun entry hb => ?_
    obtain ⟨id, var⟩ := entry
    obtain ⟨hh, hv, _⟩ := assignedVariable_eq_ok.mp hb
    have hx := hi.plain.types var (List.mem_of_getElem? hv)
    refine .within ((Expr.consume_lockstep hP hi hr.1 hx huv).mono fun _ h => ⟨id, var, hh, hv, h⟩)
      fun a b s ha hb hab => ?_
    obtain ⟨hspan, hty⟩ := Prod.mk.inj hab
    simp only [hspan, hty]
    exact .ofExcept fun _ _ => .setTypeHere fun _ => .done rfl
  | .branch conds blocks _, _, _, _, hi, hr, hu => by
    have huc : fresh → clearAll true conds = conds := fun hf => by injection hu hf
    have hub : fresh → clearBlocks true blocks = blocks := fun hf => by injection hu hf
    refine .within ((consumeAll_lockstep hP hi Ty.prim_bool.flat hr.2.1 huc).mono
      fun _ h => Or.inl h)
      fun a b s _ hq _ => ?_
    obtain ⟨hall, rfl⟩ := consumeAll_eq_done.mp hq
    refine .within ((inferBlocks_lockstep hP blocks hi hr.2.2 hub).mono fun _ h => Or.inr ⟨?_, h⟩)
      fun _ _ _ _ _ hab => .done hab
    exact consumed_of_probe hall
  | .forLoop _ lo hi body _ _, _, _, _, hs, hr, hu => by
    obtain ⟨hrl, hrh, id, rfl, hrb⟩ := hr
    have hul : fresh → lo.clear true = lo := fun hf => by injection hu hf
    have huh : fresh → hi.clear true = hi := fun hf => by injection hu hf
    have hub : fresh → body.clear true = body := fun hf => by injection hu hf
    refine .within ((Expr.consume_lockstep hP hs hrl Ty.prim_int.flat hul).mono
      fun _ h => Or.inl (Or.inl h))
      fun a b s _ hq _ => ?_
    obtain ⟨hcl, rfl⟩ := Expr.consume_eq_done.mp hq
    obtain rfl := hcl.eq_of_probe
    refine .within ((Expr.consume_lockstep hP hs hrh Ty.prim_int.flat huh).mono
      fun _ h => Or.inl (Or.inr ⟨⟨_, hcl⟩, Or.inl h⟩))
      fun a b s _ hq _ => ?_
    obtain ⟨hch, rfl⟩ := Expr.consume_eq_done.mp hq
    obtain rfl := hch.eq_of_probe
    refine .within ((Block.infer_lockstep hP body hs.loop hrb hub).mono fun _ h => Or.inr ⟨?_, h⟩)
      fun _ _ _ _ _ hab => .done hab
    simp only [List.forall_mem_cons]
    exact ⟨⟨_, hcl⟩, ⟨_, hch⟩, by simp⟩
  | .whileLoop cond body _, _, _, _, hi, hr, hu => by
    have huc : fresh → cond.clear true = cond := fun hf => by injection hu hf
    have hub : fresh → body.clear true = body := fun hf => by injection hu hf
    refine .within ((Expr.consume_lockstep hP hi hr.1 Ty.prim_bool.flat huc).mono
      fun _ h => Or.inl h)
      fun a b s _ hq _ => ?_
    obtain ⟨hc, rfl⟩ := Expr.consume_eq_done.mp hq
    obtain rfl := hc.eq_of_probe
    exact .within ((Block.infer_lockstep hP body hi hr.2 hub).mono fun _ h => Or.inr ⟨⟨_, hc⟩, h⟩)
      fun _ _ _ _ _ hab => .done hab
  | .call value, _, _, _, hi, hr, hu => by
    have huv : fresh → value.clear true = value := fun hf => by injection hu hf
    exact .within (Expr.consume_lockstep hP hi hr Ty.flat_unknown huv)
      fun _ _ _ _ _ _ => .done rfl
termination_by structural stmt => stmt
theorem Block.infer_lockstep (hP : StallsBy fresh scope P) : ∀ (block : Block) {env : Env}
    {ctx : RoutineContext} {tree : ScopeTree}, InSight tree env ctx block.sites →
    block.Resolved env → (fresh → block.clear true = block) →
    Outcome.Lockstep (fun halt => block.Passes scope (P halt) ctx tree) Prod.snd
      (block.infer .commit scope ctx tree) (block.infer .probe scope ctx tree)
  | ⟨stmts, none, _, _, _⟩, _, _, _, hi, hr, hu => by
    have hus : fresh → clearStmts true stmts = stmts := fun hf => by injection hu hf
    exact .within ((inferStmts_lockstep hP stmts hi hr.1 hus).mono fun _ h => Or.inl h)
      fun _ _ _ _ _ hab => .done hab
  | ⟨stmts, some ⟨value, _⟩, _, _, _⟩, env, _, _, hi, hr, hu => by
    have hus : fresh → clearStmts true stmts = stmts := fun hf => by injection hu hf
    have huv : fresh → value.clear true = value := by
      intro hf
      have hret := congrArg Block.ret (hu hf)
      simpa [Block.clear, Return.clear] using hret
    refine .within ((inferStmts_lockstep hP stmts hi hr.1 hus).mono fun _ h => Or.inl h)
      fun a b tree₁ ha hb hab => ?_
    obtain ⟨stmts', ctx₁⟩ := b
    obtain rfl : stmts' = stmts := hr.1.probe_same hb
    have hsteps := hr.1.steps hb
    -- Both runs reach the returned value with the same tree and the same expectation.
    have ht := (inferStmts_firm stmts' hi hr.1 ha).2
    have hi' : InSight tree₁ (extendStmts env stmts') ctx₁ [] :=
      InSight.next (by simpa using hi) hsteps ht
    have hctx : a.2 = ctx₁ := hab
    simp only [hctx]
    refine .within ((Expr.consume_lockstep hP hi' (hr.2 _ rfl) hi'.expected huv).mono
      fun _ h => Or.inr ⟨_, ctx₁, tree₁, rfl, hb, h⟩)
      fun _ _ _ _ _ hab => ?_
    obtain ⟨_, hty⟩ := Prod.mk.inj hab
    exact .done (by simp only [hty])
termination_by structural block => block
theorem inferStmts_lockstep (hP : StallsBy fresh scope P) : ∀ (stmts : List Stmt) {env : Env}
    {ctx : RoutineContext} {tree : ScopeTree}, InSight tree env ctx (sitesOf stmts) →
    StmtsResolved env stmts → (fresh → clearStmts true stmts = stmts) →
    Outcome.Lockstep (fun halt => StmtsPass scope (P halt) stmts ctx tree) Prod.snd
      (inferStmts .commit scope stmts ctx tree) (inferStmts .probe scope stmts ctx tree)
  | [], _, _, _, _, _, _ => .done rfl
  | stmt :: stmts, _, _, _, hi, hr, hu => by
    have hus : fresh → stmt.clear true = stmt := fun hf => (List.cons.inj (hu hf)).1
    have hurest : fresh → clearStmts true stmts = stmts := fun hf => (List.cons.inj (hu hf)).2
    refine .within ((Stmt.infer_lockstep hP stmt hi.first hr.1 hus).mono fun _ h => Or.inl h)
      fun a b tree₁ ha hb hab => ?_
    obtain ⟨stmt', ctx₁⟩ := b
    obtain rfl : stmt' = stmt := hr.1.probe_same hb
    have ht := (Stmt.infer_firm stmt' hi.first hr.1 ha).2
    have hctx : a.2 = ctx₁ := hab
    simp only [hctx]
    have hrest := inferStmts_lockstep hP stmts (hi.next (hr.1.steps hb) ht) hr.2 hurest
    exact .within (hrest.mono fun _ h => Or.inr ⟨ctx₁, tree₁, hb, h⟩)
      fun _ _ _ _ _ hab => .done hab
termination_by structural stmts => stmts
theorem inferBlocks_lockstep (hP : StallsBy fresh scope P) : ∀ (blocks : List Block) {env : Env}
    {ctx : RoutineContext} {tree : ScopeTree}, InSight tree env ctx (sitesOfBlocks blocks) →
    BlocksResolved env blocks → (fresh → clearBlocks true blocks = blocks) →
    Outcome.Lockstep (fun halt => BlocksPass scope (P halt) blocks ctx tree) Prod.snd
      (inferBlocks .commit scope blocks ctx tree) (inferBlocks .probe scope blocks ctx tree)
  | [], _, _, _, _, _, _ => .done rfl
  | block :: blocks, _, _, _, hi, hr, hu => by
    have hub : fresh → block.clear true = block := fun hf => (List.cons.inj (hu hf)).1
    have hurest : fresh → clearBlocks true blocks = blocks := fun hf => (List.cons.inj (hu hf)).2
    refine .within ((Block.infer_lockstep hP block hi.first hr.1 hub).mono fun _ h => Or.inl h)
      fun a b tree₁ ha hb hab => ?_
    obtain ⟨block', ctx₁⟩ := b
    obtain rfl : block' = block := hr.1.probe_same hb
    have ht := (Block.infer_firm block' hi.first hr.1 ha).2
    have hctx : a.2 = ctx₁ := hab
    simp only [hctx]
    have hrest := inferBlocks_lockstep hP blocks (hi.next (hr.1.steps hb) ht) hr.2 hurest
    exact .within (hrest.mono fun _ h => Or.inr ⟨ctx₁, tree₁, hb, h⟩)
      fun _ _ _ _ _ hab => .done hab
termination_by structural blocks => blocks
end

end

/-! ## Expressions that cannot be committed -/

theorem stallsBy_error : StallsBy False 1 fun halt _ _ _ => ∃ e, halt = .error e := by
  intro tree expr ty node halt tree' hmet hc
  obtain ⟨env, he, hr⟩ := hmet.resolved
  have hin : env.Within (tree.decls.length > ·) := by
    intro entry hm
    obtain ⟨var, hv, _⟩ := he entry hm
    exact (List.getElem?_eq_some_iff.mp hv).1
  have hE : Allowing (fun halt => ∃ e, halt = .error e) False .commit := by
    refine ⟨?_, .inr (.inr fun _ _ => ⟨_, rfl⟩)⟩
    rintro (e | fault) hcomplaint
    · exact ⟨e, rfl⟩
    · cases hcomplaint
  exact ((expr.commit_fair hE ty hr (hr.within hin) False.elim).stopped ⟨hmet.rooted, rfl, rfl⟩ hc).1

/-! ## Functions -/

theorem ScopeTree.Agree.eq (h : tree.Agree (fun _ => True) tree') : tree = tree' := by
  have hd : tree.decls = tree'.decls := List.ext_getElem? fun id => h.types id trivial
  obtain ⟨parents, decls, sigs⟩ := tree
  obtain ⟨parents', decls', sigs'⟩ := tree'
  exact ScopeTree.mk.injEq .. ▸ ⟨h.parents, hd, h.sigs⟩

/-- What can be committed can be probed, with the same result. -/
theorem FnDef.Resolved.inferBody_probe {fn' : FnDef} {ret : Ty} (hr : fn.Resolved)
    (h : fn.inferBody .commit scope sig tree = .done (fn', ret) tree') :
    fn.inferBody .probe scope sig tree = .done (fn, ret) tree' := by
  obtain ⟨signature, body, ctx, hs, hb, _, rfl⟩ := FnDef.inferBody_eq_done.mp h
  obtain ⟨other, hprobe, ha⟩ := Block.infer_probe fn.body hr.within_true (.refl _ _) hb
  obtain rfl := ha.eq
  exact FnDef.inferBody_eq_done.mpr ⟨signature, fn.body, ctx, hs, hprobe, rfl, rfl⟩

/-- A function that cannot be probed cannot be committed: it fails with the error of the probe, or
stalls before. -/
theorem FnDef.Resolved.commit_stopped {fresh : Prop} {P : Halt → Expr → Ty → ScopeTree → Prop}
    {part : FnDef} {signature : Signature} {halt : Halt} (hP : StallsBy fresh 1 P)
    (hr : fn.Resolved) (hu : fresh → fn.body.clear true = fn.body)
    (hs : tree.sigs[sig]? = some signature)
    (hi : InSight tree (extendParams [] fn.params) ⟨signature.ret, fn.span, false⟩ fn.body.sites)
    (h : fn.inferBody .probe 1 sig tree = .stopped part halt tree') :
    ∃ fn' halt' tree₁, fn.commit 1 sig tree = .stopped fn' halt' tree₁ ∧
      (halt' = halt ∨
        fn.body.Passes 1 (P halt') ⟨signature.ret, fn.span, false⟩ tree) := by
  have hread : (tree.signature sig).mapError Halt.fault = .ok signature :=
    mapError_eq_ok.mpr (signature_eq_ok.mpr hs)
  have hstep := Block.infer_lockstep hP fn.body hi hr hu
  cases hc : fn.body.infer .commit 1 ⟨signature.ret, fn.span, false⟩ tree with
  | done out tree₁ =>
    -- A probe that gets through contradicts the failure of the function.
    rw [hc] at hstep
    generalize hq : fn.body.infer .probe 1 ⟨signature.ret, fn.span, false⟩ tree = probe at hstep
    cases hstep with
    | done _ => simp [FnDef.inferBody, hread, hq] at h
  | stopped body halt' tree₁ =>
    refine ⟨{ fn with body }, halt', tree₁, by simp [FnDef.commit, FnDef.inferBody, hread, hc], ?_⟩
    rw [hc] at hstep
    generalize hq : fn.body.infer .probe 1 ⟨signature.ret, fn.span, false⟩ tree = probe at hstep
    cases hstep with
    | stopped =>
      simp only [FnDef.inferBody, bind_apply, scopes_apply, hread, ofExcept_ok, within_apply, hq,
        Outcome.stopped.injEq] at h
      exact Or.inl h.2.1
    | stalled hp => exact Or.inr hp

/-! ## The first function that failed -/

theorem probe_error {node : ν} {round : Nat} {e : TypeError} {settled : Bool}
    (h : probe node scope round fn sig none tree = .done (some e, settled) tree') :
    ∃ part tree₁,
      fn.inferBody .probe scope sig tree.resetInferred = .stopped part (.error e) tree₁ := by
  cases hs : (tree.signature sig).mapError Halt.fault with
  | error => simp [probe, hs] at h
  | ok signature =>
    by_cases hk : signature.ret.isFullyKnown = true
    · simp [probe, hs, hk] at h
    · cases hb : fn.inferBody .probe scope sig tree.resetInferred with
      | stopped part halt tree₁ =>
        cases halt with
        | fault => simp [probe, hs, hk, resetHere, attempt, hb] at h
        | error e' =>
          obtain ⟨⟨rfl, _⟩, _⟩ : (e' = e ∧ false = settled) ∧ tree₁ = tree' := by
            simpa [probe, hs, hk, resetHere, attempt, hb] using h
          exact ⟨part, tree₁, rfl⟩
      | done out tree₁ =>
        by_cases hr : out.2.isFullyKnown = true
        · cases hset : (tree₁.setReturn sig out.2).mapError Halt.fault <;>
            simp [probe, hs, hk, resetHere, attempt, hb, hr, hset] at h
        · simp [probe, hs, hk, resetHere, attempt, hb, hr] at h

theorem probeRound_error {node : ν} {scope : ScopeId} {round : Nat} {e : TypeError} :
    ∀ {fns : List FnDef} {sigs : List SigId} {lasts : List LastError} {tree tree' : ScopeTree}
    {i : Nat} {fn : FnDef} {sig : SigId}, fns[i]? = some fn → sigs[i]? = some sig →
    probeRound node scope round fns sigs (.replicate fns.length none) tree =
      .done (lasts, false) tree' → lasts[i]? = some (some e) →
    ∃ part tree₁,
      fn.inferBody .probe scope sig tree.resetInferred = .stopped part (.error e) tree₁
  | [], _, _, _, _, _, _, _, hf, _, _, _ => by simp at hf
  | _ :: _, [], _, _, _, _, _, _, _, hs, _, _ => by simp at hs
  | _ :: _, _ :: _, _, _, _, i, _, _, hf, hs, h, he => by
    simp only [List.length_cons, List.replicate_succ, probeRound, bind_eq_done, pure_eq_done,
      Prod.exists, Prod.mk.injEq, Bool.or_eq_false_iff] at h
    obtain ⟨last, settled, tree₁, hp, rest, others, tree₂, hr, ⟨rfl, rfl, rfl⟩, rfl⟩ := h
    cases i with
    | zero =>
      simp only [List.getElem?_cons_zero, Option.some.injEq] at hf hs he
      subst hf hs he
      exact probe_error hp
    | succ i =>
      simp only [List.getElem?_cons_succ] at hf hs he
      rw [← probe_reset hp]
      exact probeRound_error hf hs hr he

theorem commitOrder_first {i : Nat} (h : lasts.findIdx? Option.isSome = some i) :
    ∃ rest, commitOrder lasts = i :: rest := by
  have hfirst : ∀ (lasts : List LastError) (i n : Nat), lasts.findIdx? Option.isSome = some i →
      ∃ last rest, (lasts.zipIdx n).filter (·.1.isSome) = (last, n + i) :: rest := by
    intro lasts
    induction lasts with
    | nil => intro i n h; simp at h
    | cons last lasts ih =>
      intro i n h
      rw [List.findIdx?_cons] at h
      cases hl : last.isSome with
      | true =>
        obtain rfl : 0 = i := by simpa [hl] using h
        exact ⟨last, (lasts.zipIdx (n + 1)).filter (·.1.isSome), by simp [hl]⟩
      | false =>
        obtain ⟨j, hj, rfl⟩ : ∃ j, lasts.findIdx? Option.isSome = some j ∧ j + 1 = i := by
          simpa [hl] using h
        obtain ⟨found, rest, he⟩ := ih j (n + 1) hj
        exact ⟨found, rest, by simp [hl, he, Nat.add_comm, Nat.add_left_comm]⟩
  obtain ⟨last, rest, he⟩ := hfirst lasts i 0 h
  simp [commitOrder, he]

theorem ScopeTree.EnvTyped.params (hp : tree.Plain) {params : List Param} {tys : List Ty} {n : Nat}
    {env : Env}
    (htys : List.Forall₂ (fun (param : Param) ty => param.ty.resolve = .ok ty) params tys)
    (hn : Numbered tree n (params.map Param.site)) (he : tree.EnvTyped env) :
    tree.EnvTyped (extendParams env params) := by
  induction htys generalizing n env with
  | nil => exact he
  | @cons param ty params _ hty _ ih =>
    obtain ⟨hh, ⟨var, hv, hd⟩, hn⟩ := hn
    have hdecl : var.declared = ty := Except.ok.inj (hd.type.symm.trans hty)
    have hprim := (TypeExpr.resolve_eq_ok hty).2
    have hvar : var.ty = ty := by
      rw [hp.fixed var (List.mem_of_getElem? hv) (hdecl ▸ hprim), hdecl]
    have hh : param.handle = some n := hh
    rw [extendParams, hh]
    exact ih hn (he.cons hv hd.name (hvar ▸ hprim))

theorem FnDef.Ready.inSight {base : ScopeTree} {n : Nat} {signature : Signature}
    (h : fn.Ready scope base n sig) (hroot : base.Rooted) (hp : base.Plain) (hu : base.Unambiguous)
    (hs : base.sigs[sig]? = some signature) :
    InSight base (extendParams [] fn.params) ⟨signature.ret, fn.span, false⟩ fn.body.sites := by
  obtain ⟨hparams, hbody⟩ := numbered_append.mp h.numbered
  obtain ⟨_, _, ⟨params, ret, hty, _⟩, _, _⟩ := h.shown
  constructor
  case rooted => exact hroot
  case plain => exact hp
  case unambiguous => exact hu
  case typed => exact .params hp (FnDef.signatureTypes_spec hty).1 hparams (by simp [EnvTyped])
  case declares =>
    intro site hm
    obtain ⟨id, var, hh, _, _, hv, hd⟩ := hbody.get hm
    exact ⟨id, var, hh, hv, hd⟩
  case ret => exact hp.rets signature (List.mem_of_getElem? hs)

/-- Discovery has ended with a function that cannot be probed, and those before it can be. Then this
function is committed first, and inference ends with it if it cannot be committed. -/
theorem CompileUnit.ResolvedIn.first_failed {unit : CompileUnit} {res : Resolution} {i : Nat}
    (h : unit.ResolvedIn res)
    (hd : discoverReturns unit res.unitScope unit.functions res.signatures res.scopes =
      .done lasts tree)
    (hi : lasts.findIdx? Option.isSome = some i) :
    ∃ fn sig signature e part tree₁, unit.functions[i]? = some fn ∧ res.signatures[i]? = some sig ∧
      lasts[i]? = some (some e) ∧ fn.Resolved ∧
      tree.resetInferred.sigs[sig]? = some signature ∧
      InSight tree.resetInferred (extendParams [] fn.params) ⟨signature.ret, fn.span, false⟩
        fn.body.sites ∧
      fn.inferBody .probe 1 sig tree.resetInferred = .stopped part (.error e) tree₁ ∧
      ∀ fn' halt tree', fn.commit 1 sig tree.resetInferred = .stopped fn' halt tree' →
        unit.infer res.unitScope res.signatures res.scopes =
          .stopped { unit with functions := unit.functions.set i fn' } halt tree' := by
  obtain ⟨hlen, href, hex⟩ := discoverReturns_spec h.signatures_length h.functions h.plain
    h.openCount_le hd
  obtain ⟨hlt, hsome, _⟩ := List.findIdx?_eq_some_iff_getElem.mp hi
  obtain ⟨e, he⟩ := Option.isSome_iff_exists.mp hsome
  have hlast : lasts[i]? = some (some e) := by rw [List.getElem?_eq_getElem hlt, he]
  have hlf : i < unit.functions.length := hlen ▸ hlt
  have hls : i < res.signatures.length := h.signatures_length ▸ hlf
  have hf : unit.functions[i]? = some unit.functions[i] := List.getElem?_eq_getElem hlf
  have hs : res.signatures[i]? = some res.signatures[i] := List.getElem?_eq_getElem hls
  have hready := h.ready href hex i _ _ hf hs
  obtain ⟨_, signature, _, hsig, _⟩ := hready.shown
  have hroot : tree.resetInferred.Rooted := by
    obtain ⟨more, hm⟩ := h.parents
    exact ⟨more, href.parents.trans hm⟩
  -- The last round has probed the function from the tree that discovery has left.
  have hnodup : res.signatures.Nodup := by
    rw [h.signatures]
    exact List.nodup_range'
  obtain ⟨_, hround, _⟩ := discoverReturns_lastRound unit h.signatures_length hnodup h.functions
    h.plain h.openCount_le hd rfl
  obtain ⟨part, tree₁, hprobe⟩ := probeRound_error hf hs hround hlast
  rw [h.unitScope] at hprobe
  refine ⟨_, _, signature, e, part, tree₁, hf, hs, hlast, hready.resolved, hsig,
    hready.inSight hroot (href.plain h.plain) (href.unambiguous h.unambiguous) hsig, hprobe, ?_⟩
  intro fn' halt tree' hc
  obtain ⟨rest, horder⟩ := commitOrder_first hi
  have hfirst : ScriptLang.commitFunctions res.unitScope res.signatures (i :: rest) unit.functions
      tree.resetInferred = .stopped (unit.functions.set i fn') halt tree' := by
    rw [commitFunctions_apply _ _ hf hs, h.unitScope, hc]
  simp only [CompileUnit.infer_apply, hd, CompileUnit.commitBodies, horder, bind_apply,
    within_apply, hfirst]

/-- What can be committed can be probed from the same state, with the same return type and the same
tree. So if discovery reports that functions have failed, inference fails with an error in the first
of them, and writes into no other function and not into the script. -/
theorem commit_refines_probe {unit bound : CompileUnit} {res : Resolution}
    (hr : unit.resolveNames = ⟨bound, .ok res⟩) :
    (∀ fn ∈ bound.functions, ∀ (sig : SigId) (fn' : FnDef) (ret : Ty) (tree tree' : ScopeTree),
      fn.inferBody .commit res.unitScope sig tree = .done (fn', ret) tree' →
      fn.inferBody .probe res.unitScope sig tree = .done (fn, ret) tree') ∧
    ∀ (lasts : List LastError) (tree : ScopeTree) (i : Nat),
      discoverReturns bound res.unitScope bound.functions res.signatures res.scopes =
        .done lasts tree →
      lasts.findIdx? Option.isSome = some i →
      ∃ fn sig fn' e tree', bound.functions[i]? = some fn ∧ res.signatures[i]? = some sig ∧
        fn.commit res.unitScope sig tree.resetInferred = .stopped fn' (.error e) tree' ∧
        SlotsOnly FnDef.clear fn fn' ∧
        bound.inferTypes res = ({ res with scopes := tree' },
          ⟨{ bound with functions := bound.functions.set i fn' }, .error (.error e)⟩) := by
  obtain ⟨start, hres⟩ := Run.ofOutcome_eq_ok.mp hr
  have hbound := (CompileUnit.resolve_spec hres).1
  refine ⟨fun fn hm sig fn' ret tree tree' h => (hbound.functions fn hm).inferBody_probe h, ?_⟩
  intro lasts tree i hd hi
  obtain ⟨fn, sig, signature, e, part, tree₁, hf, hs, _, hfn, hsig, hsight, hprobe, hend⟩ :=
    hbound.first_failed hd hi
  obtain ⟨fn', halt, tree', hc, hwhy⟩ :=
    hfn.commit_stopped stallsBy_error (fun hf => hf.elim) hsig hsight hprobe
  obtain ⟨e', rfl⟩ : ∃ e', halt = .error e' := by
    rcases hwhy with rfl | hstall
    · exact ⟨e, rfl⟩
    · obtain ⟨_, _, _, herror⟩ := Block.Passes.exists _ hstall
      exact herror
  have hleft : SlotsOnly FnDef.clear fn fn' := by
    have hdelivers := (fn.commit_delivers 1 sig tree.resetInferred).1
    rwa [hc] at hdelivers
  refine ⟨fn, sig, fn', e', tree', hf, hs, hbound.unitScope ▸ hc, hleft, ?_⟩
  simp only [CompileUnit.inferTypes, hend fn' _ tree' hc]

/-- What a pass gives if it is done. -/
def Outcome.value? : Outcome σ ν α → Option α
  | .done value _ => some value
  | .stopped .. => none

theorem Outcome.value?_eq_some {outcome : Outcome σ ν α} {value : α} :
    outcome.value? = some value ↔ ∃ state, outcome = .done value state := by
  cases outcome <;> simp [Outcome.value?]

/-- Two functions that cannot be probed; the first of them calls the second. -/
def faltering : CompileUnit where
  functions := [
    { name := "steady", params := [], ret := none
      body := { stmts := [], ret := some { value := .lit (.int 1) } } },
    { name := "first", params := [], ret := none
      body := {
        stmts := [.call (.call "second" [])]
        ret := some { value := .call "+" [.lit (.int 1), .lit (.bool true)] } } },
    { name := "second", params := [], ret := none
      body := {
        stmts := []
        ret := some { value := .call "+" [.lit (.bool true), .lit (.int 2)] } } }]
  script := { name := "main", body := { stmts := [] } }

/-- The errors that discovery ends with. -/
def CompileUnit.probeErrors? (unit : CompileUnit) : Option (List LastError) :=
  unit.resolveNames.result.toOption.bind fun res =>
    (discoverReturns unit.resolveNames.unit res.unitScope unit.resolveNames.unit.functions
      res.signatures res.scopes).value?

theorem CompileUnit.probeErrors?_eq_some {unit : CompileUnit} (h : unit.probeErrors? = some lasts) :
    ∃ bound res tree, unit.resolveNames = ⟨bound, .ok res⟩ ∧
      discoverReturns bound res.unitScope bound.functions res.signatures res.scopes =
        .done lasts tree := by
  obtain ⟨res, hres, hd⟩ := Option.bind_eq_some_iff.mp h
  obtain ⟨tree, hd⟩ := Outcome.value?_eq_some.mp hd
  refine ⟨unit.resolveNames.unit, res, tree, ?_, hd⟩
  cases hr : unit.resolveNames with
  | mk bound result =>
    rw [hr] at hres
    cases result with
    | ok found => simpa [Except.toOption] using hres
    | error halt => simp [Except.toOption] at hres

theorem commit_refines_probe_faltering :
    ∃ bound res lasts tree, faltering.resolveNames = ⟨bound, .ok res⟩ ∧
      discoverReturns bound res.unitScope bound.functions res.signatures res.scopes =
        .done lasts tree ∧
      lasts.findIdx? Option.isSome = some 1 ∧
      ∃ fn sig fn' e tree', bound.functions[1]? = some fn ∧ res.signatures[1]? = some sig ∧
        fn.commit res.unitScope sig tree.resetInferred = .stopped fn' (.error e) tree' ∧
        SlotsOnly FnDef.clear fn fn' ∧
        bound.inferTypes res = ({ res with scopes := tree' },
          ⟨{ bound with functions := bound.functions.set 1 fn' }, .error (.error e)⟩) := by
  have heval : (faltering.probeErrors?.map (List.findIdx? Option.isSome)) = some (some 1) := by
    decide +kernel
  obtain ⟨lasts, hlasts, hfirst⟩ := Option.map_eq_some_iff.mp heval
  obtain ⟨bound, res, tree, hr, hd⟩ := CompileUnit.probeErrors?_eq_some hlasts
  exact ⟨bound, res, lasts, tree, hr, hd, hfirst,
    (commit_refines_probe hr).2 lasts tree 1 hd hfirst⟩

end ScriptLang
