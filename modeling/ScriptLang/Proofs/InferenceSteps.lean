import ScriptLang.Proofs.InferenceRules
import ScriptLang.Proofs.Synthesis
import Mathlib.Logic.Relation

/-!
# Inference as a sequence of steps

Whatever its statements, a run of inference does two things over and over: it retypes a variable,
and it refines the result type of the routine. What each of the two keeps, a run keeps. Runs that
start from trees with the same types for the variables they mention end alike, so that a run which
commits can be replayed as a probe.
-/

namespace ScriptLang

open Pass ScopeTree

variable {expr : Expr} {ty : Ty} {mode : Mode} {scope : ScopeId} {tree : ScopeTree}

/-! ## Only slots are written -/

theorem Expr.clear_withSlot (expr : Expr) (slot : TypeSlot) :
    (expr.withSlot slot).clear true = expr.clear true := by
  cases expr <;> rfl

/-- Only slots differ. -/
def SlotsOnly (clear : Bool → ν → ν) (before after : ν) : Prop :=
  clear true after = clear true before

theorem SlotsOnly.refl {clear : Bool → ν → ν} (node : ν) : SlotsOnly clear node node :=
  rfl

theorem Expr.writeSlot_delivers {before : Expr} (h : SlotsOnly Expr.clear before expr) (ty : Ty) :
    Delivers resetInferred id (SlotsOnly Expr.clear before)
      (expr.writeSlot ty : Pass ScopeTree Expr Expr) :=
  .ofExcept h fun _ => .pure ((expr.clear_withSlot _).trans h)

mutual
theorem Expr.commit_delivers (scope : ScopeId) : ∀ (expr : Expr) (ty : Ty),
    Delivers resetInferred id (SlotsOnly Expr.clear expr)
      (expr.commit scope ty : Pass ScopeTree Expr Expr)
  | .lit .., ty => by
    unfold Expr.commit
    split
    · exact Expr.writeSlot_delivers (.refl _) ty
    · exact .stop (.refl _) _
  | .var .., ty => by
    unfold Expr.commit
    split
    · exact Expr.writeSlot_delivers (.refl _) ty
    · exact .stop (.refl _) _
  | .call name args span slot, ty => by
    have hrebuild : ∀ args', SlotsOnly clearAll args args' →
        SlotsOnly Expr.clear (.call name args span slot) (.call name args' span slot) :=
      fun _ => congrArg (Expr.call name · span none)
    unfold Expr.commit
    split
    · exact .scopes fun _ => .ofExcept (.refl _) fun found => .ofExcept (.refl _) fun sig =>
        .note <| .within (commitAll_delivers scope args sig.params found) hrebuild
          fun args' h => Expr.writeSlot_delivers (hrebuild args' h) ty
    · exact .stop (.refl _) _
theorem commitAll_delivers (scope : ScopeId) : ∀ (exprs : List Expr) (params found : List Ty),
    Delivers resetInferred id (SlotsOnly clearAll exprs)
      (commitAll scope exprs params found : Pass ScopeTree (List Expr) (List Expr))
  | [], _, _ => .pure (.refl _)
  | _ :: _, [], _ => .pure (.refl _)
  | _ :: _, _ :: _, [] => .pure (.refl _)
  | expr :: exprs, _ :: params, _ :: found => by
    unfold commitAll
    split
    · exact .stop (.refl _) _
    · rename_i ty _
      exact .within (Expr.commit_delivers scope expr ty) (fun _ h => congrArg₂ List.cons h rfl)
        fun _ h => .within (commitAll_delivers scope exprs params found)
          (fun _ hs => congrArg₂ List.cons h hs) fun _ hs => .pure (congrArg₂ List.cons h hs)
end

section

variable {mode : Mode} {scope : ScopeId}

theorem Expr.consume_delivers (expr : Expr) (expected : Ty) (origin : Origin) :
    Delivers resetInferred Prod.fst (SlotsOnly Expr.clear expr)
      (expr.consume mode scope expected origin : Pass ScopeTree Expr (Expr × Ty)) := by
  refine .scopes fun _ => .ofExcept (.refl _) fun _ => .ofExcept (.refl _) fun ty => ?_
  split
  · exact .stop (.refl _) _
  · cases mode with
    | probe => exact .pure (.refl _)
    | commit => exact .bind (expr.commit_delivers scope ty) fun _ h => .pure h

theorem consumeAll_delivers (expected : Ty) (origin : Span → Origin) (exprs : List Expr) :
    Delivers resetInferred id (SlotsOnly clearAll exprs)
      (consumeAll mode scope expected origin exprs : Pass ScopeTree (List Expr) (List Expr)) := by
  induction exprs with
  | nil => exact .pure (.refl _)
  | cons expr exprs ih =>
    exact .within (expr.consume_delivers expected (origin expr.span))
      (fun _ h => congrArg₂ List.cons h rfl) fun _ h => .within ih
        (fun _ hs => congrArg₂ List.cons h hs) fun _ hs => .pure (congrArg₂ List.cons h hs)

theorem setTypeHere_delivers {view : α → ν} {P : ν → Prop} {node : ν} {id : DeclId}
    {f : Unit → Pass ScopeTree ν α} (h : P node) (hf : Delivers resetInferred view P (f ())) :
    Delivers resetInferred view P (setTypeHere node id ty >>= f) := by
  have hset : Delivers resetInferred (fun _ => node) P
      (setTypeHere node id ty : Pass ScopeTree ν Unit) := by
    intro tree
    cases ht : tree.setVarType id ty with
    | error fault =>
      have hs : setTypeHere node id ty tree = .stopped node (.fault fault) tree := by
        simp only [setTypeHere, Pass.ofExcept, bind_eq_stopped, scopes, Workspace.scopes,
          reduceCtorEq, Outcome.done.injEq, ↓existsAndEq, and_true, exists_eq_left', ht,
          mapError_error, false_and, exists_false, or_false, or_true]
      rw [hs]
      exact ⟨h, rfl⟩
    | ok tree' =>
      obtain ⟨var, hv, rfl⟩ := setVarType_eq_ok.mp ht
      have hs : setTypeHere node id ty tree = .done () (tree.retype id var ty) :=
        setTypeHere_eq_done.mpr ⟨var, hv, rfl⟩
      rw [hs]
      exact ⟨h, (Agree.of_retype hv ty).skeleton.symm⟩
  exact .bind hset fun _ _ => hf

mutual
/-- A run writes slots and the types of variables, also when it stops. -/
theorem Stmt.infer_delivers : ∀ (stmt : Stmt) (ctx : RoutineContext),
    Delivers resetInferred Prod.fst (SlotsOnly Stmt.clear stmt)
      (stmt.infer mode scope ctx : Pass ScopeTree Stmt (Stmt × RoutineContext))
  | .decl name ascription value span handle, _ => by
    have hrebuild : ∀ value', SlotsOnly Expr.clear value value' → SlotsOnly Stmt.clear
        (.decl name ascription value span handle) (.decl name ascription value' span handle) :=
      fun _ => congrArg (Stmt.decl name ascription · span handle)
    exact .scopes fun _ => .ofExcept (.refl _) fun entry =>
      .within (value.consume_delivers _ _) hrebuild fun out h =>
        .ofExcept (hrebuild out.1 h) fun _ => .note <|
        setTypeHere_delivers (hrebuild out.1 h) (.pure (hrebuild out.1 h))
  | .assign target value span handle, _ => by
    have hrebuild : ∀ value', SlotsOnly Expr.clear value value' → SlotsOnly Stmt.clear
        (.assign target value span handle) (.assign target value' span handle) :=
      fun _ => congrArg (Stmt.assign target · span handle)
    exact .scopes fun _ => .ofExcept (.refl _) fun entry =>
      .within (value.consume_delivers _ _) hrebuild fun out h =>
        .ofExcept (hrebuild out.1 h) fun _ =>
        setTypeHere_delivers (hrebuild out.1 h) (.pure (hrebuild out.1 h))
  | .branch conds blocks span, ctx =>
    .within (consumeAll_delivers _ _ conds) (fun _ hc => congrArg₂ (Stmt.branch · · span) hc rfl)
      fun _ hc => .within (inferBlocks_delivers blocks ctx)
        (fun _ hb => congrArg₂ (Stmt.branch · · span) hc hb)
        fun _ hb => .pure (congrArg₂ (Stmt.branch · · span) hc hb)
  | .forLoop var lo hi body span handle, ctx => by
    have hrebuild : ∀ {lo' hi' body'}, SlotsOnly Expr.clear lo lo' → SlotsOnly Expr.clear hi hi' →
        SlotsOnly Block.clear body body' → SlotsOnly Stmt.clear
          (.forLoop var lo hi body span handle) (.forLoop var lo' hi' body' span handle) := by
      intro lo' hi' body' hl hh hb
      simp only [SlotsOnly, Stmt.clear] at hl hh hb ⊢
      rw [hl, hh, hb]
    exact .within (lo.consume_delivers _ _) (fun _ hl => hrebuild hl (.refl _) (.refl _))
      fun _ hl => .within (hi.consume_delivers _ _) (fun _ hh => hrebuild hl hh (.refl _))
        fun _ hh => .within (Block.infer_delivers body ctx) (fun _ hb => hrebuild hl hh hb)
          fun _ hb => .pure (hrebuild hl hh hb)
  | .whileLoop cond body span, ctx =>
    .within (cond.consume_delivers _ _) (fun _ hc => congrArg₂ (Stmt.whileLoop · · span) hc rfl)
      fun _ hc => .within (Block.infer_delivers body ctx)
        (fun _ hb => congrArg₂ (Stmt.whileLoop · · span) hc hb)
        fun _ hb => .pure (congrArg₂ (Stmt.whileLoop · · span) hc hb)
  | .call value, _ =>
    .within (value.consume_delivers _ _) (fun _ => congrArg Stmt.call)
      fun _ h => .pure (congrArg Stmt.call h)
termination_by structural stmt => stmt
theorem Block.infer_delivers : ∀ (block : Block) (ctx : RoutineContext),
    Delivers resetInferred Prod.fst (SlotsOnly Block.clear block)
      (block.infer mode scope ctx : Pass ScopeTree Block (Block × RoutineContext))
  | ⟨stmts, none, brk, span, own⟩, ctx =>
    .within (inferStmts_delivers stmts ctx) (fun _ => congrArg (Block.mk · none brk span own))
      fun _ h => .pure (congrArg (Block.mk · none brk span own) h)
  | ⟨stmts, some ⟨value, retSpan⟩, brk, span, own⟩, ctx => by
    have hrebuild : ∀ {stmts' value'}, SlotsOnly clearStmts stmts stmts' →
        SlotsOnly Expr.clear value value' → SlotsOnly Block.clear
          ⟨stmts, some ⟨value, retSpan⟩, brk, span, own⟩
          ⟨stmts', some ⟨value', retSpan⟩, brk, span, own⟩ :=
      congrArg₂ fun stmts value => Block.mk stmts (some ⟨value, retSpan⟩) brk span own
    exact .within (inferStmts_delivers stmts ctx) (fun _ hs => hrebuild hs (.refl _))
      fun _ hs => .within (value.consume_delivers _ _) (fun _ hv => hrebuild hs hv)
        fun _ hv => .pure (hrebuild hs hv)
termination_by structural block => block
theorem inferStmts_delivers : ∀ (stmts : List Stmt) (ctx : RoutineContext),
    Delivers resetInferred Prod.fst (SlotsOnly clearStmts stmts)
      (inferStmts mode scope stmts ctx : Pass ScopeTree (List Stmt) (List Stmt × RoutineContext))
  | [], _ => .pure (.refl _)
  | stmt :: stmts, ctx =>
    .within (Stmt.infer_delivers stmt ctx) (fun _ h => congrArg₂ List.cons h rfl)
      fun out h => .within (inferStmts_delivers stmts out.2) (fun _ hs => congrArg₂ List.cons h hs)
        fun _ hs => .pure (congrArg₂ List.cons h hs)
termination_by structural stmts => stmts
theorem inferBlocks_delivers : ∀ (blocks : List Block) (ctx : RoutineContext),
    Delivers resetInferred Prod.fst (SlotsOnly clearBlocks blocks)
      (inferBlocks mode scope blocks ctx :
        Pass ScopeTree (List Block) (List Block × RoutineContext))
  | [], _ => .pure (.refl _)
  | block :: blocks, ctx =>
    .within (Block.infer_delivers block ctx) (fun _ h => congrArg₂ List.cons h rfl)
      fun out h => .within (inferBlocks_delivers blocks out.2)
        (fun _ hs => congrArg₂ List.cons h hs) fun _ hs => .pure (congrArg₂ List.cons h hs)
termination_by structural blocks => blocks
end

end

theorem Block.infer_clear (block : Block) {block' : Block} {ctx ctx' : RoutineContext}
    {tree' : ScopeTree} (h : block.infer mode scope ctx tree = .done (block', ctx') tree') :
    block'.clear true = block.clear true :=
  (block.infer_delivers ctx).done h

/-! ## Steps -/

/-- The type that an expression and what is expected of it agree on. -/
structure Agreed (scope : ScopeId) (tree : ScopeTree) (expected ty : Ty) : Prop where
  found : ∃ (expr : Expr) (found : Ty), expr.synth tree scope = .ok found ∧
    expected.unify found = some ty
  single : ty.isVariant = false

theorem Expr.Consumed.agreed {expr' : Expr} {expected : Ty}
    (h : expr.Consumed mode scope tree expected expr' ty) : Agreed scope tree expected ty := by
  obtain ⟨found, hs, hu, hv, _⟩ := h
  exact ⟨⟨expr, found, hs, hu⟩, hv⟩

/-- What inference does to the routine's result and to the scope tree, one thing at a time: it
stores a type in one of the variables `on`, or returns a value. -/
inductive InferStep (on : DeclId → Prop) (scope : ScopeId) :
    RoutineContext × ScopeTree → RoutineContext × ScopeTree → Prop where
  | store {ctx : RoutineContext} {tree : ScopeTree} {id : DeclId} {var : VarDecl} {expected ty : Ty}
      (hid : on id) (hv : tree.decls[id]? = some var)
      (he : expected = var.declared ∨ expected = var.ty) (ha : Agreed scope tree expected ty) :
      InferStep on scope (ctx, tree) (ctx, tree.retype id var ty)
  | ret {ctx : RoutineContext} {tree : ScopeTree} {ty : Ty}
      (ha : Agreed scope tree ctx.expected ty) :
      InferStep on scope (ctx, tree) ({ ctx with ret := ty }, tree)

/-- Any number of steps. -/
abbrev InferSteps (on : DeclId → Prop) (scope : ScopeId) :
    RoutineContext × ScopeTree → RoutineContext × ScopeTree → Prop :=
  Relation.ReflTransGen (InferStep on scope)

mutual
theorem Stmt.infer_steps {on : DeclId → Prop} {mode : Mode} {scope : ScopeId} : ∀ (stmt : Stmt)
    {stmt' : Stmt} {ctx ctx' : RoutineContext} {tree tree' : ScopeTree}, stmt.Within on →
    stmt.infer mode scope ctx tree = .done (stmt', ctx') tree' →
    InferSteps on scope (ctx, tree) (ctx', tree')
  | .decl .., _, _, _, _, _, hw, h => by
    obtain ⟨id, var, _, _, hh, hv, hc, _, _, rfl, rfl⟩ := Stmt.infer_decl.mp h
    exact .single (.store (hw.2 id hh) hv (Or.inl rfl) hc.agreed)
  | .assign .., _, _, _, _, _, hw, h => by
    obtain ⟨id, var, _, _, hh, hv, _, hc, _, _, rfl, rfl⟩ := Stmt.infer_assign.mp h
    exact .single (.store (hw.2 id hh) hv (Or.inr rfl) hc.agreed)
  | .branch _ blocks _, _, _, _, _, _, hw, h => by
    obtain ⟨_, _, _, hb, _⟩ := Stmt.infer_branch.mp h
    exact inferBlocks_steps blocks hw.2 hb
  | .forLoop _ _ _ body _ _, _, _, _, _, _, hw, h => by
    obtain ⟨_, _, _, _, _, _, _, hb, _⟩ := Stmt.infer_forLoop.mp h
    exact Block.infer_steps body hw.2.2 hb
  | .whileLoop _ body _, _, _, _, _, _, hw, h => by
    obtain ⟨_, _, _, _, hb, _⟩ := Stmt.infer_whileLoop.mp h
    exact Block.infer_steps body hw.2 hb
  | .call _, _, _, _, _, _, _, h => by
    obtain ⟨_, _, _, _, rfl, rfl⟩ := Stmt.infer_call.mp h
    exact .refl
termination_by structural stmt => stmt
theorem Block.infer_steps {on : DeclId → Prop} {mode : Mode} {scope : ScopeId} : ∀ (block : Block)
    {block' : Block} {ctx ctx' : RoutineContext} {tree tree' : ScopeTree}, block.Within on →
    block.infer mode scope ctx tree = .done (block', ctx') tree' →
    InferSteps on scope (ctx, tree) (ctx', tree')
  | ⟨stmts, none, _, _, _⟩, _, _, _, _, _, hw, h => by
    obtain ⟨_, hs, _⟩ := Block.infer_none.mp h
    exact inferStmts_steps stmts hw.1 hs
  | ⟨stmts, some ⟨_, _⟩, _, _, _⟩, _, _, _, _, _, hw, h => by
    obtain ⟨_, _, _, _, hs, hc, _, rfl⟩ := Block.infer_some.mp h
    exact (inferStmts_steps stmts hw.1 hs).tail (.ret hc.agreed)
termination_by structural block => block
theorem inferStmts_steps {on : DeclId → Prop} {mode : Mode} {scope : ScopeId} :
    ∀ (stmts : List Stmt) {stmts' : List Stmt} {ctx ctx' : RoutineContext} {tree tree' : ScopeTree},
    StmtsWithin on stmts → inferStmts mode scope stmts ctx tree = .done (stmts', ctx') tree' →
    InferSteps on scope (ctx, tree) (ctx', tree')
  | [], _, _, _, _, _, _, h => by
    obtain ⟨_, rfl, rfl⟩ := inferStmts_nil.mp h
    exact .refl
  | stmt :: stmts, _, _, _, _, _, hw, h => by
    obtain ⟨_, _, _, _, hs, hr, _⟩ := inferStmts_cons.mp h
    exact (Stmt.infer_steps stmt hw.1 hs).trans (inferStmts_steps stmts hw.2 hr)
termination_by structural stmts => stmts
theorem inferBlocks_steps {on : DeclId → Prop} {mode : Mode} {scope : ScopeId} :
    ∀ (blocks : List Block) {blocks' : List Block} {ctx ctx' : RoutineContext}
    {tree tree' : ScopeTree}, BlocksWithin on blocks →
    inferBlocks mode scope blocks ctx tree = .done (blocks', ctx') tree' →
    InferSteps on scope (ctx, tree) (ctx', tree')
  | [], _, _, _, _, _, _, h => by
    obtain ⟨_, rfl, rfl⟩ := inferBlocks_nil.mp h
    exact .refl
  | block :: blocks, _, _, _, _, _, hw, h => by
    obtain ⟨_, _, _, _, hb, hr, _⟩ := inferBlocks_cons.mp h
    exact (Block.infer_steps block hw.1 hb).trans (inferBlocks_steps blocks hw.2 hr)
termination_by structural blocks => blocks
end

/-! ## What a run keeps -/

section

variable {on : DeclId → Prop} {scope : ScopeId} {ctx ctx' : RoutineContext}
  {tree tree' : ScopeTree}

theorem InferSteps.agree (h : InferSteps on scope (ctx, tree) (ctx', tree')) :
    tree.Agree (fun id => ¬ on id) tree' := by
  suffices hs : ∀ s s', InferStep on scope s s' → s.2.Agree (fun id => ¬ on id) s'.2 by
    have ht : ∀ s, InferSteps on scope (ctx, tree) s → tree.Agree (fun id => ¬ on id) s.2 := by
      intro s hr
      induction hr with
      | refl => exact .refl _ _
      | tail _ hstep ih => exact ih.trans (hs _ _ hstep)
    exact ht _ h
  rintro _ _ (⟨hid, hv, _, _⟩ | _)
  · refine (Agree.of_retype hv _).mono ?_
    rintro id hn rfl
    exact hn hid
  · exact .refl _ _

theorem Agreed.flat {expected : Ty} (h : Agreed scope tree expected ty) (hp : tree.Plain)
    (he : expected.Flat) : ty.Flat := by
  obtain ⟨expr, found, hs, hu⟩ := h.found
  exact ((Expr.synth_transient hp hs).unify he hu).flat h.single

theorem Agreed.eq_of_prim {expected : Ty} (h : Agreed scope tree expected ty) (he : expected.Prim) :
    ty = expected := by
  obtain ⟨_, _, _, hu⟩ := h.found
  exact he.unify_eq_some hu

theorem ScopeTree.Plain.retype (h : tree.Plain) {id : DeclId} {var : VarDecl}
    (hv : tree.decls[id]? = some var) (hf : ty.Flat) (hx : var.declared.Prim → ty = var.declared) :
    (tree.retype id var ty).Plain := by
  have hm : ∀ var' ∈ (tree.retype id var ty).decls, var' ∈ tree.decls ∨ var' = { var with ty } :=
    fun var' hm => List.mem_or_eq_of_mem_set hm
  have hvar := List.mem_of_getElem? hv
  refine ⟨h.params, h.rets, ?_, ?_, ?_⟩
  · intro var' hm'
    rcases hm var' hm' with hm' | rfl
    · exact h.declared var' hm'
    · exact h.declared var hvar
  · intro var' hm'
    rcases hm var' hm' with hm' | rfl
    · exact h.types var' hm'
    · exact hf
  · intro var' hm'
    rcases hm var' hm' with hm' | rfl
    · exact h.fixed var' hm'
    · exact hx

theorem InferStep.plain {s s' : RoutineContext × ScopeTree} (h : InferStep on scope s s')
    (hp : s.2.Plain ∧ s.1.ret.Flat) : s'.2.Plain ∧ s'.1.ret.Flat := by
  obtain ⟨hp, hr⟩ := hp
  cases h with
  | store hid hv he ha =>
    have hvar := List.mem_of_getElem? hv
    refine ⟨hp.retype hv (ha.flat hp ?_) ?_, hr⟩
    · rcases he with rfl | rfl
      · exact hp.declared _ hvar
      · exact hp.types _ hvar
    · intro hd
      rcases he with rfl | rfl
      · exact ha.eq_of_prim hd
      · rw [hp.fixed _ hvar hd] at ha
        exact ha.eq_of_prim hd
  | @ret ctx tree ty ha =>
    refine ⟨hp, ha.flat hp ?_⟩
    unfold RoutineContext.expected
    split
    · exact Ty.prim_int.flat
    · exact hr

theorem InferSteps.plain (h : InferSteps on scope (ctx, tree) (ctx', tree'))
    (hp : tree.Plain) (hr : ctx.ret.Flat) : tree'.Plain ∧ ctx'.ret.Flat := by
  have ht : ∀ s, InferSteps on scope (ctx, tree) s → s.2.Plain ∧ s.1.ret.Flat := by
    intro s hs
    induction hs with
    | refl => exact ⟨hp, hr⟩
    | tail _ hstep ih => exact hstep.plain ih
  exact ht _ h

theorem InferSteps.expected (h : InferSteps on scope (ctx, tree) (ctx', tree'))
    (hr : ctx.ret = ctx.expected) (hp : ctx.expected.Prim) : ctx' = ctx := by
  have ht : ∀ s, InferSteps on scope (ctx, tree) s → s.1 = ctx := by
    intro s hs
    induction hs with
    | refl => rfl
    | tail _ hstep ih =>
      cases hstep with
      | store => exact ih
      | ret ha =>
        cases ih
        rw [ha.eq_of_prim hp, ← hr]
  exact ht _ h

end

/-! ## Replaying a run as a probe -/

theorem Expr.Consumed.probe {on : DeclId → Prop} {other : ScopeTree} {expr' : Expr} {expected : Ty}
    (h : expr.Consumed mode scope tree expected expr' ty) (hw : expr.Within on)
    (ha : tree.Agree on other) : expr.Consumed .probe scope other expected expr ty := by
  obtain ⟨found, hs, hu, hv, _⟩ := h
  exact ⟨found, (Expr.synth_agree ha scope expr hw) ▸ hs, hu, hv, rfl⟩

theorem consumed_probe {on : DeclId → Prop} {other : ScopeTree} {expected : Ty}
    (ha : tree.Agree on other) :
    ∀ {exprs exprs' : List Expr}, List.Forall₂
      (fun expr expr' => ∃ ty, expr.Consumed mode scope tree expected expr' ty) exprs exprs' →
    AllWithin on exprs → List.Forall₂
      (fun expr expr' => ∃ ty, expr.Consumed .probe scope other expected expr' ty) exprs exprs
  | [], _, .nil, _ => .nil
  | _ :: _, _, .cons ⟨ty, h⟩ hs, hw => .cons ⟨ty, h.probe hw.1 ha⟩ (consumed_probe ha hs hw.2)

mutual
theorem Stmt.infer_probe {on : DeclId → Prop} {mode : Mode} {scope : ScopeId} : ∀ (stmt : Stmt)
    {stmt' : Stmt} {ctx ctx' : RoutineContext} {tree tree' other : ScopeTree}, stmt.Within on →
    tree.Agree on other → stmt.infer mode scope ctx tree = .done (stmt', ctx') tree' →
    ∃ other', stmt.infer .probe scope ctx other = .done (stmt, ctx') other' ∧
      tree'.Agree on other'
  | .decl _ _ value _ _, _, _, _, _, _, other, hw, ha, h => by
    obtain ⟨id, var, value', ty, hh, hv, hc, hn, _, rfl, rfl⟩ := Stmt.infer_decl.mp h
    have hv' : other.decls[id]? = some var := (ha.types id (hw.2 id hh)) ▸ hv
    exact ⟨_, Stmt.infer_decl.mpr
      ⟨id, var, value, ty, hh, hv', hc.probe hw.1 ha, hn, rfl, rfl, rfl⟩, ha.retype hv hv' ty⟩
  | .assign _ value _ _, _, _, _, _, _, other, hw, ha, h => by
    obtain ⟨id, var, value', ty, hh, hv, hl, hc, hn, _, rfl, rfl⟩ := Stmt.infer_assign.mp h
    have hv' : other.decls[id]? = some var := (ha.types id (hw.2 id hh)) ▸ hv
    exact ⟨_, Stmt.infer_assign.mpr
      ⟨id, var, value, ty, hh, hv', hl, hc.probe hw.1 ha, hn, rfl, rfl, rfl⟩, ha.retype hv hv' ty⟩
  | .branch conds blocks _, _, _, _, _, _, _, hw, ha, h => by
    obtain ⟨conds', blocks', hc, hb, _⟩ := Stmt.infer_branch.mp h
    obtain ⟨other', hb', ha'⟩ := inferBlocks_probe blocks hw.2 ha hb
    exact ⟨other', Stmt.infer_branch.mpr ⟨conds, blocks, consumed_probe ha hc hw.1, hb', rfl⟩, ha'⟩
  | .forLoop _ lo hi body _ _, _, _, _, _, _, _, hw, ha, h => by
    obtain ⟨_, _, _, tyLo, tyHi, hl, hh, hb, _⟩ := Stmt.infer_forLoop.mp h
    obtain ⟨other', hb', ha'⟩ := Block.infer_probe body hw.2.2 ha hb
    exact ⟨other', Stmt.infer_forLoop.mpr
      ⟨lo, hi, body, tyLo, tyHi, hl.probe hw.1 ha, hh.probe hw.2.1 ha, hb', rfl⟩, ha'⟩
  | .whileLoop cond body _, _, _, _, _, _, _, hw, ha, h => by
    obtain ⟨_, _, ty, hc, hb, _⟩ := Stmt.infer_whileLoop.mp h
    obtain ⟨other', hb', ha'⟩ := Block.infer_probe body hw.2 ha hb
    exact ⟨other', Stmt.infer_whileLoop.mpr ⟨cond, body, ty, hc.probe hw.1 ha, hb', rfl⟩, ha'⟩
  | .call value, _, _, _, _, _, other, hw, ha, h => by
    obtain ⟨_, ty, hc, _, rfl, rfl⟩ := Stmt.infer_call.mp h
    exact ⟨other, Stmt.infer_call.mpr ⟨value, ty, hc.probe hw ha, rfl, rfl, rfl⟩, ha⟩
termination_by structural stmt => stmt
theorem Block.infer_probe {on : DeclId → Prop} {mode : Mode} {scope : ScopeId} : ∀ (block : Block)
    {block' : Block} {ctx ctx' : RoutineContext} {tree tree' other : ScopeTree}, block.Within on →
    tree.Agree on other → block.infer mode scope ctx tree = .done (block', ctx') tree' →
    ∃ other', block.infer .probe scope ctx other = .done (block, ctx') other' ∧
      tree'.Agree on other'
  | ⟨stmts, none, _, _, _⟩, _, _, _, _, _, _, hw, ha, h => by
    obtain ⟨_, hs, _⟩ := Block.infer_none.mp h
    obtain ⟨other', hs', ha'⟩ := inferStmts_probe stmts hw.1 ha hs
    exact ⟨other', Block.infer_none.mpr ⟨stmts, hs', rfl⟩, ha'⟩
  | ⟨stmts, some ⟨value, _⟩, _, _, _⟩, _, _, _, _, _, _, hw, ha, h => by
    obtain ⟨_, ctx₁, _, ty, hs, hc, _, rfl⟩ := Block.infer_some.mp h
    obtain ⟨other', hs', ha'⟩ := inferStmts_probe stmts hw.1 ha hs
    exact ⟨other', Block.infer_some.mpr
      ⟨stmts, ctx₁, value, ty, hs', hc.probe (hw.2 _ rfl) ha', rfl, rfl⟩, ha'⟩
termination_by structural block => block
theorem inferStmts_probe {on : DeclId → Prop} {mode : Mode} {scope : ScopeId} :
    ∀ (stmts : List Stmt) {stmts' : List Stmt} {ctx ctx' : RoutineContext}
    {tree tree' other : ScopeTree}, StmtsWithin on stmts → tree.Agree on other →
    inferStmts mode scope stmts ctx tree = .done (stmts', ctx') tree' →
    ∃ other', inferStmts .probe scope stmts ctx other = .done (stmts, ctx') other' ∧
      tree'.Agree on other'
  | [], _, _, _, _, _, other, _, ha, h => by
    obtain ⟨_, rfl, rfl⟩ := inferStmts_nil.mp h
    exact ⟨other, inferStmts_nil.mpr ⟨rfl, rfl, rfl⟩, ha⟩
  | stmt :: stmts, _, _, _, _, _, _, hw, ha, h => by
    obtain ⟨_, _, ctx₁, _, hs, hr, _⟩ := inferStmts_cons.mp h
    obtain ⟨other₁, hs', ha₁⟩ := Stmt.infer_probe stmt hw.1 ha hs
    obtain ⟨other', hr', ha'⟩ := inferStmts_probe stmts hw.2 ha₁ hr
    exact ⟨other', inferStmts_cons.mpr ⟨stmt, stmts, ctx₁, other₁, hs', hr', rfl⟩, ha'⟩
termination_by structural stmts => stmts
theorem inferBlocks_probe {on : DeclId → Prop} {mode : Mode} {scope : ScopeId} :
    ∀ (blocks : List Block) {blocks' : List Block} {ctx ctx' : RoutineContext}
    {tree tree' other : ScopeTree}, BlocksWithin on blocks → tree.Agree on other →
    inferBlocks mode scope blocks ctx tree = .done (blocks', ctx') tree' →
    ∃ other', inferBlocks .probe scope blocks ctx other = .done (blocks, ctx') other' ∧
      tree'.Agree on other'
  | [], _, _, _, _, _, other, _, ha, h => by
    obtain ⟨_, rfl, rfl⟩ := inferBlocks_nil.mp h
    exact ⟨other, inferBlocks_nil.mpr ⟨rfl, rfl, rfl⟩, ha⟩
  | block :: blocks, _, _, _, _, _, _, hw, ha, h => by
    obtain ⟨_, _, ctx₁, _, hb, hr, _⟩ := inferBlocks_cons.mp h
    obtain ⟨other₁, hb', ha₁⟩ := Block.infer_probe block hw.1 ha hb
    obtain ⟨other', hr', ha'⟩ := inferBlocks_probe blocks hw.2 ha₁ hr
    exact ⟨other', inferBlocks_cons.mpr ⟨block, blocks, ctx₁, other₁, hb', hr', rfl⟩, ha'⟩
termination_by structural blocks => blocks
end

end ScriptLang
