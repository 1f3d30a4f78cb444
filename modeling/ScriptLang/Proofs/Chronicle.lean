import ScriptLang.Proofs.Rerunning
import ScriptLang.Proofs.ScopeHistory

/-!
# Chronicles

A workspace that keeps every scope tree it ever had, so that what holds of all trees of a chronicle
has held throughout the run. To know the trees it is enough to know where a pass sets one. Inference
does so in three places: it retypes a variable, it forgets the types of all variables, and it
settles the return type of a function.
-/

namespace ScriptLang

open Pass ScopeTree

variable {tree : ScopeTree} {fn : FnDef}

/-! ## A workspace that remembers -/

/-- The scope tree, and those that were there before, the latest first. -/
structure Chronicle where
  current : ScopeTree := {}
  past : List ScopeTree := []

namespace Chronicle

/-- All scope trees, the latest first. -/
def trees (chronicle : Chronicle) : List ScopeTree :=
  chronicle.current :: chronicle.past

instance : Workspace Chronicle where
  scopes := current
  withScopes chronicle tree := ⟨tree, chronicle.trees⟩
  note chronicle _ := chronicle

variable {S : ScopeTree → ScopeTree → Prop} {chronicle chronicle' : Chronicle}

/-- The chronicle goes on with a tree that the current one is related to. -/
inductive Step (S : ScopeTree → ScopeTree → Prop) (chronicle : Chronicle) : Chronicle → Prop
  | set {tree : ScopeTree} (h : S chronicle.current tree) : Step S chronicle ⟨tree, chronicle.trees⟩

/-- Any number of trees, each related to the one before. -/
abbrev Grows (S : ScopeTree → ScopeTree → Prop) : Chronicle → Chronicle → Prop :=
  Relation.ReflTransGen (Step S)

theorem Grows.steps (h : Grows S chronicle chronicle') :
    Relation.ReflTransGen S chronicle.current chronicle'.current := by
  induction h with
  | refl => exact .refl
  | tail _ hstep ih =>
    cases hstep with
    | set h => exact ih.tail h

theorem Grows.mono {S' : ScopeTree → ScopeTree → Prop} (h : Grows S chronicle chronicle')
    (hS : ∀ tree tree', S tree tree' → S' tree tree') : Grows S' chronicle chronicle' := by
  induction h with
  | refl => exact .refl
  | tail _ hstep ih =>
    cases hstep with
    | set h => exact ih.tail (.set (hS _ _ h))

theorem Grows.forall_mem {P : ScopeTree → Prop} (h : Grows S chronicle chronicle')
    (hS : ∀ tree tree', S tree tree' → P tree → P tree')
    (hc : ∀ tree ∈ chronicle.trees, P tree) : ∀ tree ∈ chronicle'.trees, P tree := by
  induction h with
  | refl => exact hc
  | tail _ hstep ih =>
    cases hstep with
    | set h => exact List.forall_mem_cons.mpr ⟨hS _ _ h (ih _ List.mem_cons_self), ih⟩

theorem Grows.pairwise {R : ScopeTree → ScopeTree → Prop} [IsTrans ScopeTree R]
    (h : Grows S chronicle chronicle') (hS : ∀ tree tree', S tree tree' → R tree tree')
    (hc : chronicle.trees.Pairwise fun later earlier => R earlier later) :
    chronicle'.trees.Pairwise fun later earlier => R earlier later := by
  induction h with
  | refl => exact hc
  | tail _ hstep ih =>
    cases hstep with
    | set h =>
      refine List.pairwise_cons.mpr ⟨?_, ih⟩
      refine List.forall_mem_cons.mpr ⟨hS _ _ h, fun tree hm => ?_⟩
      exact IsTrans.trans tree _ _ ((List.pairwise_cons.mp ih).1 tree hm) (hS _ _ h)

end Chronicle

/-! ## Passes on a chronicle -/

/-- The same outcome with another state. -/
def Outcome.restate (state' : τ) : Outcome σ ν α → Outcome τ ν α
  | .done value _ => .done value state'
  | .stopped node halt _ => .stopped node halt state'

theorem state_restate (outcome : Outcome σ ν α) (state' : τ) :
    state (outcome.restate state') = state' := by
  cases outcome <;> rfl

theorem Run.ofOutcome_restate (outcome : Outcome σ CompileUnit (CompileUnit × α)) (state' : τ) :
    Run.ofOutcome (outcome.restate state') = Run.ofOutcome outcome := by
  cases outcome <;> rfl

/-- On a chronicle the first pass does what the second one does on a scope tree, and sets trees that
follow one another in `S`. -/
def Pass.Traced (S : ScopeTree → ScopeTree → Prop) (tree : ScopeTree) (p : Pass Chronicle ν α)
    (q : Pass ScopeTree ν α) : Prop :=
  ∀ chronicle : Chronicle, chronicle.current = tree → ∃ chronicle',
    p chronicle = (q tree).restate chronicle' ∧ chronicle'.current = state (q tree) ∧
      chronicle.Grows S chronicle'

namespace Pass.Traced

variable {ν μ α β : Type} {S : ScopeTree → ScopeTree → Prop} {tree : ScopeTree}
  {f : β → Pass Chronicle ν α} {g : β → Pass ScopeTree ν α}

theorem mono {S' : ScopeTree → ScopeTree → Prop} {p : Pass Chronicle ν α} {q : Pass ScopeTree ν α}
    (h : Traced S tree p q) (hS : ∀ tree tree', S tree tree' → S' tree tree') :
    Traced S' tree p q := by
  intro chronicle hc
  obtain ⟨chronicle', hp, hcur, hgrows⟩ := h chronicle hc
  exact ⟨chronicle', hp, hcur, hgrows.mono hS⟩

theorem pure (a : α) :
    Traced S tree (Pure.pure a : Pass Chronicle ν α) (Pure.pure a : Pass ScopeTree ν α) :=
  fun chronicle hc => ⟨chronicle, rfl, hc, .refl⟩

theorem stop (node : ν) (halt : Halt) : Traced S tree (Pass.stop node halt : Pass Chronicle ν α)
    (Pass.stop node halt : Pass ScopeTree ν α) :=
  fun chronicle hc => ⟨chronicle, rfl, hc, .refl⟩

theorem ofExcept {node : ν} {x : Except Halt β} (hf : ∀ b, x = .ok b → Traced S tree (f b) (g b)) :
    Traced S tree (Pass.ofExcept node x >>= f) (Pass.ofExcept node x >>= g) := by
  cases x with
  | ok b => exact hf b rfl
  | error halt => exact fun chronicle hc => ⟨chronicle, rfl, hc, .refl⟩

theorem bind {p : Pass Chronicle ν β} {q : Pass ScopeTree ν β} (h : Traced S tree p q)
    (hf : ∀ b tree', q tree = .done b tree' → Relation.ReflTransGen S tree tree' →
      Traced S tree' (f b) (g b)) : Traced S tree (p >>= f) (q >>= g) := by
  intro chronicle hc
  obtain ⟨chronicle', hp, hcur, hgrows⟩ := h chronicle hc
  simp only [bind_apply, hp]
  cases hq : q tree with
  | stopped node halt tree' =>
    rw [hq] at hcur
    exact ⟨chronicle', rfl, hcur, hgrows⟩
  | done b tree' =>
    rw [hq] at hcur
    have hsteps : Relation.ReflTransGen S tree tree' := by
      have hsteps := hgrows.steps
      rwa [hc, hcur] at hsteps
    obtain ⟨chronicle'', hp', hcur', hgrows'⟩ := hf b tree' hq hsteps chronicle' hcur
    exact ⟨chronicle'', hp', hcur', hgrows.trans hgrows'⟩

theorem within {rebuild : μ → ν} {p : Pass Chronicle μ β} {q : Pass ScopeTree μ β}
    (h : Traced S tree p q) (hf : ∀ b tree', q tree = .done b tree' →
      Relation.ReflTransGen S tree tree' → Traced S tree' (f b) (g b)) :
    Traced S tree (Pass.within rebuild p >>= f) (Pass.within rebuild q >>= g) := by
  refine bind ?_ fun b tree' hq => hf b tree' (within_eq_done.mp hq)
  intro chronicle hc
  obtain ⟨chronicle', hp, hcur, hgrows⟩ := h chronicle hc
  simp only [within_apply, hp]
  cases hq : q tree
  all_goals
    rw [hq] at hcur
    exact ⟨chronicle', rfl, hcur, hgrows⟩

theorem attempt {node : ν} {p : Pass Chronicle μ β} {q : Pass ScopeTree μ β}
    (h : Traced S tree p q) : Traced S tree (Pass.attempt node p) (Pass.attempt node q) := by
  intro chronicle hc
  obtain ⟨chronicle', hp, hcur, hgrows⟩ := h chronicle hc
  unfold Pass.attempt
  rw [hp]
  cases hq : q tree with
  | done b tree' =>
    rw [hq] at hcur
    exact ⟨chronicle', rfl, hcur, hgrows⟩
  | stopped part halt tree' =>
    rw [hq] at hcur
    cases halt <;> exact ⟨chronicle', rfl, hcur, hgrows⟩

theorem scopes {f : ScopeTree → Pass Chronicle ν α} {g : ScopeTree → Pass ScopeTree ν α}
    (hf : Traced S tree (f tree) (g tree)) :
    Traced S tree (Pass.scopes >>= f) (Pass.scopes >>= g) := by
  intro chronicle hc
  subst hc
  exact hf chronicle rfl

theorem note {event : Event} {f : Unit → Pass Chronicle ν α} {g : Unit → Pass ScopeTree ν α}
    (hf : Traced S tree (f ()) (g ())) :
    Traced S tree (Pass.note event >>= f) (Pass.note event >>= g) :=
  hf

theorem setScopes {new : ScopeTree} (h : S tree new) :
    Traced S tree (Pass.setScopes new : Pass Chronicle ν Unit) (Pass.setScopes new) := by
  intro chronicle hc
  subst hc
  exact ⟨⟨new, chronicle.trees⟩, rfl, rfl, .single (.set h)⟩

end Pass.Traced

/-! ## Expressions set no tree -/

section

variable {S : ScopeTree → ScopeTree → Prop} (scope : ScopeId)

theorem Expr.writeSlot_traced (expr : Expr) (ty : Ty) (tree : ScopeTree) :
    Traced S tree (expr.writeSlot ty) (expr.writeSlot ty) :=
  .ofExcept fun _ _ => .pure _

mutual
theorem Expr.commit_traced : ∀ (expr : Expr) (ty : Ty) (tree : ScopeTree),
    Traced S tree (expr.commit scope ty) (expr.commit scope ty)
  | .lit .., _, _ => by
    unfold Expr.commit
    split
    · exact Expr.writeSlot_traced _ _ _
    · exact .stop _ _
  | .var .., _, _ => by
    unfold Expr.commit
    split
    · exact Expr.writeSlot_traced _ _ _
    · exact .stop _ _
  | .call _ args _ _, _, tree => by
    unfold Expr.commit
    split
    · refine .scopes (.ofExcept fun found _ => .ofExcept fun sig _ => .note ?_)
      exact .within (commitAll_traced args sig.params found tree) fun _ _ _ _ =>
        Expr.writeSlot_traced _ _ _
    · exact .stop _ _
theorem commitAll_traced : ∀ (exprs : List Expr) (params found : List Ty) (tree : ScopeTree),
    Traced S tree (commitAll scope exprs params found) (commitAll scope exprs params found)
  | [], _, _, _ => by
    unfold commitAll
    exact .pure _
  | _ :: _, [], _, _ => by
    unfold commitAll
    exact .pure _
  | _ :: _, _ :: _, [], _ => by
    unfold commitAll
    exact .pure _
  | expr :: exprs, param :: params, own :: found, tree => by
    unfold commitAll
    cases param.unify own with
    | none => exact .stop _ _
    | some ty =>
      refine .within (Expr.commit_traced expr ty tree) fun expr' tree' _ _ => ?_
      exact .within (commitAll_traced exprs params found tree') fun _ _ _ _ => .pure _
end

theorem Expr.consume_traced (mode : Mode) (expr : Expr) (expected : Ty) (origin : Origin)
    (tree : ScopeTree) :
    Traced S tree (expr.consume mode scope expected origin)
      (expr.consume mode scope expected origin) := by
  refine .scopes (.ofExcept fun found _ => .ofExcept fun ty _ => ?_)
  split
  · exact .stop _ _
  · cases mode with
    | probe => exact .pure _
    | commit => exact .bind (Expr.commit_traced scope expr ty tree) fun _ _ _ _ => .pure _

theorem consumeAll_traced (mode : Mode) (expected : Ty) (origin : Span → Origin) :
    ∀ (exprs : List Expr) (tree : ScopeTree),
    Traced S tree (consumeAll mode scope expected origin exprs)
      (consumeAll mode scope expected origin exprs)
  | [], _ => .pure _
  | expr :: exprs, tree => by
    refine .within (expr.consume_traced scope mode expected _ tree) fun out tree' _ _ => ?_
    exact .within (consumeAll_traced mode expected origin exprs tree') fun _ _ _ _ => .pure _

end

/-! ## What inference finds out -/

/-- A step of inference in the scope tree. -/
inductive ScopeTree.Finding (scope : ScopeId) (tree : ScopeTree) : ScopeTree → Prop
  | stored (id : DeclId) (var : VarDecl) (expected ty : Ty) (hv : tree.decls[id]? = some var)
    (he : expected = var.declared ∨ expected = var.ty) (ha : Agreed scope tree expected ty) :
    Finding scope tree (tree.retype id var ty)
  | reset : Finding scope tree tree.resetInferred
  | settled (id : SigId) (sig : Signature) (ret : Ty) (hs : tree.sigs[id]? = some sig)
    (hret : ret.Prim) (hknown : sig.ret.isFullyKnown = true → ret = sig.ret) :
    Finding scope tree (tree.settle id sig ret)

namespace ScopeTree.Finding

variable {scope : ScopeId} {tree tree' : ScopeTree}

theorem change (h : Finding scope tree tree') : Change tree tree' := by
  cases h with
  | stored id var expected ty hv => exact .retyped id var ty hv
  | reset => exact .reset
  | settled id sig ret hs => exact .settled id sig ret hs

theorem refined (h : Finding scope tree tree') :
    tree.resetInferred.Refined tree'.resetInferred := by
  cases h with
  | stored id var expected ty hv =>
    rw [← (Agree.of_retype hv ty).skeleton]
    exact .refl _
  | reset =>
    rw [resetInferred_idem]
    exact .refl _
  | settled id sig ret hs hret hknown =>
    rw [resetInferred_settle]
    cases ho : sig.ret.isFullyKnown with
    | false => exact .settle hs ho hret
    | true =>
      have hsame : tree.resetInferred.settle id sig sig.ret = tree.resetInferred := settle_self hs
      rw [hknown ho, hsame]
      exact .refl _

theorem plain (h : Finding scope tree tree') (hp : tree.Plain) : tree'.Plain := by
  cases h with
  | stored id var expected ty hv he ha =>
    have hstep : InferStep (fun _ => True) scope (⟨.int, {}, false⟩, tree)
        (⟨.int, {}, false⟩, tree.retype id var ty) := .store trivial hv he ha
    exact (hstep.plain ⟨hp, Ty.prim_int.flat⟩).1
  | reset =>
    refine ⟨hp.params, hp.rets, ?_, ?_, ?_⟩
    · simpa only [resetInferred, List.forall_mem_map] using hp.declared
    · simpa only [resetInferred, List.forall_mem_map] using hp.declared
    · simp [resetInferred]
  | settled id sig ret hs hret hknown =>
    have hm : ∀ sig' ∈ (tree.settle id sig ret).sigs, sig' ∈ tree.sigs ∨ sig' = { sig with ret } :=
      fun sig' hm => List.mem_or_eq_of_mem_set hm
    refine ⟨?_, ?_, hp.declared, hp.types, hp.fixed⟩
    · intro sig' hm'
      rcases hm sig' hm' with hm' | rfl
      · exact hp.params sig' hm'
      · exact hp.params sig (List.mem_of_getElem? hs)
    · intro sig' hm'
      rcases hm sig' hm' with hm' | rfl
      · exact hp.rets sig' hm'
      · exact hret.flat

theorem plain_of_steps (h : Relation.ReflTransGen (Finding scope) tree tree') (hp : tree.Plain) :
    tree'.Plain := by
  induction h with
  | refl => exact hp
  | tail _ hstep ih => exact hstep.plain ih

end ScopeTree.Finding

/-! ## Bodies -/

theorem setTypeHere_traced {S : ScopeTree → ScopeTree → Prop} {node : ν} {id : DeclId} {ty : Ty}
    (h : ∀ var, tree.decls[id]? = some var → S tree (tree.retype id var ty)) :
    Traced S tree (setTypeHere node id ty) (setTypeHere node id ty) := by
  refine .scopes (.ofExcept fun tree' ht => .setScopes ?_)
  obtain ⟨var, hv, rfl⟩ := setVarType_eq_ok.mp (mapError_eq_ok.mp ht)
  exact h var hv

section

variable (mode : Mode) (scope : ScopeId)

mutual
theorem Stmt.infer_traced : ∀ (stmt : Stmt) (ctx : RoutineContext) (tree : ScopeTree),
    Traced (Finding scope) tree (stmt.infer mode scope ctx) (stmt.infer mode scope ctx)
  | .decl _ _ value _ _, _, tree => by
    refine .scopes (.ofExcept fun entry hb => ?_)
    obtain ⟨id, var⟩ := entry
    obtain ⟨_, hv⟩ := boundVariable_eq_ok.mp hb
    refine .within (value.consume_traced scope mode var.declared _ tree) fun out tree' hc _ => ?_
    obtain ⟨value', ty⟩ := out
    obtain ⟨hc, rfl⟩ := Expr.consume_eq_done.mp hc
    refine .ofExcept fun _ _ => .note (.bind (setTypeHere_traced ?_) fun _ _ _ _ => .pure _)
    intro var' hv'
    rw [hv] at hv'
    cases hv'
    exact .stored id var var.declared ty hv (Or.inl rfl) hc.agreed
  | .assign _ value _ _, _, tree => by
    refine .scopes (.ofExcept fun entry hb => ?_)
    obtain ⟨id, var⟩ := entry
    obtain ⟨_, hv, _⟩ := assignedVariable_eq_ok.mp hb
    refine .within (value.consume_traced scope mode var.ty _ tree) fun out tree' hc _ => ?_
    obtain ⟨value', ty⟩ := out
    obtain ⟨hc, rfl⟩ := Expr.consume_eq_done.mp hc
    refine .ofExcept fun _ _ => .bind (setTypeHere_traced ?_) fun _ _ _ _ => .pure _
    intro var' hv'
    rw [hv] at hv'
    cases hv'
    exact .stored id var var.ty ty hv (Or.inr rfl) hc.agreed
  | .branch conds blocks _, ctx, tree => by
    refine .within (consumeAll_traced scope mode .bool _ conds tree) fun conds' tree' _ _ => ?_
    exact .within (inferBlocks_traced blocks ctx tree') fun _ _ _ _ => .pure _
  | .forLoop _ lo hi body _ _, ctx, tree => by
    refine .within (lo.consume_traced scope mode .int _ tree) fun lo' tree₁ _ _ => ?_
    refine .within (hi.consume_traced scope mode .int _ tree₁) fun hi' tree₂ _ _ => ?_
    exact .within (Block.infer_traced body ctx tree₂) fun _ _ _ _ => .pure _
  | .whileLoop cond body _, ctx, tree => by
    refine .within (cond.consume_traced scope mode .bool _ tree) fun cond' tree' _ _ => ?_
    exact .within (Block.infer_traced body ctx tree') fun _ _ _ _ => .pure _
  | .call value, _, tree =>
    .within (value.consume_traced scope mode .unknown _ tree) fun _ _ _ _ => .pure _
theorem Block.infer_traced : ∀ (block : Block) (ctx : RoutineContext) (tree : ScopeTree),
    Traced (Finding scope) tree (block.infer mode scope ctx) (block.infer mode scope ctx)
  | ⟨stmts, none, _, _, _⟩, ctx, tree =>
    .within (inferStmts_traced stmts ctx tree) fun _ _ _ _ => .pure _
  | ⟨stmts, some ⟨value, _⟩, _, _, _⟩, ctx, tree => by
    refine .within (inferStmts_traced stmts ctx tree) fun out tree' _ _ => ?_
    exact .within (value.consume_traced scope mode out.2.expected _ tree') fun _ _ _ _ => .pure _
theorem inferStmts_traced : ∀ (stmts : List Stmt) (ctx : RoutineContext) (tree : ScopeTree),
    Traced (Finding scope) tree (inferStmts mode scope stmts ctx) (inferStmts mode scope stmts ctx)
  | [], _, _ => .pure _
  | stmt :: stmts, ctx, tree => by
    refine .within (Stmt.infer_traced stmt ctx tree) fun out tree' _ _ => ?_
    exact .within (inferStmts_traced stmts out.2 tree') fun _ _ _ _ => .pure _
theorem inferBlocks_traced : ∀ (blocks : List Block) (ctx : RoutineContext) (tree : ScopeTree),
    Traced (Finding scope) tree (inferBlocks mode scope blocks ctx)
      (inferBlocks mode scope blocks ctx)
  | [], _, _ => .pure _
  | block :: blocks, ctx, tree => by
    refine .within (Block.infer_traced block ctx tree) fun out tree' _ _ => ?_
    exact .within (inferBlocks_traced blocks out.2 tree') fun _ _ _ _ => .pure _
end

end

section

variable {scope : ScopeId}

theorem FnDef.inferBody_traced (mode : Mode) (fn : FnDef) (sig : SigId) (tree : ScopeTree) :
    Traced (Finding scope) tree (fn.inferBody mode scope sig) (fn.inferBody mode scope sig) := by
  refine .scopes (.ofExcept fun signature _ => ?_)
  exact .within (Block.infer_traced mode scope fn.body _ tree) fun _ _ _ _ => .pure _

theorem FnDef.inferBody_sigs {mode : Mode} {fn' : FnDef} {sig : SigId} {ret : Ty}
    {tree' : ScopeTree} (h : fn.inferBody mode scope sig tree = .done (fn', ret) tree') :
    tree'.sigs = tree.sigs := by
  have hsigs := congrArg ScopeTree.sigs ((fn.inferBody_delivers sig).kept h)
  exact hsigs

/-! ## Discovery -/

theorem resetHere_traced {ν : Type} (tree : ScopeTree) :
    Traced (Finding scope) tree (resetHere : Pass Chronicle ν Unit) resetHere :=
  .scopes (.setScopes .reset)

theorem probe_traced (node : ν) (round : Nat) (hf : fn.Resolved) (sig : SigId) (last : LastError)
    (hp : tree.Plain) :
    Traced (Finding scope) tree (probe node scope round fn sig last)
      (probe node scope round fn sig last) := by
  refine .scopes (.ofExcept fun signature hs => ?_)
  have hs : tree.sigs[sig]? = some signature := signature_eq_ok.mp (mapError_eq_ok.mp hs)
  split
  · exact .pure _
  · rename_i hopen
    refine .bind (resetHere_traced tree) fun _ tree₁ hreset _ => ?_
    obtain rfl := resetHere_eq_done.mp hreset
    refine .bind (.attempt (fn.inferBody_traced .probe sig _)) fun r tree₂ hr _ => ?_
    cases r with
    | error e => exact .note (.pure _)
    | ok out =>
      obtain ⟨fn', ret⟩ := out
      simp only
      split
      · rename_i hknown
        rcases attempt_eq_done.mp hr with ⟨_, hb, hout⟩ | ⟨_, _, _, hout⟩
        · cases hout
          have hplain := (Finding.reset : Finding scope tree _).plain hp
          have hprim := (hf.flat_inferBody hplain hb).prim_of_isFullyKnown hknown
          refine .note (.scopes (.ofExcept fun tree₃ hset => ?_))
          obtain ⟨signature', hs', rfl⟩ := setReturn_eq_ok.mp (mapError_eq_ok.mp hset)
          obtain rfl : signature' = signature := by
            rw [FnDef.inferBody_sigs hb] at hs'
            exact Option.some.inj (hs'.symm.trans hs)
          refine .bind (.setScopes (.settled sig _ ret hs' hprim ?_)) fun _ _ _ _ => .pure _
          exact fun hk => (hopen hk).elim
        · cases hout
      · exact .note (.pure _)

theorem probeRound_traced (node : ν) (round : Nat) : ∀ {fns : List FnDef},
    (∀ fn ∈ fns, fn.Resolved) →
    ∀ (sigs : List SigId) (lasts : List LastError) {tree : ScopeTree}, tree.Plain →
    Traced (Finding scope) tree (probeRound node scope round fns sigs lasts)
      (probeRound node scope round fns sigs lasts)
  | [], _, _, _, _, _ => .pure _
  | _ :: _, _, [], _, _, _ => .pure _
  | _ :: _, _, _ :: _, [], _, _ => .pure _
  | _ :: _, hf, sig :: sigs, last :: lasts, _, hp => by
    obtain ⟨hfn, hfns⟩ := List.forall_mem_cons.mp hf
    refine .bind (probe_traced node round hfn sig last hp) fun out tree' _ hsteps => ?_
    refine .bind (probeRound_traced node round hfns sigs lasts (Finding.plain_of_steps hsteps hp))
      fun _ _ _ _ => .pure _

theorem probeRounds_traced (node : ν) {fns : List FnDef} (hf : ∀ fn ∈ fns, fn.Resolved)
    (sigs : List SigId) (fuel : Nat) : ∀ (round : Nat) (lasts : List LastError) {tree : ScopeTree},
    tree.Plain → Traced (Finding scope) tree (probeRounds node scope fns sigs fuel round lasts)
      (probeRounds node scope fns sigs fuel round lasts) := by
  induction fuel with
  | zero => exact fun _ _ _ _ => .pure _
  | succ fuel ih =>
    intro round lasts tree hp
    refine .bind (probeRound_traced node round hf sigs lasts hp) fun out tree' _ hsteps => ?_
    obtain ⟨lasts', settled⟩ := out
    cases settled with
    | false => exact .pure _
    | true => exact ih (round + 1) lasts' (Finding.plain_of_steps hsteps hp)

theorem discoverReturns_traced (node : ν) {fns : List FnDef} (hf : ∀ fn ∈ fns, fn.Resolved)
    (sigs : List SigId) (hp : tree.Plain) :
    Traced (Finding scope) tree (discoverReturns node scope fns sigs)
      (discoverReturns node scope fns sigs) :=
  probeRounds_traced node hf sigs _ _ _ hp

/-! ## The committing pass -/

theorem FnDef.commit_traced (hf : fn.Resolved) (sig : SigId) (hp : tree.Plain) :
    Traced (Finding scope) tree (fn.commit scope sig) (fn.commit scope sig) := by
  refine .note (.bind (fn.inferBody_traced .commit sig tree) fun out tree' hb _ => ?_)
  obtain ⟨fn', ret⟩ := out
  refine .ofExcept fun _ hcheck => .ofExcept fun slot _ => .scopes (.ofExcept fun tree₁ hset => ?_)
  obtain ⟨signature, hs, rfl⟩ := setReturn_eq_ok.mp (mapError_eq_ok.mp hset)
  have hknown := (FnDef.checkReturn_eq_ok.mp hcheck).2
  have hprim := (hf.flat_inferBody hp hb).prim_of_isFullyKnown hknown
  refine .bind (.setScopes (.settled sig signature ret hs hprim fun hk => ?_))
    fun _ _ _ _ => .pure _
  -- A return type that is known is what every `return` has to agree with.
  rw [FnDef.inferBody_sigs hb] at hs
  obtain ⟨signature', body, ctx, hs', hbody, _, rfl⟩ := FnDef.inferBody_eq_done.mp hb
  obtain rfl : signature' = signature := Option.some.inj (hs'.symm.trans hs)
  have hret := (hp.rets signature' (List.mem_of_getElem? hs)).prim_of_isFullyKnown hk
  have hsteps := Block.infer_steps fn.body hf.within_true hbody
  exact congrArg RoutineContext.ret (hsteps.expected rfl hret)

theorem commitFunctions_traced (sigs : List SigId) : ∀ (order : List Nat) {fns : List FnDef},
    (∀ fn ∈ fns, fn.Resolved) → ∀ {tree : ScopeTree}, tree.Plain →
    Traced (Finding scope) tree (commitFunctions scope sigs order fns)
      (commitFunctions scope sigs order fns)
  | [], _, _, _, _ => .pure _
  | _ :: order, _, hf, _, hp => by
    unfold commitFunctions
    split
    · exact commitFunctions_traced sigs order hf hp
    · exact .stop _ _
    · rename_i fn sig hfn _
      have hres := hf fn (List.mem_of_getElem? hfn)
      refine .within (FnDef.commit_traced hres sig hp) fun fn' tree' hc hsteps => ?_
      refine commitFunctions_traced sigs order ?_ (Finding.plain_of_steps hsteps hp)
      have hleft := (fn.commit_delivers scope sig).done hc
      intro other hm
      rcases List.mem_or_eq_of_mem_set hm with hm | rfl
      · exact hf other hm
      · exact FnDef.resolved_of_clear hleft hres

theorem Script.commit_traced (script : Script) (tree : ScopeTree) :
    Traced (Finding scope) tree (script.commit scope) (script.commit scope) :=
  .note (.within (Block.infer_traced .commit scope script.body _ tree) fun _ _ _ _ => .pure _)

theorem CompileUnit.infer_traced {unit : CompileUnit} (hf : ∀ fn ∈ unit.functions, fn.Resolved)
    (sigs : List SigId) (hp : tree.Plain) :
    Traced (Finding scope) tree (unit.infer scope sigs) (unit.infer scope sigs) := by
  refine .bind (discoverReturns_traced unit hf sigs hp) fun lasts tree₁ _ hsteps => ?_
  have hp₁ := Finding.plain_of_steps hsteps hp
  refine .note (.bind (resetHere_traced tree₁) fun _ tree₂ _ hsteps => ?_)
  have hp₂ := Finding.plain_of_steps hsteps hp₁
  refine .within (commitFunctions_traced sigs (commitOrder lasts) hf hp₂) fun fns tree₃ _ _ => ?_
  exact .within (unit.script.commit_traced tree₃) fun _ _ _ _ => .pure _

end

end ScriptLang
