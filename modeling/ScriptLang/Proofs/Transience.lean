import ScriptLang.Proofs.Chronicle

/-!
# Sets of types are transient

The scope tree starts with basic and unknown types, and whatever is stored in it is one of these
again. A set of types is what an expression may be found to have while it is looked at, and it never
gets into the tree. Where all types are known, no sets are found either.
-/

namespace ScriptLang

open Pass ScopeTree

variable {scope : Nat} {ty : Ty} {tree tree' : ScopeTree}

/-! ## What binding writes -/

namespace ScopeTree

/-- A change that brings in no other types than basic and unknown ones. -/
structure PlainChange (tree tree' : ScopeTree) : Prop where
  change : Change tree tree'
  plain : tree.Plain → tree'.Plain

/-- A step of a check: a new tree is begun, or the tree is changed. -/
def CheckStep (tree tree' : ScopeTree) : Prop :=
  tree' = .initial ∨ PlainChange tree tree'

variable {tree tree' : ScopeTree}

theorem Finding.plainChange {scope : ScopeId} (h : Finding scope tree tree') :
    PlainChange tree tree' :=
  ⟨h.change, h.plain⟩

theorem Change.length_parents (h : Change tree tree') :
    tree.parents.length ≤ tree'.parents.length := by
  cases h with
  | opened parent hlt => simp [newScope]
  | declared | overloaded | retyped | settled | reset => exact Nat.le_refl _

theorem PlainChange.inside (h : Relation.ReflTransGen PlainChange tree tree')
    (hlt : scope < tree.parents.length) : scope < tree'.parents.length := by
  induction h with
  | refl => exact hlt
  | tail _ hstep ih => exact Nat.lt_of_lt_of_le ih hstep.change.length_parents

theorem PlainChange.opened {parent : Nat} (hlt : parent < tree.parents.length) :
    PlainChange tree (tree.newScope parent).2 where
  change := .opened parent hlt
  plain hp := ⟨hp.params, hp.rets, hp.declared, hp.types, hp.fixed⟩

theorem PlainChange.declared {id : DeclId} {name : String} {kind : DeclKind} {span : Span}
    (h : tree.declareVariable scope name ty kind span = .ok (id, tree')) (hty : ty.Flat) :
    PlainChange tree tree' := by
  obtain ⟨hlt, hnew, _, rfl⟩ := declareVariable_eq_ok.mp h
  constructor
  case change => exact .declared scope name ty kind span hlt (declaredIn?_eq_none.mp hnew)
  case plain =>
    intro hp
    refine ⟨hp.params, hp.rets, ?_, ?_, ?_⟩
    all_goals
      simp only [List.forall_mem_append, List.forall_mem_singleton]
    · exact ⟨hp.declared, hty⟩
    · exact ⟨hp.types, hty⟩
    · exact ⟨hp.fixed, fun _ => trivial⟩

theorem PlainChange.overloaded {id : SigId} {fn : FnDef} {params : List Ty} {ret : Ty}
    (hty : fn.signatureTypes = .ok (params, ret))
    (h : tree.declareFunction scope fn.name params ret .user fn.span = .ok (id, tree')) :
    PlainChange tree tree' := by
  have hshows : fn.Shows scope ⟨fn.name, params, ret, .user, fn.span, scope⟩ :=
    ⟨params, ret, hty, rfl⟩
  have hlt := lt_of_declareFunction h
  obtain ⟨hnew, _, rfl⟩ := declareFunction_eq_ok h
  constructor
  case change =>
    refine .overloaded scope fn.name params ret .user fn.span hlt ?_
    rintro ⟨sig, hm, hscope, hname, hparams⟩
    exact hnew sig (mem_overloads.mpr ⟨hm, hscope, hname⟩) hparams
  case plain =>
    intro hp
    refine ⟨?_, ?_, hp.declared, hp.types, hp.fixed⟩
    all_goals
      simp only [List.forall_mem_append, List.forall_mem_singleton]
    · exact ⟨hp.params, hshows.prim_params⟩
    · exact ⟨hp.rets, hshows.flat_ret⟩

end ScopeTree

/-! ## Binding on a chronicle -/

section

variable {S : ScopeTree → ScopeTree → Prop} (scope : ScopeId)

mutual
theorem Expr.bind_traced : ∀ (expr : Expr) (tree : ScopeTree),
    Traced S tree (expr.bind scope) (expr.bind scope)
  | .lit .., _ => .pure _
  | .var .., _ => .scopes (.ofExcept fun _ _ => .pure _)
  | .call _ args _ _, tree => .within (bindAll_traced args tree) fun _ _ _ _ => .pure _
theorem bindAll_traced : ∀ (exprs : List Expr) (tree : ScopeTree),
    Traced S tree (bindAll scope exprs) (bindAll scope exprs)
  | [], _ => .pure _
  | expr :: exprs, tree => .within (Expr.bind_traced expr tree) fun _ tree' _ _ =>
      .within (bindAll_traced exprs tree') fun _ _ _ _ => .pure _
end

end

theorem openScope_traced {ν : Type} {parent : Nat} (hlt : parent < tree.parents.length) :
    Traced PlainChange tree (openScope parent : Pass Chronicle ν ScopeId) (openScope parent) :=
  .scopes (.bind (.setScopes (.opened hlt)) fun _ _ _ _ => .pure _)

theorem openScope_inside {ν : Type} {parent scope : ScopeId}
    (h : (openScope parent : Pass ScopeTree ν ScopeId) tree = .done scope tree') :
    scope < tree'.parents.length := by
  obtain ⟨rfl, rfl⟩ := openScope_eq_done.mp h
  simp [newScope]

theorem declareHere_traced {node : ν} {scope : ScopeId} {name : String} {kind : DeclKind}
    {span : Span} (hty : ty.Flat) (tree : ScopeTree) :
    Traced PlainChange tree (declareHere node scope name ty kind span)
      (declareHere node scope name ty kind span) := by
  refine .scopes (.ofExcept fun entry hd => ?_)
  obtain ⟨id, tree'⟩ := entry
  exact .bind (.setScopes (.declared hd hty)) fun _ _ _ _ => .pure _

theorem declaredType_flat {ascription : Option TypeExpr} (h : declaredType ascription = .ok ty) :
    ty.Flat := by
  cases ascription with
  | none => exact Except.ok.inj h ▸ Ty.flat_unknown
  | some annotation => exact (TypeExpr.resolve_eq_ok h).2.flat

mutual
theorem Stmt.bind_traced : ∀ (stmt : Stmt) {scope : Nat} {tree : ScopeTree},
    scope < tree.parents.length → Traced PlainChange tree (stmt.bind scope) (stmt.bind scope)
  | .decl _ _ value _ _, scope, tree, _ => by
    refine .within (value.bind_traced scope tree) fun value' tree' _ _ => ?_
    refine .ofExcept fun ty hty => ?_
    exact .bind (declareHere_traced (declaredType_flat hty) tree') fun _ _ _ _ => .pure _
  | .assign _ value _ _, scope, tree, _ => by
    refine .within (value.bind_traced scope tree) fun value' tree' _ _ => ?_
    exact .scopes (.ofExcept fun _ _ => .pure _)
  | .branch conds blocks _, scope, tree, hlt => by
    unfold Stmt.bind
    split
    · refine .within (bindAll_traced scope conds tree) fun conds' tree' _ hsteps => ?_
      exact .within (bindBlocks_traced blocks (PlainChange.inside hsteps hlt)) fun _ _ _ _ =>
        .pure _
    · exact .stop _ _
  | .forLoop _ lo hi body _ _, scope, tree, hlt => by
    refine .within (lo.bind_traced scope tree) fun lo' tree₁ _ hlo => ?_
    refine .within (hi.bind_traced scope tree₁) fun hi' tree₂ _ hhi => ?_
    have hlt₂ := PlainChange.inside hhi (PlainChange.inside hlo hlt)
    refine .bind (openScope_traced hlt₂) fun inner tree₃ hopen _ => ?_
    refine .bind (declareHere_traced Ty.prim_int.flat tree₃) fun id tree₄ _ hsteps => ?_
    have hinner := PlainChange.inside hsteps (openScope_inside hopen)
    exact .within (Block.bind_traced body (some inner) hinner) fun _ _ _ _ => .pure _
  | .whileLoop cond body _, scope, tree, hlt => by
    refine .within (cond.bind_traced scope tree) fun cond' tree' _ hsteps => ?_
    exact .within (Block.bind_traced body body.scope (PlainChange.inside hsteps hlt))
      fun _ _ _ _ => .pure _
  | .call value, scope, tree, _ => .within (value.bind_traced scope tree) fun _ _ _ _ => .pure _
theorem Block.bind_traced : ∀ (block : Block) (own : Option ScopeId) {scope : Nat}
    {tree : ScopeTree}, scope < tree.parents.length →
    Traced PlainChange tree (block.bind scope own) (block.bind scope own)
  | ⟨stmts, none, _, _, _⟩, _, _, _, hlt =>
    .within (bindStmts_traced stmts hlt) fun _ _ _ _ => .pure _
  | ⟨stmts, some ⟨value, _⟩, _, _, _⟩, _, scope, _, hlt =>
    .within (bindStmts_traced stmts hlt) fun _ tree' _ _ =>
      .within (value.bind_traced scope tree') fun _ _ _ _ => .pure _
theorem bindStmts_traced : ∀ (stmts : List Stmt) {scope : Nat} {tree : ScopeTree},
    scope < tree.parents.length →
    Traced PlainChange tree (bindStmts scope stmts) (bindStmts scope stmts)
  | [], _, _, _ => .pure _
  | stmt :: stmts, _, _, hlt =>
    .within (Stmt.bind_traced stmt hlt) fun _ _ _ hsteps =>
      .within (bindStmts_traced stmts (PlainChange.inside hsteps hlt)) fun _ _ _ _ => .pure _
theorem bindBlocks_traced : ∀ (blocks : List Block) {scope : Nat} {tree : ScopeTree},
    scope < tree.parents.length →
    Traced PlainChange tree (bindBlocks scope blocks) (bindBlocks scope blocks)
  | [], _, _, _ => .pure _
  | block :: blocks, _, _, hlt =>
    .within (Block.bind_traced block block.scope hlt) fun _ _ _ hsteps =>
      .within (bindBlocks_traced blocks (PlainChange.inside hsteps hlt)) fun _ _ _ _ => .pure _
end

theorem declareSignatures_traced (node : ν) (scope : ScopeId) : ∀ (fns : List FnDef)
    (tree : ScopeTree), Traced PlainChange tree (declareSignatures node scope fns)
      (declareSignatures node scope fns)
  | [], _ => .pure _
  | fn :: fns, tree => by
    have hfirst : Traced PlainChange tree (declareSignature node scope fn)
        (declareSignature node scope fn) := by
      refine .ofExcept fun types hty => ?_
      obtain ⟨params, ret⟩ := types
      refine .note (.scopes (.ofExcept fun entry hd => ?_))
      obtain ⟨id, tree'⟩ := entry
      exact .bind (.setScopes (.overloaded hty hd)) fun _ _ _ _ => .pure _
    exact .bind hfirst fun _ tree' _ _ =>
      .bind (declareSignatures_traced node scope fns tree') fun _ _ _ _ => .pure _

theorem bindParams_traced (scope : ScopeId) : ∀ (params : List Param) (tree : ScopeTree),
    Traced PlainChange tree (bindParams scope params) (bindParams scope params)
  | [], _ => .pure _
  | _ :: params, tree => by
    refine .ofExcept fun ty hty => ?_
    refine .bind (declareHere_traced (TypeExpr.resolve_eq_ok hty).2.flat tree) fun _ tree' _ _ => ?_
    exact .within (bindParams_traced scope params tree') fun _ _ _ _ => .pure _

theorem FnDef.bind_traced (fn : FnDef) (hlt : scope < tree.parents.length) :
    Traced PlainChange tree (fn.bind scope) (fn.bind scope) := by
  refine .bind (openScope_traced hlt) fun inner tree₁ hopen _ => ?_
  refine .within (bindParams_traced inner fn.params tree₁) fun params tree₂ _ hsteps => ?_
  have hinner := PlainChange.inside hsteps (openScope_inside hopen)
  exact .within (fn.body.bind_traced (some inner) hinner) fun _ _ _ _ => .pure _

theorem bindFunctions_traced : ∀ (fns : List FnDef) {scope : Nat} {tree : ScopeTree},
    scope < tree.parents.length →
    Traced PlainChange tree (bindFunctions scope fns) (bindFunctions scope fns)
  | [], _, _, _ => .pure _
  | fn :: fns, _, _, hlt =>
    .within (fn.bind_traced hlt) fun _ _ _ hsteps =>
      .within (bindFunctions_traced fns (PlainChange.inside hsteps hlt)) fun _ _ _ _ => .pure _

theorem CompileUnit.resolve_traced (unit : CompileUnit) (tree : ScopeTree) :
    Traced CheckStep tree unit.resolve unit.resolve := by
  refine .bind (.setScopes (Or.inl rfl)) fun _ tree' hset _ => .mono ?_ fun _ _ h => Or.inr h
  obtain rfl := setScopes_eq_done.mp hset
  have hroot : root < ScopeTree.initial.parents.length := Nat.zero_lt_one
  refine .bind (openScope_traced hroot) fun unitScope tree₁ hopen _ => ?_
  refine .bind (declareSignatures_traced _ unitScope _ tree₁) fun sigs tree₂ _ hsigs => ?_
  have hlt₂ := PlainChange.inside hsigs (openScope_inside hopen)
  refine .within (bindFunctions_traced _ hlt₂) fun fns tree₃ _ hfns => ?_
  refine .bind (openScope_traced (PlainChange.inside hfns hlt₂)) fun scope tree₄ hopen _ => ?_
  refine .within (unit.script.body.bind_traced (some scope) (openScope_inside hopen))
    fun body tree₅ _ _ => ?_
  exact .scopes (.pure _)

/-! ## All trees of a check -/

/-- What holds of every tree that a check has. -/
structure ScopeTree.Regular (tree : ScopeTree) : Prop where
  kept : tree.Kept
  plain : tree.Plain

namespace ScopeTree.Regular

theorem new : Regular {} :=
  ⟨kept_new, by simp, by simp, by simp, by simp, by simp⟩

theorem initial : ScopeTree.initial.Regular := by
  rw [initial_eq]
  constructor
  case kept => exact { kept_new with sigs := ⟨by decide, by decide⟩ }
  case plain =>
    exact ⟨fun sig hm => (builtinSignatures_prim sig hm).1,
      fun sig hm => (builtinSignatures_prim sig hm).2.flat, by simp, by simp, by simp⟩

theorem step (hstep : CheckStep tree tree') (h : tree.Regular) : tree'.Regular := by
  rcases hstep with rfl | hchange
  · exact initial
  · exact ⟨h.kept.change hchange.change, hchange.plain h.plain⟩

theorem steps (hsteps : Relation.ReflTransGen CheckStep tree tree') (h : tree.Regular) :
    tree'.Regular := by
  induction hsteps with
  | refl => exact h
  | tail _ hstep ih => exact step hstep ih

theorem unambiguous (h : tree.Regular) : tree.Unambiguous := by
  refine (List.pairwise_map.mp h.kept.sigs.once).imp ?_
  rintro sig sig' hne ⟨hscope, hname, hparams⟩
  exact hne (by rw [hscope, hname, hparams])

end ScopeTree.Regular

theorem CompileUnit.checkPass_traced (unit : CompileUnit) :
    Traced CheckStep {} unit.checkPass unit.checkPass := by
  refine .note (.bind (unit.resolve_traced {}) fun out tree' hr hsteps => ?_)
  obtain ⟨bound, res⟩ := out
  have hplain := (Regular.new.steps hsteps).plain
  refine .bind (.mono (bound.infer_traced (CompileUnit.resolve_spec hr).1.functions _ hplain)
    fun _ _ h => Or.inr h.plainChange) fun unit' tree'' _ _ => ?_
  exact .scopes (.pure _)

/-! ## One candidate at every call -/

/-- The tree has the variable, with a known type. -/
def ScopeTree.KnownVariable (tree : ScopeTree) (id : DeclId) : Prop :=
  ∃ var, tree.decls[id]? = some var ∧ var.ty.isFullyKnown = true

/-- The return types of all functions are known. -/
def ScopeTree.KnownReturns (tree : ScopeTree) : Prop :=
  ∀ sig ∈ tree.sigs, sig.ret.isFullyKnown = true

theorem ScopeTree.Regular.settled (h : tree.Regular) (hk : tree.KnownReturns) : tree.Settled :=
  ⟨h.plain.params, fun sig hm => (h.plain.rets sig hm).prim_of_isFullyKnown (hk sig hm),
    h.unambiguous⟩

theorem ScopeTree.Kept.candidates (h : tree.Kept) (hlt : scope < tree.parents.length)
    (name : String) (args : List Ty) : ∃ sigs, tree.candidates scope name args = .ok sigs := by
  obtain ⟨found, hf, _⟩ := h.lookupOverloads_spec hlt name
  exact ⟨_, by simp only [ScopeTree.candidates, hf]; rfl⟩

section

variable {tree : ScopeTree} {scope : Nat}

mutual
/-- Where all types are known, an expression has a known type and one candidate at every call, or
there is an error in it. -/
theorem Expr.synth_pinned (h : tree.Regular) (hk : tree.KnownReturns)
    (hlt : scope < tree.parents.length) : ∀ expr : Expr, expr.Within tree.KnownVariable →
    (∃ ty, expr.synth tree scope = .ok ty ∧ ty.Prim ∧ expr.Pinned tree scope) ∨
      ∃ e, expr.synth tree scope = .error (.error e)
  | .lit value _ _, _ => Or.inl ⟨value.ty, rfl, value.prim_ty, trivial⟩
  | .var _ none _ _, _ => Or.inr ⟨_, rfl⟩
  | .var _ (some id) _ _, hw => by
    obtain ⟨var, hv, hknown⟩ := hw id rfl
    have hprim := (h.plain.types var (List.mem_of_getElem? hv)).prim_of_isFullyKnown hknown
    refine Or.inl ⟨var.ty, ?_, hprim, trivial⟩
    simp only [Expr.synth, bind_eq_ok, demand_eq_ok, Option.some.injEq, exists_eq_left',
      declaration_eq_ok, pure_eq_ok]
    exact ⟨var, hv, rfl⟩
  | .call name args span _, hw => by
    rcases synthAll_pinned h hk hlt args hw with ⟨found, hf, hprim, hpinned⟩ | ⟨e, he⟩
    · obtain ⟨sigs, hc⟩ := h.kept.candidates hlt name found
      have hset := h.settled hk
      by_cases hne : sigs = []
      · subst hne
        refine Or.inr ⟨.undeclaredFunction name found span, ?_⟩
        simp only [Expr.synth, bind, Except.bind, hf, hc]
        rfl
      · obtain ⟨_, sig, _, _, rfl⟩ := hset.candidates hprim hc hne
        have hret := hset.rets sig (mem_sigs_of_candidates hc List.mem_cons_self)
        refine Or.inl ⟨sig.ret, ?_, hret, hpinned, found, sig, hf, hc⟩
        rw [← returnType_singleton hret]
        simp only [Expr.synth, bind, Except.bind, hf, hc]
        rfl
    · exact Or.inr ⟨e, by simp only [Expr.synth, he]; rfl⟩
theorem synthAll_pinned (h : tree.Regular) (hk : tree.KnownReturns)
    (hlt : scope < tree.parents.length) : ∀ exprs : List Expr, AllWithin tree.KnownVariable exprs →
    (∃ tys, synthAll tree scope exprs = .ok tys ∧ (∀ ty ∈ tys, ty.Prim) ∧
        AllPinned tree scope exprs) ∨
      ∃ e, synthAll tree scope exprs = .error (.error e)
  | [], _ => Or.inl ⟨[], rfl, by simp, trivial⟩
  | expr :: exprs, hw => by
    rcases Expr.synth_pinned h hk hlt expr hw.1 with ⟨ty, hty, hprim, hpinned⟩ | ⟨e, he⟩
    · rcases synthAll_pinned h hk hlt exprs hw.2 with ⟨tys, htys, hprims, hall⟩ | ⟨e, he⟩
      · refine Or.inl ⟨ty :: tys, ?_, List.forall_mem_cons.mpr ⟨hprim, hprims⟩, hpinned, hall⟩
        simp only [synthAll, hty, htys]
        rfl
      · exact Or.inr ⟨e, by simp only [synthAll, hty, he]; rfl⟩
    · exact Or.inr ⟨e, by simp only [synthAll, he]; rfl⟩
end

end

/-- A check, with all scope trees it has on the way. -/
def CompileUnit.chronicle (unit : CompileUnit) :
    Outcome Chronicle CompileUnit (CompileUnit × Resolution) :=
  unit.checkPass {}

theorem CompileUnit.chronicle_regular (unit : CompileUnit) :
    Run.ofOutcome unit.chronicle = unit.check ∧
      ∀ tree ∈ (state unit.chronicle).trees, tree.Regular := by
  obtain ⟨chronicle, hp, _, hgrows⟩ := unit.checkPass_traced {} rfl
  have hrun : unit.chronicle = (unit.checkPass ({} : ScopeTree)).restate chronicle := hp
  rw [hrun, Run.ofOutcome_restate, state_restate]
  exact ⟨rfl, hgrows.forall_mem (fun _ _ => Regular.step)
    (by simpa [Chronicle.trees] using Regular.new)⟩

/-- Whatever scope tree a check has on its way, variables and results of functions have basic or
unknown types in it, and parameters basic ones. An expression may be found to have a set of at least
two basic types besides, and merging that with what is expected of it gives nothing else. Where all
return types and the variables of an expression are known, it is found to have a basic type and one
candidate at every call, or there is an error in it. -/
theorem check_transient (unit : CompileUnit) :
    Run.ofOutcome unit.chronicle = unit.check ∧
      ∀ tree ∈ (state unit.chronicle).trees,
        (∀ var ∈ tree.decls, var.declared.Flat ∧ var.ty.Flat) ∧
        (∀ sig ∈ tree.sigs, sig.ret.Flat ∧ ∀ ty ∈ sig.params, ty.Prim) ∧
        (∀ (expr : Expr) (scope : ScopeId) (found : Ty), expr.synth tree scope = .ok found →
          found.Transient ∧ ∀ expected ty : Ty, expected.Flat → expected.unify found = some ty →
            ty.Transient) ∧
        (tree.KnownReturns → ∀ (expr : Expr) (scope : Nat), scope < tree.parents.length →
          expr.Within tree.KnownVariable →
          (∃ ty, expr.synth tree scope = .ok ty ∧ ty.Prim ∧ expr.Pinned tree scope) ∨
            ∃ e, expr.synth tree scope = .error (.error e)) := by
  obtain ⟨hrun, hregular⟩ := unit.chronicle_regular
  refine ⟨hrun, fun tree hm => ?_⟩
  have h := hregular tree hm
  refine ⟨?_, ?_, ?_, ?_⟩
  · exact fun var hv => ⟨h.plain.declared var hv, h.plain.types var hv⟩
  · exact fun sig hs => ⟨h.plain.rets sig hs, h.plain.params sig hs⟩
  · intro expr scope found hs
    have hfound := Expr.synth_transient h.plain hs
    exact ⟨hfound, fun expected ty hx hty => hfound.unify hx hty⟩
  · exact fun hk expr scope hlt hw => Expr.synth_pinned h hk hlt expr hw

/-- The functions in the opposite order. -/
def CompileUnit.backwards (unit : CompileUnit) : CompileUnit :=
  { unit with functions := unit.functions.reverse }

/-- A call of the overloads of `pick` whose argument hangs on `second`. -/
def picked : Expr :=
  .call "pick" [.call "second" []]

theorem check_transient_wavering :
    (∃ tree ∈ (state (wavering (.float ⟨0x3FF0000000000000⟩)).backwards.chronicle).trees,
      ∃ ty, picked.synth tree 1 = .ok ty ∧ ty.isVariant = true ∧ ty.Transient) ∧
    ∃ tree ∈ (state (wavering (.int 2)).chronicle).trees, tree.KnownReturns ∧
      ∃ ty, picked.synth tree 1 = .ok ty ∧ ty.Prim ∧ picked.Pinned tree 1 := by
  constructor
  · have heval : (state (wavering (.float ⟨0x3FF0000000000000⟩)).backwards.chronicle).trees.any
        (fun tree => (picked.synth tree 1).toOption.any Ty.isVariant) = true := by decide +kernel
    obtain ⟨tree, hm, hv⟩ := List.any_eq_true.mp heval
    obtain ⟨_, _, hsynth, _⟩ := (check_transient _).2 tree hm
    cases hs : picked.synth tree 1 with
    | error halt => simp [hs, Except.toOption] at hv
    | ok ty =>
      refine ⟨tree, hm, ty, hs, ?_, (hsynth picked 1 ty hs).1⟩
      simpa [hs, Except.toOption] using hv
  · have heval : (state (wavering (.int 2)).chronicle).trees.any (fun tree =>
        tree.sigs.all (·.ret.isFullyKnown) && decide (1 < tree.parents.length) &&
          (picked.synth tree 1).isOk) = true := by decide +kernel
    obtain ⟨tree, hm, hall⟩ := List.any_eq_true.mp heval
    simp only [Bool.and_eq_true, decide_eq_true_eq, List.all_eq_true] at hall
    obtain ⟨⟨hknown, hlt⟩, hok⟩ := hall
    have hwithin : picked.Within tree.KnownVariable := ⟨trivial, trivial⟩
    obtain ⟨_, _, _, hpinned⟩ := (check_transient _).2 tree hm
    rcases hpinned hknown picked 1 hlt hwithin with hty | ⟨e, he⟩
    · exact ⟨tree, hm, hknown, hty⟩
    · rw [he] at hok
      cases hok

end ScriptLang
