import ScriptLang.Proofs.Completeness
import ScriptLang.Proofs.Probing
import ScriptLang.Proofs.ScopeHistory

/-!
# What checking complains about

A unit whose slots are empty is checked without a fault, and what checking complains about is the
program. There is one exception: a branch that has the wrong number of blocks for its conditions
cannot come from a program, and binding says so.
-/

namespace ScriptLang

open Pass ScopeTree

variable {unit : CompileUnit} {fn : FnDef} {fns : List FnDef} {own : List SigId} {mode : Mode}
  {scope : Nat} {sig : SigId} {span : Span}

/-! ## Branches -/

/-- A branch, as far as its shape goes. -/
structure BranchShape where
  conds : Nat
  blocks : Nat
  span : Span

namespace BranchShape

/-- There is no condition, or a number of blocks that no choice with these conditions has. -/
def Malformed (shape : BranchShape) : Prop :=
  shape.conds = 0 ∨ shape.blocks ≠ shape.conds ∧ shape.blocks ≠ shape.conds + 1

/-- How binding stops at a malformed branch. -/
def halt (shape : BranchShape) : Halt :=
  .missing s!"branch with {shape.conds} conditions and {shape.blocks} blocks" shape.span

theorem malformed_of_not_fits {shape : BranchShape}
    (h : ¬ branchShapeFits shape.conds shape.blocks = true) : shape.Malformed := by
  unfold Malformed
  simp only [branchShapeFits, ne_eq, Bool.and_eq_true, decide_eq_true_eq, Bool.or_eq_true,
    decide_not, Bool.not_eq_true', decide_eq_false_iff_not] at h
  omega

end BranchShape

mutual
/-- The branches in a statement. -/
def Stmt.branches : Stmt → List BranchShape
  | .decl .. => []
  | .assign .. => []
  | .branch conds blocks span => ⟨conds.length, blocks.length, span⟩ :: branchesOfBlocks blocks
  | .forLoop _ _ _ body _ _ => body.branches
  | .whileLoop _ body _ => body.branches
  | .call _ => []
def Block.branches : Block → List BranchShape
  | ⟨stmts, _, _, _, _⟩ => branchesOf stmts
def branchesOf : List Stmt → List BranchShape
  | [] => []
  | stmt :: stmts => stmt.branches ++ branchesOf stmts
def branchesOfBlocks : List Block → List BranchShape
  | [] => []
  | block :: blocks => block.branches ++ branchesOfBlocks blocks
end

def CompileUnit.branches (unit : CompileUnit) : List BranchShape :=
  unit.functions.flatMap (·.body.branches) ++ unit.script.body.branches

/-! ## Binding -/

/-- A scope of a tree in which every way leads to the root. -/
structure ScopeTree.At (scope : Nat) (tree : ScopeTree) : Prop where
  arena : tree.Arena
  inside : scope < tree.parents.length

/-- The halts `E` hold complaints about the program and about the malformed branches. -/
structure Permits (E : Halt → ScopeTree → Prop) (branches : List BranchShape) : Prop where
  complaints : ∀ halt tree, halt.isComplaint = true → E halt tree
  shapes : ∀ shape ∈ branches, shape.Malformed → ∀ tree, E shape.halt tree

section

variable {E : Halt → ScopeTree → Prop}

theorem Permits.append {branches more : List BranchShape} (h : Permits E (branches ++ more)) :
    Permits E branches ∧ Permits E more := by
  obtain ⟨hl, hr⟩ := List.forall_mem_append.mp h.shapes
  exact ⟨⟨h.complaints, hl⟩, ⟨h.complaints, hr⟩⟩

theorem ScopeTree.At.resolveVariable {tree : ScopeTree} {scope : Nat} (h : tree.At scope)
    {name : String} {span : Span} {halt : Halt}
    (he : tree.resolveVariable scope name span = .error halt) : halt.isComplaint = true := by
  rcases nearest_spec h.arena (tree.declaredIn? · name) scope h.inside with
    ⟨_, id, _, _, hnear⟩ | ⟨_, hnear⟩
  · simp only [ScopeTree.resolveVariable, lookupVariable, hnear] at he
    cases he
  · simp only [ScopeTree.resolveVariable, lookupVariable, hnear] at he
    cases he
    rfl

mutual
theorem Expr.bind_complaints {scope : Nat}
    (hE : ∀ halt tree, halt.isComplaint = true → E halt tree) :
    ∀ expr : Expr, Triple (At scope) (expr.bind scope : Pass ScopeTree Expr Expr)
      (fun _ => At scope) E
  | .lit .. => .pure fun _ h => h
  | .var name handle span slot => by
    refine .scopes fun tree ht => .ofExcept ?_ fun id _ => .pure fun _ h => h
    intro halt he tree' _
    exact hE halt tree' (ht.resolveVariable he)
  | .call name args span slot =>
    .bind (.within (bindAll_complaints hE args) _) fun _ => .pure fun _ h => h
theorem bindAll_complaints {scope : Nat} (hE : ∀ halt tree, halt.isComplaint = true → E halt tree) :
    ∀ exprs : List Expr, Triple (At scope) (bindAll scope exprs : Pass ScopeTree _ (List Expr))
      (fun _ => At scope) E
  | [] => .pure fun _ h => h
  | expr :: exprs =>
    .bind (.within (Expr.bind_complaints hE expr) _) fun _ =>
      .bind (.within (bindAll_complaints hE exprs) _) fun _ => .pure fun _ h => h
end

theorem declareHere_complaints (hE : ∀ halt tree, halt.isComplaint = true → E halt tree) {node : ν}
    {name : String} {ty : Ty} {kind : DeclKind} :
    Triple (At scope) (declareHere node scope name ty kind span) (fun _ => At scope) E := by
  intro tree h
  by_cases hold : tree.HasVariable name scope
  · obtain ⟨previous, _, _, _, hd⟩ := declareVariable_twice ty kind span h.inside hold
    have hrun : declareHere node scope name ty kind span tree =
        .stopped node (.error (.illegalRedefine name span previous.span)) tree := by
      simp [declareHere, hd]
    rw [hrun]
    exact hE _ tree rfl
  · have hd := declareVariable_new ty kind span h.inside hold
    rw [declareHere_eq_done.mpr hd]
    exact ⟨arena_declare hd h.arena, h.inside⟩

theorem ScopeTree.At.outer {tree : ScopeTree} {inner : Nat} (h : tree.At inner)
    (hlt : scope < inner) : tree.At scope :=
  ⟨h.arena, Nat.lt_trans hlt h.inside⟩

theorem openScope_complaints (scope : Nat) :
    Triple (At scope) (openScope scope : Pass ScopeTree ν ScopeId)
      (fun inner tree => tree.At inner ∧ scope < inner) E := by
  intro tree h
  have hinside : tree.parents.length < (tree.newScope scope).2.parents.length := by
    simp [newScope]
  exact ⟨⟨arena_newScope h.arena h.inside, hinside⟩, h.inside⟩

theorem TypeExpr.resolve_complaint {expr : TypeExpr} {halt : Halt}
    (h : expr.resolve = .error halt) : halt.isComplaint = true := by
  unfold TypeExpr.resolve at h
  split at h
  · cases h
  · cases h
    rfl

theorem declaredType_complaint {ascription : Option TypeExpr} {halt : Halt}
    (h : declaredType ascription = .error halt) : halt.isComplaint = true := by
  cases ascription with
  | none => cases h
  | some expr => exact TypeExpr.resolve_complaint h

mutual
theorem Stmt.bind_complaints : ∀ (stmt : Stmt) {scope : Nat}, Permits E stmt.branches →
    Triple (At scope) (stmt.bind scope : Pass ScopeTree Stmt Stmt) (fun _ => At scope) E
  | .decl _ _ value _ _, _, h => by
    refine .bind (.within (value.bind_complaints h.complaints) _) fun _ => ?_
    refine .ofExcept (fun halt he tree _ => h.complaints halt tree (declaredType_complaint he)) ?_
    intro ty _
    exact .bind (declareHere_complaints h.complaints) fun _ => .pure fun _ h => h
  | .assign _ value _ _, _, h => by
    refine .bind (.within (value.bind_complaints h.complaints) _) fun _ => ?_
    refine .scopes fun tree ht => .ofExcept ?_ fun id _ => .pure fun _ h => h
    intro halt he tree' _
    exact h.complaints halt tree' (ht.resolveVariable he)
  | .branch conds blocks _, _, h => by
    obtain ⟨hself, hrest⟩ := List.forall_mem_cons.mp h.shapes
    unfold Stmt.bind
    split
    · refine .bind (.within (bindAll_complaints h.complaints conds) _) fun _ => ?_
      exact .bind (.within (bindBlocks_complaints blocks ⟨h.complaints, hrest⟩) _) fun _ =>
        .pure fun _ h => h
    · rename_i hnot
      exact .stop fun tree _ => hself (BranchShape.malformed_of_not_fits hnot) tree
  | .forLoop _ lo hi body _ _, scope, h => by
    refine .bind (.within (lo.bind_complaints h.complaints) _) fun _ => ?_
    refine .bind (.within (hi.bind_complaints h.complaints) _) fun _ => ?_
    refine .bind (openScope_complaints scope) fun inner => .and fun hlt => ?_
    refine .bind (declareHere_complaints h.complaints) fun _ => ?_
    exact .bind (.within (body.bind_complaints h) _) fun _ => .pure fun _ h => h.outer hlt
  | .whileLoop cond body _, _, h =>
    .bind (.within (cond.bind_complaints h.complaints) _) fun _ =>
      .bind (.within (body.bind_complaints h) _) fun _ => .pure fun _ h => h
  | .call value, _, h =>
    .bind (.within (value.bind_complaints h.complaints) _) fun _ => .pure fun _ h => h
theorem Block.bind_complaints : ∀ (block : Block) {scope : Nat} {own : Option ScopeId},
    Permits E block.branches →
    Triple (At scope) (block.bind scope own : Pass ScopeTree Block Block) (fun _ => At scope) E
  | ⟨stmts, none, _, _, _⟩, _, _, h =>
    .bind (.within (bindStmts_complaints stmts h) _) fun _ => .pure fun _ h => h
  | ⟨stmts, some ⟨value, _⟩, _, _, _⟩, _, _, h =>
    .bind (.within (bindStmts_complaints stmts h) _) fun _ =>
      .bind (.within (value.bind_complaints h.complaints) _) fun _ => .pure fun _ h => h
theorem bindStmts_complaints : ∀ (stmts : List Stmt) {scope : Nat}, Permits E (branchesOf stmts) →
    Triple (At scope) (bindStmts scope stmts : Pass ScopeTree _ (List Stmt)) (fun _ => At scope) E
  | [], _, _ => .pure fun _ h => h
  | stmt :: stmts, _, h =>
    .bind (.within (stmt.bind_complaints h.append.1) _) fun _ =>
      .bind (.within (bindStmts_complaints stmts h.append.2) _) fun _ => .pure fun _ h => h
theorem bindBlocks_complaints : ∀ (blocks : List Block) {scope : Nat},
    Permits E (branchesOfBlocks blocks) →
    Triple (At scope) (bindBlocks scope blocks : Pass ScopeTree _ (List Block))
      (fun _ => At scope) E
  | [], _, _ => .pure fun _ h => h
  | block :: blocks, _, h =>
    .bind (.within (block.bind_complaints h.append.1) _) fun _ =>
      .bind (.within (bindBlocks_complaints blocks h.append.2) _) fun _ => .pure fun _ h => h
end

theorem bindParams_complaints (hE : ∀ halt tree, halt.isComplaint = true → E halt tree)
    (params : List Param) :
    Triple (At scope) (bindParams scope params : Pass ScopeTree _ (List Param))
      (fun _ => At scope) E := by
  induction params with
  | nil => exact .pure fun _ h => h
  | cons param params ih =>
    refine .ofExcept (fun halt he tree _ => hE halt tree (TypeExpr.resolve_complaint he)) ?_
    intro ty _
    refine .bind (declareHere_complaints hE) fun _ => ?_
    exact .bind (.within ih _) fun _ => .pure fun _ h => h

theorem FnDef.bind_complaints {fn : FnDef} {scope : Nat} (h : Permits E fn.body.branches) :
    Triple (At scope) (fn.bind scope : Pass ScopeTree FnDef FnDef) (fun _ => At scope) E := by
  refine .bind (openScope_complaints scope) fun inner => .and fun hlt => ?_
  refine .bind (.within (bindParams_complaints h.complaints fn.params) _) fun _ => ?_
  exact .bind (.within (fn.body.bind_complaints h) _) fun _ => .pure fun _ h => h.outer hlt

theorem bindFunctions_complaints (fns : List FnDef)
    (h : Permits E (fns.flatMap (·.body.branches))) :
    Triple (At scope) (bindFunctions scope fns : Pass ScopeTree _ (List FnDef))
      (fun _ => At scope) E := by
  induction fns with
  | nil => exact .pure fun _ h => h
  | cons fn fns ih =>
    obtain ⟨hself, hrest⟩ := h.append
    refine .bind (.within (FnDef.bind_complaints hself) _) fun _ => ?_
    exact .bind (.within (ih hrest) _) fun _ => .pure fun _ h => h

theorem mapM_eq_error {f : α → Except ε β} {e : ε} {as : List α} (h : as.mapM f = .error e) :
    ∃ a ∈ as, f a = .error e := by
  induction as with
  | nil => cases h
  | cons a as ih =>
    rw [List.mapM_cons] at h
    rcases bind_eq_error.mp h with ha | ⟨b, _, h⟩
    · exact ⟨a, List.mem_cons_self, ha⟩
    · rcases bind_eq_error.mp h with has | ⟨bs, _, h⟩
      · obtain ⟨a', hm, ha'⟩ := ih has
        exact ⟨a', List.mem_cons_of_mem a hm, ha'⟩
      · cases h

theorem FnDef.signatureTypes_complaint {halt : Halt} (h : fn.signatureTypes = .error halt) :
    halt.isComplaint = true := by
  rcases bind_eq_error.mp h with hp | ⟨params, _, h⟩
  · obtain ⟨param, _, he⟩ := mapM_eq_error hp
    exact TypeExpr.resolve_complaint he
  · split at h
    · rcases bind_eq_error.mp h with hr | ⟨ret, _, h⟩
      · exact TypeExpr.resolve_complaint hr
      · cases h
    · cases h

theorem declareSignature_complaints (hE : ∀ halt tree, halt.isComplaint = true → E halt tree)
    {node : ν} (fn : FnDef) :
    Triple (At scope) (declareSignature node scope fn) (fun _ => At scope) E := by
  refine .ofExcept (fun halt he tree _ => hE halt tree (FnDef.signatureTypes_complaint he)) ?_
  rintro ⟨params, ret⟩ _
  refine .note ?_
  intro tree h
  by_cases hold : tree.HasOverload fn.name params scope
  · obtain ⟨previous, _, _, _, _, hd⟩ := declareFunction_twice ret .user fn.span h.inside hold
    simp only [bind_apply, scopes_apply, hd, ofExcept_error]
    exact hE _ tree rfl
  · have hd := declareFunction_new ret .user fn.span h.inside hold
    simp only [bind_apply, scopes_apply, hd, ofExcept_ok, setScopes_apply, pure_apply]
    exact ⟨⟨h.arena.ordered, h.arena.inside⟩, h.inside⟩

theorem declareSignatures_complaints (hE : ∀ halt tree, halt.isComplaint = true → E halt tree)
    {node : ν} (fns : List FnDef) :
    Triple (At scope) (declareSignatures node scope fns) (fun _ => At scope) E := by
  induction fns with
  | nil => exact .pure fun _ h => h
  | cons fn fns ih =>
    refine .bind (declareSignature_complaints hE fn) fun _ => ?_
    exact .bind ih fun _ => .pure fun _ h => h

theorem ScopeTree.at_initial : ScopeTree.initial.At root := by
  rw [initial_eq]
  refine ⟨⟨?_, List.forall_mem_nil _⟩, Nat.zero_lt_one⟩
  intro scope up h
  cases scope <;> simp at h

theorem CompileUnit.resolve_complaints (h : Permits E unit.branches) :
    Triple (fun _ => True) (unit.resolve : Pass ScopeTree _ (CompileUnit × Resolution))
      (fun _ _ => True) E := by
  obtain ⟨hfns, hscript⟩ := h.append
  refine .setScopes ?_
  refine .bind ((openScope_complaints root).pre ?_) fun unitScope => .and fun _ => ?_
  · rintro _ rfl
    exact at_initial
  refine .bind (declareSignatures_complaints h.complaints unit.functions) fun _ => ?_
  refine .bind (.within (bindFunctions_complaints unit.functions hfns) _) fun _ => ?_
  refine .bind (openScope_complaints unitScope) fun scope => .and fun _ => ?_
  refine .bind (.within (unit.script.body.bind_complaints hscript) _) fun _ => ?_
  exact .scopes fun _ _ => .pure fun _ _ => trivial

end

/-! ## Committing -/

section

variable {vars sigs : Nat}

theorem allowing_complaints {mode : Mode} : Allowing (·.isComplaint = true) True mode :=
  ⟨fun _ hc => hc, .inl trivial⟩

theorem FnDef.checkReturn_complaint {ret : Ty} {halt : Halt}
    (h : fn.checkReturn ret = .error halt) : halt.isComplaint = true := by
  unfold FnDef.checkReturn at h
  split at h
  · cases h
    rfl
  · split at h
    · cases h
      rfl
    · cases h

theorem FnDef.Inside.commit_fair (h : fn.Inside vars) (hu : fn.clear true = fn) (hsig : sigs > sig) :
    Fair (·.isComplaint = true) vars sigs (fn.commit 1 sig : Pass ScopeTree FnDef FnDef) := by
  obtain ⟨hbody, hnone⟩ := FnDef.clear_eq_self.mp hu
  refine .note (.bind (h.inferBody_fair allowing_complaints (fun _ => hbody) hsig) fun r =>
    .and fun hslot => ?_)
  refine .ofExcept (fun _ he _ ht => ⟨FnDef.checkReturn_complaint he, ht⟩) fun _ _ => ?_
  refine .ofExcept ?_ fun _ _ => ?_
  · intro halt he
    rw [TypeSlot.writeOrHalt_eq_ok.mpr ⟨Or.inl (hslot.trans hnone), rfl⟩] at he
    cases he
  · exact setReturn_fair hsig fun _ ht => ht

/-- Each function is committed once, so its slots are empty when it is its turn. -/
theorem commitFunctions_fair (hs : ∀ sig ∈ own, sigs > sig) {order : List Nat}
    (hnodup : order.Nodup) (hlen : fns.length = own.length)
    (hf : ∀ i ∈ order, ∀ fn, fns[i]? = some fn → fn.Inside vars ∧ fn.clear true = fn) :
    Fair (·.isComplaint = true) vars sigs
      (commitFunctions 1 own order fns : Pass ScopeTree _ (List FnDef)) := by
  induction order generalizing fns with
  | nil => exact .pure fun _ ht => ht
  | cons i order ih =>
    obtain ⟨hi, hnodup⟩ := List.nodup_cons.mp hnodup
    obtain ⟨hfi, hforder⟩ := List.forall_mem_cons.mp hf
    unfold commitFunctions
    split
    · exact ih hnodup hlen hforder
    · rename_i fn hfn hsig
      have hlt := (List.getElem?_eq_some_iff.mp hfn).1
      rw [List.getElem?_eq_getElem (hlen ▸ hlt)] at hsig
      cases hsig
    · rename_i fn sig hfn hsig
      obtain ⟨hin, hu⟩ := hfi fn hfn
      refine .bind (.within (hin.commit_fair hu (hs sig (List.mem_of_getElem? hsig))) _) fun fn' => ?_
      refine ih hnodup (by simpa using hlen) ?_
      intro j hj other hother
      have hne : i ≠ j := by
        rintro rfl
        exact hi hj
      rw [List.getElem?_set_ne hne] at hother
      exact hforder j hj other hother

namespace CompileUnit.ResolvedIn

variable {unit : CompileUnit} {res : Resolution}

theorem infer_fair (h : unit.ResolvedIn res) (hu : unit.Untyped) :
    Fair (·.isComplaint = true) unit.sites.length res.scopes.sigs.length
      (unit.infer res.unitScope res.signatures : Pass ScopeTree CompileUnit CompileUnit) := by
  rw [h.unitScope]
  refine .bind (discoverReturns_complaints (fun fn hm => h.inside hm) h.signatures_inside)
    fun lasts => .and fun _ => ?_
  refine .note (.bind resetHere_fair fun _ => ?_)
  have hnodup : (commitOrder lasts).Nodup := (commitOrder_perm lasts).nodup_iff.mpr List.nodup_range
  have hcommit := commitFunctions_fair h.signatures_inside hnodup h.signatures_length.symm
    fun _ _ fn hfn => ⟨h.inside (List.mem_of_getElem? hfn),
      hu.functions fn (List.mem_of_getElem? hfn)⟩
  refine .bind (.within hcommit _) fun fns => ?_
  have hwithin := (Block.Resolved.within unit.script.body (by simp [Env.Within])
    (sitesWithin_append.mp h.sitesWithin).2 h.script).1
  refine .bind (.within ?_ _) fun _ => .pure fun _ ht => ht
  refine .note (.bind (.within ?_ _) fun _ => .pure fun _ ht => ht)
  exact unit.script.body.infer_fair allowing_complaints _ h.script hwithin fun _ => hu.script

end CompileUnit.ResolvedIn

end

/-! ## Checking -/

theorem CompileUnit.check_eq_error {halt : Halt} (h : unit.check.result = .error halt) :
    unit.resolveNames.result = .error halt ∨
      ∃ bound res, unit.resolve {} = .done (bound, res) res.scopes ∧
        (bound.inferTypes res).2.result = .error halt := by
  unfold check checkPass at h
  cases hr : unit.resolve ({} : ScopeTree) with
  | stopped bound halt' tree =>
    simp only [bind_apply, note_apply, hr, Run.ofOutcome] at h
    left
    simp only [resolveNames, hr, Run.ofOutcome, h]
  | done value tree =>
    obtain ⟨bound, res⟩ := value
    obtain rfl := (CompileUnit.resolve_spec hr).2.2
    right
    refine ⟨bound, res, rfl, ?_⟩
    cases hi : bound.infer res.unitScope res.signatures res.scopes with
    | stopped node halt' tree =>
      simp only [bind_apply, note_apply, hr, hi, Run.ofOutcome] at h
      cases h
      simp only [inferTypes, hi]
    | done bound' tree =>
      simp only [bind_apply, note_apply, hr, hi, scopes_apply, pure_apply, Run.ofOutcome] at h
      cases h

theorem CompileUnit.resolveNames_eq_error {halt : Halt}
    (h : unit.resolveNames.result = .error halt) :
    halt.isComplaint = true ∨ ∃ shape ∈ unit.branches, shape.Malformed ∧ shape.halt = halt := by
  let E (halt : Halt) (_ : ScopeTree) : Prop :=
    halt.isComplaint = true ∨ ∃ shape ∈ unit.branches, shape.Malformed ∧ shape.halt = halt
  have hpermits : Permits E unit.branches := by
    constructor
    · intro halt _ hc
      exact Or.inl hc
    · intro shape hm hbad _
      exact Or.inr ⟨shape, hm, hbad, rfl⟩
  cases hr : unit.resolve ({} : ScopeTree) with
  | done value tree =>
    simp only [resolveNames, hr, Run.ofOutcome] at h
    cases h
  | stopped bound halt' tree =>
    simp only [resolveNames, hr, Run.ofOutcome] at h
    cases h
    exact (CompileUnit.resolve_complaints hpermits).stopped trivial hr

theorem CompileUnit.inferTypes_eq_error {bound : CompileUnit} (hu : unit.Untyped) {res : Resolution}
    (hr : unit.resolve {} = .done (bound, res) res.scopes) {halt : Halt}
    (h : (bound.inferTypes res).2.result = .error halt) : halt.isComplaint = true := by
  have hres := (CompileUnit.resolve_spec hr).1
  cases hi : bound.infer res.unitScope res.signatures res.scopes with
  | done bound' tree =>
    simp only [inferTypes, hi] at h
    cases h
  | stopped node halt' tree =>
    simp only [inferTypes, hi] at h
    cases h
    exact ((hres.infer_fair (hu.resolve hr)).stopped hres.extent hi).1

/-- A unit with empty slots is checked without a fault. Besides the program, checking complains
about malformed branches only, and these are found by binding. Once names are bound, inference
complains about the program only, and so does every probe, whichever round it belongs to. -/
theorem check_complaints {unit : CompileUnit} (hu : unit.Untyped) :
    (∀ fault, unit.check.result ≠ .error (.fault fault)) ∧
    (∀ what span, unit.check.result = .error (.missing what span) →
      unit.resolveNames.result = .error (.missing what span) ∧
        ∃ shape ∈ unit.branches, shape.Malformed ∧ shape.halt = .missing what span) ∧
    ∀ bound res, unit.resolveNames = ⟨bound, .ok res⟩ →
      (∀ halt, (bound.inferTypes res).2.result = .error halt → halt.isComplaint = true) ∧
        ∀ rounds, ∃ lasts tree,
          probeRounds bound res.unitScope bound.functions res.signatures rounds 1
            (bound.functions.map fun _ => none) res.scopes = .done lasts tree ∧
          Complaints lasts := by
  have hcheck : ∀ halt, unit.check.result = .error halt → halt.isComplaint = true ∨
      unit.resolveNames.result = .error halt ∧
        ∃ shape ∈ unit.branches, shape.Malformed ∧ shape.halt = halt := by
    intro halt h
    rcases CompileUnit.check_eq_error h with hnames | ⟨bound, res, hr, hinfer⟩
    · exact (CompileUnit.resolveNames_eq_error hnames).imp_right fun hshape => ⟨hnames, hshape⟩
    · exact Or.inl (CompileUnit.inferTypes_eq_error hu hr hinfer)
  refine ⟨?_, ?_, ?_⟩
  · intro fault h
    rcases hcheck _ h with hc | ⟨_, shape, _, _, hshape⟩
    · cases hc
    · cases hshape
  · intro what span h
    rcases hcheck _ h with hc | hbad
    · cases hc
    · exact hbad
  · intro bound res h
    obtain ⟨tree, hr⟩ := Run.ofOutcome_eq_ok.mp h
    obtain ⟨hres, -, rfl⟩ := CompileUnit.resolve_spec hr
    refine ⟨fun halt hinfer => CompileUnit.inferTypes_eq_error hu hr hinfer, ?_⟩
    intro rounds
    have hprobes : Triple _ (probeRounds bound 1 bound.functions res.signatures rounds 1
        (bound.functions.map fun _ => none)) _ fun _ _ => False :=
      probeRounds_complaints (fun fn hm => hres.inside hm) hres.signatures_inside
        (by simp [Complaints])
    rw [hres.unitScope]
    cases hp : probeRounds bound 1 bound.functions res.signatures rounds 1
        (bound.functions.map fun _ => none) res.scopes with
    | stopped node halt tree => exact (hprobes.stopped hres.extent hp).elim
    | done lasts tree => exact ⟨lasts, tree, rfl, (hprobes.done hres.extent hp).2⟩

/-- Handles and scopes of another unit, a body that adds a flag to a number, and a branch. -/
def strayHandles (blocks : List Block) : CompileUnit where
  functions := [
    { name := "f", params := [{ name := "n", ty := { name := "Int" }, handle := some 40 }]
      ret := none
      body := {
        stmts := [.assign "n" (.var "n" (some 7)) {} (some 41)]
        ret := some { value := .call "+" [.var "n" (some 3), .lit (.bool true)] }
        scope := some 12 } }]
  script :=
    { name := "main"
      body := { stmts := [.branch [.lit (.bool true)] blocks] } }
  scope := some 9

theorem check_complaints_strayHandles :
    (strayHandles []).Untyped ∧ (strayHandles [{ stmts := [] }]).Untyped ∧
      (strayHandles []).check.result =
        .error (.missing "branch with 1 conditions and 0 blocks" {}) ∧
      (∃ shape ∈ (strayHandles []).branches, shape.Malformed ∧
        shape.halt = .missing "branch with 1 conditions and 0 blocks" {}) ∧
      (strayHandles [{ stmts := [] }]).check.result = .error (.error (.notAssignable "n" {})) ∧
      ∃ bound res, (strayHandles [{ stmts := [] }]).resolveNames = ⟨bound, .ok res⟩ ∧
        ∃ lasts tree,
          probeRounds bound res.unitScope bound.functions res.signatures 1 1
            (bound.functions.map fun _ => none) res.scopes = .done lasts tree ∧
          Complaints lasts := by
  have hu : ∀ blocks, clearBlocks true blocks = blocks → (strayHandles blocks).Untyped := by
    intro blocks hblocks
    constructor
    · simp only [strayHandles, List.forall_mem_singleton]
      rfl
    · simp [strayHandles, Block.clear, clearStmts, Stmt.clear, clearAll, Expr.clear, hblocks]
  have hbad : (strayHandles []).check.result =
      .error (.missing "branch with 1 conditions and 0 blocks" {}) := by decide +kernel
  have huser : (strayHandles [{ stmts := [] }]).check.result =
      .error (.error (.notAssignable "n" {})) := by decide +kernel
  have hshape := ((check_complaints (hu [] rfl)).2.1 _ _ hbad).2
  obtain ⟨_, _, hprobes⟩ := check_complaints (hu [{ stmts := [] }] rfl)
  cases hnames : (strayHandles [{ stmts := [] }]).resolveNames with
  | mk bound result =>
    cases result with
    | ok res =>
      exact ⟨hu [] rfl, hu _ rfl, hbad, hshape, huser, bound, res, rfl,
        (hprobes bound res hnames).2 1⟩
    | error halt =>
      have hok : (strayHandles [{ stmts := [] }]).resolveNames.result.isOk = true := by
        decide +kernel
      rw [hnames] at hok
      cases hok

end ScriptLang
