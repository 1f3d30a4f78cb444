import ScriptLang.Proofs.Overloads
import ScriptLang.Proofs.Soundness
import ScriptLang.Proofs.Triples

/-!
# What inference stops with

Once names are bound, inference finds every handle and every signature it asks for. So what it stops
with is a complaint about the program, unless it writes a slot that is not empty. Probes write no
slots, and discovery keeps their errors for later: it is always done, whatever it finds out.
-/

namespace ScriptLang

open Pass ScopeTree

variable {tree : ScopeTree} {id : DeclId} {halt : Halt} {round : Nat}

variable {unit : CompileUnit} {fn : FnDef} {fns : List FnDef} {own : List SigId} {mode : Mode}
  {sig : SigId} {span : Span}

/-- A complaint about the program, not about the tree or the caller. -/
def Halt.isComplaint : Halt → Bool
  | .error e => !e.isInternal
  | .fault _ => false

/-! ## Inference of expressions -/

/-- A scope tree of a unit with so many variables and signatures. -/
structure ScopeTree.Extent (vars sigs : Nat) (tree : ScopeTree) : Prop where
  rooted : tree.Rooted
  vars : tree.decls.length = vars
  sigs : tree.sigs.length = sigs

/-- The pass keeps the extent of the tree, and stops only with what is allowed. -/
def Pass.Fair (allowed : Halt → Prop) (vars sigs : Nat) (p : Pass ScopeTree ν α) : Prop :=
  Triple (Extent vars sigs) p (fun _ => Extent vars sigs)
    (fun halt tree => allowed halt ∧ tree.Extent vars sigs)

/-- Complaints about the program are allowed. Where slots are written, they are empty (`strict`), or
it is allowed to complain about them. -/
structure Allowing (allowed : Halt → Prop) (strict : Prop) (mode : Mode) : Prop where
  complaint : ∀ halt, halt.isComplaint = true → allowed halt
  slot : strict ∨ mode = .probe ∨ ∀ what span, allowed (.missing what span)

section

variable {vars sigs : Nat} {allowed : Halt → Prop} {strict : Prop}

theorem ScopeTree.Extent.declaration (h : tree.Extent vars sigs) (hid : vars > id) (span : Span) :
    ∃ var, tree.declaration id span = .ok var :=
  ⟨_, declaration_eq_ok.mpr (List.getElem?_eq_getElem (h.vars.symm ▸ hid))⟩

mutual
theorem Expr.synth_complaint {tree : ScopeTree} (h : tree.Extent vars sigs) :
    ∀ (expr : Expr) {env : Env} {halt : Halt}, expr.Resolved env → expr.Within (vars > ·) →
    expr.synth tree 1 = .error halt → halt.isComplaint = true
  | .lit .., _, _, _, _, he => by cases he
  | .var _ _ span _, _, _, ⟨id, hid, _⟩, hw, he => by
    obtain ⟨var, hv⟩ := h.declaration (hw id hid) span
    subst hid
    rcases bind_eq_error.mp he with he | ⟨other, hother, he⟩
    · cases he
    · cases hother
      rw [hv] at he
      cases he
  | .call _ args _ _, _, _, hr, hw, he => by
    rcases bind_eq_error.mp he with hargs | ⟨found, _, he⟩
    · exact synthAll_complaint h args hr hw hargs
    · rw [h.rooted.candidates] at he
      rcases bind_eq_error.mp he with he | ⟨candidates, _, he⟩
      · cases he
      · split at he
        · cases he
          rfl
        · cases he
theorem synthAll_complaint {tree : ScopeTree} (h : tree.Extent vars sigs) :
    ∀ (exprs : List Expr) {env : Env} {halt : Halt}, AllResolved env exprs →
    AllWithin (vars > ·) exprs → synthAll tree 1 exprs = .error halt → halt.isComplaint = true
  | [], _, _, _, _, he => by cases he
  | expr :: exprs, _, _, hr, hw, he => by
    rcases bind_eq_error.mp he with hexpr | ⟨ty, _, he⟩
    · exact Expr.synth_complaint h expr hr.1 hw.1 hexpr
    · rcases bind_eq_error.mp he with hrest | ⟨tys, _, he⟩
      · exact synthAll_complaint h exprs hr.2 hw.2 hrest
      · cases he
end

theorem ScopeTree.Extent.overloadFor (h : tree.Extent vars sigs) {name : String} {args : List Ty}
    {ty : Ty} {span : Span} (he : tree.overloadFor 1 name args ty span = .error halt) :
    halt.isComplaint = true := by
  unfold ScopeTree.overloadFor at he
  rw [h.rooted.candidates] at he
  rcases bind_eq_error.mp he with he | ⟨candidates, _, he⟩
  · cases he
  · split at he
    · cases he
    · cases he
      rfl
    · cases he
      rfl

theorem Expr.writeSlot_fair (hE : Allowing allowed strict .commit) {expr : Expr}
    (h : strict → expr.slot = none) (ty : Ty) :
    Fair allowed vars sigs (expr.writeSlot ty : Pass ScopeTree Expr Expr) := by
  refine .ofExcept (fun halt he tree ht => ⟨?_, ht⟩) fun _ _ => .pure fun _ ht => ht
  rcases hE.slot with hs | ⟨⟨⟩⟩ | hmissing
  · rw [TypeSlot.writeOrHalt_eq_ok.mpr ⟨Or.inl (h hs), rfl⟩] at he
    cases he
  · unfold TypeSlot.writeOrHalt at he
    split at he
    · cases he
    · cases he
      exact hmissing _ _

mutual
theorem Expr.commit_fair (hE : Allowing allowed strict .commit) : ∀ (expr : Expr) {env : Env}
    (ty : Ty), expr.Resolved env → expr.Within (vars > ·) → (strict → expr.clear true = expr) →
    Fair allowed vars sigs (expr.commit 1 ty : Pass ScopeTree Expr Expr)
  | .lit .., _, ty, _, _, hu => by
    unfold Expr.commit
    split
    · exact Expr.writeSlot_fair hE (fun hs => by exact (Expr.lit.inj (hu hs)).2.2.symm) ty
    · exact .stop fun _ h => ⟨hE.complaint _ rfl, h⟩
  | .var .., _, ty, _, _, hu => by
    unfold Expr.commit
    split
    · exact Expr.writeSlot_fair hE (fun hs => by exact (Expr.var.inj (hu hs)).2.2.2.symm) ty
    · exact .stop fun _ h => ⟨hE.complaint _ rfl, h⟩
  | .call _ args _ _, _, ty, hr, hw, hu => by
    simp only [Expr.clear, Expr.call.injEq, true_and] at hu
    unfold Expr.commit
    split
    · refine .scopes fun tree ht => ?_
      refine .ofExcept (fun _ he _ h => ⟨hE.complaint _ (synthAll_complaint ht args hr hw he), h⟩)
        fun found _ => ?_
      refine .ofExcept (fun _ he _ h => ⟨hE.complaint _ (ht.overloadFor he), h⟩) fun sig _ =>
        .note ?_
      refine .bind (.within (commitAll_fair hE args sig.params found hr hw fun hs => (hu hs).1) _)
        fun _ => ?_
      exact Expr.writeSlot_fair hE (fun hs => by exact (hu hs).2.symm) ty
    · exact .stop fun _ h => ⟨hE.complaint _ rfl, h⟩
theorem commitAll_fair (hE : Allowing allowed strict .commit) : ∀ (exprs : List Expr) {env : Env}
    (params found : List Ty), AllResolved env exprs → AllWithin (vars > ·) exprs →
    (strict → clearAll true exprs = exprs) →
    Fair allowed vars sigs (commitAll 1 exprs params found : Pass ScopeTree _ (List Expr))
  | [], _, _, _, _, _, _ => by
    simp only [commitAll]
    exact .pure fun _ h => h
  | _ :: _, _, [], _, _, _, _ => by
    simp only [commitAll]
    exact .pure fun _ h => h
  | _ :: _, _, _ :: _, [], _, _, _ => by
    simp only [commitAll]
    exact .pure fun _ h => h
  | expr :: exprs, _, _ :: params, _ :: found, hr, hw, hu => by
    simp only [clearAll, List.cons.injEq] at hu
    simp only [commitAll]
    split
    · exact .stop fun _ h => ⟨hE.complaint _ rfl, h⟩
    · rename_i ty _
      refine .bind (.within (expr.commit_fair hE ty hr.1 hw.1 fun hs => (hu hs).1) _) fun _ => ?_
      exact .bind (.within (commitAll_fair hE exprs params found hr.2 hw.2 fun hs => (hu hs).2) _)
        fun _ => .pure fun _ h => h
end

theorem Ty.unifyOrMismatch_complaint {expected found : Ty} {origin : Origin}
    (h : (expected.unifyOrMismatch found origin).mapError Halt.error = .error halt) :
    halt.isComplaint = true := by
  unfold Ty.unifyOrMismatch at h
  cases hu : expected.unify found <;> rw [hu] at h <;> cases h
  rfl

theorem Expr.consume_fair (hE : Allowing allowed strict mode) {expr : Expr} {env : Env}
    (expected : Ty) (origin : Origin) (hr : expr.Resolved env) (hw : expr.Within (vars > ·))
    (hu : strict → expr.clear true = expr) :
    Fair allowed vars sigs
      (expr.consume mode 1 expected origin : Pass ScopeTree Expr (Expr × Ty)) := by
  refine .scopes fun tree ht => ?_
  refine .ofExcept (fun _ he _ h => ⟨hE.complaint _ (Expr.synth_complaint ht expr hr hw he), h⟩)
    fun found _ => ?_
  refine .ofExcept (fun _ he _ h => ⟨hE.complaint _ (Ty.unifyOrMismatch_complaint he), h⟩)
    fun ty _ => ?_
  split
  · exact .stop fun _ h => ⟨hE.complaint _ rfl, h⟩
  · cases mode with
    | probe => exact .pure fun _ h => h
    | commit => exact .bind (expr.commit_fair hE ty hr hw hu) fun _ => .pure fun _ h => h

theorem consumeAll_fair (hE : Allowing allowed strict mode) {env : Env} (expected : Ty)
    (origin : Span → Origin) (exprs : List Expr) (hr : AllResolved env exprs)
    (hw : AllWithin (vars > ·) exprs) (hu : strict → clearAll true exprs = exprs) :
    Fair allowed vars sigs
      (consumeAll mode 1 expected origin exprs : Pass ScopeTree _ (List Expr)) := by
  induction exprs with
  | nil => exact .pure fun _ h => h
  | cons expr exprs ih =>
    simp only [clearAll, List.cons.injEq] at hu
    refine .bind (.within (Expr.consume_fair hE expected _ hr.1 hw.1 fun hs => (hu hs).1) _)
      fun _ => ?_
    exact .bind (.within (ih hr.2 hw.2 fun hs => (hu hs).2) _) fun _ => .pure fun _ h => h

/-! ## Inference of statements -/

theorem setTypeHere_fair {node : ν} (hid : vars > id) (ty : Ty) :
    Fair allowed vars sigs (setTypeHere node id ty : Pass ScopeTree ν Unit) := by
  intro tree h
  have hlt : id < tree.decls.length := h.vars.symm ▸ hid
  have hv : tree.decls[id]? = some tree.decls[id] := List.getElem?_eq_getElem hlt
  have hset : setTypeHere node id ty tree = .done () (tree.retype id tree.decls[id] ty) :=
    setTypeHere_eq_done.mpr ⟨_, hv, rfl⟩
  rw [hset]
  exact ⟨h.rooted, by simpa [retype] using h.vars, h.sigs⟩

theorem ScopeTree.Extent.boundVariable (h : tree.Extent vars sigs) {handle : Option DeclId}
    (hh : handle = some id) (hid : vars > id) {what : String} {span : Span} :
    boundVariable tree handle what span ≠ .error halt := by
  intro he
  obtain ⟨var, hv⟩ := h.declaration hid span
  subst hh
  rcases bind_eq_error.mp he with he | ⟨other, hother, he⟩
  · cases he
  · cases hother
    rw [hv] at he
    cases he

theorem ScopeTree.Extent.assignedVariable (h : tree.Extent vars sigs) {handle : Option DeclId}
    (hh : handle = some id) (hid : vars > id) {target : String}
    (he : assignedVariable tree handle target span = .error halt) : halt.isComplaint = true := by
  rcases bind_eq_error.mp he with he | ⟨⟨_, var⟩, _, he⟩
  · exact absurd he (h.boundVariable hh hid)
  · simp only at he
    split at he
    · cases he
    · cases he
      rfl

theorem storable_complaint {name : String} {expected ty : Ty}
    (h : storable name expected ty span = .error halt) : halt.isComplaint = true := by
  unfold storable at h
  split at h
  · cases h
    rfl
  · cases h

mutual
theorem Stmt.infer_fair (hE : Allowing allowed strict mode) : ∀ (stmt : Stmt) {env : Env}
    (ctx : RoutineContext), stmt.Resolved env → stmt.Within (vars > ·) →
    (strict → stmt.clear true = stmt) →
    Fair allowed vars sigs (stmt.infer mode 1 ctx : Pass ScopeTree Stmt (Stmt × RoutineContext))
  | .decl .., _, _, ⟨hr, id, hid⟩, ⟨hw, hlt⟩, hu => by
    refine .scopes fun tree ht => .ofExcept ?_ ?_
    · intro halt he
      exact absurd he (ht.boundVariable hid (hlt id hid))
    · intro found hfound
      have hbound : vars > found.1 := hlt found.1 (boundVariable_eq_ok.mp hfound).1
      refine .bind (.within (Expr.consume_fair hE _ _ hr hw fun hs => ?_) _) fun _ => ?_
      · injection hu hs
      refine .ofExcept (fun _ he _ h => ⟨hE.complaint _ (storable_complaint he), h⟩) fun _ _ =>
        .note ?_
      exact .bind (setTypeHere_fair hbound _) fun _ => .pure fun _ h => h
  | .assign .., _, _, ⟨hr, id, hid, _⟩, ⟨hw, hlt⟩, hu => by
    refine .scopes fun tree ht => .ofExcept ?_ ?_
    · intro halt he tree' h
      exact ⟨hE.complaint _ (ht.assignedVariable hid (hlt id hid) he), h⟩
    · intro found hfound
      have hbound : vars > found.1 := hlt found.1 (assignedVariable_eq_ok.mp hfound).1
      refine .bind (.within (Expr.consume_fair hE _ _ hr hw fun hs => ?_) _) fun _ => ?_
      · injection hu hs
      refine .ofExcept (fun _ he _ h => ⟨hE.complaint _ (storable_complaint he), h⟩) fun _ _ => ?_
      exact .bind (setTypeHere_fair hbound _) fun _ => .pure fun _ h => h
  | .branch conds blocks _, _, ctx, ⟨_, hrc, hrb⟩, ⟨hwc, hwb⟩, hu => by
    simp only [Stmt.clear, Stmt.branch.injEq, and_true] at hu
    refine .bind (.within (consumeAll_fair hE _ _ conds hrc hwc fun hs => (hu hs).1) _) fun _ => ?_
    exact .bind (.within (inferBlocks_fair hE blocks ctx hrb hwb fun hs => (hu hs).2) _) fun _ =>
      .pure fun _ h => h
  | .forLoop _ _ _ body _ _, _, ctx, ⟨hrl, hrh, _, _, hrb⟩, ⟨hwl, hwh, hwb⟩, hu => by
    simp only [Stmt.clear, Stmt.forLoop.injEq, kept_true, true_and, and_true] at hu
    refine .bind (.within (Expr.consume_fair hE _ _ hrl hwl fun hs => (hu hs).1) _) fun _ => ?_
    refine .bind (.within (Expr.consume_fair hE _ _ hrh hwh fun hs => (hu hs).2.1) _) fun _ => ?_
    exact .bind (.within (body.infer_fair hE ctx hrb hwb fun hs => (hu hs).2.2) _) fun _ =>
      .pure fun _ h => h
  | .whileLoop _ body _, _, ctx, ⟨hrc, hrb⟩, ⟨hwc, hwb⟩, hu => by
    simp only [Stmt.clear, Stmt.whileLoop.injEq, and_true] at hu
    refine .bind (.within (Expr.consume_fair hE _ _ hrc hwc fun hs => (hu hs).1) _) fun _ => ?_
    exact .bind (.within (body.infer_fair hE ctx hrb hwb fun hs => (hu hs).2) _) fun _ =>
      .pure fun _ h => h
  | .call _, _, _, hr, hw, hu =>
    .bind (.within (Expr.consume_fair hE _ _ hr hw fun hs => Stmt.call.inj (hu hs)) _) fun _ =>
      .pure fun _ h => h
theorem Block.infer_fair (hE : Allowing allowed strict mode) : ∀ (block : Block) {env : Env}
    (ctx : RoutineContext), block.Resolved env → block.Within (vars > ·) →
    (strict → block.clear true = block) →
    Fair allowed vars sigs (block.infer mode 1 ctx : Pass ScopeTree Block (Block × RoutineContext))
  | ⟨stmts, none, _, _, _⟩, _, ctx, hr, hw, hu => by
    simp only [Block.clear, Block.mk.injEq, kept_true, and_true] at hu
    exact .bind (.within (inferStmts_fair hE stmts ctx hr.1 hw.1 fun hs => (hu hs).1) _) fun _ =>
      .pure fun _ h => h
  | ⟨stmts, some ⟨_, _⟩, _, _, _⟩, _, ctx, hr, hw, hu => by
    simp only [Block.clear, Block.mk.injEq, kept_true, Option.map_some, Option.some.injEq,
      Return.clear, Return.mk.injEq, and_true] at hu
    refine .bind (.within (inferStmts_fair hE stmts ctx hr.1 hw.1 fun hs => (hu hs).1) _) fun _ => ?_
    exact .bind (.within (Expr.consume_fair hE _ _ (hr.2 _ rfl) (hw.2 _ rfl) fun hs => (hu hs).2) _)
      fun _ => .pure fun _ h => h
theorem inferStmts_fair (hE : Allowing allowed strict mode) : ∀ (stmts : List Stmt) {env : Env}
    (ctx : RoutineContext), StmtsResolved env stmts → StmtsWithin (vars > ·) stmts →
    (strict → clearStmts true stmts = stmts) →
    Fair allowed vars sigs
      (inferStmts mode 1 stmts ctx : Pass ScopeTree _ (List Stmt × RoutineContext))
  | [], _, _, _, _, _ => .pure fun _ h => h
  | stmt :: stmts, _, ctx, hr, hw, hu => by
    simp only [clearStmts, List.cons.injEq] at hu
    refine .bind (.within (stmt.infer_fair hE ctx hr.1 hw.1 fun hs => (hu hs).1) _) fun r => ?_
    exact .bind (.within (inferStmts_fair hE stmts r.2 hr.2 hw.2 fun hs => (hu hs).2) _) fun _ =>
      .pure fun _ h => h
theorem inferBlocks_fair (hE : Allowing allowed strict mode) : ∀ (blocks : List Block) {env : Env}
    (ctx : RoutineContext), BlocksResolved env blocks → BlocksWithin (vars > ·) blocks →
    (strict → clearBlocks true blocks = blocks) →
    Fair allowed vars sigs
      (inferBlocks mode 1 blocks ctx : Pass ScopeTree _ (List Block × RoutineContext))
  | [], _, _, _, _, _ => .pure fun _ h => h
  | block :: blocks, _, ctx, hr, hw, hu => by
    simp only [clearBlocks, List.cons.injEq] at hu
    refine .bind (.within (block.infer_fair hE ctx hr.1 hw.1 fun hs => (hu hs).1) _) fun r => ?_
    exact .bind (.within (inferBlocks_fair hE blocks r.2 hr.2 hw.2 fun hs => (hu hs).2) _) fun _ =>
      .pure fun _ h => h
end

/-! ## Functions and units -/

variable {E : Halt → ScopeTree → Prop}

/-- A function as binding leaves it, with `vars` variables in all. -/
structure FnDef.Inside (vars : Nat) (fn : FnDef) : Prop where
  resolved : fn.Resolved
  within : fn.body.Within (vars > ·)

theorem FnDef.Inside.inferBody_fair (hE : Allowing allowed strict mode) (h : fn.Inside vars)
    (hu : strict → fn.body.clear true = fn.body) (hsig : sigs > sig) :
    Triple (Extent vars sigs) (fn.inferBody mode 1 sig : Pass ScopeTree FnDef (FnDef × Ty))
      (fun r tree => tree.Extent vars sigs ∧ r.1.retSlot = fn.retSlot)
      (fun halt tree => allowed halt ∧ tree.Extent vars sigs) := by
  refine .scopes fun tree ht => .ofExcept ?_ fun signature _ => ?_
  · intro halt he
    have hs := List.getElem?_eq_getElem (ht.sigs.symm ▸ hsig)
    rw [signature_eq_ok.mpr hs] at he
    cases he
  · refine .bind (.within (fn.body.infer_fair hE _ h.resolved h.within hu) _) fun _ => ?_
    exact .pure fun _ ht => ⟨ht, rfl⟩

theorem setReturn_fair {node : ν} (hsig : sigs > sig) {ret : Ty} {a : α} {Q : α → ScopeTree → Prop}
    (hQ : ∀ tree, tree.Extent vars sigs → Q a tree) :
    Triple (Extent vars sigs)
      (do
        let tree ← Pass.scopes
        let tree ← ofExcept node ((tree.setReturn sig ret).mapError .fault)
        Pass.setScopes tree
        return a : Pass ScopeTree ν α) Q E := by
  refine .scopes fun tree ht => .ofExcept ?_ fun tree' htree => .setScopes (.pure ?_)
  · intro halt he
    have hs := List.getElem?_eq_getElem (ht.sigs.symm ▸ hsig)
    rw [mapError_eq_ok.mpr (setReturn_eq_ok.mpr ⟨_, hs, rfl⟩)] at he
    cases he
  · rintro _ rfl
    obtain ⟨signature, _, rfl⟩ := setReturn_eq_ok.mp (mapError_eq_ok.mp htree)
    exact hQ _ ⟨ht.rooted, ht.vars, by simpa [settle] using ht.sigs⟩

theorem resetHere_fair :
    Triple (Extent vars sigs) (resetHere : Pass ScopeTree ν Unit)
      (fun _ => Extent vars sigs) E := by
  intro tree ht
  have hrun : (resetHere : Pass ScopeTree ν Unit) tree = .done () tree.resetInferred := rfl
  rw [hrun]
  exact ⟨ht.rooted, by simpa [resetInferred] using ht.vars, ht.sigs⟩

/-- Errors of the program, kept for later. -/
def Complaints (lasts : List LastError) : Prop :=
  ∀ e, some e ∈ lasts → e.isInternal = false

theorem FnDef.Inside.probe {node : ν} {fn : FnDef} {sig : SigId} {last : LastError}
    (h : fn.Inside vars) (hsig : sigs > sig) (hlast : Complaints [last]) :
    Triple (Extent vars sigs) (probe node 1 round fn sig last)
      (fun r tree => tree.Extent vars sigs ∧ Complaints [r.1]) E := by
  refine .scopes fun tree ht => .ofExcept ?_ fun signature _ => ?_
  · intro halt he
    have hs := List.getElem?_eq_getElem (ht.sigs.symm ▸ hsig)
    rw [signature_eq_ok.mpr hs] at he
    cases he
  split
  · exact .pure fun _ ht => ⟨ht, hlast⟩
  · have hE : Allowing (fun halt => halt.isComplaint = true) False .probe :=
      ⟨fun _ hc => hc, .inr (.inl rfl)⟩
    refine .bind resetHere_fair fun _ => ?_
    refine .bind (.attempt (h.inferBody_fair hE False.elim hsig) ?_) fun r => ?_
    · rintro _ _ ⟨⟨⟩, _⟩
    cases r with
    | error e =>
      refine .note (.pure ?_)
      intro tree hr
      obtain ⟨hcomplaint, ht⟩ := hr.2 e rfl
      refine ⟨ht, ?_⟩
      intro e' he'
      cases List.mem_singleton.mp he'
      simpa [Halt.isComplaint] using hcomplaint
    | ok r =>
      obtain ⟨fn', ret⟩ := r
      have hnone : Complaints [none] := by simp [Complaints]
      simp only
      split
      · refine .note ((setReturn_fair hsig fun _ ht => ⟨ht, hnone⟩).pre ?_)
        intro tree hr
        exact (hr.1 _ rfl).1
      · exact .note (.pure fun tree hr => ⟨(hr.1 _ rfl).1, hnone⟩)

theorem probeRound_complaints {node : ν} : ∀ {fns : List FnDef} {own : List SigId}
    {lasts : List LastError}, (∀ fn ∈ fns, fn.Inside vars) → (∀ sig ∈ own, sigs > sig) →
    Complaints lasts →
    Triple (Extent vars sigs) (probeRound node 1 round fns own lasts)
      (fun r tree => tree.Extent vars sigs ∧ Complaints r.1) E
  | _ :: _, _ :: _, last :: lasts, hf, hs, hl => by
    obtain ⟨hfn, hfns⟩ := List.forall_mem_cons.mp hf
    obtain ⟨hsig, hown⟩ := List.forall_mem_cons.mp hs
    have hlast : Complaints [last] := fun e he => hl e (by simp_all)
    have hlasts : Complaints lasts := fun e he => hl e (List.mem_cons_of_mem _ he)
    refine .bind (hfn.probe hsig hlast) fun r => .and fun hr => ?_
    refine .bind (probeRound_complaints hfns hown hlasts) fun rs => .and fun hrs => ?_
    refine .pure fun tree ht => ⟨ht, ?_⟩
    intro e he
    rcases List.mem_cons.mp he with he | he
    · exact hr e (by simp [he])
    · exact hrs e he
  | [], _, _, _, _, hl => .pure fun _ ht => ⟨ht, hl⟩
  | _ :: _, [], _, _, _, hl => .pure fun _ ht => ⟨ht, hl⟩
  | _ :: _, _ :: _, [], _, _, hl => .pure fun _ ht => ⟨ht, hl⟩

theorem probeRounds_complaints {node : ν} (hf : ∀ fn ∈ fns, fn.Inside vars)
    (hs : ∀ sig ∈ own, sigs > sig) {fuel : Nat} {lasts : List LastError} (hl : Complaints lasts) :
    Triple (Extent vars sigs) (probeRounds node 1 fns own fuel round lasts)
      (fun lasts tree => tree.Extent vars sigs ∧ Complaints lasts) E := by
  induction fuel generalizing round lasts with
  | zero => exact .pure fun _ ht => ⟨ht, hl⟩
  | succ fuel ih =>
    refine .bind (probeRound_complaints hf hs hl) fun r => .and fun hr => ?_
    obtain ⟨lasts', settled⟩ := r
    cases settled with
    | true => exact ih hr
    | false => exact .pure fun _ ht => ⟨ht, hr⟩

theorem discoverReturns_complaints {node : ν} (hf : ∀ fn ∈ fns, fn.Inside vars)
    (hs : ∀ sig ∈ own, sigs > sig) :
    Triple (Extent vars sigs) (discoverReturns node 1 fns own)
      (fun lasts tree => tree.Extent vars sigs ∧ Complaints lasts) E := by
  apply probeRounds_complaints hf hs
  simp [Complaints]

namespace CompileUnit.ResolvedIn

variable {res : Resolution}

theorem sitesWithin (h : unit.ResolvedIn res) :
    SitesWithin (unit.sites.length > ·) unit.sites := by
  intro site hm id hid
  have hlt := (h.numbered.sitesWithin site hm id hid).2
  rwa [Nat.zero_add] at hlt

theorem inside (h : unit.ResolvedIn res) (hm : fn ∈ unit.functions) :
    fn.Inside unit.sites.length := by
  refine ⟨h.functions fn hm, (h.functions fn hm).within ?_⟩
  intro site hs
  have hall := (sitesWithin_append.mp h.sitesWithin).1
  exact hall site (List.mem_flatMap.mpr ⟨fn, hm, hs⟩)

theorem extent (h : unit.ResolvedIn res) :
    res.scopes.Extent unit.sites.length res.scopes.sigs.length :=
  ⟨h.parents, h.length, rfl⟩

theorem signatures_inside (h : unit.ResolvedIn res) :
    ∀ sig ∈ res.signatures, res.scopes.sigs.length > sig := by
  obtain ⟨users, hsigs, hshow⟩ := h.sigs
  intro sig hm
  rw [h.signatures, List.mem_range'_1] at hm
  rw [hsigs, List.length_append, ← hshow.length_eq]
  exact hm.2

theorem discover_total (h : unit.ResolvedIn res) (node : ν) :
    ∃ lasts tree, discoverReturns node res.unitScope unit.functions res.signatures res.scopes =
      .done lasts tree := by
  have hdone : Triple _ (discoverReturns node 1 unit.functions res.signatures) _ fun _ _ => False :=
    discoverReturns_complaints (fun fn hm => h.inside hm) h.signatures_inside
  rw [h.unitScope]
  cases hd : discoverReturns node 1 unit.functions res.signatures res.scopes with
  | stopped part halt tree => exact (hdone.stopped h.extent hd).elim
  | done lasts tree => exact ⟨lasts, tree, rfl⟩

end CompileUnit.ResolvedIn

end

end ScriptLang
