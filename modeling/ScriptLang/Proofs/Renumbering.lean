import ScriptLang.Proofs.Overloads
import ScriptLang.Proofs.Parallel

/-!
# Trees that differ in numbering

Two bound trees of the same text differ in the handles of their declarations and in the marks of
their scopes. If the handles belong together one by one, and the two scope trees hold the same
functions in any order and the same types for variables that belong together, then inference does
the same on both.
-/

set_option linter.unusedSectionVars false

namespace ScriptLang

open Pass ScopeTree

variable {i j : DeclId} {span : Span} {expr other : Expr} {mode : Mode}

/-! ## Alike trees -/

section

variable (r : DeclId → DeclId → Prop)

mutual
/-- The same expression, with handles that belong together. -/
def Expr.Alike : Expr → Expr → Prop
  | .lit value span slot, other => other = .lit value span slot
  | .var name handle span slot, other =>
    ∃ handle', Option.Rel r handle handle' ∧ other = .var name handle' span slot
  | .call name args span slot, other =>
    ∃ args', AllAlike args args' ∧ other = .call name args' span slot
def AllAlike : List Expr → List Expr → Prop
  | [], others => others = []
  | expr :: exprs, others =>
    ∃ expr' exprs', expr.Alike expr' ∧ AllAlike exprs exprs' ∧ others = expr' :: exprs'
end

mutual
/-- The same statement, with handles that belong together. -/
def Stmt.Alike : Stmt → Stmt → Prop
  | .decl name ascription value span handle, other =>
    ∃ value' handle', value.Alike r value' ∧ Option.Rel r handle handle' ∧
      other = .decl name ascription value' span handle'
  | .assign target value span handle, other =>
    ∃ value' handle', value.Alike r value' ∧ Option.Rel r handle handle' ∧
      other = .assign target value' span handle'
  | .branch conds blocks span, other =>
    ∃ conds' blocks', AllAlike r conds conds' ∧ BlocksAlike blocks blocks' ∧
      other = .branch conds' blocks' span
  | .forLoop var lo hi body span handle, other =>
    ∃ lo' hi' body' handle', lo.Alike r lo' ∧ hi.Alike r hi' ∧ body.Alike body' ∧
      Option.Rel r handle handle' ∧ other = .forLoop var lo' hi' body' span handle'
  | .whileLoop cond body span, other =>
    ∃ cond' body', cond.Alike r cond' ∧ body.Alike body' ∧ other = .whileLoop cond' body' span
  | .call value, other => ∃ value', value.Alike r value' ∧ other = .call value'
termination_by structural stmt => stmt
/-- The same block, with handles that belong together, and any mark of its scope. -/
def Block.Alike : Block → Block → Prop
  | ⟨stmts, ret, brk, span, _⟩, other =>
    ∃ stmts' ret' own, StmtsAlike stmts stmts' ∧
      Option.Rel (fun a b : Return => a.value.Alike r b.value ∧ a.span = b.span) ret ret' ∧
      other = ⟨stmts', ret', brk, span, own⟩
termination_by structural block => block
def StmtsAlike : List Stmt → List Stmt → Prop
  | [], others => others = []
  | stmt :: stmts, others =>
    ∃ stmt' stmts', stmt.Alike stmt' ∧ StmtsAlike stmts stmts' ∧ others = stmt' :: stmts'
termination_by structural stmts => stmts
def BlocksAlike : List Block → List Block → Prop
  | [], others => others = []
  | block :: blocks, others =>
    ∃ block' blocks', block.Alike block' ∧ BlocksAlike blocks blocks' ∧ others = block' :: blocks'
termination_by structural blocks => blocks
end

/-- The same parameter, with handles that belong together. -/
def Param.Alike (param other : Param) : Prop :=
  Option.Rel r param.handle other.handle ∧ other = { param with handle := other.handle }

/-- The same function with the same return type, and with handles that belong together. -/
structure FnDef.Alike (fn other : FnDef) : Prop where
  params : List.Forall₂ (Param.Alike r) fn.params other.params
  body : fn.body.Alike r other.body
  same : other = { fn with params := other.params, body := other.body }

/-- The same script, with handles that belong together. -/
structure Script.Alike (script other : Script) : Prop where
  body : script.body.Alike r other.body
  same : other = { script with body := other.body }

end

section

variable {r r' : DeclId → DeclId → Prop}

theorem rel_flip_of {s : α → β → Prop} {t : β → α → Prop} (hf : ∀ a b, s a b → t b a)
    {a : Option α} {b : Option β} (h : Option.Rel s a b) : Option.Rel t b a := by
  cases h with
  | some h => exact .some (hf _ _ h)
  | none => exact .none

variable (hf : ∀ i j, r i j → r' j i)

include hf

mutual
theorem Expr.Alike.flip_of : ∀ (expr other : Expr), expr.Alike r other → other.Alike r' expr
  | .lit .., _, h => by
    obtain rfl := h
    rfl
  | .var _ handle _ _, _, h => by
    obtain ⟨handle', hh, rfl⟩ := h
    exact ⟨handle, rel_flip_of hf hh, rfl⟩
  | .call _ args _ _, _, h => by
    obtain ⟨args', ha, rfl⟩ := h
    exact ⟨args, AllAlike.flip_of args args' ha, rfl⟩
termination_by structural expr => expr
theorem AllAlike.flip_of : ∀ (exprs others : List Expr),
    AllAlike r exprs others → AllAlike r' others exprs
  | [], _, h => by
    obtain rfl := h
    rfl
  | expr :: exprs, _, h => by
    obtain ⟨expr', exprs', he, hes, rfl⟩ := h
    exact ⟨expr, exprs, Expr.Alike.flip_of expr expr' he, AllAlike.flip_of exprs exprs' hes,
      rfl⟩
termination_by structural exprs => exprs
end

mutual
theorem Stmt.Alike.flip_of : ∀ (stmt other : Stmt), stmt.Alike r other → other.Alike r' stmt
  | .decl _ _ value _ handle, _, h => by
    obtain ⟨value', handle', hv, hh, rfl⟩ := h
    exact ⟨value, handle, hv.flip_of hf, rel_flip_of hf hh, rfl⟩
  | .assign _ value _ handle, _, h => by
    obtain ⟨value', handle', hv, hh, rfl⟩ := h
    exact ⟨value, handle, hv.flip_of hf, rel_flip_of hf hh, rfl⟩
  | .branch conds blocks _, _, h => by
    obtain ⟨conds', blocks', hc, hb, rfl⟩ := h
    exact ⟨conds, blocks, hc.flip_of hf, BlocksAlike.flip_of blocks blocks' hb, rfl⟩
  | .forLoop _ lo hi body _ handle, _, h => by
    obtain ⟨lo', hi', body', handle', hl, hh, hb, hd, rfl⟩ := h
    exact ⟨lo, hi, body, handle, hl.flip_of hf, hh.flip_of hf, Block.Alike.flip_of body body' hb,
      rel_flip_of hf hd, rfl⟩
  | .whileLoop cond body _, _, h => by
    obtain ⟨cond', body', hc, hb, rfl⟩ := h
    exact ⟨cond, body, hc.flip_of hf, Block.Alike.flip_of body body' hb, rfl⟩
  | .call value, _, h => by
    obtain ⟨value', hv, rfl⟩ := h
    exact ⟨value, hv.flip_of hf, rfl⟩
termination_by structural stmt => stmt
theorem Block.Alike.flip_of : ∀ (block other : Block), block.Alike r other → other.Alike r' block
  | ⟨stmts, ret, _, _, own⟩, _, h => by
    obtain ⟨stmts', ret', own', hs, hr, rfl⟩ := h
    refine ⟨stmts, ret, own, StmtsAlike.flip_of stmts stmts' hs, ?_, rfl⟩
    exact rel_flip_of (fun a b hab => ⟨hab.1.flip_of hf, hab.2.symm⟩) hr
termination_by structural block => block
theorem StmtsAlike.flip_of : ∀ (stmts others : List Stmt),
    StmtsAlike r stmts others → StmtsAlike r' others stmts
  | [], _, h => by
    obtain rfl := h
    rfl
  | stmt :: stmts, _, h => by
    obtain ⟨stmt', stmts', hs, hss, rfl⟩ := h
    exact ⟨stmt, stmts, Stmt.Alike.flip_of stmt stmt' hs, StmtsAlike.flip_of stmts stmts' hss,
      rfl⟩
termination_by structural stmts => stmts
theorem BlocksAlike.flip_of : ∀ (blocks others : List Block),
    BlocksAlike r blocks others → BlocksAlike r' others blocks
  | [], _, h => by
    obtain rfl := h
    rfl
  | block :: blocks, _, h => by
    obtain ⟨block', blocks', hb, hbs, rfl⟩ := h
    exact ⟨block, blocks, Block.Alike.flip_of block block' hb,
      BlocksAlike.flip_of blocks blocks' hbs, rfl⟩
termination_by structural blocks => blocks
end

end

/-! ## The order of functions -/

theorem returnType_perm {sigs sigs' : List Signature} (hp : sigs.Perm sigs') :
    returnType sigs = returnType sigs' := by
  have hrets := hp.map Signature.ret
  have hany : (sigs.map Signature.ret).any Ty.isUnknown =
      (sigs'.map Signature.ret).any Ty.isUnknown := hrets.any_eq
  have hset : Ty.oneOf? (sigs.map Signature.ret) = Ty.oneOf? (sigs'.map Signature.ret) :=
    Ty.oneOf?_congr fun _ => hrets.mem_iff
  rw [returnType, returnType, hany, hset]

/-! ## Scope trees that mirror each other -/

/-- Two declarations that inference cannot tell apart. -/
structure VarDecl.Like (var var' : VarDecl) : Prop where
  declared : var.declared = var'.declared
  ty : var.ty = var'.ty
  kind : var.kind = var'.kind

/-- The same functions in some order, and like variables where they belong together. -/
structure ScopeTree.Mirror (r : DeclId → DeclId → Prop) (tree tree' : ScopeTree) : Prop where
  rooted : tree.Rooted
  rooted' : tree'.Rooted
  rets : ∀ sig ∈ tree.sigs, sig.ret.Flat
  sigs : tree.sigs.Perm tree'.sigs
  decls : ∀ i j, r i j → Option.Rel VarDecl.Like tree.decls[i]? tree'.decls[j]?
  unique : ∀ i j i' j', r i j → r i' j' → (i = i' ↔ j = j')

namespace ScopeTree.Mirror

variable {r : DeclId → DeclId → Prop} {tree tree' : ScopeTree}

theorem symm (h : tree.Mirror r tree') : tree'.Mirror (flip r) tree :=
  ⟨h.rooted', h.rooted, fun sig hs => h.rets sig (h.sigs.mem_iff.mpr hs), h.sigs.symm,
    fun i j hr => rel_flip_of (fun _ _ hl => ⟨hl.declared.symm, hl.ty.symm, hl.kind.symm⟩)
      (h.decls j i hr),
    fun i j i' j' hr hr' => (h.unique j i j' i' hr hr').symm⟩

theorem visible (h : tree.Mirror r tree') (name : String) :
    (tree.visible name).Perm (tree'.visible name) := by
  have hsame : ∀ scope, (tree.overloads scope name).Perm (tree'.overloads scope name) :=
    fun scope => h.sigs.filter _
  have hnil : tree.overloads 1 name = [] ↔ tree'.overloads 1 name = [] :=
    ⟨fun he => List.nil_perm.mp (he ▸ hsame 1), fun he => List.perm_nil.mp (he ▸ hsame 1)⟩
  unfold ScopeTree.visible
  by_cases he : tree.overloads 1 name = []
  · rw [if_pos he, if_pos (hnil.mp he)]
    exact hsame root
  · rw [if_neg he, if_neg fun he' => he (hnil.mpr he')]
    exact hsame 1

theorem reached (h : tree.Mirror r tree') (name : String) (args : List Ty) :
    (tree.reached name args).Perm (tree'.reached name args) :=
  (h.visible name).filter _

theorem retype (h : tree.Mirror r tree') (hr : r i j) {var var' : VarDecl}
    (hv : tree.decls[i]? = some var) (hv' : tree'.decls[j]? = some var') (hl : var.Like var')
    (ty : Ty) : (tree.retype i var ty).Mirror r (tree'.retype j var' ty) := by
  refine ⟨h.rooted, h.rooted', h.rets, h.sigs, ?_, h.unique⟩
  intro i' j' hr'
  have hlt := (List.getElem?_eq_some_iff.mp hv).1
  have hlt' := (List.getElem?_eq_some_iff.mp hv').1
  by_cases he : i = i'
  · have he' := (h.unique i j i' j' hr hr').mp he
    subst he he'
    simp only [ScopeTree.retype, List.getElem?_set_self hlt, List.getElem?_set_self hlt']
    exact .some ⟨hl.declared, rfl, hl.kind⟩
  · have he' : j ≠ j' := fun he' => he ((h.unique i j i' j' hr hr').mpr he')
    simp only [ScopeTree.retype, List.getElem?_set_ne he, List.getElem?_set_ne he']
    exact h.decls i' j' hr'

end ScopeTree.Mirror

/-! ## Expressions -/

theorem exists_of_rel_some {s : α → β → Prop} {a : α} {b : Option β}
    (h : Option.Rel s (some a) b) : ∃ b', b = some b' ∧ s a b' := by
  cases h with
  | some h => exact ⟨_, rfl, h⟩

/-- Overloads that a call cannot tell apart. -/
structure Interchangeable (sigs sigs' : List Signature) : Prop where
  perm : sigs.Perm sigs'
  returns : returnType sigs = returnType sigs'

section

variable {σ : Type} [Workspace σ]

/-- Calls from `scope` reach the same overloads on both sides, and variables that belong together
are alike and stay so when they are retyped. -/
structure Coupling.Attuned (C : Coupling σ) (scope : ScopeId) (r : DeclId → DeclId → Prop) :
    Prop where
  candidates : ∀ {tree tree' : ScopeTree}, C.trees tree tree' → ∀ (name : String) (args : List Ty),
    Results C.halts Interchangeable (tree.candidates scope name args)
      (tree'.candidates scope name args)
  declaration : ∀ {tree tree' : ScopeTree}, C.trees tree tree' → ∀ {i j : DeclId}, r i j →
    ∀ span : Span, Results C.halts VarDecl.Like (tree.declaration i span) (tree'.declaration j span)
  setVarType : ∀ {tree tree' : ScopeTree}, C.trees tree tree' → ∀ {i j : DeclId}, r i j →
    ∀ ty : Ty, Results C.halts C.trees ((tree.setVarType i ty).mapError .fault)
      ((tree'.setVarType j ty).mapError .fault)

variable {C : Coupling σ} {scope : ScopeId} {r : DeclId → DeclId → Prop} {tree tree' : ScopeTree}

mutual
theorem Expr.synth_alike (h : C.Attuned scope r) (ht : C.trees tree tree') :
    ∀ (expr other : Expr), expr.Alike r other →
    Results C.halts (· = ·) (expr.synth tree scope) (other.synth tree' scope)
  | .lit .., _, ha => by
    obtain rfl := ha
    exact .ok rfl
  | .var _ _ span _, _, ha => by
    obtain ⟨handle', hh, rfl⟩ := ha
    refine .bind (.demand hh (C.same _)) fun i j hr => ?_
    exact .bind (h.declaration ht hr span) fun _ _ hl => .ok hl.ty
  | .call name args _ _, _, ha => by
    obtain ⟨args', hargs, rfl⟩ := ha
    refine .bind (synthAll_alike h ht args args' hargs) ?_
    rintro found _ rfl
    refine .bind (h.candidates ht name found) fun sigs sigs' hs => ?_
    cases sigs with
    | nil =>
      obtain rfl := List.nil_perm.mp hs.perm
      exact .error (C.same _)
    | cons sig sigs =>
      cases sigs' with
      | nil => exact absurd hs.perm (List.not_perm_cons_nil)
      | cons sig' sigs' => exact .ok hs.returns
termination_by structural expr => expr
theorem synthAll_alike (h : C.Attuned scope r) (ht : C.trees tree tree') :
    ∀ (exprs others : List Expr), AllAlike r exprs others →
    Results C.halts (· = ·) (synthAll tree scope exprs) (synthAll tree' scope others)
  | [], _, ha => by
    obtain rfl := ha
    exact .ok rfl
  | expr :: exprs, _, ha => by
    obtain ⟨expr', exprs', he, hes, rfl⟩ := ha
    refine .bind (Expr.synth_alike h ht expr expr' he) ?_
    rintro ty _ rfl
    refine .bind (synthAll_alike h ht exprs exprs' hes) ?_
    rintro tys _ rfl
    exact .ok rfl
termination_by structural exprs => exprs
end

theorem Coupling.Attuned.overloadFor (h : C.Attuned scope r) (ht : C.trees tree tree')
    {name : String} {args : List Ty} {ty : Ty} :
    Results C.halts (· = ·) (tree.overloadFor scope name args ty span)
      (tree'.overloadFor scope name args ty span) := by
  refine .bind (h.candidates ht name args) fun sigs sigs' hs => ?_
  have hp := hs.perm.filter fun sig => (sig.ret.unify ty).isSome
  generalize sigs.filter _ = fit at hp ⊢
  generalize sigs'.filter _ = fit' at hp ⊢
  cases fit with
  | nil =>
    obtain rfl := List.nil_perm.mp hp
    exact .error (C.same _)
  | cons sig fit =>
    cases fit with
    | nil =>
      obtain rfl := List.singleton_perm.mp hp
      exact .ok rfl
    | cons next fit =>
      have hlength := hp.length_eq
      cases fit' with
      | nil => simp at hlength
      | cons sig' fit' =>
        cases fit' with
        | nil => simp at hlength
        | cons next' fit' => exact .error (C.same _)

theorem Expr.Alike.slot_span (ha : expr.Alike r other) :
    other.slot = expr.slot ∧ other.span = expr.span := by
  cases expr with
  | lit => obtain rfl := ha; exact ⟨rfl, rfl⟩
  | var => obtain ⟨_, _, rfl⟩ := ha; exact ⟨rfl, rfl⟩
  | call => obtain ⟨_, _, rfl⟩ := ha; exact ⟨rfl, rfl⟩

theorem Expr.Alike.withSlot (ha : expr.Alike r other) (slot : TypeSlot) :
    (expr.withSlot slot).Alike r (other.withSlot slot) := by
  cases expr with
  | lit => obtain rfl := ha; rfl
  | var => obtain ⟨handle', hh, rfl⟩ := ha; exact ⟨handle', hh, rfl⟩
  | call => obtain ⟨args', hargs, rfl⟩ := ha; exact ⟨args', hargs, rfl⟩

theorem Expr.Alike.writeSlot (ha : expr.Alike r other) (ty : Ty) :
    Parallel C (Expr.Alike r) (expr.writeSlot ty) (other.writeSlot ty) := by
  unfold Expr.writeSlot
  rw [ha.slot_span.1, ha.slot_span.2]
  exact .step (.share _) fun slot => .pure (ha.withSlot slot)

mutual
theorem Expr.commit_alike (h : C.Attuned scope r) : ∀ (expr other : Expr) (ty : Ty),
    expr.Alike r other → Parallel C (Expr.Alike r) (expr.commit scope ty) (other.commit scope ty)
  | .lit .., _, ty, ha => by
    have halike := ha
    obtain rfl := ha
    unfold Expr.commit
    split
    · exact halike.writeSlot ty
    · exact .stop
  | .var .., _, ty, ha => by
    have halike := ha
    obtain ⟨handle', hh, rfl⟩ := ha
    unfold Expr.commit
    split
    · exact halike.writeSlot ty
    · exact .stop
  | .call name args span slot, _, ty, ha => by
    obtain ⟨args', hargs, rfl⟩ := ha
    unfold Expr.commit
    split
    · refine .bind .scopes fun tree tree' ht => ?_
      refine .step (.ofExcept (synthAll_alike h ht args args' hargs)) fun found => ?_
      refine .step (.ofExcept (h.overloadFor ht)) fun sig => .step (.note _) fun _ => ?_
      refine .part (commitAll_alike h args args' sig.params found hargs) fun args₁ args₁' ha => ?_
      have halike : (Expr.call name args₁ span slot).Alike r (.call name args₁' span slot) :=
        ⟨args₁', ha, rfl⟩
      exact halike.writeSlot ty
    · exact .stop
termination_by structural expr => expr
theorem commitAll_alike (h : C.Attuned scope r) :
    ∀ (exprs others : List Expr) (params found : List Ty), AllAlike r exprs others →
    Parallel C (AllAlike r) (commitAll scope exprs params found) (commitAll scope others params found)
  | [], _, _, _, ha => by
    obtain rfl := ha
    unfold commitAll
    exact .pure rfl
  | _ :: _, _, [], _, ha => by
    have halike := ha
    obtain ⟨arg', args', _, _, rfl⟩ := ha
    exact .pure halike
  | _ :: _, _, _ :: _, [], ha => by
    have halike := ha
    obtain ⟨arg', args', _, _, rfl⟩ := ha
    exact .pure halike
  | arg :: args, _, _ :: params, _ :: found, ha => by
    obtain ⟨arg', args', harg, hargs, rfl⟩ := ha
    unfold commitAll
    split
    · exact .stop
    · refine .part (Expr.commit_alike h arg arg' _ harg) fun _ arg₁ harg₁ => ?_
      refine .part (commitAll_alike h args args' params found hargs) fun _ args₁ hargs₁ => ?_
      exact .pure ⟨arg₁, args₁, harg₁, hargs₁, rfl⟩
termination_by structural exprs => exprs
end

theorem Expr.consume_alike (h : C.Attuned scope r) {expected : Ty} {origin : Origin}
    (ha : expr.Alike r other) :
    Parallel C (Beside (Expr.Alike r)) (expr.consume mode scope expected origin)
      (other.consume mode scope expected origin) := by
  refine .bind .scopes fun tree tree' ht => ?_
  refine .step (.ofExcept (Expr.synth_alike h ht expr other ha)) fun found => ?_
  refine .step (.share _) fun ty => ?_
  rw [ha.slot_span.2]
  split
  · exact .stop
  · cases mode with
    | probe => exact .pure ⟨ha, rfl⟩
    | commit =>
      exact .bind (Expr.commit_alike h expr other ty ha) fun _ _ ha₁ => .pure ⟨ha₁, rfl⟩

theorem consumeAll_alike (h : C.Attuned scope r) {expected : Ty} {origin : Span → Origin} :
    ∀ {exprs others : List Expr}, AllAlike r exprs others →
    Parallel C (AllAlike r) (consumeAll mode scope expected origin exprs)
      (consumeAll mode scope expected origin others)
  | [], _, ha => by
    obtain rfl := ha
    exact .pure rfl
  | _ :: _, _, ha => by
    obtain ⟨expr', exprs', he, hes, rfl⟩ := ha
    unfold consumeAll
    rw [he.slot_span.2]
    refine .pair (Expr.consume_alike h he) fun _ expr₁ _ he₁ => ?_
    exact .part (consumeAll_alike h hes) fun _ exprs₁ hes₁ => .pure ⟨expr₁, exprs₁, he₁, hes₁, rfl⟩

/-! ## Statements -/

theorem setTypeHere_alike (h : C.Attuned scope r) {ν μ : Type} {node : ν} {other : μ} (hr : r i j)
    (ty : Ty) : Parallel C (· = ·) (setTypeHere node i ty : Pass σ ν Unit)
      (setTypeHere other j ty : Pass σ μ Unit) :=
  .bind .scopes fun _ _ ht => .bind (.ofExcept (h.setVarType ht hr ty)) fun _ _ ht => .setScopes ht

theorem boundVariable_alike (h : C.Attuned scope r) (ht : C.trees tree tree')
    {handle handle' : Option DeclId} (hh : Option.Rel r handle handle') {what : String} :
    Results C.halts (fun x y => r x.1 y.1 ∧ x.2.Like y.2) (boundVariable tree handle what span)
      (boundVariable tree' handle' what span) :=
  .bind (.demand hh (C.same _)) fun _ _ hr =>
    .bind (h.declaration ht hr span) fun _ _ hl => .ok ⟨hr, hl⟩

theorem assignedVariable_alike (h : C.Attuned scope r) (ht : C.trees tree tree')
    {handle handle' : Option DeclId} (hh : Option.Rel r handle handle') {target : String} :
    Results C.halts (fun x y => r x.1 y.1 ∧ x.2.Like y.2)
      (assignedVariable tree handle target span) (assignedVariable tree' handle' target span) := by
  refine .bind (boundVariable_alike h ht hh) ?_
  rintro ⟨i, var⟩ ⟨j, var'⟩ ⟨hr, hl⟩
  have hassign : var.assignable = var'.assignable := by
    unfold VarDecl.assignable
    rw [hl.kind]
  dsimp only
  rw [hassign]
  split
  · exact .ok ⟨hr, hl⟩
  · exact .error (C.same _)

section

variable (h : C.Attuned scope r)

include h

mutual
theorem Stmt.infer_alike : ∀ (stmt other : Stmt) (ctx : RoutineContext), stmt.Alike r other →
    Parallel C (Beside (Stmt.Alike r)) (stmt.infer mode scope ctx) (other.infer mode scope ctx)
  | .decl .., _, _, ha => by
    obtain ⟨value', handle', hv, hh, rfl⟩ := ha
    unfold Stmt.infer
    rw [hv.slot_span.2]
    refine .bind .scopes fun tree tree' ht => ?_
    refine .bind (.ofExcept (boundVariable_alike h ht hh)) ?_
    rintro ⟨i, var⟩ ⟨j, var'⟩ ⟨hr, hl : var.Like var'⟩
    dsimp only
    rw [hl.declared]
    refine .pair (Expr.consume_alike h hv) fun value₁ value₁' ty hv₁ => ?_
    dsimp only
    rw [hv₁.slot_span.2]
    refine .step (.share _) fun _ => .step (.note _) fun _ => ?_
    refine .step (setTypeHere_alike h hr ty) fun _ => .pure ⟨?_, rfl⟩
    exact ⟨value₁', handle', hv₁, hh, rfl⟩
  | .assign .., _, _, ha => by
    obtain ⟨value', handle', hv, hh, rfl⟩ := ha
    unfold Stmt.infer
    refine .bind .scopes fun tree tree' ht => ?_
    refine .bind (.ofExcept (assignedVariable_alike h ht hh)) ?_
    rintro ⟨i, var⟩ ⟨j, var'⟩ ⟨hr, hl : var.Like var'⟩
    dsimp only
    rw [hl.ty]
    refine .pair (Expr.consume_alike h hv) fun value₁ value₁' ty hv₁ => ?_
    dsimp only
    rw [hv₁.slot_span.2]
    refine .step (.share _) fun _ => ?_
    refine .step (setTypeHere_alike h hr ty) fun _ => .pure ⟨?_, rfl⟩
    exact ⟨value₁', handle', hv₁, hh, rfl⟩
  | .branch _ blocks _, _, ctx, ha => by
    obtain ⟨conds', blocks', hcs, hbs, rfl⟩ := ha
    unfold Stmt.infer
    refine .part (consumeAll_alike h hcs) fun _ conds₁ hcs₁ => ?_
    refine .pair (inferBlocks_alike blocks blocks' ctx hbs) fun _ blocks₁ _ hbs₁ => ?_
    exact .pure ⟨⟨conds₁, blocks₁, hcs₁, hbs₁, rfl⟩, rfl⟩
  | .forLoop _ _ _ body _ _, _, ctx, ha => by
    obtain ⟨lo', hi', body', handle', hl, hh, hb, hd, rfl⟩ := ha
    unfold Stmt.infer
    rw [hl.slot_span.2, hh.slot_span.2]
    refine .pair (Expr.consume_alike h hl) fun _ lo₁ _ hl₁ => ?_
    refine .pair (Expr.consume_alike h hh) fun _ hi₁ _ hh₁ => ?_
    refine .pair (Block.infer_alike body body' ctx hb) fun _ body₁ _ hb₁ => ?_
    exact .pure ⟨⟨lo₁, hi₁, body₁, handle', hl₁, hh₁, hb₁, hd, rfl⟩, rfl⟩
  | .whileLoop _ body _, _, ctx, ha => by
    obtain ⟨cond', body', hc, hb, rfl⟩ := ha
    unfold Stmt.infer
    rw [hc.slot_span.2]
    refine .pair (Expr.consume_alike h hc) fun _ cond₁ _ hc₁ => ?_
    refine .pair (Block.infer_alike body body' ctx hb) fun _ body₁ _ hb₁ => ?_
    exact .pure ⟨⟨cond₁, body₁, hc₁, hb₁, rfl⟩, rfl⟩
  | .call _, _, _, ha => by
    obtain ⟨value', hv, rfl⟩ := ha
    exact .pair (Expr.consume_alike h hv) fun _ value₁ _ hv₁ => .pure ⟨⟨value₁, hv₁, rfl⟩, rfl⟩
termination_by structural stmt => stmt
theorem Block.infer_alike : ∀ (block other : Block) (ctx : RoutineContext), block.Alike r other →
    Parallel C (Beside (Block.Alike r)) (block.infer mode scope ctx) (other.infer mode scope ctx)
  | ⟨stmts, _, _, _, _⟩, _, ctx, ha => by
    obtain ⟨stmts', ret', own', hs, hr, rfl⟩ := ha
    unfold Block.infer
    refine .pair (inferStmts_alike stmts stmts' ctx hs) fun _ stmts₁ ctx₁ hs₁ => ?_
    cases hr with
    | none => exact .pure ⟨⟨stmts₁, none, own', hs₁, .none, rfl⟩, rfl⟩
    | @some a b hab =>
      obtain ⟨value, retSpan⟩ := a
      obtain ⟨value', retSpan'⟩ := b
      obtain ⟨hv, rfl : retSpan = retSpan'⟩ := hab
      refine .pair (Expr.consume_alike h hv) fun _ value₁ _ hv₁ => .pure ⟨?_, rfl⟩
      exact ⟨stmts₁, some ⟨value₁, retSpan⟩, own', hs₁, .some ⟨hv₁, rfl⟩, rfl⟩
termination_by structural block => block
theorem inferStmts_alike :
    ∀ (stmts others : List Stmt) (ctx : RoutineContext), StmtsAlike r stmts others →
    Parallel C (Beside (StmtsAlike r)) (inferStmts mode scope stmts ctx)
      (inferStmts mode scope others ctx)
  | [], _, _, ha => by
    obtain rfl := ha
    exact .pure ⟨rfl, rfl⟩
  | stmt :: stmts, _, ctx, ha => by
    obtain ⟨stmt', stmts', hs, hss, rfl⟩ := ha
    refine .pair (Stmt.infer_alike stmt stmt' ctx hs) fun _ stmt₁ ctx₁ hs₁ => ?_
    refine .pair (inferStmts_alike stmts stmts' ctx₁ hss) fun _ stmts₁ _ hss₁ => ?_
    exact .pure ⟨⟨stmt₁, stmts₁, hs₁, hss₁, rfl⟩, rfl⟩
termination_by structural stmts => stmts
theorem inferBlocks_alike :
    ∀ (blocks others : List Block) (ctx : RoutineContext), BlocksAlike r blocks others →
    Parallel C (Beside (BlocksAlike r)) (inferBlocks mode scope blocks ctx)
      (inferBlocks mode scope others ctx)
  | [], _, _, ha => by
    obtain rfl := ha
    exact .pure ⟨rfl, rfl⟩
  | block :: blocks, _, ctx, ha => by
    obtain ⟨block', blocks', hb, hbs, rfl⟩ := ha
    refine .pair (Block.infer_alike block block' ctx hb) fun _ block₁ ctx₁ hb₁ => ?_
    refine .pair (inferBlocks_alike blocks blocks' ctx₁ hbs) fun _ blocks₁ _ hbs₁ => ?_
    exact .pure ⟨⟨block₁, blocks₁, hb₁, hbs₁, rfl⟩, rfl⟩
termination_by structural blocks => blocks
end

end

end

/-! ## Mirrored trees -/

theorem ScopeTree.setVarType_like {Q : Halt → Halt → Prop} {T : ScopeTree → ScopeTree → Prop}
    {tree tree' : ScopeTree} {ty : Ty} (h : Option.Rel VarDecl.Like tree.decls[i]? tree'.decls[j]?)
    (hQ : Q (.fault (.noDeclaration i)) (.fault (.noDeclaration j)))
    (hT : ∀ var var', tree.decls[i]? = some var → tree'.decls[j]? = some var' → var.Like var' →
      T (tree.retype i var ty) (tree'.retype j var' ty)) :
    Results Q T ((tree.setVarType i ty).mapError .fault)
      ((tree'.setVarType j ty).mapError .fault) := by
  unfold setVarType ScopeTree.var var?
  cases hv : tree.decls[i]? with
  | none =>
    cases hv' : tree'.decls[j]? with
    | none => exact .error hQ
    | some var' =>
      rw [hv, hv'] at h
      cases h
  | some var =>
    rw [hv] at h
    obtain ⟨var', hv', hl⟩ := exists_of_rel_some h
    rw [hv']
    exact .ok (hT var var' hv hv' hl)

namespace ScopeTree.Mirror

variable {r : DeclId → DeclId → Prop} {tree tree' tree₁ : ScopeTree}

/-- On trees that mirror each other a run goes through if the other does. -/
@[reducible] def coupling (r : DeclId → DeclId → Prop) : Coupling ScopeTree :=
  .ofTrees (Mirror r) (fun _ _ => True) fun _ => trivial

theorem attuned : (coupling r).Attuned 1 r where
  candidates h name args := by
    rw [h.rooted.candidates, h.rooted'.candidates]
    exact .ok ⟨h.reached name args, returnType_perm (h.reached name args)⟩
  declaration h _ _ hr _ := .demand (h.decls _ _ hr) trivial
  setVarType h _ _ hr ty := setVarType_like (h.decls _ _ hr) trivial fun _ _ hv hv' hl =>
    h.retype hr hv hv' hl ty

theorem infer {block other block₁ : Block} {ctx ctx' : RoutineContext} (h : tree.Mirror r tree')
    (ha : block.Alike r other) (hi : block.infer mode 1 ctx tree = .done (block₁, ctx') tree₁) :
    ∃ other₁ tree₁', other.infer mode 1 ctx tree' = .done (other₁, ctx') tree₁' ∧
      block₁.Alike r other₁ ∧ tree₁.Mirror r tree₁' := by
  obtain ⟨⟨other₁, _⟩, tree₁', hi', ⟨halike, rfl⟩, h₁⟩ :=
    (Block.infer_alike attuned block other ctx ha).done h hi
  exact ⟨other₁, tree₁', hi', halike, h₁⟩

end ScopeTree.Mirror

end ScriptLang
