import ScriptLang.Check.Unit
import ScriptLang.Proofs.InferenceSteps

/-!
# Typing rules

What it means that a tree is well typed in a scope tree, said without inference: every slot holds
one of the four basic types, variables have the type of their declaration, and a call has the return
type of the one overload that takes arguments of just these types.

A committing run over a tree whose signatures are all known leaves a well-typed tree.
-/

namespace ScriptLang

open Pass ScopeTree

variable {tree : ScopeTree} {scope : ScopeId} {expr : Expr} {ty : Ty} {on : DeclId → Prop}
  {var : VarDecl}

/-! ## The rules -/

mutual
/-- The expression has a basic type, and it and all its parts are annotated with what they have. -/
def Expr.HasType (tree : ScopeTree) (scope : ScopeId) : Expr → Ty → Prop
  | .lit value _ slot, ty => slot = some ty ∧ ty = value.ty
  | .var name handle _ slot, ty => slot = some ty ∧ ty.Prim ∧
    ∃ id var, handle = some id ∧ tree.decls[id]? = some var ∧ var.name = name ∧ var.ty = ty
  | .call name args _ slot, ty => slot = some ty ∧ ty.Prim ∧
    ∃ tys found sig, HaveTypes tree scope args tys ∧ tree.NearestOverloads name scope found ∧
      found.filter (fun sig => sig.params = tys) = [sig] ∧ sig.ret = ty
def HaveTypes (tree : ScopeTree) (scope : ScopeId) : List Expr → List Ty → Prop
  | [], tys => tys = []
  | expr :: exprs, tys => ∃ ty rest, expr.HasType tree scope ty ∧
    HaveTypes tree scope exprs rest ∧ tys = ty :: rest
end

mutual
/-- The statement is well typed in a routine whose `return`s have type `ret`. -/
def Stmt.WellTyped (tree : ScopeTree) (scope : ScopeId) (ret : Ty) : Stmt → Prop
  | .decl name ascription value _ handle =>
    ∃ id var, handle = some id ∧ tree.decls[id]? = some var ∧ var.name = name ∧
      var.kind = .localVar ∧ value.HasType tree scope var.ty ∧ var.ty ≠ .void ∧
      ∀ annotation, ascription = some annotation → annotation.resolve = .ok var.ty
  | .assign target value _ handle =>
    ∃ id var, handle = some id ∧ tree.decls[id]? = some var ∧ var.name = target ∧
      var.kind = .localVar ∧ value.HasType tree scope var.ty ∧ var.ty ≠ .void
  | .branch conds blocks _ =>
    (∀ cond ∈ conds, cond.HasType tree scope .bool) ∧ BlocksWellTyped tree scope ret blocks
  | .forLoop name lo hi body _ handle =>
    (∃ id var, handle = some id ∧ tree.decls[id]? = some var ∧ var.name = name ∧
      var.kind = .loopVar ∧ var.ty = .int) ∧
      lo.HasType tree scope .int ∧ hi.HasType tree scope .int ∧ body.WellTyped tree scope ret
  | .whileLoop cond body _ => cond.HasType tree scope .bool ∧ body.WellTyped tree scope ret
  | .call value => ∃ ty, value.HasType tree scope ty
def Block.WellTyped (tree : ScopeTree) (scope : ScopeId) (ret : Ty) : Block → Prop
  | ⟨stmts, result, _, _, _⟩ =>
    StmtsWellTyped tree scope ret stmts ∧
      ∀ r, result = some r → r.value.HasType tree scope ret
def StmtsWellTyped (tree : ScopeTree) (scope : ScopeId) (ret : Ty) : List Stmt → Prop
  | [] => True
  | stmt :: stmts => stmt.WellTyped tree scope ret ∧ StmtsWellTyped tree scope ret stmts
def BlocksWellTyped (tree : ScopeTree) (scope : ScopeId) (ret : Ty) : List Block → Prop
  | [] => True
  | block :: blocks => block.WellTyped tree scope ret ∧ BlocksWellTyped tree scope ret blocks
end

/-- The parameter is declared with the type that it is annotated with. -/
def Param.WellTyped (tree : ScopeTree) (param : Param) (ty : Ty) : Prop :=
  param.ty.resolve = .ok ty ∧ ∃ id var, param.handle = some id ∧ tree.decls[id]? = some var ∧
    var.name = param.name ∧ var.kind = .param ∧ var.ty = ty

/-- The function does what its signature says. -/
structure FnDef.WellTyped (tree : ScopeTree) (scope : ScopeId) (fn : FnDef) (sig : Signature) :
    Prop where
  name : sig.name = fn.name
  params : List.Forall₂ (Param.WellTyped tree) fn.params sig.params
  known : sig.ret.Prim
  retSlot : fn.retSlot = some sig.ret
  ascribed : ∀ annotation, fn.ret = some annotation → annotation.resolve = .ok sig.ret
  returns : sig.ret ≠ .void → fn.body.containsReturn = true
  body : fn.body.WellTyped tree scope sig.ret

/-- Every function does what its signature says, and the script returns integers. -/
structure CompileUnit.WellTyped (unit : CompileUnit) (res : Resolution) : Prop where
  functions : List.Forall₂ (fun fn id => ∃ sig, res.scopes.sigs[id]? = some sig ∧
    fn.WellTyped res.scopes res.unitScope sig) unit.functions res.signatures
  script : unit.script.body.WellTyped res.scopes res.unitScope .int

theorem Expr.HasType.slot (h : expr.HasType tree scope ty) : expr.slot = some ty := by
  cases expr <;> exact h.1

theorem Expr.HasType.prim (h : expr.HasType tree scope ty) : ty.Prim := by
  cases expr with
  | lit value span slot => exact h.2 ▸ value.prim_ty
  | var name handle span slot => exact h.2.1
  | call name args span slot => exact h.2.1

/-! ## Committed expressions -/

theorem ScopeTree.Agree.nearestOverloads {tree' : ScopeTree} (h : tree.Agree on tree')
    {name : String} {found : List Signature} (hf : tree.NearestOverloads name scope found) :
    tree'.NearestOverloads name scope found := by
  have ho : ∀ scope, tree.overloads scope name = tree'.overloads scope name := by
    intro scope
    simp only [overloads, h.sigs]
  induction hf with
  | @here scope hne =>
    rw [ho scope] at hne ⊢
    exact .here hne
  | above hn hp _ ih => exact .above (ho _ ▸ hn) (h.parents ▸ hp) ih

theorem ScopeTree.overloadFor_mem {name : String} {args : List Ty} {span : Span} {sig : Signature}
    (h : tree.overloadFor scope name args ty span = .ok sig) :
    ∃ sigs, tree.candidates scope name args = .ok sigs ∧ sig ∈ sigs := by
  simp only [overloadFor, bind_eq_ok] at h
  obtain ⟨sigs, hc, h⟩ := h
  refine ⟨sigs, hc, ?_⟩
  split at h
  · rename_i sig' hs
    cases pure_eq_ok.mp h
    have hm : sig ∈ sigs.filter fun sig => (sig.ret.unify ty).isSome := by simp [hs]
    exact (List.mem_filter.mp hm).1
  · cases h
  · cases h

section

variable {on : DeclId → Prop} {tree other : ScopeTree} {scope : ScopeId} {env : Env}

mutual
/-- An expression that is committed to the type it was found to have is well typed, also in a tree
that knows more about other variables. -/
theorem Expr.commit_typed (h : tree.Settled) (he : tree.EnvTyped env) (hw : env.Within on)
    (ha : tree.Agree on other) : ∀ (expr expr' : Expr) {ty : Ty}, expr.Resolved env →
    expr.synth tree scope = .ok ty → expr.commit scope ty tree = .done expr' tree →
    expr'.HasType other scope ty
  | .lit .., _, _, hr, hs, hc => by
    have hp := (Expr.synth_prim h he _ hr hs).1
    unfold Expr.commit at hc
    rw [if_pos hp.isFullyKnown] at hc
    obtain ⟨_, rfl, _⟩ := Expr.writeSlot_eq_done.mp hc
    simp only [Expr.synth, Except.ok.injEq] at hs
    exact ⟨rfl, hs.symm⟩
  | .var .., _, _, hr, hs, hc => by
    have hp := (Expr.synth_prim h he _ hr hs).1
    unfold Expr.commit at hc
    rw [if_pos hp.isFullyKnown] at hc
    obtain ⟨_, rfl, _⟩ := Expr.writeSlot_eq_done.mp hc
    obtain ⟨id, var, hh, hv, rfl⟩ := Expr.synth_var hs
    obtain ⟨id', hh', hl⟩ := hr
    obtain rfl : id = id' := by simpa [hh] using hh'
    have hm := Env.mem_of_lookup hl
    obtain ⟨var', hv', hn, _⟩ := he _ hm
    rw [hv] at hv'
    cases hv'
    exact ⟨rfl, hp, id, var, hh, (ha.types id (hw _ hm)) ▸ hv, hn, rfl⟩
  | .call _ args _ _, _, _, hr, hs, hc => by
    have hp := (Expr.synth_prim h he _ hr hs).1
    obtain ⟨found, sig, args', hf, ho, hargs, rfl⟩ := Expr.commit_call hc
    obtain ⟨found', sigs, hf', hcand, hne, rfl⟩ := Expr.synth_call hs
    rw [hf] at hf'
    cases hf'
    obtain ⟨_, hcand', hm⟩ := overloadFor_mem ho
    rw [hcand] at hcand'
    cases hcand'
    obtain ⟨set, sig', hset, hfilter, rfl⟩ := h.candidates (synthAll_prim h he args hr hf) hcand hne
    obtain rfl := List.mem_singleton.mp hm
    have hparams : sig.params = found := by
      have hm : sig ∈ set.filter fun sig => sig.params = found := by simp [hfilter]
      simpa using (List.mem_filter.mp hm).2
    rw [hparams] at hargs
    have hret := h.rets sig (mem_sigs_of_candidates hcand List.mem_cons_self)
    refine ⟨rfl, hp, found, set, sig, commitAll_typed h he hw ha args args' hr hf hargs,
      ha.nearestOverloads hset, hfilter, (returnType_singleton hret).symm⟩
termination_by structural expr => expr
theorem commitAll_typed (h : tree.Settled) (he : tree.EnvTyped env) (hw : env.Within on)
    (ha : tree.Agree on other) : ∀ (exprs exprs' : List Expr) {tys : List Ty},
    AllResolved env exprs → synthAll tree scope exprs = .ok tys →
    commitAll scope exprs tys tys tree = .done exprs' tree → HaveTypes other scope exprs' tys
  | [], _, _, _, hs, hc => by
    simp only [synthAll, Except.ok.injEq] at hs
    unfold commitAll at hc
    obtain ⟨rfl, _⟩ := pure_eq_done.mp hc
    exact hs.symm
  | expr :: exprs, _, _, hr, hs, hc => by
    obtain ⟨ty, rest, ht, hts, rfl⟩ := synthAll_cons hs
    obtain ⟨expr', rest', ty', tree₁, rfl, hu, hce, hcs⟩ := commitAll_cons hc
    have hp := (Expr.synth_prim h he expr hr.1 ht).1
    obtain rfl := hp.unify_eq_some hu
    obtain ⟨htree, _⟩ := Expr.commit_spec _ _ hce
    rw [htree] at hce hcs
    exact ⟨ty', rest, Expr.commit_typed h he hw ha expr expr' hr.1 ht hce,
      commitAll_typed h he hw ha exprs rest' hr.2 hts hcs, rfl⟩
termination_by structural exprs => exprs
end

theorem Expr.Consumed.typed {expr' : Expr} {expected : Ty} (h : tree.Settled)
    (he : tree.EnvTyped env) (hw : env.Within on) (ha : tree.Agree on other)
    (hr : expr.Resolved env) (hx : expected.Flat)
    (hc : expr.Consumed .commit scope tree expected expr' ty) :
    expr'.HasType other scope ty ∧ (expected.Prim → ty = expected) := by
  obtain ⟨found, hs, hu, _, hc⟩ := hc
  have hp := (Expr.synth_prim h he expr hr hs).1
  have hty : ty = found ∧ (expected.Prim → ty = expected) := by
    rcases hx with rfl | hx
    · rw [Ty.unify_unknown_left, Option.some.injEq] at hu
      exact ⟨hu.symm, fun hn => by cases hn.isUnknown⟩
    · rw [hx.unify_prim hp] at hu
      split at hu
      · rename_i heq
        cases hu
        exact ⟨heq, fun _ => rfl⟩
      · cases hu
  obtain ⟨rfl, hfix⟩ := hty
  exact ⟨Expr.commit_typed h he hw ha expr expr' hr hs hc, hfix⟩

theorem consumed_typed {expected : Ty} (h : tree.Settled) (he : tree.EnvTyped env)
    (hw : env.Within on) (ha : tree.Agree on other) (hx : expected.Prim) :
    ∀ {exprs exprs' : List Expr}, AllResolved env exprs → List.Forall₂
      (fun expr expr' => ∃ ty, expr.Consumed .commit scope tree expected expr' ty) exprs exprs' →
    ∀ expr' ∈ exprs', expr'.HasType other scope expected
  | [], _, _, .nil => by simp
  | _ :: _, _, hr, .cons ⟨_, hc⟩ hcs => by
    obtain ⟨ht, hfix⟩ := hc.typed h he hw ha hr.1 hx.flat
    intro expr' hm
    rcases List.mem_cons.mp hm with rfl | hm
    · exact hfix hx ▸ ht
    · exact consumed_typed h he hw ha hx hr.2 hcs expr' hm

end

/-! ## Committed statements -/

/-- The variables with numbers from `lo` on and below `hi`. -/
def between (lo hi : Nat) (id : DeclId) : Prop :=
  lo ≤ id ∧ id < hi

/-- Everything in sight is known: the signatures, and the variables, which have numbers from `lo` on
and below `hi`. -/
structure Known (lo hi : Nat) (tree : ScopeTree) (env : Env) : Prop where
  settled : tree.Settled
  plain : tree.Plain
  typed : tree.EnvTyped env
  inside : env.Within (between lo hi)
  le : lo ≤ hi

/-- What a committing run leaves that declares the next `len` variables: no other variable is
retyped, and the tree is well typed whatever becomes of variables further on. -/
structure TypedRun (lo n len : Nat) (tree tree' : ScopeTree) (env' : Env)
    (typed : ScopeTree → Prop) : Prop where
  known : Known lo (n + len) tree' env'
  frame : tree.Agree (fun id => ¬ between n (n + len) id) tree'
  typed : ∀ other, tree'.Agree (between lo (n + len)) other → typed other

theorem ScopeTree.Settled.of_agree {tree' : ScopeTree} (h : tree.Settled)
    (ha : tree.Agree on tree') :
    tree'.Settled := by
  refine ⟨ha.sigs ▸ h.params, ha.sigs ▸ h.rets, ?_⟩
  have hu := h.unambiguous
  unfold ScopeTree.Unambiguous at hu ⊢
  rwa [← ha.sigs]

section

variable {lo n len : Nat} {tree tree' other : ScopeTree} {env : Env}

theorem ScopeTree.EnvTyped.of_agree (h : tree.EnvTyped env) (hw : env.Within on)
    (ha : tree.Agree on tree') : tree'.EnvTyped env := by
  intro entry hm
  obtain ⟨var, hv, hn, hp⟩ := h entry hm
  exact ⟨var, (ha.types entry.2 (hw entry hm)) ▸ hv, hn, hp⟩

theorem Env.Within.mono {on' : DeclId → Prop} (h : env.Within on) (hon : ∀ id, on id → on' id) :
    env.Within on' :=
  fun entry hm => hon _ (h entry hm)

theorem between_of_le {lo hi hi' : Nat} (h : hi ≤ hi') {id : DeclId} (hid : between lo hi id) :
    between lo hi' id :=
  ⟨hid.1, Nat.lt_of_lt_of_le hid.2 h⟩

theorem not_between_of_lt {lo n hi : Nat} {id : DeclId} (hid : between lo n id) :
    ¬ between n hi id :=
  fun h => Nat.not_le_of_lt hid.2 h.1

theorem Known.extend (h : Known lo n tree env) (hp : tree'.Plain)
    (hf : tree.Agree (fun id => ¬ between n (n + len) id) tree') :
    Known lo (n + len) tree' env where
  settled := h.settled.of_agree hf
  plain := hp
  typed := h.typed.of_agree h.inside (hf.mono fun _ => not_between_of_lt)
  inside := h.inside.mono fun _ => between_of_le (Nat.le_add_right n len)
  le := Nat.le_trans h.le (Nat.le_add_right n len)

theorem agree_before (hf : tree.Agree (fun id => ¬ between n (n + len) id) tree')
    (ha : tree'.Agree (between lo (n + len)) other) : tree.Agree (between lo n) other :=
  (hf.mono fun _ => not_between_of_lt).trans
    (ha.mono fun _ => between_of_le (Nat.le_add_right n len))

theorem Known.nil (hs : tree.Settled) (hp : tree.Plain) (n : Nat) : Known n n tree [] :=
  ⟨hs, hp, by simp [EnvTyped], by simp [Env.Within], Nat.le_refl n⟩

theorem Known.bind (h : Known lo n tree env) {name : String} (hv : tree.decls[n]? = some var)
    (hn : var.name = name) (hp : var.ty.Prim) : Known lo (n + 1) tree ((name, n) :: env) := by
  refine ⟨h.settled, h.plain, ?_, ?_, Nat.le_succ_of_le h.le⟩
  · intro entry hm
    rcases List.mem_cons.mp hm with rfl | hm
    · exact ⟨var, hv, hn, hp⟩
    · exact h.typed entry hm
  · intro entry hm
    rcases List.mem_cons.mp hm with rfl | hm
    · exact ⟨h.le, Nat.lt_succ_self n⟩
    · exact between_of_le (Nat.le_succ n) (h.inside entry hm)

theorem TypedRun.refl {typed : ScopeTree → Prop} (h : Known lo n tree env)
    (ht : ∀ other, tree.Agree (between lo n) other → typed other) :
    TypedRun lo n 0 tree tree env typed :=
  ⟨h, .refl _ _, ht⟩

theorem TypedRun.trans {tree'' : ScopeTree} {len' : Nat} {env' env'' : Env}
    {typed typed' : ScopeTree → Prop} (h : TypedRun lo n len tree tree' env' typed)
    (k : TypedRun lo (n + len) len' tree' tree'' env'' typed') :
    TypedRun lo n (len + len') tree tree'' env'' fun other => typed other ∧ typed' other := by
  have hf := h.frame
  have hk := k.frame
  have htyped := k.typed
  have hknown := k.known
  rw [Nat.add_assoc] at hk htyped hknown
  refine ⟨hknown, ?_, ?_⟩
  · refine (hf.mono ?_).trans (hk.mono ?_)
    · exact fun id hid hb => hid (between_of_le (by omega) hb)
    · exact fun id hid hb => hid ⟨Nat.le_trans (Nat.le_add_right n len) hb.1, hb.2⟩
  · intro other ha
    refine ⟨h.typed other ?_, htyped other ha⟩
    refine (hk.mono ?_).trans (ha.mono ?_)
    · exact fun id hid hb => Nat.not_le_of_lt hid.2 hb.1
    · exact fun id hid => between_of_le (by omega) hid

theorem TypedRun.imp {env' : Env} {typed typed' : ScopeTree → Prop}
    (h : TypedRun lo n len tree tree' env' typed) (ht : ∀ other, typed other → typed' other) :
    TypedRun lo n len tree tree' env' typed' :=
  ⟨h.known, h.frame, fun other ha => ht other (h.typed other ha)⟩

theorem TypedRun.declare {name : String} {typed : ScopeTree → Prop} (h : Known lo n tree env)
    (hv : tree.decls[n]? = some var) (hn : var.name = name) (hp : ty.Prim)
    (hfix : var.declared.Prim → ty = var.declared) (ht : ∀ other, tree.Agree (between lo n) other →
      other.decls[n]? = some { var with ty } → typed other) :
    TypedRun lo n 1 tree (tree.retype n var ty) ((name, n) :: env) typed := by
  have hlt := (List.getElem?_eq_some_iff.mp hv).1
  have hset : (tree.retype n var ty).decls[n]? = some { var with ty } := by
    simp [retype, hlt]
  have hframe : tree.Agree (fun id => ¬ between n (n + 1) id) (tree.retype n var ty) := by
    refine (Agree.of_retype hv ty).mono ?_
    rintro id hid rfl
    exact hid ⟨Nat.le_refl _, Nat.lt_succ_self _⟩
  have hplain := h.plain.retype hv hp.flat hfix
  have hsight : Known lo n (tree.retype n var ty) env :=
    ⟨h.settled.of_agree hframe, hplain,
      h.typed.of_agree h.inside (hframe.mono fun _ => not_between_of_lt), h.inside, h.le⟩
  refine ⟨hsight.bind hset hn hp, hframe, ?_⟩
  intro other ha
  exact ht other (agree_before hframe ha) ((ha.types n ⟨h.le, Nat.lt_succ_self n⟩) ▸ hset)

theorem Known.loopVar (h : Known lo n tree env) {name : String} {span : Span}
    {handle : Option DeclId} (hv : tree.decls[n]? = some var)
    (hd : (Site.mk name .loopVar none span handle).Declares var) : var.ty = .int := by
  have hdecl : var.declared = .int := (Except.ok.inj hd.type).symm
  rw [h.plain.fixed var (List.mem_of_getElem? hv) (hdecl ▸ Ty.prim_int), hdecl]

end

section

variable {first : Nat} {scope : ScopeId}

mutual
theorem Stmt.infer_typed : ∀ (stmt : Stmt) {n : Nat} {env : Env} {stmt' : Stmt}
    {ctx ctx' : RoutineContext} {tree tree' : ScopeTree}, Known first n tree env →
    Numbered tree n stmt.sites → stmt.Resolved env → ctx.ret = ctx.expected →
    ctx.expected.Prim → stmt.infer .commit scope ctx tree = .done (stmt', ctx') tree' →
    ctx' = ctx ∧ TypedRun first n stmt.sites.length tree tree' (stmt.extend env)
      fun other => stmt'.WellTyped other scope ctx.expected
  | .decl name _ _ _ _, n, _, _, _, _, _, _, hk, hn, hr, _, _, h => by
    obtain ⟨id, var, value', ty, hh, hv, hc, hvoid, rfl, rfl, rfl⟩ := Stmt.infer_decl.mp h
    obtain ⟨hh', ⟨var', hv', hd⟩, _⟩ := hn
    obtain rfl : id = n := Option.some.inj (hh.symm.trans hh')
    rw [hv] at hv'
    cases hv'
    have hx := hk.plain.declared var (List.mem_of_getElem? hv)
    obtain ⟨ht, hfix⟩ := hc.typed hk.settled hk.typed hk.inside (.refl _ _) hr.1 hx
    cases hh
    refine ⟨rfl, TypedRun.declare hk hv hd.name ht.prim hfix ?_⟩
    intro other ha hset
    refine ⟨id, _, rfl, hset, hd.name, hd.kind,
      (hc.typed hk.settled hk.typed hk.inside ha hr.1 hx).1, ?_, ?_⟩
    · rintro rfl
      cases hvoid
    · rintro annotation rfl
      have hres : annotation.resolve = .ok var.declared := hd.type
      change annotation.resolve = .ok ty
      rw [hfix (TypeExpr.resolve_eq_ok hres).2, hres]
  | .assign .., _, _, _, _, _, _, _, hk, _, hr, _, _, h => by
    obtain ⟨id, var, value', ty, hh, hv, hl, hc, hvoid, rfl, rfl, rfl⟩ := Stmt.infer_assign.mp h
    obtain ⟨hrv, id', hh', hlook⟩ := hr
    obtain rfl : id = id' := Option.some.inj (hh.symm.trans hh')
    have hm := Env.mem_of_lookup hlook
    obtain ⟨var', hv', hname, hp⟩ := hk.typed _ hm
    rw [hv] at hv'
    cases hv'
    obtain ⟨_, hfix⟩ := hc.typed hk.settled hk.typed hk.inside (.refl _ _) hrv hp.flat
    -- The variable has its type already, so the assignment writes the same one again.
    obtain rfl := hfix hp
    rw [retype_self hv]
    refine ⟨rfl, TypedRun.refl hk ?_⟩
    intro other ha
    refine ⟨id, var, hh, (ha.types id (hk.inside _ hm)) ▸ hv, hname,
      by simpa [VarDecl.assignable] using hl,
      (hc.typed hk.settled hk.typed hk.inside ha hrv hp.flat).1, ?_⟩
    intro hty
    rw [hty] at hvoid
    cases hvoid
  | .branch _ blocks _, _, _, _, _, _, _, _, hk, hn, hr, hret, hp, h => by
    obtain ⟨conds', blocks', hc, hb, rfl⟩ := Stmt.infer_branch.mp h
    obtain ⟨hctx, hrun⟩ := inferBlocks_typed blocks hk hn hr.2.2 hret hp hb
    refine ⟨hctx, hrun.known, hrun.frame, fun other ha => ⟨?_, hrun.typed other ha⟩⟩
    exact consumed_typed hk.settled hk.typed hk.inside (agree_before hrun.frame ha) Ty.prim_bool
      hr.2.1 hc
  | .forLoop name _ hi body _ _, n, _, _, _, _, tree, tree', hk, hn, hr, hret, hp, h => by
    obtain ⟨lo', hi', body', _, _, hl, hh, hb, rfl⟩ := Stmt.infer_forLoop.mp h
    obtain ⟨hrl, hrh, id, rfl, hrb⟩ := hr
    obtain ⟨hid, ⟨var, hv, hd⟩, hn⟩ := hn
    obtain rfl : n = id := (Option.some.inj hid).symm
    have hint := hk.loopVar hv hd
    have hk' := hk.bind hv hd.name (hint ▸ Ty.prim_int)
    obtain ⟨hctx, hrun⟩ := Block.infer_typed body hk' hn hrb hret hp hb
    have hlen : n + 1 + body.sites.length = n + (body.sites.length + 1) := by omega
    have hframe : tree.Agree (fun i => ¬ between n (n + (body.sites.length + 1)) i) tree' := by
      refine hrun.frame.mono ?_
      rw [hlen]
      exact fun i hi hb => hi ⟨Nat.le_of_succ_le hb.1, hb.2⟩
    refine ⟨hctx, hk.extend hrun.known.plain hframe, hframe, ?_⟩
    intro other (ha : tree'.Agree (between first (n + (body.sites.length + 1))) other)
    have hbefore := agree_before hframe ha
    -- The counter lies just below what the body writes.
    have hvar : other.decls[n]? = some var := by
      rw [← ha.types n ⟨hk.le, Nat.lt_add_of_pos_right (Nat.succ_pos _)⟩, ← hrun.frame.types n]
      · exact hv
      · exact fun hb => Nat.not_succ_le_self n hb.1
    rw [← hlen] at ha
    obtain ⟨htl, hfl⟩ := hl.typed hk.settled hk.typed hk.inside hbefore hrl Ty.prim_int.flat
    obtain ⟨hth, hfh⟩ := hh.typed hk.settled hk.typed hk.inside hbefore hrh Ty.prim_int.flat
    exact ⟨⟨n, var, rfl, hvar, hd.name, hd.kind, hint⟩, hfl Ty.prim_int ▸ htl,
      hfh Ty.prim_int ▸ hth, hrun.typed other ha⟩
  | .whileLoop _ body _, _, _, _, _, _, _, _, hk, hn, hr, hret, hp, h => by
    obtain ⟨cond', body', _, hc, hb, rfl⟩ := Stmt.infer_whileLoop.mp h
    obtain ⟨hctx, hrun⟩ := Block.infer_typed body hk hn hr.2 hret hp hb
    refine ⟨hctx, hrun.known, hrun.frame, fun other ha => ⟨?_, hrun.typed other ha⟩⟩
    obtain ⟨ht, hfix⟩ := hc.typed hk.settled hk.typed hk.inside (agree_before hrun.frame ha) hr.1
      Ty.prim_bool.flat
    exact hfix Ty.prim_bool ▸ ht
  | .call _, _, _, _, _, _, _, _, hk, _, hr, _, _, h => by
    obtain ⟨value', ty, hc, rfl, rfl, rfl⟩ := Stmt.infer_call.mp h
    refine ⟨rfl, TypedRun.refl hk fun other ha => ⟨ty, ?_⟩⟩
    exact (hc.typed hk.settled hk.typed hk.inside ha hr Ty.flat_unknown).1
termination_by structural stmt => stmt
theorem Block.infer_typed : ∀ (block : Block) {n : Nat} {env : Env} {block' : Block}
    {ctx ctx' : RoutineContext} {tree tree' : ScopeTree}, Known first n tree env →
    Numbered tree n block.sites → block.Resolved env → ctx.ret = ctx.expected →
    ctx.expected.Prim → block.infer .commit scope ctx tree = .done (block', ctx') tree' →
    ctx' = ctx ∧ TypedRun first n block.sites.length tree tree' (block.extend env)
      fun other => block'.WellTyped other scope ctx.expected
  | ⟨stmts, none, _, _, _⟩, _, _, _, _, _, _, _, hk, hn, hr, hret, hp, h => by
    obtain ⟨stmts', hs, rfl⟩ := Block.infer_none.mp h
    obtain ⟨hctx, hrun⟩ := inferStmts_typed stmts hk hn hr.1 hret hp hs
    exact ⟨hctx, hrun.imp fun other ht => ⟨ht, by simp⟩⟩
  | ⟨stmts, some ⟨_, _⟩, _, _, _⟩, _, _, _, _, _, _, _, hk, hn, hr, hret, hp, h => by
    obtain ⟨stmts', ctx₁, value', ty, hs, hc, rfl, rfl⟩ := Block.infer_some.mp h
    obtain ⟨hctx, hrun⟩ := inferStmts_typed stmts hk hn hr.1 hret hp hs
    subst hctx
    have hk' := hrun.known
    obtain ⟨_, hfix⟩ := hc.typed hk'.settled hk'.typed hk'.inside (.refl _ _) (hr.2 _ rfl) hp.flat
    obtain rfl := hfix hp
    refine ⟨by rw [← hret], hk', hrun.frame, fun other ha => ⟨hrun.typed other ha, ?_⟩⟩
    rintro r hr'
    cases hr'
    exact (hc.typed hk'.settled hk'.typed hk'.inside ha (hr.2 _ rfl) hp.flat).1
termination_by structural block => block
theorem inferStmts_typed : ∀ (stmts : List Stmt) {n : Nat} {env : Env} {stmts' : List Stmt}
    {ctx ctx' : RoutineContext} {tree tree' : ScopeTree}, Known first n tree env →
    Numbered tree n (sitesOf stmts) → StmtsResolved env stmts → ctx.ret = ctx.expected →
    ctx.expected.Prim → inferStmts .commit scope stmts ctx tree = .done (stmts', ctx') tree' →
    ctx' = ctx ∧ TypedRun first n (sitesOf stmts).length tree tree' (extendStmts env stmts)
      fun other => StmtsWellTyped other scope ctx.expected stmts'
  | [], _, _, _, _, _, _, _, hk, _, _, _, _, h => by
    obtain ⟨rfl, rfl, rfl⟩ := inferStmts_nil.mp h
    exact ⟨rfl, TypedRun.refl hk fun _ _ => trivial⟩
  | stmt :: stmts, _, _, _, _, _, _, _, hk, hn, hr, hret, hp, h => by
    obtain ⟨stmt', rest, ctx₁, tree₁, hs, hrest, rfl⟩ := inferStmts_cons.mp h
    obtain ⟨hn₁, hn₂⟩ := numbered_append.mp hn
    obtain ⟨rfl, hrun⟩ := Stmt.infer_typed stmt hk hn₁ hr.1 hret hp hs
    obtain ⟨rfl, hrun'⟩ := inferStmts_typed stmts hrun.known (hn₂.of_agree hrun.frame) hr.2 hret hp
      hrest
    refine ⟨rfl, ?_⟩
    rw [sitesOf, List.length_append]
    exact hrun.trans hrun'
termination_by structural stmts => stmts
theorem inferBlocks_typed : ∀ (blocks : List Block) {n : Nat} {env : Env} {blocks' : List Block}
    {ctx ctx' : RoutineContext} {tree tree' : ScopeTree}, Known first n tree env →
    Numbered tree n (sitesOfBlocks blocks) → BlocksResolved env blocks → ctx.ret = ctx.expected →
    ctx.expected.Prim → inferBlocks .commit scope blocks ctx tree = .done (blocks', ctx') tree' →
    ctx' = ctx ∧ TypedRun first n (sitesOfBlocks blocks).length tree tree' (extendBlocks env blocks)
      fun other => BlocksWellTyped other scope ctx.expected blocks'
  | [], _, _, _, _, _, _, _, hk, _, _, _, _, h => by
    obtain ⟨rfl, rfl, rfl⟩ := inferBlocks_nil.mp h
    exact ⟨rfl, TypedRun.refl hk fun _ _ => trivial⟩
  | block :: blocks, _, _, _, _, _, _, _, hk, hn, hr, hret, hp, h => by
    obtain ⟨block', rest, ctx₁, tree₁, hb, hrest, rfl⟩ := inferBlocks_cons.mp h
    obtain ⟨hn₁, hn₂⟩ := numbered_append.mp hn
    obtain ⟨rfl, hrun⟩ := Block.infer_typed block hk hn₁ hr.1 hret hp hb
    obtain ⟨rfl, hrun'⟩ := inferBlocks_typed blocks hrun.known (hn₂.of_agree hrun.frame) hr.2 hret
      hp hrest
    refine ⟨rfl, ?_⟩
    rw [sitesOfBlocks, List.length_append]
    exact hrun.trans hrun'
termination_by structural blocks => blocks
end

end

end ScriptLang
