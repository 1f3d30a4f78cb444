import ScriptLang.Proofs.Annotations
import ScriptLang.Proofs.Placement

/-!
# Completeness of checking

When every return type can be read off the definitions, a unit is accepted exactly if its variables
and expressions can be given types that obey the rules. The rules are stated for a tree with empty
slots: a typing says which type each variable has, and the types of expressions follow. A committing
run finds just these types.
-/

set_option linter.unusedSectionVars false

namespace ScriptLang

open Pass ScopeTree

variable {fn : FnDef} {tree : ScopeTree} {name : String} {sig : Signature} {on : DeclId → Prop}

variable {env : Env} {n : Nat} {base tree tree' : ScopeTree} {var : VarDecl}

/-! ## Typings -/

section

variable (tree : ScopeTree) (scope : ScopeId) (types : DeclId → Ty)

mutual
/-- The type of an expression, given those of the variables. -/
def Expr.TypedBy : Expr → Ty → Prop
  | .lit value _ _, ty => ty = value.ty
  | .var _ handle _ _, ty => ∃ id, handle = some id ∧ types id = ty
  | .call name args _ _, ty => ∃ tys found sig, AllTypedBy args tys ∧
    tree.NearestOverloads name scope found ∧ sig ∈ found ∧ sig.params = tys ∧ sig.ret = ty
def AllTypedBy : List Expr → List Ty → Prop
  | [], tys => tys = []
  | expr :: exprs, tys => ∃ ty rest, expr.TypedBy ty ∧ AllTypedBy exprs rest ∧ tys = ty :: rest
end

mutual
/-- The rules for statements in a routine that returns `ret`. -/
def Stmt.TypedBy (ret : Ty) : Stmt → Prop
  | .decl _ ascription value _ handle =>
    ∃ id, handle = some id ∧ value.TypedBy tree scope types (types id) ∧ types id ≠ .void ∧
      ∀ annotation, ascription = some annotation → annotation.resolve = .ok (types id)
  | .assign _ value _ handle =>
    ∃ id var, handle = some id ∧ tree.decls[id]? = some var ∧ var.assignable = true ∧
      value.TypedBy tree scope types (types id) ∧ types id ≠ .void
  | .branch conds blocks _ =>
    (∀ cond ∈ conds, cond.TypedBy tree scope types .bool) ∧ BlocksTypedBy ret blocks
  | .forLoop _ lo hi body _ handle =>
    (∃ id, handle = some id ∧ types id = .int) ∧ lo.TypedBy tree scope types .int ∧
      hi.TypedBy tree scope types .int ∧ body.TypedBy ret
  | .whileLoop cond body _ => cond.TypedBy tree scope types .bool ∧ body.TypedBy ret
  | .call value => ∃ ty, value.TypedBy tree scope types ty
def Block.TypedBy (ret : Ty) : Block → Prop
  | ⟨stmts, result, _, _, _⟩ =>
    StmtsTypedBy ret stmts ∧ ∀ r, result = some r → r.value.TypedBy tree scope types ret
def StmtsTypedBy (ret : Ty) : List Stmt → Prop
  | [] => True
  | stmt :: stmts => stmt.TypedBy ret ∧ StmtsTypedBy ret stmts
def BlocksTypedBy (ret : Ty) : List Block → Prop
  | [] => True
  | block :: blocks => block.TypedBy ret ∧ BlocksTypedBy ret blocks
end

/-- The rules for a function with the given signature. -/
structure FnDef.TypedBy (fn : FnDef) (sig : Signature) : Prop where
  params : ∀ param ∈ fn.params, ∃ id, param.handle = some id ∧ param.ty.resolve = .ok (types id)
  ascribed : ∀ annotation, fn.ret = some annotation → annotation.resolve = .ok sig.ret
  returns : sig.ret ≠ .void → fn.body.containsReturn = true
  body : fn.body.TypedBy tree scope types sig.ret

end

/-- A typing of a unit whose names are bound. -/
structure CompileUnit.TypedBy (unit : CompileUnit) (res : Resolution) (types : DeclId → Ty) :
    Prop where
  functions : List.Forall₂ (fun fn id => ∃ sig, res.scopes.sigs[id]? = some sig ∧
    fn.TypedBy res.scopes res.unitScope types sig) unit.functions res.signatures
  script : unit.script.body.TypedBy res.scopes res.unitScope types .int

/-! ## Slots play no part -/

section

variable {tree : ScopeTree} {scope : ScopeId} {types : DeclId → Ty}

mutual
theorem Expr.typedBy_clear : ∀ (expr : Expr) (ty : Ty),
    (expr.clear true).TypedBy tree scope types ty ↔ expr.TypedBy tree scope types ty
  | .lit .., _ => Iff.rfl
  | .var .., _ => Iff.rfl
  | .call _ args _ _, _ => by
    simp only [Expr.clear, Expr.TypedBy, allTypedBy_clear args]
theorem allTypedBy_clear : ∀ (exprs : List Expr) (tys : List Ty),
    AllTypedBy tree scope types (clearAll true exprs) tys ↔ AllTypedBy tree scope types exprs tys
  | [], _ => Iff.rfl
  | expr :: exprs, _ => by
    simp only [clearAll, AllTypedBy, Expr.typedBy_clear expr, allTypedBy_clear exprs]
end

theorem conds_typedBy_clear (ty : Ty) : ∀ conds : List Expr,
    (∀ cond ∈ clearAll true conds, cond.TypedBy tree scope types ty) ↔
      ∀ cond ∈ conds, cond.TypedBy tree scope types ty := by
  intro conds
  induction conds with
  | nil => exact Iff.rfl
  | cons cond conds ih =>
    simp only [clearAll, List.forall_mem_cons, Expr.typedBy_clear, ih]

mutual
theorem Stmt.typedBy_clear (ret : Ty) : ∀ stmt : Stmt,
    (stmt.clear true).TypedBy tree scope types ret ↔ stmt.TypedBy tree scope types ret
  | .decl .. => by simp only [Stmt.clear, Stmt.TypedBy, Expr.typedBy_clear, kept_true]
  | .assign .. => by simp only [Stmt.clear, Stmt.TypedBy, Expr.typedBy_clear, kept_true]
  | .branch _ blocks _ => by
    simp only [Stmt.clear, Stmt.TypedBy, conds_typedBy_clear, blocksTypedBy_clear ret blocks]
  | .forLoop _ _ _ body _ _ => by
    simp only [Stmt.clear, Stmt.TypedBy, Expr.typedBy_clear, kept_true,
      Block.typedBy_clear ret body]
  | .whileLoop _ body _ => by
    simp only [Stmt.clear, Stmt.TypedBy, Expr.typedBy_clear, Block.typedBy_clear ret body]
  | .call _ => by simp only [Stmt.clear, Stmt.TypedBy, Expr.typedBy_clear]
theorem Block.typedBy_clear (ret : Ty) : ∀ block : Block,
    (block.clear true).TypedBy tree scope types ret ↔ block.TypedBy tree scope types ret
  | ⟨stmts, none, _, _, _⟩ => by
    simp only [Block.clear, Block.TypedBy, stmtsTypedBy_clear ret stmts, Option.map_none]
  | ⟨stmts, some _, _, _, _⟩ => by
    simp only [Block.clear, Block.TypedBy, stmtsTypedBy_clear ret stmts, Option.map_some,
      Option.some.injEq, forall_eq', Return.clear, Expr.typedBy_clear]
theorem stmtsTypedBy_clear (ret : Ty) : ∀ stmts : List Stmt,
    StmtsTypedBy tree scope types ret (clearStmts true stmts) ↔
      StmtsTypedBy tree scope types ret stmts
  | [] => Iff.rfl
  | stmt :: stmts => and_congr (Stmt.typedBy_clear ret stmt) (stmtsTypedBy_clear ret stmts)
theorem blocksTypedBy_clear (ret : Ty) : ∀ blocks : List Block,
    BlocksTypedBy tree scope types ret (clearBlocks true blocks) ↔
      BlocksTypedBy tree scope types ret blocks
  | [] => Iff.rfl
  | block :: blocks => and_congr (Block.typedBy_clear ret block) (blocksTypedBy_clear ret blocks)
end

end

/-! ## Well-typed trees have a typing -/

/-- The type that a scope tree gives a variable. -/
def ScopeTree.typeAt (tree : ScopeTree) (id : DeclId) : Ty :=
  ((tree.decls[id]?).map VarDecl.ty).getD .unknown

theorem ScopeTree.typeAt_eq {id : DeclId} (hv : tree.decls[id]? = some var) :
    tree.typeAt id = var.ty := by
  simp [typeAt, hv]

section

variable {on : DeclId → Prop} {tree other : ScopeTree} {scope : ScopeId}

variable (ha : tree.Agree on other)

include ha

mutual
theorem Expr.HasType.typedBy : ∀ (expr : Expr) {ty : Ty},
    expr.HasType tree scope ty → expr.TypedBy other scope tree.typeAt ty
  | .lit .., _, h => h.2
  | .var .., _, ⟨_, _, id, _, hh, hv, _, ht⟩ => ⟨id, hh, ht ▸ typeAt_eq hv⟩
  | .call _ args _ _, _, ⟨_, _, tys, found, sig, hargs, hf, hone, hret⟩ => by
    have hsig : sig ∈ found.filter fun sig => sig.params = tys := by
      rw [hone]
      exact List.mem_singleton_self sig
    obtain ⟨hm, hp⟩ := List.mem_filter.mp hsig
    exact ⟨tys, found, sig, HaveTypes.typedBy args hargs, ha.nearestOverloads hf, hm,
      of_decide_eq_true hp, hret⟩
theorem HaveTypes.typedBy : ∀ (exprs : List Expr) {tys : List Ty},
    HaveTypes tree scope exprs tys → AllTypedBy other scope tree.typeAt exprs tys
  | [], _, h => h
  | expr :: exprs, _, ⟨ty, rest, he, hrest, htys⟩ =>
    ⟨ty, rest, Expr.HasType.typedBy expr he, HaveTypes.typedBy exprs hrest, htys⟩
end

mutual
theorem Stmt.WellTyped.typedBy {ret : Ty} : ∀ stmt : Stmt,
    stmt.WellTyped tree scope ret → stmt.TypedBy other scope tree.typeAt ret
  | .decl .., ⟨id, _, hh, hv, _, _, hval, hne, hann⟩ => by
    rw [← typeAt_eq hv] at hval hne hann
    exact ⟨id, hh, hval.typedBy ha, hne, hann⟩
  | .assign .., ⟨id, _, hh, hv, _, hkind, hval, hne⟩ => by
    obtain ⟨var', hv', he⟩ := ha.exists_decl hv
    have hassign : var'.assignable = true := by
      rw [he]
      exact decide_eq_true hkind
    rw [← typeAt_eq hv] at hval hne
    exact ⟨id, var', hh, hv', hassign, hval.typedBy ha, hne⟩
  | .branch _ blocks _, h =>
    ⟨fun cond hc => (h.1 cond hc).typedBy ha, BlocksWellTyped.typedBy blocks h.2⟩
  | .forLoop _ _ _ body _ _, ⟨⟨id, _, hh, hv, _, _, hint⟩, hlo, hhi, hb⟩ =>
    ⟨⟨id, hh, (typeAt_eq hv).trans hint⟩, hlo.typedBy ha, hhi.typedBy ha,
      Block.WellTyped.typedBy body hb⟩
  | .whileLoop _ body _, h => ⟨h.1.typedBy ha, Block.WellTyped.typedBy body h.2⟩
  | .call _, ⟨ty, h⟩ => ⟨ty, h.typedBy ha⟩
theorem Block.WellTyped.typedBy {ret : Ty} : ∀ block : Block,
    block.WellTyped tree scope ret → block.TypedBy other scope tree.typeAt ret
  | ⟨stmts, _, _, _, _⟩, h =>
    ⟨StmtsWellTyped.typedBy stmts h.1, fun r hr => (h.2 r hr).typedBy ha⟩
theorem StmtsWellTyped.typedBy {ret : Ty} : ∀ stmts : List Stmt,
    StmtsWellTyped tree scope ret stmts → StmtsTypedBy other scope tree.typeAt ret stmts
  | [], _ => trivial
  | stmt :: stmts, h =>
    ⟨Stmt.WellTyped.typedBy stmt h.1, StmtsWellTyped.typedBy stmts h.2⟩
theorem BlocksWellTyped.typedBy {ret : Ty} : ∀ blocks : List Block,
    BlocksWellTyped tree scope ret blocks → BlocksTypedBy other scope tree.typeAt ret blocks
  | [], _ => trivial
  | block :: blocks, h =>
    ⟨Block.WellTyped.typedBy block h.1, BlocksWellTyped.typedBy blocks h.2⟩
end

end

/-! ## Binding leaves slots empty -/

theorem FnDef.clear_eq_self :
    fn.clear true = fn ↔ fn.body.clear true = fn.body ∧ fn.retSlot = none := by
  obtain ⟨name, params, ret, body, span, retSlot⟩ := fn
  simp only [FnDef.clear, FnDef.mk.injEq, true_and, map_clear_params, eq_comm]

/-- The slots of a unit are empty, those of its expressions and those of its functions. -/
structure CompileUnit.Untyped (unit : CompileUnit) : Prop where
  functions : ∀ fn ∈ unit.functions, fn.clear true = fn
  script : unit.script.body.clear true = unit.script.body

theorem CompileUnit.Untyped.resolve {unit bound : CompileUnit} {res : Resolution} (h : unit.Untyped)
    (hr : unit.resolve tree = .done (bound, res) tree') : bound.Untyped := by
  obtain ⟨ids, tree₂, fns', tree₃, body', _, hf, hb, rfl, rfl⟩ := CompileUnit.resolve_eq_done.mp hr
  have hfns := (bindFunctions_delivers 1 unit.functions).done hf
  have hbody := (unit.script.body.bind_delivers _ _).done hb
  have hclear := hfns.2 ((List.map_congr_left h.functions).trans (List.map_id' _))
  refine ⟨fun fn hfn => ?_, hbody.2 h.script⟩
  obtain ⟨i, hi⟩ := List.mem_iff_getElem?.mp hfn
  have hat := congrArg (·[i]?) hclear
  simpa [hi] using hat

/-! ## Expressions -/

theorem ScopeTree.NearestOverloads.visible (hroot : tree.Rooted) {found : List Signature}
    (h : tree.NearestOverloads name 1 found) : found = tree.visible name := by
  obtain ⟨more, hp⟩ := hroot
  cases h with
  | here hne => simp [ScopeTree.visible, hne]
  | above hnil hup hf =>
    obtain rfl : root = _ := by simpa [hp] using hup
    cases hf with
    | here => simp [ScopeTree.visible, hnil]
    | above _ hup _ => simp [hp, root] at hup

theorem ScopeTree.Settled.reached (h : tree.Settled) (hroot : tree.Rooted)
    (hs : sig ∈ tree.visible name) : tree.reached name sig.params = [sig] := by
  have hprim : ∀ ty ∈ sig.params, ty.Prim := h.params sig (mem_visible hs).1
  have hmem : sig ∈ tree.reached name sig.params :=
    mem_reached.mpr ⟨hs, (Ty.unifyAll_prim hprim hprim).mpr rfl⟩
  obtain ⟨_, sig', _, _, hone⟩ :=
    h.candidates hprim (hroot.candidates name sig.params) (List.ne_nil_of_mem hmem)
  rw [hone, List.mem_singleton] at hmem
  rw [hone, hmem]

theorem Ty.Prim.unify_self {t : Ty} (h : t.Prim) : t.unify t = some t := by
  simp [h.unify_prim h]

theorem ScopeTree.Settled.overloadFor (h : tree.Settled) (hroot : tree.Rooted)
    (hs : sig ∈ tree.visible name) (span : Span) :
    tree.overloadFor 1 name sig.params sig.ret span = .ok sig := by
  rw [overloadFor_eq_ok hroot, h.reached hroot hs]
  simp [(h.rets sig (mem_visible hs).1).unify_self]

/-- The tree differs from `base` in the types of variables only, and the names in sight have the
types of the typing. -/
structure Follows (base : ScopeTree) (types : DeclId → Ty) (tree : ScopeTree) (env : Env) :
    Prop where
  same : base.Agree (fun _ => False) tree
  types : ∀ entry ∈ env, ∃ var, tree.decls[entry.2]? = some var ∧ var.ty = types entry.2

theorem Follows.of_agree {types : DeclId → Ty} (h : Follows base types tree env)
    (hw : env.Within on) (ha : tree.Agree on tree') : Follows base types tree' env := by
  constructor
  · exact h.same.trans (ha.mono fun _ hid => hid.elim)
  · intro entry hm
    obtain ⟨var, hv, ht⟩ := h.types entry hm
    exact ⟨var, ha.types entry.2 (hw entry hm) ▸ hv, ht⟩

section

variable {base tree : ScopeTree} {types : DeclId → Ty} {env : Env}

mutual
theorem Expr.synth_of_typedBy (hset : tree.Settled) (hroot : tree.Rooted)
    (hf : Follows base types tree env) : ∀ (expr : Expr) {ty : Ty}, expr.Resolved env →
    expr.TypedBy base 1 types ty → expr.synth tree 1 = .ok ty
  | .lit .., _, _, h => congrArg Except.ok h.symm
  | .var .., _, ⟨id, hh, hl⟩, ⟨id', hh', ht⟩ => by
    obtain rfl : id = id' := Option.some.inj (hh.symm.trans hh')
    obtain ⟨var, hv, hvt⟩ := hf.types _ (Env.mem_of_lookup hl)
    subst hh
    simp only [Expr.synth, bind_eq_ok, demand_eq_ok, Option.some.injEq, exists_eq_left',
      declaration_eq_ok, pure_eq_ok]
    exact ⟨var, hv, hvt.trans ht⟩
  | .call _ args _ _, _, hr, ⟨_, _, sig, hargs, hn, hm, hp, hret⟩ => by
    subst hp
    have hfound := synthAll_of_typedBy hset hroot hf args hr hargs
    rw [(hf.same.nearestOverloads hn).visible hroot] at hm
    rw [Expr.synth_call_iff hroot]
    refine ⟨sig.params, hfound, ?_, ?_⟩
    · simp [hset.reached hroot hm]
    · rw [hset.reached hroot hm, returnType_singleton (hset.rets sig (mem_visible hm).1), hret]
theorem synthAll_of_typedBy (hset : tree.Settled) (hroot : tree.Rooted)
    (hf : Follows base types tree env) : ∀ (exprs : List Expr) {tys : List Ty},
    AllResolved env exprs → AllTypedBy base 1 types exprs tys → synthAll tree 1 exprs = .ok tys
  | [], _, _, h => congrArg Except.ok h.symm
  | expr :: exprs, _, hr, ⟨_, _, he, hrest, htys⟩ => by
    rw [synthAll, Expr.synth_of_typedBy hset hroot hf expr hr.1 he,
      synthAll_of_typedBy hset hroot hf exprs hr.2 hrest, htys]
    rfl
end

theorem Expr.consumed_of_typedBy {first : Nat} (hk : Known first n tree env) (hroot : tree.Rooted)
    (hf : Follows base types tree env) {expr : Expr} {expected ty : Ty} (hr : expr.Resolved env)
    (hu : expr.clear true = expr) (ht : expr.TypedBy base 1 types ty)
    (hx : expected = .unknown ∨ expected = ty) :
    ty.Prim ∧ ∃ expr', expr.Consumed .commit 1 tree expected expr' ty := by
  have hs := Expr.synth_of_typedBy hk.settled hroot hf expr hr ht
  obtain ⟨hprim, hpinned⟩ := Expr.synth_prim hk.settled hk.typed expr hr hs
  obtain ⟨expr', hc, _⟩ := (Expr.commit_of_admits hk.settled.definite expr hu hs
    (Ty.admits_self ty hprim.isFullyKnown)).resolve_right fun hstop => hstop.1 hpinned
  have hunify : expected.unify ty = some ty := by
    rcases hx with rfl | rfl
    · exact Ty.unify_unknown_left ty
    · exact hprim.unify_self
  exact ⟨hprim, expr', ty, hs, hunify, hprim.flat.isVariant, hc⟩

theorem consumed_of_typedBy {first n : Nat} (hk : Known first n tree env) (hroot : tree.Rooted)
    (hf : Follows base types tree env) {ty : Ty} : ∀ {exprs : List Expr}, AllResolved env exprs →
    clearAll true exprs = exprs → (∀ expr ∈ exprs, expr.TypedBy base 1 types ty) →
    ∃ exprs', List.Forall₂
      (fun expr expr' => ∃ ty', Expr.Consumed .commit 1 tree expr ty expr' ty') exprs exprs'
  | [], _, _, _ => ⟨[], .nil⟩
  | expr :: _, hr, hu, ht => by
    obtain ⟨hue, hues⟩ := List.cons.inj hu
    obtain ⟨_, expr', hc⟩ := Expr.consumed_of_typedBy hk hroot hf hr.1 hue
      (ht expr List.mem_cons_self) (Or.inr rfl)
    obtain ⟨exprs', hcs⟩ := consumed_of_typedBy hk hroot hf hr.2 hues
      fun e he => ht e (List.mem_cons_of_mem expr he)
    exact ⟨expr' :: exprs', .cons ⟨ty, hc⟩ hcs⟩

end

/-! ## Statements -/

section

variable {base : ScopeTree} {types : DeclId → Ty} {first : Nat}

theorem Follows.rooted (h : Follows base types tree env) (hroot : base.Rooted) : tree.Rooted := by
  obtain ⟨more, hp⟩ := hroot
  exact ⟨more, h.same.parents ▸ hp⟩

theorem Follows.bind (h : Follows base types tree env) {id : DeclId}
    (hv : tree.decls[id]? = some var) (ht : var.ty = types id) :
    Follows base types tree ((name, id) :: env) := by
  refine ⟨h.same, ?_⟩
  intro entry hm
  rcases List.mem_cons.mp hm with rfl | hm
  · exact ⟨var, hv, ht⟩
  · exact h.types entry hm

theorem Follows.declare (h : Follows base types tree env) (hw : env.Within (between first n))
    (hv : tree.decls[n]? = some var) :
    Follows base types (tree.retype n var (types n)) ((name, n) :: env) := by
  have hlt : n < tree.decls.length := (List.getElem?_eq_some_iff.mp hv).1
  have hset : (tree.retype n var (types n)).decls[n]? = some { var with ty := types n } := by
    simp [retype, hlt]
  have hne : env.Within (· ≠ n) := fun entry hm => Nat.ne_of_lt (hw entry hm).2
  exact (h.of_agree hne (Agree.of_retype hv (types n))).bind hset rfl

section

variable (hroot : base.Rooted)

include hroot

mutual
/-- A statement that obeys the rules is accepted by a committing run, which gives its variables the
types of the typing. -/
theorem Stmt.infer_of_typedBy : ∀ (stmt : Stmt) {n : Nat} {env : Env}
    {ctx : RoutineContext} {tree : ScopeTree}, Known first n tree env →
    Numbered tree n stmt.sites → stmt.Resolved env → ctx.ret = ctx.expected → ctx.expected.Prim →
    Follows base types tree env → stmt.clear true = stmt →
    stmt.TypedBy base 1 types ctx.expected →
    ∃ stmt' tree', stmt.infer .commit 1 ctx tree = .done (stmt', ctx) tree' ∧
      Follows base types tree' (stmt.extend env)
  | .decl _ ascription value _ _, n, _, _, _, hk, hn, hr, _, _, hf, hu, ⟨id, hh, hval, hne,
      hann⟩ => by
    obtain ⟨hh', ⟨var, hv, hd⟩, _⟩ := hn
    obtain rfl : id = n := Option.some.inj (hh.symm.trans hh')
    cases hh
    have hu : value.clear true = value := by injection hu
    have hx : var.declared = .unknown ∨ var.declared = types id := by
      have htype : declaredType ascription = .ok var.declared := hd.type
      cases ascription with
      | none => exact Or.inl (Except.ok.inj htype).symm
      | some annotation =>
        exact Or.inr (Except.ok.inj (htype.symm.trans (hann annotation rfl)))
    obtain ⟨_, value', hc⟩ := Expr.consumed_of_typedBy hk (hf.rooted hroot) hf hr.1 hu hval hx
    have hvoid : (types id).isVoid = false := decide_eq_false hne
    exact ⟨_, _, Stmt.infer_decl.mpr ⟨id, var, value', types id, rfl, hv, hc, hvoid, rfl, rfl, rfl⟩,
      hf.declare hk.inside hv⟩
  | .assign _ value _ _, _, _, _, _, hk, _, ⟨hrv, id, hh, hl⟩, _, _, hf, hu, ⟨id', _, hh', hv₀,
      hassign, hval, hne⟩ => by
    obtain rfl : id = id' := Option.some.inj (hh.symm.trans hh')
    obtain ⟨var, hv, ht⟩ := hf.types _ (Env.mem_of_lookup hl)
    have hu : value.clear true = value := by injection hu
    have hkind : var.assignable = true := by
      obtain ⟨var', hv', he⟩ := hf.same.exists_decl hv₀
      rw [hv] at hv'
      cases hv'
      rw [he]
      exact hassign
    obtain ⟨_, value', hc⟩ := Expr.consumed_of_typedBy hk (hf.rooted hroot) hf hrv hu hval
      (Or.inr ht)
    have hvoid : (types id).isVoid = false := decide_eq_false hne
    refine ⟨_, _, Stmt.infer_assign.mpr
      ⟨id, var, value', types id, hh, hv, hkind, hc, hvoid, rfl, rfl, rfl⟩, ?_⟩
    rw [← ht, retype_self hv]
    exact hf
  | .branch _ blocks _, _, _, _, _, hk, hn, ⟨_, hrc, hrb⟩, hret, hp, hf, hu, ⟨hconds, hblocks⟩ => by
    simp only [Stmt.clear, Stmt.branch.injEq, and_true] at hu
    obtain ⟨conds', hc⟩ := consumed_of_typedBy hk (hf.rooted hroot) hf hrc hu.1 hconds
    obtain ⟨blocks', tree', hb, hf'⟩ :=
      inferBlocks_of_typedBy blocks hk hn hrb hret hp hf hu.2 hblocks
    exact ⟨_, tree', Stmt.infer_branch.mpr ⟨conds', blocks', hc, hb, rfl⟩, hf'⟩
  | .forLoop name _ hi body _ _, n, _, _, _, hk, hn, ⟨hrl, hrh, id, hid, hrb⟩, hret, hp, hf, hu,
      ⟨⟨id', hh, hint⟩, hlo, hhi, hbody⟩ => by
    simp only [Stmt.clear, Stmt.forLoop.injEq, kept_true, true_and, and_true] at hu
    obtain ⟨hh', ⟨var, hv, hd⟩, hn⟩ := hn
    obtain rfl : id' = id := Option.some.inj (hh.symm.trans hid)
    obtain rfl : id' = n := Option.some.inj (hh.symm.trans hh')
    have hvar := hk.loopVar hv hd
    have hroot' := hf.rooted hroot
    obtain ⟨_, lo', hcl⟩ := Expr.consumed_of_typedBy hk hroot' hf hrl hu.1 hlo (Or.inr rfl)
    obtain ⟨_, hi', hch⟩ := Expr.consumed_of_typedBy hk hroot' hf hrh hu.2.1 hhi (Or.inr rfl)
    have hk' := hk.bind hv hd.name (hvar ▸ Ty.prim_int)
    obtain ⟨body', tree', hb, _⟩ := Block.infer_of_typedBy body hk' hn hrb hret hp
      (hf.bind hv (hvar.trans hint.symm)) hu.2.2 hbody
    refine ⟨_, tree', Stmt.infer_forLoop.mpr ⟨lo', hi', body', _, _, hcl, hch, hb, rfl⟩, ?_⟩
    -- What the body declares comes after everything in sight before the loop.
    refine hf.of_agree hk.inside ((Block.infer_typed body hk' hn hrb hret hp hb).2.frame.mono ?_)
    intro i hi hb
    exact Nat.lt_irrefl i (Nat.lt_trans hi.2 (Nat.lt_of_succ_le hb.1))
  | .whileLoop _ body _, _, _, _, _, hk, hn, ⟨hrc, hrb⟩, hret, hp, hf, hu, ⟨hcond, hbody⟩ => by
    simp only [Stmt.clear, Stmt.whileLoop.injEq, and_true] at hu
    obtain ⟨_, cond', hc⟩ := Expr.consumed_of_typedBy hk (hf.rooted hroot) hf hrc hu.1 hcond
      (Or.inr rfl)
    obtain ⟨body', tree', hb, hf'⟩ :=
      Block.infer_of_typedBy body hk hn hrb hret hp hf hu.2 hbody
    exact ⟨_, tree', Stmt.infer_whileLoop.mpr ⟨cond', body', _, hc, hb, rfl⟩, hf'⟩
  | .call value, _, _, _, tree, hk, _, hr, _, _, hf, hu, ⟨ty, hval⟩ => by
    have hu : value.clear true = value := by injection hu
    obtain ⟨_, value', hc⟩ := Expr.consumed_of_typedBy hk (hf.rooted hroot) hf hr hu hval
      (Or.inl rfl)
    exact ⟨_, tree, Stmt.infer_call.mpr ⟨value', ty, hc, rfl, rfl, rfl⟩, hf⟩
theorem Block.infer_of_typedBy : ∀ (block : Block) {n : Nat} {env : Env}
    {ctx : RoutineContext} {tree : ScopeTree}, Known first n tree env →
    Numbered tree n block.sites → block.Resolved env → ctx.ret = ctx.expected →
    ctx.expected.Prim → Follows base types tree env → block.clear true = block →
    block.TypedBy base 1 types ctx.expected →
    ∃ block' tree', block.infer .commit 1 ctx tree = .done (block', ctx) tree' ∧
      Follows base types tree' (block.extend env)
  | ⟨stmts, none, _, _, _⟩, _, _, _, _, hk, hn, hr, hret, hp, hf, hu, ht => by
    simp only [Block.clear, Block.mk.injEq, kept_true, and_true] at hu
    obtain ⟨stmts', tree', hs, hf'⟩ :=
      inferStmts_of_typedBy stmts hk hn hr.1 hret hp hf hu.1 ht.1
    exact ⟨_, tree', Block.infer_none.mpr ⟨stmts', hs, rfl⟩, hf'⟩
  | ⟨stmts, some ⟨_, _⟩, _, _, _⟩, _, _, ctx, _, hk, hn, hr, hret, hp, hf, hu, ht => by
    simp only [Block.clear, Block.mk.injEq, kept_true, Option.map_some, Option.some.injEq,
      Return.clear, Return.mk.injEq, and_true] at hu
    obtain ⟨stmts', tree', hs, hf'⟩ :=
      inferStmts_of_typedBy stmts hk hn hr.1 hret hp hf hu.1 ht.1
    have hk' := (inferStmts_typed stmts hk hn hr.1 hret hp hs).2.known
    obtain ⟨_, value', hc⟩ := Expr.consumed_of_typedBy hk' (hf'.rooted hroot) hf' (hr.2 _ rfl) hu.2
      (ht.2 _ rfl) (Or.inr rfl)
    refine ⟨_, tree', Block.infer_some.mpr ⟨stmts', ctx, value', ctx.expected, hs, hc, rfl, ?_⟩,
      hf'⟩
    rw [← hret]
theorem inferStmts_of_typedBy : ∀ (stmts : List Stmt) {n : Nat} {env : Env}
    {ctx : RoutineContext} {tree : ScopeTree}, Known first n tree env →
    Numbered tree n (sitesOf stmts) → StmtsResolved env stmts → ctx.ret = ctx.expected →
    ctx.expected.Prim → Follows base types tree env → clearStmts true stmts = stmts →
    StmtsTypedBy base 1 types ctx.expected stmts →
    ∃ stmts' tree', inferStmts .commit 1 stmts ctx tree = .done (stmts', ctx) tree' ∧
      Follows base types tree' (extendStmts env stmts)
  | [], _, _, _, tree, _, _, _, _, _, hf, _, _ =>
    ⟨[], tree, inferStmts_nil.mpr ⟨rfl, rfl, rfl⟩, hf⟩
  | stmt :: stmts, _, _, ctx, _, hk, hn, hr, hret, hp, hf, hu, ht => by
    obtain ⟨hus, hurest⟩ := List.cons.inj hu
    obtain ⟨hn₁, hn₂⟩ := numbered_append.mp hn
    obtain ⟨stmt', tree₁, hs, hf₁⟩ :=
      Stmt.infer_of_typedBy stmt hk hn₁ hr.1 hret hp hf hus ht.1
    have hrun := (Stmt.infer_typed stmt hk hn₁ hr.1 hret hp hs).2
    obtain ⟨rest, tree', hrest, hf'⟩ := inferStmts_of_typedBy stmts hrun.known
      (hn₂.of_agree hrun.frame) hr.2 hret hp hf₁ hurest ht.2
    exact ⟨_, tree', inferStmts_cons.mpr ⟨stmt', rest, ctx, tree₁, hs, hrest, rfl⟩, hf'⟩
theorem inferBlocks_of_typedBy : ∀ (blocks : List Block) {n : Nat} {env : Env}
    {ctx : RoutineContext} {tree : ScopeTree}, Known first n tree env →
    Numbered tree n (sitesOfBlocks blocks) → BlocksResolved env blocks → ctx.ret = ctx.expected →
    ctx.expected.Prim → Follows base types tree env → clearBlocks true blocks = blocks →
    BlocksTypedBy base 1 types ctx.expected blocks →
    ∃ blocks' tree', inferBlocks .commit 1 blocks ctx tree = .done (blocks', ctx) tree' ∧
      Follows base types tree' (extendBlocks env blocks)
  | [], _, _, _, tree, _, _, _, _, _, hf, _, _ =>
    ⟨[], tree, inferBlocks_nil.mpr ⟨rfl, rfl, rfl⟩, hf⟩
  | block :: blocks, _, _, ctx, _, hk, hn, hr, hret, hp, hf, hu, ht => by
    obtain ⟨hub, hurest⟩ := List.cons.inj hu
    obtain ⟨hn₁, hn₂⟩ := numbered_append.mp hn
    obtain ⟨block', tree₁, hb, hf₁⟩ :=
      Block.infer_of_typedBy block hk hn₁ hr.1 hret hp hf hub ht.1
    have hrun := (Block.infer_typed block hk hn₁ hr.1 hret hp hb).2
    obtain ⟨rest, tree', hrest, hf'⟩ := inferBlocks_of_typedBy blocks hrun.known
      (hn₂.of_agree hrun.frame) hr.2 hret hp hf₁ hurest ht.2
    exact ⟨_, tree', inferBlocks_cons.mpr ⟨block', rest, ctx, tree₁, hb, hrest, rfl⟩, hf'⟩
end

end

end

/-! ## Functions -/

theorem FnDef.WellTyped.typedBy {other : ScopeTree} {scope : ScopeId} {fn' : FnDef}
    (h : fn'.WellTyped tree scope sig) (ha : tree.Agree on other)
    (hc : fn'.clear true = fn.clear true) : fn.TypedBy other scope tree.typeAt sig := by
  have hparams : fn'.params = fn.params := by
    have hp := congrArg FnDef.params hc
    simpa only [FnDef.clear, map_clear_params] using hp
  have hret := congrArg FnDef.ret hc
  change fn'.ret = fn.ret at hret
  have hbody : fn'.body.clear true = fn.body.clear true := congrArg FnDef.body hc
  constructor
  case params =>
    intro param hm
    rw [← hparams] at hm
    obtain ⟨ty, _, hres, id, var, hh, hv, _, _, rfl⟩ := forall₂_mem_left h.params hm
    exact ⟨id, hh, (typeAt_eq hv).symm ▸ hres⟩
  case ascribed => exact fun annotation hann => h.ascribed annotation (hret.trans hann)
  case returns =>
    intro hne
    rw [← Block.containsReturn_clear true, ← hbody, Block.containsReturn_clear]
    exact h.returns hne
  case body =>
    rw [← Block.typedBy_clear, ← hbody, Block.typedBy_clear]
    exact h.body.typedBy ha

theorem Follows.params {base : ScopeTree} {types : DeclId → Ty} (hp : tree.Plain) :
    ∀ {params : List Param} {n : Nat} {env : Env}, Numbered tree n (params.map Param.site) →
    (∀ param ∈ params, ∃ id, param.handle = some id ∧ param.ty.resolve = .ok (types id)) →
    Follows base types tree env → Follows base types tree (extendParams env params)
  | [], _, _, _, _, hf => hf
  | param :: params, n, _, ⟨hh, ⟨var, hv, hd⟩, hn⟩, ht, hf => by
    obtain ⟨id, hid, hres⟩ := ht param List.mem_cons_self
    obtain rfl : id = n := Option.some.inj (hid.symm.trans hh)
    have hdecl : var.declared = types id := Except.ok.inj (hd.type.symm.trans hres)
    have hprim : var.declared.Prim := hdecl ▸ (TypeExpr.resolve_eq_ok hres).2
    have hvar : var.ty = types id := (hp.fixed var (List.mem_of_getElem? hv) hprim).trans hdecl
    rw [extendParams, hid]
    exact Follows.params hp hn (fun q hq => ht q (List.mem_cons_of_mem param hq)) (hf.bind hv hvar)

theorem FnDef.Ready.commit_of_typedBy {start : ScopeTree} {types : DeclId → Ty} {sig : SigId}
    {signature : Signature} (h : fn.Ready 1 base n sig) (hset : base.Settled) (hroot : start.Rooted)
    (hsame : start.Agree (fun _ => False) base)
    (ha : base.Agree (between n (n + fn.sites.length)) tree) (hp : tree.Plain)
    (hu : fn.clear true = fn) (hs : base.sigs[sig]? = some signature)
    (ht : fn.TypedBy start 1 types signature) :
    ∃ fn' tree', fn.commit 1 sig tree = .done fn' tree' := by
  obtain ⟨hubody, huslot⟩ := FnDef.clear_eq_self.mp hu
  have hprim : signature.ret.Prim := hset.rets signature (List.mem_of_getElem? hs)
  obtain ⟨_, _, ⟨params, ret, hty, rfl⟩, _, _⟩ := h.shown
  have hn := numbered_append.mp (h.numbered.of_agree ha)
  have hnb := hn.2
  rw [List.length_map] at hnb
  have hknown : Known n n tree [] := .nil (hset.of_agree ha) hp n
  have hk := (Known.params (FnDef.signatureTypes_spec hty).1 hknown hn.1).1
  have hnothing : Follows start types tree [] :=
    ⟨hsame.trans (ha.mono fun _ hid => hid.elim), by simp⟩
  have hf := Follows.params hp hn.1 ht.params hnothing
  have hexpected : (RoutineContext.mk signature.ret fn.span false).expected.Prim := hprim
  obtain ⟨body', tree', hb, hf'⟩ :=
    Block.infer_of_typedBy hroot fn.body hk hnb h.resolved rfl hexpected hf hubody ht.body
  have hsigs : tree'.sigs = base.sigs := hf'.same.sigs.symm.trans hsame.sigs
  have hreturns : signature.ret.isVoid = false → body'.containsReturn = true := by
    intro hvoid
    rw [← Block.containsReturn_clear true, Block.infer_clear fn.body hb,
      Block.containsReturn_clear]
    exact ht.returns (of_decide_eq_false hvoid)
  exact ⟨_, _, FnDef.commit_eq_done.mpr ⟨signature, body', _, tree', signature, ha.sigs ▸ hs, hb,
    hreturns, hprim.isFullyKnown, Or.inl huslot, rfl, hsigs.symm ▸ hs, rfl⟩⟩

/-! ## Units whose return types can be read off -/

section

variable {unit unit' : CompileUnit} {res : Resolution} {types : DeclId → Ty}

theorem CompileUnit.Annotated.of_clear {keep : Bool} (h : unit.Annotated)
    (hc : unit'.clear keep = unit.clear keep) : unit'.Annotated := by
  intro fn' hm
  have hclear : fn'.clear keep ∈ unit.functions.map (FnDef.clear keep) := by
    rw [← CompileUnit.functions_of_clear hc]
    exact List.mem_map_of_mem hm
  obtain ⟨fn, hfn, he⟩ := List.mem_map.mp hclear
  have hret := congrArg FnDef.ret he
  change fn.ret = fn'.ret at hret
  have hbody : fn.body.clear keep = fn'.body.clear keep := congrArg FnDef.body he
  rw [← hret, ← Block.containsReturn_clear keep fn'.body, ← hbody, Block.containsReturn_clear]
  exact h fn hfn

namespace CompileUnit.ResolvedIn

theorem settled_of_annotated (h : unit.ResolvedIn res) (ha : unit.Annotated) :
    res.scopes.resetInferred.Settled :=
  ⟨h.plain.params, h.prim_rets ha, h.unambiguous⟩

theorem knows_of_annotated (h : unit.ResolvedIn res) (ha : unit.Annotated) :
    ∀ sig ∈ res.signatures, res.scopes.Knows sig := by
  intro sig hm
  obtain ⟨i, hi, rfl⟩ := List.getElem_of_mem hm
  obtain ⟨users, hsigs, hshow⟩ := h.sigs
  have hlt : i < users.length := by
    rw [← hshow.length_eq, ← h.signatures_length]
    exact hi
  have hsig : res.scopes.sigs[res.signatures[i]]? = some users[i] := by
    rw [h.signature (List.getElem?_eq_getElem hi), hsigs,
      List.getElem?_append_right (Nat.le_add_right _ _), Nat.add_sub_cancel_left,
      List.getElem?_eq_getElem hlt]
  exact ⟨users[i], hsig, (h.prim_rets ha _ (List.mem_of_getElem? hsig)).isFullyKnown⟩

theorem explored_of_annotated (h : unit.ResolvedIn res) (ha : unit.Annotated) :
    List.Forall₂ (FnDef.Explored res.unitScope res.scopes.resetInferred) unit.functions
      res.signatures := by
  refine List.forall₂_iff_get.mpr ⟨h.signatures_length.symm, fun i h₁ h₂ => ?_⟩
  obtain ⟨signature, hs, hk⟩ := h.knows_of_annotated ha _ (List.get_mem res.signatures ⟨i, h₂⟩)
  exact ⟨signature, hs, Or.inl hk⟩

theorem script_of_typedBy (h : unit.ResolvedIn res) (hu : unit.Untyped)
    (ht : unit.TypedBy res types) (hset : base.Settled)
    (hsame : res.scopes.Agree (fun _ => False) base) (ha : base.Agree on tree) (hp : tree.Plain) :
    ∃ script' tree', unit.script.commit 1 tree = .done script' tree' := by
  have hnum := (numbered_append.mp (h.numbered.of_agree hsame)).2.of_agree ha
  have hk := Known.nil (hset.of_agree ha) hp (0 + (unit.functions.flatMap FnDef.sites).length)
  have hf : Follows res.scopes types tree [] :=
    ⟨hsame.trans (ha.mono fun _ hid => hid.elim), by simp⟩
  have hint : (RoutineContext.mk .int unit.script.span true).expected.Prim := Ty.prim_int
  have hbody := ht.script
  rw [h.unitScope] at hbody
  obtain ⟨body', tree', hb, _⟩ := Block.infer_of_typedBy h.parents unit.script.body hk hnum h.script
    rfl hint hf hu.script hbody
  exact ⟨_, tree', Script.commit_eq_done.mpr ⟨body', _, hb, rfl⟩⟩

theorem same_of_infer (h : unit.ResolvedIn res) (ha : unit.Annotated)
    (hi : unit.infer res.unitScope res.signatures res.scopes = .done unit' tree') :
    tree'.Agree (fun _ => False) res.scopes := by
  obtain ⟨lasts, fns', script', tree₁, tree₂, hd, hc, hs, -⟩ := CompileUnit.infer_eq_done.mp hi
  rw [discoverReturns_known (h.knows_of_annotated ha)] at hd
  cases hd
  have href : res.scopes.resetInferred.Refined res.scopes.resetInferred := .refl _
  rw [commitOrder_none] at hc
  obtain ⟨hset, hdone⟩ := h.commitFunctions href (h.explored_of_annotated ha) (.refl _) hc
  obtain ⟨body, ctx, hbody, -⟩ := Script.commit_eq_done.mp hs
  have hrun := h.commitScript hset (h.numbered_base href) hdone.frame hdone.plain hbody
  have hall := hdone.frame.skeleton.trans hrun.frame.skeleton
  rw [resetInferred_idem] at hall
  exact ⟨hall.symm, fun _ hid => hid.elim⟩

theorem infer_of_typedBy (h : unit.ResolvedIn res) (ha : unit.Annotated) (hu : unit.Untyped)
    (ht : unit.TypedBy res types) :
    ∃ unit' tree', unit.infer res.unitScope res.signatures res.scopes = .done unit' tree' := by
  have href : res.scopes.resetInferred.Refined res.scopes.resetInferred := .refl _
  have hset := h.settled_of_annotated ha
  have hsame : res.scopes.Agree (fun _ => False) res.scopes.resetInferred :=
    ⟨(resetInferred_idem _).symm, fun _ hid => hid.elim⟩
  have hready := h.ready href (h.explored_of_annotated ha)
  rw [h.unitScope] at hready
  have hpending := h.pending href (List.nodup_range (n := unit.functions.length))
  have heach : ∀ (i : Nat) (fn : FnDef) (sig : SigId), unit.functions[i]? = some fn →
      res.signatures[i]? = some sig → ∀ tree,
      res.scopes.resetInferred.Agree (ofFunction unit.functions i) tree → tree.Plain →
      ∃ fn' tree', fn.commit 1 sig tree = .done fn' tree' := by
    intro i fn sig hf hs tree hagree hp
    obtain ⟨hlt, rfl⟩ := List.getElem?_eq_some_iff.mp hf
    obtain ⟨hlt', rfl⟩ := List.getElem?_eq_some_iff.mp hs
    obtain ⟨signature, hsig, hfn⟩ := ht.functions.get hlt hlt'
    rw [h.unitScope] at hfn
    rw [ofFunction_eq hf] at hagree
    exact (hready i _ _ hf hs).commit_of_typedBy hset h.parents hsame hagree hp
      (hu.functions _ (List.getElem_mem hlt)) hsig hfn
  obtain ⟨fns', tree₂, hc⟩ := commitFunctions_of_each h.signatures_length hready heach
    (fun i hi => List.mem_range.mp hi) hpending
  have hdone := (h.commitFunctions href (h.explored_of_annotated ha) (.refl _)
    (h.unitScope.symm ▸ hc)).2
  obtain ⟨script', tree', hscript⟩ := h.script_of_typedBy hu ht hset hsame hdone.frame hdone.plain
  refine ⟨{ unit with functions := fns', script := script' }, tree', ?_⟩
  rw [h.unitScope]
  refine CompileUnit.infer_eq_done.mpr ⟨_, fns', script', res.scopes, tree₂,
    discoverReturns_known (h.knows_of_annotated ha), ?_, hscript, rfl⟩
  rw [commitOrder_none]
  exact hc

theorem typedBy_of_infer (h : unit.ResolvedIn res) (ha : unit.Annotated)
    (hi : unit.infer res.unitScope res.signatures res.scopes = .done unit' tree') :
    unit.TypedBy res tree'.typeAt := by
  obtain ⟨hchecked, hclear, _⟩ := h.infer hi
  have hsame := h.same_of_infer ha hi
  have hwell := hchecked.wellTyped
  have hfns := CompileUnit.functions_of_clear hclear
  constructor
  · refine List.forall₂_iff_get.mpr ⟨h.signatures_length.symm, fun i h₁ h₂ => ?_⟩
    have hlen : unit'.functions.length = unit.functions.length := by
      simpa using congrArg List.length hfns
    have hi : i < unit'.functions.length := hlen ▸ h₁
    have he : unit'.functions[i].clear true = unit.functions[i].clear true := by
      have he := congrArg (fun fns : List FnDef => fns[i]?) hfns
      simpa [hi, h₁] using he
    obtain ⟨sig, hs, hfn⟩ := hwell.functions.get hi h₂
    exact ⟨sig, hsame.sigs ▸ hs, hfn.typedBy hsame he⟩
  · have hbody := congrArg (fun unit : CompileUnit => unit.script.body) hclear
    change unit'.script.body.clear true = unit.script.body.clear true at hbody
    rw [← Block.typedBy_clear, ← hbody, Block.typedBy_clear]
    exact hwell.script.typedBy hsame

end CompileUnit.ResolvedIn

end

/-! ## Completeness -/

/-- A unit without types in its slots, all of whose return types can be read off, is accepted
exactly if its names can be bound and there is a typing of what they are bound to. -/
theorem check_complete {unit : CompileUnit} (hu : unit.Untyped) (ha : unit.Annotated) :
    (∃ res, unit.check.result = .ok res) ↔
      ∃ res, unit.resolveNames.result = .ok res ∧
        ∃ types, unit.resolveNames.unit.TypedBy res types := by
  constructor
  · rintro ⟨res, h⟩
    have hcheck : unit.check = ⟨unit.check.unit, .ok res⟩ := by rw [← h]
    obtain ⟨bound, start, hr, hi, _⟩ := CompileUnit.check_eq_ok.mp hcheck
    obtain ⟨hres, hclear, _⟩ := CompileUnit.resolve_spec hr
    have hnames : unit.resolveNames = ⟨bound, .ok start⟩ := Run.ofOutcome_eq_ok.mpr ⟨_, hr⟩
    rw [hnames]
    exact ⟨start, rfl, _, hres.typedBy_of_infer (ha.of_clear hclear) hi⟩
  · rintro ⟨start, h, types, ht⟩
    have hnames : unit.resolveNames = ⟨unit.resolveNames.unit, .ok start⟩ := by rw [← h]
    obtain ⟨tree, hr⟩ := Run.ofOutcome_eq_ok.mp hnames
    obtain ⟨hres, hclear, rfl⟩ := CompileUnit.resolve_spec hr
    obtain ⟨unit', tree', hi⟩ := hres.infer_of_typedBy (ha.of_clear hclear) (hu.resolve hr) ht
    have hcheck : unit.check = ⟨unit', .ok { start with scopes := tree' }⟩ :=
      CompileUnit.check_eq_ok.mpr ⟨_, start, hr, hi, rfl⟩
    exact ⟨_, by rw [hcheck]⟩

/-- Caps a number with a function that shares its name with a procedure. -/
def capped (first : Literal) : CompileUnit where
  functions := [
    { name := "cap", params := [{ name := "flag", ty := { name := "Bool" } }], ret := none
      body := { stmts := [.decl "copy" none (.var "flag")] } },
    { name := "cap"
      params := [
        { name := "n", ty := { name := "Int" } }, { name := "top", ty := { name := "Int" } }]
      ret := some { name := "Int" }
      body := {
        stmts := [.branch [.call ">" [.var "n", .var "top"]]
          [{ stmts := [], ret := some { value := .var "top" } }]]
        ret := some { value := .var "n" } } }]
  script :=
    { name := "main"
      body := {
        stmts := [
          .decl "total" (some { name := "Int" }) (.call "cap" [.lit first, .lit (.int 3)]),
          .call (.call "cap" [.lit (.bool true)])]
        ret := some { value := .var "total" } } }

theorem check_complete_capped :
    (∀ first, (capped first).Untyped ∧ (capped first).Annotated) ∧
      (∃ res, (capped (.int 7)).resolveNames.result = .ok res ∧
        ∃ types, (capped (.int 7)).resolveNames.unit.TypedBy res types) ∧
      ¬ ∃ res, (capped (.bool true)).resolveNames.result = .ok res ∧
        ∃ types, (capped (.bool true)).resolveNames.unit.TypedBy res types := by
  have hu : ∀ first, (capped first).Untyped := by
    intro first
    constructor
    · simp only [capped, List.forall_mem_cons]
      exact ⟨rfl, rfl, by simp⟩
    · rfl
  have ha : ∀ first, (capped first).Annotated := by
    intro first
    simp [CompileUnit.Annotated, capped, Block.containsReturn, anyReturn, Stmt.containsReturn]
  have hok : (capped (.int 7)).check.result.isOk = true := by decide +kernel
  have hno : (capped (.bool true)).check.result.isOk = false := by decide +kernel
  refine ⟨fun first => ⟨hu first, ha first⟩, ?_, ?_⟩
  · rw [← check_complete (hu _) (ha _)]
    cases h : (capped (.int 7)).check.result with
    | ok res => exact ⟨res, rfl⟩
    | error halt =>
      rw [h] at hok
      cases hok
  · rw [← check_complete (hu _) (ha _)]
    rintro ⟨res, h⟩
    rw [h] at hno
    cases hno

end ScriptLang
