import ScriptLang.Proofs.Overloads
import ScriptLang.Proofs.Soundness

/-!
# Knowing more and knowing less

One type covers another if it leaves open whatever the other leaves open. A run of inference that
goes through with less knowledge of return types covers one with more. A run with more knowledge
need not go through, since an unknown call may turn out ambiguous; it does if functions that share a
name with an unknown one agree on their type.
-/

namespace ScriptLang

open ScopeTree

variable {t ty' u : Ty} {e e' expr : Expr} {id : DeclId} {var : VarDecl} {mode mode' : Mode}
  {mid other tree : ScopeTree}

/-! ## Types -/

namespace Ty

/-- The first type leaves open whatever the second leaves open. -/
def Covers (t u : Ty) : Prop :=
  t = .unknown ∨ ∀ a ∈ u.alternatives, a ∈ t.alternatives

theorem Covers.refl (t : Ty) : t.Covers t :=
  Or.inr fun _ ha => ha

theorem unknown_covers (t : Ty) : Covers .unknown t :=
  Or.inl rfl

theorem Covers.eq_unknown (h : t.Covers .unknown) (ht : t.Shallow) : t = .unknown := by
  rcases h with h | h
  · exact h
  · rcases ht with ht | ht
    · exact ht
    · exact (not_prim_unknown (ht _ (h _ List.mem_cons_self))).elim

theorem Covers.trans {v : Ty} (h : t.Covers u) (k : u.Covers v) (ht : t.Shallow) : t.Covers v := by
  rcases k with rfl | k
  · rw [h.eq_unknown ht]
    exact unknown_covers v
  · rcases h with rfl | h
    · exact unknown_covers v
    · exact Or.inr fun a ha => h a (k a ha)

theorem Covers.eq_of_prim (h : t.Covers u) (ht : t.Prim) (hu : u.Flat) : u = t := by
  rcases h with rfl | h
  · exact (not_prim_unknown ht).elim
  · rw [ht.alternatives] at h
    rcases hu with rfl | hu
    · rw [List.mem_singleton.mp (h _ List.mem_cons_self)]
    · exact List.mem_singleton.mp (h u (by simp [hu.alternatives]))

theorem Covers.isSome_unify {p : Ty} (h : t.Covers u) (hp : p.Prim) (ht : t.Shallow)
    (hu : u.Shallow) (hs : (p.unify u).isSome = true) : (p.unify t).isSome = true := by
  rw [hp.isSome_unify ht]
  rcases (hp.isSome_unify hu).mp hs with rfl | hm
  · exact Or.inl (h.eq_unknown ht)
  · exact h.imp_right fun h => h p hm

theorem Covers.unify {e e' t' v' : Ty} (he : e.Covers e') (ht : t.Covers t') (hef : e.Flat)
    (hef' : e'.Flat) (hts : t.Shallow) (hts' : t'.Shallow) (hu : e'.unify t' = some v') :
    ∃ v, e.unify t = some v ∧ v.Covers v' := by
  rcases hef with rfl | hp
  · refine ⟨t, unify_unknown_left t, ?_⟩
    rcases hef' with rfl | hp'
    · rw [unify_unknown_left, Option.some.injEq] at hu
      exact hu ▸ ht
    · obtain rfl := hp'.unify_eq_some hu
      rcases (hp'.isSome_unify hts').mp (by rw [hu]; rfl) with rfl | hm
      · rw [ht.eq_unknown hts]
        exact unknown_covers _
      · refine ht.imp_right fun ht a ha => ?_
        rw [hp'.alternatives, List.mem_singleton] at ha
        exact ha ▸ ht _ hm
  · obtain rfl := he.eq_of_prim hp hef'
    obtain rfl := hp.unify_eq_some hu
    have hs := ht.isSome_unify hp hts hts' (by rw [hu]; rfl)
    obtain ⟨v, hv⟩ := Option.isSome_iff_exists.mp hs
    obtain rfl := hp.unify_eq_some hv
    exact ⟨_, hv, .refl _⟩

theorem covers_unifyAll {params args args' : List Ty} (hp : ∀ p ∈ params, p.Prim)
    (h : List.Forall₂ (fun t t' => t.Covers t' ∧ t.Shallow ∧ t'.Shallow) args args')
    (hs : (unifyAll params args').isSome = true) : (unifyAll params args).isSome = true := by
  induction h generalizing params with
  | nil => exact hs
  | @cons t t' ts ts' h _ ih =>
    cases params with
    | nil => simp [unifyAll] at hs
    | cons p params =>
      have hrest := @ih params fun q hq => hp q (List.mem_cons_of_mem p hq)
      have hfirst := h.1.isSome_unify (hp p List.mem_cons_self) h.2.1 h.2.2
      simp only [unifyAll] at hs ⊢
      cases hu : p.unify t' with
      | none => simp [hu] at hs
      | some v =>
        cases hus : unifyAll params ts' with
        | none => simp [hu, hus] at hs
        | some vs =>
          obtain ⟨w, hw⟩ := Option.isSome_iff_exists.mp (hfirst (by rw [hu]; rfl))
          obtain ⟨ws, hws⟩ := Option.isSome_iff_exists.mp (hrest (by rw [hus]; rfl))
          rw [hw, hws]
          rfl

end Ty

/-! ## Scope trees -/

/-- The same signature, with a return type that leaves open more. -/
structure Signature.Covers (sig other : Signature) : Prop where
  same : other = { sig with ret := other.ret }
  ret : sig.ret.Covers other.ret

/-- The same variable, with a type that leaves open more. -/
structure VarDecl.Covers (var other : VarDecl) : Prop where
  same : other = { var with ty := other.ty }
  ty : var.ty.Covers other.ty

namespace ScopeTree

/-- The scope tree of a unit in the middle of inference. -/
structure Fit (tree : ScopeTree) : Prop where
  rooted : tree.Rooted
  plain : tree.Plain

/-- Two scope trees of the same unit; less is known in the first. -/
structure Covers (tree other : ScopeTree) : Prop where
  fit : tree.Fit
  fit' : other.Fit
  sigs : List.Forall₂ Signature.Covers tree.sigs other.sigs
  decls : List.Forall₂ VarDecl.Covers tree.decls other.decls

namespace Covers

variable {tree mid other : ScopeTree}

theorem visible (h : tree.Covers other) (name : String) :
    List.Forall₂ Signature.Covers (tree.visible name) (other.visible name) := by
  have ho : ∀ scope, List.Forall₂ Signature.Covers (tree.overloads scope name)
      (other.overloads scope name) := by
    intro scope
    refine List.rel_filter ?_ h.sigs
    intro sig sig' hs
    rw [hs.same]
  have hnil : tree.overloads 1 name = [] ↔ other.overloads 1 name = [] := by
    rw [← List.length_eq_zero_iff, (ho 1).length_eq, List.length_eq_zero_iff]
  unfold ScopeTree.visible
  by_cases he : tree.overloads 1 name = []
  · rw [if_pos he, if_pos (hnil.mp he)]
    exact ho root
  · rw [if_neg he, if_neg (mt hnil.mpr he)]
    exact ho 1

theorem reached (h : tree.Covers other) {name : String} {args args' : List Ty}
    (ha : List.Forall₂ (fun t t' : Ty => t.Covers t' ∧ t.Shallow ∧ t'.Shallow) args args')
    {sig' : Signature} (hs : sig' ∈ other.reached name args') :
    ∃ sig ∈ tree.reached name args, sig.Covers sig' := by
  obtain ⟨hv, hu⟩ := mem_reached.mp hs
  obtain ⟨sig, hm, hc⟩ := forall₂_mem_right (h.visible name) hv
  refine ⟨sig, mem_reached.mpr ⟨hm, ?_⟩, hc⟩
  have hparams : sig'.params = sig.params := by rw [hc.same]
  rw [hparams] at hu
  exact Ty.covers_unifyAll (h.fit.plain.params sig (mem_visible hm).1) ha hu

theorem decl (h : tree.Covers other) (hv : other.decls[id]? = some var) :
    ∃ var', tree.decls[id]? = some var' ∧ var'.Covers var := by
  obtain ⟨hlt, he⟩ := List.getElem?_eq_some_iff.mp hv
  have hlt' : id < tree.decls.length := h.decls.length_eq ▸ hlt
  refine ⟨tree.decls[id], List.getElem?_eq_getElem hlt', ?_⟩
  rw [← he]
  exact h.decls.get hlt' hlt

theorem sig (h : tree.Covers other) {id : SigId} {sig : Signature}
    (hs : tree.sigs[id]? = some sig) : ∃ sig', other.sigs[id]? = some sig' ∧ sig.Covers sig' := by
  obtain ⟨hlt, he⟩ := List.getElem?_eq_some_iff.mp hs
  have hlt' : id < other.sigs.length := h.sigs.length_eq ▸ hlt
  refine ⟨other.sigs[id], List.getElem?_eq_getElem hlt', ?_⟩
  rw [← he]
  exact h.sigs.get hlt hlt'

theorem refl (h : tree.Fit) : tree.Covers tree :=
  ⟨h, h, List.forall₂_same.mpr fun _ _ => ⟨rfl, .refl _⟩,
    List.forall₂_same.mpr fun _ _ => ⟨rfl, .refl _⟩⟩

private theorem forall₂_trans_of_mem {r s t : α → α → Prop} : ∀ {as bs cs : List α},
    (∀ a ∈ as, ∀ b c, r a b → s b c → t a c) → List.Forall₂ r as bs → List.Forall₂ s bs cs →
    List.Forall₂ t as cs
  | _, _, _, _, .nil, .nil => .nil
  | _, _, _, ht, .cons h hs, .cons k ks =>
    .cons (ht _ List.mem_cons_self _ _ h k)
      (forall₂_trans_of_mem (fun a ha => ht a (List.mem_cons_of_mem _ ha)) hs ks)

theorem trans (h : tree.Covers mid) (k : mid.Covers other) : tree.Covers other := by
  refine ⟨h.fit, k.fit', forall₂_trans_of_mem ?_ h.sigs k.sigs,
    forall₂_trans_of_mem ?_ h.decls k.decls⟩
  · intro a ha b c hab hbc
    exact ⟨by rw [hbc.same, hab.same], hab.ret.trans hbc.ret (h.fit.plain.rets a ha).shallow⟩
  · intro a ha b c hab hbc
    exact ⟨by rw [hbc.same, hab.same], hab.ty.trans hbc.ty (h.fit.plain.types a ha).shallow⟩

theorem sigs_eq (h : tree.Covers other) (hp : ∀ sig ∈ tree.sigs, sig.ret.Prim) :
    other.sigs = tree.sigs := by
  have heq : List.Forall₂ Eq tree.sigs other.sigs := by
    rw [List.forall₂_iff_get]
    refine ⟨h.sigs.length_eq, fun i h₁ h₂ => ?_⟩
    have hc := h.sigs.get h₁ h₂
    have hret := hc.ret.eq_of_prim (hp _ (List.get_mem tree.sigs ⟨i, h₁⟩))
      (h.fit'.plain.rets _ (List.get_mem other.sigs ⟨i, h₂⟩))
    rw [hc.same, hret]
  rw [List.forall₂_eq_eq_eq] at heq
  exact heq.symm

end Covers

end ScopeTree

/-! ## Expressions -/

theorem returnType_covers {sigs sigs' : List Signature} (hne : sigs' ≠ [])
    (hf : ∀ sig ∈ sigs, sig.ret.Flat) (hf' : ∀ sig ∈ sigs', sig.ret.Flat)
    (h : ∀ sig' ∈ sigs', ∃ sig ∈ sigs, sig.Covers sig') :
    (returnType sigs).Covers (returnType sigs') := by
  obtain ⟨first, hfirst⟩ := List.exists_mem_of_ne_nil sigs' hne
  obtain ⟨_, hm, _⟩ := h first hfirst
  rcases returnType_cases (List.ne_nil_of_mem hm) hf with ⟨_, hu⟩ | ⟨hp, hrets⟩
  · exact Or.inl hu
  · -- All return types are known here, so the others are among them.
    have heq : ∀ sig' ∈ sigs', ∃ sig ∈ sigs, sig.ret = sig'.ret := by
      intro sig' hs'
      obtain ⟨sig, hs, hc⟩ := h sig' hs'
      exact ⟨sig, hs, (hc.ret.eq_of_prim (hp sig hs) (hf' sig' hs')).symm⟩
    have hp' : ∀ sig' ∈ sigs', sig'.ret.Prim := by
      intro sig' hs'
      obtain ⟨sig, hs, he⟩ := heq sig' hs'
      exact he ▸ hp sig hs
    refine Or.inr fun ty hty => ?_
    obtain ⟨sig', hs', rfl⟩ := (mem_returnType hne hp').mp hty
    exact (hrets _).mpr (heq sig' hs')

mutual
theorem Expr.synth_covers {tree other : ScopeTree} (h : tree.Covers other) : ∀ (expr : Expr)
    {ty' : Ty}, expr.synth other 1 = .ok ty' →
    ∃ ty, expr.synth tree 1 = .ok ty ∧ ty.Covers ty'
  | .lit .., ty', hs => ⟨ty', hs, .refl ty'⟩
  | .var .., _, hs => by
    obtain ⟨id, var', rfl, hv', rfl⟩ := Expr.synth_var hs
    obtain ⟨var, hv, hc⟩ := h.decl hv'
    refine ⟨var.ty, ?_, hc.ty⟩
    simp only [Expr.synth, bind_eq_ok, demand_eq_ok, declaration_eq_ok, pure_eq_ok]
    exact ⟨id, rfl, var, hv, rfl⟩
  | .call _ args _ _, _, hs => by
    obtain ⟨found', hf', hne, rfl⟩ := (Expr.synth_call_iff h.fit'.rooted).mp hs
    obtain ⟨found, hf, hc⟩ := synthAll_covers h args hf'
    obtain ⟨first, hfirst⟩ := List.exists_mem_of_ne_nil _ hne
    obtain ⟨_, hm, _⟩ := h.reached hc hfirst
    exact ⟨_, (Expr.synth_call_iff h.fit.rooted).mpr ⟨found, hf, List.ne_nil_of_mem hm, rfl⟩,
      returnType_covers hne h.fit.plain.reached_flat h.fit'.plain.reached_flat
        fun _ hs' => h.reached hc hs'⟩
theorem synthAll_covers {tree other : ScopeTree} (h : tree.Covers other) : ∀ (exprs : List Expr)
    {tys' : List Ty}, synthAll other 1 exprs = .ok tys' →
    ∃ tys, synthAll tree 1 exprs = .ok tys ∧
      List.Forall₂ (fun t t' : Ty => t.Covers t' ∧ t.Shallow ∧ t'.Shallow) tys tys'
  | [], _, hs => by
    simp only [synthAll, Except.ok.injEq] at hs
    subst hs
    exact ⟨[], rfl, .nil⟩
  | expr :: exprs, _, hs => by
    obtain ⟨ty', rest', ht', hts', rfl⟩ := synthAll_cons hs
    obtain ⟨ty, ht, hc⟩ := Expr.synth_covers h expr ht'
    obtain ⟨rest, hts, hcs⟩ := synthAll_covers h exprs hts'
    refine ⟨ty :: rest, ?_, .cons ⟨hc, ?_, ?_⟩ hcs⟩
    · simp only [synthAll, bind_eq_ok, pure_eq_ok]
      exact ⟨ty, ht, rest, hts, rfl⟩
    · exact (Expr.synth_transient h.fit.plain ht).shallow
    · exact (Expr.synth_transient h.fit'.plain ht').shallow
end

theorem Expr.Consumed.covers {expected expected' ty : Ty} (h : tree.Covers other)
    (hx : expected.Covers expected') (hf : expected.Flat) (hf' : expected'.Flat)
    (hc : expr.Consumed mode 1 tree expected e ty)
    (hc' : expr.Consumed mode' 1 other expected' e' ty') : ty.Covers ty' := by
  obtain ⟨found, hs, hu, _, _⟩ := hc
  obtain ⟨found', hs', hu', _, _⟩ := hc'
  obtain ⟨found₁, hs₁, hcov⟩ := Expr.synth_covers h expr hs'
  rw [hs] at hs₁
  cases hs₁
  obtain ⟨v, hv, hcv⟩ := hx.unify hcov hf hf' (Expr.synth_transient h.fit.plain hs).shallow
    (Expr.synth_transient h.fit'.plain hs').shallow hu'
  rw [hu] at hv
  cases hv
  exact hcv

/-! ## Statements -/

/-- Two moments of inference over the same text; less is known at the first. -/
structure Covering (s s' : RoutineContext × ScopeTree) : Prop where
  trees : s.2.Covers s'.2
  script : s'.1.isScript = s.1.isScript
  flat : s.1.ret.Flat
  flat' : s'.1.ret.Flat
  ret : s.1.ret.Covers s'.1.ret

theorem RoutineContext.expected_flat {ctx : RoutineContext} (h : ctx.ret.Flat) :
    ctx.expected.Flat := by
  unfold RoutineContext.expected
  split
  · exact Ty.prim_int.flat
  · exact h

theorem forall₂_set {r : α → β → Prop} {as : List α} {bs : List β} (h : List.Forall₂ r as bs)
    (i : Nat) {a : α} {b : β} (hab : r a b) : List.Forall₂ r (as.set i a) (bs.set i b) := by
  induction h generalizing i with
  | nil => exact .nil
  | cons h hs ih =>
    cases i with
    | zero => exact .cons hab hs
    | succ i => exact .cons h (ih i)

theorem forall₂_rel {r : α → β → Prop} {as : List α} {bs : List β} (h : List.Forall₂ r as bs)
    (i : Nat) : Option.Rel r as[i]? bs[i]? := by
  induction h generalizing i with
  | nil => exact .none
  | cons h _ ih =>
    cases i with
    | zero => exact .some h
    | succ i => exact ih i

namespace Covering

variable {ctx ctx' : RoutineContext} {tree other : ScopeTree}

theorem expected (h : Covering (ctx, tree) (ctx', other)) : ctx.expected.Covers ctx'.expected := by
  have hs : ctx'.isScript = ctx.isScript := h.script
  unfold RoutineContext.expected
  rw [hs]
  split
  · exact .refl _
  · exact h.ret

theorem store (h : Covering (ctx, tree) (ctx', other)) {var' : VarDecl} {expected expected' ty : Ty}
    (hv : tree.decls[id]? = some var) (hv' : other.decls[id]? = some var') (hvar : var.Covers var')
    (he : expected = var.declared ∨ expected = var.ty)
    (he' : expected' = var'.declared ∨ expected' = var'.ty) (ha : Agreed 1 tree expected ty)
    (ha' : Agreed 1 other expected' ty') (ht : ty.Covers ty') :
    Covering (ctx, tree.retype id var ty) (ctx', other.retype id var' ty') := by
  have hstep : InferStep (fun _ => True) 1 (ctx, tree) (ctx, tree.retype id var ty) :=
    .store trivial hv he ha
  have hp := hstep.plain ⟨h.trees.fit.plain, h.flat⟩
  have hstep' : InferStep (fun _ => True) 1 (ctx', other) (ctx', other.retype id var' ty') :=
    .store trivial hv' he' ha'
  have hp' := hstep'.plain ⟨h.trees.fit'.plain, h.flat'⟩
  refine ⟨⟨⟨h.trees.fit.rooted, hp.1⟩, ⟨h.trees.fit'.rooted, hp'.1⟩, h.trees.sigs, ?_⟩, h.script,
    h.flat, h.flat', h.ret⟩
  exact forall₂_set h.trees.decls id ⟨by rw [hvar.same], ht⟩

theorem returns (h : Covering (ctx, tree) (ctx', other)) {ty : Ty}
    (ha : Agreed 1 tree ctx.expected ty) (ha' : Agreed 1 other ctx'.expected ty')
    (ht : ty.Covers ty') :
    Covering ({ ctx with ret := ty }, tree) ({ ctx' with ret := ty' }, other) :=
  ⟨h.trees, h.script, ha.flat h.trees.fit.plain (RoutineContext.expected_flat h.flat),
    ha'.flat h.trees.fit'.plain (RoutineContext.expected_flat h.flat'), ht⟩

theorem consumed (h : Covering (ctx, tree) (ctx', other)) {var' : VarDecl} {ty : Ty}
    (hv : tree.decls[id]? = some var) (hv' : other.decls[id]? = some var') :
    (expr.Consumed mode 1 tree var.declared e ty → expr.Consumed mode' 1 other var'.declared e' ty' →
      Covering (ctx, tree.retype id var ty) (ctx', other.retype id var' ty')) ∧
    (expr.Consumed mode 1 tree var.ty e ty → expr.Consumed mode' 1 other var'.ty e' ty' →
      Covering (ctx, tree.retype id var ty) (ctx', other.retype id var' ty')) := by
  obtain ⟨var₁, hv₁, hvar⟩ := h.trees.decl hv'
  rw [hv] at hv₁
  cases hv₁
  have hm := List.mem_of_getElem? hv
  have hm' := List.mem_of_getElem? hv'
  have hplain := h.trees.fit.plain
  have hplain' := h.trees.fit'.plain
  constructor
  · intro hc hc'
    have hdecl : var.declared.Covers var'.declared := by
      rw [hvar.same]
      exact .refl _
    exact h.store hv hv' hvar (Or.inl rfl) (Or.inl rfl) hc.agreed hc'.agreed
      (hc.covers h.trees hdecl (hplain.declared var hm) (hplain'.declared var' hm') hc')
  · intro hc hc'
    exact h.store hv hv' hvar (Or.inr rfl) (Or.inr rfl) hc.agreed hc'.agreed
      (hc.covers h.trees hvar.ty (hplain.types var hm) (hplain'.types var' hm') hc')

end Covering

section

variable {mode mode' : Mode}

mutual
/-- Of two runs over the same text that go through, the one that starts with less knowledge ends
with less knowledge. -/
theorem Stmt.infer_covers : ∀ (stmt : Stmt) {s s' : Stmt} {ctx₁ ctx₂ ctx₁' ctx₂' : RoutineContext}
    {tree other tree' other' : ScopeTree}, Covering (ctx₁, tree) (ctx₂, other) →
    stmt.infer mode 1 ctx₁ tree = .done (s, ctx₁') tree' →
    stmt.infer mode' 1 ctx₂ other = .done (s', ctx₂') other' →
    Covering (ctx₁', tree') (ctx₂', other')
  | .decl .., _, _, _, _, _, _, _, _, _, _, hcov, h, h' => by
    obtain ⟨id, var, _, ty, hh, hv, hc, _, _, rfl, rfl⟩ := Stmt.infer_decl.mp h
    obtain ⟨id', var', _, ty', hh', hv', hc', _, _, rfl, rfl⟩ := Stmt.infer_decl.mp h'
    obtain rfl : id = id' := Option.some.inj (hh.symm.trans hh')
    exact (hcov.consumed hv hv').1 hc hc'
  | .assign .., _, _, _, _, _, _, _, _, _, _, hcov, h, h' => by
    obtain ⟨id, var, _, ty, hh, hv, _, hc, _, _, rfl, rfl⟩ := Stmt.infer_assign.mp h
    obtain ⟨id', var', _, ty', hh', hv', _, hc', _, _, rfl, rfl⟩ := Stmt.infer_assign.mp h'
    obtain rfl : id = id' := Option.some.inj (hh.symm.trans hh')
    exact (hcov.consumed hv hv').2 hc hc'
  | .branch _ blocks _, _, _, _, _, _, _, _, _, _, _, hcov, h, h' => by
    obtain ⟨_, _, _, hb, _⟩ := Stmt.infer_branch.mp h
    obtain ⟨_, _, _, hb', _⟩ := Stmt.infer_branch.mp h'
    exact inferBlocks_covers blocks hcov hb hb'
  | .forLoop _ _ _ body _ _, _, _, _, _, _, _, _, _, _, _, hcov, h, h' => by
    obtain ⟨_, _, _, _, _, _, _, hb, _⟩ := Stmt.infer_forLoop.mp h
    obtain ⟨_, _, _, _, _, _, _, hb', _⟩ := Stmt.infer_forLoop.mp h'
    exact Block.infer_covers body hcov hb hb'
  | .whileLoop _ body _, _, _, _, _, _, _, _, _, _, _, hcov, h, h' => by
    obtain ⟨_, _, _, _, hb, _⟩ := Stmt.infer_whileLoop.mp h
    obtain ⟨_, _, _, _, hb', _⟩ := Stmt.infer_whileLoop.mp h'
    exact Block.infer_covers body hcov hb hb'
  | .call _, _, _, _, _, _, _, _, _, _, _, hcov, h, h' => by
    obtain ⟨_, _, _, _, rfl, rfl⟩ := Stmt.infer_call.mp h
    obtain ⟨_, _, _, _, rfl, rfl⟩ := Stmt.infer_call.mp h'
    exact hcov
termination_by structural stmt => stmt
theorem Block.infer_covers : ∀ (block : Block) {b b' : Block}
    {ctx₁ ctx₂ ctx₁' ctx₂' : RoutineContext} {tree other tree' other' : ScopeTree},
    Covering (ctx₁, tree) (ctx₂, other) →
    block.infer mode 1 ctx₁ tree = .done (b, ctx₁') tree' →
    block.infer mode' 1 ctx₂ other = .done (b', ctx₂') other' →
    Covering (ctx₁', tree') (ctx₂', other')
  | ⟨stmts, none, _, _, _⟩, _, _, _, _, _, _, _, _, _, _, hcov, h, h' => by
    obtain ⟨_, hs, _⟩ := Block.infer_none.mp h
    obtain ⟨_, hs', _⟩ := Block.infer_none.mp h'
    exact inferStmts_covers stmts hcov hs hs'
  | ⟨stmts, some ⟨_, _⟩, _, _, _⟩, _, _, _, _, _, _, _, _, _, _, hcov, h, h' => by
    obtain ⟨_, _, _, _, hs, hc, _, rfl⟩ := Block.infer_some.mp h
    obtain ⟨_, _, _, _, hs', hc', _, rfl⟩ := Block.infer_some.mp h'
    have hcov := inferStmts_covers stmts hcov hs hs'
    exact hcov.returns hc.agreed hc'.agreed (hc.covers hcov.trees hcov.expected
      (RoutineContext.expected_flat hcov.flat) (RoutineContext.expected_flat hcov.flat') hc')
termination_by structural block => block
theorem inferStmts_covers : ∀ (stmts : List Stmt) {ss ss' : List Stmt}
    {ctx₁ ctx₂ ctx₁' ctx₂' : RoutineContext} {tree other tree' other' : ScopeTree},
    Covering (ctx₁, tree) (ctx₂, other) →
    inferStmts mode 1 stmts ctx₁ tree = .done (ss, ctx₁') tree' →
    inferStmts mode' 1 stmts ctx₂ other = .done (ss', ctx₂') other' →
    Covering (ctx₁', tree') (ctx₂', other')
  | [], _, _, _, _, _, _, _, _, _, _, hcov, h, h' => by
    obtain ⟨_, rfl, rfl⟩ := inferStmts_nil.mp h
    obtain ⟨_, rfl, rfl⟩ := inferStmts_nil.mp h'
    exact hcov
  | stmt :: stmts, _, _, _, _, _, _, _, _, _, _, hcov, h, h' => by
    obtain ⟨_, _, _, _, hs, hr, _⟩ := inferStmts_cons.mp h
    obtain ⟨_, _, _, _, hs', hr', _⟩ := inferStmts_cons.mp h'
    exact inferStmts_covers stmts (Stmt.infer_covers stmt hcov hs hs') hr hr'
termination_by structural stmts => stmts
theorem inferBlocks_covers : ∀ (blocks : List Block) {bs bs' : List Block}
    {ctx₁ ctx₂ ctx₁' ctx₂' : RoutineContext} {tree other tree' other' : ScopeTree},
    Covering (ctx₁, tree) (ctx₂, other) →
    inferBlocks mode 1 blocks ctx₁ tree = .done (bs, ctx₁') tree' →
    inferBlocks mode' 1 blocks ctx₂ other = .done (bs', ctx₂') other' →
    Covering (ctx₁', tree') (ctx₂', other')
  | [], _, _, _, _, _, _, _, _, _, _, hcov, h, h' => by
    obtain ⟨_, rfl, rfl⟩ := inferBlocks_nil.mp h
    obtain ⟨_, rfl, rfl⟩ := inferBlocks_nil.mp h'
    exact hcov
  | block :: blocks, _, _, _, _, _, _, _, _, _, _, hcov, h, h' => by
    obtain ⟨_, _, _, _, hb, hr, _⟩ := inferBlocks_cons.mp h
    obtain ⟨_, _, _, _, hb', hr', _⟩ := inferBlocks_cons.mp h'
    exact inferBlocks_covers blocks (Block.infer_covers block hcov hb hb') hr hr'
termination_by structural blocks => blocks
end

end

/-! ## Runs in between -/

/-- Where some function of a name is unknown in the first tree, those of that name that are known in
the second have one type. -/
def ScopeTree.Concord (tree mid : ScopeTree) : Prop :=
  ∀ name, (∃ sig ∈ tree.visible name, sig.ret = .unknown) →
    ∀ a ∈ mid.visible name, ∀ b ∈ mid.visible name, a.ret.Prim → b.ret.Prim → a.ret = b.ret

theorem ScopeTree.Concord.of_sigs {tree' mid' : ScopeTree} (h : tree.Concord mid)
    (ht : tree'.sigs = tree.sigs) (hm : mid'.sigs = mid.sigs) : tree'.Concord mid' := by
  unfold Concord ScopeTree.visible overloads at h ⊢
  rw [ht, hm]
  exact h

theorem returnType_isVariant {sigs : List Signature} (hne : sigs ≠ [])
    (hf : ∀ sig ∈ sigs, sig.ret.Flat) (hv : (returnType sigs).isVariant = true) :
    (∀ sig ∈ sigs, sig.ret.Prim) ∧ ∃ a ∈ sigs, ∃ b ∈ sigs, a.ret ≠ b.ret := by
  rcases returnType_cases hne hf with ⟨_, hu⟩ | ⟨hp, hm⟩
  · rw [hu] at hv
    cases hv
  · refine ⟨hp, ?_⟩
    rcases returnType_transient hf with hflat | ⟨alts, halts, hlen, hnodup, _⟩
    · rw [hflat.isVariant] at hv
      cases hv
    · obtain _ | ⟨s, _ | ⟨t, rest⟩⟩ := alts
      · simp at hlen
      · simp at hlen
      · rw [halts] at hm
        obtain ⟨a, ha, rfl⟩ := (hm s).mp List.mem_cons_self
        obtain ⟨b, hb, rfl⟩ := (hm t).mp (List.mem_cons_of_mem _ List.mem_cons_self)
        refine ⟨a, ha, b, hb, ?_⟩
        rintro he
        simp [he] at hnodup

/-- What is unambiguous where less is known, and has a type where more is known, is unambiguous in
between. -/
theorem ScopeTree.Concord.single (h : tree.Concord mid) (hc : tree.Covers mid) {found found' : Ty}
    (hs : expr.synth tree 1 = .ok found) (hs' : expr.synth mid 1 = .ok found')
    (hv : found.isVariant = false) : found'.isVariant = false := by
  rw [← Bool.not_eq_true]
  intro hv'
  cases expr with
  | lit value span slot =>
    simp only [Expr.synth, Except.ok.injEq] at hs hs'
    rw [← hs', hs, hv] at hv'
    cases hv'
  | var name handle span slot =>
    obtain ⟨id, var, _, hd, rfl⟩ := Expr.synth_var hs'
    rcases hc.fit'.plain.types var (List.mem_of_getElem? hd) with hu | hp
    · rw [hu] at hv'
      cases hv'
    · obtain ⟨n, hn⟩ := hp.basic
      rw [hn] at hv'
      cases hv'
  | call name args span slot =>
    obtain ⟨tys, ht, hne, rfl⟩ := (Expr.synth_call_iff hc.fit.rooted).mp hs
    obtain ⟨tys', ht', hne', rfl⟩ := (Expr.synth_call_iff hc.fit'.rooted).mp hs'
    obtain ⟨hprim, a, ha, b, hb, hab⟩ :=
      returnType_isVariant hne' hc.fit'.plain.reached_flat hv'
    obtain ⟨tys₁, ht₁, hargs⟩ := synthAll_covers hc args ht'
    rw [ht] at ht₁
    cases ht₁
    rcases returnType_cases hne hc.fit.plain.reached_flat with ⟨⟨sig, hsig, hu⟩, _⟩ | ⟨hp, hm⟩
    · exact hab (h name ⟨sig, (mem_reached.mp hsig).1, hu⟩ a (mem_reached.mp ha).1 b
        (mem_reached.mp hb).1 (hprim a ha) (hprim b hb))
    · -- Everything is known already where less is known, so the two types show there, too.
      have hret : ∀ sig' ∈ mid.reached name tys',
          sig'.ret ∈ (returnType (tree.reached name tys)).alternatives := by
        intro sig' hsig'
        obtain ⟨sig, hsig, hcov⟩ := hc.reached hargs hsig'
        rw [hm]
        exact ⟨sig, hsig, (hcov.ret.eq_of_prim (hp sig hsig) (hprim sig' hsig').flat).symm⟩
      have hin := hret a ha
      have hin' := hret b hb
      rw [Ty.alternatives_eq hv, List.mem_singleton] at hin hin'
      exact hab (hin.trans hin'.symm)

theorem Expr.Consumed.between {expected₁ expected₂ expected₃ ty : Ty} (hc : tree.Covers mid)
    (hc' : mid.Covers other) (hcon : tree.Concord mid) (hx : expected₁.Covers expected₂)
    (hx' : expected₂.Covers expected₃) (hf₁ : expected₁.Flat) (hf₂ : expected₂.Flat)
    (hf₃ : expected₃.Flat) (h : expr.Consumed mode 1 tree expected₁ e ty)
    (h' : expr.Consumed mode' 1 other expected₃ e' ty') :
    ∃ ty₂, expr.Consumed .probe 1 mid expected₂ expr ty₂ := by
  obtain ⟨found₁, hs₁, hu₁, hv₁, _⟩ := h
  obtain ⟨found₃, hs₃, hu₃, _, _⟩ := h'
  obtain ⟨found₂, hs₂, hcov⟩ := Expr.synth_covers hc' expr hs₃
  obtain ⟨ty₂, hu₂, _⟩ := hx'.unify hcov hf₂ hf₃
    (Expr.synth_transient hc.fit'.plain hs₂).shallow
    (Expr.synth_transient hc'.fit'.plain hs₃).shallow hu₃
  refine ⟨ty₂, found₂, hs₂, hu₂, ?_, rfl⟩
  -- Where nothing is expected, the run that knows less has found a single type already.
  rcases hf₂ with rfl | hp
  · rw [hx.eq_unknown hf₁.shallow, Ty.unify_unknown_left, Option.some.injEq] at hu₁
    rw [Ty.unify_unknown_left, Option.some.injEq] at hu₂
    exact hu₂ ▸ hcon.single hc hs₁ hs₂ (hu₁ ▸ hv₁)
  · rw [hp.unify_eq_some hu₂]
    obtain ⟨n, rfl⟩ := hp.basic
    rfl

theorem consumed_between {expected : Ty} (hc : tree.Covers mid) (hc' : mid.Covers other)
    (hcon : tree.Concord mid) (hf : expected.Flat) :
    ∀ {exprs es es' : List Expr},
    List.Forall₂ (fun expr e => ∃ ty, expr.Consumed mode 1 tree expected e ty) exprs es →
    List.Forall₂ (fun expr e => ∃ ty, expr.Consumed mode' 1 other expected e ty) exprs es' →
    List.Forall₂ (fun expr e => ∃ ty, expr.Consumed .probe 1 mid expected e ty) exprs exprs
  | [], _, _, .nil, .nil => .nil
  | _ :: _, _, _, .cons ⟨_, h⟩ hs, .cons ⟨_, h'⟩ hs' =>
    .cons (h.between hc hc' hcon (.refl _) (.refl _) hf hf hf h')
      (consumed_between hc hc' hcon hf hs hs')

theorem Ty.Covers.not_void (h : t.Covers u) (ht : t.Flat) (hu : u.Flat) (hv : u.isVoid = false) :
    t.isVoid = false := by
  rcases ht with rfl | ht
  · rfl
  · rw [← h.eq_of_prim ht hu]
    exact hv

section

variable {mode : Mode}

mutual
/-- A run that goes through with less and with more knowledge goes through in between. -/
theorem Stmt.infer_between : ∀ (stmt : Stmt) {s s' : Stmt}
    {ctx₁ ctx₂ ctx₃ ctx₁' ctx₃' : RoutineContext} {tree mid other tree' other' : ScopeTree},
    Covering (ctx₁, tree) (ctx₂, mid) → Covering (ctx₂, mid) (ctx₃, other) → tree.Concord mid →
    stmt.infer .probe 1 ctx₁ tree = .done (s, ctx₁') tree' →
    stmt.infer mode 1 ctx₃ other = .done (s', ctx₃') other' →
    ∃ ctx₂' mid', stmt.infer .probe 1 ctx₂ mid = .done (stmt, ctx₂') mid'
  | .decl _ _ value _ _, _, _, _, _, _, _, _, _, _, _, _, _, hc, hc', hcon, h, h' => by
    obtain ⟨id, var, _, ty, hh, hv, hcs, _, _, rfl, rfl⟩ := Stmt.infer_decl.mp h
    obtain ⟨id', var', _, ty', hh', hv', hcs', hn, _, rfl, rfl⟩ := Stmt.infer_decl.mp h'
    obtain rfl : id = id' := Option.some.inj (hh.symm.trans hh')
    obtain ⟨var₂, hv₂, hvar'⟩ := hc'.trees.decl hv'
    obtain ⟨var₁, hv₁, hvar⟩ := hc.trees.decl hv₂
    rw [hv] at hv₁
    cases hv₁
    have hd : var₂.declared = var.declared := by rw [hvar.same]
    have hd' : var'.declared = var.declared := by rw [hvar'.same, hd]
    have hf := hc.trees.fit.plain.declared var (List.mem_of_getElem? hv)
    rw [hd'] at hcs'
    obtain ⟨ty₂, hcs₂⟩ := hcs.between hc.trees hc'.trees hcon (.refl _) (.refl _) hf hf hf hcs'
    have hcov := hcs₂.covers hc'.trees (.refl _) hf hf hcs'
    have hvoid := hcov.not_void (hcs₂.agreed.flat hc.trees.fit'.plain hf)
      (hcs'.agreed.flat hc'.trees.fit'.plain hf) hn
    exact ⟨_, _, Stmt.infer_decl.mpr
      ⟨id, var₂, value, ty₂, hh, hv₂, hd ▸ hcs₂, hvoid, rfl, rfl, rfl⟩⟩
  | .assign _ value _ _, _, _, _, _, _, _, _, _, _, _, _, _, hc, hc', hcon, h, h' => by
    obtain ⟨id, var, _, ty, hh, hv, _, hcs, _, _, rfl, rfl⟩ := Stmt.infer_assign.mp h
    obtain ⟨id', var', _, ty', hh', hv', hl, hcs', hn, _, rfl, rfl⟩ := Stmt.infer_assign.mp h'
    obtain rfl : id = id' := Option.some.inj (hh.symm.trans hh')
    obtain ⟨var₂, hv₂, hvar'⟩ := hc'.trees.decl hv'
    obtain ⟨var₁, hv₁, hvar⟩ := hc.trees.decl hv₂
    rw [hv] at hv₁
    cases hv₁
    have hf₁ := hc.trees.fit.plain.types var (List.mem_of_getElem? hv)
    have hf₂ := hc.trees.fit'.plain.types var₂ (List.mem_of_getElem? hv₂)
    have hf₃ := hc'.trees.fit'.plain.types var' (List.mem_of_getElem? hv')
    obtain ⟨ty₂, hcs₂⟩ :=
      hcs.between hc.trees hc'.trees hcon hvar.ty hvar'.ty hf₁ hf₂ hf₃ hcs'
    have hcov := hcs₂.covers hc'.trees hvar'.ty hf₂ hf₃ hcs'
    have hvoid := hcov.not_void (hcs₂.agreed.flat hc.trees.fit'.plain hf₂)
      (hcs'.agreed.flat hc'.trees.fit'.plain hf₃) hn
    have hlocal : var₂.assignable = true := by
      rw [hvar'.same] at hl
      exact hl
    exact ⟨_, _, Stmt.infer_assign.mpr
      ⟨id, var₂, value, ty₂, hh, hv₂, hlocal, hcs₂, hvoid, rfl, rfl, rfl⟩⟩
  | .branch conds blocks _, _, _, _, _, _, _, _, _, _, _, _, _, hc, hc', hcon, h, h' => by
    obtain ⟨_, _, hcs, hb, _⟩ := Stmt.infer_branch.mp h
    obtain ⟨_, _, hcs', hb', _⟩ := Stmt.infer_branch.mp h'
    obtain ⟨ctx₂', mid', hm⟩ := inferBlocks_between blocks hc hc' hcon hb hb'
    exact ⟨ctx₂', mid', Stmt.infer_branch.mpr ⟨conds, blocks,
      consumed_between hc.trees hc'.trees hcon Ty.prim_bool.flat hcs hcs', hm, rfl⟩⟩
  | .forLoop _ lo hi body _ _, _, _, _, _, _, _, _, _, _, _, _, _, hc, hc', hcon, h, h' => by
    obtain ⟨_, _, _, _, _, hl, hh, hb, _⟩ := Stmt.infer_forLoop.mp h
    obtain ⟨_, _, _, _, _, hl', hh', hb', _⟩ := Stmt.infer_forLoop.mp h'
    obtain ⟨ctx₂', mid', hm⟩ := Block.infer_between body hc hc' hcon hb hb'
    have hint := Ty.prim_int.flat
    obtain ⟨tyLo, hlo⟩ :=
      hl.between hc.trees hc'.trees hcon (.refl _) (.refl _) hint hint hint hl'
    obtain ⟨tyHi, hhi⟩ :=
      hh.between hc.trees hc'.trees hcon (.refl _) (.refl _) hint hint hint hh'
    exact ⟨ctx₂', mid', Stmt.infer_forLoop.mpr ⟨lo, hi, body, tyLo, tyHi, hlo, hhi, hm, rfl⟩⟩
  | .whileLoop cond body _, _, _, _, _, _, _, _, _, _, _, _, _, hc, hc', hcon, h, h' => by
    obtain ⟨_, _, _, hcs, hb, _⟩ := Stmt.infer_whileLoop.mp h
    obtain ⟨_, _, _, hcs', hb', _⟩ := Stmt.infer_whileLoop.mp h'
    obtain ⟨ctx₂', mid', hm⟩ := Block.infer_between body hc hc' hcon hb hb'
    have hbool := Ty.prim_bool.flat
    obtain ⟨ty, hcond⟩ :=
      hcs.between hc.trees hc'.trees hcon (.refl _) (.refl _) hbool hbool hbool hcs'
    exact ⟨ctx₂', mid', Stmt.infer_whileLoop.mpr ⟨cond, body, ty, hcond, hm, rfl⟩⟩
  | .call value, _, _, _, ctx₂, _, _, _, _, mid, _, _, _, hc, hc', hcon, h, h' => by
    obtain ⟨_, _, hcs, _, rfl, rfl⟩ := Stmt.infer_call.mp h
    obtain ⟨_, _, hcs', _, rfl, rfl⟩ := Stmt.infer_call.mp h'
    have hunk := Ty.flat_unknown
    obtain ⟨ty, hval⟩ := hcs.between hc.trees hc'.trees hcon (.refl _) (.refl _) hunk hunk hunk hcs'
    exact ⟨ctx₂, mid, Stmt.infer_call.mpr ⟨value, ty, hval, rfl, rfl, rfl⟩⟩
termination_by structural stmt => stmt
theorem Block.infer_between : ∀ (block : Block) {b b' : Block}
    {ctx₁ ctx₂ ctx₃ ctx₁' ctx₃' : RoutineContext} {tree mid other tree' other' : ScopeTree},
    Covering (ctx₁, tree) (ctx₂, mid) → Covering (ctx₂, mid) (ctx₃, other) → tree.Concord mid →
    block.infer .probe 1 ctx₁ tree = .done (b, ctx₁') tree' →
    block.infer mode 1 ctx₃ other = .done (b', ctx₃') other' →
    ∃ ctx₂' mid', block.infer .probe 1 ctx₂ mid = .done (block, ctx₂') mid'
  | ⟨stmts, none, _, _, _⟩, _, _, _, _, _, _, _, _, _, _, _, _, hc, hc', hcon, h, h' => by
    obtain ⟨_, hs, _⟩ := Block.infer_none.mp h
    obtain ⟨_, hs', _⟩ := Block.infer_none.mp h'
    obtain ⟨ctx₂', mid', hm⟩ := inferStmts_between stmts hc hc' hcon hs hs'
    exact ⟨ctx₂', mid', Block.infer_none.mpr ⟨stmts, hm, rfl⟩⟩
  | ⟨stmts, some ⟨value, _⟩, _, _, _⟩, _, _, ctx₁, ctx₂, _, _, _, _, _, _, _, _, hc, hc', hcon, h,
      h' => by
    obtain ⟨_, _, _, _, hs, hcs, _, rfl⟩ := Block.infer_some.mp h
    obtain ⟨_, _, _, _, hs', hcs', _, rfl⟩ := Block.infer_some.mp h'
    obtain ⟨ctx₂', mid', hm⟩ := inferStmts_between stmts hc hc' hcon hs hs'
    -- The statements leave the three runs in the order they found them in.
    have hc := inferStmts_covers stmts hc hs hm
    have hc' := inferStmts_covers stmts hc' hm hs'
    have hsigs := congrArg ScopeTree.sigs ((inferStmts_delivers stmts ctx₁).kept hs)
    have hsigs' := congrArg ScopeTree.sigs ((inferStmts_delivers stmts ctx₂).kept hm)
    obtain ⟨ty, hval⟩ := hcs.between hc.trees hc'.trees (hcon.of_sigs hsigs hsigs') hc.expected
      hc'.expected (RoutineContext.expected_flat hc.flat) (RoutineContext.expected_flat hc.flat')
      (RoutineContext.expected_flat hc'.flat') hcs'
    exact ⟨_, mid', Block.infer_some.mpr ⟨stmts, ctx₂', value, ty, hm, hval, rfl, rfl⟩⟩
termination_by structural block => block
theorem inferStmts_between : ∀ (stmts : List Stmt) {ss ss' : List Stmt}
    {ctx₁ ctx₂ ctx₃ ctx₁' ctx₃' : RoutineContext} {tree mid other tree' other' : ScopeTree},
    Covering (ctx₁, tree) (ctx₂, mid) → Covering (ctx₂, mid) (ctx₃, other) → tree.Concord mid →
    inferStmts .probe 1 stmts ctx₁ tree = .done (ss, ctx₁') tree' →
    inferStmts mode 1 stmts ctx₃ other = .done (ss', ctx₃') other' →
    ∃ ctx₂' mid', inferStmts .probe 1 stmts ctx₂ mid = .done (stmts, ctx₂') mid'
  | [], _, _, _, ctx₂, _, _, _, _, mid, _, _, _, _, _, _, _, _ =>
    ⟨ctx₂, mid, inferStmts_nil.mpr ⟨rfl, rfl, rfl⟩⟩
  | stmt :: stmts, _, _, ctx₁, ctx₂, _, _, _, _, _, _, _, _, hc, hc', hcon, h, h' => by
    obtain ⟨_, _, _, _, hs, hr, _⟩ := inferStmts_cons.mp h
    obtain ⟨_, _, _, _, hs', hr', _⟩ := inferStmts_cons.mp h'
    obtain ⟨ctx₂', mid', hm⟩ := Stmt.infer_between stmt hc hc' hcon hs hs'
    have hsigs := congrArg ScopeTree.sigs ((stmt.infer_delivers ctx₁).kept hs)
    have hsigs' := congrArg ScopeTree.sigs ((stmt.infer_delivers ctx₂).kept hm)
    obtain ⟨ctx₂'', mid'', hms⟩ := inferStmts_between stmts (Stmt.infer_covers stmt hc hs hm)
      (Stmt.infer_covers stmt hc' hm hs') (hcon.of_sigs hsigs hsigs') hr hr'
    exact ⟨ctx₂'', mid'', inferStmts_cons.mpr ⟨stmt, stmts, ctx₂', mid', hm, hms, rfl⟩⟩
termination_by structural stmts => stmts
theorem inferBlocks_between : ∀ (blocks : List Block) {bs bs' : List Block}
    {ctx₁ ctx₂ ctx₃ ctx₁' ctx₃' : RoutineContext} {tree mid other tree' other' : ScopeTree},
    Covering (ctx₁, tree) (ctx₂, mid) → Covering (ctx₂, mid) (ctx₃, other) → tree.Concord mid →
    inferBlocks .probe 1 blocks ctx₁ tree = .done (bs, ctx₁') tree' →
    inferBlocks mode 1 blocks ctx₃ other = .done (bs', ctx₃') other' →
    ∃ ctx₂' mid', inferBlocks .probe 1 blocks ctx₂ mid = .done (blocks, ctx₂') mid'
  | [], _, _, _, ctx₂, _, _, _, _, mid, _, _, _, _, _, _, _, _ =>
    ⟨ctx₂, mid, inferBlocks_nil.mpr ⟨rfl, rfl, rfl⟩⟩
  | block :: blocks, _, _, ctx₁, ctx₂, _, _, _, _, _, _, _, _, hc, hc', hcon, h, h' => by
    obtain ⟨_, _, _, _, hb, hr, _⟩ := inferBlocks_cons.mp h
    obtain ⟨_, _, _, _, hb', hr', _⟩ := inferBlocks_cons.mp h'
    obtain ⟨ctx₂', mid', hm⟩ := Block.infer_between block hc hc' hcon hb hb'
    have hsigs := congrArg ScopeTree.sigs ((block.infer_delivers ctx₁).kept hb)
    have hsigs' := congrArg ScopeTree.sigs ((block.infer_delivers ctx₂).kept hm)
    obtain ⟨ctx₂'', mid'', hms⟩ := inferBlocks_between blocks (Block.infer_covers block hc hb hm)
      (Block.infer_covers block hc' hm hb') (hcon.of_sigs hsigs hsigs') hr hr'
    exact ⟨ctx₂'', mid'', inferBlocks_cons.mpr ⟨block, blocks, ctx₂', mid', hm, hms, rfl⟩⟩
termination_by structural blocks => blocks
end

end

end ScriptLang
