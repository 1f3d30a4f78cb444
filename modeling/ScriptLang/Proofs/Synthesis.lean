import ScriptLang.Proofs.Resolution
import ScriptLang.Proofs.TypeOrder
import ScriptLang.Check.Synthesis

/-!
# Types from the bottom up

The type an expression is found to have, when nothing but basic and unknown types is in play: it is
again of that kind, or a set of candidates. As soon as all signatures and all variables in sight are
known, there is exactly one candidate at every call and the type is a known one.
-/

set_option linter.unusedSectionVars false

namespace ScriptLang

open ScopeTree

variable {sigs : List Signature} {args : List Ty} {scope : ScopeId} {tree : ScopeTree}
  {sig : Signature} {name : String} {ty : Ty}

/-! ## Candidates -/

theorem ScopeTree.candidates_eq_ok (h : tree.candidates scope name args = .ok sigs)
    (hne : sigs ≠ []) :
    ∃ found, tree.NearestOverloads name scope found ∧
      sigs = found.filter fun sig => (Ty.unifyAll sig.params args).isSome := by
  simp only [candidates, bind_eq_ok, mapError_eq_ok, pure_eq_ok] at h
  obtain ⟨found, hf, rfl⟩ := h
  refine ⟨found.map (·.1), nearestOverloads_of_lookup hf ?_, rfl⟩
  rintro rfl
  exact hne rfl

theorem ScopeTree.NearestOverloads.subset {found : List Signature}
    (h : tree.NearestOverloads name scope found) (hs : sig ∈ found) : sig ∈ tree.sigs := by
  obtain ⟨_, rfl, _⟩ := h.exists_scope
  exact (mem_overloads.mp hs).1

theorem ScopeTree.mem_sigs_of_candidates (h : tree.candidates scope name args = .ok sigs)
    (hs : sig ∈ sigs) : sig ∈ tree.sigs := by
  obtain ⟨found, hf, rfl⟩ := candidates_eq_ok h (List.ne_nil_of_mem hs)
  exact hf.subset (List.mem_filter.mp hs).1

theorem Expr.synth_call {args : List Expr} {span : Span} {slot : TypeSlot}
    (h : (Expr.call name args span slot).synth tree scope = .ok ty) :
    ∃ found sigs, synthAll tree scope args = .ok found ∧
      tree.candidates scope name found = .ok sigs ∧ sigs ≠ [] ∧ ty = returnType sigs := by
  simp only [Expr.synth, bind_eq_ok] at h
  obtain ⟨found, hf, sigs, hs, h⟩ := h
  cases sigs with
  | nil => cases h
  | cons sig sigs => exact ⟨found, sig :: sigs, hf, hs, by simp, (pure_eq_ok.mp h).symm⟩

theorem synthAll_cons {expr : Expr} {exprs : List Expr} {tys : List Ty}
    (h : synthAll tree scope (expr :: exprs) = .ok tys) :
    ∃ ty rest, expr.synth tree scope = .ok ty ∧ synthAll tree scope exprs = .ok rest ∧
      tys = ty :: rest := by
  simp only [synthAll, bind_eq_ok, pure_eq_ok] at h
  obtain ⟨ty, ht, rest, hr, rfl⟩ := h
  exact ⟨ty, rest, ht, hr, rfl⟩

theorem Expr.synth_var {handle : Option DeclId} {span : Span} {slot : TypeSlot}
    (h : (Expr.var name handle span slot).synth tree scope = .ok ty) :
    ∃ id var, handle = some id ∧ tree.decls[id]? = some var ∧ ty = var.ty := by
  simp only [Expr.synth, bind_eq_ok, demand_eq_ok, declaration_eq_ok, pure_eq_ok] at h
  obtain ⟨id, hh, var, hv, rfl⟩ := h
  exact ⟨id, var, hh, hv, rfl⟩

/-! ## Only the variables mentioned matter -/

mutual
theorem Expr.synth_agree {on : DeclId → Prop} {tree tree' : ScopeTree} (h : tree.Agree on tree')
    (scope : ScopeId) : ∀ expr : Expr, expr.Within on →
    expr.synth tree scope = expr.synth tree' scope
  | .lit .., _ => rfl
  | .var _ handle _ _, hw => by
    cases handle with
    | none => rfl
    | some id =>
      have hd := h.types id (hw id rfl)
      simp only [Expr.synth, demand, ScopeTree.declaration, var?, bind, Except.bind, hd]
  | .call _ args _ _, hw => by
    simp only [Expr.synth, candidates, synthAll_agree h scope args hw, h.lookupOverloads]
theorem synthAll_agree {on : DeclId → Prop} {tree tree' : ScopeTree} (h : tree.Agree on tree')
    (scope : ScopeId) : ∀ exprs : List Expr, AllWithin on exprs →
    synthAll tree scope exprs = synthAll tree' scope exprs
  | [], _ => rfl
  | expr :: exprs, hw => by
    simp only [synthAll, Expr.synth_agree h scope expr hw.1, synthAll_agree h scope exprs hw.2]
end

/-! ## Basic and unknown types -/

/-- No type in the tree is anything but basic or unknown, and what a declaration fixes stays. -/
structure ScopeTree.Plain (tree : ScopeTree) : Prop where
  params : ∀ sig ∈ tree.sigs, ∀ ty ∈ sig.params, ty.Prim
  rets : ∀ sig ∈ tree.sigs, sig.ret.Flat
  declared : ∀ var ∈ tree.decls, var.declared.Flat
  types : ∀ var ∈ tree.decls, var.ty.Flat
  fixed : ∀ var ∈ tree.decls, var.declared.Prim → var.ty = var.declared

theorem Literal.prim_ty (value : Literal) : value.ty.Prim := by
  cases value <;> simp [Literal.ty]

/-- The unknown type, a basic one, or a set of at least two basic ones. -/
def Ty.Transient (t : Ty) : Prop :=
  t.Flat ∨ ∃ alts, t = .variant alts ∧ 2 ≤ alts.length ∧ alts.Nodup ∧ ∀ a ∈ alts, a.Prim

theorem Ty.Transient.flat (h : ty.Transient) (hv : ty.isVariant = false) : ty.Flat := by
  rcases h with h | ⟨_, rfl, _⟩
  · exact h
  · cases hv

theorem Ty.Transient.unify {expected found : Ty} (h : found.Transient) (hx : expected.Flat)
    (hty : expected.unify found = some ty) : ty.Transient := by
  rcases hx with rfl | hx
  · rw [Ty.unify_unknown_left] at hty
    exact Option.some.inj hty ▸ h
  · rw [hx.unify_eq_some hty]
    exact Or.inl hx.flat

theorem Ty.oneOf?_transient {ts : List Ty} (h : ∀ t ∈ ts, t.Prim) :
    ((oneOf? ts).getD .unknown).Transient := by
  have hsorted : ∀ t ∈ sortDistinct ts, t.Prim := fun t ht => h t (mem_sortDistinct.mp ht)
  have hnodup : (sortDistinct ts).Nodup :=
    (increasing_sortDistinct ts).imp fun hlt he => (he ▸ hlt).asymm (he ▸ hlt)
  rw [oneOf?, flatMap_plain fun t ht => (h t ht).flat.isVariant]
  split
  · exact Or.inl Ty.flat_unknown
  · rename_i t ht
    rw [ht] at hsorted
    exact Or.inl (hsorted t List.mem_cons_self).flat
  · rename_i hnil hone
    refine Or.inr ⟨sortDistinct ts, rfl, ?_, hnodup, hsorted⟩
    cases hts : sortDistinct ts with
    | nil => exact (hnil hts).elim
    | cons t rest =>
      cases rest with
      | nil => exact (hone t hts).elim
      | cons => simp

theorem returnType_transient (hf : ∀ sig ∈ sigs, sig.ret.Flat) : (returnType sigs).Transient := by
  simp only [returnType]
  split
  · exact Or.inl Ty.flat_unknown
  · rename_i hu
    refine Ty.oneOf?_transient fun ty hm => ?_
    obtain ⟨sig, hs, rfl⟩ := List.mem_map.mp hm
    rcases hf sig hs with he | hp
    · refine (hu (List.any_eq_true.mpr ⟨sig.ret, hm, ?_⟩)).elim
      rw [he]
      rfl
    · exact hp

theorem Expr.synth_transient (hp : tree.Plain) {expr : Expr}
    (hs : expr.synth tree scope = .ok ty) : ty.Transient := by
  cases expr with
  | lit value span slot =>
    simp only [Expr.synth, Except.ok.injEq] at hs
    exact Or.inl (hs ▸ value.prim_ty.flat)
  | var name handle span slot =>
    obtain ⟨id, var, _, hv, rfl⟩ := Expr.synth_var hs
    exact Or.inl (hp.types var (List.mem_of_getElem? hv))
  | call name args span slot =>
    obtain ⟨found, sigs, _, hc, _, rfl⟩ := Expr.synth_call hs
    exact returnType_transient fun sig hm => hp.rets sig (mem_sigs_of_candidates hc hm)

/-! ## Known types -/

/-- All signatures are known, and the overloads of a scope are told apart by their parameters. -/
structure ScopeTree.Settled (tree : ScopeTree) : Prop where
  params : ∀ sig ∈ tree.sigs, ∀ ty ∈ sig.params, ty.Prim
  rets : ∀ sig ∈ tree.sigs, sig.ret.Prim
  unambiguous : tree.Unambiguous

/-- The variables in sight have known types. -/
def ScopeTree.EnvTyped (tree : ScopeTree) (env : Env) : Prop :=
  ∀ entry ∈ env, ∃ var, tree.decls[entry.2]? = some var ∧ var.name = entry.1 ∧ var.ty.Prim

theorem pairwise_filter_le_one {r : α → α → Prop} {p : α → Bool} {xs : List α}
    (h : xs.Pairwise fun a b => ¬ r a b) (hr : ∀ a b, p a = true → p b = true → r a b) :
    xs.filter p = [] ∨ ∃ a, xs.filter p = [a] := by
  have hf := h.filter p
  have hp : ∀ a ∈ xs.filter p, p a = true := fun a ha => (List.mem_filter.mp ha).2
  generalize xs.filter p = ys at hf hp
  match ys, hf, hp with
  | [], _, _ => exact Or.inl rfl
  | [a], _, _ => exact Or.inr ⟨a, rfl⟩
  | a :: b :: _, hf, hp =>
    have hab := (List.pairwise_cons.mp hf).1 b (by simp)
    exact (hab (hr a b (hp a (by simp)) (hp b (by simp)))).elim

/-- Arguments of known types leave one candidate: the overload with these parameters. -/
theorem ScopeTree.Unambiguous.candidates (hu : tree.Unambiguous)
    (hp : ∀ sig ∈ tree.sigs, ∀ ty ∈ sig.params, ty.Prim) (ha : ∀ ty ∈ args, ty.Prim)
    (hc : tree.candidates scope name args = .ok sigs) (hne : sigs ≠ []) :
    ∃ found sig, tree.NearestOverloads name scope found ∧
      found.filter (fun sig => sig.params = args) = [sig] ∧ sigs = [sig] := by
  obtain ⟨found, hf, rfl⟩ := candidates_eq_ok hc hne
  have he : (found.filter fun sig => (Ty.unifyAll sig.params args).isSome) =
      found.filter fun sig => sig.params = args := by
    apply List.filter_congr
    intro sig hs
    rw [Bool.eq_iff_iff, Ty.unifyAll_prim (hp sig (hf.subset hs)) ha]
    simp
  rw [he] at hne ⊢
  obtain ⟨inner, rfl, _⟩ := hf.exists_scope
  have hu : (tree.overloads inner name).Pairwise fun a b =>
      ¬ (a.scope = b.scope ∧ a.name = b.name ∧ a.params = b.params) := hu.filter _
  have hu' : (tree.overloads inner name).Pairwise fun a b => ¬ (a.params = b.params) := by
    refine hu.imp_of_mem ?_
    intro a b hma hmb hab hp
    obtain ⟨_, hsa, hna⟩ := mem_overloads.mp hma
    obtain ⟨_, hsb, hnb⟩ := mem_overloads.mp hmb
    exact hab ⟨hsa.trans hsb.symm, hna.trans hnb.symm, hp⟩
  rcases pairwise_filter_le_one (p := fun sig => sig.params = args) hu' (by
    intro a b hpa hpb
    simp only [decide_eq_true_eq] at hpa hpb
    rw [hpa, hpb]) with hnil | ⟨sig, hsig⟩
  · exact (hne hnil).elim
  · exact ⟨_, sig, hf, hsig, hsig⟩

theorem ScopeTree.Settled.candidates {tree : ScopeTree} (h : tree.Settled) {scope : ScopeId}
    {name : String} {args : List Ty} {sigs : List Signature} (ha : ∀ ty ∈ args, ty.Prim)
    (hc : tree.candidates scope name args = .ok sigs) (hne : sigs ≠ []) :
    ∃ found sig, tree.NearestOverloads name scope found ∧
      found.filter (fun sig => sig.params = args) = [sig] ∧ sigs = [sig] :=
  h.unambiguous.candidates h.params ha hc hne

theorem returnType_singleton (h : sig.ret.Prim) : returnType [sig] = sig.ret := by
  obtain ⟨name, hn⟩ := h.basic
  have ho : Ty.oneOf? [.basic name] = some (.basic name) := Ty.oneOf?_replicate rfl 0
  simp [returnType, hn, Ty.isUnknown, ho]

mutual
/-- Every call in the expression has exactly one candidate. -/
def Expr.Pinned (tree : ScopeTree) (scope : ScopeId) : Expr → Prop
  | .lit .. => True
  | .var .. => True
  | .call name args _ _ =>
    AllPinned tree scope args ∧
      ∃ found sig, synthAll tree scope args = .ok found ∧
        tree.candidates scope name found = .ok [sig]
def AllPinned (tree : ScopeTree) (scope : ScopeId) : List Expr → Prop
  | [] => True
  | expr :: exprs => expr.Pinned tree scope ∧ AllPinned tree scope exprs
end

mutual
/-- Some call in the expression may reach a function whose return type is unknown. -/
def Expr.ReachesOpen (tree : ScopeTree) (scope : ScopeId) : Expr → Prop
  | .lit .. => False
  | .var .. => False
  | .call name args _ _ =>
    AnyReachesOpen tree scope args ∨
      ∃ found sigs, synthAll tree scope args = .ok found ∧
        tree.candidates scope name found = .ok sigs ∧ ∃ sig ∈ sigs, sig.ret = .unknown
def AnyReachesOpen (tree : ScopeTree) (scope : ScopeId) : List Expr → Prop
  | [] => False
  | expr :: exprs => expr.ReachesOpen tree scope ∨ AnyReachesOpen tree scope exprs
end

section

variable {tree : ScopeTree} {scope : Nat} {env : Env}

section

variable (hp : ∀ sig ∈ tree.sigs, ∀ ty ∈ sig.params, ty.Prim) (hr : ∀ sig ∈ tree.sigs, sig.ret.Flat)
  (hu : tree.Unambiguous) (he : tree.EnvTyped env)

include hp hr hu he

mutual
/-- With known variables in sight, an open function is all that keeps a type from being known and a
call from having one candidate. -/
theorem Expr.synth_prim_or_open :
    ∀ (expr : Expr) {ty : Ty}, expr.Resolved env → expr.synth tree scope = .ok ty →
    ty.Prim ∧ expr.Pinned tree scope ∨ expr.ReachesOpen tree scope
  | .lit value _ _, _, _, hs => by
    simp only [Expr.synth, Except.ok.injEq] at hs
    exact Or.inl ⟨hs ▸ value.prim_ty, trivial⟩
  | .var .., _, ⟨id, hh, hl⟩, hs => by
    obtain ⟨id', var, hh', hv, rfl⟩ := Expr.synth_var hs
    obtain rfl : id = id' := by simpa [hh] using hh'
    obtain ⟨var', hv', _, hprim⟩ := he _ (Env.mem_of_lookup hl)
    rw [hv] at hv'
    exact Or.inl ⟨Option.some.inj hv' ▸ hprim, trivial⟩
  | .call _ args _ _, _, hres, hs => by
    obtain ⟨found, sigs, hf, hc, hne, rfl⟩ := Expr.synth_call hs
    rcases synthAll_prim_or_open args hres hf with ⟨hargs, hpinned⟩ | hopen
    · obtain ⟨_, sig, _, _, rfl⟩ := hu.candidates hp hargs hc hne
      rcases hr sig (mem_sigs_of_candidates hc List.mem_cons_self) with hret | hret
      · exact Or.inr (Or.inr ⟨found, [sig], hf, hc, sig, List.mem_cons_self, hret⟩)
      · rw [returnType_singleton hret]
        exact Or.inl ⟨hret, hpinned, found, sig, hf, hc⟩
    · exact Or.inr (Or.inl hopen)
theorem synthAll_prim_or_open : ∀ (exprs : List Expr) {tys : List Ty}, AllResolved env exprs →
    synthAll tree scope exprs = .ok tys →
    (∀ ty ∈ tys, ty.Prim) ∧ AllPinned tree scope exprs ∨ AnyReachesOpen tree scope exprs
  | [], _, _, hs => by
    simp only [synthAll, Except.ok.injEq] at hs
    subst hs
    exact Or.inl ⟨List.forall_mem_nil _, trivial⟩
  | expr :: exprs, _, hres, hs => by
    obtain ⟨ty, rest, ht, hts, rfl⟩ := synthAll_cons hs
    rcases Expr.synth_prim_or_open expr hres.1 ht with ⟨hty, hpinned⟩ | hopen
    · rcases synthAll_prim_or_open exprs hres.2 hts with ⟨htys, hrest⟩ | hopen
      · exact Or.inl ⟨List.forall_mem_cons.mpr ⟨hty, htys⟩, hpinned, hrest⟩
      · exact Or.inr (Or.inr hopen)
    · exact Or.inr (Or.inl hopen)
end

end

mutual
theorem Expr.not_reachesOpen (h : tree.Settled) : ∀ expr : Expr, ¬ expr.ReachesOpen tree scope
  | .lit .., hopen => hopen
  | .var .., hopen => hopen
  | .call _ args _ _, hopen => by
    rcases hopen with hopen | ⟨_, _, _, hc, sig, hs, hret⟩
    · exact not_anyReachesOpen h args hopen
    · exact absurd (hret ▸ h.rets sig (mem_sigs_of_candidates hc hs)) (by decide)
theorem not_anyReachesOpen (h : tree.Settled) :
    ∀ exprs : List Expr, ¬ AnyReachesOpen tree scope exprs
  | [], hopen => hopen
  | expr :: exprs, hopen =>
    hopen.elim (Expr.not_reachesOpen h expr) (not_anyReachesOpen h exprs)
end

theorem Expr.synth_prim (h : tree.Settled) (he : tree.EnvTyped env) (expr : Expr) {ty : Ty}
    (hr : expr.Resolved env) (hs : expr.synth tree scope = .ok ty) :
    ty.Prim ∧ expr.Pinned tree scope :=
  (Expr.synth_prim_or_open h.params (fun sig hm => (h.rets sig hm).flat) h.unambiguous he expr hr
    hs).resolve_right (Expr.not_reachesOpen h expr)

theorem synthAll_prim (h : tree.Settled) (he : tree.EnvTyped env) (exprs : List Expr)
    {tys : List Ty} (hr : AllResolved env exprs) (hs : synthAll tree scope exprs = .ok tys) :
    ∀ ty ∈ tys, ty.Prim :=
  ((synthAll_prim_or_open h.params (fun sig hm => (h.rets sig hm).flat) h.unambiguous he exprs hr
    hs).resolve_right (not_anyReachesOpen h exprs)).1

end

end ScriptLang
