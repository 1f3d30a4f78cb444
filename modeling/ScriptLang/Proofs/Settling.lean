import ScriptLang.Proofs.Covering

/-!
# Discovery as a sequence of settled types

Whatever the order of its rounds, discovery settles one open return type after the other, each
because a probe of its function tells it. So if it settles everything, it arrives at the one table
of return types that all bodies bear out, and if functions of one name agree on their types, it
cannot get stuck in one order only.
-/

namespace ScriptLang

open Pass ScopeTree

variable {tree : ScopeTree} {round : Nat} {sig : SigId}

variable {fns : List FnDef} {sigs : List SigId} {scope : ScopeId} {all start tree tree' : ScopeTree}

/-! ## Steps -/

/-- A function of the unit with its signature. -/
abbrev Routines := List (FnDef × SigId)

/-- A probe tells the open return type of a function. -/
inductive SettleStep (routines : Routines) : ScopeTree → ScopeTree → Prop where
  | settle {tree tree' : ScopeTree} {fn fn' : FnDef} {sig : SigId} {signature : Signature} {ret : Ty}
      (hm : (fn, sig) ∈ routines) (hs : tree.sigs[sig]? = some signature)
      (ho : signature.ret.isFullyKnown = false)
      (hb : fn.inferBody .probe 1 sig tree = .done (fn', ret) tree')
      (hk : ret.isFullyKnown = true) : SettleStep routines tree (tree.settle sig signature ret)

/-- Any number of steps. -/
abbrev Settles (routines : Routines) : ScopeTree → ScopeTree → Prop :=
  Relation.ReflTransGen (SettleStep routines)

theorem SettleStep.mono {routines routines' : Routines} (h : SettleStep routines tree tree')
    (hsub : routines ⊆ routines') : SettleStep routines' tree tree' := by
  cases h with
  | settle hm hs ho hb hk => exact .settle (hsub hm) hs ho hb hk

theorem Settles.mono {routines routines' : Routines} {tree' : ScopeTree}
    (h : Settles routines tree tree') (hsub : routines ⊆ routines') :
    Settles routines' tree tree' :=
  Relation.ReflTransGen.mono (fun _ _ hs => SettleStep.mono hs hsub) _ _ h

/-! ## Rounds -/

theorem probe_settles {node : ν} {fn : FnDef} {last last' : LastError} {settled : Bool}
    (h : probe node 1 round fn sig last tree = .done (last', settled) tree') :
    Settles [(fn, sig)] tree.resetInferred tree'.resetInferred := by
  obtain ⟨signature, hs, h⟩ := probe_cases h
  rcases h with ⟨_, _, _, rfl⟩ | ⟨_, _, he, _⟩ | ⟨ho, _, _, fn', ret, tree₁, hb, hk, he⟩
  · exact .refl
  · rw [he]
  · rw [he]
    exact .single (.settle List.mem_cons_self hs ho hb hk)

theorem probeRound_settles {node : ν} : ∀ {fns : List FnDef} {sigs : List SigId}
    {lasts lasts' : List LastError} {settled : Bool} {tree tree' : ScopeTree},
    probeRound node 1 round fns sigs lasts tree = .done (lasts', settled) tree' →
    Settles (fns.zip sigs) tree.resetInferred tree'.resetInferred
  | fn :: fns, sig :: sigs, _ :: _, _, _, tree, _, h => by
    simp only [probeRound, bind_eq_done, pure_eq_done, Prod.exists, Prod.mk.injEq] at h
    obtain ⟨last', now, tree₁, hnow, lasts₁, later, _, hlater, ⟨rfl, rfl⟩, rfl⟩ := h
    have hfirst : Settles ((fn, sig) :: fns.zip sigs) tree.resetInferred tree₁.resetInferred :=
      (probe_settles hnow).mono (by simp)
    exact hfirst.trans ((probeRound_settles hlater).mono (List.subset_cons_self _ _))
  | [], _, _, _, _, _, _, h => by
    unfold probeRound at h
    obtain ⟨_, rfl⟩ := pure_eq_done.mp h
    exact .refl
  | _ :: _, [], _, _, _, _, _, h => by
    unfold probeRound at h
    obtain ⟨_, rfl⟩ := pure_eq_done.mp h
    exact .refl
  | _ :: _, _ :: _, [], _, _, _, _, h => by
    unfold probeRound at h
    obtain ⟨_, rfl⟩ := pure_eq_done.mp h
    exact .refl

theorem probeRounds_settles {node : ν} {fuel : Nat} :
    ∀ {round : Nat} {lasts lasts' : List LastError} {tree tree' : ScopeTree},
    probeRounds node 1 fns sigs fuel round lasts tree = .done lasts' tree' →
    Settles (fns.zip sigs) tree.resetInferred tree'.resetInferred := by
  induction fuel with
  | zero =>
    intro round lasts lasts' tree tree' h
    obtain ⟨_, rfl⟩ := pure_eq_done.mp h
    exact .refl
  | succ fuel ih =>
    intro round lasts lasts' tree tree' h
    simp only [probeRounds, bind_eq_done, Prod.exists] at h
    obtain ⟨lasts₁, settled, tree₁, hr, h⟩ := h
    have hround := probeRound_settles hr
    cases settled with
    | false =>
      obtain ⟨_, rfl⟩ := pure_eq_done.mp h
      exact hround
    | true => exact hround.trans (ih h)

theorem discoverReturns_settles {node : ν} {lasts : List LastError}
    (h : discoverReturns node 1 fns sigs tree = .done lasts tree') :
    Settles (fns.zip sigs) tree.resetInferred tree'.resetInferred :=
  probeRounds_settles h

/-! ## No complaint about a known type is left -/

/-- The return type of a signature is known. -/
def ScopeTree.Knows (tree : ScopeTree) (sig : SigId) : Prop :=
  ∃ signature, tree.sigs[sig]? = some signature ∧ signature.ret.isFullyKnown = true

/-- The last probe of a function whose return type is known did not fail. -/
def Quiet (tree : ScopeTree) (sigs : List SigId) (lasts : List LastError) : Prop :=
  List.Forall₂ (fun sig last => tree.Knows sig → last = none) sigs lasts

theorem forall₂_imp_of_mem {r r' : α → β → Prop} {as : List α} {bs : List β}
    (h : List.Forall₂ r as bs) (hr : ∀ a ∈ as, ∀ b, r a b → r' a b) : List.Forall₂ r' as bs := by
  induction h with
  | nil => exact .nil
  | cons hab _ ih =>
    exact .cons (hr _ List.mem_cons_self _ hab)
      (ih fun a ha => hr a (List.mem_cons_of_mem _ ha))

theorem probe_quiet {node : ν} {fn : FnDef} {last last' : LastError} {settled : Bool}
    (hq : tree.Knows sig → last = none)
    (h : probe node scope round fn sig last tree = .done (last', settled) tree') :
    (tree'.Knows sig → last' = none) ∧ ∀ id, id ≠ sig → tree'.sigs[id]? = tree.sigs[id]? := by
  obtain ⟨signature, hs, h⟩ := probe_cases h
  rcases h with ⟨_, rfl, _, rfl⟩ | ⟨ho, _, he, _⟩ | ⟨_, rfl, _, _, ret, _, _, _, he⟩
  · exact ⟨hq, fun _ _ => rfl⟩
  · have hsigs : tree'.sigs = tree.sigs := by
      have hs := congrArg ScopeTree.sigs he
      exact hs
    refine ⟨?_, fun id _ => by rw [hsigs]⟩
    rintro ⟨signature', hs', hk⟩
    rw [hsigs, hs] at hs'
    cases hs'
    rw [ho] at hk
    cases hk
  · have hsigs : tree'.sigs = tree.sigs.set sig { signature with ret } := by
      have hs := congrArg ScopeTree.sigs he
      exact hs
    exact ⟨fun _ => rfl, fun id hid => by rw [hsigs, List.getElem?_set_ne (Ne.symm hid)]⟩

theorem probeRound_quiet {node : ν} {scope : ScopeId} : ∀ {fns : List FnDef}
    {sigs : List SigId} {lasts lasts' : List LastError} {settled : Bool} {tree tree' : ScopeTree},
    sigs.Nodup → Quiet tree sigs lasts →
    probeRound node scope round fns sigs lasts tree = .done (lasts', settled) tree' →
    Quiet tree' sigs lasts' ∧ ∀ id, id ∉ sigs → tree'.sigs[id]? = tree.sigs[id]?
  | _ :: _, sig :: sigs, last :: lasts, _, _, _, _, hn, .cons hq hqs, h => by
    simp only [probeRound, bind_eq_done, pure_eq_done, Prod.exists, Prod.mk.injEq] at h
    obtain ⟨last', now, tree₁, hnow, lasts₁, later, _, hlater, ⟨rfl, rfl⟩, rfl⟩ := h
    obtain ⟨hnot, hn⟩ := List.nodup_cons.mp hn
    obtain ⟨hq', hsame⟩ := probe_quiet hq hnow
    have hqs₁ : Quiet tree₁ sigs lasts := by
      refine forall₂_imp_of_mem hqs ?_
      rintro id hid last hlast ⟨signature, hs, hk⟩
      apply hlast
      refine ⟨signature, ?_, hk⟩
      rw [← hsame id fun he => hnot (he ▸ hid)]
      exact hs
    obtain ⟨hqs', hsame'⟩ := probeRound_quiet hn hqs₁ hlater
    refine ⟨.cons ?_ hqs', ?_⟩
    · rintro ⟨signature, hs, hk⟩
      exact hq' ⟨signature, hsame' sig hnot ▸ hs, hk⟩
    · intro id hid
      rw [List.mem_cons, not_or] at hid
      rw [hsame' id hid.2, hsame id hid.1]
  | [], _, _, _, _, _, _, _, hq, h => by
    unfold probeRound at h
    obtain ⟨he, rfl⟩ := pure_eq_done.mp h
    cases he
    exact ⟨hq, fun _ _ => rfl⟩
  | _ :: _, [], _, _, _, _, _, _, hq, h => by
    unfold probeRound at h
    obtain ⟨he, rfl⟩ := pure_eq_done.mp h
    cases he
    exact ⟨hq, fun _ _ => rfl⟩

theorem probeRounds_quiet {node : ν} (hn : sigs.Nodup) {fuel : Nat} :
    ∀ {round : Nat} {lasts lasts' : List LastError} {tree tree' : ScopeTree}, Quiet tree sigs lasts →
    probeRounds node scope fns sigs fuel round lasts tree = .done lasts' tree' →
    Quiet tree' sigs lasts' := by
  induction fuel with
  | zero =>
    intro round lasts lasts' tree tree' hq h
    obtain ⟨rfl, rfl⟩ := pure_eq_done.mp h
    exact hq
  | succ fuel ih =>
    intro round lasts lasts' tree tree' hq h
    simp only [probeRounds, bind_eq_done, Prod.exists] at h
    obtain ⟨lasts₁, settled, tree₁, hr, h⟩ := h
    have hq₁ := (probeRound_quiet hn hq hr).1
    cases settled with
    | false =>
      obtain ⟨rfl, rfl⟩ := pure_eq_done.mp h
      exact hq₁
    | true => exact ih hq₁ h

theorem discoverReturns_lasts {node : ν} {lasts : List LastError} (hn : sigs.Nodup)
    (hlen : sigs.length = fns.length)
    (h : discoverReturns node scope fns sigs tree = .done lasts tree')
    (hk : ∀ sig ∈ sigs, tree'.Knows sig) : lasts = List.replicate fns.length none := by
  have hstart : Quiet tree sigs (fns.map fun _ => none) := by
    refine List.forall₂_iff_get.mpr ⟨by simpa using hlen, fun i h₁ h₂ _ => ?_⟩
    simp
  have hq := probeRounds_quiet hn hstart h
  rw [List.eq_replicate_iff]
  refine ⟨hq.length_eq.symm.trans hlen, fun last hlast => ?_⟩
  obtain ⟨sig, hs, hnone⟩ := forall₂_mem_right hq hlast
  exact hnone (hk sig hs)

theorem commitOrder_none (n : Nat) : commitOrder (List.replicate n none) = List.range n := by
  have hsnd := List.zipIdx_map_snd 0 (List.replicate n (none : LastError))
  have hnone : ∀ entry ∈ (List.replicate n (none : LastError)).zipIdx, entry.1 = none := by
    intro entry he
    exact List.eq_of_mem_replicate (List.fst_mem_of_mem_zipIdx he)
  have hfirst : (List.replicate n (none : LastError)).zipIdx.filter (·.1.isSome) = [] := by
    rw [List.filter_eq_nil_iff]
    intro entry he
    simp [hnone entry he]
  have hrest : (List.replicate n (none : LastError)).zipIdx.filter (·.1.isNone) =
      (List.replicate n (none : LastError)).zipIdx := by
    rw [List.filter_eq_self]
    intro entry he
    simp [hnone entry he]
  simp only [commitOrder, hfirst, hrest, List.nil_append, hsnd, List.length_replicate,
    List.range_eq_range']

/-! ## What discovery arrives at -/

theorem ScopeTree.Fit.settle (h : tree.Fit) {signature : Signature} {ret : Ty}
    (hs : tree.sigs[sig]? = some signature) (ho : signature.ret.isFullyKnown = false)
    (hp : ret.Prim) : (tree.settle sig signature ret).Fit :=
  ⟨h.rooted, (Refined.settle hs ho hp).plain h.plain⟩

theorem ScopeTree.Covers.settle {other : ScopeTree} (h : tree.Covers other)
    {signature signature' : Signature} {ret : Ty} (hs : tree.sigs[sig]? = some signature)
    (hs' : other.sigs[sig]? = some signature') (ho : signature.ret.isFullyKnown = false)
    (hp : ret.Prim) (hr : signature'.ret = ret) : (tree.settle sig signature ret).Covers other := by
  refine ⟨h.fit.settle hs ho hp, h.fit', ?_, h.decls⟩
  obtain ⟨signature₁, hs₁, hc⟩ := h.sig hs
  rw [hs'] at hs₁
  cases hs₁
  have hboth := forall₂_set (a := { signature with ret }) (b := signature') h.sigs sig
    ⟨by rw [hc.same], by rw [hr]; exact .refl ret⟩
  rw [set_eq_self hs'] at hboth
  exact hboth

/-- The body of a function ends with the return type that its signature shows. -/
def FnDef.Bears (tree : ScopeTree) (fn : FnDef) (sig : SigId) : Prop :=
  ∃ signature body tree', tree.sigs[sig]? = some signature ∧ signature.ret.Prim ∧
    fn.body.infer .probe 1 ⟨signature.ret, fn.span, false⟩ tree =
      .done (body, ⟨signature.ret, fn.span, false⟩) tree'

section

variable {routines : Routines} (hr : ∀ entry ∈ routines, entry.1.Resolved)
  {tree tree' other stuck : ScopeTree}

include hr

theorem SettleStep.told (hfit : tree.Fit) (h : SettleStep routines tree tree') :
    ∃ fn sig signature body ctx tree₁, (fn, sig) ∈ routines ∧ tree.sigs[sig]? = some signature ∧
      signature.ret.isFullyKnown = false ∧
      fn.body.infer .probe 1 ⟨signature.ret, fn.span, false⟩ tree = .done (body, ctx) tree₁ ∧
      ctx.ret.Prim ∧ tree' = tree.settle sig signature ctx.ret := by
  cases h with
  | @settle tree₁ fn fn' sig signature ret hm hs ho hb hk =>
    have hprim := (FnDef.Resolved.flat_inferBody (hr _ hm) hfit.plain hb).prim_of_isFullyKnown hk
    obtain ⟨signature', body, ctx, hs', hbody, _, rfl⟩ := FnDef.inferBody_eq_done.mp hb
    rw [hs] at hs'
    cases hs'
    exact ⟨fn, sig, signature, body, ctx, tree₁, hm, hs, ho, hbody, hprim, rfl⟩

theorem SettleStep.covers (hfit : tree.Fit) (h : SettleStep routines tree tree') :
    tree.Covers tree' := by
  obtain ⟨fn, sig, signature, body, ctx, tree₁, _, hs, ho, _, hprim, rfl⟩ := h.told hr hfit
  refine ⟨hfit, hfit.settle hs ho hprim, ?_, List.forall₂_same.mpr fun _ _ => ⟨rfl, .refl _⟩⟩
  have hunknown : signature.ret = .unknown := by
    rcases hfit.plain.rets signature (List.mem_of_getElem? hs) with hu | hp
    · exact hu
    · rw [hp.isFullyKnown] at ho
      cases ho
  have hrefl : List.Forall₂ Signature.Covers tree.sigs tree.sigs :=
    List.forall₂_same.mpr fun _ _ => ⟨rfl, .refl _⟩
  have hset := forall₂_set (a := signature) (b := { signature with ret := ctx.ret }) hrefl sig
    ⟨rfl, Or.inl hunknown⟩
  rw [set_eq_self hs] at hset
  exact hset

theorem Settles.covers (hfit : tree.Fit) (h : Settles routines tree tree') : tree.Covers tree' := by
  induction h with
  | refl => exact .refl hfit
  | tail _ hstep ih => exact ih.trans (hstep.covers hr ih.fit')

/-- One step keeps below any table of return types that all bodies bear out. -/
theorem SettleStep.forced (hb : ∀ entry ∈ routines, entry.1.Bears other entry.2)
    (hcov : tree.Covers other) (h : SettleStep routines tree tree') : tree'.Covers other := by
  obtain ⟨fn, sig, signature, body, ctx, tree₁, hm, hs, ho, hbody, hprim, rfl⟩ :=
    h.told hr hcov.fit
  obtain ⟨signature', body', tree₁', hs', hprim', hbody'⟩ := hb _ hm
  obtain ⟨signature₁, hs₁, hc⟩ := hcov.sig hs
  rw [hs'] at hs₁
  cases hs₁
  have hstart : Covering (⟨signature.ret, fn.span, false⟩, tree)
      (⟨signature'.ret, fn.span, false⟩, other) :=
    ⟨hcov, rfl, hcov.fit.plain.rets signature (List.mem_of_getElem? hs), hprim'.flat, hc.ret⟩
  have hend := Block.infer_covers fn.body hstart hbody hbody'
  exact hcov.settle hs hs' ho hprim (hend.ret.eq_of_prim hprim hprim'.flat)

theorem Settles.forced (hb : ∀ entry ∈ routines, entry.1.Bears other entry.2)
    (hcov : tree.Covers other) (h : Settles routines tree tree') : tree'.Covers other := by
  induction h with
  | refl => exact hcov
  | tail _ hstep ih => exact hstep.forced hr hb ih

/-! ## The order of steps -/

omit hr in
theorem ScopeTree.Concord.between (h : start.Concord all) (hcov : start.Covers tree)
    (hcov' : other.Covers all) : tree.Concord other := by
  intro name hunknown a ha b hb hpa hpb
  have hstart : ∃ sig ∈ start.visible name, sig.ret = .unknown := by
    obtain ⟨sig, hs, hu⟩ := hunknown
    obtain ⟨sig', hs', hc⟩ := forall₂_mem_right (hcov.visible name) hs
    have hret := hc.ret
    rw [hu] at hret
    exact ⟨sig', hs', hret.eq_unknown (hcov.fit.plain.rets sig' (mem_visible hs').1).shallow⟩
  have hend : ∀ sig ∈ other.visible name, sig.ret.Prim →
      ∃ sig' ∈ all.visible name, sig'.ret = sig.ret := by
    intro sig hs hp
    obtain ⟨sig', hs', hc⟩ := forall₂_mem_right (hcov'.visible name).flip hs
    exact ⟨sig', hs', hc.ret.eq_of_prim hp (hcov'.fit'.plain.rets sig' (mem_visible hs').1)⟩
  obtain ⟨a', ha', hea⟩ := hend a ha hpa
  obtain ⟨b', hb', heb⟩ := hend b hb hpb
  rw [← hea, ← heb]
  exact h name hstart a' ha' b' hb' (hea ▸ hpa) (heb ▸ hpb)

end

end ScriptLang
