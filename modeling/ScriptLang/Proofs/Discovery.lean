import ScriptLang.Check.Discovery
import ScriptLang.Proofs.InferenceSteps

/-!
# What discovery settles

Discovery settles open return types and changes nothing else but the types of variables, which the
next reset forgets. It ends with a round that settles nothing: from then on every function has a
known return type, or is one that no probe can tell the return type of.
-/

namespace ScriptLang

open Pass ScopeTree

variable {sig' : Signature} {id : SigId} {round : Nat}

variable {fn : FnDef} {mode : Mode} {tree tree' : ScopeTree} {ret : Ty}

/-! ## Refined signatures -/

/-- The same signature, its return type settled if it was open. -/
def Signature.Refined (sig sig' : Signature) : Prop :=
  sig' = { sig with ret := sig'.ret } ∧
    (sig'.ret = sig.ret ∨ sig.ret.isFullyKnown = false ∧ sig'.ret.Prim)

/-- The same scope tree, with some open return types settled. -/
structure ScopeTree.Refined (tree tree' : ScopeTree) : Prop where
  parents : tree'.parents = tree.parents
  decls : tree'.decls = tree.decls
  sigs : List.Forall₂ Signature.Refined tree.sigs tree'.sigs

namespace Signature.Refined

theorem refl (sig : Signature) : sig.Refined sig :=
  ⟨rfl, Or.inl rfl⟩

theorem trans {sig sig'' : Signature} (h : sig.Refined sig') (k : sig'.Refined sig'') :
    sig.Refined sig'' := by
  refine ⟨k.1.trans (by rw [h.1]), ?_⟩
  rcases k.2 with hk | ⟨ho, hp⟩
  · rw [hk]
    exact h.2
  · rcases h.2 with hh | ⟨_, hp'⟩
    · exact Or.inr ⟨hh ▸ ho, hp⟩
    · rw [hp'.isFullyKnown] at ho
      cases ho

theorem params {sig : Signature} (h : sig.Refined sig') : sig'.params = sig.params := by
  rw [h.1]

theorem scope {sig : Signature} (h : sig.Refined sig') : sig'.scope = sig.scope := by
  rw [h.1]

theorem name {sig : Signature} (h : sig.Refined sig') : sig'.name = sig.name := by
  rw [h.1]

theorem flat {sig : Signature} (h : sig.Refined sig') (hf : sig.ret.Flat) : sig'.ret.Flat := by
  rcases h.2 with hr | ⟨_, hp⟩
  · exact hr ▸ hf
  · exact hp.flat

end Signature.Refined

/-- How many return types are open. -/
def ScopeTree.openCount (tree : ScopeTree) : Nat :=
  tree.sigs.countP fun sig => !sig.ret.isFullyKnown

namespace ScopeTree.Refined

variable {tree tree' tree'' : ScopeTree}

theorem refl (tree : ScopeTree) : tree.Refined tree :=
  ⟨rfl, rfl, List.forall₂_same.mpr fun sig _ => .refl sig⟩

private theorem forall₂_trans : ∀ {as bs cs : List Signature},
    List.Forall₂ Signature.Refined as bs → List.Forall₂ Signature.Refined bs cs →
    List.Forall₂ Signature.Refined as cs
  | _, _, _, .nil, .nil => .nil
  | _, _, _, .cons h hs, .cons k ks => .cons (h.trans k) (forall₂_trans hs ks)

theorem trans (h : tree.Refined tree') (k : tree'.Refined tree'') : tree.Refined tree'' :=
  ⟨k.parents.trans h.parents, k.decls.trans h.decls, forall₂_trans h.sigs k.sigs⟩

private theorem forall₂_set {sig : Signature} {ret : Ty} (ho : sig.ret.isFullyKnown = false)
    (hp : ret.Prim) : ∀ {sigs : List Signature} {id : Nat}, sigs[id]? = some sig →
    List.Forall₂ Signature.Refined sigs (sigs.set id { sig with ret })
  | [], _, h => by simp at h
  | _ :: _, 0, h => by
    simp only [List.getElem?_cons_zero, Option.some.injEq] at h
    subst h
    exact .cons ⟨rfl, Or.inr ⟨ho, hp⟩⟩ (List.forall₂_same.mpr fun sig _ => .refl sig)
  | head :: _, id + 1, h => by
    simp only [List.getElem?_cons_succ] at h
    exact .cons (.refl head) (forall₂_set ho hp h)

theorem settle {sig : Signature} {ret : Ty} (hs : tree.sigs[id]? = some sig)
    (ho : sig.ret.isFullyKnown = false) (hp : ret.Prim) : tree.Refined (tree.settle id sig ret) :=
  ⟨rfl, rfl, forall₂_set ho hp hs⟩

theorem sig (h : tree.Refined tree') {sig : Signature} (hs : tree.sigs[id]? = some sig) :
    ∃ sig', tree'.sigs[id]? = some sig' ∧ sig.Refined sig' := by
  obtain ⟨hlt, he⟩ := List.getElem?_eq_some_iff.mp hs
  have hlt' : id < tree'.sigs.length := h.sigs.length_eq ▸ hlt
  refine ⟨tree'.sigs[id], List.getElem?_eq_getElem hlt', ?_⟩
  rw [← he]
  exact h.sigs.get hlt hlt'

theorem mem (h : tree.Refined tree') (hs : sig' ∈ tree'.sigs) :
    ∃ sig ∈ tree.sigs, sig.Refined sig' := by
  obtain ⟨id, hlt, he⟩ := List.getElem_of_mem hs
  have hlt' : id < tree.sigs.length := h.sigs.length_eq ▸ hlt
  refine ⟨tree.sigs[id], List.getElem_mem hlt', ?_⟩
  rw [← he]
  exact h.sigs.get hlt' hlt

theorem plain (h : tree.Refined tree') (hp : tree.Plain) : tree'.Plain := by
  refine ⟨?_, ?_, h.decls ▸ hp.declared, h.decls ▸ hp.types, h.decls ▸ hp.fixed⟩
  · intro sig' hs
    obtain ⟨sig, hm, hr⟩ := h.mem hs
    exact hr.params ▸ hp.params sig hm
  · intro sig' hs
    obtain ⟨sig, hm, hr⟩ := h.mem hs
    exact hr.flat (hp.rets sig hm)

private theorem pairwise_of_forall₂ : ∀ {as bs : List Signature},
    List.Forall₂ Signature.Refined as bs →
    as.Pairwise (fun a b => ¬ (a.scope = b.scope ∧ a.name = b.name ∧ a.params = b.params)) →
    bs.Pairwise fun a b => ¬ (a.scope = b.scope ∧ a.name = b.name ∧ a.params = b.params)
  | _, _, .nil, _ => .nil
  | _, _, .cons h hs, hp => by
    obtain ⟨ha, hp⟩ := List.pairwise_cons.mp hp
    refine List.pairwise_cons.mpr ⟨?_, pairwise_of_forall₂ hs hp⟩
    intro b' hb'
    obtain ⟨i, hlt, he⟩ := List.getElem_of_mem hb'
    have hlt' := hs.length_eq ▸ hlt
    have hr := hs.get hlt' hlt
    simp only [List.get_eq_getElem, he] at hr
    rw [h.scope, h.name, h.params, hr.scope, hr.name, hr.params]
    exact ha _ (List.getElem_mem hlt')

theorem unambiguous (h : tree.Refined tree') (hu : tree.Unambiguous) : tree'.Unambiguous :=
  pairwise_of_forall₂ h.sigs hu

end ScopeTree.Refined

theorem ScopeTree.openCount_settle {sig : Signature} (hs : tree.sigs[id]? = some sig)
    (ho : sig.ret.isFullyKnown = false) (hp : ret.Prim) :
    (tree.settle id sig ret).openCount < tree.openCount := by
  obtain ⟨hlt, he⟩ := List.getElem?_eq_some_iff.mp hs
  have hpos : 0 < tree.openCount := by
    refine List.countP_pos_iff.mpr ⟨sig, List.mem_of_getElem? hs, ?_⟩
    simp [ho]
  unfold openCount at hpos ⊢
  rw [settle, List.countP_set hlt]
  simp only [he, ho, hp.isFullyKnown, Bool.not_false, Bool.not_true, if_true]
  simp only [Bool.false_eq_true, if_false]
  omega

theorem ScopeTree.Refined.openCount_le (h : tree.Refined tree') :
    tree'.openCount ≤ tree.openCount := by
  unfold openCount
  have hs := h.sigs
  generalize tree.sigs = sigs, tree'.sigs = sigs' at hs
  induction hs with
  | nil => exact Nat.le_refl 0
  | @cons sig sig' _ _ hr _ ih =>
    simp only [List.countP_cons]
    have ho : (if (!sig'.ret.isFullyKnown) = true then 1 else 0) ≤
        if (!sig.ret.isFullyKnown) = true then 1 else 0 := by
      rcases hr.2 with hr | ⟨ho, hp⟩
      · exact Nat.le_of_eq (by rw [hr])
      · simp [ho, hp.isFullyKnown]
    omega

/-! ## Bodies of functions -/

theorem FnDef.inferBody_eq_done {scope : ScopeId} {fn' : FnDef} {sig : SigId} :
    fn.inferBody mode scope sig tree = .done (fn', ret) tree' ↔
      ∃ signature body' ctx', tree.sigs[sig]? = some signature ∧
        fn.body.infer mode scope ⟨signature.ret, fn.span, false⟩ tree =
          .done (body', ctx') tree' ∧
        fn' = { fn with body := body' } ∧ ret = ctx'.ret := by
  simp only [FnDef.inferBody, bind_eq_done, scopes_eq_done, ofExcept_eq_done, mapError_eq_ok,
    signature_eq_ok, within_eq_done, pure_eq_done, Prod.exists, Prod.mk.injEq]
  constructor
  · rintro ⟨_, _, ⟨rfl, rfl⟩, signature, _, ⟨hs, rfl⟩, body', ctx', _, hb, ⟨rfl, rfl⟩, rfl⟩
    exact ⟨signature, body', ctx', hs, hb, rfl, rfl⟩
  · rintro ⟨signature, body', ctx', hs, hb, rfl, rfl⟩
    exact ⟨tree, tree, ⟨rfl, rfl⟩, signature, tree, ⟨hs, rfl⟩, body', ctx', tree', hb, ⟨rfl, rfl⟩,
      rfl⟩

theorem FnDef.inferBody_delivers {scope : ScopeId} (fn : FnDef) (sig : SigId) :
    Delivers resetInferred Prod.fst (SlotsOnly FnDef.clear fn)
      (fn.inferBody mode scope sig : Pass ScopeTree FnDef (FnDef × Ty)) := by
  have hrebuild : ∀ body, SlotsOnly Block.clear fn.body body →
      SlotsOnly FnDef.clear fn { fn with body } := by
    intro body h
    simp only [SlotsOnly] at h
    simp [SlotsOnly, FnDef.clear, h]
  exact .scopes fun _ => .ofExcept (.refl _) fun _ => .within (fn.body.infer_delivers _) hrebuild
    fun out h => .pure (hrebuild out.1 h)

theorem FnDef.Resolved.within_true (h : fn.Resolved) : fn.body.Within fun _ => True :=
  (Block.Resolved.within fn.body (fun _ _ => trivial) (fun _ _ _ _ => trivial) h).1

theorem FnDef.Resolved.flat_inferBody {scope : ScopeId} {fn' : FnDef} {sig : SigId}
    (h : fn.Resolved) (hp : tree.Plain)
    (hi : fn.inferBody mode scope sig tree = .done (fn', ret) tree') : ret.Flat := by
  obtain ⟨signature, body', ctx', hs, hb, _, rfl⟩ := FnDef.inferBody_eq_done.mp hi
  have hst := Block.infer_steps fn.body h.within_true hb
  exact (hst.plain hp (hp.rets signature (List.mem_of_getElem? hs))).2

/-- No probe of the function tells its return type. -/
def FnDef.Stuck (scope : ScopeId) (tree : ScopeTree) (fn : FnDef) (sig : SigId) : Prop :=
  ∀ fn' ret tree', fn.inferBody .probe scope sig tree = .done (fn', ret) tree' →
    ret.isFullyKnown = false

/-- Discovery has nothing left to do for the function. -/
def FnDef.Explored (scope : ScopeId) (tree : ScopeTree) (fn : FnDef) (sig : SigId) : Prop :=
  ∃ signature, tree.sigs[sig]? = some signature ∧
    (signature.ret.isFullyKnown = true ∨ fn.Stuck scope tree sig)

/-! ## Probes -/

theorem resetInferred_idem (tree : ScopeTree) :
    tree.resetInferred.resetInferred = tree.resetInferred := by
  simp [resetInferred]

theorem resetInferred_settle (tree : ScopeTree) (id : SigId) (sig : Signature) (ret : Ty) :
    (tree.settle id sig ret).resetInferred = tree.resetInferred.settle id sig ret := rfl

theorem resetHere_eq_done {ν : Type} {u : Unit} :
    (resetHere : Pass ScopeTree ν Unit) tree = .done u tree' ↔ tree' = tree.resetInferred := by
  simp only [resetHere, bind_eq_done, scopes_eq_done, setScopes_eq_done]
  constructor
  · rintro ⟨_, _, ⟨rfl, rfl⟩, rfl⟩
    rfl
  · rintro rfl
    exact ⟨tree, tree, ⟨rfl, rfl⟩, rfl⟩

/-- What a probe can do: nothing if the return type is known, complain or give up if it cannot tell
the return type, or settle it. -/
theorem probe_cases {node : ν} {scope : ScopeId} {sig : SigId} {last last' : LastError}
    {settled : Bool} (h : probe node scope round fn sig last tree = .done (last', settled) tree') :
    ∃ signature, tree.sigs[sig]? = some signature ∧
      ((signature.ret.isFullyKnown = true ∧ last' = last ∧ settled = false ∧ tree' = tree) ∨
        (signature.ret.isFullyKnown = false ∧ settled = false ∧
          tree'.resetInferred = tree.resetInferred ∧ fn.Stuck scope tree.resetInferred sig) ∨
        (signature.ret.isFullyKnown = false ∧ last' = none ∧ settled = true ∧ ∃ fn' ret tree₁,
          fn.inferBody .probe scope sig tree.resetInferred = .done (fn', ret) tree₁ ∧
          ret.isFullyKnown = true ∧
          tree'.resetInferred = tree.resetInferred.settle sig signature ret)) := by
  simp only [probe, bind_eq_done, scopes_eq_done, ofExcept_eq_done, mapError_eq_ok,
    signature_eq_ok] at h
  obtain ⟨_, tree, ⟨rfl, rfl⟩, signature, _, ⟨hs, rfl⟩, h⟩ := h
  refine ⟨signature, hs, ?_⟩
  split at h
  · rename_i hk
    obtain ⟨he, rfl⟩ := pure_eq_done.mp h
    cases he
    exact Or.inl ⟨hk, rfl, rfl, rfl⟩
  · rename_i hk
    rw [Bool.not_eq_true] at hk
    simp only [bind_eq_done, resetHere_eq_done, attempt_eq_done] at h
    obtain ⟨_, _, rfl, r, tree₁, hr, h⟩ := h
    have hkeep := (@FnDef.inferBody_delivers .probe scope fn sig tree.resetInferred).2
    rcases hr with ⟨⟨fn', ret⟩, hb, rfl⟩ | ⟨part, e, hb, rfl⟩
    · rw [hb] at hkeep
      have hreset : tree₁.resetInferred = tree.resetInferred :=
        hkeep.trans (resetInferred_idem tree)
      simp only at h
      split at h
      · rename_i hret
        simp only [bind_eq_done, note_eq_done, scopes_eq_done, ofExcept_eq_done, mapError_eq_ok,
          setReturn_eq_ok, setScopes_eq_done, pure_eq_done, Prod.mk.injEq] at h
        obtain ⟨_, _, rfl, _, tree₁, ⟨rfl, rfl⟩, _, _, ⟨⟨signature', hs₁, rfl⟩, rfl⟩, _, _, rfl,
          ⟨rfl, rfl⟩, rfl⟩ := h
        have hsig : tree₁.resetInferred.sigs[sig]? = some signature' := hs₁
        have hsame : tree₁.resetInferred.sigs[sig]? = some signature := hreset ▸ hs
        rw [hsame] at hsig
        cases hsig
        refine Or.inr (Or.inr ⟨hk, rfl, rfl, fn', ret, tree₁, hb, hret, ?_⟩)
        rw [resetInferred_settle, hreset]
      · rename_i hret
        rw [Bool.not_eq_true] at hret
        simp only [bind_eq_done, note_eq_done, pure_eq_done, Prod.mk.injEq] at h
        obtain ⟨_, _, rfl, ⟨rfl, rfl⟩, rfl⟩ := h
        refine Or.inr (Or.inl ⟨hk, rfl, hreset, ?_⟩)
        intro fn'' ret' tree'' hb'
        rw [hb] at hb'
        cases hb'
        exact hret
    · rw [hb] at hkeep
      simp only [bind_eq_done, note_eq_done, pure_eq_done, Prod.mk.injEq] at h
      obtain ⟨_, _, rfl, ⟨rfl, rfl⟩, rfl⟩ := h
      refine Or.inr (Or.inl ⟨hk, rfl, hkeep.trans (resetInferred_idem tree), ?_⟩)
      intro fn' ret tree'' hb'
      rw [hb] at hb'
      cases hb'

theorem probe_spec {node : ν} {scope : ScopeId} {sig : SigId} {last last' : LastError}
    {settled : Bool} (hf : fn.Resolved) (hp : tree.resetInferred.Plain)
    (h : probe node scope round fn sig last tree = .done (last', settled) tree') :
    (settled = false ∧ tree'.resetInferred = tree.resetInferred ∧
        fn.Explored scope tree.resetInferred sig) ∨
      (settled = true ∧ tree.resetInferred.Refined tree'.resetInferred ∧
        tree'.resetInferred.openCount < tree.resetInferred.openCount) := by
  obtain ⟨signature, hs, h⟩ := probe_cases h
  have hs' : tree.resetInferred.sigs[sig]? = some signature := hs
  rcases h with ⟨hk, _, rfl, rfl⟩ | ⟨_, rfl, hreset, hstuck⟩ | ⟨ho, _, rfl, fn', ret, _, hb, hret, he⟩
  · exact Or.inl ⟨rfl, rfl, signature, hs', Or.inl hk⟩
  · exact Or.inl ⟨rfl, hreset, signature, hs', Or.inr hstuck⟩
  · have hprim := (hf.flat_inferBody hp hb).prim_of_isFullyKnown hret
    rw [he]
    exact Or.inr ⟨rfl, .settle hs' ho hprim, openCount_settle hs' ho hprim⟩

/-! ## Rounds -/

/-- A round that settles nothing leaves all functions explored; any other leaves fewer open. -/
theorem probeRound_spec {node : ν} {scope : ScopeId} : ∀ {fns : List FnDef}
    {sigs : List SigId} {lasts lasts' : List LastError} {settled : Bool} {tree tree' : ScopeTree},
    sigs.length = fns.length → lasts.length = fns.length → (∀ fn ∈ fns, fn.Resolved) →
    tree.resetInferred.Plain →
    probeRound node scope round fns sigs lasts tree = .done (lasts', settled) tree' →
    lasts'.length = fns.length ∧ tree.resetInferred.Refined tree'.resetInferred ∧
      (settled = true → tree'.resetInferred.openCount < tree.resetInferred.openCount) ∧
      (settled = false → tree'.resetInferred = tree.resetInferred ∧
        List.Forall₂ (FnDef.Explored scope tree.resetInferred) fns sigs)
  | [], [], _, _, _, _, _, _, hl, _, _, h => by
    unfold probeRound at h
    obtain ⟨he, rfl⟩ := pure_eq_done.mp h
    cases he
    exact ⟨hl, .refl _, by simp, fun _ => ⟨rfl, .nil⟩⟩
  | fn :: _, _ :: _, _ :: _, _, _, tree, _, hsl, hll, hf, hp, h => by
    simp only [probeRound, bind_eq_done, pure_eq_done, Prod.exists, Prod.mk.injEq] at h
    obtain ⟨last', now, tree₁, hnow, lasts₁, later, _, hlater, ⟨rfl, rfl⟩, rfl⟩ := h
    have hnow := probe_spec (hf fn List.mem_cons_self) hp hnow
    have href : tree.resetInferred.Refined tree₁.resetInferred := by
      rcases hnow with ⟨_, he, _⟩ | ⟨_, hr, _⟩
      · exact he ▸ .refl _
      · exact hr
    obtain ⟨hlen, href', hlt, hdone⟩ := probeRound_spec (by simpa using hsl) (by simpa using hll)
      (fun fn' hm => hf fn' (List.mem_cons_of_mem fn hm)) (href.plain hp) hlater
    refine ⟨by simp [hlen], href.trans href', ?_, ?_⟩
    · intro hs
      rcases hnow with ⟨rfl, he, _⟩ | ⟨_, _, hnow⟩
      · rw [← he]
        exact hlt (by simpa using hs)
      · exact Nat.lt_of_le_of_lt href'.openCount_le hnow
    · intro hs
      simp only [Bool.or_eq_false_iff] at hs
      obtain ⟨rfl, rfl⟩ := hs
      rcases hnow with ⟨_, he, hex⟩ | ⟨hc, _⟩
      · obtain ⟨he', hexs⟩ := hdone rfl
        exact ⟨he'.trans he, .cons hex (he ▸ hexs)⟩
      · cases hc
  | [], _ :: _, _, _, _, _, _, hsl, _, _, _, _ => by simp at hsl
  | _ :: _, [], _, _, _, _, _, hsl, _, _, _, _ => by simp at hsl
  | _ :: _, _ :: _, [], _, _, _, _, _, hll, _, _, _ => by simp at hll

theorem probeRounds_spec {node : ν} {scope : ScopeId} {fns : List FnDef} {sigs : List SigId}
    (hsl : sigs.length = fns.length) (hf : ∀ fn ∈ fns, fn.Resolved) {fuel : Nat} :
    ∀ {round : Nat} {lasts lasts' : List LastError} {tree tree' : ScopeTree},
    lasts.length = fns.length → tree.resetInferred.Plain → tree.resetInferred.openCount < fuel →
    probeRounds node scope fns sigs fuel round lasts tree = .done lasts' tree' →
    lasts'.length = fns.length ∧ tree.resetInferred.Refined tree'.resetInferred ∧
      List.Forall₂ (FnDef.Explored scope tree'.resetInferred) fns sigs := by
  induction fuel with
  | zero => intro _ _ _ _ _ _ _ hlt; exact (Nat.not_lt_zero _ hlt).elim
  | succ fuel ih =>
    intro round lasts lasts' tree tree' hll hp hlt h
    simp only [probeRounds, bind_eq_done, Prod.exists] at h
    obtain ⟨lasts₁, settled, tree₁, hr, h⟩ := h
    obtain ⟨hlen, href, hdec, hdone⟩ := probeRound_spec hsl hll hf hp hr
    cases settled with
    | false =>
      obtain ⟨rfl, rfl⟩ := pure_eq_done.mp h
      obtain ⟨he, hex⟩ := hdone rfl
      exact ⟨hlen, href, he ▸ hex⟩
    | true =>
      have hdec := hdec rfl
      obtain ⟨hlen', href', hex⟩ := ih hlen (href.plain hp) (by omega) h
      exact ⟨hlen', href.trans href', hex⟩

theorem discoverReturns_spec {node : ν} {scope : ScopeId} {fns : List FnDef} {sigs : List SigId}
    {lasts : List LastError} (hsl : sigs.length = fns.length) (hf : ∀ fn ∈ fns, fn.Resolved)
    (hp : tree.resetInferred.Plain) (hc : tree.resetInferred.openCount ≤ fns.length)
    (h : discoverReturns node scope fns sigs tree = .done lasts tree') :
    lasts.length = fns.length ∧ tree.resetInferred.Refined tree'.resetInferred ∧
      List.Forall₂ (FnDef.Explored scope tree'.resetInferred) fns sigs :=
  probeRounds_spec hsl hf (by simp) hp (by omega) h

end ScriptLang
