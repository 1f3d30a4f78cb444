import ScriptLang.Proofs.Discovery
import ScriptLang.Proofs.Typing

/-!
# Committing functions

After discovery every function is committed once, in some order, from a tree where nothing is known
about its variables. A function that is committed without an error shows that discovery knew its
return type: the run would else have told a probe. So all signatures are known before the first
function is committed, and the committed functions are well typed.
-/

namespace ScriptLang

open Pass ScopeTree

variable {fn : FnDef} {scope : ScopeId} {sig : SigId} {tree : ScopeTree} {fns : List FnDef}
  {i : Nat}

/-! ## One function -/

theorem FnDef.checkReturn_eq_ok {ret : Ty} {u : Unit} :
    fn.checkReturn ret = .ok u ↔
      (ret.isVoid = false → fn.body.containsReturn = true) ∧ ret.isFullyKnown = true := by
  unfold FnDef.checkReturn
  cases ret.isVoid <;> cases fn.body.containsReturn <;> cases ret.isFullyKnown <;> simp

theorem FnDef.commit_eq_done {fn' : FnDef} {tree' : ScopeTree} :
    fn.commit scope sig tree = .done fn' tree' ↔
      ∃ signature body ctx tree₁ signature₁, tree.sigs[sig]? = some signature ∧
        fn.body.infer .commit scope ⟨signature.ret, fn.span, false⟩ tree = .done (body, ctx) tree₁ ∧
        (ctx.ret.isVoid = false → body.containsReturn = true) ∧ ctx.ret.isFullyKnown = true ∧
        fn.retSlot.Accepts ctx.ret ∧ fn' = { fn with body, retSlot := some ctx.ret } ∧
        tree₁.sigs[sig]? = some signature₁ ∧ tree' = tree₁.settle sig signature₁ ctx.ret := by
  simp only [FnDef.commit, bind_eq_done, note_eq_done, Prod.exists, FnDef.inferBody_eq_done,
    ofExcept_eq_done, FnDef.checkReturn_eq_ok, TypeSlot.writeOrHalt_eq_ok, scopes_eq_done,
    mapError_eq_ok, setReturn_eq_ok, setScopes_eq_done, pure_eq_done]
  constructor
  · rintro ⟨_, _, rfl, _, _, _, ⟨signature, body, ctx, hs, hb, rfl, rfl⟩, _, _, ⟨⟨hret, hk⟩, rfl⟩,
      _, _, ⟨⟨ha, rfl⟩, rfl⟩, _, _, ⟨rfl, rfl⟩, _, _, ⟨⟨signature₁, hs₁, rfl⟩, rfl⟩, _, _, rfl, rfl,
      rfl⟩
    exact ⟨signature, body, ctx, _, signature₁, hs, hb, hret, hk, ha, rfl, hs₁, rfl⟩
  · rintro ⟨signature, body, ctx, tree₁, signature₁, hs, hb, hret, hk, ha, rfl, hs₁, rfl⟩
    exact ⟨(), tree, rfl, _, _, tree₁, ⟨signature, body, ctx, hs, hb, rfl, rfl⟩, (), tree₁,
      ⟨⟨hret, hk⟩, rfl⟩, _, tree₁, ⟨⟨ha, rfl⟩, rfl⟩, tree₁, tree₁, ⟨rfl, rfl⟩, _, tree₁,
      ⟨⟨signature₁, hs₁, rfl⟩, rfl⟩, (), _, rfl, rfl, rfl⟩

theorem extendParams_within {on : DeclId → Prop} : ∀ {params : List Param} {env : Env},
    env.Within on → SitesWithin on (params.map Param.site) → (extendParams env params).Within on
  | [], _, he, _ => he
  | param :: params, env, he, hs => by
    obtain ⟨hp, hs⟩ := sitesWithin_cons.mp hs
    change (extendParams (env.bind param.name param.handle) params).Within on
    exact extendParams_within (he.bind hp) hs

theorem FnDef.Resolved.within {on : DeclId → Prop} (h : fn.Resolved)
    (hs : SitesWithin on fn.sites) :
    fn.body.Within on := by
  obtain ⟨hp, hb⟩ := sitesWithin_append.mp hs
  have he : (extendParams [] fn.params).Within on :=
    extendParams_within (fun _ hm => by cases hm) hp
  exact (Block.Resolved.within fn.body he hb h).1

theorem Numbered.sitesWithin {n : Nat} {sites : List Site} (h : Numbered tree n sites) :
    SitesWithin (between n (n + sites.length)) sites := by
  intro site hs id hid
  obtain ⟨id', _, hid', hlo, hhi, _⟩ := h.get hs
  rw [hid] at hid'
  cases hid'
  exact ⟨hlo, hhi⟩

/-- A function before it is committed, in the tree in which committing starts. -/
structure FnDef.Ready (scope : ScopeId) (base : ScopeTree) (n : Nat) (fn : FnDef) (sig : SigId) :
    Prop where
  resolved : fn.Resolved
  numbered : Numbered base n fn.sites
  explored : fn.Explored scope base sig
  shown : ∃ shown signature, fn.Shows scope shown ∧ base.sigs[sig]? = some signature ∧
    shown.Refined signature

section

variable {scope : ScopeId} {base tree tree' : ScopeTree} {n : Nat} {fn fn' : FnDef} {sig : SigId}

theorem FnDef.Ready.within (h : fn.Ready scope base n sig) :
    fn.body.Within (between n (n + fn.sites.length)) :=
  h.resolved.within h.numbered.sitesWithin

/-- A function that is committed has a known return type, which is the one its body ends with. -/
theorem FnDef.Ready.commit (h : fn.Ready scope base n sig)
    (ha : base.Agree (between n (n + fn.sites.length)) tree) (hp : tree.Plain)
    (hc : fn.commit scope sig tree = .done fn' tree') :
    ∃ signature body, base.sigs[sig]? = some signature ∧ signature.ret.Prim ∧
      fn.body.infer .commit scope ⟨signature.ret, fn.span, false⟩ tree =
        .done (body, ⟨signature.ret, fn.span, false⟩) tree' ∧
      (signature.ret ≠ .void → body.containsReturn = true) ∧
      fn' = { fn with body, retSlot := some signature.ret } := by
  obtain ⟨signature, body, ctx, tree₁, signature₁, hs, hb, hret, hk, _, rfl, hs₁, rfl⟩ :=
    FnDef.commit_eq_done.mp hc
  have hbase : base.sigs[sig]? = some signature := ha.sigs ▸ hs
  have hprim : signature.ret.Prim := by
    refine (hp.rets signature (List.mem_of_getElem? hs)).prim_of_isFullyKnown ?_
    obtain ⟨signature', hs', hknown | hstuck⟩ := h.explored
    · rw [hbase] at hs'
      cases hs'
      exact hknown
    · -- The committing run, replayed as a probe, tells a return type after all.
      obtain ⟨other, hprobe, _⟩ := Block.infer_probe fn.body h.within ha.symm hb
      have hopen := hstuck _ _ _ (FnDef.inferBody_eq_done.mpr
        ⟨signature, fn.body, ctx, hbase, hprobe, rfl, rfl⟩)
      rw [hopen] at hk
      cases hk
  have hsteps := Block.infer_steps fn.body h.within hb
  obtain rfl := hsteps.expected rfl hprim
  have htree : tree₁.settle sig signature₁ signature.ret = tree₁ := by
    rw [← hsteps.agree.sigs, hs] at hs₁
    cases hs₁
    exact settle_self (hsteps.agree.sigs ▸ hs)
  refine ⟨signature, body, hbase, hprim, htree.symm ▸ hb, ?_, rfl⟩
  exact fun hv => hret (by simpa [Ty.isVoid] using hv)

theorem Known.params : ∀ {params : List Param} {tys : List Ty} {n lo : Nat} {env : Env},
    List.Forall₂ (fun (param : Param) ty => param.ty.resolve = .ok ty) params tys →
    Known lo n tree env → Numbered tree n (params.map Param.site) →
    Known lo (n + params.length) tree (extendParams env params) ∧
      ∀ other, tree.Agree (between lo (n + params.length)) other →
        List.Forall₂ (Param.WellTyped other) params tys
  | [], _, _, _, _, .nil, hk, _ => ⟨hk, fun _ _ => .nil⟩
  | param :: params, ty :: _, n, _, _, .cons hty htys, hk, hn => by
    obtain ⟨hh, ⟨var, hv, hd⟩, hn⟩ := hn
    have hdecl : var.declared = ty := Except.ok.inj (hd.type.symm.trans hty)
    have hprim := (TypeExpr.resolve_eq_ok hty).2
    have hvar : var.ty = ty := by
      rw [hk.plain.fixed var (List.mem_of_getElem? hv) (hdecl ▸ hprim), hdecl]
    have hh : param.handle = some n := hh
    obtain ⟨hk', htyped⟩ := Known.params htys (hk.bind hv hd.name (hvar ▸ hprim)) hn
    have hlen : n + 1 + params.length = n + (param :: params).length := by
      rw [List.length_cons]
      omega
    rw [hlen] at hk' htyped
    have hlast : n < n + (param :: params).length := by
      rw [List.length_cons]
      omega
    refine ⟨?_, fun other ha => .cons ⟨hty, n, var, hh, ?_, hd.name, hd.kind, hvar⟩ (htyped other ha)⟩
    · rw [extendParams, hh]
      exact hk'
    · rw [← ha.types n ⟨hk.le, hlast⟩]
      exact hv

theorem FnDef.Ready.typed (h : fn.Ready scope base n sig) (hset : base.Settled)
    (ha : base.Agree (between n (n + fn.sites.length)) tree) (hp : tree.Plain)
    (hc : fn.commit scope sig tree = .done fn' tree') :
    ∃ signature, base.sigs[sig]? = some signature ∧ fn'.clear true = fn.clear true ∧
      ∀ other, tree'.Agree (between n (n + fn.sites.length)) other →
        fn'.WellTyped other scope signature := by
  obtain ⟨signature, body, hbase, hprim, hb, hret, rfl⟩ := h.commit ha hp hc
  obtain ⟨shown, signature', ⟨params, ret, hty, rfl⟩, hbase', href⟩ := h.shown
  rw [hbase] at hbase'
  cases hbase'
  obtain ⟨hparams, hascr⟩ := FnDef.signatureTypes_spec hty
  have hn := numbered_append.mp (h.numbered.of_agree ha)
  have hknown : Known n n tree [] := .nil (hset.of_agree ha) hp n
  obtain ⟨hk, hptyped⟩ := Known.params hparams hknown hn.1
  have hlen : n + fn.sites.length = n + fn.params.length + fn.body.sites.length := by
    simp [FnDef.sites, Nat.add_assoc]
  have hnb := hn.2
  rw [List.length_map] at hnb
  have hexpected : (RoutineContext.mk signature.ret fn.span false).expected.Prim := hprim
  obtain ⟨_, hrun⟩ := Block.infer_typed fn.body hk hnb h.resolved rfl hexpected hb
  refine ⟨signature, hbase, ?_, fun other hao => ?_⟩
  · simp only [FnDef.clear, Block.infer_clear fn.body hb]
  · rw [hlen] at hao
    constructor
    case name => exact href.name
    case params =>
      rw [href.params]
      exact hptyped other (agree_before hrun.frame hao)
    case known => exact hprim
    case retSlot => rfl
    case ascribed =>
      intro annotation hann
      have hann : fn.ret = some annotation := hann
      rw [hann] at hascr
      have hshown : ret.Prim := (TypeExpr.resolve_eq_ok hascr).2
      rcases href.2 with he | ⟨ho, _⟩
      · rw [he]
        exact hascr
      · rw [hshown.isFullyKnown] at ho
        cases ho
    case returns => exact hret
    case body => exact hrun.typed other hao

end

/-! ## The variables of each function -/

/-- The number of the first variable of a function. -/
def fnStart (fns : List FnDef) (i : Nat) : Nat :=
  ((fns.take i).flatMap FnDef.sites).length

theorem fnStart_succ (h : fns[i]? = some fn) :
    fnStart fns (i + 1) = fnStart fns i + fn.sites.length := by
  simp [fnStart, List.take_add_one, h]

theorem fnStart_mono (fns : List FnDef) {j : Nat} (h : i ≤ j) : fnStart fns i ≤ fnStart fns j := by
  obtain ⟨k, rfl⟩ := Nat.exists_eq_add_of_le h
  simp [fnStart, List.take_add]

/-- The variables of a function. -/
def ofFunction (fns : List FnDef) (i : Nat) : DeclId → Prop :=
  between (fnStart fns i) (fnStart fns (i + 1))

theorem ofFunction_eq (h : fns[i]? = some fn) :
    ofFunction fns i = between (fnStart fns i) (fnStart fns i + fn.sites.length) := by
  rw [ofFunction, fnStart_succ h]

theorem not_ofFunction {j : Nat} (hne : i ≠ j) {id : DeclId} (hi : ofFunction fns i id) :
    ¬ ofFunction fns j id := by
  intro hj
  rcases Nat.lt_or_gt_of_ne hne with hlt | hlt
  · have := fnStart_mono fns (Nat.succ_le_of_lt hlt)
    exact Nat.not_lt_of_le (Nat.le_trans this hj.1) hi.2
  · have := fnStart_mono fns (Nat.succ_le_of_lt hlt)
    exact Nat.not_lt_of_le (Nat.le_trans this hi.1) hj.2

theorem Numbered.function {sites : List Site}
    (h : Numbered tree 0 (fns.flatMap FnDef.sites ++ sites)) (hf : fns[i]? = some fn) :
    Numbered tree (fnStart fns i) fn.sites := by
  obtain ⟨hlt, rfl⟩ := List.getElem?_eq_some_iff.mp hf
  have hsplit : fns = fns.take i ++ fns[i] :: fns.drop (i + 1) := by simp
  have hflat : fns.flatMap FnDef.sites = (fns.take i).flatMap FnDef.sites ++
      (fns[i].sites ++ (fns.drop (i + 1)).flatMap FnDef.sites) := by
    conv_lhs => rw [hsplit]
    rw [List.flatMap_append, List.flatMap_cons]
  have hall := (numbered_append.mp h).1
  rw [hflat] at hall
  have hrest := (numbered_append.mp hall).2
  rw [Nat.zero_add] at hrest
  exact (numbered_append.mp hrest).1

/-! ## All functions -/

/-- The functions that are still to be committed are as they were, and so are their variables. -/
structure Pending (base : ScopeTree) (fns : List FnDef) (order : List Nat) (now : List FnDef)
    (tree : ScopeTree) : Prop where
  nodup : order.Nodup
  same : ∀ i ∈ order, now[i]? = fns[i]?
  plain : tree.Plain
  fresh : ∀ i ∈ order, base.Agree (ofFunction fns i) tree
  skeleton : tree.resetInferred = base.resetInferred

theorem commitFunctions_cons {sigs : List SigId} {order : List Nat} {now now' : List FnDef}
    {tree' : ScopeTree} (hf : now[i]? = some fn) (hs : sigs[i]? = some sig) :
    commitFunctions scope sigs (i :: order) now tree = .done now' tree' ↔
      ∃ fn' tree₁, fn.commit scope sig tree = .done fn' tree₁ ∧
        commitFunctions scope sigs order (now.set i fn') tree₁ = .done now' tree' := by
  simp only [commitFunctions, hf, hs, bind_eq_done, within_eq_done]

section

variable {scope : ScopeId} {base tree tree' : ScopeTree} {fns now now' : List FnDef}
  {sigs : List SigId} {order : List Nat} {i : Nat}

theorem Pending.commit {fn' : FnDef} (h : Pending base fns (i :: order) now tree)
    (hf : fns[i]? = some fn) (hr : fn.Ready scope base (fnStart fns i) sig)
    (hc : fn.commit scope sig tree = .done fn' tree') :
    (∃ signature, base.sigs[sig]? = some signature ∧ signature.ret.Prim) ∧
      tree.Agree (fun id => ¬ ofFunction fns i id) tree' ∧
      Pending base fns order (now.set i fn') tree' := by
  obtain ⟨hi, hnodup⟩ := List.nodup_cons.mp h.nodup
  have hfresh := h.fresh i List.mem_cons_self
  rw [ofFunction_eq hf] at hfresh
  obtain ⟨signature, body, hs, hprim, hb, _, rfl⟩ := hr.commit hfresh h.plain hc
  have hsteps := Block.infer_steps fn.body hr.within hb
  have hframe := hsteps.agree
  rw [← ofFunction_eq hf] at hframe
  refine ⟨⟨signature, hs, hprim⟩, hframe, hnodup, ?_, (hsteps.plain h.plain hprim.flat).1, ?_,
    hframe.skeleton.symm.trans h.skeleton⟩
  · intro j hj
    rw [List.getElem?_set_ne fun (he : i = j) => hi (he ▸ hj)]
    exact h.same j (List.mem_cons_of_mem i hj)
  · intro j hj
    refine (h.fresh j (List.mem_cons_of_mem i hj)).trans (hframe.mono ?_)
    exact fun id hid => not_ofFunction (fun (he : j = i) => hi (he ▸ hj)) hid

/-- What committing leaves of the functions in `order`: each is well typed, however the variables of
other functions are typed. -/
structure Committed (scope : ScopeId) (sigs : List SigId) (base : ScopeTree) (fns : List FnDef)
    (order : List Nat) (now now' : List FnDef) (tree tree' : ScopeTree) : Prop where
  plain : tree'.Plain
  frame : tree.Agree (fun id => ∀ i ∈ order, ¬ ofFunction fns i id) tree'
  length : now'.length = now.length
  others : ∀ j, j ∉ order → now'[j]? = now[j]?
  typed : ∀ i ∈ order, ∀ fn sig, fns[i]? = some fn → sigs[i]? = some sig →
    ∃ fn' signature, now'[i]? = some fn' ∧ base.sigs[sig]? = some signature ∧
      fn'.clear true = fn.clear true ∧
      ∀ other, tree'.Agree (ofFunction fns i) other → fn'.WellTyped other scope signature

variable (hlen : sigs.length = fns.length)
  (hr : ∀ (i : Nat) (fn : FnDef) (sig : SigId), fns[i]? = some fn → sigs[i]? = some sig →
    fn.Ready scope base (fnStart fns i) sig)

include hlen hr

theorem commitFunctions_each :
    ∀ {order : List Nat} {now : List FnDef} {tree : ScopeTree}, now.length = fns.length →
    (∀ i ∈ order, i < fns.length) → Pending base fns order now tree →
    commitFunctions scope sigs order now tree = .done now' tree' →
    (∀ j, j ∉ order → now'[j]? = now[j]?) ∧
      ∀ i ∈ order, ∀ fn sig, fns[i]? = some fn → sigs[i]? = some sig →
        ∃ before after fn', base.Agree (ofFunction fns i) before ∧ before.Plain ∧
          fn.commit scope sig before = .done fn' after ∧ now'[i]? = some fn'
  | [], _, _, _, _, _, h => by
    obtain ⟨rfl, rfl⟩ := pure_eq_done.mp h
    exact ⟨fun _ _ => rfl, by simp⟩
  | i :: order, _, tree, hnow, hlt, hp, h => by
    have hi := hlt i List.mem_cons_self
    have hf : fns[i]? = some fns[i] := List.getElem?_eq_getElem hi
    have hs : sigs[i]? = some (sigs[i]) := List.getElem?_eq_getElem (hlen ▸ hi)
    obtain ⟨fn', tree₁, hc, h⟩ :=
      (commitFunctions_cons ((hp.same i List.mem_cons_self).trans hf) hs).mp h
    obtain ⟨_, _, hp'⟩ := hp.commit hf (hr i _ _ hf hs) hc
    obtain ⟨hothers, hrest⟩ := commitFunctions_each (by simpa using hnow)
      (fun j hj => hlt j (List.mem_cons_of_mem i hj)) hp' h
    have hnot : i ∉ order := (List.nodup_cons.mp hp.nodup).1
    refine ⟨?_, ?_⟩
    · intro j hj
      rw [List.mem_cons, not_or] at hj
      rw [hothers j hj.2, List.getElem?_set_ne (Ne.symm hj.1)]
    · intro j hj fn sig hfj hsj
      rcases List.mem_cons.mp hj with rfl | hj
      · rw [hf] at hfj
        rw [hs] at hsj
        cases hfj
        cases hsj
        refine ⟨tree, tree₁, fn', hp.fresh j List.mem_cons_self, hp.plain, hc, ?_⟩
        rw [hothers j hnot, List.getElem?_set_self (hnow ▸ hi)]
      · exact hrest j hj fn sig hfj hsj

/-- Once all functions are committed, all their return types are known to have been known. -/
theorem commitFunctions_known (hnow : now.length = fns.length)
    (hlt : ∀ i ∈ order, i < fns.length) (hp : Pending base fns order now tree)
    (h : commitFunctions scope sigs order now tree = .done now' tree') :
    ∀ i ∈ order, ∀ sig, sigs[i]? = some sig →
      ∃ signature, base.sigs[sig]? = some signature ∧ signature.ret.Prim := by
  intro i hi sig hs
  have hi' := hlt i hi
  have hf : fns[i]? = some fns[i] := List.getElem?_eq_getElem hi'
  obtain ⟨before, after, fn', ha, hplain, hc, _⟩ :=
    (commitFunctions_each hlen hr hnow hlt hp h).2 i hi _ sig hf hs
  rw [ofFunction_eq hf] at ha
  obtain ⟨signature, _, hsig, hprim, _⟩ := (hr i _ sig hf hs).commit ha hplain hc
  exact ⟨signature, hsig, hprim⟩

theorem commitFunctions_typed (hset : base.Settled) :
    ∀ {order : List Nat} {now : List FnDef} {tree : ScopeTree}, now.length = fns.length →
    (∀ i ∈ order, i < fns.length) → Pending base fns order now tree →
    commitFunctions scope sigs order now tree = .done now' tree' →
    Committed scope sigs base fns order now now' tree tree'
  | [], _, _, _, _, hp, h => by
    obtain ⟨rfl, rfl⟩ := pure_eq_done.mp h
    exact ⟨hp.plain, .refl _ _, rfl, fun _ _ => rfl, by simp⟩
  | i :: order, _, _, hnow, hlt, hp, h => by
    have hi := hlt i List.mem_cons_self
    have hf : fns[i]? = some fns[i] := List.getElem?_eq_getElem hi
    have hs : sigs[i]? = some (sigs[i]) := List.getElem?_eq_getElem (hlen ▸ hi)
    have hready := hr i _ _ hf hs
    obtain ⟨fn', tree₁, hc, h⟩ :=
      (commitFunctions_cons ((hp.same i List.mem_cons_self).trans hf) hs).mp h
    obtain ⟨_, hframe, hp'⟩ := hp.commit hf hready hc
    have hfresh := hp.fresh i List.mem_cons_self
    rw [ofFunction_eq hf] at hfresh
    obtain ⟨signature, hsig, hclear, htyped⟩ := hready.typed hset hfresh hp.plain hc
    rw [← ofFunction_eq hf] at htyped
    have hrest := commitFunctions_typed hset (by simpa using hnow)
      (fun j hj => hlt j (List.mem_cons_of_mem i hj)) hp' h
    have hnot : i ∉ order := (List.nodup_cons.mp hp.nodup).1
    refine ⟨hrest.plain, ?_, by simpa using hrest.length, ?_, ?_⟩
    · refine (hframe.mono ?_).trans (hrest.frame.mono ?_)
      · exact fun id hid => hid i List.mem_cons_self
      · exact fun id hid j hj => hid j (List.mem_cons_of_mem i hj)
    · intro j hj
      rw [List.mem_cons, not_or] at hj
      rw [hrest.others j hj.2, List.getElem?_set_ne (Ne.symm hj.1)]
    · intro j hj fn sig hfj hsj
      rcases List.mem_cons.mp hj with rfl | hj
      · rw [hf] at hfj
        rw [hs] at hsj
        cases hfj
        cases hsj
        refine ⟨fn', signature, ?_, hsig, hclear, ?_⟩
        · rw [hrest.others j hnot, List.getElem?_set_self (hnow ▸ hi)]
        · intro other ha
          refine htyped other ((hrest.frame.mono ?_).trans ha)
          exact fun id hid k hk => not_ofFunction (fun (he : j = k) => hnot (he ▸ hk)) hid
      · exact hrest.typed j hj fn sig hfj hsj

theorem commitFunctions_of_each
    (heach : ∀ (i : Nat) (fn : FnDef) (sig : SigId), fns[i]? = some fn → sigs[i]? = some sig →
      ∀ tree, base.Agree (ofFunction fns i) tree → tree.Plain →
        ∃ fn' tree', fn.commit scope sig tree = .done fn' tree') :
    ∀ {order : List Nat} {now : List FnDef} {tree : ScopeTree}, (∀ i ∈ order, i < fns.length) →
      Pending base fns order now tree →
      ∃ now' tree', commitFunctions scope sigs order now tree = .done now' tree'
  | [], now, tree, _, _ => ⟨now, tree, rfl⟩
  | i :: _, _, tree, hlt, hp => by
    have hi := hlt i List.mem_cons_self
    have hf : fns[i]? = some fns[i] := List.getElem?_eq_getElem hi
    have hs : sigs[i]? = some (sigs[i]) := List.getElem?_eq_getElem (hlen ▸ hi)
    obtain ⟨fn', tree₁, hc⟩ := heach i _ _ hf hs tree (hp.fresh i List.mem_cons_self) hp.plain
    obtain ⟨_, _, hp'⟩ := hp.commit hf (hr i _ _ hf hs) hc
    obtain ⟨now', tree', hrest⟩ := commitFunctions_of_each heach
      (fun j hj => hlt j (List.mem_cons_of_mem i hj)) hp'
    exact ⟨now', tree', (commitFunctions_cons ((hp.same i List.mem_cons_self).trans hf) hs).mpr
      ⟨fn', tree₁, hc, hrest⟩⟩

end

/-! ## The order of functions -/

theorem commitOrder_perm (lasts : List LastError) :
    (commitOrder lasts).Perm (List.range lasts.length) := by
  have hp := List.filter_append_perm (fun entry : LastError × Nat => entry.1.isSome) lasts.zipIdx
  have hn : (fun entry : LastError × Nat => !entry.1.isSome) = fun entry => entry.1.isNone := by
    funext entry
    cases entry.1 <;> rfl
  rw [hn] at hp
  have hm := hp.map (·.2)
  rw [List.zipIdx_map_snd, ← List.range_eq_range'] at hm
  exact hm

end ScriptLang
