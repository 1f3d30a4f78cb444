import ScriptLang.Proofs.Committing

/-!
# What a checked unit is

The unit that a check accepts is the unit that was given, with every annotation filled in: names
carry their declarations, and the tree is well typed in the scope tree that the check returns.
-/

namespace ScriptLang

open Pass ScopeTree

variable {unit' : CompileUnit} {fn : FnDef} {base tree tree' : ScopeTree}

/-! ## The tree in which inference starts -/

theorem builtinSignatures_prim :
    ∀ sig ∈ builtinSignatures, (∀ ty ∈ sig.params, ty.Prim) ∧ sig.ret.Prim := by
  decide

theorem FnDef.Shows.prim_params {unitScope : ScopeId} {sig : Signature}
    (h : fn.Shows unitScope sig) : ∀ ty ∈ sig.params, ty.Prim := by
  obtain ⟨params, ret, ht, rfl⟩ := h
  have hf := (FnDef.signatureTypes_spec ht).1
  intro ty hm
  obtain ⟨i, hlt, he⟩ := List.getElem_of_mem hm
  have hr := hf.get (hf.length_eq ▸ hlt) hlt
  simp only [List.get_eq_getElem, he] at hr
  exact (TypeExpr.resolve_eq_ok hr).2

theorem FnDef.Shows.flat_ret {unitScope : ScopeId} {sig : Signature} (h : fn.Shows unitScope sig) :
    sig.ret.Flat := by
  obtain ⟨params, ret, ht, rfl⟩ := h
  have hr := (FnDef.signatureTypes_spec ht).2
  split at hr
  · exact (TypeExpr.resolve_eq_ok hr).2.flat
  · rw [hr]
    change Ty.Flat (if _ then _ else _)
    split
    · exact Ty.flat_unknown
    · exact Ty.prim_void.flat

theorem forall₂_mem_right {r : α → β → Prop} {as : List α} {bs : List β} (h : List.Forall₂ r as bs)
    {b : β} (hb : b ∈ bs) : ∃ a ∈ as, r a b := by
  obtain ⟨i, hlt, rfl⟩ := List.getElem_of_mem hb
  have hlt' := h.length_eq ▸ hlt
  exact ⟨as[i], List.getElem_mem hlt', h.get hlt' hlt⟩

theorem forall₂_mem_left {r : α → β → Prop} {as : List α} {bs : List β} (h : List.Forall₂ r as bs)
    {a : α} (ha : a ∈ as) : ∃ b ∈ bs, r a b :=
  forall₂_mem_right h.flip ha

theorem Numbered.declares {n : Nat} : ∀ {sites : List Site} {id : Nat}
    {var : VarDecl}, Numbered tree n sites → n ≤ id → id < n + sites.length →
    tree.decls[id]? = some var → ∃ site ∈ sites, site.Declares var := by
  intro sites
  induction sites generalizing n with
  | nil =>
    intro id var _ hlo hhi _
    simp only [List.length_nil] at hhi
    omega
  | cons site sites ih =>
    intro id var hn hlo hhi hv
    obtain ⟨_, ⟨var', hv', hd⟩, hn⟩ := hn
    rcases Nat.eq_or_lt_of_le hlo with rfl | hlt
    · rw [hv] at hv'
      cases hv'
      exact ⟨site, List.mem_cons_self, hd⟩
    · rw [List.length_cons] at hhi
      obtain ⟨site', hm, hd'⟩ := ih hn hlt (by omega) hv
      exact ⟨site', List.mem_cons_of_mem site hm, hd'⟩

section

variable {unit : CompileUnit} {res : Resolution}

theorem Script.commit_eq_done {scope : ScopeId} {script script' : Script} :
    script.commit scope tree = .done script' tree' ↔
      ∃ body ctx, script.body.infer .commit scope ⟨.int, script.span, true⟩ tree =
        .done (body, ctx) tree' ∧ script' = { script with body } := by
  simp only [Script.commit, bind_eq_done, note_eq_done, within_eq_done, pure_eq_done, Prod.exists]
  constructor
  · rintro ⟨_, _, rfl, body, ctx, _, hb, rfl, rfl⟩
    exact ⟨body, ctx, hb, rfl⟩
  · rintro ⟨body, ctx, hb, rfl⟩
    exact ⟨(), tree, rfl, body, ctx, tree', hb, rfl, rfl⟩

theorem CompileUnit.infer_eq_done {scope : ScopeId} {sigs : List SigId} :
    unit.infer scope sigs tree = .done unit' tree' ↔
      ∃ lasts fns' script' tree₁ tree₂,
        discoverReturns unit scope unit.functions sigs tree = .done lasts tree₁ ∧
        commitFunctions scope sigs (commitOrder lasts) unit.functions tree₁.resetInferred =
          .done fns' tree₂ ∧
        unit.script.commit scope tree₂ = .done script' tree' ∧
        unit' = { unit with functions := fns', script := script' } := by
  simp only [CompileUnit.infer, bind_eq_done, note_eq_done, resetHere_eq_done, within_eq_done,
    pure_eq_done]
  constructor
  · rintro ⟨lasts, _, hd, _, _, rfl, _, _, rfl, fns', tree₂, hc, script', _, hs, rfl, rfl⟩
    exact ⟨lasts, fns', script', _, tree₂, hd, hc, hs, rfl⟩
  · rintro ⟨lasts, fns', script', tree₁, tree₂, hd, hc, hs, rfl⟩
    exact ⟨lasts, tree₁, hd, (), tree₁, rfl, (), _, rfl, fns', tree₂, hc, script', tree', hs, rfl,
      rfl⟩

/-! ## Checked units -/

/-- A unit with all its annotations, in the scope tree and with the signatures of its check. -/
structure CompileUnit.Checked (unit : CompileUnit) (res : Resolution) : Prop where
  unitScope : res.unitScope = 1
  parents : ∃ more, res.scopes.parents = none :: some root :: more
  signatures : res.signatures = List.range' builtinSignatures.length unit.functions.length
  sigs : ∃ users, res.scopes.sigs = builtinSignatures ++ users ∧
    List.Forall₂ (fun fn sig => fn.WellTyped res.scopes res.unitScope sig ∧ sig.kind = .user ∧
      sig.scope = res.unitScope) unit.functions users
  functions : ∀ fn ∈ unit.functions, fn.Resolved
  script : unit.script.body.Resolved []
  scriptTyped : unit.script.body.WellTyped res.scopes res.unitScope .int
  numbered : Numbered res.scopes 0 unit.sites
  length : res.scopes.decls.length = unit.sites.length

theorem FnDef.resolved_of_clear {fn' : FnDef} (hc : fn'.clear true = fn.clear true)
    (h : fn.Resolved) : fn'.Resolved := by
  have hb : fn'.body.clear true = fn.body.clear true := congrArg FnDef.body hc
  have hp : fn'.params.map (Param.clear true) = fn.params.map (Param.clear true) :=
    congrArg FnDef.params hc
  unfold FnDef.Resolved at h ⊢
  rw [← Block.resolved_clear, hb, ← extendParams_clear, hp, extendParams_clear,
    Block.resolved_clear]
  exact h

theorem CompileUnit.sites_of_clear (hc : unit'.clear true = unit.clear true) :
    unit'.sites = unit.sites := by
  rw [← unit'.sites_clear, hc, unit.sites_clear]

/-! ## Inference of a resolved unit -/

section

variable (h : unit.ResolvedIn res)

include h

theorem CompileUnit.ResolvedIn.declared_flat : ∀ var ∈ res.scopes.decls, var.declared.Flat := by
  intro var hm
  obtain ⟨id, hlt, he⟩ := List.getElem_of_mem hm
  have hv : res.scopes.decls[id]? = some var := by rw [List.getElem?_eq_getElem hlt, he]
  rw [h.length] at hlt
  obtain ⟨site, _, hd⟩ := h.numbered.declares (Nat.zero_le id) (by rwa [Nat.zero_add]) hv
  exact hd.flat

theorem CompileUnit.ResolvedIn.plain : res.scopes.resetInferred.Plain := by
  obtain ⟨users, hs, hf⟩ := h.sigs
  have hsigs : res.scopes.resetInferred.sigs = builtinSignatures ++ users := hs
  have hdecl : ∀ var ∈ res.scopes.resetInferred.decls,
      var.declared.Flat ∧ var.ty = var.declared := by
    intro var hm
    obtain ⟨var', hm', rfl⟩ := List.mem_map.mp hm
    exact ⟨h.declared_flat var' hm', rfl⟩
  constructor
  case params =>
    intro sig hm
    rw [hsigs] at hm
    rcases List.mem_append.mp hm with hm | hm
    · exact (builtinSignatures_prim sig hm).1
    · obtain ⟨fn, _, hfn⟩ := forall₂_mem_right hf hm
      exact hfn.prim_params
  case rets =>
    intro sig hm
    rw [hsigs] at hm
    rcases List.mem_append.mp hm with hm | hm
    · exact (builtinSignatures_prim sig hm).2.flat
    · obtain ⟨fn, _, hfn⟩ := forall₂_mem_right hf hm
      exact hfn.flat_ret
  case declared => exact fun var hm => (hdecl var hm).1
  case types => exact fun var hm => (hdecl var hm).2 ▸ (hdecl var hm).1
  case fixed => exact fun var hm _ => (hdecl var hm).2

theorem CompileUnit.ResolvedIn.openCount_le :
    res.scopes.resetInferred.openCount ≤ unit.functions.length := by
  obtain ⟨users, hs, hf⟩ := h.sigs
  have hsigs : res.scopes.resetInferred.sigs = builtinSignatures ++ users := hs
  have hb : builtinSignatures.countP (fun sig => !sig.ret.isFullyKnown) = 0 := by
    rw [List.countP_eq_zero]
    intro sig hm
    simp [(builtinSignatures_prim sig hm).2.isFullyKnown]
  rw [openCount, hsigs, List.countP_append, hb, Nat.zero_add, hf.length_eq]
  exact List.countP_le_length

theorem CompileUnit.ResolvedIn.refined_sigs (href : res.scopes.resetInferred.Refined base) :
    ∃ users, base.sigs = builtinSignatures ++ users ∧
      List.Forall₂ (fun fn sig => ∃ shown, fn.Shows res.unitScope shown ∧ shown.Refined sig)
        unit.functions users := by
  obtain ⟨users, hs, hf⟩ := h.sigs
  have hsigs : List.Forall₂ Signature.Refined (builtinSignatures ++ users) base.sigs :=
    hs ▸ href.sigs
  refine ⟨base.sigs.drop builtinSignatures.length, ?_, ?_⟩
  · have htake : List.Forall₂ Signature.Refined builtinSignatures
        (base.sigs.take builtinSignatures.length) := by
      simpa using List.forall₂_take builtinSignatures.length hsigs
    have hsame : List.Forall₂ Eq builtinSignatures (base.sigs.take builtinSignatures.length) := by
      rw [List.forall₂_iff_get] at htake ⊢
      refine ⟨htake.1, fun i h₁ h₂ => ?_⟩
      have hr := htake.2 i h₁ h₂
      have hp := (builtinSignatures_prim _ (List.get_mem builtinSignatures ⟨i, h₁⟩)).2
      rcases hr.2 with he | ⟨ho, _⟩
      · have hfields := hr.1
        rw [he] at hfields
        exact hfields.symm
      · rw [hp.isFullyKnown] at ho
        cases ho
    rw [List.forall₂_eq_eq_eq] at hsame
    conv_lhs => rw [← List.take_append_drop builtinSignatures.length base.sigs, ← hsame]
  · have hdrop : List.Forall₂ Signature.Refined users
        (base.sigs.drop builtinSignatures.length) := by
      simpa using List.forall₂_drop builtinSignatures.length hsigs
    rw [List.forall₂_iff_get] at hf hdrop ⊢
    refine ⟨hf.1.trans hdrop.1, fun i h₁ h₂ => ?_⟩
    have hlt : i < users.length := hf.1 ▸ h₁
    exact ⟨_, hf.2 i h₁ hlt, hdrop.2 i hlt h₂⟩

theorem CompileUnit.ResolvedIn.signature {i : Nat} {sig : SigId}
    (hs : res.signatures[i]? = some sig) : sig = builtinSignatures.length + i := by
  rw [h.signatures] at hs
  obtain ⟨hlt, he⟩ := List.getElem?_eq_some_iff.mp hs
  rw [← he, List.getElem_range', Nat.one_mul]

theorem CompileUnit.ResolvedIn.signatures_length :
    res.signatures.length = unit.functions.length := by
  rw [h.signatures, List.length_range']

theorem CompileUnit.ResolvedIn.numbered_base (href : res.scopes.resetInferred.Refined base) :
    Numbered base 0 unit.sites := by
  refine h.numbered.of_decls ?_
  intro id var hv
  refine ⟨var.declared, ?_⟩
  rw [href.decls]
  simp [resetInferred, hv]

theorem CompileUnit.ResolvedIn.ready (href : res.scopes.resetInferred.Refined base)
    (hex : List.Forall₂ (FnDef.Explored res.unitScope base) unit.functions res.signatures) (i : Nat)
    (fn : FnDef) (sig : SigId) (hf : unit.functions[i]? = some fn)
    (hs : res.signatures[i]? = some sig) :
    fn.Ready res.unitScope base (fnStart unit.functions i) sig := by
  obtain ⟨hlt, rfl⟩ := List.getElem?_eq_some_iff.mp hf
  obtain ⟨hlt', rfl⟩ := List.getElem?_eq_some_iff.mp hs
  refine ⟨h.functions _ (List.getElem_mem hlt), (h.numbered_base href).function hf,
    hex.get hlt hlt', ?_⟩
  obtain ⟨users, hsigs, hshow⟩ := h.refined_sigs href
  have hltu : i < users.length := hshow.length_eq ▸ hlt
  obtain ⟨shown, hsh, hrf⟩ := hshow.get hlt hltu
  refine ⟨shown, users[i], hsh, ?_, hrf⟩
  rw [h.signature hs, hsigs, List.getElem?_append_right (Nat.le_add_right _ _),
    Nat.add_sub_cancel_left, List.getElem?_eq_getElem hltu]

theorem CompileUnit.ResolvedIn.settled (href : res.scopes.resetInferred.Refined base)
    (hk : ∀ i sig, i < unit.functions.length → res.signatures[i]? = some sig →
      ∃ signature, base.sigs[sig]? = some signature ∧ signature.ret.Prim) : base.Settled := by
  obtain ⟨users, hsigs, hshow⟩ := h.refined_sigs href
  have hplain := href.plain h.plain
  refine ⟨hplain.params, ?_, href.unambiguous h.unambiguous⟩
  intro sig hm
  rw [hsigs] at hm
  rcases List.mem_append.mp hm with hm | hm
  · exact (builtinSignatures_prim sig hm).2
  · obtain ⟨i, hlt, rfl⟩ := List.getElem_of_mem hm
    have hi : i < unit.functions.length := hshow.length_eq ▸ hlt
    have hs : res.signatures[i]? = some (builtinSignatures.length + i) := by
      simp [h.signatures, hi]
    obtain ⟨signature, hsig, hp⟩ := hk i _ hi hs
    rw [hsigs, List.getElem?_append_right (Nat.le_add_right _ _), Nat.add_sub_cancel_left,
      List.getElem?_eq_getElem hlt, Option.some.injEq] at hsig
    exact hsig ▸ hp

theorem CompileUnit.ResolvedIn.pending (href : res.scopes.resetInferred.Refined base)
    {order : List Nat} (hn : order.Nodup) : Pending base unit.functions order unit.functions base :=
  ⟨hn, fun _ _ => rfl, href.plain h.plain, fun _ _ => .refl _ _, rfl⟩

theorem CompileUnit.ResolvedIn.commitFunctions {order : List Nat} {fns' : List FnDef}
    (href : res.scopes.resetInferred.Refined base)
    (hex : List.Forall₂ (FnDef.Explored res.unitScope base) unit.functions res.signatures)
    (horder : order.Perm (List.range unit.functions.length))
    (hc : commitFunctions res.unitScope res.signatures order unit.functions base =
      .done fns' tree) :
    base.Settled ∧ Committed res.unitScope res.signatures base unit.functions order unit.functions
      fns' base tree := by
  have hready := h.ready href hex
  have hmem : ∀ i, i ∈ order ↔ i < unit.functions.length := by
    intro i
    rw [horder.mem_iff, List.mem_range]
  have hlt := fun i hm => (hmem i).mp hm
  have hpending := h.pending href (horder.nodup_iff.mpr List.nodup_range)
  have hknown := commitFunctions_known h.signatures_length hready rfl hlt hpending hc
  have hset := h.settled href fun i sig hi hs => hknown i ((hmem i).mpr hi) sig hs
  exact ⟨hset, commitFunctions_typed h.signatures_length hready hset rfl hlt hpending hc⟩

theorem CompileUnit.ResolvedIn.commitScript {on : DeclId → Prop} {body : Block}
    {ctx : RoutineContext} (hset : base.Settled)
    (hnum : Numbered base 0 unit.sites) (hframe : base.Agree on tree) (hplain : tree.Plain)
    (hbody : unit.script.body.infer .commit res.unitScope ⟨.int, unit.script.span, true⟩ tree =
      .done (body, ctx) tree') :
    TypedRun (fnStart unit.functions unit.functions.length)
      (fnStart unit.functions unit.functions.length) unit.script.body.sites.length tree tree'
      (unit.script.body.extend []) fun other => body.WellTyped other res.unitScope .int := by
  have hstart : (unit.functions.flatMap FnDef.sites).length =
      fnStart unit.functions unit.functions.length := by simp [fnStart]
  have hnumScript := (numbered_append.mp hnum).2
  rw [Nat.zero_add, hstart] at hnumScript
  have hk := Known.nil (hset.of_agree hframe) hplain (fnStart unit.functions unit.functions.length)
  have hint : (RoutineContext.mk .int unit.script.span true).expected.Prim := Ty.prim_int
  exact (Block.infer_typed unit.script.body hk (hnumScript.of_agree hframe) h.script rfl hint
    hbody).2

theorem CompileUnit.ResolvedIn.function_typed {order : List Nat} {fns' : List FnDef}
    (horder : order.Perm (List.range unit.functions.length))
    (hdone : Committed res.unitScope res.signatures base unit.functions order unit.functions fns'
      base tree) {len : Nat}
    (hframe : tree.Agree (fun id => ¬ between (fnStart unit.functions unit.functions.length)
      (fnStart unit.functions unit.functions.length + len) id) tree') {i : Nat}
    (hi : i < unit.functions.length) :
    ∃ fn' signature, fns'[i]? = some fn' ∧
      base.sigs[builtinSignatures.length + i]? = some signature ∧
      fn'.clear true = unit.functions[i].clear true ∧
      fn'.WellTyped tree' res.unitScope signature := by
  have hm : i ∈ order := horder.mem_iff.mpr (List.mem_range.mpr hi)
  have hs : res.signatures[i]? = some (builtinSignatures.length + i) := by
    simp [h.signatures, hi]
  obtain ⟨fn', signature, hf', hsig, hclear, htyped⟩ :=
    hdone.typed i hm _ _ (List.getElem?_eq_getElem hi) hs
  refine ⟨fn', signature, hf', hsig, hclear, htyped tree' (hframe.mono ?_)⟩
  intro id hid hb
  exact Nat.not_lt_of_le (Nat.le_trans (fnStart_mono _ (Nat.succ_le_of_lt hi)) hb.1) hid.2

/-- Inference of a resolved unit leaves a checked one. -/
theorem CompileUnit.ResolvedIn.infer
    (hi : unit.infer res.unitScope res.signatures res.scopes = .done unit' tree') :
    unit'.Checked { res with scopes := tree' } ∧ unit'.clear true = unit.clear true ∧
      tree'.Settled := by
  obtain ⟨lasts, fns', script', tree₁, tree₂, hdisc, hcommit, hscript, rfl⟩ :=
    CompileUnit.infer_eq_done.mp hi
  obtain ⟨hlasts, href, hex⟩ := discoverReturns_spec h.signatures_length h.functions h.plain
    h.openCount_le hdisc
  have horder := commitOrder_perm lasts
  rw [hlasts] at horder
  obtain ⟨hset, hdone⟩ := h.commitFunctions href hex horder hcommit
  obtain ⟨body, ctx, hbody, rfl⟩ := Script.commit_eq_done.mp hscript
  have hnum := h.numbered_base href
  have hrun := h.commitScript hset hnum hdone.frame hdone.plain hbody
  have hall : tree₁.resetInferred.Agree (fun _ => False) tree' :=
    (hdone.frame.mono fun _ hf => hf.elim).trans (hrun.frame.mono fun _ hf => hf.elim)
  have hfns : fns'.map (FnDef.clear true) = unit.functions.map (FnDef.clear true) := by
    refine List.ext_getElem (by simp [hdone.length]) fun i h₁ h₂ => ?_
    rw [List.length_map] at h₁ h₂
    obtain ⟨fn', _, hf', _, hc, _⟩ := h.function_typed horder hdone hrun.frame h₂
    rw [List.getElem?_eq_getElem h₁, Option.some.injEq] at hf'
    rw [List.getElem_map, List.getElem_map, hf', hc]
  have hclear : ({ unit with functions := fns', script := { unit.script with body } } :
      CompileUnit).clear true = unit.clear true := by
    simp only [CompileUnit.clear, Script.clear, hfns, Block.infer_clear _ hbody]
  refine ⟨?_, hclear, hrun.known.settled⟩
  obtain ⟨users, hsigs, hshow⟩ := h.refined_sigs href
  constructor
  case unitScope => exact h.unitScope
  case parents =>
    obtain ⟨more, hm⟩ := h.parents
    exact ⟨more, by rw [← hall.parents, href.parents]; exact hm⟩
  case signatures => simp only [h.signatures, hdone.length]
  case sigs =>
    refine ⟨users, hall.sigs ▸ hsigs, List.forall₂_iff_get.mpr ?_⟩
    refine ⟨hdone.length.trans hshow.length_eq, ?_⟩
    intro i h₁ h₂
    have hi : i < unit.functions.length := hdone.length ▸ h₁
    obtain ⟨fn', signature, hf', hs', _, ht⟩ := h.function_typed horder hdone hrun.frame hi
    rw [List.getElem?_eq_getElem h₁, Option.some.injEq] at hf'
    rw [hsigs, List.getElem?_append_right (Nat.le_add_right _ _), Nat.add_sub_cancel_left,
      List.getElem?_eq_getElem h₂, Option.some.injEq] at hs'
    obtain ⟨shown, ⟨_, _, _, rfl⟩, hrf⟩ := hshow.get hi h₂
    have hkind := congrArg Signature.kind hrf.1
    simp only [List.get_eq_getElem, hf', hs'] at hrf hkind ⊢
    exact ⟨ht, hkind, hrf.scope⟩
  case functions =>
    intro fn' hm
    have hm' : fn'.clear true ∈ unit.functions.map (FnDef.clear true) :=
      hfns ▸ List.mem_map_of_mem hm
    obtain ⟨fn, hm', he⟩ := List.mem_map.mp hm'
    exact FnDef.resolved_of_clear he.symm (h.functions fn hm')
  case script =>
    change body.Resolved []
    rw [← Block.resolved_clear, Block.infer_clear _ hbody, Block.resolved_clear]
    exact h.script
  case scriptTyped => exact hrun.typed tree' (.refl _ _)
  case numbered =>
    rw [CompileUnit.sites_of_clear hclear]
    exact hnum.of_agree hall
  case length =>
    rw [CompileUnit.sites_of_clear hclear, ← h.length, ← hall.length, href.decls]
    simp [resetInferred]

end

theorem CompileUnit.Checked.wellTyped (h : unit.Checked res) : unit.WellTyped res := by
  obtain ⟨users, hsigs, hf⟩ := h.sigs
  refine ⟨?_, h.scriptTyped⟩
  rw [h.signatures]
  refine List.forall₂_iff_get.mpr ⟨by simp, fun i h₁ h₂ => ?_⟩
  have hlt : i < users.length := hf.length_eq ▸ h₁
  refine ⟨users[i], ?_, (hf.get h₁ hlt).1⟩
  simp [hsigs, hlt]

theorem Run.ofOutcome_eq_ok {σ α : Type} {outcome : Outcome σ CompileUnit (CompileUnit × α)}
    {a : α} :
    Run.ofOutcome outcome = ⟨unit, .ok a⟩ ↔ ∃ s, outcome = .done (unit, a) s := by
  cases outcome with
  | done value s => simp [Run.ofOutcome, Prod.ext_iff]
  | stopped node halt s => simp [Run.ofOutcome]

theorem CompileUnit.check_eq_ok :
    unit.check = ⟨unit', .ok res⟩ ↔
      ∃ bound start, unit.resolve {} = .done (bound, start) start.scopes ∧
        bound.infer start.unitScope start.signatures start.scopes = .done unit' res.scopes ∧
        res = { start with scopes := res.scopes } := by
  simp only [CompileUnit.check, Run.ofOutcome_eq_ok, CompileUnit.checkPass, bind_eq_done,
    note_eq_done, scopes_eq_done, pure_eq_done, Prod.exists, Prod.mk.injEq]
  constructor
  · rintro ⟨_, _, _, rfl, bound, start, tree, hr, _, _, hi, _, _, ⟨rfl, rfl⟩, ⟨rfl, rfl⟩, rfl⟩
    obtain ⟨_, _, rfl⟩ := CompileUnit.resolve_spec hr
    exact ⟨bound, start, hr, hi, rfl⟩
  · rintro ⟨bound, start, hr, hi, he⟩
    exact ⟨res.scopes, (), _, rfl, bound, start, _, hr, unit', _, hi, _, _, ⟨rfl, rfl⟩,
      ⟨rfl, he.symm⟩, rfl⟩

theorem CompileUnit.check_spec (h : unit.check.result = .ok res) :
    unit.check.unit.Checked res ∧ unit.check.unit.clear false = unit.clear false := by
  have hcheck : unit.check = ⟨unit.check.unit, .ok res⟩ := by rw [← h]
  obtain ⟨bound, start, hr, hi, he⟩ := CompileUnit.check_eq_ok.mp hcheck
  obtain ⟨hres, hclear, _⟩ := CompileUnit.resolve_spec hr
  obtain ⟨hchecked, hclear', _⟩ := hres.infer hi
  refine ⟨he ▸ hchecked, ?_⟩
  rw [← hclear, ← CompileUnit.clear_clear true, hclear', CompileUnit.clear_clear]

theorem CompileUnit.check_settled (h : unit.check.result = .ok res) : res.scopes.Settled := by
  have hcheck : unit.check = ⟨unit.check.unit, .ok res⟩ := by rw [← h]
  obtain ⟨bound, start, hr, hi, -⟩ := CompileUnit.check_eq_ok.mp hcheck
  exact ((CompileUnit.resolve_spec hr).1.infer hi).2.2

end

/-! ## Soundness -/

/-- A unit that the check accepts is left as it was written, with its names bound and its types
right. -/
theorem check_sound {unit : CompileUnit} {res : Resolution} (h : unit.check.result = .ok res) :
    unit.check.unit.clear false = unit.clear false ∧
      (∀ fn ∈ unit.check.unit.functions, fn.Resolved) ∧
      unit.check.unit.script.body.Resolved [] ∧ unit.check.unit.WellTyped res := by
  obtain ⟨hchecked, hclear⟩ := CompileUnit.check_spec h
  exact ⟨hclear, hchecked.functions, hchecked.script, hchecked.wellTyped⟩

/-- Adds up the numbers to a limit whose type takes two rounds to find out. -/
def triangle : CompileUnit where
  functions := [
    { name := "last", params := [], ret := none
      body := { stmts := [], ret := some { value := .call "twice" [.lit (.int 3)] } } },
    { name := "twice", params := [{ name := "n", ty := { name := "Int" } }], ret := none
      body := { stmts := [], ret := some { value := .call "*" [.var "n", .lit (.int 2)] } } }]
  script :=
    { name := "main"
      body := {
        stmts := [
          .decl "sum" none (.lit (.int 0)),
          .forLoop "i" (.lit (.int 1)) (.call "last" []) {
            stmts := [.assign "sum" (.call "+" [.var "sum", .var "i"])] }]
        ret := some { value := .var "sum" } } }

theorem check_sound_triangle :
    ∃ res, triangle.check.result = .ok res ∧ triangle.check.unit.WellTyped res := by
  have hok : triangle.check.result.isOk = true := by decide +kernel
  cases h : triangle.check.result with
  | error halt =>
    rw [h] at hok
    cases hok
  | ok res => exact ⟨res, rfl, (check_sound h).2.2.2⟩

end ScriptLang
