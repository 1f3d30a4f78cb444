import ScriptLang.Proofs.Transience

/-!
# Rounds of discovery

Discovery goes on until a round settles nothing. A round that does not end it has settled a function
that was open, so there are at most as many rounds as open functions, and one more. All that
happens to the scope tree on the way is that open return types are settled, each once, and that
variables are retyped. In the end, no probe tells the return type of a function that is still open.
-/

namespace ScriptLang

open Pass ScopeTree

variable {tree : ScopeTree} {id : SigId} {unit : CompileUnit} {res : Resolution}

/-! ## Open functions -/

/-- Whether a signature is there and its return type is still open. -/
def ScopeTree.isOpen (tree : ScopeTree) (id : SigId) : Bool :=
  tree.sigs[id]?.any fun sig => !sig.ret.isFullyKnown

theorem ScopeTree.isOpen_iff :
    tree.isOpen id = true ↔
      ∃ sig, tree.sigs[id]? = some sig ∧ sig.ret.isFullyKnown = false := by
  unfold isOpen
  cases tree.sigs[id]? <;> simp

theorem ScopeTree.Refined.isOpen {tree' : ScopeTree} (h : tree.Refined tree')
    (ho : tree'.isOpen id = true) : tree.isOpen id = true := by
  obtain ⟨sig', hs', ho'⟩ := isOpen_iff.mp ho
  have hlt : id < tree.sigs.length := by
    rw [h.sigs.length_eq]
    exact (List.getElem?_eq_some_iff.mp hs').1
  obtain ⟨sig, hs⟩ : ∃ sig, tree.sigs[id]? = some sig := ⟨_, List.getElem?_eq_getElem hlt⟩
  obtain ⟨sig₁, hs₁, hr⟩ := h.sig hs
  rw [hs'] at hs₁
  cases hs₁
  refine isOpen_iff.mpr ⟨sig, hs, ?_⟩
  rcases hr.2 with he | ⟨ho, _⟩
  · rw [← he, ho']
  · exact ho

theorem ScopeTree.Refined.exists_settled {tree' : ScopeTree} (h : tree.Refined tree')
    (hlt : tree'.openCount < tree.openCount) :
    ∃ id, tree.isOpen id = true ∧ tree'.isOpen id = false := by
  have hs := h.sigs
  unfold openCount at hlt
  unfold ScopeTree.isOpen
  generalize tree.sigs = sigs, tree'.sigs = sigs' at hs hlt
  induction hs with
  | nil => exact (Nat.lt_irrefl 0 hlt).elim
  | @cons sig sig' _ _ hr _ ih =>
    by_cases hnow : sig.ret.isFullyKnown = false ∧ sig'.ret.isFullyKnown = true
    · exact ⟨0, by simp [hnow.1], by simp [hnow.2]⟩
    · have hsame : sig'.ret.isFullyKnown = sig.ret.isFullyKnown := by
        rcases hr.2 with he | ⟨ho, hp⟩
        · rw [he]
        · exact (hnow ⟨ho, hp.isFullyKnown⟩).elim
      rw [List.countP_cons, List.countP_cons, hsame] at hlt
      obtain ⟨id, hopen, hknown⟩ := ih (by omega)
      exact ⟨id + 1, by simpa using hopen, by simpa using hknown⟩

theorem countP_range'_append (xs ys : List α) (p : α → Bool) :
    (List.range' xs.length ys.length).countP (fun i => (xs ++ ys)[i]?.any p) = ys.countP p := by
  have hmap : (List.range' xs.length ys.length).map (fun i => (xs ++ ys)[i]?) = ys.map some := by
    apply List.ext_getElem
    · simp
    · intro i hi hi'
      have hlt : i < ys.length := by simpa using hi'
      simp [hlt]
  have hcount := congrArg (List.countP (Option.any p)) hmap
  simpa [List.countP_map, Function.comp_def] using hcount

theorem CompileUnit.ResolvedIn.openCount_eq (h : unit.ResolvedIn res) :
    res.scopes.openCount = res.signatures.countP res.scopes.isOpen := by
  obtain ⟨users, hs, hf⟩ := h.sigs
  have hb : builtinSignatures.countP (fun sig => !sig.ret.isFullyKnown) = 0 := by
    rw [List.countP_eq_zero]
    intro sig hm
    simp [(builtinSignatures_prim sig hm).2.isFullyKnown]
  unfold openCount ScopeTree.isOpen
  rw [h.signatures, hf.length_eq, hs, countP_range'_append, List.countP_append, hb, Nat.zero_add]

theorem CompileUnit.ResolvedIn.mem_of_isOpen (h : unit.ResolvedIn res)
    (ho : res.scopes.isOpen id = true) : id ∈ res.signatures := by
  obtain ⟨users, hs, hf⟩ := h.sigs
  obtain ⟨sig, hsig, hopen⟩ := isOpen_iff.mp ho
  rw [h.signatures, List.mem_range'_1, hf.length_eq]
  have hlt := (List.getElem?_eq_some_iff.mp hsig).1
  rw [hs, List.length_append] at hlt
  refine ⟨?_, hlt⟩
  -- Built-ins come before, and their results are known.
  by_contra hbuiltin
  rw [hs, List.getElem?_append_left (Nat.lt_of_not_le hbuiltin)] at hsig
  have hprim := (builtinSignatures_prim sig (List.mem_of_getElem? hsig)).2
  rw [hprim.isFullyKnown] at hopen
  cases hopen

/-! ## Rounds -/

/-- Rounds of probes, so many of them: each settles a function that was open, but for the last
one, which settles nothing. -/
inductive Rounds (node : ν) (scope : ScopeId) (fns : List FnDef) (sigs : List SigId) :
    (count round : Nat) → List LastError → ScopeTree → List LastError → ScopeTree → Prop
  | last {round : Nat} {lasts lasts' : List LastError} {tree tree' : ScopeTree}
    (h : probeRound node scope round fns sigs lasts tree = .done (lasts', false) tree') :
    Rounds node scope fns sigs 1 round lasts tree lasts' tree'
  | more {count round : Nat} {lasts lasts₁ lasts' : List LastError} {tree tree₁ tree' : ScopeTree}
    (h : probeRound node scope round fns sigs lasts tree = .done (lasts₁, true) tree₁)
    (hsettles : ∃ id ∈ sigs, tree.isOpen id = true ∧ tree₁.isOpen id = false)
    (hrest : Rounds node scope fns sigs count (round + 1) lasts₁ tree₁ lasts' tree') :
    Rounds node scope fns sigs (count + 1) round lasts tree lasts' tree'

theorem probeRounds_rounds {node : ν} {scope : ScopeId} {fns : List FnDef} {sigs : List SigId}
    (hsl : sigs.length = fns.length) (hf : ∀ fn ∈ fns, fn.Resolved) {fuel : Nat} :
    ∀ {round : Nat} {lasts lasts' : List LastError} {tree tree' : ScopeTree},
    lasts.length = fns.length → tree.resetInferred.Plain →
    (∀ id, tree.isOpen id = true → id ∈ sigs) → tree.openCount < fuel →
    probeRounds node scope fns sigs fuel round lasts tree = .done lasts' tree' →
    ∃ count, count ≤ tree.openCount + 1 ∧
      Rounds node scope fns sigs count round lasts tree lasts' tree' := by
  induction fuel with
  | zero =>
    intro _ _ _ _ _ _ _ _ hlt
    exact (Nat.not_lt_zero _ hlt).elim
  | succ fuel ih =>
    intro round lasts lasts' tree tree' hll hp hopen hlt h
    simp only [probeRounds, bind_eq_done, Prod.exists] at h
    obtain ⟨lasts₁, settled, tree₁, hr, h⟩ := h
    obtain ⟨hlen, href, hdec, _⟩ := probeRound_spec hsl hll hf hp hr
    cases settled with
    | false =>
      obtain ⟨rfl, rfl⟩ := pure_eq_done.mp h
      exact ⟨1, Nat.le_add_left 1 _, .last hr⟩
    | true =>
      have hdec : tree₁.openCount < tree.openCount := hdec rfl
      obtain ⟨id, ho, hknown⟩ := href.exists_settled hdec
      obtain ⟨count, hle, hrest⟩ := ih hlen (href.plain hp)
        (fun id ho => hopen id (href.isOpen ho)) (by omega) h
      exact ⟨count + 1, by omega, .more hr ⟨id, hopen id ho, ho, hknown⟩ hrest⟩

/-! ## The trees on the way -/

/-- What the trees of a history, the oldest first, have in common with the tree at the start. The
return type of a signature changes once at most, if it was open. -/
structure SettlesOnce (start : ScopeTree) (sigs : List SigId) (history : List ScopeTree) :
    Prop where
  parents : ∀ tree ∈ history, tree.parents = start.parents
  decls : ∀ tree ∈ history,
    List.Forall₂ (fun var var' => var' = { var with ty := var'.ty }) start.decls tree.decls
  returns : ∀ id, ∃ before after, history = before ++ after ∧
    (∀ tree ∈ before, tree.sigs[id]? = start.sigs[id]?) ∧
    (after ≠ [] → id ∈ sigs ∧ ∃ sig ret, start.sigs[id]? = some sig ∧
      sig.ret.isFullyKnown = false ∧ ret.Prim ∧
      ∀ tree ∈ after, tree.sigs[id]? = some { sig with ret })

/-- The later tree is the earlier one with some open return types settled and some variables
retyped. -/
structure ScopeTree.Becomes (earlier later : ScopeTree) : Prop where
  refined : earlier.resetInferred.Refined later.resetInferred

namespace ScopeTree.Becomes

variable {start tree tree' : ScopeTree}

theorem refl (tree : ScopeTree) : tree.Becomes tree :=
  ⟨.refl _⟩

theorem trans (h : start.Becomes tree) (k : tree.Becomes tree') : start.Becomes tree' :=
  ⟨h.refined.trans k.refined⟩

instance : IsTrans ScopeTree Becomes :=
  ⟨fun _ _ _ => trans⟩

theorem decls (h : tree.Becomes tree') :
    List.Forall₂ (fun var var' => var' = { var with ty := var'.ty }) tree.decls tree'.decls := by
  have hmap : tree.decls.map (fun var => { var with ty := var.declared }) =
      tree'.decls.map fun var => { var with ty := var.declared } := h.refined.decls.symm
  have hsame := List.forall₂_eq_eq_eq ▸ hmap
  refine (List.forall₂_map_right_iff.mp (List.forall₂_map_left_iff.mp hsame)).imp ?_
  intro var var' he
  obtain ⟨name, declared, ty, kind, scope, span⟩ := var
  obtain ⟨name', declared', ty', kind', scope', span'⟩ := var'
  simp only [VarDecl.mk.injEq] at he ⊢
  obtain ⟨rfl, rfl, _, rfl, rfl, rfl⟩ := he
  simp

theorem changed (h : tree.Becomes tree') (hne : tree'.sigs[id]? ≠ tree.sigs[id]?) :
    ∃ sig ret, tree.sigs[id]? = some sig ∧ sig.ret.isFullyKnown = false ∧ ret.Prim ∧
      tree'.sigs[id]? = some { sig with ret } := by
  have hsigs : List.Forall₂ Signature.Refined tree.sigs tree'.sigs := h.refined.sigs
  cases hs : tree.sigs[id]? with
  | none =>
    have hlen := List.getElem?_eq_none_iff.mp hs
    rw [hsigs.length_eq] at hlen
    rw [hs, List.getElem?_eq_none hlen] at hne
    exact (hne rfl).elim
  | some sig =>
    obtain ⟨sig', hs', hsame, hret⟩ := h.refined.sig hs
    have hs' : tree'.sigs[id]? = some sig' := hs'
    rcases hret with hret | ⟨ho, hp⟩
    · rw [hs', hs, hsame, hret] at hne
      exact (hne rfl).elim
    · exact ⟨sig, sig'.ret, rfl, ho, hp, hsame ▸ hs'⟩

theorem settlesOnce {sigs : List SigId} {history : List ScopeTree}
    (hpair : history.Pairwise Becomes) (hstart : ∀ tree ∈ history, start.Becomes tree)
    (hopen : ∀ id, start.isOpen id = true → id ∈ sigs) : SettlesOnce start sigs history := by
  refine ⟨fun tree hm => (hstart tree hm).refined.parents,
    fun tree hm => (hstart tree hm).decls, ?_⟩
  intro id
  induction history with
  | nil => exact ⟨[], [], rfl, by simp, by simp⟩
  | cons tree rest ih =>
    obtain ⟨hafter, hrest⟩ := List.pairwise_cons.mp hpair
    obtain ⟨htree, hstart⟩ := List.forall_mem_cons.mp hstart
    by_cases hsame : tree.sigs[id]? = start.sigs[id]?
    · obtain ⟨before, after, he, hbefore, hafter⟩ := ih hrest hstart
      refine ⟨tree :: before, after, by rw [he]; rfl, ?_, hafter⟩
      exact List.forall_mem_cons.mpr ⟨hsame, hbefore⟩
    · obtain ⟨sig, ret, hs, ho, hp, hnow⟩ := htree.changed hsame
      refine ⟨[], tree :: rest, rfl, by simp, fun _ => ?_⟩
      refine ⟨hopen id (isOpen_iff.mpr ⟨sig, hs, ho⟩), sig, ret, hs, ho, hp, ?_⟩
      refine List.forall_mem_cons.mpr ⟨hnow, fun later hm => ?_⟩
      -- What is settled is known, and does not change again.
      by_contra hne
      rw [← hnow] at hne
      obtain ⟨sig', _, hs', ho', _⟩ := (hafter later hm).changed hne
      rw [hnow] at hs'
      cases hs'
      rw [hp.isFullyKnown] at ho'
      cases ho'

end ScopeTree.Becomes

/-! ## Discovery as a whole -/

theorem FnDef.inferBody_left (fn : FnDef) (scope : ScopeId) (sig : SigId) (tree : ScopeTree) :
    (fn.inferBody .probe scope sig tree).left Prod.fst = fn := by
  rw [FnDef.inferBody_again rfl scope sig tree]
  cases fn.inferBody .probe scope sig tree <;> rfl

theorem CompileUnit.regular_resolve {bound : CompileUnit}
    (h : unit.resolve {} = .done (bound, res) tree) : tree.Regular := by
  obtain ⟨chronicle, _, hcur, hgrows⟩ := unit.resolve_traced {} {} rfl
  rw [h] at hcur
  have hsteps := hgrows.steps
  rw [hcur] at hsteps
  exact Regular.new.steps hsteps

/-- How discovery ends, and what it has done on the way. -/
structure Discovery (unit : CompileUnit) (res : Resolution) (rounds : Nat)
    (lasts : List LastError) (chronicle : Chronicle) : Prop where
  /-- On a scope tree and on a chronicle it comes to the same end. -/
  ends : discoverReturns unit res.unitScope unit.functions res.signatures res.scopes =
    .done lasts chronicle.current
  chronicled : discoverReturns unit res.unitScope unit.functions res.signatures
    (⟨res.scopes, []⟩ : Chronicle) = .done lasts chronicle
  /-- Every round but the last settles a function. -/
  runs : Rounds unit res.unitScope unit.functions res.signatures rounds 1
    (unit.functions.map fun _ => none) res.scopes lasts chronicle.current
  bounded : rounds ≤ res.signatures.countP res.scopes.isOpen + 1
  /-- Probes leave the functions as they are. -/
  untouched : ∀ fn ∈ unit.functions, ∀ (sig : SigId) (tree : ScopeTree),
    (fn.inferBody .probe res.unitScope sig tree).left Prod.fst = fn
  settles : SettlesOnce res.scopes res.signatures chronicle.trees.reverse
  /-- A function that is still open cannot be probed with a known result. -/
  stuck : List.Forall₂ (fun fn sig => chronicle.current.isOpen sig = true →
    fn.Stuck res.unitScope chronicle.current.resetInferred sig) unit.functions res.signatures

/-- Discovery comes to an end, within one round more than functions were open. It has settled open
return types, each at most once, and has done nothing else that lasts; and it has left no function
open whose return type could be told. -/
theorem discovery_adds_knowledge {unit bound : CompileUnit} {res : Resolution}
    (hr : unit.resolveNames = ⟨bound, .ok res⟩) :
    ∃ rounds lasts chronicle, Discovery bound res rounds lasts chronicle := by
  obtain ⟨start, hres⟩ := Run.ofOutcome_eq_ok.mp hr
  obtain ⟨h, -, rfl⟩ := CompileUnit.resolve_spec hres
  have hplain := (CompileUnit.regular_resolve hres).plain
  obtain ⟨lasts, tree, hd⟩ := h.discover_total bound
  obtain ⟨chronicle, hp, hcur, hgrows⟩ :=
    discoverReturns_traced bound h.functions res.signatures hplain ⟨res.scopes, []⟩ rfl
  rw [hd] at hp hcur
  obtain rfl : chronicle.current = tree := hcur
  obtain ⟨rounds, hle, hruns⟩ := probeRounds_rounds h.signatures_length h.functions (by simp)
    h.plain (fun id => h.mem_of_isOpen) (Nat.lt_succ_of_le h.openCount_le) hd
  refine ⟨rounds, lasts, chronicle, ?_⟩
  constructor
  case ends => exact hd
  case chronicled => exact hp
  case runs => exact hruns
  case bounded => rwa [← h.openCount_eq]
  case untouched => exact fun fn _ sig tree => fn.inferBody_left res.unitScope sig tree
  case settles =>
    have hpair := hgrows.pairwise (fun _ _ hstep => Becomes.mk hstep.refined)
      (by simp [Chronicle.trees])
    have hstart := hgrows.forall_mem (P := res.scopes.Becomes)
      (fun _ _ hstep hb => hb.trans ⟨hstep.refined⟩)
      (by simpa [Chronicle.trees] using Becomes.refl res.scopes)
    refine Becomes.settlesOnce (List.pairwise_reverse.mpr hpair) ?_ fun id => h.mem_of_isOpen
    exact fun tree hm => hstart tree (List.mem_reverse.mp hm)
  case stuck =>
    refine (discoverReturns_spec h.signatures_length h.functions h.plain h.openCount_le hd).2.2.imp
      ?_
    rintro fn sig ⟨signature, hs, hknown | hstuck⟩ ho
    · obtain ⟨_, hs', ho⟩ := isOpen_iff.mp ho
      have hs : chronicle.current.sigs[sig]? = some signature := hs
      rw [hs] at hs'
      cases hs'
      rw [hknown] at ho
      cases ho
    · exact hstuck

theorem discovery_adds_knowledge_wavering :
    ∃ bound res, (wavering (.int 2)).backwards.resolveNames = ⟨bound, .ok res⟩ ∧
      ∃ rounds lasts chronicle, Discovery bound res rounds lasts chronicle := by
  have hok : (wavering (.int 2)).backwards.resolveNames.result.isOk = true := by decide +kernel
  cases hr : (wavering (.int 2)).backwards.resolveNames with
  | mk bound result =>
    rw [hr] at hok
    cases result with
    | error halt => cases hok
    | ok res => exact ⟨bound, res, rfl, discovery_adds_knowledge hr⟩

end ScriptLang
