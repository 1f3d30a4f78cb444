import ScriptLang.Proofs.DefinitionOrder
import ScriptLang.Proofs.RepeatedInference

/-!
# Inference repeated

Inference that is run a second time, on the unit and within the resolution that the first run left,
gives the same result and changes neither, whether the first run went through or not. For the second
run to start where the first one did, what was found out about return types must not have been lost
in between: committing adds nothing to what discovery left.
-/

namespace ScriptLang

open Pass ScopeTree

variable {fn : FnDef} {fns : List FnDef} {order : List Nat} {sig : SigId} {tree : ScopeTree}
  {lasts : List LastError} {round : Nat}

/-! ## Discovery -/

theorem FnDef.inferBody_again {again : FnDef} (h : again.clear true = fn.clear true)
    (scope : ScopeId) (sig : SigId) (tree : ScopeTree) :
    again.inferBody .probe scope sig tree =
      (fn.inferBody .probe scope sig tree).leaving (fun out => (again, out.2)) again := by
  obtain ⟨body', retSlot', rfl, hbody⟩ := FnDef.of_clear h
  cases hs : (tree.signature sig).mapError Halt.fault with
  | error => simp [FnDef.inferBody, hs]
  | ok signature =>
    have hleft : SlotsOnly Block.clear fn.body
        ((fn.body.infer .probe scope ⟨signature.ret, fn.span, false⟩ tree).left Prod.fst) :=
      (fn.body.infer_delivers _ tree).1
    cases hb : fn.body.infer .probe scope ⟨signature.ret, fn.span, false⟩ tree
    all_goals
      rw [hb] at hleft
      have ih := Block.infer_again fn.body body' hb (hbody.trans hleft.symm)
      simp [FnDef.inferBody, hs, hb, ih]

section

variable (node : ν) (node' : μ) (scope : ScopeId)

theorem probe_again {again : FnDef} (h : again.clear true = fn.clear true) (round : Nat)
    (sig : SigId) (last : LastError) (tree : ScopeTree) :
    probe node' scope round again sig last tree =
      (probe node scope round fn sig last tree).leaving id node' := by
  cases hs : (tree.signature sig).mapError Halt.fault with
  | error => simp [probe, hs]
  | ok signature =>
    by_cases hk : signature.ret.isFullyKnown = true
    · simp [probe, hs, hk]
    · have ih := FnDef.inferBody_again h scope sig tree.resetInferred
      cases hb : fn.inferBody .probe scope sig tree.resetInferred with
      | stopped part halt tree₁ =>
        cases halt <;> simp [probe, hs, hk, resetHere, attempt, ih, hb]
      | done out tree₁ =>
        by_cases hr : out.2.isFullyKnown = true
        · cases hset : (tree₁.setReturn sig out.2).mapError Halt.fault <;>
            simp [probe, hs, hk, resetHere, attempt, ih, hb, hr, hset]
        · simp [probe, hs, hk, resetHere, attempt, ih, hb, hr]

theorem probeRound_again (round : Nat) : ∀ (fns again : List FnDef) (sigs : List SigId)
    (lasts : List LastError) (tree : ScopeTree),
    again.map (FnDef.clear true) = fns.map (FnDef.clear true) →
    probeRound node' scope round again sigs lasts tree =
      (probeRound node scope round fns sigs lasts tree).leaving id node'
  | [], again, _, _, _, h => by
    obtain rfl : again = [] := by simpa using h
    simp [probeRound]
  | _ :: _, _, [], _, _, h => by
    obtain ⟨fn', fns', rfl, _⟩ := List.map_eq_cons_iff.mp h
    simp [probeRound]
  | _ :: _, _, _ :: _, [], _, h => by
    obtain ⟨fn', fns', rfl, _⟩ := List.map_eq_cons_iff.mp h
    simp [probeRound]
  | fn :: fns, _, sig :: sigs, last :: lasts, tree, h => by
    obtain ⟨fn', fns', rfl, hfn, hfns⟩ := List.map_eq_cons_iff.mp h
    have ih := probe_again node node' scope hfn round sig last tree
    cases hp : probe node scope round fn sig last tree with
    | stopped => simp [probeRound, ih, hp]
    | done out tree₁ =>
      have ihs := probeRound_again round fns fns' sigs lasts tree₁ hfns
      cases hr : probeRound node scope round fns sigs lasts tree₁ <;>
        simp [probeRound, ih, hp, ihs, hr]

theorem probeRounds_again {again : List FnDef}
    (h : again.map (FnDef.clear true) = fns.map (FnDef.clear true)) (sigs : List SigId)
    (fuel : Nat) :
    ∀ (round : Nat) (lasts : List LastError) (tree : ScopeTree),
    probeRounds node' scope again sigs fuel round lasts tree =
      (probeRounds node scope fns sigs fuel round lasts tree).leaving id node' := by
  induction fuel with
  | zero =>
    intro round lasts tree
    rfl
  | succ fuel ih =>
    intro round lasts tree
    have hround := probeRound_again node node' scope round fns again sigs lasts tree h
    cases hr : probeRound node scope round fns sigs lasts tree with
    | stopped => simp [probeRounds, hround, hr]
    | done out tree₁ =>
      by_cases hs : out.2 = true
      · simp [probeRounds, hround, hr, hs, ih]
      · simp [probeRounds, hround, hr, hs]

theorem discoverReturns_again {again : List FnDef}
    (h : again.map (FnDef.clear true) = fns.map (FnDef.clear true)) (sigs : List SigId)
    (tree : ScopeTree) :
    discoverReturns node' scope again sigs tree =
      (discoverReturns node scope fns sigs tree).leaving id node' := by
  have hlen : again.length = fns.length := by simpa using congrArg List.length h
  have hlasts : (again.map fun _ => (none : LastError)) = fns.map fun _ => none := by
    rw [List.map_const', List.map_const', hlen]
  unfold discoverReturns
  rw [hlen, hlasts]
  exact probeRounds_again node node' scope h sigs _ _ _ tree

end

/-! ## Committing -/

theorem FnDef.commit_delivers (scope : ScopeId) (fn : FnDef) (sig : SigId) :
    Delivers (fun _ => ()) id (SlotsOnly FnDef.clear fn)
      (fn.commit scope sig : Pass ScopeTree FnDef FnDef) :=
  .note <| .bind (fn.inferBody_delivers sig).nodes fun _ h => .ofExcept h fun _ =>
    .ofExcept h fun _ => .scopes fun _ => .ofExcept h fun _ => .setScopes (.pure h)

theorem FnDef.commit_again (scope : ScopeId) (sig : SigId) (fn : FnDef) (tree : ScopeTree) :
    ((fn.commit scope sig tree).left id).commit scope sig tree = fn.commit scope sig tree := by
  cases hs : (tree.signature sig).mapError Halt.fault with
  | error => simp [FnDef.commit, FnDef.inferBody, hs]
  | ok signature =>
    cases hb : fn.body.infer .commit scope ⟨signature.ret, fn.span, false⟩ tree with
    | stopped body halt tree₁ =>
      have ih := Block.infer_again fn.body body hb rfl
      simp [FnDef.commit, FnDef.inferBody, hs, hb, ih]
    | done out tree₁ =>
      have ih := Block.infer_again fn.body out.1 hb rfl
      cases hc : { fn with body := out.1 }.checkReturn out.2.ret with
      | error => simp [FnDef.commit, FnDef.inferBody, hs, hb, ih, hc]
      | ok u =>
        cases hw : fn.retSlot.writeOrHalt out.2.ret fn.span with
        | error => simp [FnDef.commit, FnDef.inferBody, hs, hb, ih, hc, hw]
        | ok slot =>
          have hc' : { fn with body := out.1, retSlot := slot }.checkReturn out.2.ret = .ok u := hc
          cases hset : (tree₁.setReturn sig out.2.ret).mapError Halt.fault <;>
            simp [FnDef.commit, FnDef.inferBody, hs, hb, ih, hc, hw, hc',
              TypeSlot.writeOrHalt_again hw, hset]

theorem Script.commit_delivers (scope : ScopeId) (script : Script) :
    Delivers resetInferred id (SlotsOnly Script.clear script)
      (script.commit scope : Pass ScopeTree Script Script) := by
  have hrebuild : ∀ body, SlotsOnly Block.clear script.body body →
      SlotsOnly Script.clear script { script with body } := by
    intro body h
    simp only [SlotsOnly] at h
    simp [SlotsOnly, Script.clear, h]
  exact .note <| .within (script.body.infer_delivers _) hrebuild
    fun out h => .pure (hrebuild out.1 h)

theorem Script.commit_again (scope : ScopeId) (script : Script) (tree : ScopeTree) :
    ((script.commit scope tree).left id).commit scope tree = script.commit scope tree := by
  cases hb : script.body.infer .commit scope ⟨.int, script.span, true⟩ tree
  all_goals
    have ih := Block.infer_again script.body _ hb rfl
    simp only [Outcome.left_stopped, Outcome.left_done] at ih
    simp [Script.commit, hb, ih]

theorem map_clear_set {i : Nat} {fn' : FnDef} (hf : fns[i]? = some fn)
    (h : SlotsOnly FnDef.clear fn fn') :
    SlotsOnly (fun keep => List.map (FnDef.clear keep)) fns (fns.set i fn') := by
  have hat : (fns.map (FnDef.clear true))[i]? = some (fn'.clear true) := by
    rw [List.getElem?_map, hf, Option.map_some, show fn'.clear true = fn.clear true from h]
  change (fns.set i fn').map (FnDef.clear true) = fns.map (FnDef.clear true)
  rw [List.map_set, set_eq_self hat]

section

variable (scope : ScopeId) (sigs : List SigId)

theorem commitFunctions_delivers : ∀ (order : List Nat) (fns : List FnDef),
    Delivers (fun _ => ()) id (fun fns' =>
        SlotsOnly (fun keep => List.map (FnDef.clear keep)) fns fns' ∧
          ∀ i, i ∉ order → fns'[i]? = fns[i]?)
      (commitFunctions scope sigs order fns : Pass ScopeTree (List FnDef) (List FnDef))
  | [], _ => .pure ⟨.refl _, fun _ _ => rfl⟩
  | i :: order, fns => by
    have hset : ∀ fn fn', fns[i]? = some fn → SlotsOnly FnDef.clear fn fn' →
        SlotsOnly (fun keep => List.map (FnDef.clear keep)) fns (fns.set i fn') ∧
          ∀ j, j ∉ i :: order → (fns.set i fn')[j]? = fns[j]? := by
      intro fn fn' hf h
      refine ⟨map_clear_set hf h, fun j hj => ?_⟩
      rw [List.getElem?_set_ne]
      rintro rfl
      exact hj List.mem_cons_self
    unfold commitFunctions
    split
    · intro tree
      obtain ⟨hsame, hothers⟩ := (commitFunctions_delivers order fns tree).1
      exact ⟨⟨hsame, fun j hj => hothers j fun hm => hj (List.mem_cons_of_mem i hm)⟩, rfl⟩
    · exact .stop ⟨.refl _, fun _ _ => rfl⟩ _
    · rename_i fn sig hf _
      refine .within (fn.commit_delivers scope sig) (fun fn' h => hset fn fn' hf h)
        fun fn' h tree => ?_
      obtain ⟨hsame, hothers⟩ := (commitFunctions_delivers order (fns.set i fn') tree).1
      obtain ⟨hsame', hothers'⟩ := hset fn fn' hf h
      exact ⟨⟨hsame.trans hsame', fun j hj =>
        (hothers j fun hm => hj (List.mem_cons_of_mem i hm)).trans (hothers' j hj)⟩, rfl⟩

theorem commitFunctions_apply {i : Nat} (hf : fns[i]? = some fn) (hs : sigs[i]? = some sig) :
    commitFunctions scope sigs (i :: order) fns tree = match fn.commit scope sig tree with
      | .done fn' tree => commitFunctions scope sigs order (fns.set i fn') tree
      | .stopped fn' halt tree => .stopped (fns.set i fn') halt tree := by
  simp only [commitFunctions, hf, hs, bind_apply, within_apply]
  cases fn.commit scope sig tree <;> rfl

theorem commitFunctions_again : ∀ {order : List Nat} (fns : List FnDef) (tree : ScopeTree),
    order.Nodup →
    commitFunctions scope sigs order ((commitFunctions scope sigs order fns tree).left id) tree =
      commitFunctions scope sigs order fns tree
  | [], _, _, _ => rfl
  | i :: order, fns, tree, hn => by
    obtain ⟨hi, hn⟩ := List.nodup_cons.mp hn
    cases hf : fns[i]? with
    | none =>
      have ih := commitFunctions_again fns tree hn
      have hat := (commitFunctions_delivers scope sigs order fns tree).1.2 i hi
      simp only [commitFunctions, hf] at hat ⊢
      simpa only [hat] using ih
    | some fn =>
      cases hs : sigs[i]? with
      | none => simp [commitFunctions, hf, hs]
      | some sig =>
        have hlt := (List.getElem?_eq_some_iff.mp hf).1
        have ihf := fn.commit_again scope sig tree
        rw [commitFunctions_apply scope sigs hf hs]
        cases hc : fn.commit scope sig tree with
        | stopped fn₁ halt tree₁ =>
          simp only [hc, Outcome.left_stopped] at ihf ⊢
          rw [commitFunctions_apply scope sigs (List.getElem?_set_self hlt) hs, ihf]
          simp
        | done fn₁ tree₁ =>
          simp only [hc, Outcome.left_done, id] at ihf ⊢
          -- The functions that are still to come are others.
          have hat := (commitFunctions_delivers scope sigs order (fns.set i fn₁) tree₁).1.2 i hi
          rw [List.getElem?_set_self hlt] at hat
          rw [commitFunctions_apply scope sigs hat hs, ihf]
          change commitFunctions scope sigs order (List.set _ i fn₁) tree₁ = _
          rw [set_eq_self hat]
          exact commitFunctions_again (fns.set i fn₁) tree₁ hn

end

/-! ## Units -/

/-- The part of inference that comes after discovery. -/
def CompileUnit.commitBodies (unit : CompileUnit) (scope : ScopeId) (sigs : List SigId)
    (order : List Nat) : Pass ScopeTree CompileUnit CompileUnit := do
  let functions ← within ({ unit with functions := · })
    (commitFunctions scope sigs order unit.functions)
  let script ← within ({ unit with functions, script := · }) (unit.script.commit scope)
  return { unit with functions, script }

section

variable (scope : ScopeId) (sigs : List SigId)

theorem CompileUnit.infer_apply (unit : CompileUnit) (tree : ScopeTree) :
    unit.infer scope sigs tree = match discoverReturns unit scope unit.functions sigs tree with
      | .done lasts tree => unit.commitBodies scope sigs (commitOrder lasts) tree.resetInferred
      | .stopped node halt tree => .stopped node halt tree := by
  cases hd : discoverReturns unit scope unit.functions sigs tree <;>
    simp [CompileUnit.infer, CompileUnit.commitBodies, resetHere, hd]

theorem CompileUnit.commitBodies_delivers (unit : CompileUnit) (order : List Nat) :
    Delivers (fun _ => ()) id (SlotsOnly CompileUnit.clear unit)
      (unit.commitBodies scope sigs order) := by
  have hrebuild : ∀ functions script,
      SlotsOnly (fun keep => List.map (FnDef.clear keep)) unit.functions functions →
      SlotsOnly Script.clear unit.script script →
      SlotsOnly CompileUnit.clear unit { unit with functions, script } := by
    intro functions script hf hs
    simp only [SlotsOnly] at hf hs
    simp [SlotsOnly, CompileUnit.clear, hf, hs]
  exact .within (commitFunctions_delivers scope sigs order unit.functions)
    (fun functions hf => hrebuild functions unit.script hf.1 (.refl _))
    fun functions hf => .within (unit.script.commit_delivers scope).nodes
      (fun script hs => hrebuild functions script hf.1 hs)
      fun script hs => .pure (hrebuild functions script hf.1 hs)

theorem CompileUnit.commitBodies_again (unit : CompileUnit) (hn : order.Nodup) (tree : ScopeTree) :
    ((unit.commitBodies scope sigs order tree).left id).commitBodies scope sigs order tree =
      unit.commitBodies scope sigs order tree := by
  cases hf : commitFunctions scope sigs order unit.functions tree with
  | stopped =>
    have ih := commitFunctions_again scope sigs unit.functions tree hn
    simp only [hf, Outcome.left_stopped] at ih
    simp [CompileUnit.commitBodies, hf, ih]
  | done fns tree₁ =>
    have ih := commitFunctions_again scope sigs unit.functions tree hn
    have ihs := unit.script.commit_again scope tree₁
    simp only [hf, Outcome.left_done, id] at ih
    cases hs : unit.script.commit scope tree₁
    all_goals
      simp only [hs, Outcome.left_stopped, Outcome.left_done, id] at ihs
      simp [CompileUnit.commitBodies, hf, ih, hs, ihs]

theorem commitOrder_nodup (lasts : List LastError) : (commitOrder lasts).Nodup :=
  (commitOrder_perm lasts).nodup_iff.mpr List.nodup_range

theorem CompileUnit.discover_again {scope : ScopeId} {sigs : List SigId} {unit again : CompileUnit}
    (h : SlotsOnly CompileUnit.clear unit again) {tree' : ScopeTree}
    (hd : discoverReturns unit scope unit.functions sigs tree = .done lasts tree') :
    discoverReturns again scope again.functions sigs tree = .done lasts tree' := by
  have hfns := congrArg CompileUnit.functions h
  rw [discoverReturns_again unit again scope hfns sigs tree, hd]
  rfl

theorem discoverReturns_stopped {scope : ScopeId} {sigs : List SigId} {node part : ν}
    {tree' : ScopeTree} {halt : Halt}
    (h : discoverReturns node scope fns sigs tree = .stopped part halt tree') : part = node := by
  have hsame : discoverReturns node scope fns sigs tree = _ :=
    discoverReturns_again node node scope rfl sigs tree
  simpa [h] using hsame

theorem CompileUnit.infer_delivers (unit : CompileUnit) :
    Delivers (fun _ => ()) id (SlotsOnly CompileUnit.clear unit)
      (unit.infer scope sigs : Pass ScopeTree CompileUnit CompileUnit) := by
  intro tree
  rw [unit.infer_apply scope sigs]
  cases hd : discoverReturns unit scope unit.functions sigs tree with
  | stopped node halt tree₁ =>
    rw [discoverReturns_stopped hd]
    exact ⟨.refl unit, rfl⟩
  | done lasts tree₁ =>
    exact unit.commitBodies_delivers scope sigs (commitOrder lasts) tree₁.resetInferred

theorem CompileUnit.infer_again (unit : CompileUnit) (tree : ScopeTree) :
    ((unit.infer scope sigs tree).left id).infer scope sigs tree = unit.infer scope sigs tree := by
  rw [unit.infer_apply scope sigs]
  cases hd : discoverReturns unit scope unit.functions sigs tree with
  | stopped node halt tree₁ =>
    obtain rfl := discoverReturns_stopped hd
    simp [CompileUnit.infer_apply, hd]
  | done lasts tree₁ =>
    have hslots :=
      (unit.commitBodies_delivers scope sigs (commitOrder lasts) tree₁.resetInferred).1
    simp only [CompileUnit.infer_apply, CompileUnit.discover_again hslots hd]
    exact unit.commitBodies_again scope sigs (commitOrder_nodup lasts) tree₁.resetInferred

end

theorem CompileUnit.checkPass_again (unit : CompileUnit) (tree : ScopeTree) :
    ((unit.checkPass tree).left Prod.fst).checkPass tree = unit.checkPass tree := by
  cases hr : unit.resolve tree with
  | stopped left halt tree₁ =>
    have ih := unit.resolve_again left tree (by simp [hr])
    simp [CompileUnit.checkPass, hr, ih]
  | done out tree₁ =>
    -- What inference has filled in since does not matter to binding.
    have hbind : ∀ again, SlotsOnly CompileUnit.clear out.1 again →
        again.resolve tree = .done (again, out.2) tree₁ := by
      intro again h
      rw [unit.resolve_again again tree (by rw [hr]; exact h), hr]
      rfl
    have hslots := (out.1.infer_delivers out.2.unitScope out.2.signatures tree₁).1
    have hagain := out.1.infer_again out.2.unitScope out.2.signatures tree₁
    cases hi : out.1.infer out.2.unitScope out.2.signatures tree₁
    all_goals
      simp only [hi, Outcome.left_stopped, Outcome.left_done, id] at hslots hagain
      simp [CompileUnit.checkPass, hr, hbind _ hslots, hi, hagain]

/-! ## From where the first run ended -/

section

variable {scope : ScopeId} {fns : List FnDef} {sigs : List SigId} {tree tree' other : ScopeTree}

theorem ScopeTree.sigs_of_reset (h : other.resetInferred = tree.resetInferred) :
    other.sigs = tree.sigs := by
  have hs := congrArg ScopeTree.sigs h
  exact hs

/-- A probe that settles nothing may be repeated from any tree that differs in what is known of
variables. -/
theorem probe_repeat (node' : μ) (round' : Nat) {node : ν} {last last' : LastError}
    (hq : tree.Knows sig → last = none)
    (h : probe node scope round fn sig last tree = .done (last', false) tree')
    (hreset : other.resetInferred = tree.resetInferred) :
    ∃ other', probe node' scope round' fn sig none other = .done (last', false) other' ∧
      other'.resetInferred = tree.resetInferred := by
  have hkeep := (@FnDef.inferBody_delivers .probe scope fn sig tree.resetInferred).2
  rw [resetInferred_idem] at hkeep
  have hsame : other.signature sig = tree.signature sig := by
    simp only [ScopeTree.signature, sigs_of_reset hreset]
  cases hs : (tree.signature sig).mapError Halt.fault with
  | error => simp [probe, hs] at h
  | ok signature =>
    by_cases hk : signature.ret.isFullyKnown = true
    · have hknows : tree.Knows sig := ⟨signature, signature_eq_ok.mp (mapError_eq_ok.mp hs), hk⟩
      simp only [probe, bind_apply, scopes_apply, hs, ofExcept_ok, hk, ite_true, pure_apply,
        Outcome.done.injEq, Prod.mk.injEq, and_true] at h
      obtain ⟨rfl, _⟩ := h
      refine ⟨other, ?_, hreset⟩
      simp [probe, hsame, hs, hk, hq hknows]
    · cases hb : fn.inferBody .probe scope sig tree.resetInferred with
      | stopped part halt tree₁ =>
        rw [hb] at hkeep
        cases halt with
        | fault => simp [probe, hs, hk, resetHere, attempt, hb] at h
        | error e =>
          obtain ⟨rfl, _⟩ : some e = last' ∧ tree₁ = tree' := by
            simpa [probe, hs, hk, resetHere, attempt, hb] using h
          exact ⟨tree₁, by simp [probe, hsame, hs, hk, resetHere, attempt, hreset, hb], hkeep⟩
      | done out tree₁ =>
        rw [hb] at hkeep
        by_cases hr : out.2.isFullyKnown = true
        · cases hset : (tree₁.setReturn sig out.2).mapError Halt.fault <;>
            simp [probe, hs, hk, resetHere, attempt, hb, hr, hset] at h
        · obtain ⟨rfl, _⟩ : none = last' ∧ tree₁ = tree' := by
            simpa [probe, hs, hk, resetHere, attempt, hb, hr] using h
          exact ⟨tree₁, by simp [probe, hsame, hs, hk, resetHere, attempt, hreset, hb, hr], hkeep⟩

theorem probe_reset {node : ν} {last last' : LastError}
    (h : probe node scope round fn sig last tree = .done (last', false) tree') :
    tree'.resetInferred = tree.resetInferred := by
  obtain ⟨_, _, ⟨_, _, _, rfl⟩ | ⟨_, _, hreset, _⟩ | ⟨_, _, hs, _⟩⟩ := probe_cases h
  · rfl
  · exact hreset
  · cases hs

theorem Quiet.of_sigs (h : Quiet tree sigs lasts) (hs : other.sigs = tree.sigs) :
    Quiet other sigs lasts := by
  simpa only [Quiet, ScopeTree.Knows, hs] using h

theorem probeRound_repeat (node' : μ) (round' : Nat) {node : ν} :
    ∀ {fns : List FnDef} {sigs : List SigId} {lasts lasts' : List LastError}
    {tree tree' other : ScopeTree}, sigs.length = fns.length → Quiet tree sigs lasts →
    probeRound node scope round fns sigs lasts tree = .done (lasts', false) tree' →
    other.resetInferred = tree.resetInferred →
    ∃ other', probeRound node' scope round' fns sigs (.replicate fns.length none) other =
        .done (lasts', false) other' ∧ other'.resetInferred = tree.resetInferred
  | [], [], _, _, _, _, other, _, .nil, h, hreset => by
    obtain ⟨he, _⟩ := pure_eq_done.mp h
    cases he
    exact ⟨other, rfl, hreset⟩
  | _ :: _, _ :: _, _ :: _, _, _, _, _, hl, .cons hq hqs, h, hreset => by
    simp only [probeRound, bind_eq_done, pure_eq_done, Prod.exists, Prod.mk.injEq,
      Bool.or_eq_false_iff] at h
    obtain ⟨last₁, settled, tree₁, hp, rest, others, tree₂, hr, ⟨rfl, rfl, rfl⟩, rfl⟩ := h
    obtain ⟨other₁, hp', hreset'⟩ := probe_repeat node' round' hq hp hreset
    have hback := probe_reset hp
    obtain ⟨other₂, hr', hreset''⟩ := probeRound_repeat node' round' (by simpa using hl)
      (Quiet.of_sigs hqs (sigs_of_reset hback)) hr (hreset'.trans hback.symm)
    exact ⟨other₂, by simp [probeRound, List.replicate_succ, hp', hr'], hreset''.trans hback⟩

theorem probeRounds_repeat (node' : μ) {node : ν} (hlen : sigs.length = fns.length)
    (hn : sigs.Nodup) (hf : ∀ fn ∈ fns, fn.Resolved) {fuel : Nat} :
    ∀ {round : Nat} {lasts lasts' : List LastError} {tree tree' other : ScopeTree},
    lasts.length = fns.length → Quiet tree sigs lasts → tree.resetInferred.Plain →
    tree.resetInferred.openCount < fuel →
    probeRounds node scope fns sigs fuel round lasts tree = .done lasts' tree' →
    other.resetInferred = tree'.resetInferred →
    ∃ other', probeRound node' scope 1 fns sigs (.replicate fns.length none) other =
        .done (lasts', false) other' ∧ other'.resetInferred = tree'.resetInferred := by
  induction fuel with
  | zero =>
    intro _ _ _ _ _ _ _ _ _ hlt
    exact (Nat.not_lt_zero _ hlt).elim
  | succ fuel ih =>
    intro round lasts lasts' tree tree' other hll hq hp hlt h hreset
    simp only [probeRounds, bind_eq_done, Prod.exists] at h
    obtain ⟨lasts₁, settled, tree₁, hr, h⟩ := h
    obtain ⟨hlen₁, href, hdec, hdone⟩ := probeRound_spec hlen hll hf hp hr
    cases settled with
    | false =>
      obtain ⟨rfl, rfl⟩ := pure_eq_done.mp h
      have hback := (hdone rfl).1
      obtain ⟨other', hr', hreset'⟩ := probeRound_repeat node' 1 hlen hq hr (hreset.trans hback)
      exact ⟨other', hr', hreset'.trans hback.symm⟩
    | true =>
      have hdec := hdec rfl
      exact ih hlen₁ (probeRound_quiet hn hq hr).1 (href.plain hp) (by omega) h hreset

theorem discoverReturns_lastRound (node' : μ) {node : ν} (hlen : sigs.length = fns.length)
    (hn : sigs.Nodup) (hf : ∀ fn ∈ fns, fn.Resolved) (hp : tree.resetInferred.Plain)
    (hc : tree.resetInferred.openCount ≤ fns.length)
    (h : discoverReturns node scope fns sigs tree = .done lasts tree')
    (hreset : other.resetInferred = tree'.resetInferred) :
    ∃ other', probeRound node' scope 1 fns sigs (.replicate fns.length none) other =
        .done (lasts, false) other' ∧ other'.resetInferred = tree'.resetInferred := by
  have hstart : Quiet tree sigs (fns.map fun _ => none) := by
    refine List.forall₂_iff_get.mpr ⟨by simpa using hlen, fun i h₁ h₂ _ => ?_⟩
    simp
  exact probeRounds_repeat node' hlen hn hf (by simp) hstart hp (by omega) h hreset

theorem discoverReturns_repeat (node' : μ) {node : ν} (hlen : sigs.length = fns.length)
    (hn : sigs.Nodup) (hf : ∀ fn ∈ fns, fn.Resolved) (hp : tree.resetInferred.Plain)
    (hc : tree.resetInferred.openCount ≤ fns.length)
    (h : discoverReturns node scope fns sigs tree = .done lasts tree')
    (hreset : other.resetInferred = tree'.resetInferred) :
    ∃ other', discoverReturns node' scope fns sigs other = .done lasts other' ∧
      other'.resetInferred = tree'.resetInferred := by
  obtain ⟨other', hr, hback⟩ := discoverReturns_lastRound node' hlen hn hf hp hc h hreset
  exact ⟨other', by simp [discoverReturns, probeRounds, hr], hback⟩

theorem FnDef.reset_of_stopped {fn' : FnDef} {halt : Halt}
    (h : fn.commit scope sig tree = .stopped fn' halt tree') :
    tree'.resetInferred = tree.resetInferred := by
  have hkeep := (@FnDef.inferBody_delivers .commit scope fn sig tree).2
  cases hb : fn.inferBody .commit scope sig tree with
  | stopped part halt tree₁ =>
    rw [hb] at hkeep
    obtain ⟨_, _, rfl⟩ : part = fn' ∧ _ ∧ tree₁ = tree' := by simpa [FnDef.commit, hb] using h
    exact hkeep
  | done out tree₁ =>
    rw [hb] at hkeep
    cases hc : out.1.checkReturn out.2 with
    | error =>
      obtain ⟨_, _, rfl⟩ : out.1 = fn' ∧ _ ∧ tree₁ = tree' := by
        simpa [FnDef.commit, hb, hc] using h
      exact hkeep
    | ok =>
      cases hw : out.1.retSlot.writeOrHalt out.2 out.1.span with
      | error =>
        obtain ⟨_, _, rfl⟩ : out.1 = fn' ∧ _ ∧ tree₁ = tree' := by
          simpa [FnDef.commit, hb, hc, hw] using h
        exact hkeep
      | ok slot =>
        cases hset : (tree₁.setReturn sig out.2).mapError Halt.fault with
        | error =>
          obtain ⟨_, _, rfl⟩ : _ ∧ _ ∧ tree₁ = tree' := by
            simpa [FnDef.commit, hb, hc, hw, hset] using h
          exact hkeep
        | ok => simp [FnDef.commit, hb, hc, hw, hset] at h

theorem Pending.commitFunctions_reset {base : ScopeTree} (hlen : sigs.length = fns.length)
    (hr : ∀ (i : Nat) (fn : FnDef) (sig : SigId), fns[i]? = some fn → sigs[i]? = some sig →
      fn.Ready scope base (fnStart fns i) sig) :
    ∀ {order : List Nat} {now : List FnDef} {tree : ScopeTree}, (∀ i ∈ order, i < fns.length) →
    Pending base fns order now tree →
    (state (commitFunctions scope sigs order now tree)).resetInferred = base.resetInferred
  | [], _, _, _, hp => hp.skeleton
  | i :: _, _, tree, hlt, hp => by
    have hi := hlt i List.mem_cons_self
    have hfn : fns[i]? = some fns[i] := List.getElem?_eq_getElem hi
    have hsig : sigs[i]? = some sigs[i] := List.getElem?_eq_getElem (hlen ▸ hi)
    have hnow := (hp.same i List.mem_cons_self).trans hfn
    rw [commitFunctions_apply scope sigs hnow hsig]
    cases hc : fns[i].commit scope sigs[i] tree with
    | stopped fn' halt tree₁ => exact (FnDef.reset_of_stopped hc).trans hp.skeleton
    | done fn' tree₁ =>
      obtain ⟨_, _, hp'⟩ := hp.commit hfn (hr i _ _ hfn hsig) hc
      exact commitFunctions_reset hlen hr (fun j hj => hlt j (List.mem_cons_of_mem i hj)) hp'

end

section

variable {unit : CompileUnit} {res : Resolution} {base : ScopeTree}

theorem CompileUnit.ResolvedIn.commitBodies_reset (h : unit.ResolvedIn res)
    (href : res.scopes.resetInferred.Refined base)
    (hex : List.Forall₂ (FnDef.Explored res.unitScope base) unit.functions res.signatures)
    (horder : order.Perm (List.range unit.functions.length)) :
    (state (unit.commitBodies res.unitScope res.signatures order base)).resetInferred =
      base.resetInferred := by
  have hlt : ∀ i ∈ order, i < unit.functions.length :=
    fun i hm => List.mem_range.mp (horder.mem_iff.mp hm)
  have hfns := Pending.commitFunctions_reset h.signatures_length (h.ready href hex) hlt
    (h.pending href (horder.nodup_iff.mpr List.nodup_range))
  cases hf : ScriptLang.commitFunctions res.unitScope res.signatures order unit.functions base with
  | stopped fns halt tree =>
    rw [hf] at hfns
    simpa [CompileUnit.commitBodies, hf, state] using hfns
  | done fns tree =>
    rw [hf] at hfns
    have hkeep := (unit.script.commit_delivers res.unitScope tree).2
    cases hs : unit.script.commit res.unitScope tree
    all_goals
      rw [hs] at hkeep
      simpa [CompileUnit.commitBodies, hf, hs, state] using hkeep.trans hfns

theorem CompileUnit.ResolvedIn.infer_repeat (h : unit.ResolvedIn res) :
    ((unit.infer res.unitScope res.signatures res.scopes).left id).infer res.unitScope
        res.signatures (state (unit.infer res.unitScope res.signatures res.scopes)) =
      unit.infer res.unitScope res.signatures res.scopes := by
  obtain ⟨lasts, tree, hd⟩ := h.discover_total unit
  obtain ⟨hlasts, href, hex⟩ := discoverReturns_spec h.signatures_length h.functions h.plain
    h.openCount_le hd
  have horder := commitOrder_perm lasts
  rw [hlasts] at horder
  have hreset := (h.commitBodies_reset href hex horder).trans (resetInferred_idem tree)
  have hslots := (unit.commitBodies_delivers res.unitScope res.signatures (commitOrder lasts)
    tree.resetInferred).1
  have hnodup : res.signatures.Nodup := by
    rw [h.signatures]
    exact List.nodup_range'
  obtain ⟨tree', hd', hback⟩ := discoverReturns_repeat unit h.signatures_length hnodup h.functions
    h.plain h.openCount_le hd hreset
  rw [unit.infer_apply, hd]
  simp only [CompileUnit.infer_apply, CompileUnit.discover_again hslots hd', hback]
  exact unit.commitBodies_again _ _ (commitOrder_nodup lasts) tree.resetInferred

end

/-- Checking a unit again changes nothing, whether it was accepted or not; nor does inferring its
types again within the resolution that is there. -/
theorem check_rerun (unit : CompileUnit) :
    unit.check.unit.check = unit.check ∧
      ∀ bound res, unit.resolveNames = ⟨bound, .ok res⟩ →
        (bound.inferTypes res).2.unit.inferTypes (bound.inferTypes res).1 =
          bound.inferTypes res := by
  constructor
  · have hagain := unit.checkPass_again {}
    simp only [CompileUnit.check]
    cases hc : unit.checkPass ({} : ScopeTree)
    all_goals
      simp only [hc, Outcome.left_stopped, Outcome.left_done] at hagain
      simp only [Run.ofOutcome, hagain]
  · intro bound res hr
    obtain ⟨tree, hres⟩ := Run.ofOutcome_eq_ok.mp hr
    have hrepeat := (CompileUnit.resolve_spec hres).1.infer_repeat
    unfold CompileUnit.inferTypes
    cases hi : bound.infer res.unitScope res.signatures res.scopes
    all_goals
      rw [hi] at hrepeat
      simp only [Outcome.left_stopped, Outcome.left_done, id, state] at hrepeat
      simp only [hrepeat]

/-- The functions are in order, and so is the first variable. -/
def stumbling : CompileUnit where
  functions := triangle.functions
  script :=
    { name := "main"
      body := {
        stmts := [
          .decl "sum" none (.call "last" []),
          .decl "even" (some { name := "Bool" }) (.var "sum")]
        ret := some { value := .var "sum" } } }

theorem check_rerun_stumbling :
    ∃ bound res, stumbling.resolveNames = ⟨bound, .ok res⟩ ∧
      (bound.inferTypes res).2.result.isOk = false ∧
      (bound.inferTypes res).2.unit.functions.map FnDef.retSlot = [some .int, some .int] ∧
      (bound.inferTypes res).2.unit.inferTypes (bound.inferTypes res).1 = bound.inferTypes res := by
  have hrun : (stumbling.resolveNames.result.toOption.any fun res =>
      let run := (stumbling.resolveNames.unit.inferTypes res).2
      !run.result.isOk && run.unit.functions.map FnDef.retSlot = [some .int, some .int]) = true := by
    decide +kernel
  rcases h : stumbling.resolveNames with ⟨bound, halt | res⟩
  · rw [h] at hrun
    cases hrun
  · rw [h] at hrun
    simp only [Except.toOption, Option.any_some, Bool.and_eq_true, Bool.not_eq_true',
      decide_eq_true_eq] at hrun
    exact ⟨bound, res, rfl, hrun.1, hrun.2, (check_rerun stumbling).2 bound res h⟩

end ScriptLang
