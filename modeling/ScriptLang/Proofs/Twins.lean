import ScriptLang.Proofs.AlikeUnits
import ScriptLang.Proofs.Reordering

/-!
# What twins have in common

Discovery and committing take the same steps on twins, each function in its own place: a probe that
tells a return type in one unit tells it in the other, and a function that can be committed in one
can be committed in the other.
-/

namespace ScriptLang

open Pass ScopeTree

variable {fn fn' fn₁ : FnDef} {tree tree' tree₁ : ScopeTree} {sig : SigId} {n : Nat}

/-! ## Alike functions -/

section

variable {r : DeclId → DeclId → Prop}

theorem Script.Alike.mono {r' : DeclId → DeclId → Prop} {script other : Script}
    (h : script.Alike r other) (hr : ∀ i j, r i j → r' i j) : script.Alike r' other :=
  ⟨(@Block.Alike.flip_of r (flip r') hr _ _ h.body).flip_of fun _ _ h => h, h.same⟩

theorem FnDef.Alike.mono {r' : DeclId → DeclId → Prop} {other : FnDef} (h : fn.Alike r other)
    (hr : ∀ i j, r i j → r' i j) : fn.Alike r' other :=
  (@FnDef.Alike.flip_of r (flip r') hr fn other h).flip_of fun _ _ h => h

theorem ScopeTree.Mirror.of_agree {on on' : DeclId → Prop} {tree₁' : ScopeTree}
    (h : tree.Mirror r tree') (ha : tree.Agree on tree₁) (ha' : tree'.Agree on' tree₁')
    (hon : ∀ i j, r i j → on i ∧ on' j) : tree₁.Mirror r tree₁' := by
  constructor
  case rooted =>
    obtain ⟨more, hm⟩ := h.rooted
    exact ⟨more, ha.parents.symm.trans hm⟩
  case rooted' =>
    obtain ⟨more, hm⟩ := h.rooted'
    exact ⟨more, ha'.parents.symm.trans hm⟩
  case rets => exact ha.sigs ▸ h.rets
  case sigs => exact ha.sigs ▸ ha'.sigs ▸ h.sigs
  case decls =>
    intro i j hr
    rw [← ha.types i (hon i j hr).1, ← ha'.types j (hon i j hr).2]
    exact h.decls i j hr
  case unique => exact h.unique

theorem ScopeTree.Mirror.inferBody {mode : Mode} {sig' : SigId} {ret : Ty} (h : tree.Mirror r tree')
    (ha : fn.Alike r fn') (hs : tree.sigs[sig]? = tree'.sigs[sig']?)
    (hi : fn.inferBody mode 1 sig tree = .done (fn₁, ret) tree₁) :
    ∃ fn₁' tree₁', fn'.inferBody mode 1 sig' tree' = .done (fn₁', ret) tree₁' := by
  obtain ⟨signature, body, ctx, hsig, hb, _, rfl⟩ := FnDef.inferBody_eq_done.mp hi
  obtain ⟨body', tree₁', hb', _⟩ := h.infer ha.body hb
  have hspan : fn'.span = fn.span := by rw [ha.same]
  refine ⟨_, tree₁', FnDef.inferBody_eq_done.mpr ⟨signature, body', ctx, hs ▸ hsig, ?_, rfl, rfl⟩⟩
  rw [hspan]
  exact hb'

theorem ScopeTree.Mirror.commit {sig' : SigId} (h : tree.Mirror r tree') (ha : fn.Alike r fn')
    (hs : tree.sigs[sig]? = tree'.sigs[sig']?) (hc : fn.commit 1 sig tree = .done fn₁ tree₁) :
    ∃ fn₁' tree₁', fn'.commit 1 sig' tree' = .done fn₁' tree₁' ∧ fn₁.Alike r fn₁' := by
  obtain ⟨signature, body, ctx, tree₂, _, hsig, hb, hret, hk, hslot, rfl, _, rfl⟩ :=
    FnDef.commit_eq_done.mp hc
  obtain ⟨body', tree₂', hb', hbody, _⟩ := h.infer ha.body hb
  have hspan : fn'.span = fn.span := by rw [ha.same]
  have hretSlot : fn'.retSlot = fn.retSlot := by rw [ha.same]
  have hsig' : tree'.sigs[sig']? = some signature := hs ▸ hsig
  have hsigs := congrArg ScopeTree.sigs ((fn'.body.infer_delivers _).kept hb')
  have hsigs : tree₂'.sigs = tree'.sigs := hsigs
  refine ⟨_, _, FnDef.commit_eq_done.mpr ⟨signature, body', ctx, tree₂', signature, hsig',
    hspan ▸ hb', ?_, hk, hretSlot ▸ hslot, rfl, hsigs ▸ hsig', rfl⟩, ?_⟩
  · rw [Block.Alike.containsReturn body body' hbody]
    exact hret
  · refine ⟨ha.params, hbody, ?_⟩
    rw [ha.same]

end

/-! ## Trees of twins -/

/-- The same signatures, in places that belong together. -/
structure ScopeTree.Paired (p : Nat → Nat → Prop) (tree tree' : ScopeTree) : Prop where
  sigs : tree.sigs.Perm tree'.sigs
  placed : ∀ i j, p i j → tree.sigs[builtinSignatures.length + i]? =
    tree'.sigs[builtinSignatures.length + j]?

section

variable {p : Nat → Nat → Prop} {tree tree' : ScopeTree}

theorem ScopeTree.Paired.symm (h : tree.Paired p tree') : tree'.Paired (flip p) tree :=
  ⟨h.sigs.symm, fun i j hp => (h.placed j i hp).symm⟩

theorem ScopeTree.Paired.settle {i j : Nat} {signature : Signature} (h : tree.Paired p tree')
    (hpl : Places n p) (hp : p i j) (hs : tree.sigs[builtinSignatures.length + i]? = some signature)
    (ret : Ty) :
    (tree.settle (builtinSignatures.length + i) signature ret).Paired p
      (tree'.settle (builtinSignatures.length + j) signature ret) := by
  have hs' : tree'.sigs[builtinSignatures.length + j]? = some signature := h.placed i j hp ▸ hs
  have hlt := (List.getElem?_eq_some_iff.mp hs).1
  have hlt' := (List.getElem?_eq_some_iff.mp hs').1
  refine ⟨perm_set h.sigs hs hs' _, ?_⟩
  intro i' j' hp'
  by_cases he : i = i'
  · have he' := (hpl.unique i j i' j' hp hp').mp he
    subst he he'
    simp only [ScopeTree.settle, List.getElem?_set_self hlt, List.getElem?_set_self hlt']
  · have he' : j ≠ j' := fun he' => he ((hpl.unique i j i' j' hp hp').mpr he')
    simp only [ScopeTree.settle]
    rw [List.getElem?_set_ne (by omega), List.getElem?_set_ne (by omega)]
    exact h.placed i' j' hp'

theorem ScopeTree.LikeOn.reset {n' count : Nat} (h : LikeOn n n' count tree tree') :
    LikeOn n n' count tree.resetInferred tree'.resetInferred := by
  intro k hk
  simp only [resetInferred, List.getElem?_map]
  have hrel := h k hk
  cases hv : tree.decls[n + k]? with
  | none =>
    rw [hv] at hrel
    cases hv' : tree'.decls[n' + k]? with
    | none => exact .none
    | some var' =>
      rw [hv'] at hrel
      cases hrel
  | some var =>
    rw [hv] at hrel
    obtain ⟨var', hv', hl⟩ := exists_of_rel_some hrel
    rw [hv']
    exact .some ⟨hl.declared, hl.declared, hl.kind⟩

theorem SettleStep.refined {routines : Routines} (hr : ∀ entry ∈ routines, entry.1.Resolved)
    (hfit : tree.Fit) (h : SettleStep routines tree tree') : tree.Refined tree' := by
  obtain ⟨_, _, signature, _, ctx, _, _, hs, ho, _, hprim, rfl⟩ := h.told hr hfit
  exact .settle hs ho hprim

theorem Settles.refined {routines : Routines} (hr : ∀ entry ∈ routines, entry.1.Resolved)
    (hfit : tree.Fit) (h : Settles routines tree tree') : tree.Refined tree' := by
  induction h with
  | refl => exact .refl tree
  | tail hto hstep ih =>
    exact ih.trans (hstep.refined hr (Settles.covers hr hfit hto).fit')

end

theorem CompileUnit.ResolvedIn.mem_routines {unit : CompileUnit} {res : Resolution}
    (h : unit.ResolvedIn res) :
    (fn, sig) ∈ unit.routines res ↔
      ∃ i : Nat, unit.functions[i]? = some fn ∧ sig = builtinSignatures.length + i := by
  unfold CompileUnit.routines
  rw [mem_zip_iff]
  constructor
  · rintro ⟨i, hf, hs⟩
    exact ⟨i, hf, h.signature hs⟩
  · rintro ⟨i, hf, rfl⟩
    refine ⟨i, hf, ?_⟩
    have hlt := (List.getElem?_eq_some_iff.mp hf).1
    rw [h.signatures, List.getElem?_range' hlt]
    simp

namespace CompileUnit.Twin

variable {p : Nat → Nat → Prop} {unit unit' : CompileUnit} {res res' : Resolution}
  {tree tree' tree₁ base base' : ScopeTree}

variable (h : unit.Twin p res unit' res')

include h

theorem routine (hm : (fn, sig) ∈ unit.routines res) :
    ∃ i j fn' n n' count, p i j ∧ sig = builtinSignatures.length + i ∧
      (fn', builtinSignatures.length + j) ∈ unit'.routines res' ∧
      fn.Alike (Shifted n n' count) fn' ∧ LikeOn n n' count res.scopes res'.scopes := by
  obtain ⟨i, hf, rfl⟩ := h.resolved.mem_routines.mp hm
  obtain ⟨j, hp⟩ := h.places.total i (List.getElem?_eq_some_iff.mp hf).1
  obtain ⟨fn₁, fn', count, hf₁, hf', _, _, ha, hl⟩ := h.functions i j hp
  rw [hf] at hf₁
  cases hf₁
  exact ⟨i, j, fn', _, _, count, hp, rfl, h.resolved'.mem_routines.mpr ⟨j, hf', rfl⟩, ha, hl⟩

section

variable (href : res.scopes.resetInferred.Refined tree)
  (href' : res'.scopes.resetInferred.Refined tree') (hp : tree.Paired p tree')

include href href' hp

theorem mirror {n' count : Nat} (hl : LikeOn n n' count res.scopes res'.scopes) :
    tree.Mirror (Shifted n n' count) tree' := by
  constructor
  case rooted =>
    obtain ⟨more, hm⟩ := h.resolved.parents
    exact ⟨more, href.parents.trans hm⟩
  case rooted' =>
    obtain ⟨more, hm⟩ := h.resolved'.parents
    exact ⟨more, href'.parents.trans hm⟩
  case rets => exact (href.plain h.resolved.plain).rets
  case sigs => exact hp.sigs
  case decls =>
    rintro _ _ ⟨k, hk, rfl, rfl⟩
    rw [href.decls, href'.decls]
    exact hl.reset k hk
  case unique => exact fun _ _ _ _ => Shifted.unique

/-! ## Routines of the two units -/

theorem step (hstep : SettleStep (unit.routines res) tree tree₁) :
    ∃ tree₁', SettleStep (unit'.routines res') tree' tree₁' ∧ tree₁.Paired p tree₁' := by
  cases hstep with
  | @settle tree₂ fn fn₁ sig signature ret hm hs ho hb hk =>
    obtain ⟨i, j, fn', n, n', count, hij, rfl, hm', ha, hl⟩ := h.routine hm
    have hplaced := hp.placed i j hij
    obtain ⟨fn₁', tree₂', hb'⟩ := (h.mirror href href' hp hl).inferBody ha hplaced hb
    exact ⟨_, .settle hm' (hplaced ▸ hs) ho hb' hk, hp.settle h.places hij hs ret⟩

theorem bears (hb : ∀ entry ∈ unit'.routines res', entry.1.Bears tree' entry.2) :
    ∀ entry ∈ unit.routines res, entry.1.Bears tree entry.2 := by
  rintro ⟨fn, sig⟩ hm
  obtain ⟨i, j, fn', n, n', count, hij, rfl, hm', ha, hl⟩ := h.routine hm
  obtain ⟨signature, body, tree₁, hs, hprim, hbody⟩ := hb _ hm'
  have hmirror := (h.mirror href href' hp hl).symm
  have hspan : fn'.span = fn.span := by rw [ha.same]
  obtain ⟨body', tree₁', hbody', _⟩ := hmirror.infer (ha.body.flip_of fun _ _ h => h) hbody
  refine ⟨signature, body', tree₁', ?_, hprim, hspan ▸ hbody'⟩
  rw [hp.placed i j hij]
  exact hs

theorem explored (hex : ∀ entry ∈ unit'.routines res', entry.1.Explored 1 tree' entry.2) :
    ∀ entry ∈ unit.routines res, entry.1.Explored 1 tree entry.2 := by
  rintro ⟨fn, sig⟩ hm
  obtain ⟨i, j, fn', n, n', count, hij, rfl, hm', ha, hl⟩ := h.routine hm
  obtain ⟨signature, hs, hknown⟩ := hex _ hm'
  have hplaced := hp.placed i j hij
  refine ⟨signature, hplaced.trans hs, hknown.imp_right ?_⟩
  intro hstuck fn₁ ret tree₁ hb
  obtain ⟨fn₁', tree₁', hb'⟩ := (h.mirror href href' hp hl).inferBody ha hplaced hb
  exact hstuck fn₁' ret tree₁' hb'

theorem commit {i j : Nat} (hij : p i j) (hf : unit.functions[i]? = some fn)
    (hf' : unit'.functions[j]? = some fn') {before before' after : ScopeTree}
    (ha : tree.Agree (ofFunction unit.functions i) before)
    (ha' : tree'.Agree (ofFunction unit'.functions j) before')
    (hc : fn.commit 1 (builtinSignatures.length + i) before = .done fn₁ after) :
    ∃ fn₁' after', fn'.commit 1 (builtinSignatures.length + j) before' = .done fn₁' after' ∧
      fn₁.Alike (fun _ _ => True) fn₁' := by
  obtain ⟨fn₂, fn₂', count, hf₂, hf₂', hcount, hcount', halike, hl⟩ := h.functions i j hij
  rw [hf] at hf₂
  rw [hf'] at hf₂'
  cases hf₂
  cases hf₂'
  rw [ofFunction_eq hf, hcount] at ha
  rw [ofFunction_eq hf', hcount'] at ha'
  have hmirror := (h.mirror href href' hp hl).of_agree ha ha' (by
    rintro _ _ ⟨k, hk, rfl, rfl⟩
    exact ⟨⟨Nat.le_add_right _ _, Nat.add_lt_add_left hk _⟩, Nat.le_add_right _ _,
      Nat.add_lt_add_left hk _⟩)
  have hsigs : before.sigs[builtinSignatures.length + i]? =
      before'.sigs[builtinSignatures.length + j]? := by
    rw [← ha.sigs, ← ha'.sigs]
    exact hp.placed i j hij
  obtain ⟨fn₁', after', hc', halike'⟩ := hmirror.commit halike hsigs hc
  exact ⟨fn₁', after', hc', halike'.mono fun _ _ _ => trivial⟩

theorem commitScript {before before' after : ScopeTree} {script₁ : Script}
    (ha : tree.Agree (fun id => ∀ i ∈ List.range unit.functions.length,
      ¬ ofFunction unit.functions i id) before)
    (ha' : tree'.Agree (fun id => ∀ i ∈ List.range unit'.functions.length,
      ¬ ofFunction unit'.functions i id) before')
    (hc : unit.script.commit 1 before = .done script₁ after) :
    ∃ script₁' after', unit'.script.commit 1 before' = .done script₁' after' ∧
      script₁.Alike (fun _ _ => True) script₁' := by
  obtain ⟨start, start', count, rfl, rfl, _, _, halike, hl⟩ := h.script
  have houtside : ∀ (fns : List FnDef) (k : Nat), ∀ i ∈ List.range fns.length,
      ¬ ofFunction fns i (fnStart fns fns.length + k) := by
    intro fns k i hi hof
    have hle := fnStart_mono fns (Nat.succ_le_of_lt (List.mem_range.mp hi))
    exact Nat.not_lt_of_le (Nat.le_trans hle (Nat.le_add_right _ k)) hof.2
  have hmirror := (h.mirror href href' hp hl).of_agree ha ha' (by
    rintro _ _ ⟨k, _, rfl, rfl⟩
    exact ⟨houtside _ k, houtside _ k⟩)
  obtain ⟨script₁', after', hc', halike', _⟩ :=
    (Script.commit_alike ScopeTree.Mirror.attuned ⟨halike, h.same⟩).done hmirror hc
  exact ⟨script₁', after', hc', halike'.mono fun _ _ _ => trivial⟩

end

/-! ## Discovery -/

theorem settles (hs : Settles (unit.routines res) res.scopes.resetInferred tree) :
    ∃ tree', Settles (unit'.routines res') res'.scopes.resetInferred tree' ∧
      tree.Paired p tree' := by
  induction hs with
  | refl => exact ⟨_, .refl, h.sigs, h.placed⟩
  | tail hto hstep ih =>
    obtain ⟨tree', hto', hp⟩ := ih
    obtain ⟨tree₁', hstep', hp₁⟩ := h.step
      (Settles.refined h.resolved.resolved h.resolved.fit hto)
      (Settles.refined h.resolved'.resolved h.resolved'.fit hto') hp hstep
    exact ⟨tree₁', hto'.tail hstep', hp₁⟩

end CompileUnit.Twin

end ScriptLang
