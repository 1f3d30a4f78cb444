import ScriptLang.Proofs.Settling

/-!
# What it takes for a unit to be accepted

Resolution goes through if no overload is declared twice and all names can be bound. Inference goes
through only if discovery has settled every return type, every body bears out its signature, and
the functions are then committed in the order of the unit.
-/

namespace ScriptLang

open Pass ScopeTree

/-! ## Resolution -/

theorem declareSignatures_of_shows {node : ν} {unitScope : Nat} : ∀ {fns : List FnDef}
    {users : List Signature} {tree : ScopeTree}, unitScope < tree.parents.length →
    List.Forall₂ (FnDef.Shows unitScope) fns users →
    ({ tree with sigs := tree.sigs ++ users } : ScopeTree).Unambiguous →
    declareSignatures node unitScope fns tree = .done (List.range' tree.sigs.length fns.length)
      { tree with sigs := tree.sigs ++ users } := by
  intro fns users tree hlt hs hu
  induction hs generalizing tree with
  | nil =>
    rw [List.append_nil]
    rfl
  | @cons fn _ fns users hshow hs ih =>
    obtain ⟨params, ret, ht, rfl⟩ := hshow
    have hfresh : ∀ sig ∈ tree.overloads unitScope fn.name, sig.params ≠ params := by
      intro sig hm hp
      obtain ⟨hin, hscope, hname⟩ := mem_overloads.mp hm
      exact (List.pairwise_append.mp hu).2.2 sig hin _ List.mem_cons_self ⟨hscope, hname, hp⟩
    have hdecl : tree.declareFunction unitScope fn.name params ret .user fn.span = _ :=
      declareFunction_of_fresh hlt hfresh
    rw [List.append_cons] at hu
    have hrest := @ih
      { tree with sigs := tree.sigs ++ [⟨fn.name, params, ret, .user, fn.span, unitScope⟩] } hlt hu
    simp only [declareSignatures, declareSignature, bind_eq_done, ofExcept_eq_done, note_eq_done,
      scopes_eq_done, setScopes_eq_done, pure_eq_done, Prod.exists]
    refine ⟨tree.sigs.length, _, ⟨params, ret, tree, ⟨ht, rfl⟩, (), tree, rfl, tree, tree, ⟨rfl, rfl⟩,
      _, _, tree, ⟨hdecl, rfl⟩, (), _, rfl, rfl, rfl⟩, _, _, hrest, ?_, ?_⟩
    · simp [List.range'_succ]
    · simp

/-- The scope tree of a unit before its functions are declared. -/
def ScopeTree.unitStart : ScopeTree :=
  { parents := [none, some root], decls := [], sigs := builtinSignatures }

theorem ScopeTree.unambiguous_unitStart : unitStart.Unambiguous := by
  have h := unambiguous_initial
  rw [initial_eq] at h
  exact h

theorem CompileUnit.resolve_eq_done {unit bound : CompileUnit} {res : Resolution}
    {tree tree' : ScopeTree} :
    unit.resolve tree = .done (bound, res) tree' ↔
      ∃ ids tree₂ fns' tree₃ body',
        declareSignatures { unit with scope := some 1 } 1 unit.functions unitStart = .done ids tree₂ ∧
        bindFunctions 1 unit.functions tree₂ = .done fns' tree₃ ∧
        unit.script.body.bind tree₃.parents.length (some tree₃.parents.length)
          (tree₃.newScope 1).2 = .done body' tree' ∧
        bound = { unit with
          functions := fns'
          script := { unit.script with body := body' }
          scope := some 1 } ∧
        res = ⟨tree', 1, ids⟩ := by
  have hstart : (ScopeTree.initial.newScope root).2 = unitStart := by
    rw [initial_eq]
    rfl
  have hone : ScopeTree.initial.parents.length = 1 := by
    rw [initial_eq]
    rfl
  simp only [CompileUnit.resolve, bind_eq_done, setScopes_eq_done, openScope_eq_done,
    within_eq_done, scopes_eq_done, pure_eq_done, Prod.mk.injEq]
  constructor
  · rintro ⟨_, _, rfl, _, _, ⟨rfl, rfl⟩, ids, tree₂, hd, fns', tree₃, hf, _, _, ⟨rfl, rfl⟩, body', _,
      hb, _, _, ⟨rfl, rfl⟩, ⟨rfl, rfl⟩, rfl⟩
    rw [hstart, hone] at hd
    rw [hone] at hf hb
    exact ⟨ids, tree₂, fns', tree₃, body', hd, hf, hb, by rw [hone], by rw [hone]⟩
  · rintro ⟨ids, tree₂, fns', tree₃, body', hd, hf, hb, rfl, rfl⟩
    exact ⟨(), _, rfl, 1, unitStart, ⟨hone.symm, hstart.symm⟩, ids, tree₂, hd, fns', tree₃, hf, _, _,
      ⟨rfl, rfl⟩, body', tree', hb, tree', tree', ⟨rfl, rfl⟩, ⟨rfl, rfl⟩, rfl⟩

/-! ## Inference -/

theorem mem_zip_iff {as : List α} {bs : List β} {a : α} {b : β} :
    (a, b) ∈ as.zip bs ↔ ∃ i : Nat, as[i]? = some a ∧ bs[i]? = some b := by
  simp only [List.mem_iff_getElem?, List.getElem?_zip_eq_some]

/-- The functions of a unit with their signatures. -/
def CompileUnit.routines (unit : CompileUnit) (res : Resolution) : Routines :=
  unit.functions.zip res.signatures

/-- What inference of an accepted unit has found out before anything is committed. -/
structure CompileUnit.Inferred (unit : CompileUnit) (res : Resolution) (base : ScopeTree) : Prop where
  settles : Settles (unit.routines res) res.scopes.resetInferred base
  refined : res.scopes.resetInferred.Refined base
  explored : List.Forall₂ (FnDef.Explored 1 base) unit.functions res.signatures
  settled : base.Settled
  bears : ∀ entry ∈ unit.routines res, entry.1.Bears base entry.2
  returns : ∀ entry ∈ unit.routines res, ∀ signature, base.sigs[entry.2]? = some signature →
    signature.ret ≠ .void → entry.1.body.containsReturn = true

section

variable {unit unit' : CompileUnit} {res : Resolution} {base tree tree' : ScopeTree}

theorem CompileUnit.ResolvedIn.fit (h : unit.ResolvedIn res) : res.scopes.resetInferred.Fit :=
  ⟨h.parents, h.plain⟩

theorem CompileUnit.ResolvedIn.resolved (h : unit.ResolvedIn res) :
    ∀ entry ∈ unit.routines res, entry.1.Resolved := by
  rintro ⟨fn, sig⟩ hm
  exact h.functions fn (List.of_mem_zip hm).1

theorem FnDef.Ready.bears {n : Nat} {fn fn' : FnDef} {sig : SigId} (h : fn.Ready 1 base n sig)
    (ha : base.Agree (between n (n + fn.sites.length)) tree) (hp : tree.Plain)
    (hc : fn.commit 1 sig tree = .done fn' tree') :
    fn.Bears base sig ∧ ∀ signature, base.sigs[sig]? = some signature →
      signature.ret ≠ .void → fn.body.containsReturn = true := by
  obtain ⟨signature, body, hs, hprim, hb, hret, _⟩ := h.commit ha hp hc
  obtain ⟨other, hprobe, _⟩ := Block.infer_probe fn.body h.within ha.symm hb
  refine ⟨⟨signature, fn.body, other, hs, hprim, hprobe⟩, ?_⟩
  intro signature' hs' hv
  rw [hs] at hs'
  cases hs'
  have hreturns := hret hv
  rw [← Block.containsReturn_clear true, Block.infer_clear fn.body hb,
    Block.containsReturn_clear] at hreturns
  exact hreturns

/-- Inference that goes through settles every return type, and then commits the functions one after
the other and the script last. -/
theorem CompileUnit.ResolvedIn.inferred (h : unit.ResolvedIn res)
    (hi : unit.infer res.unitScope res.signatures res.scopes = .done unit' tree') :
    ∃ base fns' script' tree₂, unit.Inferred res base ∧
      ScriptLang.commitFunctions 1 res.signatures (List.range unit.functions.length)
        unit.functions base = .done fns' tree₂ ∧
      unit.script.commit 1 tree₂ = .done script' tree' ∧
      unit' = { unit with functions := fns', script := script' } := by
  obtain ⟨lasts, fns', script', tree₁, tree₂, hdisc, hcommit, hscript, rfl⟩ :=
    CompileUnit.infer_eq_done.mp hi
  obtain ⟨hlasts, href, hex⟩ := discoverReturns_spec h.signatures_length h.functions h.plain
    h.openCount_le hdisc
  have horder := commitOrder_perm lasts
  rw [hlasts] at horder
  obtain ⟨hset, _⟩ := h.commitFunctions href hex horder hcommit
  have hready := h.ready href hex
  rw [h.unitScope] at hdisc hex hcommit hscript hready
  have hlt : ∀ i ∈ commitOrder lasts, i < unit.functions.length :=
    fun i hm => List.mem_range.mp (horder.mem_iff.mp hm)
  have heach := (commitFunctions_each h.signatures_length hready rfl hlt
    (h.pending href (horder.nodup_iff.mpr List.nodup_range)) hcommit).2
  have hbears : ∀ entry ∈ unit.routines res, entry.1.Bears tree₁.resetInferred entry.2 ∧
      ∀ signature, tree₁.resetInferred.sigs[entry.2]? = some signature → signature.ret ≠ .void →
        entry.1.body.containsReturn = true := by
    rintro ⟨fn, sig⟩ hm
    obtain ⟨i, hf, hs⟩ := mem_zip_iff.mp hm
    have hmem : i ∈ commitOrder lasts :=
      horder.mem_iff.mpr (List.mem_range.mpr (List.getElem?_eq_some_iff.mp hf).1)
    obtain ⟨before, after, fn', ha, hp, hc, _⟩ := heach i hmem fn sig hf hs
    rw [ofFunction_eq hf] at ha
    exact (hready i fn sig hf hs).bears ha hp hc
  -- Everything is known, so no probe failed last and the order is that of the unit.
  have hknows : ∀ sig ∈ res.signatures, tree₁.Knows sig := by
    intro sig hs
    obtain ⟨i, hlt, rfl⟩ := List.getElem_of_mem hs
    have hlt' : i < unit.functions.length := h.signatures_length ▸ hlt
    have hm : (unit.functions[i], res.signatures[i]) ∈ unit.routines res :=
      mem_zip_iff.mpr ⟨i, List.getElem?_eq_getElem hlt', List.getElem?_eq_getElem hlt⟩
    obtain ⟨signature, _, _, hsig, hprim, _⟩ := (hbears _ hm).1
    exact ⟨signature, hsig, hprim.isFullyKnown⟩
  have hnodup : res.signatures.Nodup := by
    rw [h.signatures]
    exact List.nodup_range'
  rw [discoverReturns_lasts hnodup h.signatures_length hdisc hknows, commitOrder_none] at hcommit
  refine ⟨tree₁.resetInferred, fns', script', tree₂, ?_, hcommit, hscript, rfl⟩
  constructor
  case settles => exact discoverReturns_settles hdisc
  case refined => exact href
  case explored => exact hex
  case settled => exact hset
  case bears => exact fun entry hm => (hbears entry hm).1
  case returns => exact fun entry hm => (hbears entry hm).2

theorem CompileUnit.ResolvedIn.retSlot (h : unit.ResolvedIn res) (hinf : unit.Inferred res base)
    {fns' : List FnDef} {tree₂ : ScopeTree}
    (hc : ScriptLang.commitFunctions 1 res.signatures (List.range unit.functions.length)
      unit.functions base = .done fns' tree₂) :
    List.Forall₂ (fun fn' sig => ∃ signature, base.sigs[sig]? = some signature ∧
      fn'.retSlot = some signature.ret) fns' res.signatures := by
  have hex := hinf.explored
  rw [← h.unitScope] at hex hc
  have hready := h.ready hinf.refined hex
  have hlen := (h.commitFunctions hinf.refined hex (.refl _) hc).2.length
  have hlt : ∀ i ∈ List.range unit.functions.length, i < unit.functions.length :=
    fun i hm => List.mem_range.mp hm
  have heach := (commitFunctions_each h.signatures_length hready rfl hlt
    (h.pending hinf.refined List.nodup_range) hc).2
  rw [List.forall₂_iff_get]
  refine ⟨hlen.trans h.signatures_length.symm, fun i h₁ h₂ => ?_⟩
  have hi : i < unit.functions.length := hlen ▸ h₁
  have hf : unit.functions[i]? = some unit.functions[i] := List.getElem?_eq_getElem hi
  have hs : res.signatures[i]? = some res.signatures[i] := List.getElem?_eq_getElem h₂
  obtain ⟨before, after, fn', ha, hp, hcommit, hf'⟩ :=
    heach i (List.mem_range.mpr hi) _ _ hf hs
  rw [ofFunction_eq hf] at ha
  obtain ⟨signature, body, hsig, _, _, _, rfl⟩ := (hready i _ _ hf hs).commit ha hp hcommit
  rw [List.getElem?_eq_getElem h₁, Option.some.injEq] at hf'
  exact ⟨signature, hsig, by simp only [List.get_eq_getElem, hf']⟩

end

end ScriptLang
