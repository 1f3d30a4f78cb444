import Mathlib.Data.List.Perm.Basic
import ScriptLang.Proofs.Acceptance
import ScriptLang.Proofs.Rebinding

/-!
# Units in another order

Resolution does not care in which order the functions of a unit stand: if the names of a unit can be
bound, so can those of the unit with its functions rearranged. The two results are twins. Their
functions and signatures stand in different places and their variables have different numbers, and
that is all they differ in.
-/

namespace ScriptLang

open Pass ScopeTree

variable {bound unit : CompileUnit} {fn : FnDef} {order : List Nat} {count n n' : Nat}
  {res : Resolution} {tree tree' : ScopeTree}

/-! ## Places -/

/-- The places of two lists of length `n` belong together one by one. -/
structure Places (n : Nat) (p : Nat → Nat → Prop) : Prop where
  bounds : ∀ i j, p i j → i < n ∧ j < n
  total : ∀ i < n, ∃ j, p i j
  total' : ∀ j < n, ∃ i, p i j
  unique : ∀ i j i' j', p i j → p i' j' → (i = i' ↔ j = j')

theorem Places.symm {n : Nat} {p : Nat → Nat → Prop} (h : Places n p) : Places n (flip p) :=
  ⟨fun i j hp => (h.bounds j i hp).symm, h.total', h.total,
    fun i j i' j' hp hp' => (h.unique j i j' i' hp hp').symm⟩

theorem perm_set {l l' : List α} (h : l.Perm l') {i j : Nat} {a : α} (hi : l[i]? = some a)
    (hj : l'[j]? = some a) (b : α) : (l.set i b).Perm (l'.set j b) := by
  obtain ⟨hlt, he⟩ := List.getElem?_eq_some_iff.mp hi
  obtain ⟨hlt', he'⟩ := List.getElem?_eq_some_iff.mp hj
  have hrest : (l.eraseIdx i).Perm (l'.eraseIdx j) := by
    have hl := List.getElem_cons_eraseIdx_perm hlt
    have hl' := List.getElem_cons_eraseIdx_perm hlt'
    rw [he] at hl
    rw [he'] at hl'
    exact (hl.trans (h.trans hl'.symm)).cons_inv
  have hl := List.set_perm_cons_eraseIdx hlt b
  have hl' := List.set_perm_cons_eraseIdx hlt' b
  exact hl.trans ((hrest.cons b).trans hl'.symm)

/-! ## Binding functions one by one -/

/-- A place where a function can be bound: nothing is in sight there. -/
structure ScopeTree.Blank (tree : ScopeTree) : Prop where
  arena : tree.Arena
  inside : 1 < tree.parents.length
  sees : tree.Sees 1 []

theorem FnDef.bind_blank {fn₁ : FnDef} {tree₁ : ScopeTree} (h : tree.Blank)
    (hb : fn.bind 1 tree = .done fn₁ tree₁) : tree₁.Blank := by
  have hbound := (FnDef.bind_spec h.arena h.inside h.sees hb).1
  exact ⟨hbound.arena, hbound.inside h.inside, hbound.sees⟩

/-- Each function is bound at a place where nothing is in sight, and its variables stay what they
are. -/
theorem bindFunctions_each : ∀ {fns fns₁ : List FnDef} {tree tree₁ : ScopeTree}, tree.Blank →
    bindFunctions 1 fns tree = .done fns₁ tree₁ → ∀ (i : Nat) (fn : FnDef), fns[i]? = some fn →
    ∃ (before : ScopeTree) (fn₁ : FnDef) (after : ScopeTree), before.Blank ∧
      fn.bind 1 before = .done fn₁ after ∧ fns₁[i]? = some fn₁ ∧
      before.decls.length = tree.decls.length + fnStart fns₁ i ∧ after.decls <+: tree₁.decls
  | [], _, _, _, _, _, _, _, hf => by simp at hf
  | _ :: fns, _, tree, _, h, hb, i, fn', hf => by
    simp only [bindFunctions, bind_eq_done, within_eq_done, pure_eq_done] at hb
    obtain ⟨fn₁, tree₂, hfn, fns₂, _, hrest, rfl, rfl⟩ := hb
    have h₂ := FnDef.bind_blank h hfn
    cases i with
    | zero =>
      rw [List.getElem?_cons_zero, Option.some.injEq] at hf
      subst hf
      obtain ⟨more, hm⟩ := (bindFunctions_spec fns fns₂ h₂.arena h₂.inside h₂.sees hrest).1.grown.decls
      exact ⟨tree, fn₁, tree₂, h, hfn, rfl, by simp [fnStart], ⟨more, hm.1.symm⟩⟩
    | succ i =>
      rw [List.getElem?_cons_succ] at hf
      obtain ⟨before, fn₁', after, hblank, hbind, hget, hlen, hpre⟩ :=
        bindFunctions_each h₂ hrest i fn' hf
      have hlen₂ := (FnDef.bind_spec h.arena h.inside h.sees hfn).1.length
      refine ⟨before, fn₁', after, hblank, hbind, hget, ?_, hpre⟩
      rw [hlen, hlen₂]
      simp [fnStart, Nat.add_assoc]

/-- Stretches of declarations that are alike. -/
def ScopeTree.LikeOn (n n' count : Nat) (tree tree' : ScopeTree) : Prop :=
  ∀ k < count, Option.Rel VarDecl.Like tree.decls[n + k]? tree'.decls[n' + k]?

theorem ScopeTree.LikeOn.symm {n n' count : Nat} {tree tree' : ScopeTree}
    (h : LikeOn n n' count tree tree') : LikeOn n' n count tree' tree :=
  fun k hk => rel_flip_of (fun _ _ hl => ⟨hl.declared.symm, hl.ty.symm, hl.kind.symm⟩) (h k hk)

theorem ScopeTree.LikeFrom.length_eq {count' : Nat} (h : LikeFrom n n' tree tree')
    (hlen : tree.decls.length = n + count) (hlen' : tree'.decls.length = n' + count') :
    count' = count := by
  have hiff : ∀ k : Nat, tree.decls.length ≤ n + k ↔ tree'.decls.length ≤ n' + k := by
    intro k
    rw [← List.getElem?_eq_none_iff, ← List.getElem?_eq_none_iff]
    have hk := h k
    constructor
    · intro hnone
      rw [hnone] at hk
      cases hk' : tree'.decls[n' + k]? with
      | none => rfl
      | some var =>
        rw [hk'] at hk
        cases hk
    · intro hnone
      rw [hnone] at hk
      cases hk' : tree.decls[n + k]? with
      | none => rfl
      | some var =>
        rw [hk'] at hk
        cases hk
  have h₁ := hiff count
  have h₂ := hiff count'
  omega

theorem ScopeTree.LikeFrom.likeOn {tree₁ tree₁' : ScopeTree} (h : LikeFrom n n' tree tree')
    (hlen : tree.decls.length = n + count) (hlen' : tree'.decls.length = n' + count)
    (hpre : tree.decls <+: tree₁.decls) (hpre' : tree'.decls <+: tree₁'.decls) :
    LikeOn n n' count tree₁ tree₁' := by
  intro k hk
  have hk := h k
  obtain ⟨more, hm⟩ := hpre
  obtain ⟨more', hm'⟩ := hpre'
  rw [← hm, ← hm', List.getElem?_append_left (by omega), List.getElem?_append_left (by omega)]
  exact hk

/-- Two resolved units with the same functions, in places that `p` tells. -/
structure CompileUnit.Twin (p : Nat → Nat → Prop) (unit : CompileUnit) (res : Resolution)
    (unit' : CompileUnit) (res' : Resolution) : Prop where
  resolved : unit.ResolvedIn res
  resolved' : unit'.ResolvedIn res'
  length : unit'.functions.length = unit.functions.length
  places : Places unit.functions.length p
  sigs : res.scopes.sigs.Perm res'.scopes.sigs
  placed : ∀ i j, p i j → res.scopes.sigs[builtinSignatures.length + i]? =
    res'.scopes.sigs[builtinSignatures.length + j]?
  functions : ∀ i j, p i j → ∃ fn fn' count, unit.functions[i]? = some fn ∧
    unit'.functions[j]? = some fn' ∧ fn.sites.length = count ∧ fn'.sites.length = count ∧
    fn.Alike (Shifted (fnStart unit.functions i) (fnStart unit'.functions j) count) fn' ∧
    LikeOn (fnStart unit.functions i) (fnStart unit'.functions j) count res.scopes res'.scopes
  script : ∃ start start' count, start = fnStart unit.functions unit.functions.length ∧
    start' = fnStart unit'.functions unit'.functions.length ∧
    unit.script.body.sites.length = count ∧ unit'.script.body.sites.length = count ∧
    unit.script.body.Alike (Shifted start start' count) unit'.script.body ∧
    LikeOn start start' count res.scopes res'.scopes
  same : unit'.script = { unit.script with body := unit'.script.body }

theorem Shifted.symm {i j : Nat} (h : Shifted n n' count i j) : Shifted n' n count j i := by
  obtain ⟨k, hk, hi, hj⟩ := h
  exact ⟨k, hk, hj, hi⟩

theorem FnDef.Alike.flip_of {r r' : DeclId → DeclId → Prop} (hf : ∀ i j, r i j → r' j i)
    {fn other : FnDef} (h : fn.Alike r other) : other.Alike r' fn := by
  refine ⟨h.params.flip.imp ?_, h.body.flip_of hf, ?_⟩
  · rintro param param' ⟨hh, he⟩
    refine ⟨rel_flip_of hf hh, ?_⟩
    rw [he]
  · rw [h.same]

theorem CompileUnit.Twin.symm {p : Nat → Nat → Prop} {unit unit' : CompileUnit}
    {res res' : Resolution} (h : unit.Twin p res unit' res') : unit'.Twin (flip p) res' unit res := by
  constructor
  case resolved => exact h.resolved'
  case resolved' => exact h.resolved
  case length => exact h.length.symm
  case places => exact h.length ▸ h.places.symm
  case sigs => exact h.sigs.symm
  case placed => exact fun i j hp => (h.placed j i hp).symm
  case functions =>
    intro i j hp
    obtain ⟨fn, fn', count, hf, hf', hc, hc', ha, hl⟩ := h.functions j i hp
    exact ⟨fn', fn, count, hf', hf, hc', hc, ha.flip_of fun _ _ => Shifted.symm, hl.symm⟩
  case script =>
    obtain ⟨start, start', count, hs, hs', hc, hc', ha, hl⟩ := h.script
    exact ⟨start', start, count, hs', hs, hc', hc, ha.flip_of fun _ _ => Shifted.symm, hl.symm⟩
  case same => rw [h.same]

/-! ## Resolution in another order -/

theorem FnDef.bind_twice {fn₁ fn₁' : FnDef} {before before' after after' : ScopeTree}
    (h : before.Blank) (h' : before'.Blank) (hb : fn.bind 1 before = .done fn₁ after)
    (hb' : fn.bind 1 before' = .done fn₁' after') (hpre : after.decls <+: tree.decls)
    (hpre' : after'.decls <+: tree'.decls) :
    ∃ count, fn₁.sites.length = count ∧ fn₁'.sites.length = count ∧
      fn₁.Alike (Shifted before.decls.length before'.decls.length count) fn₁' ∧
      LikeOn before.decls.length before'.decls.length count tree tree' := by
  obtain ⟨other, tree₁, hb₁, ha, hl⟩ := FnDef.bind_alike h.arena h.inside h.sees h'.arena h'.inside
    h'.sees hb
  rw [hb'] at hb₁
  cases hb₁
  have hlen := (FnDef.bind_spec h.arena h.inside h.sees hb).1.length
  have hlen' := (FnDef.bind_spec h'.arena h'.inside h'.sees hb').1.length
  have hcount := hl.length_eq hlen hlen'
  exact ⟨_, rfl, hcount, ha, hl.likeOn hlen (hcount ▸ hlen') hpre hpre'⟩

theorem FnDef.Shows.unique {unitScope : ScopeId} {sig sig' : Signature} (h : fn.Shows unitScope sig)
    (h' : fn.Shows unitScope sig') : sig = sig' := by
  obtain ⟨params, ret, ht, rfl⟩ := h
  obtain ⟨params', ret', ht', rfl⟩ := h'
  rw [ht] at ht'
  cases ht'
  rfl

theorem ScopeTree.Unambiguous.perm (h : tree.Unambiguous) (hp : tree.sigs.Perm tree'.sigs) :
    tree'.Unambiguous := by
  refine (hp.pairwise_iff ?_).mp h
  rintro a b hab ⟨hs, hn, hps⟩
  exact hab ⟨hs.symm, hn.symm, hps.symm⟩

theorem ScopeTree.blank_unitStart (users : List Signature) :
    ({ unitStart with sigs := unitStart.sigs ++ users } : ScopeTree).Blank := by
  have ha : ({ unitStart with sigs := unitStart.sigs ++ users } : ScopeTree).Arena :=
    arena_start rfl rfl
  exact ⟨ha, Nat.lt_succ_self 1, sees_nil ha rfl (Nat.lt_succ_self 1)⟩

theorem CompileUnit.resolve_parts (h : unit.resolve tree = .done (bound, res) tree') :
    ∃ users tree₃, List.Forall₂ (FnDef.Shows 1) unit.functions users ∧
      ({ unitStart with sigs := unitStart.sigs ++ users } : ScopeTree).Unambiguous ∧
      bindFunctions 1 unit.functions { unitStart with sigs := unitStart.sigs ++ users } =
        .done bound.functions tree₃ ∧
      tree₃.Blank ∧ tree₃.decls.length = fnStart bound.functions bound.functions.length ∧
      unit.script.body.bind tree₃.parents.length (some tree₃.parents.length)
        (tree₃.newScope 1).2 = .done bound.script.body tree' ∧
      tree₃.decls <+: tree'.decls ∧ tree'.sigs = builtinSignatures ++ users ∧
      tree'.decls.length = tree₃.decls.length + bound.script.body.sites.length ∧
      bound.script = { unit.script with body := bound.script.body } ∧ res.scopes = tree' := by
  obtain ⟨ids, tree₂, fns₁, tree₃, body₁, hd, hf, hb, rfl, rfl⟩ := CompileUnit.resolve_eq_done.mp h
  obtain ⟨hamb, _, users, hshow, rfl⟩ := declareSignatures_spec unit.functions unambiguous_unitStart hd
  have hblank := blank_unitStart users
  have hbf := (bindFunctions_spec unit.functions fns₁ hblank.arena hblank.inside hblank.sees hf).1
  have hblank₃ : tree₃.Blank := ⟨hbf.arena, hbf.inside hblank.inside, hbf.sees⟩
  have hinner : tree₃.parents.length < (tree₃.newScope 1).2.parents.length := by simp [newScope]
  have hbb := (Block.bind_spec unit.script.body body₁ (arena_newScope hblank₃.arena hblank₃.inside)
    hinner (sees_newScope hblank₃.arena hblank₃.inside hblank₃.sees) hb).1
  refine ⟨users, tree₃, hshow, hamb, hf, hblank₃, ?_, hb, ?_, ?_, hbb.length, rfl, rfl⟩
  · rw [hbf.length]
    simp [unitStart, fnStart]
  · obtain ⟨more, hm, _⟩ := hbb.grown.decls
    exact ⟨more, hm.symm⟩
  · exact hbb.grown.sigs.trans hbf.grown.sigs

end ScriptLang
