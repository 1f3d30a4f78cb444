import ScriptLang.Proofs.InferenceRules
import ScriptLang.Proofs.Intersection
import ScriptLang.Proofs.Repetition
import ScriptLang.Proofs.Synthesis

/-!
# Placing a type in an expression

Committing an expression finds the types of all arguments once more and filters the overloads of a
call by the type that is demanded now. A type that the expression leaves open passes all these
filters. So there is always a candidate; there may be too many, and then the call stays undecided.
-/

namespace ScriptLang

open Pass ScopeTree

variable {tree : ScopeTree} {scope : ScopeId} {ty : Ty} {sigs : List Signature}

/-! ## Types left open -/

namespace Ty

mutual
theorem admits_self : ∀ t : Ty, t.isFullyKnown = true → t.admits t = true
  | .basic _, _ => by simp [admits]
  | .fn params ret, h => by
    simp only [isFullyKnown, Bool.and_eq_true] at h
    simp [admits, allAdmit_self params h.1, admits_self ret h.2]
  | .variant _, h => by simp [isFullyKnown] at h
  | .unknown, h => by simp [isFullyKnown] at h
theorem allAdmit_self : ∀ ts : List Ty, allFullyKnown ts = true → allAdmit ts ts = true
  | [], _ => rfl
  | t :: ts, h => by
    simp only [allFullyKnown, Bool.and_eq_true] at h
    simp [allAdmit, admits_self t h.1, allAdmit_self ts h.2]
end

theorem admits_of_unify {expected found : Ty} (h : expected.unify found = some ty)
    (hty : ty.isFullyKnown = true) : found.admits ty = true := by
  have hmem : ty ∈ expected.instances ∩ found.instances :=
    instances_unify h ▸ admits_self ty hty
  exact hmem.2

theorem isSome_unify_of_admits {own : Ty} (h : own.admits ty = true)
    (hty : ty.isFullyKnown = true) : (own.unify ty).isSome = true := by
  have hany := any_unify ty own ty
  rw [h, admits_self ty hty] at hany
  cases hu : own.unify ty with
  | none => simp [hu] at hany
  | some _ => rfl

end Ty

/-- What a call leaves open, one of its overloads does. -/
theorem exists_admits_of_returnType (hne : sigs ≠ [])
    (hrets : ∀ sig ∈ sigs, sig.ret.isVariant = false) (h : (returnType sigs).admits ty = true) :
    ∃ sig ∈ sigs, sig.ret.admits ty = true := by
  simp only [returnType] at h
  split at h
  · rename_i hunknown
    obtain ⟨_, hm, hu⟩ := List.any_eq_true.mp hunknown
    obtain ⟨sig, hs, rfl⟩ := List.mem_map.mp hm
    cases hret : sig.ret with
    | unknown => exact ⟨sig, hs, hret ▸ h⟩
    | _ => simp [hret, Ty.isUnknown] at hu
  · have hany := Ty.any_oneOf? (sigs.map Signature.ret) ty
    cases ho : Ty.oneOf? (sigs.map Signature.ret) with
    | none =>
      obtain ⟨sig, sigs, rfl⟩ := List.exists_cons_of_ne_nil hne
      have hsome : (Ty.oneOf? ((sig :: sigs).map Signature.ret)).isSome = true := by
        simp [Ty.isSome_oneOf?, Ty.alternatives_eq (hrets sig List.mem_cons_self)]
      rw [ho] at hsome
      cases hsome
    | some own =>
      rw [ho, Option.getD_some] at h
      rw [ho, Option.any_some, h, eq_comm, List.any_map, List.any_eq_true] at hany
      exact hany

/-! ## Overloads -/

/-- Which overload is meant is settled, or several are in question. -/
theorem ScopeTree.overloadFor_cases {name : String} {args : List Ty} {sig : Signature} (span : Span)
    (hc : tree.candidates scope name args = .ok sigs) (hs : sig ∈ sigs)
    (hfit : (sig.ret.unify ty).isSome = true) :
    (∃ sig ∈ sigs, tree.overloadFor scope name args ty span = .ok sig) ∨
      tree.overloadFor scope name args ty span = .error (.couldNotInfer ty span) ∧
        ∀ sig, sigs ≠ [sig] := by
  have hin : sig ∈ sigs.filter fun sig => (sig.ret.unify ty).isSome :=
    List.mem_filter.mpr ⟨hs, hfit⟩
  simp only [overloadFor, hc, bind, Except.bind]
  split
  · rename_i other hone
    rw [hone, List.mem_singleton] at hin
    exact Or.inl ⟨sig, hs, by rw [hin]; rfl⟩
  · rename_i hnil
    rw [hnil] at hin
    cases hin
  · rename_i hmany _
    refine Or.inr ⟨rfl, fun other hone => hmany other ?_⟩
    rw [hone, List.mem_singleton] at hs
    rw [hone, ← hs, List.filter_singleton, hfit, cond_true]

/-! ## Expressions -/

mutual
/-- The slots of an expression and of its parts. -/
def Expr.slots : Expr → List TypeSlot
  | .lit _ _ slot => [slot]
  | .var _ _ _ slot => [slot]
  | .call _ args _ slot => slot :: slotsAll args
def slotsAll : List Expr → List TypeSlot
  | [] => []
  | expr :: exprs => expr.slots ++ slotsAll exprs
end

/-- A slot with a type in which nothing is left open. -/
def TypeSlot.Known (slot : TypeSlot) : Prop :=
  ∃ ty, slot = some ty ∧ ty.isFullyKnown = true

theorem Expr.writeSlot_of_none {expr : Expr} (h : expr.slot = none) (ty : Ty) :
    expr.writeSlot ty tree = .done (expr.withSlot (some ty)) tree :=
  Expr.writeSlot_eq_done.mpr ⟨Or.inl h, rfl, rfl⟩

/-- Parameters have known types, and no function returns a set of candidates. -/
structure ScopeTree.Definite (tree : ScopeTree) : Prop where
  params : ∀ sig ∈ tree.sigs, ∀ ty ∈ sig.params, ty.isFullyKnown = true
  rets : ∀ sig ∈ tree.sigs, sig.ret.isVariant = false

theorem ScopeTree.Plain.definite (h : tree.Plain) : tree.Definite :=
  ⟨fun sig hm ty ht => (h.params sig hm ty ht).isFullyKnown,
    fun sig hm => (h.rets sig hm).isVariant⟩

theorem ScopeTree.Settled.definite (h : tree.Settled) : tree.Definite :=
  ⟨fun sig hm ty ht => (h.params sig hm ty ht).isFullyKnown,
    fun sig hm => (h.rets sig hm).flat.isVariant⟩

mutual
/-- An expression with empty slots can be committed to a type that it leaves open, unless it is left
undecided about a call with several candidates. -/
theorem Expr.commit_of_admits (h : tree.Definite) : ∀ (expr : Expr) {own ty : Ty},
    expr.clear true = expr → expr.synth tree scope = .ok own → own.admits ty = true →
    (∃ expr', expr.commit scope ty tree = .done expr' tree ∧ ∀ slot ∈ expr'.slots, slot.Known) ∨
      ¬ expr.Pinned tree scope ∧
        ∃ node ty' span, expr.commit scope ty tree = .stopped node (.couldNotInfer ty' span) tree
  | .lit _ _ slot, own, ty, hclear, _, hty => by
    have hknown := own.isFullyKnown_of_admits ty hty
    obtain rfl : none = slot := by injection hclear
    rw [Expr.commit, if_pos hknown]
    exact Or.inl ⟨_, Expr.writeSlot_of_none rfl ty, List.forall_mem_singleton.mpr ⟨ty, rfl, hknown⟩⟩
  | .var _ _ _ slot, own, ty, hclear, _, hty => by
    have hknown := own.isFullyKnown_of_admits ty hty
    obtain rfl : none = slot := by injection hclear
    rw [Expr.commit, if_pos hknown]
    exact Or.inl ⟨_, Expr.writeSlot_of_none rfl ty, List.forall_mem_singleton.mpr ⟨ty, rfl, hknown⟩⟩
  | .call name args span _, own, ty, hclear, hs, hty => by
    have hknown := own.isFullyKnown_of_admits ty hty
    simp only [Expr.clear, Expr.call.injEq, true_and] at hclear
    obtain ⟨hcargs, rfl⟩ := hclear
    obtain ⟨found, sigs, hfound, hc, hne, rfl⟩ := Expr.synth_call hs
    have hsigs : ∀ sig ∈ sigs, sig ∈ tree.sigs := fun sig => mem_sigs_of_candidates hc
    obtain ⟨sig, hsig, hret⟩ :=
      exists_admits_of_returnType hne (fun sig hs => h.rets sig (hsigs sig hs)) hty
    rw [Expr.commit, if_pos hknown]
    rcases overloadFor_cases span hc hsig (Ty.isSome_unify_of_admits hret hknown) with
      ⟨sig, hsig, hone⟩ | ⟨hmany, hnot⟩
    · have hparams := h.params sig (hsigs sig hsig)
      obtain ⟨_, _, rfl⟩ := candidates_eq_ok hc hne
      have hfit := (List.mem_filter.mp hsig).2
      rcases commitAll_of_admits h args hcargs hfound hparams hfit with
        ⟨args', hdone, hslots⟩ | ⟨hopen, nodes, ty', span', hstop⟩
      · refine Or.inl ⟨.call name args' span (some ty), ?_, ?_⟩
        · simp only [bind_apply, scopes_apply, hfound, ofExcept_ok, hone, note_apply, within_apply,
            hdone]
          exact Expr.writeSlot_of_none rfl ty
        · exact List.forall_mem_cons.mpr ⟨⟨ty, rfl, hknown⟩, hslots⟩
      · refine Or.inr ⟨fun hp => hopen hp.1, .call name nodes span none, ty', span', ?_⟩
        simp only [bind_apply, scopes_apply, hfound, ofExcept_ok, hone, note_apply, within_apply,
          hstop]
    · refine Or.inr ⟨?_, .call name args span none, ty, span, ?_⟩
      · rintro ⟨_, found', sig', hfound', hc'⟩
        obtain rfl := Except.ok.inj (hfound.symm.trans hfound')
        exact hnot sig' (Except.ok.inj (hc.symm.trans hc'))
      · simp only [bind_apply, scopes_apply, hfound, ofExcept_ok, hmany, ofExcept_error]
theorem commitAll_of_admits (h : tree.Definite) : ∀ (exprs : List Expr) {found params : List Ty},
    clearAll true exprs = exprs → synthAll tree scope exprs = .ok found →
    (∀ param ∈ params, param.isFullyKnown = true) → (Ty.unifyAll params found).isSome = true →
    (∃ exprs', commitAll scope exprs params found tree = .done exprs' tree ∧
      ∀ slot ∈ slotsAll exprs', slot.Known) ∨
      ¬ AllPinned tree scope exprs ∧ ∃ nodes ty span,
        commitAll scope exprs params found tree = .stopped nodes (.couldNotInfer ty span) tree
  | [], _, _, _, _, _, _ => Or.inl ⟨[], by simp [commitAll], List.forall_mem_nil _⟩
  | expr :: exprs, _, params, hclear, hs, hknown, hfit => by
    obtain ⟨hce, hces⟩ := List.cons.inj hclear
    obtain ⟨own, rest, hown, hrest, rfl⟩ := synthAll_cons hs
    cases params with
    | nil => simp [Ty.unifyAll] at hfit
    | cons param params =>
      obtain ⟨hparam, hparams⟩ := List.forall_mem_cons.mp hknown
      cases hunify : param.unify own with
      | none => simp [Ty.unifyAll, hunify] at hfit
      | some ty =>
        obtain rfl := Ty.unify_known_left param own ty hparam hunify
        have hfits : (Ty.unifyAll params rest).isSome = true := by
          cases hall : Ty.unifyAll params rest with
          | none => simp [Ty.unifyAll, hunify, hall] at hfit
          | some _ => rfl
        rcases Expr.commit_of_admits h expr hce hown (Ty.admits_of_unify hunify hparam) with
          ⟨expr', hdone, hslots⟩ | ⟨hopen, node, ty', span, hstop⟩
        · rcases commitAll_of_admits h exprs hces hrest hparams hfits with
            ⟨exprs', hdones, hslots'⟩ | ⟨hopen, nodes, ty', span, hstop⟩
          · refine Or.inl ⟨expr' :: exprs', ?_, List.forall_mem_append.mpr ⟨hslots, hslots'⟩⟩
            simp only [commitAll, hunify, bind_apply, within_apply, hdone, hdones, pure_apply]
          · refine Or.inr ⟨fun hp => hopen hp.2, expr' :: nodes, ty', span, ?_⟩
            simp only [commitAll, hunify, bind_apply, within_apply, hdone, hstop]
        · refine Or.inr ⟨fun hp => hopen hp.1, node :: exprs, ty', span, ?_⟩
          simp only [commitAll, hunify, bind_apply, within_apply, hstop]
end

/-- What an expression is found to be and what is expected of it may agree on a known type. Then the
expression can be committed to it, down to the last slot, or else it has a call with several
candidates between which this type does not decide. -/
theorem Expr.commit_places {expr : Expr} {expected found t : Ty} (h : tree.Definite)
    (hclear : expr.clear true = expr) (hs : expr.synth tree scope = .ok found)
    (hu : expected.unify found = some t) (ht : t.isFullyKnown = true) :
    (∃ expr', expr.commit scope t tree = .done expr' tree ∧ expr'.clear true = expr ∧
      expr'.slot = some t ∧ ∀ slot ∈ expr'.slots, slot.Known) ∨
      ¬ expr.Pinned tree scope ∧
        ∃ node ty span, expr.commit scope t tree = .stopped node (.couldNotInfer ty span) tree := by
  rcases Expr.commit_of_admits h expr hclear hs (Ty.admits_of_unify hu ht) with
    ⟨expr', hdone, hslots⟩ | hstop
  · obtain ⟨_, hsame, hslot⟩ := Expr.commit_spec expr expr' hdone
    exact Or.inl ⟨expr', hdone, hsame.trans hclear, hslot, hslots⟩
  · exact Or.inr hstop

/-- Nothing is known of what `f` returns, and `g` may be called with it in two ways. -/
theorem Expr.commit_places_nested :
    let tree : ScopeTree := { sigs := [⟨"f", [], .unknown, .user, {}, 0⟩,
      ⟨"g", [.int], .int, .user, {}, 0⟩, ⟨"g", [.float], .float, .user, {}, 0⟩] }
    let expr : Expr := .call "g" [.call "g" [.call "f" []]]
    tree.Definite ∧ expr.clear true = expr ∧
      expr.synth tree 0 = .ok (.variant [.float, .int]) ∧
      Ty.int.unify (.variant [.float, .int]) = some .int ∧ Ty.int.isFullyKnown = true ∧
      ((∃ expr', expr.commit 0 .int tree = .done expr' tree ∧ expr'.clear true = expr ∧
        expr'.slot = some .int ∧ ∀ slot ∈ expr'.slots, slot.Known) ∨
        ¬ expr.Pinned tree 0 ∧
          ∃ node ty span,
            expr.commit 0 .int tree = .stopped node (.couldNotInfer ty span) tree) := by
  intro tree expr
  have h : tree.Definite := ⟨by decide, by decide⟩
  have hs : expr.synth tree 0 = .ok (.variant [.float, .int]) := by decide +kernel
  have hu : Ty.int.unify (.variant [.float, .int]) = some .int := by decide
  exact ⟨h, rfl, hs, hu, rfl, Expr.commit_places h rfl hs hu rfl⟩

end ScriptLang
