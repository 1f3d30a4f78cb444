import ScriptLang.Proofs.Completeness
import ScriptLang.Proofs.Refinement

/-!
# The error of the first function that failed

A function whose probe fails is committed before all others, so that its error is the one reported.
It is, unless the committing run stalls before it gets to the place of the error. In a unit whose
slots are empty there is one reason for that: a call that may reach a function whose return type is
still unknown. A probe makes nothing of such a call, but it cannot be committed.
-/

namespace ScriptLang

open Pass ScopeTree

/-! ## Where a committing run stalls -/

/-- The expression cannot be committed, for it may reach an open function. -/
structure Expr.Stalls (halt : Halt) (expr : Expr) (want : Ty) (tree : ScopeTree) : Prop where
  stopped : ∃ node tree', expr.commit 1 want tree = .stopped node halt tree'
  undecided : ∃ ty span, halt = .couldNotInfer ty span
  reachesOpen : expr.ReachesOpen tree 1

/-- In a tree with empty slots a run can stall in this way only. -/
theorem stallsBy_stalls : StallsBy True 1 Expr.Stalls := by
  intro tree expr ty node halt tree' hmet hc
  obtain ⟨env, he, hr⟩ := hmet.resolved
  obtain ⟨expected, hx, hfits⟩ := hmet.fits
  have hflat := hfits.agreed.flat hmet.plain hx
  obtain ⟨own, hs, hunify, _, _⟩ := hfits
  have hor :=
    Expr.synth_prim_or_open hmet.plain.params hmet.plain.rets hmet.unambiguous he expr hr hs
  rcases hflat with rfl | hty
  · -- The expression is found to be unknown itself.
    have hown : ¬ own.Prim := by
      intro hown
      rcases hx with rfl | hx
      · rw [Ty.unify_unknown_left] at hunify
        exact Ty.not_prim_unknown (Option.some.inj hunify ▸ hown)
      · exact Ty.not_prim_unknown (hx.unify_eq_some hunify ▸ hx)
    have hopen := hor.resolve_left fun hpinned => hown hpinned.1
    refine ⟨⟨node, tree', hc⟩, ⟨.unknown, expr.span, ?_⟩, hopen⟩
    cases expr
    all_goals
      simp only [Expr.commit, Ty.isFullyKnown, Bool.false_eq_true, if_false, stop_apply,
        Outcome.stopped.injEq] at hc
      exact hc.2.1.symm
  · rcases Expr.commit_of_admits hmet.plain.definite expr (hmet.untyped trivial) hs
      (Ty.admits_of_unify hunify hty.isFullyKnown) with
      ⟨expr', hdone, _⟩ | ⟨hnot, _, ty', span, hstop⟩
    · rw [hdone] at hc
      cases hc
    · refine ⟨⟨node, tree', hc⟩, ⟨ty', span, ?_⟩, hor.resolve_left fun hpinned => hnot hpinned.2⟩
      rw [hstop] at hc
      injection hc with _ hhalt _
      exact hhalt.symm

/-! ## The error that is reported -/

theorem CompileUnit.check_of_infer_stopped {unit bound node : CompileUnit} {res : Resolution}
    {halt : Halt} {tree : ScopeTree} (hr : unit.resolve {} = .done (bound, res) res.scopes)
    (h : bound.infer res.unitScope res.signatures res.scopes = .stopped node halt tree) :
    unit.check = ⟨node, .error halt⟩ := by
  simp only [CompileUnit.check, CompileUnit.checkPass, bind_apply, note_apply, hr, h, Run.ofOutcome]

/-- If discovery leaves functions that cannot be probed, a check of a unit with empty slots reports
the error of the last probe of the first of them. Or else it is left undecided about an expression
of this function that the probe has got past, where a call may reach a function whose return type is
still unknown. -/
theorem check_first_failure {unit bound : CompileUnit} {res : Resolution} {lasts : List LastError}
    {tree : ScopeTree} {i : Nat} (hu : unit.Untyped) (hr : unit.resolveNames = ⟨bound, .ok res⟩)
    (hd : discoverReturns bound res.unitScope bound.functions res.signatures res.scopes =
      .done lasts tree) (hi : lasts.findIdx? Option.isSome = some i) :
    ∃ fn sig signature e, bound.functions[i]? = some fn ∧ res.signatures[i]? = some sig ∧
      tree.sigs[sig]? = some signature ∧ lasts[i]? = some (some e) ∧
      (unit.check.result = .error (.error e) ∨
        ∃ halt, unit.check.result = .error halt ∧
          fn.body.Passes 1 (Expr.Stalls halt) ⟨signature.ret, fn.span, false⟩
            tree.resetInferred) := by
  obtain ⟨start, hres⟩ := Run.ofOutcome_eq_ok.mp hr
  obtain ⟨hbound, -, rfl⟩ := CompileUnit.resolve_spec hres
  obtain ⟨fn, sig, signature, e, part, tree₁, hf, hs, hlast, hfn, hsig, hsight, hprobe, hend⟩ :=
    hbound.first_failed hd hi
  have hclear : fn.body.clear true = fn.body :=
    (FnDef.clear_eq_self.mp ((hu.resolve hres).functions fn (List.mem_of_getElem? hf))).1
  obtain ⟨fn', halt, tree', hc, hwhy⟩ :=
    hfn.commit_stopped stallsBy_stalls (fun _ => hclear) hsig hsight hprobe
  have hcheck := CompileUnit.check_of_infer_stopped hres (hend fn' halt tree' hc)
  refine ⟨fn, sig, signature, e, hf, hs, hsig, hlast, ?_⟩
  rw [hcheck]
  rcases hwhy with rfl | hstall
  · exact Or.inl rfl
  · exact Or.inr ⟨halt, rfl, hstall⟩

theorem untyped_faltering : faltering.Untyped := by
  constructor
  · simp only [faltering, List.forall_mem_cons]
    exact ⟨rfl, rfl, rfl, by simp⟩
  · rfl

theorem check_first_failure_faltering :
    ∃ bound res lasts tree, faltering.Untyped ∧ faltering.resolveNames = ⟨bound, .ok res⟩ ∧
      discoverReturns bound res.unitScope bound.functions res.signatures res.scopes =
        .done lasts tree ∧
      lasts.findIdx? Option.isSome = some 1 ∧
      ∃ fn sig signature e, bound.functions[1]? = some fn ∧ res.signatures[1]? = some sig ∧
        tree.sigs[sig]? = some signature ∧ lasts[1]? = some (some e) ∧
        (faltering.check.result = .error (.error e) ∨
          ∃ halt, faltering.check.result = .error halt ∧
            fn.body.Passes 1 (Expr.Stalls halt) ⟨signature.ret, fn.span, false⟩
              tree.resetInferred) := by
  have heval : (faltering.probeErrors?.map (List.findIdx? Option.isSome)) = some (some 1) := by
    decide +kernel
  obtain ⟨lasts, hlasts, hfirst⟩ := Option.map_eq_some_iff.mp heval
  obtain ⟨bound, res, tree, hr, hd⟩ := CompileUnit.probeErrors?_eq_some hlasts
  exact ⟨bound, res, lasts, tree, untyped_faltering, hr, hd, hfirst,
    check_first_failure untyped_faltering hr hd hfirst⟩

/-- A unit with empty slots whose names can be bound, and where the probe of the function `first`
fails with an addition that does not exist. But the check is left undecided about the call before
it. -/
theorem check_stalls_before_failure :
    faltering.Untyped ∧
      faltering.probeErrors? = some [none, some (.undeclaredFunction "+" [.int, .bool] {}),
        some (.undeclaredFunction "+" [.bool, .int] {})] ∧
      faltering.check.result = .error (.couldNotInfer .unknown {}) :=
  ⟨untyped_faltering, by decide +kernel, by decide +kernel⟩

end ScriptLang
