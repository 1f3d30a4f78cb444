import ScriptLang.Proofs.Declarations
import ScriptLang.Proofs.Twins

/-!
# Functions and the script

Functions are committed before the script, and their variables are numbered before its own: what
becomes of them does not depend on it.
-/

namespace ScriptLang

open Pass ScopeTree

/-! ## Trees that differ behind the functions -/

/-- The same functions are declared, and so are the first `n` variables. -/
structure ScopeTree.Shared (n : Nat) (tree tree' : ScopeTree) : Prop where
  rooted : tree.Rooted
  rooted' : tree'.Rooted
  sigs : tree.sigs = tree'.sigs
  decls : ∀ i < n, tree.decls[i]? = tree'.decls[i]?

/-- One of the first `n` variables. -/
def Early (n : Nat) (i j : DeclId) : Prop :=
  i = j ∧ i < n

namespace ScopeTree.Shared

variable {n : Nat} {tree tree' tree₁ tree₁' : ScopeTree}

theorem likeAt (h : Shared n tree tree') : tree.LikeAt (Early n) tree' := by
  rintro i _ ⟨rfl, hi⟩
  refine ⟨rfl, ?_⟩
  rw [h.decls i hi]
  cases tree'.decls[i]? with
  | none => exact .none
  | some var => exact .some ⟨rfl, rfl, rfl⟩

theorem retype (h : Shared n tree tree') (i : DeclId) (var : VarDecl) (ty : Ty) :
    Shared n (tree.retype i var ty) (tree'.retype i var ty) := by
  refine ⟨h.rooted, h.rooted', h.sigs, fun k hk => ?_⟩
  have hdecl := h.decls k hk
  simp only [ScopeTree.retype, List.getElem?_set]
  split
  · subst k
    have hlen : i < tree.decls.length ↔ i < tree'.decls.length := by
      rw [← not_iff_not, Nat.not_lt, Nat.not_lt, ← List.getElem?_eq_none_iff, hdecl,
        List.getElem?_eq_none_iff]
    simp only [hlen]
  · exact hdecl

/-- What comes behind the first `n` variables does not matter to a run that leaves it alone. -/
theorem of_agree (h : Shared n tree tree') (ha : tree.Agree (· < n) tree₁)
    (ha' : tree'.Agree (· < n) tree₁') : Shared n tree₁ tree₁' := by
  obtain ⟨more, hm⟩ := h.rooted
  obtain ⟨more', hm'⟩ := h.rooted'
  refine ⟨⟨more, ha.parents.symm.trans hm⟩, ⟨more', ha'.parents.symm.trans hm'⟩, ?_, fun i hi => ?_⟩
  · rw [← ha.sigs, ← ha'.sigs, h.sigs]
  · rw [← ha.types i hi, ← ha'.types i hi, h.decls i hi]

@[reducible] def coupling (n : Nat) : Coupling ScopeTree :=
  .ofTrees (Shared n) (· = ·) fun _ => rfl

theorem steady (n : Nat) : (coupling n).Steady 1 (Early n) where
  candidates {tree tree'} h name args := by
    have hreached : tree.reached name args = tree'.reached name args := by
      unfold reached visible overloads
      rw [h.sigs]
    rw [h.rooted.candidates, h.rooted'.candidates, hreached]
    exact .ok ⟨.refl _, rfl⟩
  declaration {tree tree'} h i j hr span := by
    have hlike := (h.likeAt i j hr).2
    obtain ⟨rfl, _⟩ := hr
    exact .demand hlike rfl
  setVarType {tree tree'} h i j hr ty := by
    have hlike := (h.likeAt i j hr).2
    obtain ⟨rfl, hi⟩ := hr
    refine setVarType_like hlike rfl fun var var' hv hv' _ => ?_
    rw [h.decls i hi, hv'] at hv
    cases hv
    exact h.retype i var ty
  halts _ _ h := h
  signature h sig := by simp only [ScopeTree.signature, h.sigs]
  setReturn {tree tree'} h sig ret := by
    unfold setReturn ScopeTree.signature
    rw [h.sigs]
    cases tree'.sigs[sig]? with
    | none => exact .error rfl
    | some signature => exact .ok ⟨h.rooted, h.rooted', rfl, h.decls⟩
  reset h := by
    refine ⟨h.rooted, h.rooted', h.sigs, fun i hi => ?_⟩
    simp only [resetInferred, List.getElem?_map, h.decls i hi]

end ScopeTree.Shared

/-! ## Resolution -/

section

variable {unit unit' bound bound' : CompileUnit} {res res' : Resolution} {tree tree' : ScopeTree}

/-- The number of variables that the functions of a unit have. -/
def CompileUnit.fnVars (unit : CompileUnit) : Nat :=
  fnStart unit.functions unit.functions.length

theorem bindFunctions_early {fns fns₁ : List FnDef} (hblank : tree.Blank)
    (hb : bindFunctions 1 fns tree = .done fns₁ tree') :
    List.Forall₂ (FnDef.Alike (Early tree'.decls.length)) fns₁ fns₁ := by
  obtain ⟨_, _, hclear⟩ := bindFunctions_spec fns fns₁ hblank.arena hblank.inside hblank.sees hb
  have hlen : fns₁.length = fns.length := by simpa using congrArg List.length hclear
  refine List.forall₂_iff_get.mpr ⟨rfl, fun i hi _ => ?_⟩
  have hi' : i < fns.length := hlen ▸ hi
  obtain ⟨before, fn₁, after, hblank', hbind, hget, _, hpre⟩ :=
    bindFunctions_each hblank hb i fns[i] (List.getElem?_eq_getElem hi')
  rw [List.getElem?_eq_getElem hi, Option.some.injEq] at hget
  obtain ⟨count, hcount, _, halike, _⟩ := FnDef.bind_twice hblank' hblank' hbind hbind hpre hpre
  have hafter := (FnDef.bind_spec hblank'.arena hblank'.inside hblank'.sees hbind).1.length
  have hle := hpre.length_le
  simp only [List.get_eq_getElem, hget]
  refine halike.mono ?_
  rintro _ _ ⟨k, hk, rfl, rfl⟩
  refine ⟨rfl, ?_⟩
  change before.decls.length + k < tree'.decls.length
  omega

theorem CompileUnit.resolve_shared (hf : unit'.functions = unit.functions)
    (h : unit.resolve {} = .done (bound, res) res.scopes)
    (h' : unit'.resolve {} = .done (bound', res') res'.scopes) :
    bound'.functions = bound.functions ∧ res'.signatures = res.signatures ∧
      Shared bound.fnVars res.scopes res'.scopes ∧
      List.Forall₂ (FnDef.Alike (Early bound.fnVars)) bound.functions bound'.functions := by
  obtain ⟨users, tree₃, hshow, _, hbind, hblank, hcount, _, hpre, hsigs, _⟩ :=
    CompileUnit.resolve_parts h
  obtain ⟨users', tree₃', hshow', _, hbind', _, _, _, hpre', hsigs', _⟩ :=
    CompileUnit.resolve_parts h'
  obtain ⟨hres, _, _⟩ := CompileUnit.resolve_spec h
  obtain ⟨hres', _, _⟩ := CompileUnit.resolve_spec h'
  have hunique : Relator.RightUnique (FnDef.Shows 1) := fun _ _ _ => FnDef.Shows.unique
  rw [hf] at hshow' hbind'
  obtain rfl := List.right_unique_forall₂' hunique hshow hshow'
  rw [hbind] at hbind'
  obtain ⟨hfns, rfl⟩ := Outcome.done.inj hbind'
  have hcount : tree₃.decls.length = bound.fnVars := hcount
  rw [← hcount]
  refine ⟨hfns.symm, ?_, ⟨hres.parents, hres'.parents, hsigs.trans hsigs'.symm, fun i hi => ?_⟩, ?_⟩
  · rw [hres.signatures, hres'.signatures, hfns]
  · obtain ⟨more, hm⟩ := hpre
    obtain ⟨more', hm'⟩ := hpre'
    rw [← hm, ← hm', List.getElem?_append_left hi, List.getElem?_append_left hi]
  · exact hfns ▸ bindFunctions_early (blank_unitStart users) hbind

/-! ## Checking -/

theorem CompileUnit.ResolvedIn.commit_script (h : unit.ResolvedIn res) {script : Script}
    (hc : unit.script.commit 1 tree = .done script tree') : tree.Agree (· < unit.fnVars) tree' := by
  obtain ⟨body, ctx, hbody, rfl⟩ := Script.commit_eq_done.mp hc
  have hsites := (numbered_append.mp h.numbered).2.sitesWithin
  have hwithin := (Block.Resolved.within unit.script.body (by simp [Env.Within]) hsites h.script).1
  refine (Block.infer_steps unit.script.body hwithin hbody).agree.mono ?_
  rintro id hid ⟨hle, _⟩
  rw [Nat.zero_add] at hle
  have hvars : unit.fnVars = (unit.functions.flatMap FnDef.sites).length := by
    simp [CompileUnit.fnVars, fnStart]
  exact Nat.not_lt_of_le hle (hvars ▸ hid)

theorem CompileUnit.check_shared (hf : unit'.functions = unit.functions)
    (h : unit.check.result = .ok res) (h' : unit'.check.result = .ok res') :
    ∃ n, List.Forall₂ (FnDef.Alike (Early n)) unit.check.unit.functions unit'.check.unit.functions ∧
      Shared n res.scopes res'.scopes := by
  have hcheck : unit.check = ⟨unit.check.unit, .ok res⟩ := by rw [← h]
  have hcheck' : unit'.check = ⟨unit'.check.unit, .ok res'⟩ := by rw [← h']
  obtain ⟨bound, start, hr, hi, _⟩ := CompileUnit.check_eq_ok.mp hcheck
  obtain ⟨bound', start', hr', hi', _⟩ := CompileUnit.check_eq_ok.mp hcheck'
  have hres := (CompileUnit.resolve_spec hr).1
  have hres' := (CompileUnit.resolve_spec hr').1
  obtain ⟨hfns, hsigs, hshared, halike⟩ := CompileUnit.resolve_shared hf hr hr'
  have hn : bound'.fnVars = bound.fnVars := by rw [CompileUnit.fnVars, hfns, CompileUnit.fnVars]
  rw [hres.unitScope, CompileUnit.infer_eq, bind_eq_done] at hi
  rw [hres'.unitScope, hsigs, CompileUnit.infer_eq, bind_eq_done] at hi'
  obtain ⟨fns, tree, hfns₁, hscript⟩ := hi
  obtain ⟨fns', tree', hfns₁', hscript'⟩ := hi'
  obtain ⟨_, _, hrun, halike₁, hshared₁⟩ := (CompileUnit.inferFunctions_alike (Shared.steady _) halike
    start.signatures).done hshared hfns₁
  rw [hfns₁'] at hrun
  cases hrun
  simp only [bind_eq_done, within_eq_done, pure_eq_done] at hscript hscript'
  obtain ⟨script, _, hscript, hu, rfl⟩ := hscript
  obtain ⟨script', _, hscript', hu', rfl⟩ := hscript'
  refine ⟨bound.fnVars, ?_, ?_⟩
  · rw [← hu, ← hu']
    exact halike₁
  · exact hshared₁.of_agree (hres.commit_script hscript) (hn ▸ hres'.commit_script hscript')

/-- The error that the functions of a unit are refused with, if they are refused when they are
committed. -/
def CompileUnit.refusal? (unit : CompileUnit) : Option Halt :=
  match unit.resolve ({} : ScopeTree) with
  | .stopped _ _ _ => none
  | .done (bound, res) tree =>
    match discoverReturns bound res.unitScope bound.functions res.signatures tree with
    | .stopped _ _ _ => none
    | .done lasts tree =>
      match commitFunctions res.unitScope res.signatures (commitOrder lasts) bound.functions
        tree.resetInferred with
      | .stopped _ halt _ => some halt
      | .done _ _ => none

theorem CompileUnit.inferFunctions_of_refusal {halt : Halt} (h : unit.refusal? = some halt) :
    ∃ (bound node : CompileUnit) (res : Resolution) (tree : ScopeTree),
      unit.resolve {} = .done (bound, res) res.scopes ∧
        bound.inferFunctions 1 res.signatures res.scopes = .stopped node halt tree := by
  unfold CompileUnit.refusal? at h
  split at h
  · cases h
  · rename_i bound res tree hr
    obtain ⟨hres, _, rfl⟩ := CompileUnit.resolve_spec hr
    rw [hres.unitScope] at h
    split at h
    · cases h
    · rename_i lasts tree hdisc
      split at h
      · rename_i fns _ tree' hcommit
        cases h
        refine ⟨bound, { bound with functions := fns }, res, tree', hr, ?_⟩
        simp only [CompileUnit.inferFunctions, resetHere, bind_apply, hdisc, note_apply,
          scopes_apply, setScopes_apply, within_apply, hcommit]
      · cases h

theorem CompileUnit.check_of_refusal {halt : Halt} (h : unit.refusal? = some halt)
    (hf : unit'.functions = unit.functions) (hr' : unit'.resolveNames.result = .ok res') :
    unit'.check.result = .error halt := by
  obtain ⟨bound, _, res, _, hr, hstop⟩ := CompileUnit.inferFunctions_of_refusal h
  have hnames : unit'.resolveNames = ⟨unit'.resolveNames.unit, .ok res'⟩ := by rw [← hr']
  obtain ⟨_, hr'⟩ := Run.ofOutcome_eq_ok.mp hnames
  obtain ⟨hres', _, rfl⟩ := CompileUnit.resolve_spec hr'
  obtain ⟨hfns, hsigs, hshared, halike⟩ := CompileUnit.resolve_shared hf hr hr'
  obtain ⟨_, _, _, hstop', rfl⟩ := (CompileUnit.inferFunctions_alike (Shared.steady _) halike
    res.signatures).stopped hshared hstop
  unfold CompileUnit.check CompileUnit.checkPass
  simp only [bind_apply, note_apply, hr', hres'.unitScope, hsigs, CompileUnit.infer_eq, hstop',
    Run.ofOutcome]

end

/-! ## Separation -/

/-- The text of a module up to the lines of its script. -/
def Options.front (options : Options) (functions : List Routine) : String :=
  ({ name := options.moduleName, targetTriple := options.targetTriple, routines := [],
     declares := [] } : Module).header ++ String.join (functions.map fun r => "\n" ++ r.text) ++
    "\ndefine i32 " ++ symbol options.entrySymbol [] false ++ "() \x7b\n"

theorem CompileUnit.lower_front {unit : CompileUnit} {scopes : ScopeTree} {options : Options}
    {m : Module} (h : unit.lower scopes options = .ok m) :
    ∃ begun functions c entry rest, emitFunctions scopes (unit.functions.map (·.name)) unit.functions
        {} = (begun, .ok (functions, c)) ∧ m.routines = functions ++ [entry] ∧
      m.text = options.front functions ++ rest := by
  unfold CompileUnit.lower CompileUnit.lowering at h
  simp only at h
  split at h
  · cases h
  · rename_i begun functions c hfns
    split at h
    · cases h
    · rename_i entry _ c' hentry
      obtain ⟨hret, hsymbol, hparams, _⟩ := emitWithHeader_eq_ok hentry
      cases h
      refine ⟨begun, functions, c, entry, ?_, hfns, rfl, ?_⟩
      case refine_2 =>
        rw [Module.text_eq rfl, Routine.text, hret, hsymbol, hparams]
        simp only [Options.front, scriptHeader, String.append_assoc]
        rfl

/-- Functions do not depend on the script: modules of units with the same functions have the same
text up to the lines of the script, and a function that is refused is refused with every script. -/
theorem functions_separate {unit unit' : CompileUnit} (hf : unit'.functions = unit.functions) :
    (∀ (options : Options) (m m' : Module), (unit.compile options).result = .ok m →
      (unit'.compile options).result = .ok m' →
      ∃ functions entry entry' rest rest', m.routines = functions ++ [entry] ∧
        m'.routines = functions ++ [entry'] ∧ m.text = options.front functions ++ rest ∧
        m'.text = options.front functions ++ rest') ∧
    ∀ halt, unit.refusal? = some halt → unit.check.result = .error halt ∧
      ∀ res', unit'.resolveNames.result = .ok res' → unit'.check.result = .error halt := by
  refine ⟨fun options m m' h h' => ?_, fun halt h => ⟨?_, fun res' hr' =>
    CompileUnit.check_of_refusal h hf hr'⟩⟩
  · obtain ⟨res, hcheck, hlower⟩ := CompileUnit.compile_eq_ok h
    obtain ⟨res', hcheck', hlower'⟩ := CompileUnit.compile_eq_ok h'
    obtain ⟨n, halike, hshared⟩ := CompileUnit.check_shared hf hcheck hcheck'
    obtain ⟨_, functions, _, entry, rest, hfns, hroutines, htext⟩ := CompileUnit.lower_front hlower
    obtain ⟨_, functions', _, entry', rest', hfns', hroutines', htext'⟩ :=
      CompileUnit.lower_front hlower'
    rw [← emitFunctions_alike hshared.likeAt _ halike, ← names_alike halike, hfns] at hfns'
    cases hfns'
    exact ⟨functions, entry, entry', rest, rest', hroutines, hroutines', htext, htext'⟩
  · obtain ⟨bound, _, res, _, hr, _⟩ := CompileUnit.inferFunctions_of_refusal h
    have hnames : unit.resolveNames = ⟨bound, .ok res⟩ := Run.ofOutcome_eq_ok.mpr ⟨_, hr⟩
    exact CompileUnit.check_of_refusal h rfl (congrArg Run.result hnames)

/-- Tells numbers below a bound from others. -/
def sorting (bound : Literal) (stmts : List Stmt) : CompileUnit where
  functions := [
    { name := "small", params := [{ name := "n", ty := { name := "Int" } }], ret := none
      body := {
        stmts := [
          .decl "limit" none (.lit bound),
          .branch [.call "<" [.var "n", .var "limit"]]
            [{ stmts := [], ret := some { value := .lit (.bool true) } }]]
        ret := some { value := .lit (.bool false) } } }]
  script := { name := "main", body := { stmts } }

/-- Sorts the number three. -/
def sortThree : List Stmt :=
  [.decl "n" none (.lit (.int 3)), .decl "low" none (.call "small" [.var "n"])]

theorem functions_separate_sorting :
    (∃ m m', ((sorting (.int 5) []).compile {}).result = .ok m ∧
      ((sorting (.int 5) sortThree).compile {}).result = .ok m' ∧
      ∃ functions entry entry' rest rest', m.routines = functions ++ [entry] ∧
        m'.routines = functions ++ [entry'] ∧ m.text = Options.front {} functions ++ rest ∧
        m'.text = Options.front {} functions ++ rest') ∧
    ∃ halt, (sorting (.bool true) []).refusal? = some halt ∧
      (sorting (.bool true) sortThree).check.result = .error halt := by
  have hsame (bound : Literal) := @functions_separate (sorting bound []) (sorting bound sortThree) rfl
  have hok : ((sorting (.int 5) []).compile {}).result.isOk := by decide +kernel
  have hok' : ((sorting (.int 5) sortThree).compile {}).result.isOk := by decide +kernel
  have hrefused : (sorting (.bool true) []).refusal?.isSome := by decide +kernel
  have hnames : (sorting (.bool true) sortThree).resolveNames.result.isOk := by decide +kernel
  refine ⟨?_, ?_⟩
  · cases h : ((sorting (.int 5) []).compile {}).result with
    | error halt =>
      rw [h] at hok
      cases hok
    | ok m =>
      cases h' : ((sorting (.int 5) sortThree).compile {}).result with
      | error halt =>
        rw [h'] at hok'
        cases hok'
      | ok m' => exact ⟨m, m', rfl, rfl, (hsame (.int 5)).1 {} m m' h h'⟩
  · obtain ⟨halt, hhalt⟩ := Option.isSome_iff_exists.mp hrefused
    cases hr : (sorting (.bool true) sortThree).resolveNames.result with
    | error other =>
      rw [hr] at hnames
      cases hnames
    | ok res' => exact ⟨halt, hhalt, ((hsame (.bool true)).2 halt hhalt).2 res' hr⟩

end ScriptLang
