import ScriptLang.Proofs.CallTargets

/-!
# Values of type `void`

A procedure has no result, and emitted code should not speak of one: no register holds it, no
routine takes it, and no call passes it. Stored values, conditions, bounds and results are checked
for `Void`, but the annotations of parameters are not. They are the only way in: the code of a unit
is free of such values exactly if none of its functions has a parameter of type `Void`.
-/

namespace ScriptLang

/-- The instruction neither keeps the result of a procedure nor passes one. -/
def Instr.VoidFree : Instr → Prop
  | .assign _ (.call result _ args) => result ≠ .void ∧ .void ∉ args.map (·.1)
  | .perform (.call _ _ args) => .void ∉ args.map (·.1)
  | _ => True

structure Module.VoidFree (m : Module) : Prop where
  instrs : ∀ r ∈ m.routines, ∀ i ∈ instrsOf r.lines, i.VoidFree
  params : ∀ r ∈ m.routines, .void ∉ r.params.map (·.1)
  declares : ∀ r ∈ m.declares, .void ∉ r.params

/-! ## Instructions -/

theorem Instr.voidFree_of_no_call {i : Instr} (h : i.callee? = none) : i.VoidFree := by
  cases i with
  | assign dest value => cases value <;> trivial
  | perform effect => cases effect <;> trivial
  | _ => trivial

theorem Native.compute_callee {native : Native} {operands : List Operand}
    {computation : Computation} (h : native.compute operands = .ok computation) :
    computation.callee? = none := by
  unfold Native.compute at h
  split at h <;> cases h <;> rfl

theorem Computation.Does.types {functions : List String} {sig : Signature} {ret : IrType}
    {callee : Callee} {args : List (IrType × Operand)}
    (h : (Computation.call ret callee args).Does functions sig) :
    ret = sig.ret.ir ∧ args.map (·.1) = sig.params.map Ty.ir := by
  cases h with
  | function _ htypes => exact ⟨rfl, htypes⟩
  | native _ _ _ _ hcompute => cases Native.compute_callee hcompute
  | runtime _ _ _ _ htypes => exact ⟨rfl, htypes⟩

theorem void_not_mem_irs {tys : List Ty} (hp : ∀ ty ∈ tys, ty.Prim) (h : .void ∉ tys) :
    .void ∉ tys.map Ty.ir := by
  intro hm
  obtain ⟨ty, hty, hir⟩ := List.mem_map.mp hm
  exact h ((hp ty hty).ir_eq_void.mp hir ▸ hty)

section

variable {tree : ScopeTree} {functions : List String} {call : Expr} {i : Instr}

theorem Issued.voidFree (hs : tree.Settled) (hroot : tree.Rooted)
    (hvoid : ∀ sig ∈ tree.sigs, .void ∉ sig.params)
    (h : Issued tree functions (· ≠ .void) call i) : i.VoidFree := by
  obtain ⟨sig, computation, hpicks, hdoes, hissue⟩ := h
  have hm := (ScopeTree.mem_visible (hpicks.visible hroot).1).1
  have hparams := void_not_mem_irs (hs.params sig hm) (hvoid sig hm)
  rcases hissue with ⟨rfl, -⟩ | ⟨reg, rfl, hne⟩
  · cases computation with
    | call ret callee args =>
      rw [Instr.VoidFree, hdoes.types.2]
      exact hparams
    | _ => trivial
  · cases computation with
    | call ret callee args =>
      rw [Instr.VoidFree, hdoes.types.1, hdoes.types.2]
      exact ⟨fun he => hne ((hs.rets sig hm).ir_eq_void.mp he), hparams⟩
    | _ => trivial

theorem InTurn.voidFree (hs : tree.Settled) (hroot : tree.Rooted)
    (hvoid : ∀ sig ∈ tree.sigs, .void ∉ sig.params) {calls : List Expr} {lines : List Line}
    (h : InTurn (Issued tree functions (· ≠ .void)) calls lines) :
    ∀ i ∈ instrsOf lines, i.VoidFree := by
  intro i hm
  by_cases hcallee : i.callee? = none
  · exact Instr.voidFree_of_no_call hcallee
  · obtain ⟨call, -, hissued⟩ := h.of_callee hm hcallee
    exact hissued.voidFree hs hroot hvoid

end

/-! ## Units -/

theorem RuntimeRoutine.void_not_mem_params (r : RuntimeRoutine) : .void ∉ r.params := by
  cases r <;> decide

section

variable {unit : CompileUnit} {res : Resolution} {m : Module}

theorem CompileUnit.Checked.voidFree (h : unit.Checked res) (hs : res.scopes.Settled)
    (hvoid : ∀ fn ∈ unit.functions, ∀ param ∈ fn.params, param.ty.resolve ≠ .ok .void)
    {options : Options} (hl : unit.lower res.scopes options = .ok m) : m.VoidFree := by
  obtain ⟨routines, script, hroutines, hlow, c, c', hscript, -⟩ := CompileUnit.lower_lowered hl
  have hnone := h.noVoid hvoid
  have hd := h.directed hs (· ≠ .void) (fun _ hne => hne) fun sig hm ty hty he =>
    hnone sig hm (he ▸ hty)
  have hall : ∀ r ∈ m.routines,
      (∀ i ∈ instrsOf r.lines, i.VoidFree) ∧ .void ∉ r.params.map (·.1) := by
    rw [hroutines]
    intro r hr
    rcases List.mem_append.mp hr with hr | hr
    · obtain ⟨fn, hfn, hlowered⟩ := forall₂_mem_right hlow hr
      obtain ⟨sig, hsig, ht⟩ := h.visible hfn
      have hm := (ScopeTree.mem_overloads.mp hsig).1
      rw [(hlowered.spells ht).2.1]
      rw [h.unitScope] at ht
      exact ⟨(hlowered.inTurn hd ht (h.functions fn hfn)).voidFree hs h.parents hnone,
        void_not_mem_irs (hs.params sig hm) (hnone sig hm)⟩
    · obtain rfl := List.mem_singleton.mp hr
      have hcalls := hscript.lines.inTurn (hd .script) rfl h.script (h.unitScope ▸ h.scriptTyped)
      refine ⟨hcalls.voidFree hs h.parents hnone, ?_⟩
      rw [hscript.lines.1]
      exact List.not_mem_nil
  exact ⟨fun r hr => (hall r hr).1, fun r hr => (hall r hr).2, fun r _ => r.void_not_mem_params⟩

theorem CompileUnit.Checked.void_param (h : unit.Checked res) {options : Options}
    (hl : unit.lower res.scopes options = .ok m) {fn : FnDef} (hfn : fn ∈ unit.functions)
    {param : Param} (hp : param ∈ fn.params) (hv : param.ty.resolve = .ok .void) :
    ∃ r ∈ m.routines, .void ∈ r.params.map (·.1) := by
  obtain ⟨routines, script, hroutines, hlow, -⟩ := CompileUnit.lower_lowered hl
  obtain ⟨r, hr, hlowered⟩ := forall₂_mem_left hlow hfn
  obtain ⟨sig, -, ht⟩ := h.visible hfn
  obtain ⟨ty, hty, hparam, -⟩ := forall₂_mem_left ht.params hp
  rw [hv, Except.ok.injEq] at hparam
  subst hparam
  refine ⟨r, hroutines ▸ List.mem_append_left _ hr, ?_⟩
  rw [(hlowered.spells ht).2.1]
  exact List.mem_map_of_mem hty

end

/-- Emitted code has no values of type `void` exactly if no function has a parameter of this
type. -/
theorem compile_voidFree_iff {unit : CompileUnit} {options : Options} {m : Module}
    (h : (unit.compile options).result = .ok m) :
    m.VoidFree ↔ ∀ fn ∈ unit.functions, ∀ param ∈ fn.params, param.ty.resolve ≠ .ok .void := by
  obtain ⟨res, hcheck, hlower⟩ := CompileUnit.compile_eq_ok h
  obtain ⟨hchecked, hclear⟩ := CompileUnit.check_spec hcheck
  constructor
  · intro hfree fn hfn param hp hv
    obtain ⟨fn', hfn', param', hp', hty⟩ := CompileUnit.param_of_clear hclear.symm hfn hp
    obtain ⟨r, hr, hvoid⟩ := hchecked.void_param hlower hfn' hp' (hty ▸ hv)
    exact hfree.params r hr hvoid
  · intro hvoid
    refine hchecked.voidFree (CompileUnit.check_settled hcheck) ?_ hlower
    intro fn' hfn' param' hp'
    obtain ⟨fn, hfn, param, hp, hty⟩ := CompileUnit.param_of_clear hclear hfn' hp'
    exact hty ▸ hvoid fn hfn param hp

/-- A procedure that ends with the result of another, and a script that calls it. -/
def reporting (param : String) (arg : Expr) : CompileUnit where
  functions := [
    { name := "report", params := [{ name := "x", ty := { name := param } }], ret := none
      body := { stmts := [], ret := some { value := .call "print" [.lit (.int 1)] } } }]
  script := { name := "main", body := { stmts := [.call (.call "report" [arg])] } }

theorem compile_voidFree_iff_reporting :
    ∃ m, ((reporting "Int" (.lit (.int 2))).compile {}).result = .ok m ∧
      m.routines.map (·.ret) = [.void, .i32] ∧
      (∀ fn ∈ (reporting "Int" (.lit (.int 2))).functions, ∀ param ∈ fn.params,
        param.ty.resolve ≠ .ok .void) ∧
      m.VoidFree := by
  have hparams : ∀ fn ∈ (reporting "Int" (.lit (.int 2))).functions, ∀ param ∈ fn.params,
      param.ty.resolve ≠ .ok .void := by
    decide
  have hrets : ((reporting "Int" (.lit (.int 2))).compile {}).result.map
      (fun m => m.routines.map (·.ret)) = .ok [.void, .i32] := by
    decide +kernel
  obtain ⟨m, h, hm⟩ := map_eq_ok.mp hrets
  exact ⟨m, h, hm, hparams, (compile_voidFree_iff h).mpr hparams⟩

/-- A function may take a `Void`. Then a register holds the result of a procedure, and a call passes
it on. -/
theorem compile_passes_void :
    ∃ m, ((reporting "Void" (.call "print" [.lit (.int 2)])).compile {}).result = .ok m ∧
      (∃ r ∈ m.routines, .void ∈ r.params.map (·.1)) ∧
      ∃ r ∈ m.routines,
        .assign (.reg 1) (.call .void (.runtime .printInt) [(.i64, .const (.int 2))]) ∈
            instrsOf r.lines ∧
          .perform (.call .void (.function "@report") [(.void, .value (.reg 1))]) ∈
            instrsOf r.lines := by
  have hcode : ((reporting "Void" (.call "print" [.lit (.int 2)])).compile {}).result.map
      (fun m => decide ((∃ r ∈ m.routines, .void ∈ r.params.map (·.1)) ∧
        ∃ r ∈ m.routines,
          .assign (.reg 1) (.call .void (.runtime .printInt) [(.i64, .const (.int 2))]) ∈
              instrsOf r.lines ∧
            .perform (.call .void (.function "@report") [(.void, .value (.reg 1))]) ∈
              instrsOf r.lines)) = .ok true := by
    decide +kernel
  obtain ⟨m, h, hm⟩ := map_eq_ok.mp hcode
  exact ⟨m, h, of_decide_eq_true hm⟩

end ScriptLang
