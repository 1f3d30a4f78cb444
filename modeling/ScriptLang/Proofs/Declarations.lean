import ScriptLang.Proofs.CallTargets
import ScriptLang.Proofs.Positions
import ScriptLang.Proofs.TypeConsistency

/-!
# Declarations of the runtime

A module declares the routines of the runtime that its code calls.
-/

namespace ScriptLang

open Emit

/-! ## Routines -/

theorem Routine.From.pays {ctx : BodyContext} {params : List (IrType × ValueName)} {body : Block}
    {r : Routine} {c c' : Cursor} (h : r.From ctx params body c c') :
    c'.used ⊆ runtimeCalls r.lines ++ c.used :=
  (regular_emitRoutine ctx body).pays _ _ _ _ h.2 c.used (List.Subset.refl _)

theorem emitFunctions_pays {scopes : ScopeTree} {functions begun : List String} {fns : List FnDef}
    {routines : List Routine} {c c' : Cursor}
    (h : emitFunctions scopes functions fns c = (begun, .ok (routines, c'))) :
    c'.used ⊆ routines.flatMap (runtimeCalls ·.lines) ++ c.used := by
  induction fns generalizing c begun routines with
  | nil =>
    cases h
    exact List.Subset.refl _
  | cons fn fns ih =>
    obtain ⟨header, routine, c₁, begun', rest, _, hroutine, hrest, rfl⟩ := emitFunctions_cons_eq_ok h
    intro r hr
    have hmem := ih hrest hr
    rw [List.mem_append] at hmem
    have hmem := hmem.imp_right fun hm => hroutine.pays hm
    simp only [List.flatMap_cons, List.mem_append] at hmem ⊢
    tauto

theorem CompileUnit.lower_pays {unit : CompileUnit} {scopes : ScopeTree} {options : Options}
    {m : Module} (h : unit.lower scopes options = .ok m) {r : RuntimeRoutine}
    (hr : r ∈ m.declares) : ∃ routine ∈ m.routines, r ∈ runtimeCalls routine.lines := by
  obtain ⟨begun, routines, c, script, c', hfns, hscript, hroutines, hdeclares⟩ :=
    CompileUnit.lower_defines h
  rw [hdeclares, List.mem_filter] at hr
  rw [hroutines]
  rcases List.mem_append.mp (hscript.lines.pays (of_decide_eq_true hr.2)) with hcall | hused
  · exact ⟨script, List.mem_append_right _ List.mem_cons_self, hcall⟩
  · rcases List.mem_append.mp (emitFunctions_pays hfns hused) with hcall | hnone
    · obtain ⟨routine, hm, hcall⟩ := List.mem_flatMap.mp hcall
      exact ⟨routine, List.mem_append_left _ hm, hcall⟩
    · cases hnone

/-! ## Modules -/

/-- A call of the runtime has the types of the declaration. -/
def Computation.Spells : Computation → Prop
  | .call ret (.runtime routine) args => ret = routine.ret ∧ args.map (·.1) = routine.params
  | _ => True

def Instr.Spells : Instr → Prop
  | .assign _ value => value.Spells
  | .perform effect => effect.Spells
  | _ => True

section

variable {m : Module} {types : Typings}

theorem Computation.Typed.spells {computation : Computation} (h : computation.Typed m types) :
    computation.Spells ∧
      ∀ r, computation.callee?.bind Callee.runtime? = some r → r ∈ m.declares := by
  cases computation with
  | call ret callee args =>
    cases callee with
    | function name => exact ⟨trivial, by rintro r ⟨⟩⟩
    | runtime routine =>
      obtain ⟨⟨hdeclared, hret, hparams⟩, _⟩ := h
      refine ⟨⟨hret.symm, hparams.symm⟩, ?_⟩
      rintro r ⟨⟩
      exact hdeclared
  | _ => exact ⟨trivial, by rintro r ⟨⟩⟩

theorem Instr.Typed.spells {i : Instr} {ret : IrType} (h : i.Typed m types ret) :
    i.Spells ∧ ∀ r, i.callee?.bind Callee.runtime? = some r → r ∈ m.declares := by
  cases i with
  | assign dest value => exact Computation.Typed.spells h
  | perform effect => exact Computation.Typed.spells h.1
  | _ => exact ⟨trivial, by rintro r ⟨⟩⟩

theorem Routine.Typed.declared {routine : Routine} (h : routine.Typed m) {r : RuntimeRoutine}
    (hr : r ∈ runtimeCalls routine.lines) : r ∈ m.declares := by
  obtain ⟨i, hi, hcall⟩ := List.mem_filterMap.mp hr
  exact (h.conforms.instrs i hi).spells.2 r hcall

end

theorem RuntimeRoutine.pairwise_all :
    RuntimeRoutine.all.Pairwise fun r s => bytesOf r.declaration < bytesOf s.declaration := by
  decide +kernel

theorem Module.text_eq {m : Module} {functions : List Routine} {entry : Routine}
    (h : m.routines = functions ++ [entry]) :
    m.text = m.header ++ String.join (functions.map fun r => "\n" ++ r.text) ++ "\n" ++ entry.text ++
      if m.declares = [] then ""
      else "\n" ++ String.join (m.declares.map fun r => r.declaration ++ "\n") := by
  simp [Module.text, h, Module.declarations, String.append_assoc]

/-- A module declares what its code calls of the runtime, in order, behind the routine of the script,
and calls have the types of the declarations. -/
theorem compile_declares_called {unit : CompileUnit} {options : Options} {m : Module}
    (h : (unit.compile options).result = .ok m) :
    (∀ r, r ∈ m.declares ↔ ∃ routine ∈ m.routines, r ∈ runtimeCalls routine.lines) ∧
      m.declares.Pairwise (fun r s => bytesOf r.declaration < bytesOf s.declaration) ∧
      (∀ routine ∈ m.routines, ∀ i ∈ instrsOf routine.lines, i.Spells) ∧
      ∃ functions entry, m.routines = functions ++ [entry] ∧
        entry.symbol = symbol options.entrySymbol [] false ∧
        m.text = m.header ++ String.join (functions.map fun r => "\n" ++ r.text) ++ "\n" ++
          entry.text ++ if m.declares = [] then ""
            else "\n" ++ String.join (m.declares.map fun r => r.declaration ++ "\n") := by
  obtain ⟨res, _, hlower⟩ := CompileUnit.compile_eq_ok h
  obtain ⟨functions, entry, hroutines, hfunctions, hentry, hsymbol, _⟩ := CompileUnit.compile_typed h
  have htyped : ∀ routine ∈ m.routines, routine.Typed m := by
    intro routine hm
    rw [hroutines] at hm
    rcases List.mem_append.mp hm with hm | hm
    · exact (hfunctions routine hm).1
    · exact List.mem_singleton.mp hm ▸ hentry
  refine ⟨fun r => ⟨CompileUnit.lower_pays hlower, ?_⟩, ?_, ?_, functions, entry, hroutines, hsymbol,
    Module.text_eq hroutines⟩
  · rintro ⟨routine, hm, hr⟩
    exact (htyped routine hm).declared hr
  · obtain ⟨_, _, _, _, c', _, _, _, hdeclares⟩ := CompileUnit.lower_defines hlower
    rw [hdeclares]
    exact RuntimeRoutine.pairwise_all.filter _
  · intro routine hm i hi
    exact ((htyped routine hm).conforms.instrs i hi).spells.1

/-- Powers of integers in a bound and as an argument, a power of floats that nothing reaches, and a
function that hides the printing of the runtime. -/
def powers : CompileUnit where
  functions := [
    { name := "print", params := [{ name := "n", ty := { name := "Int" } }], ret := none
      body := { stmts := [] } }]
  script :=
    { name := "main"
      body := {
        stmts := [
          .forLoop "i" (.lit (.int 1)) (.call "^" [.lit (.int 2), .lit (.int 3)]) {
            stmts := [.call (.call "print" [.call "^" [.var "i", .var "i"]])] },
          .branch [.lit (.bool true)]
            [{ stmts := [], ret := some { value := .lit (.int 1) } },
              { stmts := [], ret := some { value := .lit (.int 0) } }],
          .call (.call "^" [.lit (.float ⟨0x3fd0000000000000⟩), .lit (.float ⟨0⟩)])] } }

theorem compile_declares_called_powers :
    ∃ m, (powers.compile {}).result = .ok m ∧ m.declares = [.floatPower, .intPower] ∧
      ∀ r, r ∈ m.declares ↔ ∃ routine ∈ m.routines, r ∈ runtimeCalls routine.lines := by
  have hdeclares : (powers.compile {}).result.map (·.declares) = .ok [.floatPower, .intPower] := by
    decide +kernel
  cases h : (powers.compile {}).result with
  | error halt =>
    rw [h] at hdeclares
    cases hdeclares
  | ok m =>
    rw [h] at hdeclares
    exact ⟨m, rfl, Except.ok.inj hdeclares, (compile_declares_called h).1⟩

end ScriptLang
