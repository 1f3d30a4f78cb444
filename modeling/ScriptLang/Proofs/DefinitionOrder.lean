import ScriptLang.Proofs.Probing
import ScriptLang.Proofs.Twins

/-!
# The order of definitions

If a unit and its rearrangement are both accepted, they are given the same types. Whether a unit is
accepted depends on the order in one case: a call of an overloaded name is undecided as long as the
return type of one overload is open, and ambiguous once all are known and differ. Where functions of
a name agree on what they return, the order has no say.
-/

namespace ScriptLang

open Pass ScopeTree

/-! ## The same types -/

section

variable {p : Nat → Nat → Prop} {unit unit' : CompileUnit} {res res' : Resolution}
  {base base' tree tree' after after' : ScopeTree} {fns fns' : List FnDef} {script script' : Script}

theorem CompileUnit.ResolvedIn.commit_each (h : unit.ResolvedIn res)
    (href : res.scopes.resetInferred.Refined base)
    (hex : List.Forall₂ (FnDef.Explored 1 base) unit.functions res.signatures)
    (hc : ScriptLang.commitFunctions 1 res.signatures (List.range unit.functions.length)
      unit.functions base = .done fns tree) :
    fns.length = unit.functions.length ∧
      base.Agree (fun id => ∀ i ∈ List.range unit.functions.length,
        ¬ ofFunction unit.functions i id) tree ∧
      ∀ i fn, unit.functions[i]? = some fn → ∃ before after fn₁,
        base.Agree (ofFunction unit.functions i) before ∧
        fn.commit 1 (builtinSignatures.length + i) before = .done fn₁ after ∧
        fns[i]? = some fn₁ := by
  have hready := h.ready href (h.unitScope ▸ hex)
  have hall := h.commitFunctions href (h.unitScope ▸ hex) (.refl _) (h.unitScope ▸ hc)
  rw [h.unitScope] at hready
  have heach := (commitFunctions_each h.signatures_length hready rfl
    (fun i hi => List.mem_range.mp hi) (h.pending href List.nodup_range) hc).2
  refine ⟨hall.2.length, hall.2.frame, ?_⟩
  intro i fn hf
  have hlt := (List.getElem?_eq_some_iff.mp hf).1
  have hs : res.signatures[i]? = some (builtinSignatures.length + i) := by
    rw [h.signatures, List.getElem?_range' hlt]
    simp
  obtain ⟨before, after, fn₁, ha, _, hfn, hget⟩ := heach i (List.mem_range.mpr hlt) fn _ hf hs
  exact ⟨before, after, fn₁, ha, hfn, hget⟩

theorem CompileUnit.Twin.commitFunctions (h : unit.Twin p res unit' res')
    (hinf : unit.Inferred res base) (href' : res'.scopes.resetInferred.Refined base')
    (hex' : List.Forall₂ (FnDef.Explored 1 base') unit'.functions res'.signatures)
    (hp : base.Paired p base')
    (hc : ScriptLang.commitFunctions 1 res.signatures (List.range unit.functions.length)
      unit.functions base = .done fns tree) :
    ∃ fns' tree', ScriptLang.commitFunctions 1 res'.signatures (List.range unit'.functions.length)
      unit'.functions base' = .done fns' tree' := by
  obtain ⟨_, _, heach⟩ := h.resolved.commit_each hinf.refined hinf.explored hc
  have hready := h.resolved'.ready href' (h.resolved'.unitScope ▸ hex')
  rw [h.resolved'.unitScope] at hready
  refine commitFunctions_of_each h.resolved'.signatures_length hready ?_
    (fun i hi => List.mem_range.mp hi) (h.resolved'.pending href' List.nodup_range)
  intro j fn' sig hf' hs' before' ha' _
  obtain ⟨i, hij⟩ := h.places.total' j (h.length ▸ (List.getElem?_eq_some_iff.mp hf').1)
  obtain ⟨fn, _, _, hf, _⟩ := h.functions i j hij
  obtain ⟨before, _, fn₁, ha, hcommit, _⟩ := heach i fn hf
  obtain ⟨fn₁', after', hcommit', _⟩ := h.commit hinf.refined href' hp hij hf hf' ha ha' hcommit
  rw [h.resolved'.signature hs']
  exact ⟨fn₁', after', hcommit'⟩

end

/-! ## Rearranged units -/

section

variable {unit : CompileUnit} {functions : List FnDef}

/-- How a check that goes through came to its result. -/
structure CompileUnit.CheckTrace (unit : CompileUnit) (res : Resolution) where
  bound : CompileUnit
  start : Resolution
  base : ScopeTree
  committed : ScopeTree
  resolves : unit.resolve {} = .done (bound, start) start.scopes
  resolved : bound.ResolvedIn start
  inferred : bound.Inferred start base
  functions : commitFunctions 1 start.signatures (List.range bound.functions.length) bound.functions
    base = .done unit.check.unit.functions committed
  script : bound.script.commit 1 committed = .done unit.check.unit.script res.scopes
  clear : unit.check.unit.clear true = bound.clear true
  length : bound.functions.length = unit.functions.length

theorem CompileUnit.CheckTrace.sigs {res : Resolution} (t : unit.CheckTrace res) :
    res.scopes.sigs = t.base.sigs := by
  have hframe := (t.resolved.commit_each t.inferred.refined t.inferred.explored t.functions).2.1
  obtain ⟨_, _, hb, _⟩ := Script.commit_eq_done.mp t.script
  have hsigs := congrArg ScopeTree.sigs ((Block.infer_delivers _ _).kept hb)
  exact hsigs.trans hframe.sigs.symm

end

/-- The type of `first` hangs on a call of `pick` whose argument hangs on `first` in turn. The last
overload of `pick` returns `last`. -/
def wavering (last : Literal) : CompileUnit where
  functions := [
    { name := "first", params := [], ret := none
      body := {
        stmts := [
          .decl "x" none (.call "second" []) {} none,
          .decl "y" none (.call "pick" [.var "x"]) {} none]
        ret := some { value := .lit (.int 1) } } },
    { name := "second", params := [], ret := none
      body := { stmts := [], ret := some { value := .call "first" [] } } },
    { name := "pick", params := [{ name := "a", ty := { name := "Int" } }], ret := none
      body := { stmts := [], ret := some { value := .lit (.int 1) } } },
    { name := "pick", params := [{ name := "a", ty := { name := "Float" } }], ret := none
      body := { stmts := [], ret := some { value := .lit last } } }]
  script := { name := "main", body := { stmts := [], ret := some { value := .call "first" [] } } }

end ScriptLang
