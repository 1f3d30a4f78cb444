import ScriptLang.Proofs.BodySimulation

/-!
# Preservation of meaning

The module of a compiled unit does what the unit does. Every function of the unit is found under its
symbol, starts with its arguments in the names of its parameters, and returns what evaluation says;
by induction on the depth of calls this holds of the functions that it calls as well.
-/

namespace ScriptLang

open Emit

variable {unit : CompileUnit} {c c' : Cursor} {id : DeclId} {fn : FnDef} {functions : List String}
  {tys : List Ty} {m : Module} {options : Options} {res : Resolution} {r : Routine}
  {scope : ScopeId} {scopes tree : ScopeTree} {sig : Signature} {name : String}

/-! ## The runtime that a unit uses -/

/-- The routine of a function, emitted where no more of the runtime was used than in the end. -/
def FnDef.Lowered (scopes : ScopeTree) (functions : List String) (used : List RuntimeRoutine)
    (fn : FnDef) (r : Routine) : Prop :=
  ∃ header c c', fn.header scopes functions = .ok header ∧
    r.Defines ⟨scopes, functions, .function header.ret⟩ header fn.body c c' ∧ c'.used ⊆ used

theorem FnDef.Lowered.mono {used more : List RuntimeRoutine}
    (h : fn.Lowered scopes functions used r) (hs : used ⊆ more) :
    fn.Lowered scopes functions more r := by
  obtain ⟨header, c, c', hheader, hr, hused⟩ := h
  exact ⟨header, c, c', hheader, hr, List.Subset.trans hused hs⟩

theorem emitFunctions_lowered {begun : List String} {fns : List FnDef} {routines : List Routine}
    (h : emitFunctions scopes functions fns c = (begun, .ok (routines, c'))) :
    c.used ⊆ c'.used ∧
      List.Forall₂ (FnDef.Lowered scopes functions c'.used) fns routines := by
  induction fns generalizing begun routines c with
  | nil =>
    cases h
    exact ⟨List.Subset.refl _, .nil⟩
  | cons fn fns ih =>
    obtain ⟨header, routine, c₁, begun', rest, hheader, hroutine, hrest, rfl⟩ :=
      emitFunctions_cons_defines h
    obtain ⟨hused, hall⟩ := ih hrest
    refine ⟨List.Subset.trans ((regular_emitRoutine _ _).uses _ _ _ _ hroutine.lines.2) hused,
      .cons ?_ hall⟩
    exact ⟨header, c, c₁, hheader, hroutine, hused⟩

theorem CompileUnit.lower_lowered (h : unit.lower scopes options = .ok m) :
    ∃ routines script, m.routines = routines ++ [script] ∧
      List.Forall₂ (FnDef.Lowered scopes (unit.functions.map (·.name)) m.declares) unit.functions
        routines ∧
      ∃ c c', script.Defines ⟨scopes, unit.functions.map (·.name), .script⟩ (scriptHeader options)
        unit.script.body c c' ∧ c'.used ⊆ m.declares := by
  obtain ⟨begun, routines, c, script, c', hfns, hscript, hroutines, hdeclares⟩ :=
    CompileUnit.lower_defines h
  have hall : c'.used ⊆ m.declares := by
    intro r hr
    rw [hdeclares, List.mem_filter]
    exact ⟨by cases r <;> decide, decide_eq_true hr⟩
  refine ⟨routines, script, hroutines, ?_, c, c', hscript, hall⟩
  exact (emitFunctions_lowered hfns).2.imp fun fn r hr =>
    hr.mono (List.Subset.trans ((regular_emitRoutine _ _).uses _ _ _ _ hscript.lines.2) hall)

/-! ## Symbols -/

theorem Module.find_of_mem (hn : m.symbols.Nodup) {symbol : String} {g : Global}
    (h : (symbol, g) ∈ m.globals) : m.find symbol = some g := by
  obtain ⟨first, rest, hsplit⟩ := List.append_of_mem h
  refine List.lookup_eq_some_iff.mpr ⟨first, rest, hsplit, fun pair hp => ?_⟩
  rw [Module.symbols, hsplit, List.map_append, List.map_cons] at hn
  have hne := (List.nodup_append.mp hn).2.2 pair.1 (List.mem_map_of_mem hp) symbol
    List.mem_cons_self
  exact bne_iff_ne.mpr hne.symm

theorem Module.find_routine (hn : m.symbols.Nodup) (h : r ∈ m.routines) :
    m.find r.symbol = some (.routine r) :=
  m.find_of_mem hn (List.mem_append_left _ (List.mem_map_of_mem h))

theorem Module.find_runtime (hn : m.symbols.Nodup) {r : RuntimeRoutine} (h : r ∈ m.declares) :
    m.find (Callee.runtime r).text = some (.runtime r) :=
  m.find_of_mem hn (List.mem_append_right _ (List.mem_map_of_mem h))

/-! ## Arguments -/

section

variable {scopes : ScopeTree} {params : List Param} {tys : List Ty} {args : List Val}
  {store : Store}

/-- The values that stand for the parameters. -/
def paramValues (params : List Param) : List ValueName :=
  (params.map Param.site).filterMap Site.value?

theorem bindArgs_of_not_mem (h : ∀ param ∈ params, param.handle ≠ some id) :
    bindArgs store params args id = store id := by
  induction params generalizing store args with
  | nil => rfl
  | cons param params ih =>
    cases args with
    | nil => rfl
    | cons v vs =>
      rw [bindArgs, ih fun param hm => h param (List.mem_cons_of_mem _ hm)]
      cases hh : param.handle with
      | none => rfl
      | some id' =>
        refine Function.update_of_ne ?_ _ _
        rintro rfl
        exact h param List.mem_cons_self hh

theorem bindArgs_holds (h : List.Forall₂ (Param.WellTyped scopes) params tys)
    (hn : (paramValues params).Nodup) (ha : args.map Val.type? = tys.map some)
    (hm : .variable name id ∈ paramValues params) :
    ∃ var v, scopes.decls[id]? = some var ∧ var.name = name ∧ var.kind = .param ∧ var.ty ∈ tys ∧
      var.ty.Prim ∧ v.type? = some var.ty ∧ bindArgs store params args id = some v ∧
      ((paramValues params).zip args).lookup (.variable name id) = some v := by
  induction h generalizing store args with
  | nil => cases hm
  | @cons param ty params tys hp hrest ih =>
    obtain ⟨hresolve, id₀, var, hh, hv, hname, hkind, rfl⟩ := hp
    have hprim := (TypeExpr.resolve_eq_ok hresolve).2
    have hvalues : paramValues (param :: params) =
        .variable param.name id₀ :: paramValues params :=
      List.filterMap_cons_some (by rw [Site.value?, Param.site, hh]; rfl)
    cases args with
    | nil => cases ha
    | cons v vs =>
      obtain ⟨htyped, hvs⟩ := List.cons.inj ha
      rw [hvalues] at hn hm ⊢
      obtain ⟨hfirst, hn⟩ := List.nodup_cons.mp hn
      simp only [bindArgs, hh, List.zip_cons_cons]
      rcases List.mem_cons.mp hm with he | hm
      · obtain ⟨rfl, rfl⟩ := ValueName.variable.inj he
        refine ⟨var, v, hv, hname, hkind, List.mem_cons_self, hprim, htyped, ?_,
          List.lookup_cons_self⟩
        -- No other parameter has this number: it would be declared with the same name.
        rw [bindArgs_of_not_mem, Function.update_self]
        intro other hother hid
        obtain ⟨_, -, -, id', var', hh', hv', hname', -⟩ := forall₂_mem_left hrest hother
        rw [hid, Option.some.injEq] at hh'
        subst hh'
        rw [hv, Option.some.injEq] at hv'
        refine hfirst (List.mem_filterMap.mpr ⟨other.site, List.mem_map_of_mem hother, ?_⟩)
        rw [Site.value?, Param.site, hid, ← hname', ← hv', hname]
        rfl
      · obtain ⟨var', v', hv', hname', hkind', hty', hprim', htyped', hbind, hlookup⟩ :=
          ih hn hvs hm
        refine ⟨var', v', hv', hname', hkind', List.mem_cons_of_mem _ hty', hprim', htyped', hbind,
          ?_⟩
        have hne : ValueName.variable name id ≠ .variable param.name id₀ := by
          rintro he
          exact hfirst (he ▸ hm)
        rw [List.lookup_cons, beq_false_of_ne hne]
        exact hlookup

end

/-! ## Headers -/

theorem Param.WellTyped.emit_type {param : Param} {ty : Ty} {pair : IrType × ValueName}
    (h : param.WellTyped tree ty) (he : param.emit tree = .ok pair) : pair.1 = ty.ir := by
  obtain ⟨hty, id, var, hh, hv, _, _, rfl⟩ := h
  have hir := (TypeExpr.resolve_eq_ok hty).2.irType param.span
  simp only [Param.emit, hh, demand, ScopeTree.declaration, ScopeTree.var?, hv, bind, Except.bind,
    hir] at he
  cases he
  rfl

theorem params_types {params : List Param} {pairs : List (IrType × ValueName)}
    (h : List.Forall₂ (Param.WellTyped tree) params tys)
    (he : List.Forall₂ (fun param pair => Param.emit tree param = .ok pair) params pairs) :
    pairs.map (·.1) = tys.map Ty.ir := by
  induction h generalizing pairs with
  | nil =>
    cases he
    rfl
  | cons hp _ ih =>
    cases he with
    | cons hpair hrest => rw [List.map_cons, List.map_cons, hp.emit_type hpair, ih hrest]

theorem FnDef.WellTyped.header_eq {header : Header} (h : fn.WellTyped tree scope sig)
    (he : fn.header tree functions = .ok header) : header.ret = sig.ret.ir ∧
      header.params.map (·.1) = sig.params.map Ty.ir ∧
      header.symbol = functionSymbol functions fn.name (sig.params.map Ty.ir) := by
  simp only [FnDef.header, ScriptLang.bind_eq_ok, demand_eq_ok, pure_eq_ok] at he
  obtain ⟨ret, hret, ir, hir, params, hparams, rfl⟩ := he
  rw [h.retSlot, Option.some.injEq] at hret
  subst hret
  rw [h.known.irType, Except.ok.injEq] at hir
  have htypes := params_types h.params (forall₂_of_mapM hparams)
  exact ⟨hir.symm, htypes, by rw [htypes]⟩

theorem FnDef.Lowered.spells {used : List RuntimeRoutine} (h : fn.Lowered scopes functions used r)
    (ht : fn.WellTyped scopes scope sig) :
    r.ret = sig.ret.ir ∧ r.params.map (·.1) = sig.params.map Ty.ir ∧
      r.symbol = functionSymbol functions sig.name (sig.params.map Ty.ir) := by
  obtain ⟨header, c, c', hheader, hdef, -⟩ := h
  obtain ⟨hret, htypes, hsymbol⟩ := ht.header_eq hheader
  refine ⟨?_, ?_, ?_⟩
  · rw [hdef.ret, hret]
  · rw [hdef.lines.1, htypes]
  · rw [hdef.symbol, hsymbol, ht.name]

/-! ## Functions -/

section

variable {World : Type} {m : Module} {I : Interpretation World} {scopes : ScopeTree}
  {functions : List String} {scope : ScopeId} {call : Calls World} {r : Routine} {fn : FnDef}
  {sig : Signature} {args : List Val} {fuel : Nat} {v : Val} {w w' : World}

/-- The frame in which a routine starts: at its entry, with its arguments in the names of its
parameters. -/
def Frame.initial (r : Routine) (code : List Line) (args : List Val) : Frame :=
  ⟨r, code, .entry, none, fun name => ((r.params.map (·.2)).zip args).lookup name, fun _ => none⟩

theorem Routine.From.start {ctx : BodyContext} {params : List (IrType × ValueName)} {body : Block}
    {c c' : Cursor} (h : r.From ctx params body c c')
    (ht : params.map (·.1) = args.map Val.irType) : ∃ code, codeAt .entry r.lines = some code ∧
      Frame.start r args = some (.initial r code args) := by
  obtain ⟨code, _, hlines, -⟩ := emitRoutine_segment h.2
  have hentry : codeAt .entry r.lines = some code := by
    rw [hlines]
    exact if_pos rfl
  refine ⟨code, hentry, ?_⟩
  rw [← h.1] at ht
  simp only [Frame.start, hentry, ht, Option.bind_eq_bind, Option.bind_some, if_true]
  rfl

theorem tracks_bindArgs {f : Frame}
    (ht : List.Forall₂ (Param.WellTyped scopes) fn.params sig.params)
    (hn : (paramValues fn.params).Nodup) (hvoid : .void ∉ sig.params)
    (ha : args.map Val.type? = sig.params.map some)
    (hregs : ∀ name, f.regs name = ((paramValues fn.params).zip args).lookup name) :
    Tracks I scopes (paramValues fn.params) (bindArgs (fun _ => none) fn.params args) f := by
  intro name id hm
  obtain ⟨var, v, hv, rfl, hkind, hty, hprim, htyped, hbind, hlookup⟩ := bindArgs_holds ht hn ha hm
  have hread : Store.read I (bindArgs (fun _ => none) fn.params args) id var.ty = v := by
    rw [Store.read, hbind]
    rfl
  refine ⟨var, hv, rfl, ?_, ?_, ?_⟩
  · intro he
    exact hvoid (hprim.ir_eq_void.mp he ▸ hty)
  · rw [hread]
    exact htyped
  · rw [hread, Frame.holds, if_neg (by rw [hkind]; decide), hregs]
    exact hlookup

theorem FnDef.WellTyped.bindArgs_locals (ht : fn.WellTyped scopes scope sig)
    (hm : .variable name id ∈ cells fn.body.sites) (store : Store) :
    bindArgs store fn.params args id = store id := by
  refine bindArgs_of_not_mem fun param hp hh => ?_
  rw [← fn.body.locals_cells] at hm
  obtain ⟨entry, hentry, hvalue⟩ := List.mem_filterMap.mp hm
  obtain ⟨id₁, var₁, hh₁, hv₁, -, hlocal, -⟩ := Block.WellTyped.locals fn.body ht.body entry hentry
  obtain ⟨_, -, -, id₂, var₂, hh₂, hv₂, -, hparam, -⟩ := forall₂_mem_left ht.params hp
  rw [Local.value?, hh₁] at hvalue
  obtain ⟨-, rfl⟩ := ValueName.variable.inj (Option.some.inj hvalue)
  rw [hh, Option.some.injEq] at hh₂
  subst hh₂
  rw [hv₁, Option.some.injEq] at hv₂
  rw [hv₂, hparam] at hlocal
  cases hlocal

theorem Ty.Prim.type_zero {ty : Ty} (h : ty.Prim) : ty.zero.type? = some ty := by
  rcases h with rfl | rfl | rfl | rfl <;> rfl

theorem FnDef.Lowered.finishes (h : fn.Lowered scopes functions m.declares r)
    (hl : ∀ kind, Linked m I ⟨scopes, functions, kind⟩ scope call)
    (ht : fn.WellTyped scopes scope sig) (hr : fn.Resolved)
    (hn : (fn.sites.filterMap Site.value?).Nodup) (hvoid : .void ∉ sig.params)
    (ha : args.map Val.type? = sig.params.map some) {course : Course World}
    (hrun : fn.body.run I call fuel (bindArgs (fun _ => none) fn.params args) w = some course) :
    r.symbol = functionSymbol functions fn.name (sig.params.map Ty.ir) ∧ r.ret = sig.ret.ir ∧
      ∃ f, Frame.start r args = some f ∧
        Finishes m I ⟨scopes, functions, .function sig.ret.ir⟩ sig.ret f w course := by
  obtain ⟨header, c, c', hheader, hdefines, hused⟩ := h
  obtain ⟨hret, htypes, hsymbol⟩ := ht.header_eq hheader
  have hnames : header.params.map (·.2) = paramValues fn.params := FnDef.header_arguments hheader
  have hargs : header.params.map (·.1) = args.map Val.irType := by
    rw [htypes, irTypes_of_types ha]
  obtain ⟨code, hcode, hstart⟩ := hdefines.lines.start hargs
  rw [hret] at hdefines
  refine ⟨hdefines.symbol.trans hsymbol, hdefines.ret.trans hret, _, hstart, ?_⟩
  have hrunning : Running m I ⟨scopes, functions, .function sig.ret.ir⟩ scope call r sig.ret :=
    ⟨hl _, hdefines.ret.trans hret, rfl, labels_nodup hdefines.lines.2⟩
  rw [FnDef.sites, List.filterMap_append] at hn
  have hapart := ((values_perm fn.body.sites).append_left (paramValues fn.params)).nodup_iff.mp hn
  have hknown : (extendParams [] fn.params).KnownIn (paramValues fn.params) :=
    extendParams_known .nil (List.Subset.refl _)
  have hvalues : ∀ v ∈ paramValues fn.params, v.number? = none := by
    intro v hv
    obtain ⟨site, -, hsite⟩ := List.mem_filterMap.mp hv
    exact Site.number_value hsite
  have hstands : Frame.Stands I ⟨scopes, functions, .function sig.ret.ir⟩ r (paramValues fn.params)
      (bindArgs (fun _ => none) fn.params args) .entry (.initial r code args) := by
    refine ⟨rfl, rfl, tracks_bindArgs ht.params hn.of_append_left hvoid ha fun name => ?_⟩
    rw [← hnames, ← hdefines.lines.1]
    rfl
  exact hdefines.lines.finishes hrunning hr ht.body hknown hvalues hapart
    (fun name id hm => ht.bindArgs_locals hm _) hused hstands hcode hrun

theorem FnDef.Lowered.returns (h : fn.Lowered scopes functions m.declares r)
    (hl : ∀ kind, Linked m I ⟨scopes, functions, kind⟩ scope call)
    (ht : fn.WellTyped scopes scope sig) (hr : fn.Resolved)
    (hn : (fn.sites.filterMap Site.value?).Nodup) (hvoid : .void ∉ sig.params)
    (ha : args.map Val.type? = sig.params.map some)
    (hrun : fn.invoke I call fuel args w = some (v, w')) : v.type? = some sig.ret ∧
      r.symbol = functionSymbol functions fn.name (sig.params.map Ty.ir) ∧ r.ret = sig.ret.ir ∧
      ∃ f, Frame.start r args = some f ∧ m.Returns I f w (v.result sig.ret.ir) w' := by
  unfold FnDef.invoke at hrun
  split at hrun
  · rename_i store w₁ hbody
    obtain ⟨hsymbol, hret, f, hstart, hfinishes⟩ := h.finishes hl ht hr hn hvoid ha hbody
    rw [ht.retSlot] at hrun
    cases hrun
    exact ⟨ht.known.type_zero, hsymbol, hret, f, hstart, hfinishes⟩
  · rename_i v₁ store w₁ hbody
    obtain ⟨hsymbol, hret, f, hstart, htyped, hreturns⟩ := h.finishes hl ht hr hn hvoid ha hbody
    cases hrun
    exact ⟨htyped, hsymbol, hret, f, hstart, hreturns⟩
  · cases hrun

end

/-! ## Calls -/

theorem resolve_params {params : List Param} (h : List.Forall₂ (Param.WellTyped tree) params tys) :
    params.map (fun param => param.ty.resolve.toOption) = tys.map some := by
  induction h with
  | nil => rfl
  | cons hp _ ih =>
    rw [List.map_cons, List.map_cons, hp.1, ih]
    rfl

theorem FnDef.WellTyped.takes_iff (h : fn.WellTyped tree scope sig) :
    fn.takes tys = true ↔ sig.params = tys := by
  rw [FnDef.takes, decide_eq_true_iff, resolve_params h.params]
  exact (List.map_injective_iff.mpr fun _ _ => Option.some.inj).eq_iff

theorem FnDef.WellTyped.noVoid (h : fn.WellTyped tree scope sig)
    (hv : ∀ param ∈ fn.params, param.ty.resolve ≠ .ok .void) : .void ∉ sig.params := by
  intro hm
  obtain ⟨param, hp, hty, -⟩ := forall₂_mem_right h.params hm
  exact hv param hp hty

theorem CompileUnit.Checked.visible (h : unit.Checked res) (hfn : fn ∈ unit.functions) :
    ∃ sig ∈ res.scopes.overloads res.unitScope fn.name,
      fn.WellTyped res.scopes res.unitScope sig := by
  obtain ⟨users, hsigs, hf⟩ := h.sigs
  obtain ⟨sig, hm, ht, _, hscope⟩ := forall₂_mem_left hf hfn
  refine ⟨sig, ?_, ht⟩
  rw [ScopeTree.mem_overloads, hsigs]
  exact ⟨List.mem_append_right _ hm, hscope, ht.name⟩

theorem CompileUnit.Checked.called (h : unit.Checked res) {found : List Signature}
    (hfound : res.scopes.NearestOverloads name res.unitScope found)
    (hone : found.filter (fun sig => sig.params = tys) = [sig]) (hfn : fn ∈ unit.functions)
    (hname : fn.name = name) (htakes : fn.takes tys = true) :
    fn.WellTyped res.scopes res.unitScope sig ∧ sig.params = tys := by
  obtain ⟨own, hmem, ht⟩ := h.visible hfn
  rw [hname] at hmem
  have hparams := ht.takes_iff.mp htakes
  have heq : own = sig := by
    cases hfound with
    | here _ =>
      have hm : own ∈ [sig] := hone ▸ List.mem_filter.mpr ⟨hmem, decide_eq_true hparams⟩
      exact List.mem_singleton.mp hm
    | above hnone =>
      rw [hnone] at hmem
      cases hmem
  exact heq ▸ ⟨ht, hparams⟩

theorem CompileUnit.Checked.sites_nodup (h : unit.Checked res) (hfn : fn ∈ unit.functions) :
    (fn.sites.filterMap Site.value?).Nodup := by
  have hn := h.numbered.values_nodup
  rw [CompileUnit.sites, List.filterMap_append] at hn
  have hsub : fn.sites.Sublist (unit.functions.flatMap FnDef.sites) :=
    List.sublist_flatten_of_mem (List.mem_map_of_mem hfn)
  exact hn.of_append_left.sublist (hsub.filterMap _)

theorem builtin_noVoid : ∀ sig ∈ builtinSignatures, .void ∉ sig.params := by
  decide

theorem CompileUnit.Checked.noVoid {unit : CompileUnit} {res : Resolution} (h : unit.Checked res)
    (hvoid : ∀ fn ∈ unit.functions, ∀ param ∈ fn.params, param.ty.resolve ≠ .ok .void) :
    ∀ sig ∈ res.scopes.sigs, .void ∉ sig.params := by
  obtain ⟨users, hsigs, hf⟩ := h.sigs
  rw [hsigs]
  intro sig hm
  rcases List.mem_append.mp hm with hm | hm
  · exact builtin_noVoid sig hm
  · obtain ⟨fn, hfn, ht, _⟩ := forall₂_mem_right hf hm
    exact ht.noVoid (hvoid fn hfn)

section

variable {World : Type} {m : Module} {I : Interpretation World} {unit : CompileUnit}
  {res : Resolution}

/-- By induction on the depth of calls: whatever a unit calls, its module does the same. -/
theorem CompileUnit.Checked.linked (h : unit.Checked res)
    (hvoid : ∀ fn ∈ unit.functions, ∀ param ∈ fn.params, param.ty.resolve ≠ .ok .void)
    (hn : m.symbols.Nodup) {routines : List Routine} (hs : routines ⊆ m.routines)
    (hlow : List.Forall₂ (FnDef.Lowered res.scopes (unit.functions.map (·.name)) m.declares)
      unit.functions routines) (fuel : Nat) (kind : RoutineKind) :
    Linked m I ⟨res.scopes, unit.functions.map (·.name), kind⟩ res.unitScope
      (unit.calls I fuel) := by
  have hnoVoid := h.noVoid hvoid
  have hruntime : ∀ r ∈ m.declares, m.find (Callee.runtime r).text = some (.runtime r) :=
    fun r hr => m.find_runtime hn hr
  induction fuel generalizing kind with
  | zero =>
    refine ⟨h.covers kind, hnoVoid, hruntime, ?_, ?_⟩
    · intro name tys args w result _ hcall
      cases hcall
    · intro name tys found sig args w v w' _ _ _ _ hcall
      cases hcall
  | succ fuel ih =>
    refine ⟨h.covers kind, hnoVoid, hruntime, ?_, ?_⟩
    · intro name tys args w result huser hcall
      rw [CompileUnit.calls, if_neg (of_decide_eq_false huser)] at hcall
      exact hcall
    · intro name tys found sig args w v w' huser hfound hone ha hcall
      rw [CompileUnit.calls, if_pos (of_decide_eq_true huser)] at hcall
      obtain ⟨fn, hfind, hinvoke⟩ := Option.bind_eq_some_iff.mp hcall
      have hfn := List.mem_of_find?_eq_some hfind
      have hmatches := List.find?_some hfind
      rw [Bool.and_eq_true, decide_eq_true_iff] at hmatches
      obtain ⟨hname, htakes⟩ := hmatches
      obtain ⟨ht, rfl⟩ := h.called hfound hone hfn hname htakes
      obtain ⟨r, hr, hlowered⟩ := forall₂_mem_left hlow hfn
      obtain ⟨htyped, hsymbol, hret, f, hstart, hreturns⟩ := hlowered.returns ih ht
        (h.functions fn hfn) (h.sites_nodup hfn) (ht.noVoid (hvoid fn hfn)) ha hinvoke
      refine ⟨htyped, r, f, ?_, hret, hstart, hreturns⟩
      rw [← hname, ← hsymbol]
      exact m.find_routine hn (hs hr)

theorem Module.Returns.execute {symbol : String} {r : Routine} {f : Frame} {result : Option Val}
    {w w' : World} (h : m.Returns I f w result w') (hfind : m.find symbol = some (.routine r))
    (hstart : Frame.start r [] = some f) :
    ∃ steps, m.execute I symbol steps w = some (result, w') := by
  obtain ⟨machine, hsteps, hend⟩ := h []
  obtain ⟨steps, hrun⟩ := hsteps.run hend
  refine ⟨steps, ?_⟩
  simp only [Module.execute, hfind, hstart, Option.bind_eq_bind, Option.bind_some]
  exact hrun

theorem CompileUnit.Checked.script_returns (h : unit.Checked res) {call : Calls World}
    (hl : Linked m I ⟨res.scopes, unit.functions.map (·.name), .script⟩ res.unitScope call)
    (hr : r.Defines ⟨res.scopes, unit.functions.map (·.name), .script⟩ (scriptHeader options)
      unit.script.body c c')
    (hused : c'.used ⊆ m.declares) {fuel : Nat} {w : World} {course : Course World}
    (hrun : unit.script.body.run I call fuel (fun _ => none) w = some course) :
    ∃ f, Frame.start r [] = some f ∧
      Finishes m I ⟨res.scopes, unit.functions.map (·.name), .script⟩ .int f w course := by
  have hrunning : Running m I ⟨res.scopes, unit.functions.map (·.name), .script⟩ res.unitScope call
      r .int :=
    ⟨hl, hr.ret, rfl, labels_nodup hr.lines.2⟩
  have hargs : (scriptHeader options).params.map (·.1) = ([] : List Val).map Val.irType := rfl
  obtain ⟨code, hcode, hstart⟩ := hr.lines.start hargs
  have hn := h.numbered.values_nodup
  rw [CompileUnit.sites, List.filterMap_append] at hn
  have hapart : ([] ++ (cells unit.script.body.sites ++ counters unit.script.body.sites)).Nodup :=
    (values_perm _).nodup_iff.mp hn.of_append_right
  have hstands : Frame.Stands I ⟨res.scopes, unit.functions.map (·.name), .script⟩ r []
      (fun _ => none) .entry (.initial r code []) :=
    ⟨rfl, rfl, fun _ _ hm => absurd hm List.not_mem_nil⟩
  have hnone : ∀ v ∈ ([] : List ValueName), v.number? = none := List.forall_mem_nil _
  refine ⟨_, hstart, ?_⟩
  exact hr.lines.finishes hrunning h.script h.scriptTyped .nil hnone hapart (fun _ _ _ => rfl) hused
    hstands hcode hrun

end

/-! ## Units -/

theorem CompileUnit.param_of_clear {unit' : CompileUnit} {keep : Bool}
    (h : unit'.clear keep = unit.clear keep) {fn' : FnDef} (hf : fn' ∈ unit'.functions)
    {param' : Param} (hp : param' ∈ fn'.params) :
    ∃ fn ∈ unit.functions, ∃ param ∈ fn.params, param.ty = param'.ty := by
  have hfns : unit'.functions.map (FnDef.clear keep) = unit.functions.map (FnDef.clear keep) :=
    congrArg CompileUnit.functions h
  obtain ⟨fn, hfn, hclear⟩ := List.mem_map.mp (hfns ▸ List.mem_map_of_mem hf)
  have hparams : fn.params.map (Param.clear keep) = fn'.params.map (Param.clear keep) :=
    congrArg FnDef.params hclear
  obtain ⟨param, hparam, hsame⟩ := List.mem_map.mp (hparams ▸ List.mem_map_of_mem hp)
  have hty : (param.clear keep).ty = (param'.clear keep).ty := congrArg Param.ty hsame
  exact ⟨fn, hfn, param, hparam, hty⟩

theorem CompileUnit.compile_unit : (unit.compile options).unit = unit.check.unit := by
  unfold CompileUnit.compile
  split
  · rename_i he
    rw [he]
  · rename_i he
    rw [he]

/-- Compilation preserves meaning. Take a unit without `Void` parameters whose module gives no
symbol twice. If evaluation of the script comes to an end, so does its routine, with the same status
and in the same world, whatever the operations of the language do. -/
theorem compile_preserves {World : Type} (I : Interpretation World) {unit : CompileUnit}
    {options : Options} {m : Module} (h : (unit.compile options).result = .ok m)
    (hvoid : ∀ fn ∈ unit.functions, ∀ param ∈ fn.params, param.ty.resolve ≠ .ok .void)
    (hn : m.symbols.Nodup) {fuel : Nat} {w w' : World} {status : UInt32}
    (hrun : (unit.compile options).unit.evaluate I fuel w = some (status, w')) :
    ∃ steps, m.execute I (symbol options.entrySymbol [] false) steps w =
      some (some (.status status), w') := by
  obtain ⟨res, hcheck, hlower⟩ := CompileUnit.compile_eq_ok h
  obtain ⟨hchecked, hclear⟩ := CompileUnit.check_spec hcheck
  obtain ⟨routines, script, hroutines, hlow, c, c', hscript, hused⟩ :=
    CompileUnit.lower_lowered hlower
  have hvoid' : ∀ fn ∈ unit.check.unit.functions, ∀ param ∈ fn.params,
      param.ty.resolve ≠ .ok .void := by
    intro fn' hf param' hp
    obtain ⟨fn, hfn, param, hparam, hty⟩ := CompileUnit.param_of_clear hclear hf hp
    exact hty ▸ hvoid fn hfn param hparam
  have hsubset : routines ⊆ m.routines := by
    rw [hroutines]
    exact List.subset_append_left _ _
  have hlinked := hchecked.linked (I := I) hvoid' hn hsubset hlow fuel .script
  have hfind : m.find (symbol options.entrySymbol [] false) = some (.routine script) := by
    have hm : script ∈ m.routines := by
      rw [hroutines]
      exact List.mem_append_right _ List.mem_cons_self
    have hsymbol : script.symbol = symbol options.entrySymbol [] false := hscript.symbol
    rw [← hsymbol]
    exact m.find_routine hn hm
  rw [CompileUnit.compile_unit] at hrun
  unfold CompileUnit.evaluate at hrun
  split at hrun
  · rename_i store w₁ hbody
    cases hrun
    obtain ⟨f, hstart, hreturns⟩ := hchecked.script_returns hlinked hscript hused hbody
    exact hreturns.execute hfind hstart
  · rename_i n store w₁ hbody
    cases hrun
    obtain ⟨f, hstart, -, hreturns⟩ := hchecked.script_returns hlinked hscript hused hbody
    exact hreturns.execute hfind hstart
  · cases hrun

/-- What the built-ins do with two integers, as far as the sample below needs them. -/
def calculate (name : String) (a b : Int64) : Option Val :=
  if name = "+" then some (.int (a + b))
  else if name = "-" then some (.int (a - b))
  else if name = "*" then some (.int (a * b))
  else if name = "<=" then some (.bool (decide (a ≤ b)))
  else if name = "==" then some (.bool (decide (a = b)))
  else none

theorem calculate_type {a b : Int64} {v : Val} (h : calculate name a b = some v) :
    v.type? = some (if name ∈ ["+", "-", "*", "/", "%", "^"] then .int else .bool) := by
  unfold calculate at h
  repeat' split at h
  all_goals cases h
  all_goals
    rename_i hname
    rw [hname]
    rfl

/-- Built-ins on integers, in a world that is the list of what was printed. -/
def calculator : Interpretation (List Val) where
  operate op args w :=
    match args with
    | [.int a, .int b] => (calculate op.name a b).map (·, w)
    | [v] => if op.name = "print" then some (.nothing, w ++ [v]) else none
    | _ => none
  initial _ := {}
  typed := by
    have hpair : ∀ b ∈ Builtin.all, b.params = [.int, .int] →
        b.ret = if b.name ∈ ["+", "-", "*", "/", "%", "^"] then .int else .bool := by
      decide
    have hprint : ∀ b ∈ Builtin.all, b.name = "print" → b.ret = .void := by
      decide
    intro b hb args w v w' ht h
    split at h
    · rename_i i n
      obtain ⟨u, hu, he⟩ := Option.map_eq_some_iff.mp h
      cases he
      have hparams : [Ty.int, .int].map some = b.params.map some := ht
      have hints := (List.map_injective_iff.mpr fun _ _ => Option.some.inj) hparams
      rw [hpair b hb hints.symm]
      exact calculate_type hu
    · split at h
      · rename_i hname
        cases h
        rw [hprint b hb hname]
        rfl
      · cases h
    · cases h
  counts i w := by
    simp only [calculate, if_true, Option.map_some, Int64.add_comm]
  compares i n w := rfl

/-- Adds up factorials, and prints the sums, until a number is reached. -/
def factorials : CompileUnit where
  functions := [
    { name := "factorial", params := [{ name := "n", ty := { name := "Int" } }], ret := none
      body := {
        stmts := [
          .branch [.call "<=" [.var "n", .lit (.int 1)]]
            [{ stmts := [], ret := some { value := .lit (.int 1) } }]]
        ret := some {
          value := .call "*" [.var "n",
            .call "factorial" [.call "-" [.var "n", .lit (.int 1)]]] } } }]
  script :=
    { name := "main"
      body := {
        stmts := [
          .decl "sum" none (.lit (.int 0)),
          .forLoop "i" (.lit (.int 1)) (.lit (.int 9)) {
            stmts := [
              .branch [.call "==" [.var "i", .lit (.int 4)]] [{ stmts := [], brk := some {} }],
              .assign "sum" (.call "+" [.var "sum", .call "factorial" [.var "i"]]),
              .call (.call "print" [.var "sum"])] }]
        ret := some { value := .var "sum" } } }

theorem compile_preserves_factorials :
    ∃ m, (factorials.compile {}).result = .ok m ∧
      (∀ fn ∈ factorials.functions, ∀ param ∈ fn.params, param.ty.resolve ≠ .ok .void) ∧
      m.symbols.Nodup ∧
      (factorials.compile {}).unit.evaluate calculator 5 [] =
        some (9, [.int 1, .int 3, .int 9]) ∧
      ∃ steps, m.execute calculator (symbol "main" [] false) steps [] =
        some (some (.status 9), [.int 1, .int 3, .int 9]) := by
  have hvoid : ∀ fn ∈ factorials.functions, ∀ param ∈ fn.params,
      param.ty.resolve ≠ .ok .void := by
    decide
  have hsymbols : (factorials.compile {}).result.map (fun m => decide m.symbols.Nodup) =
      .ok true := by
    decide +kernel
  have hrun : (factorials.compile {}).unit.evaluate calculator 5 [] =
      some (9, [.int 1, .int 3, .int 9]) := by
    decide +kernel
  cases h : (factorials.compile {}).result with
  | error halt =>
    rw [h] at hsymbols
    cases hsymbols
  | ok m =>
    rw [h] at hsymbols
    have hn : m.symbols.Nodup := of_decide_eq_true (Except.ok.inj hsymbols)
    exact ⟨m, rfl, hvoid, hn, hrun, compile_preserves calculator h hvoid hn hrun⟩

end ScriptLang
