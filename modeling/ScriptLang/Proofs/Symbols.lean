import Mathlib.Data.List.TakeWhile
import ScriptLang.Proofs.Preservation

/-!
# Symbols of a module

A symbol is made from a name, the types of the parameters if the name is overloaded, and quotes if
something in it needs them. Quotes never make two symbols equal, and neither do the types as long as
the name is the same. So symbols of a module clash only where their names do.
-/

namespace ScriptLang

variable {name : String} {fns : List FnDef}

/-! ## From names to symbols -/

/-- The name of a routine without quotes. -/
def globalName (name : String) (types : List IrType) (overloaded : Bool) : String :=
  if overloaded then types.foldl (fun s ty => s ++ "." ++ ty.text) name else name

/-- A name as it is written, with quotes where it needs them. -/
def quoted (name : String) : String :=
  if isPlain name then "@" ++ name else "@\"" ++ name ++ "\""

theorem symbol_eq (name : String) (types : List IrType) (overloaded : Bool) :
    symbol name (types.map IrType.text) overloaded = quoted (globalName name types overloaded) := by
  unfold symbol quoted globalName
  rw [List.foldl_map]

theorem plain_ne_quoted {other : String} (h : isPlain name = true) :
    "@" ++ name ≠ "@\"" ++ other ++ "\"" := by
  intro he
  have hchars : '@' :: name.toList = '@' :: '"' :: (other.toList ++ ['"']) := by
    simpa using congrArg String.toList he
  rw [List.cons.injEq, eq_self, true_and] at hchars
  have hall : ∀ c ∈ name.toList, isPlainChar c = true := by
    rw [isPlain, Bool.and_eq_true] at h
    exact List.all_eq_true.mp h.1
  have hquote := hall '"' (by simp [hchars])
  cases hquote

theorem quoted_injective : Function.Injective quoted := by
  intro name other h
  unfold quoted at h
  split_ifs at h with hname hother hother
  · exact (String.append_right_inj _).mp h
  · exact absurd h (plain_ne_quoted hname)
  · exact absurd h.symm (plain_ne_quoted hother)
  · exact (String.append_right_inj _).mp ((String.append_left_inj _).mp h)

/-- What types add to an overloaded name. -/
def suffix (types : List IrType) : List Char :=
  types.flatMap fun ty => '.' :: ty.text.toList

theorem toList_globalName (name : String) (types : List IrType) :
    (globalName name types true).toList = name.toList ++ suffix types := by
  simp only [globalName, if_true]
  induction types generalizing name with
  | nil => simp [suffix]
  | cons ty types ih =>
    rw [List.foldl_cons, ih]
    simp [suffix]

/-- No spelling of a type begins another, so the types can be read off. -/
theorem suffix_injective : Function.Injective suffix := by
  intro types others h
  induction types generalizing others with
  | nil =>
    cases others with
    | nil => rfl
    | cons ty others => simp [suffix] at h
  | cons ty types ih =>
    cases others with
    | nil => simp [suffix] at h
    | cons ty' others =>
      have hhead : ty = ty' ∧ suffix types = suffix others := by
        cases ty <;> cases ty' <;> simp_all [suffix, IrType.text]
      rw [hhead.1, ih hhead.2]

theorem globalName_types {types others : List IrType}
    (h : globalName name types true = globalName name others true) : types = others := by
  have hchars := congrArg String.toList h
  rw [toList_globalName, toList_globalName] at hchars
  exact suffix_injective (List.append_cancel_left hchars)

/-! ## Names of functions -/

/-- The spelling of a type that is written in the source. -/
def TypeExpr.ir (expr : TypeExpr) : IrType :=
  Ty.ir (.basic expr.name)

/-- What tells the functions of a unit apart: the name and the types of the parameters. -/
def FnDef.key (fn : FnDef) : String × List IrType :=
  (fn.name, fn.params.map (·.ty.ir))

/-- The name of a function in the module, where `functions` are the names in the unit. -/
def FnDef.globalName (functions : List String) (fn : FnDef) : String :=
  ScriptLang.globalName fn.name (fn.params.map (·.ty.ir)) (1 < functions.count fn.name)

theorem Ty.Prim.ir_injective {ty other : Ty} (h : ty.Prim) (h' : other.Prim)
    (he : ty.ir = other.ir) : ty = other := by
  rcases h with rfl | rfl | rfl | rfl <;> rcases h' with rfl | rfl | rfl | rfl <;>
    first | rfl | cases he

theorem irs_injective {tys others : List Ty} (h : ∀ ty ∈ tys, ty.Prim)
    (h' : ∀ ty ∈ others, ty.Prim) (he : tys.map Ty.ir = others.map Ty.ir) : tys = others := by
  induction tys generalizing others with
  | nil => exact (List.map_eq_nil_iff.mp he.symm).symm
  | cons ty tys ih =>
    cases others with
    | nil => cases he
    | cons other others =>
      rw [List.map_cons, List.map_cons, List.cons.injEq] at he
      rw [(h ty List.mem_cons_self).ir_injective (h' other List.mem_cons_self) he.1,
        ih (fun ty hm => h ty (List.mem_cons_of_mem _ hm))
          (fun ty hm => h' ty (List.mem_cons_of_mem _ hm)) he.2]

theorem Param.WellTyped.ir {tree : ScopeTree} {params : List Param} {tys : List Ty}
    (h : List.Forall₂ (Param.WellTyped tree) params tys) :
    params.map (·.ty.ir) = tys.map Ty.ir := by
  induction h with
  | nil => rfl
  | cons hp _ ih =>
    rw [List.map_cons, List.map_cons, ih, (TypeExpr.resolve_eq_ok hp.1).1]
    rfl

section

variable {unit : CompileUnit} {res : Resolution}

theorem CompileUnit.Checked.keys_nodup (h : unit.Checked res) (hs : res.scopes.Settled) :
    (unit.functions.map FnDef.key).Nodup := by
  obtain ⟨users, hsigs, hf⟩ := h.sigs
  have hkeys : List.Forall₂ (· = ·) (unit.functions.map FnDef.key)
      (users.map fun sig => (sig.name, sig.params.map Ty.ir)) := by
    rw [List.forall₂_map_left_iff, List.forall₂_map_right_iff]
    refine hf.imp fun fn sig hfn => ?_
    rw [FnDef.key, Param.WellTyped.ir hfn.1.params, hfn.1.name]
  rw [List.forall₂_eq_eq_eq] at hkeys
  rw [hkeys, List.Nodup, List.pairwise_map]
  have hapart := hs.unambiguous
  rw [ScopeTree.Unambiguous, hsigs, List.pairwise_append] at hapart
  refine hapart.2.1.imp_of_mem fun ha hb hne he => ?_
  obtain ⟨_, -, -, -, hscope⟩ := forall₂_mem_right hf ha
  obtain ⟨_, -, -, -, hscope'⟩ := forall₂_mem_right hf hb
  obtain ⟨hname, htypes⟩ := Prod.mk.inj he
  have hmem {sig : Signature} (hm : sig ∈ users) : sig ∈ res.scopes.sigs :=
    hsigs ▸ List.mem_append_right _ hm
  exact hne ⟨hscope.trans hscope'.symm, hname,
    irs_injective (hs.params _ (hmem ha)) (hs.params _ (hmem hb)) htypes⟩

theorem one_lt_count_map {α β : Type} [DecidableEq β] {f : α → β} {xs : List α} {x y : α}
    (hx : x ∈ xs) (hy : y ∈ xs) (hne : x ≠ y) (he : f x = f y) : 1 < (xs.map f).count (f x) := by
  obtain ⟨before, after, rfl⟩ := List.append_of_mem hx
  have hrest : 0 < (before.map f).count (f x) + (after.map f).count (f x) := by
    rw [he, Nat.add_pos_iff_pos_or_pos, List.count_pos_iff, List.count_pos_iff]
    rcases List.mem_append.mp hy with hm | hm
    · exact Or.inl (List.mem_map_of_mem hm)
    · rcases List.mem_cons.mp hm with rfl | hm
      · exact absurd rfl hne
      · exact Or.inr (List.mem_map_of_mem hm)
  rw [List.map_append, List.map_cons, List.count_append, List.count_cons_self]
  omega

/-- Functions of one name differ in their types, and the types are appended if there is more than
one of them. So functions have the same name in the module only if they had different ones. -/
theorem globalNames_nodup_iff (h : (fns.map FnDef.key).Nodup) :
    (fns.map (FnDef.globalName (fns.map (·.name)))).Nodup ↔
      ∀ fn ∈ fns, ∀ other ∈ fns, fn.name ≠ other.name →
        fn.globalName (fns.map (·.name)) ≠ other.globalName (fns.map (·.name)) := by
  rw [List.nodup_map_iff_inj_on h.of_map]
  constructor
  · intro hinj fn hfn other hother hne he
    exact hne (congrArg FnDef.name (hinj fn hfn other hother he))
  · intro hapart fn hfn other hother he
    by_contra hne
    have hname : fn.name = other.name := by
      by_contra hname
      exact hapart fn hfn other hother hname he
    have hmany := one_lt_count_map (f := FnDef.name) hfn hother hne hname
    have hmany' := hname ▸ hmany
    simp only [FnDef.globalName, hmany', decide_true, hname] at he
    refine hne (List.inj_on_of_nodup_map h hfn hother ?_)
    rw [FnDef.key, FnDef.key, hname, globalName_types he]

end

/-! ## Names that clash -/

/-- No two routines of a module have the same name: the functions, the script, and what the module
takes from the runtime. Functions that have one name from the start are left out. -/
structure NamesApart (fns : List FnDef) (entry : String) (declares : List RuntimeRoutine) :
    Prop where
  functions : ∀ fn ∈ fns, ∀ other ∈ fns, fn.name ≠ other.name →
    fn.globalName (fns.map (·.name)) ≠ other.globalName (fns.map (·.name))
  script : ∀ fn ∈ fns, fn.globalName (fns.map (·.name)) ≠ entry
  runtime : ∀ r ∈ declares, r.name ≠ entry ∧
    ∀ fn ∈ fns, fn.globalName (fns.map (·.name)) ≠ r.name

theorem NamesApart.of_keys {fns' : List FnDef} {entry : String} {declares : List RuntimeRoutine}
    (h : NamesApart fns entry declares) (hk : fns.map FnDef.key = fns'.map FnDef.key) :
    NamesApart fns' entry declares := by
  have hnames : fns.map (·.name) = fns'.map (·.name) := by
    simpa [Function.comp_def, FnDef.key] using congrArg (List.map Prod.fst) hk
  have hback : ∀ fn' ∈ fns', ∃ fn ∈ fns, fn.name = fn'.name ∧
      fn.globalName (fns.map (·.name)) = fn'.globalName (fns'.map (·.name)) := by
    intro fn' hm
    obtain ⟨fn, hfn, he⟩ := List.mem_map.mp (hk ▸ List.mem_map_of_mem hm)
    obtain ⟨hname, htypes⟩ := Prod.mk.inj he
    exact ⟨fn, hfn, hname, by rw [FnDef.globalName, hname, htypes, hnames, FnDef.globalName]⟩
  constructor
  · intro fn' hm other' ho hne
    obtain ⟨fn, hfn, hname, hglobal⟩ := hback fn' hm
    obtain ⟨other, hother, hname', hglobal'⟩ := hback other' ho
    rw [← hglobal, ← hglobal']
    exact h.functions fn hfn other hother (by rw [hname, hname']; exact hne)
  · intro fn' hm
    obtain ⟨fn, hfn, -, hglobal⟩ := hback fn' hm
    exact hglobal ▸ h.script fn hfn
  · intro r hr
    refine ⟨(h.runtime r hr).1, fun fn' hm => ?_⟩
    obtain ⟨fn, hfn, -, hglobal⟩ := hback fn' hm
    exact hglobal ▸ (h.runtime r hr).2 fn hfn

theorem takeWhile_globalName (h : '.' ∉ name.toList) (types : List IrType) (overloaded : Bool) :
    (globalName name types overloaded).toList.takeWhile (· ≠ '.') = name.toList := by
  have hname : ∀ c ∈ name.toList, decide (c ≠ '.') = true := by
    intro c hc
    rw [decide_eq_true_iff]
    rintro rfl
    exact h hc
  cases overloaded with
  | false => exact List.takeWhile_eq_self_iff.mpr hname
  | true =>
    rw [toList_globalName, List.takeWhile_append_of_pos hname]
    cases types <;> simp [suffix]

theorem name_of_globalName {other : String} (h : '.' ∉ name.toList) (ho : '.' ∉ other.toList)
    {types : List IrType} {overloaded : Bool} (he : globalName name types overloaded = other) :
    name = other := by
  have hname := takeWhile_globalName h types overloaded
  have hother := takeWhile_globalName ho [] false
  rw [he] at hname
  exact String.toList_injective (hname.symm.trans hother)

theorem globalName_ne_floatPower (h : '.' ∉ name.toList) (types : List IrType) (overloaded : Bool) :
    globalName name types overloaded ≠ RuntimeRoutine.name .floatPower := by
  intro he
  have hname := takeWhile_globalName h types overloaded
  rw [he] at hname
  have hchars := congrArg String.toList he
  cases overloaded with
  | false =>
    have hsame : name.toList = "llvm.pow.f64".toList := hchars
    rw [hsame] at h
    exact h (by decide)
  | true =>
    rw [toList_globalName, ← hname] at hchars
    have hsuffix : suffix types = ".pow.f64".toList := List.append_cancel_left hchars
    cases types with
    | nil => cases hsuffix
    | cons ty types => cases ty <;> simp [suffix, IrType.text] at hsuffix

theorem NamesApart.of_undotted {entry : String} {declares : List RuntimeRoutine}
    (hdots : ∀ fn ∈ fns, '.' ∉ fn.name.toList) (hentry : '.' ∉ entry.toList)
    (hfns : ∀ fn ∈ fns, fn.name ≠ entry)
    (hruntime : ∀ r ∈ declares, r.name ≠ entry ∧ ∀ fn ∈ fns, fn.name ≠ r.name) :
    NamesApart fns entry declares := by
  constructor
  · intro fn hm other ho hne he
    have hchars := congrArg (fun name => name.toList.takeWhile (· ≠ '.')) he
    unfold FnDef.globalName at hchars
    rw [takeWhile_globalName (hdots fn hm), takeWhile_globalName (hdots other ho)] at hchars
    exact hne (String.toList_injective hchars)
  · intro fn hm he
    exact hfns fn hm (name_of_globalName (hdots fn hm) hentry he)
  · intro r hr
    refine ⟨(hruntime r hr).1, fun fn hm he => ?_⟩
    by_cases hpower : r = .floatPower
    · subst hpower
      exact globalName_ne_floatPower (hdots fn hm) _ _ he
    · have hr' : '.' ∉ r.name.toList := by
        cases r <;> first | decide | exact absurd rfl hpower
      exact (hruntime r hr).2 fn hm (name_of_globalName (hdots fn hm) hr' he)

/-! ## Symbols of a compiled unit -/

section

variable {unit : CompileUnit} {res : Resolution} {m : Module}

theorem RuntimeRoutine.quoted_name (r : RuntimeRoutine) :
    quoted r.name = (Callee.runtime r).text := by
  cases r <;> rfl

theorem FnDef.Lowered.symbol {scopes : ScopeTree} {functions : List String} {scope : ScopeId}
    {used : List RuntimeRoutine} {fn : FnDef} {sig : Signature} {r : Routine}
    (h : fn.Lowered scopes functions used r) (ht : fn.WellTyped scopes scope sig) :
    r.symbol = quoted (fn.globalName functions) := by
  rw [(h.spells ht).2.2, functionSymbol, symbol_eq, FnDef.globalName, Param.WellTyped.ir ht.params,
    ht.name]

theorem symbols_of_lowered {scopes : ScopeTree} {functions : List String}
    {used : List RuntimeRoutine} {routines : List Routine} (scope : ScopeId)
    (h : List.Forall₂ (FnDef.Lowered scopes functions used) fns routines)
    (ht : ∀ fn ∈ fns, ∃ sig, fn.WellTyped scopes scope sig) :
    routines.map (·.symbol) = (fns.map (FnDef.globalName functions)).map quoted := by
  induction h with
  | nil => rfl
  | cons hfn _ ih =>
    obtain ⟨sig, hsig⟩ := ht _ List.mem_cons_self
    rw [List.map_cons, List.map_cons, List.map_cons, hfn.symbol hsig,
      ih fun fn hm => ht fn (List.mem_cons_of_mem _ hm)]

theorem CompileUnit.Checked.symbols_eq (h : unit.Checked res) {options : Options}
    (hl : unit.lower res.scopes options = .ok m) :
    m.symbols = (unit.functions.map (FnDef.globalName (unit.functions.map (·.name))) ++
      options.entrySymbol :: m.declares.map (·.name)).map quoted := by
  obtain ⟨routines, script, hroutines, hlow, c, c', hscript, -⟩ := CompileUnit.lower_lowered hl
  have hfns := symbols_of_lowered res.unitScope hlow fun fn hm =>
    (h.visible hm).imp fun _ hsig => hsig.2
  have hentry : script.symbol = quoted options.entrySymbol := by
    rw [hscript.symbol]
    exact symbol_eq options.entrySymbol [] false
  simp [Module.symbols, Module.globals, Function.comp_def, hroutines, hentry, hfns,
    RuntimeRoutine.quoted_name]

theorem RuntimeRoutine.name_injective : Function.Injective RuntimeRoutine.name := by
  intro r other h
  cases r <;> cases other <;> first | rfl | exact absurd h (by decide)

theorem CompileUnit.Checked.symbols_nodup_iff (h : unit.Checked res) (hs : res.scopes.Settled)
    {options : Options} (hl : unit.lower res.scopes options = .ok m) :
    m.symbols.Nodup ↔ NamesApart unit.functions options.entrySymbol m.declares := by
  have hdeclares : (m.declares.map (·.name)).Nodup := by
    obtain ⟨_, _, _, _, _, -, -, -, hdeclares⟩ := CompileUnit.lower_defines hl
    rw [hdeclares]
    exact (List.Nodup.filter _ (by decide)).map RuntimeRoutine.name_injective
  rw [h.symbols_eq hl, List.nodup_map_iff quoted_injective, List.nodup_append, List.nodup_cons,
    globalNames_nodup_iff (h.keys_nodup hs)]
  constructor
  · rintro ⟨hfns, ⟨hentry, -⟩, hapart⟩
    have hapart' : ∀ fn ∈ unit.functions, ∀ name ∈ options.entrySymbol :: m.declares.map (·.name),
        fn.globalName (unit.functions.map (·.name)) ≠ name :=
      fun fn hm name hn => hapart _ (List.mem_map_of_mem hm) name hn
    refine ⟨hfns, fun fn hm => hapart' fn hm _ List.mem_cons_self, ?_⟩
    refine fun r hr => ⟨?_, fun fn hm => ?_⟩
    · intro he
      exact hentry (he ▸ List.mem_map_of_mem hr)
    · exact hapart' fn hm _ (List.mem_cons_of_mem _ (List.mem_map_of_mem hr))
  · intro hn
    refine ⟨hn.functions, ⟨?_, hdeclares⟩, ?_⟩
    · intro hm
      obtain ⟨r, hr, he⟩ := List.mem_map.mp hm
      exact (hn.runtime r hr).1 he
    · intro name hm other ho
      obtain ⟨fn, hfn, rfl⟩ := List.mem_map.mp hm
      rcases List.mem_cons.mp ho with rfl | ho
      · exact hn.script fn hfn
      · obtain ⟨r, hr, rfl⟩ := List.mem_map.mp ho
        exact (hn.runtime r hr).2 fn hfn

end

theorem CompileUnit.keys_of_clear {unit unit' : CompileUnit} {keep : Bool}
    (h : unit'.clear keep = unit.clear keep) :
    unit'.functions.map FnDef.key = unit.functions.map FnDef.key := by
  have hkey : ∀ fn : FnDef, (fn.clear keep).key = fn.key := by
    intro fn
    simp [FnDef.key, FnDef.clear, Param.clear, Function.comp_def]
  have hfns : unit'.functions.map (FnDef.clear keep) = unit.functions.map (FnDef.clear keep) :=
    congrArg CompileUnit.functions h
  simpa [Function.comp_def, hkey] using congrArg (List.map FnDef.key) hfns

/-- The symbols of a module are unique exactly if no names clash. Nothing can go wrong if no name
has a dot and no function is named like the script's routine or a routine of the runtime that the
module uses. -/
theorem compile_symbols_nodup {unit : CompileUnit} {options : Options} {m : Module}
    (h : (unit.compile options).result = .ok m) :
    (m.symbols.Nodup ↔ NamesApart unit.functions options.entrySymbol m.declares) ∧
      ((∀ fn ∈ unit.functions, '.' ∉ fn.name.toList ∧ fn.name ≠ options.entrySymbol) →
        '.' ∉ options.entrySymbol.toList →
        (∀ r ∈ m.declares, r.name ≠ options.entrySymbol ∧ ∀ fn ∈ unit.functions, fn.name ≠ r.name) →
        m.symbols.Nodup) := by
  obtain ⟨res, hcheck, hlower⟩ := CompileUnit.compile_eq_ok h
  obtain ⟨hchecked, hclear⟩ := CompileUnit.check_spec hcheck
  have hkeys := CompileUnit.keys_of_clear hclear
  have hiff : m.symbols.Nodup ↔ NamesApart unit.functions options.entrySymbol m.declares := by
    rw [hchecked.symbols_nodup_iff (CompileUnit.check_settled hcheck) hlower]
    exact ⟨fun hn => hn.of_keys hkeys, fun hn => hn.of_keys hkeys.symm⟩
  refine ⟨hiff, fun hfns hentry hruntime => ?_⟩
  exact hiff.mpr (.of_undotted (fun fn hm => (hfns fn hm).1) hentry (fun fn hm => (hfns fn hm).2)
    hruntime)

/-- Two overloads, a function of the given name, and a script that prints. -/
def increments (name : String) : CompileUnit where
  functions := [
    { name := "inc", params := [{ name := "n", ty := { name := "Int" } }], ret := none
      body := { stmts := [], ret := some { value := .call "+" [.var "n", .lit (.int 1)] } } },
    { name := "inc", params := [{ name := "x", ty := { name := "Float" } }], ret := none
      body := { stmts := [], ret := some { value := .var "x" } } },
    { name := name, params := [], ret := none, body := { stmts := [] } }]
  script :=
    { name := "main"
      body := { stmts := [.call (.call "print" [.call "inc" [.lit (.int 1)]])] } }

theorem compile_symbols_nodup_increments :
    ∃ m, ((increments "<>").compile {}).result = .ok m ∧
      m.symbols = ["@inc.i64", "@inc.double", "@\"<>\"", "@main", "@tarn_print_int"] ∧
      m.symbols.Nodup := by
  have hdeclares : ((increments "<>").compile {}).result.map (fun m => (m.symbols, m.declares)) =
      .ok (["@inc.i64", "@inc.double", "@\"<>\"", "@main", "@tarn_print_int"], [.printInt]) := by
    decide +kernel
  obtain ⟨m, h, hm⟩ := map_eq_ok.mp hdeclares
  obtain ⟨hsymbols, hruntime⟩ := Prod.mk.inj hm
  refine ⟨m, h, hsymbols, (compile_symbols_nodup h).2 (by decide) (by decide) ?_⟩
  rw [hruntime]
  decide

/-- A function may have the name of a runtime routine, or one that looks like an overload. Neither
is the name of the script's routine. -/
theorem compile_symbols_clash :
    (({} : Options).entrySymbol ∉ (increments "tarn_print_int").functions.map (·.name) ∧
      ∃ m, ((increments "tarn_print_int").compile {}).result = .ok m ∧
        m.symbols = ["@inc.i64", "@inc.double", "@tarn_print_int", "@main", "@tarn_print_int"] ∧
        ¬ m.symbols.Nodup) ∧
    (({} : Options).entrySymbol ∉ (increments "inc.i64").functions.map (·.name) ∧
      ∃ m, ((increments "inc.i64").compile {}).result = .ok m ∧
        m.symbols = ["@inc.i64", "@inc.double", "@inc.i64", "@main", "@tarn_print_int"] ∧
        ¬ m.symbols.Nodup) := by
  have hruntime : ((increments "tarn_print_int").compile {}).result.map Module.symbols =
      .ok ["@inc.i64", "@inc.double", "@tarn_print_int", "@main", "@tarn_print_int"] := by
    decide +kernel
  have hoverload : ((increments "inc.i64").compile {}).result.map Module.symbols =
      .ok ["@inc.i64", "@inc.double", "@inc.i64", "@main", "@tarn_print_int"] := by
    decide +kernel
  obtain ⟨m, h, hm⟩ := map_eq_ok.mp hruntime
  obtain ⟨m', h', hm'⟩ := map_eq_ok.mp hoverload
  refine ⟨⟨by decide, m, h, hm, ?_⟩, by decide, m', h', hm', ?_⟩
  · rw [hm]
    decide
  · rw [hm']
    decide

end ScriptLang
