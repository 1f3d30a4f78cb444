import ScriptLang.Proofs.TypeOrder
import ScriptLang.Tree.Reader
import ScriptLang.Tree.Writer

/-!
# Trees as JSON

What is written as JSON reads back as it was. A tree can hold more than the format can: handles have
32 bits there, and a set of candidates is listed in increasing order. Whatever is read keeps to that,
so the trees that survive being written are those that can be read in the first place.

Float literals are left out, since how they are written is up to the caller.
-/

namespace ScriptLang

open Read

variable {j : Json} {fields : List (String × Json)} {name : String}

/-! ## What the format has to hold -/

mutual
/-- Whether every set of candidates in a type is listed in increasing order. -/
def Ty.isCanonical : Ty → Bool
  | .basic _ => true
  | .fn params ret => Ty.allCanonical params && Ty.isCanonical ret
  | .variant alts => decide (Ty.Increasing alts) && Ty.allCanonical alts
  | .unknown => true
def Ty.allCanonical : List Ty → Bool
  | [] => true
  | t :: ts => Ty.isCanonical t && Ty.allCanonical ts
end

/-- What hangs on a node of the tree besides its name and its span. -/
inductive Leaf where
  | literal (value : Literal)
  /-- A handle or the mark of a scope. -/
  | handle (id : Option Nat)
  | slot (ty : TypeSlot)
  deriving DecidableEq

namespace Leaf

/-- Whether the format can hold a leaf. -/
def fits : Leaf → Bool
  | .literal _ => true
  | .handle id => id.all (· < UInt32.size)
  | .slot ty => ty.all Ty.isCanonical

def isFloat : Leaf → Bool
  | .literal (.float _) => true
  | _ => false

end Leaf

mutual
def Expr.leaves : Expr → List Leaf
  | .lit value _ slot => [.literal value, .slot slot]
  | .var _ handle _ slot => [.handle handle, .slot slot]
  | .call _ args _ slot => .slot slot :: leavesOf args
def leavesOf : List Expr → List Leaf
  | [] => []
  | expr :: exprs => expr.leaves ++ leavesOf exprs
end

def returnLeaves : Option Return → List Leaf
  | none => []
  | some ret => ret.value.leaves

mutual
def Stmt.leaves : Stmt → List Leaf
  | .decl _ _ value _ handle => .handle handle :: value.leaves
  | .assign _ value _ handle => .handle handle :: value.leaves
  | .branch conds blocks _ => leavesOf conds ++ leavesOfBlocks blocks
  | .forLoop _ lo hi body _ handle => .handle handle :: (lo.leaves ++ (hi.leaves ++ body.leaves))
  | .whileLoop cond body _ => cond.leaves ++ body.leaves
  | .call value => value.leaves
def Block.leaves : Block → List Leaf
  | ⟨stmts, ret, _, _, scope⟩ => .handle scope :: (leavesOfStmts stmts ++ returnLeaves ret)
def leavesOfStmts : List Stmt → List Leaf
  | [] => []
  | stmt :: stmts => stmt.leaves ++ leavesOfStmts stmts
def leavesOfBlocks : List Block → List Leaf
  | [] => []
  | block :: blocks => block.leaves ++ leavesOfBlocks blocks
end

def FnDef.leaves (fn : FnDef) : List Leaf :=
  .slot fn.retSlot :: (fn.params.map (fun param => .handle param.handle) ++ fn.body.leaves)

/-- The format can hold the leaves. -/
def Fit (leaves : List Leaf) : Prop :=
  ∀ leaf ∈ leaves, leaf.fits = true

namespace CompileUnit

def leaves (unit : CompileUnit) : List Leaf :=
  .handle unit.scope :: (unit.functions.flatMap FnDef.leaves ++ unit.script.body.leaves)

def Storable (unit : CompileUnit) : Prop :=
  Fit unit.leaves

def FloatFree (unit : CompileUnit) : Prop :=
  ∀ leaf ∈ unit.leaves, leaf.isFloat = false
  deriving Decidable

end CompileUnit

/-- What the format can hold without knowing how floats are written. -/
def Plain (leaves : List Leaf) : Prop :=
  ∀ leaf ∈ leaves, leaf.fits = true ∧ leaf.isFloat = false

section

variable {leaf : Leaf} {leaves more : List Leaf}

theorem fit_nil : Fit [] :=
  List.forall_mem_nil _

theorem fit_cons : Fit (leaf :: leaves) ↔ leaf.fits = true ∧ Fit leaves :=
  List.forall_mem_cons

theorem fit_append : Fit (leaves ++ more) ↔ Fit leaves ∧ Fit more :=
  List.forall_mem_append

theorem fit_flatMap {leavesOf : α → List Leaf} {xs : List α} :
    Fit (xs.flatMap leavesOf) ↔ ∀ x ∈ xs, Fit (leavesOf x) :=
  List.forall_mem_flatMap

theorem plain_cons :
    Plain (leaf :: leaves) ↔ (leaf.fits = true ∧ leaf.isFloat = false) ∧ Plain leaves :=
  List.forall_mem_cons

theorem plain_append : Plain (leaves ++ more) ↔ Plain leaves ∧ Plain more :=
  List.forall_mem_append

end

/-! ## Lists -/

theorem mapM_map_eq_some {read : Json → Option α} {write : α → Json} {xs : List α}
    (h : ∀ x ∈ xs, read (write x) = some x) : (xs.map write).mapM read = some xs := by
  induction xs with
  | nil => rfl
  | cons x xs ih =>
    obtain ⟨hx, hxs⟩ := List.forall_mem_cons.mp h
    simp [hx, ih hxs]

theorem forall_mem_of_mapM {read : Json → Option α} {P : α → Prop}
    (hread : ∀ j x, read j = some x → P x) :
    ∀ {items : List Json} {xs : List α}, items.mapM read = some xs → ∀ x ∈ xs, P x
  | [], _, h => by
    simp only [List.mapM_nil, Option.pure_def, Option.some.injEq] at h
    exact h ▸ List.forall_mem_nil P
  | item :: _, xs, h => by
    simp only [List.mapM_cons, Option.pure_def, Option.bind_eq_bind, Option.bind_eq_some_iff,
      Option.some.injEq] at h
    obtain ⟨x, hx, xs, hxs, rfl⟩ := h
    exact List.forall_mem_cons.mpr ⟨hread item x hx, forall_mem_of_mapM hread hxs⟩

/-! ## Fields -/

section

variable {name other : String} {j : Json} {fields : List (String × Json)} {read : Json → Option α}
  {default : α}

@[simp] theorem record?_obj (names : List String) : record? names (.obj fields) = some fields :=
  rfl

@[simp] theorem alternative?_obj : alternative? (.obj [(name, j)]) = some (name, j) :=
  rfl

@[simp] theorem required?_here : required? ((name, j) :: fields) name read = read j := by
  simp [required?]

@[simp] theorem required?_there (h : name ≠ other) :
    required? ((other, j) :: fields) name read = required? fields name read := by
  simp [required?, List.lookup_cons, beq_false_of_ne h]

@[simp] theorem optional?_here : optional? ((name, j) :: fields) name default read = read j := by
  simp [optional?]

@[simp] theorem optional?_there (h : name ≠ other) :
    optional? ((other, j) :: fields) name default read = optional? fields name default read := by
  simp [optional?, List.lookup_cons, beq_false_of_ne h]

end

/-! ## Leaves -/

theorem nat32?_int {n : Nat} (h : n < UInt32.size) : nat32? (.int n) = some n :=
  if_pos h

theorem uint32?_toNat (n : UInt32) : uint32? (.int n.toNat) = some n := by
  rw [uint32?, nat32?_int n.toNat_lt_size, Option.map_some, UInt32.ofNat_toNat]

theorem int64?_toInt (n : Int64) : int64? (.int n.toInt) = some n := by
  rw [int64?, if_pos ⟨n.minValue_le_toInt, n.toInt_le⟩, Int64.ofInt_toInt]

@[simp] theorem Span.ofJson?_toJson (span : Span) : Span.ofJson? span.toJson = some span := by
  simp [Span.ofJson?, Span.toJson, uint32?_toNat]

theorem nullable?_ofOption {read : Json → Option α} {write : α → Json} {x : Option α}
    (hnull : ∀ a, write a ≠ .null) (h : ∀ a, x = some a → read (write a) = some a) :
    nullable? read (.ofOption write x) = some x := by
  cases x with
  | none => rfl
  | some a =>
    rw [Json.ofOption, nullable?, h a rfl, Option.map_some]
    exact hnull a

theorem nullable?_handleJson {id : Option Nat} (h : (Leaf.handle id).fits = true) :
    nullable? nat32? (handleJson id) = some id := by
  refine nullable?_ofOption (by simp) fun n hn => nat32?_int ?_
  simpa [Leaf.fits, hn] using h

theorem Literal.ofJson?_toJson (float : Binary64 → Json) {value : Literal}
    (h : (Leaf.literal value).isFloat = false) :
    Literal.ofJson? (value.toJson float) = some value := by
  cases value with
  | bool b => simp [Literal.ofJson?, Literal.toJson, bool?]
  | int n => simp [Literal.ofJson?, Literal.toJson, int64?_toInt]
  | float x => cases h

@[simp] theorem TypeExpr.ofJson?_toJson (expr : TypeExpr) :
    TypeExpr.ofJson? expr.toJson = some expr := by
  simp [TypeExpr.ofJson?, TypeExpr.toJson, span?, string?]

@[simp] theorem Break.ofJson?_toJson (brk : Break) : Break.ofJson? brk.toJson = some brk := by
  simp [Break.ofJson?, Break.toJson, span?]

theorem nullable?_ascription (ascription : Option TypeExpr) :
    nullable? TypeExpr.ofJson? (.ofOption TypeExpr.toJson ascription) = some ascription :=
  nullable?_ofOption (by simp [TypeExpr.toJson]) fun expr _ => expr.ofJson?_toJson

theorem Param.ofJson?_toJson {param : Param} (h : (Leaf.handle param.handle).fits = true) :
    Param.ofJson? param.toJson = some param := by
  simp [Param.ofJson?, Param.toJson, span?, string?, handle?, nullable?_handleJson h]

/-! ## Types -/

mutual
theorem Ty.ty?_toJson : ∀ (t : Ty) (fuel : Nat), t.isCanonical = true → t.toJson.depth < fuel →
    ty? fuel t.toJson = some t
  | .basic _, fuel + 1, _, _ => by
    simp [Ty.toJson, ty?, tyName?, string?]
  | .fn params ret, fuel + 1, hc, hd => by
    simp only [Ty.isCanonical, Bool.and_eq_true] at hc
    simp only [Ty.toJson, Json.depth, Json.depthFields, Json.depthAll] at hd
    have hparams := Ty.mapM_toJsonAll params fuel hc.1 (by omega)
    have hret := Ty.ty?_toJson ret fuel hc.2 (by omega)
    simp [Ty.toJson, ty?, list?, hparams, hret]
  | .variant alts, fuel + 1, hc, hd => by
    simp only [Ty.isCanonical, Bool.and_eq_true, decide_eq_true_eq] at hc
    simp only [Ty.toJson, Json.depth, Json.depthFields] at hd
    have halts := Ty.mapM_toJsonAll alts fuel hc.2 (by omega)
    simp [Ty.toJson, ty?, list?, halts, hc.1.sortDistinct]
  | .unknown, fuel + 1, _, _ => by
    simp [Ty.toJson, ty?]
theorem Ty.mapM_toJsonAll : ∀ (ts : List Ty) (fuel : Nat), Ty.allCanonical ts = true →
    Json.depthAll (Ty.toJsonAll ts) < fuel → (Ty.toJsonAll ts).mapM (ty? fuel) = some ts
  | [], _, _, _ => rfl
  | t :: ts, fuel, hc, hd => by
    simp only [Ty.allCanonical, Bool.and_eq_true] at hc
    simp only [Ty.toJsonAll, Json.depthAll] at hd
    have ht := Ty.ty?_toJson t fuel hc.1 (by omega)
    have hts := Ty.mapM_toJsonAll ts fuel hc.2 (by omega)
    simp [Ty.toJsonAll, ht, hts]
end

theorem TypeSlot.ofJson?_toJson {slot : TypeSlot} (h : (Leaf.slot slot).fits = true) :
    TypeSlot.ofJson? slot.toJson = some slot := by
  refine nullable?_ofOption (fun t => ?_) fun t ht => ?_
  · cases t <;> simp [Ty.toJson]
  · refine t.ty?_toJson _ ?_ (Nat.lt_succ_self _)
    simpa [Leaf.fits, ht] using h

/-! ## Expressions -/

section

variable (float : Binary64 → Json)

mutual
theorem Expr.expr?_toJson : ∀ (expr : Expr) (fuel : Nat), Plain expr.leaves →
    (expr.toJson float).depth < fuel → expr? fuel (expr.toJson float) = some expr
  | .lit .., fuel + 1, hp, _ => by
    simp only [Expr.leaves, plain_cons] at hp
    simp [Expr.toJson, exprJson, expr?, span?, slot?, Literal.ofJson?_toJson float hp.1.2,
      TypeSlot.ofJson?_toJson hp.2.1.1]
  | .var .., fuel + 1, hp, _ => by
    simp only [Expr.leaves, plain_cons] at hp
    simp [Expr.toJson, exprJson, expr?, span?, slot?, string?, handle?,
      nullable?_handleJson hp.1.1, TypeSlot.ofJson?_toJson hp.2.1.1]
  | .call _ args _ _, fuel + 1, hp, hd => by
    simp only [Expr.leaves, plain_cons] at hp
    simp only [Expr.toJson, exprJson, Json.depth, Json.depthFields] at hd
    have hargs := mapM_exprsJson args fuel hp.2 (by omega)
    simp [Expr.toJson, exprJson, expr?, span?, slot?, string?, list?, hargs,
      TypeSlot.ofJson?_toJson hp.1.1]
theorem mapM_exprsJson : ∀ (exprs : List Expr) (fuel : Nat), Plain (leavesOf exprs) →
    Json.depthAll (exprsJson float exprs) < fuel →
    (exprsJson float exprs).mapM (expr? fuel) = some exprs
  | [], _, _, _ => rfl
  | expr :: exprs, fuel, hp, hd => by
    simp only [leavesOf, plain_append] at hp
    simp only [exprsJson, Json.depthAll] at hd
    have hexpr := expr.expr?_toJson fuel hp.1 (by omega)
    have hexprs := mapM_exprsJson exprs fuel hp.2 (by omega)
    simp [exprsJson, hexpr, hexprs]
end

theorem Expr.ofJson?_toJson {expr : Expr} (h : Plain expr.leaves) :
    Expr.ofJson? (expr.toJson float) = some expr :=
  expr.expr?_toJson float _ h (Nat.lt_succ_self _)

theorem exprsJson_mapM_ofJson? : ∀ {exprs : List Expr}, Plain (leavesOf exprs) →
    (exprsJson float exprs).mapM Expr.ofJson? = some exprs
  | [], _ => rfl
  | _ :: _, h => by
    simp only [leavesOf, plain_append] at h
    simp [exprsJson, Expr.ofJson?_toJson float h.1, exprsJson_mapM_ofJson? h.2]

theorem nullable?_return {ret : Option Return} (h : Plain (returnLeaves ret)) :
    nullable? Return.ofJson? (.ofOption (Return.toJson float) ret) = some ret := by
  refine nullable?_ofOption (by simp [Return.toJson]) fun r hr => ?_
  subst hr
  simp [Return.ofJson?, Return.toJson, span?, Expr.ofJson?_toJson float h]

theorem nullable?_break (brk : Option Break) :
    nullable? Break.ofJson? (.ofOption Break.toJson brk) = some brk :=
  nullable?_ofOption (by simp [Break.toJson]) fun b _ => b.ofJson?_toJson

/-! ## Statements and blocks -/

mutual
theorem Stmt.stmt?_toJson : ∀ (stmt : Stmt) (fuel : Nat), Plain stmt.leaves →
    (stmt.toJson float).depth < fuel → stmt? fuel (stmt.toJson float) = some stmt
  | .decl .., fuel + 1, hp, _ => by
    simp only [Stmt.leaves, plain_cons] at hp
    simp [Stmt.toJson, stmt?, string?, span?, handle?, nullable?_ascription,
      Expr.ofJson?_toJson float hp.2, nullable?_handleJson hp.1.1]
  | .assign .., fuel + 1, hp, _ => by
    simp only [Stmt.leaves, plain_cons] at hp
    simp [Stmt.toJson, stmt?, string?, span?, handle?, Expr.ofJson?_toJson float hp.2,
      nullable?_handleJson hp.1.1]
  | .branch _ blocks _, fuel + 1, hp, hd => by
    simp only [Stmt.leaves, plain_append] at hp
    simp only [Stmt.toJson, Json.depth, Json.depthFields] at hd
    have hblocks := mapM_blocksJson blocks fuel hp.2 (by omega)
    simp [Stmt.toJson, stmt?, list?, span?, exprsJson_mapM_ofJson? float hp.1, hblocks]
  | .forLoop _ _ _ body _ _, fuel + 1, hp, hd => by
    simp only [Stmt.leaves, plain_cons, plain_append] at hp
    obtain ⟨hhandle, hlo, hhi, hbody⟩ := hp
    simp only [Stmt.toJson, Json.depth, Json.depthFields] at hd
    have hbody := body.block?_toJson fuel hbody (by omega)
    simp [Stmt.toJson, stmt?, string?, span?, handle?, Expr.ofJson?_toJson float hlo,
      Expr.ofJson?_toJson float hhi, hbody, nullable?_handleJson hhandle.1]
  | .whileLoop _ body _, fuel + 1, hp, hd => by
    simp only [Stmt.leaves, plain_append] at hp
    simp only [Stmt.toJson, Json.depth, Json.depthFields] at hd
    have hbody := body.block?_toJson fuel hp.2 (by omega)
    simp [Stmt.toJson, stmt?, span?, Expr.ofJson?_toJson float hp.1, hbody]
  | .call _, fuel + 1, hp, _ => by
    simp only [Stmt.leaves] at hp
    simp [Stmt.toJson, stmt?, Expr.ofJson?_toJson float hp]
theorem Block.block?_toJson : ∀ (block : Block) (fuel : Nat), Plain block.leaves →
    (block.toJson float).depth < fuel → block? fuel (block.toJson float) = some block
  | ⟨stmts, _, _, _, _⟩, fuel + 1, hp, hd => by
    simp only [Block.leaves, plain_cons, plain_append] at hp
    simp only [Block.toJson, Json.depth, Json.depthFields] at hd
    have hstmts := mapM_stmtsJson stmts fuel hp.2.1 (by omega)
    simp [Block.toJson, block?, list?, span?, handle?, hstmts, nullable?_return float hp.2.2,
      nullable?_break, nullable?_handleJson hp.1.1]
theorem mapM_stmtsJson : ∀ (stmts : List Stmt) (fuel : Nat), Plain (leavesOfStmts stmts) →
    Json.depthAll (stmtsJson float stmts) < fuel →
    (stmtsJson float stmts).mapM (stmt? fuel) = some stmts
  | [], _, _, _ => rfl
  | stmt :: stmts, fuel, hp, hd => by
    simp only [leavesOfStmts, plain_append] at hp
    simp only [stmtsJson, Json.depthAll] at hd
    have hstmt := stmt.stmt?_toJson fuel hp.1 (by omega)
    have hstmts := mapM_stmtsJson stmts fuel hp.2 (by omega)
    simp [stmtsJson, hstmt, hstmts]
theorem mapM_blocksJson : ∀ (blocks : List Block) (fuel : Nat), Plain (leavesOfBlocks blocks) →
    Json.depthAll (blocksJson float blocks) < fuel →
    (blocksJson float blocks).mapM (block? fuel) = some blocks
  | [], _, _, _ => rfl
  | block :: blocks, fuel, hp, hd => by
    simp only [leavesOfBlocks, plain_append] at hp
    simp only [blocksJson, Json.depthAll] at hd
    have hblock := block.block?_toJson fuel hp.1 (by omega)
    have hblocks := mapM_blocksJson blocks fuel hp.2 (by omega)
    simp [blocksJson, hblock, hblocks]
end

theorem Block.ofJson?_toJson {block : Block} (h : Plain block.leaves) :
    Block.ofJson? (block.toJson float) = some block :=
  block.block?_toJson float _ h (Nat.lt_succ_self _)

/-! ## Units -/

theorem FnDef.ofJson?_toJson {fn : FnDef} (h : Plain fn.leaves) :
    FnDef.ofJson? (fn.toJson float) = some fn := by
  simp only [FnDef.leaves, plain_cons, plain_append] at h
  obtain ⟨hslot, hparams, hbody⟩ := h
  have hparams : (fn.params.map Param.toJson).mapM Param.ofJson? = some fn.params :=
    mapM_map_eq_some fun param hmem =>
      Param.ofJson?_toJson (hparams _ (List.mem_map_of_mem hmem)).1
  simp [FnDef.ofJson?, FnDef.toJson, string?, list?, span?, slot?, hparams, nullable?_ascription,
    Block.ofJson?_toJson float hbody, TypeSlot.ofJson?_toJson hslot.1]

theorem CompileUnit.ofJson?_toJson {unit : CompileUnit} (h : Plain unit.leaves) :
    CompileUnit.ofJson? (unit.toJson float) = some unit := by
  simp only [CompileUnit.leaves, plain_cons, plain_append] at h
  obtain ⟨hscope, hfunctions, hscript⟩ := h
  have hfunctions : (unit.functions.map (FnDef.toJson float)).mapM FnDef.ofJson? =
      some unit.functions :=
    mapM_map_eq_some fun fn hmem => FnDef.ofJson?_toJson float fun leaf hleaf =>
      hfunctions leaf (List.mem_flatMap_of_mem hmem hleaf)
  have hscript : Script.ofJson? (unit.script.toJson float) = some unit.script := by
    simp [Script.ofJson?, Script.toJson, string?, span?, Block.ofJson?_toJson float hscript]
  simp [CompileUnit.ofJson?, CompileUnit.toJson, list?, span?, handle?, hfunctions, hscript,
    nullable?_handleJson hscope.1]

end

/-! ## What is read fits -/

section

variable {α : Type} {read : Json → Option α} {fields : List (String × Json)} {name : String}
  {x default : α} {j : Json}

theorem exists_of_required? (h : required? fields name read = some x) : ∃ j, read j = some x := by
  obtain ⟨j, -, hj⟩ := Option.bind_eq_some_iff.mp h
  exact ⟨j, hj⟩

theorem eq_or_exists_of_optional? (h : optional? fields name default read = some x) :
    x = default ∨ ∃ j, read j = some x := by
  rw [optional?] at h
  split at h
  next => exact .inl (Option.some.inj h).symm
  next j _ => exact .inr ⟨j, h⟩

theorem eq_or_exists_of_nullable? {x : Option α} (h : nullable? read j = some x) :
    x = none ∨ ∃ a, x = some a ∧ read j = some a := by
  rw [nullable?.eq_def] at h
  split at h
  next => exact .inl (Option.some.inj h).symm
  next =>
    obtain ⟨a, ha, rfl⟩ := Option.map_eq_some_iff.mp h
    exact .inr ⟨a, rfl, ha⟩

theorem forall_mem_of_list? {P : α → Prop} {xs : List α} (hread : ∀ j x, read j = some x → P x)
    (h : list? read j = some xs) : ∀ x ∈ xs, P x := by
  rw [list?.eq_def] at h
  split at h
  next => exact forall_mem_of_mapM hread h
  next => cases h

end

theorem leavesOf_eq_flatMap (exprs : List Expr) : leavesOf exprs = exprs.flatMap Expr.leaves := by
  induction exprs with
  | nil => rfl
  | cons expr exprs ih => rw [leavesOf, ih, List.flatMap_cons]

theorem leavesOfStmts_eq_flatMap (stmts : List Stmt) :
    leavesOfStmts stmts = stmts.flatMap Stmt.leaves := by
  induction stmts with
  | nil => rfl
  | cons stmt stmts ih => rw [leavesOfStmts, ih, List.flatMap_cons]

theorem leavesOfBlocks_eq_flatMap (blocks : List Block) :
    leavesOfBlocks blocks = blocks.flatMap Block.leaves := by
  induction blocks with
  | nil => rfl
  | cons block blocks ih => rw [leavesOfBlocks, ih, List.flatMap_cons]

theorem Ty.allCanonical_iff {ts : List Ty} :
    Ty.allCanonical ts = true ↔ ∀ t ∈ ts, t.isCanonical = true := by
  induction ts with
  | nil => simp [Ty.allCanonical]
  | cons t ts ih => simp [Ty.allCanonical, ih]

theorem isCanonical_of_ty? (fuel : Nat) :
    ∀ j t, ty? fuel j = some t → t.isCanonical = true := by
  induction fuel with
  | zero =>
    intro j t h
    cases h
  | succ fuel ih =>
    intro j t h
    by_cases hj : j = .str "Unknown"
    · subst hj
      cases h
      rfl
    · rw [ty?.eq_3 _ _ hj] at h
      simp only [Option.bind_eq_bind, Option.bind_eq_some_iff, Prod.exists] at h
      obtain ⟨name, content, -, h⟩ := h
      split at h
      next =>
        obtain ⟨name, -, h⟩ := Option.bind_eq_some_iff.mp h
        cases h
        rfl
      next =>
        obtain ⟨params, hparams, h⟩ := Option.bind_eq_some_iff.mp h
        obtain ⟨ret, hret, h⟩ := Option.bind_eq_some_iff.mp h
        cases h
        rw [Ty.isCanonical, Ty.allCanonical_iff.mpr (forall_mem_of_list? ih hparams), ih _ _ hret]
        rfl
      next =>
        obtain ⟨alts, halts, h⟩ := Option.bind_eq_some_iff.mp h
        cases h
        have hall := forall_mem_of_list? ih halts
        have hsorted : Ty.allCanonical (Ty.sortDistinct alts) = true :=
          Ty.allCanonical_iff.mpr fun t ht => hall t (Ty.mem_sortDistinct.mp ht)
        rw [Ty.isCanonical, hsorted, Bool.and_true]
        exact decide_eq_true (Ty.increasing_sortDistinct alts)
      next =>
        cases h
        rfl
      next => cases h

theorem lt_of_nat32? {n : Nat} (h : nat32? j = some n) : n < UInt32.size := by
  rw [nat32?.eq_def] at h
  split at h
  next =>
    obtain ⟨hlt, h⟩ := Option.ite_none_right_eq_some.mp h
    exact Option.some.inj h ▸ hlt
  next => cases h

theorem fits_of_handle? {id : Option Nat} (h : handle? fields name = some id) :
    (Leaf.handle id).fits = true := by
  obtain rfl | ⟨j, hj⟩ := eq_or_exists_of_optional? h
  · rfl
  · obtain rfl | ⟨n, rfl, hn⟩ := eq_or_exists_of_nullable? hj
    · rfl
    · exact decide_eq_true (lt_of_nat32? hn)

theorem fits_of_slot? {slot : TypeSlot} (h : slot? fields name = some slot) :
    (Leaf.slot slot).fits = true := by
  obtain rfl | ⟨j, hj⟩ := eq_or_exists_of_optional? h
  · rfl
  · obtain rfl | ⟨t, rfl, ht⟩ := eq_or_exists_of_nullable? hj
    · rfl
    · exact isCanonical_of_ty? _ j t ht

theorem fit_of_expr? (fuel : Nat) : ∀ j expr, expr? fuel j = some expr → Fit expr.leaves := by
  induction fuel with
  | zero =>
    intro j expr h
    cases h
  | succ fuel ih =>
    intro j expr h
    simp only [expr?, Option.bind_eq_bind, Option.bind_eq_some_iff, Prod.exists] at h
    obtain ⟨fields, -, name, content, -, span, -, slot, hslot, h⟩ := h
    have hslot := fits_of_slot? hslot
    split at h
    next =>
      simp only [Option.bind_eq_some_iff] at h
      obtain ⟨value, -, h⟩ := h
      cases h
      exact fit_cons.mpr ⟨rfl, fit_cons.mpr ⟨hslot, fit_nil⟩⟩
    next =>
      simp only [Option.bind_eq_some_iff] at h
      obtain ⟨fields, -, name, -, handle, hhandle, h⟩ := h
      cases h
      exact fit_cons.mpr ⟨fits_of_handle? hhandle, fit_cons.mpr ⟨hslot, fit_nil⟩⟩
    next =>
      simp only [Option.bind_eq_some_iff] at h
      obtain ⟨fields, -, name, -, args, hargs, h⟩ := h
      cases h
      obtain ⟨j, hj⟩ := exists_of_required? hargs
      refine fit_cons.mpr ⟨hslot, ?_⟩
      rw [leavesOf_eq_flatMap]
      exact fit_flatMap.mpr (forall_mem_of_list? ih hj)
    next => cases h

theorem fit_of_exprOfJson? {expr : Expr} (h : Expr.ofJson? j = some expr) : Fit expr.leaves :=
  fit_of_expr? _ j expr h

theorem fit_of_returnOfJson? {ret : Option Return}
    (h : optional? fields name none (nullable? Return.ofJson?) = some ret) :
    Fit (returnLeaves ret) := by
  obtain rfl | ⟨j, hj⟩ := eq_or_exists_of_optional? h
  · exact fit_nil
  · obtain rfl | ⟨r, rfl, hr⟩ := eq_or_exists_of_nullable? hj
    · exact fit_nil
    · simp only [Return.ofJson?, Option.bind_eq_bind, Option.bind_eq_some_iff] at hr
      obtain ⟨fields, -, value, hvalue, span, -, h⟩ := hr
      cases h
      obtain ⟨j, hj⟩ := exists_of_required? hvalue
      exact fit_of_exprOfJson? hj

mutual
theorem fit_of_stmt? : ∀ (fuel : Nat) (j : Json) (stmt : Stmt), stmt? fuel j = some stmt →
    Fit stmt.leaves
  | fuel + 1, j, _, h => by
    simp only [stmt?, Option.bind_eq_bind, Option.bind_eq_some_iff, Prod.exists] at h
    obtain ⟨name, content, -, h⟩ := h
    split at h
    next =>
      simp only [Option.bind_eq_some_iff] at h
      obtain ⟨fields, -, name, -, ascription, -, value, hvalue, span, -, handle, hhandle, h⟩ := h
      cases h
      obtain ⟨j, hj⟩ := exists_of_required? hvalue
      exact fit_cons.mpr ⟨fits_of_handle? hhandle, fit_of_exprOfJson? hj⟩
    next =>
      simp only [Option.bind_eq_some_iff] at h
      obtain ⟨fields, -, target, -, value, hvalue, span, -, handle, hhandle, h⟩ := h
      cases h
      obtain ⟨j, hj⟩ := exists_of_required? hvalue
      exact fit_cons.mpr ⟨fits_of_handle? hhandle, fit_of_exprOfJson? hj⟩
    next =>
      simp only [Option.bind_eq_some_iff] at h
      obtain ⟨fields, -, conds, hconds, blocks, hblocks, span, -, h⟩ := h
      cases h
      obtain ⟨j, hj⟩ := exists_of_required? hconds
      obtain ⟨i, hi⟩ := exists_of_required? hblocks
      rw [Stmt.leaves, leavesOf_eq_flatMap, leavesOfBlocks_eq_flatMap]
      exact fit_append.mpr ⟨fit_flatMap.mpr (forall_mem_of_list? (fun _ _ => fit_of_exprOfJson?) hj),
        fit_flatMap.mpr (forall_mem_of_list? (fit_of_block? fuel) hi)⟩
    next =>
      simp only [Option.bind_eq_some_iff] at h
      obtain ⟨fields, -, var, -, lo, hlo, hi, hhi, body, hbody, span, -, handle, hhandle, h⟩ := h
      cases h
      obtain ⟨i, hi⟩ := exists_of_required? hlo
      obtain ⟨j, hj⟩ := exists_of_required? hhi
      obtain ⟨k, hk⟩ := exists_of_required? hbody
      exact fit_cons.mpr ⟨fits_of_handle? hhandle, fit_append.mpr ⟨fit_of_exprOfJson? hi,
        fit_append.mpr ⟨fit_of_exprOfJson? hj, fit_of_block? fuel k body hk⟩⟩⟩
    next =>
      simp only [Option.bind_eq_some_iff] at h
      obtain ⟨fields, -, cond, hcond, body, hbody, span, -, h⟩ := h
      cases h
      obtain ⟨j, hj⟩ := exists_of_required? hcond
      obtain ⟨k, hk⟩ := exists_of_required? hbody
      exact fit_append.mpr ⟨fit_of_exprOfJson? hj, fit_of_block? fuel k body hk⟩
    next =>
      simp only [Option.bind_eq_some_iff] at h
      obtain ⟨value, hvalue, h⟩ := h
      cases h
      exact fit_of_exprOfJson? hvalue
    next => cases h
theorem fit_of_block? : ∀ (fuel : Nat) (j : Json) (block : Block), block? fuel j = some block →
    Fit block.leaves
  | fuel + 1, j, _, h => by
    simp only [block?, Option.bind_eq_bind, Option.bind_eq_some_iff] at h
    obtain ⟨fields, -, stmts, hstmts, ret, hret, brk, -, span, -, scope, hscope, h⟩ := h
    cases h
    obtain ⟨j, hj⟩ := exists_of_required? hstmts
    rw [Block.leaves, leavesOfStmts_eq_flatMap]
    exact fit_cons.mpr ⟨fits_of_handle? hscope, fit_append.mpr
      ⟨fit_flatMap.mpr (forall_mem_of_list? (fit_of_stmt? fuel) hj), fit_of_returnOfJson? hret⟩⟩
end

theorem fits_of_paramOfJson? {param : Param} (h : Param.ofJson? j = some param) :
    (Leaf.handle param.handle).fits = true := by
  simp only [Param.ofJson?, Option.bind_eq_bind, Option.bind_eq_some_iff] at h
  obtain ⟨fields, -, name, -, ty, -, span, -, handle, hhandle, h⟩ := h
  cases h
  exact fits_of_handle? hhandle

theorem fit_of_fnOfJson? {fn : FnDef} (h : FnDef.ofJson? j = some fn) : Fit fn.leaves := by
  simp only [FnDef.ofJson?, Option.bind_eq_bind, Option.bind_eq_some_iff] at h
  obtain ⟨fields, -, name, -, params, hparams, ret, -, body, hbody, span, -, slot, hslot, h⟩ := h
  cases h
  obtain ⟨i, hi⟩ := exists_of_required? hparams
  obtain ⟨k, hk⟩ := exists_of_required? hbody
  have hhandles := forall_mem_of_list? (fun _ _ => fits_of_paramOfJson?) hi
  exact fit_cons.mpr ⟨fits_of_slot? hslot, fit_append.mpr
    ⟨List.forall_mem_map.mpr hhandles, fit_of_block? _ k body hk⟩⟩

theorem CompileUnit.storable_of_ofJson? {unit : CompileUnit}
    (h : CompileUnit.ofJson? j = some unit) :
    unit.Storable := by
  simp only [CompileUnit.ofJson?, Option.bind_eq_bind, Option.bind_eq_some_iff] at h
  obtain ⟨fields, -, functions, hfunctions, script, hscript, span, -, scope, hscope, h⟩ := h
  cases h
  obtain ⟨i, hi⟩ := exists_of_required? hfunctions
  obtain ⟨k, hk⟩ := exists_of_required? hscript
  simp only [Script.ofJson?, Option.bind_eq_bind, Option.bind_eq_some_iff] at hk
  obtain ⟨fields, -, name, -, body, hbody, span, -, h⟩ := hk
  cases h
  obtain ⟨k, hk⟩ := exists_of_required? hbody
  exact fit_cons.mpr ⟨fits_of_handle? hscope, fit_append.mpr
    ⟨fit_flatMap.mpr (forall_mem_of_list? (fun _ _ => fit_of_fnOfJson?) hi),
      fit_of_block? _ k body hk⟩⟩

/-! ## Round trips -/

/-- A unit without floats survives being written just if the format can hold it, and what was read
once is read again from what is written of it. -/
theorem CompileUnit.json_roundTrip (float : Binary64 → Json) :
    (∀ unit : CompileUnit, unit.FloatFree →
      (CompileUnit.ofJson? (unit.toJson float) = some unit ↔ unit.Storable)) ∧
    ∀ (j : Json) (unit : CompileUnit), CompileUnit.ofJson? j = some unit → unit.FloatFree →
      CompileUnit.ofJson? (unit.toJson float) = some unit := by
  have hback : ∀ unit : CompileUnit, unit.FloatFree → unit.Storable →
      CompileUnit.ofJson? (unit.toJson float) = some unit := fun unit hfree hfit =>
    CompileUnit.ofJson?_toJson float fun leaf hleaf => ⟨hfit leaf hleaf, hfree leaf hleaf⟩
  constructor
  · intro unit hfree
    exact ⟨CompileUnit.storable_of_ofJson?, hback unit hfree⟩
  · intro j unit hread hfree
    exact hback unit hfree (CompileUnit.storable_of_ofJson? hread)

/-- A field too many, annotations that are `null` or missing, and candidates out of order and
repeated. -/
def untidyUnit : Json :=
  .obj [("comment", .str "draft"), ("functions", .arr []), ("scope", .null),
    ("script", .obj [("name", .str "main"), ("body", .obj [("stmts", .arr [
      .obj [("Assign", .obj [("target", .str "n"), ("decl", .int 7), ("value", .obj [
        ("kind", .obj [("Lit", .obj [("Int", .int 2)])]),
        ("ty", .obj [("Variant", .arr [.str "Unknown", .obj [("Basic", .obj [("name", .str "int")])],
          .str "Unknown"])])])])]])])])]

def tidyUnit : CompileUnit where
  functions := []
  script :=
    { name := "main"
      body :=
        { stmts := [.assign "n" (.lit (.int 2) {} (some (.variant [.basic "int", .unknown]))) {}
            (some 7)] } }

theorem CompileUnit.json_roundTrip_untidy :
    CompileUnit.ofJson? untidyUnit = some tidyUnit ∧ tidyUnit.FloatFree ∧
      CompileUnit.ofJson? (tidyUnit.toJson Binary64.toJson) = some tidyUnit := by
  have hread : CompileUnit.ofJson? untidyUnit = some tidyUnit := rfl
  have hfree : tidyUnit.FloatFree := by decide
  exact ⟨hread, hfree, (CompileUnit.json_roundTrip Binary64.toJson).2 _ _ hread hfree⟩

end ScriptLang
