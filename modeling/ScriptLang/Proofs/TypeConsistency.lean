import ScriptLang.Proofs.IrTyping
import ScriptLang.Proofs.Preservation

/-!
# Emitted code is well typed

Every routine of a compiled unit obeys the typing rules of emitted code. Cells, stores, loads,
arguments and results are each spelled from another place of the checked unit; they agree because
checking gave every place that has to do with a variable or a function the type of its declaration.
-/

set_option linter.unusedSectionVars false

namespace ScriptLang

open Emit

variable {back : IrType} {unit : CompileUnit} {sig : Signature} {m : Module}

/-! ## Lines of loops and branches -/

section

variable {m : Module} {types : Typings} {ret : IrType} {c c₁ c₂ c₃ : Cursor} {id : Nat}
  {counter next cmp : ValueName} {start limit operand : Operand} {pred : Label}
  {tail : Option Label}

theorem Conforms.loopTail (hcounter : (counter, .value .i64) ∈ types) :
    Conforms m types ret (c.loopTail id counter next) := by
  unfold Cursor.loopTail
  split
  · exact .nil
  · have hadd : (Instr.assign next (.binary .add .i64 (.const (.int 1)) (.value counter))).Typed m
        types ret :=
      ⟨rfl, rfl, hcounter⟩
    exact (Conforms.instr hadd nofun).append (.instr trivial nofun)

theorem Conforms.loopHead {rest : List Line} (hrest : Conforms m types ret rest)
    (hcounter : (counter, .value .i64) ∈ types) (hcmp : (cmp, .value .i1) ∈ types)
    (hstart : start.HasType types .i64) (hlimit : limit.HasType types .i64)
    (hnext : ∀ l, tail = some l → (next, .value .i64) ∈ types ∧
      .instr (.assign next (.binary .add .i64 (.const (.int 1)) (.value counter))) ∈ rest) :
    Conforms m types ret
      (ScriptLang.loopHead id counter cmp (loopIncoming start pred next tail) limit ++ rest) where
  instrs i hi := by
    rw [instrsOf_append] at hi
    rcases List.mem_append.mp hi with hi | hi
    · have hphi : ∀ pair ∈ loopIncoming start pred next tail, pair.1.HasType types .i64 := by
        intro pair hm
        rcases List.mem_cons.mp hm with rfl | hm
        · exact hstart
        · obtain ⟨l, hl, rfl⟩ := List.mem_map.mp hm
          exact (hnext l (Option.mem_toList.mp hl)).1
      have hhead : i ∈ [Instr.assign counter (.phi (loopIncoming start pred next tail)),
          .assign cmp (.binary (.icmp .sle) .i64 (.value counter) limit),
          .condBr (.value cmp) (.body id) (.cont id)] := hi
      simp only [List.mem_cons, List.not_mem_nil, or_false] at hhead
      rcases hhead with rfl | rfl | rfl
      · exact hphi
      · exact ⟨rfl, hcounter, hlimit⟩
      · exact hcmp
    · exact hrest.instrs i hi
  loops var incoming hm := by
    rw [instrsOf_append] at hm
    rcases List.mem_append.mp hm with hm | hm
    · have hhead : Instr.assign var (.phi incoming) ∈
          [Instr.assign counter (.phi (loopIncoming start pred next tail)),
            .assign cmp (.binary (.icmp .sle) .i64 (.value counter) limit),
            .condBr (.value cmp) (.body id) (.cont id)] := hm
      simp only [List.mem_cons, List.not_mem_nil, or_false, reduceCtorEq, Instr.assign.injEq,
        Computation.phi.injEq, and_false] at hhead
      obtain ⟨rfl, rfl⟩ := hhead
      exact ⟨id, cmp, limit, start, pred, next, tail, (List.prefix_append _ _).isInfix, rfl,
        fun l hl => List.mem_append_right _ (hnext l hl).2⟩
    · exact (hrest.loops var incoming hm).mono (List.suffix_append _ _).isInfix

theorem conforms_for {loLines hiLines bodyLines : List Line} (hlo : Conforms m types ret loLines)
    (hhi : Conforms m types ret hiLines) (hbody : Conforms m types ret bodyLines)
    (hstart : start.HasType types .i64) (hlimit : limit.HasType types .i64)
    (hcounter : (counter, .value .i64) ∈ types) (hcmp : (cmp, .value .i1) ∈ types)
    (hnext : c₃.terminated = false → (next, .value .i64) ∈ types) :
    Conforms m types ret (loLines ++ (hiLines ++ (c₂.line (.br (.head id)) ++
      (loopHead id counter cmp (loopIncoming start pred next c₃.tailBlock) limit ++
        ([.label (.body id)] ++ (bodyLines ++ (c₃.loopTail id counter next ++
          [.label (.cont id)]))))))) := by
  have htail : Conforms m types ret (c₃.loopTail id counter next) := .loopTail hcounter
  have hrest := hbody.append (htail.append (.label (.cont id)))
  refine hlo.append (hhi.append ((Conforms.line c₂ (i := .br _) trivial nofun).append ?_))
  refine ((Conforms.label (.body id)).append hrest).loopHead hcounter hcmp hstart hlimit ?_
  intro l hl
  have hopen : c₃.terminated = false := by
    unfold Cursor.tailBlock at hl
    split at hl
    · cases hl
    · rename_i h
      exact Bool.eq_false_iff.mpr h
  refine ⟨hnext hopen, ?_⟩
  simp [Cursor.loopTail, hopen]

theorem conforms_while {condLines bodyLines : List Line} (hcond : Conforms m types ret condLines)
    (hbody : Conforms m types ret bodyLines) (ho : operand.HasType types .i1) :
    Conforms m types ret (c.line (.br (.head id)) ++ ([.label (.head id)] ++ (condLines ++
      (c₁.line (.condBr operand (.body id) (.cont id)) ++ ([.label (.body id)] ++ (bodyLines ++
        (c₂.jump (.head id) ++ [.label (.cont id)]))))))) :=
  (Conforms.line c (i := .br _) trivial nofun).append <| (Conforms.label _).append <|
    hcond.append <| (Conforms.line c₁ (i := .condBr operand _ _) ho nofun).append <|
      (Conforms.label _).append <| hbody.append <| (Conforms.jump c₂ _).append (.label _)

theorem conforms_arms {condLines thenLines elseLines : List Line}
    (hcond : Conforms m types ret condLines) (hthen : Conforms m types ret thenLines)
    (helse : Conforms m types ret elseLines) (ho : operand.HasType types .i1) :
    Conforms m types ret
      (condLines ++ (c₁.line (.condBr operand (.thenArm id) (.elseArm id)) ++
        ([.label (.thenArm id)] ++ (thenLines ++ (c₂.jump (.cont id) ++
          ([.label (.elseArm id)] ++ (elseLines ++ (c₃.jump (.cont id) ++
            if !c₂.terminated || !c₃.terminated then [.label (.cont id)] else [])))))))) := by
  have hjoin : Conforms m types ret
      (if !c₂.terminated || !c₃.terminated then [.label (.cont id)] else []) := by
    split
    · exact .label _
    · exact .nil
  exact hcond.append <| (Conforms.line c₁ (i := .condBr operand _ _) ho nofun).append <|
    (Conforms.label _).append <| hthen.append <| (Conforms.jump c₂ _).append <|
      (Conforms.label _).append <| helse.append <| (Conforms.jump c₃ _).append hjoin

end

/-! ## Statements -/

section

variable {m : Module} {types : Typings} {ctx : BodyContext} {scope : ScopeId} {ret : Ty}
  {env : Env} {known : List ValueName}

theorem types_emitStore (hs : Supplied m ctx scope) (hd : types.Declare ctx.scopes known)
    (he : env.KnownIn known) {name : String} {id : DeclId} {var : VarDecl} {value : Expr}
    (hdecl : ctx.scopes.decls[id]? = some var) (hkind : var.kind = .localVar)
    (hm : .variable name id ∈ known) (ht : value.HasType ctx.scopes scope var.ty)
    (hr : value.Resolved env) : Types m types back (emitStore ctx name id value) fun _ => True := by
  have hcell := hd.typing hm hdecl
  rw [VarDecl.typing, if_pos hkind] at hcell
  refine ht.types_irType ?_
  refine (Expr.types_emitOperand hs hd he ht hr).bind (fun o ho => ?_) fun _ =>
    (still_emit _).uses
  have hnot : ∀ dest incoming,
      Instr.store var.ty.ir o (.variable name id) ≠ .assign dest (.phi incoming) := by
    rintro _ _ ⟨⟩
  exact (Types.emit (i := .store var.ty.ir o (.variable name id)) ⟨ho, hcell⟩ hnot).imp
    fun _ _ => trivial

/-- A return has the type of the routine: a script returns the low bits of its result. -/
theorem Return.types_emit (hs : Supplied m ctx scope) (hfit : ctx.kind.Fits ret)
    (hd : types.Declare ctx.scopes known) (he : env.KnownIn known) {back : Return}
    (ht : back.value.HasType ctx.scopes scope ret) (hr : back.value.Resolved env) :
    Types m types ctx.kind.ret (back.emit ctx) fun _ => True := by
  cases hk : ctx.kind with
  | script =>
    rw [hk] at hfit
    obtain rfl : ret = .int := hfit
    rw [Return.emit_script back hk]
    refine (Expr.types_emitOperand hs hd he ht hr).bind (fun o ho => ?_) fun o => ?_
    · have htrunc : (Computation.trunc o).Typed m types := ho
      refine .assign htrunc nofun (fun status hstatus => ?_) fun _ => (still_terminate _).uses
      exact .terminate (i := .ret (some (.i32, .value status))) ⟨rfl, Or.inl hstatus⟩ nofun
    · exact still_freshReg.uses.bind fun _ => (still_emit _).uses.bind fun _ =>
        (still_terminate _).uses
  | function ty =>
    rw [hk] at hfit
    by_cases hvoid : ty = .void
    · subst hvoid
      rw [Return.emit_procedure back hk]
      exact (Expr.types_emitEffect hs hd he ht hr).bind
        (fun _ _ => .terminate (i := .ret none) rfl nofun) fun _ => (still_terminate _).uses
    · rw [Return.emit_function back hk hvoid]
      obtain rfl : ret.ir = ty := hfit
      exact (Expr.types_emitOperand hs hd he ht hr).bind
        (fun o ho => .terminate (i := .ret (some (ret.ir, o))) ⟨rfl, Or.inl ho⟩ nofun)
        fun _ => (still_terminate _).uses

theorem types_emitReturn? (hs : Supplied m ctx scope) (hfit : ctx.kind.Fits ret)
    (hd : types.Declare ctx.scopes known) (he : env.KnownIn known) {result : Option Return}
    (ht : ∀ back, result = some back → back.value.HasType ctx.scopes scope ret)
    (hr : ∀ back, result = some back → back.value.Resolved env) :
    Types m types ctx.kind.ret (emitReturn? ctx result) fun _ => True := by
  cases result with
  | none => exact .pure trivial
  | some back => exact Return.types_emit hs hfit hd he (ht back rfl) (hr back rfl)

theorem types_emitBreak? (exit : Option Label) (brk : Option Break) :
    Types m types back (emitBreak? exit brk) fun _ => True := by
  cases brk with
  | none => exact .pure trivial
  | some brk =>
    cases exit with
    | none => exact .fail _
    | some l => exact .terminate (i := .br l) trivial nofun

section

variable (hs : Supplied m ctx scope) (hfit : ctx.kind.Fits ret)

include hs hfit

mutual
theorem Stmt.types_emit : ∀ (stmt : Stmt)
    {env : Env} {known : List ValueName} (exit : Option Label), stmt.Resolved env →
    stmt.WellTyped ctx.scopes scope ret → types.Declare ctx.scopes known → env.KnownIn known →
    cells stmt.sites ⊆ known → Types m types ctx.kind.ret (stmt.emit ctx exit) fun _ => True
  | .decl .., _, _, _, hr, ht, hd, he, hcells => by
    unfold Stmt.emit
    obtain ⟨id, var, rfl, hdecl, -, hkind, hvalue, -, -⟩ := ht
    refine .check fun id' hid => ?_
    cases hid
    exact types_emitStore hs hd he hdecl hkind (hcells List.mem_cons_self) hvalue hr.1
  | .assign .., _, _, _, hr, ht, hd, he, _ => by
    unfold Stmt.emit
    obtain ⟨id, var, rfl, hdecl, -, hkind, hvalue, -⟩ := ht
    obtain ⟨hrvalue, _, ⟨⟩, hlookup⟩ := hr
    refine .check fun id' hid => ?_
    cases hid
    exact types_emitStore hs hd he hdecl hkind (he _ (Env.mem_of_lookup hlookup)) hvalue hrvalue
  | .branch conds blocks _, _, _, exit, hr, ht, hd, he, hcells => by
    unfold Stmt.emit
    exact types_emitArms blocks conds exit hr.2.1 hr.2.2 ht.1 ht.2 hd he he hcells
  | .forLoop var _ hi body _ _, _, known, _, hr, ht, hd, he, hcells => by
    intro c _ lines c' h hty hused
    obtain ⟨decl, start, loLines, c₁, limit, hiLines, c₂, bodyLines, c₃, id, counter, next, cmp,
      rfl, hcounter, hid, hnext, hcmp, hlo, hhi, hbody, rfl, rfl⟩ := emit_for_eq_ok h
    obtain ⟨⟨_, loop, ⟨⟩, hdecl, -, hkind, hint⟩, htlo, hthi, htbody⟩ := ht
    obtain ⟨hrlo, hrhi, _, ⟨⟩, hrbody⟩ := hr
    simp only [typingsOf_append, List.append_subset] at hty
    obtain ⟨hty₁, hty₂, -, hhead, -, hty₃, htail, -⟩ := hty
    have hused₂ : c₂.used ⊆ m.declares := by
      have hbefore := (body.regular_emit ctx _).uses _ _ _ _ hbody
      rw [← c₂.opened_used]
      exact List.Subset.trans hbefore hused
    have hused₁ := List.Subset.trans ((hi.regular_emitOperand ctx).onward trivial hhi).used hused₂
    have hvar : (counter, NameType.value .i64) ∈ types := hhead List.mem_cons_self
    have htyping : (ValueName.variable var decl, loop.typing) ∈ types := by
      rw [VarDecl.typing, if_neg (by rw [hkind]; decide), hint, ← hcounter]
      exact hvar
    obtain ⟨hlines₁, hstart⟩ := Expr.types_emitOperand hs hd he htlo hrlo _ _ _ _ hlo hty₁ hused₁
    obtain ⟨hlines₂, hlimit⟩ := Expr.types_emitOperand hs hd he hthi hrhi _ _ _ _ hhi hty₂ hused₂
    have hcells' : cells body.sites ⊆ .variable var decl :: known :=
      fun v hv => List.mem_cons_of_mem _ (hcells hv)
    obtain ⟨hlines₃, -⟩ := body.types_emit _ hrbody htbody (hd.cons hdecl htyping) he.cons
      hcells' _ _ _ _ hbody hty₃ hused
    refine ⟨conforms_for hlines₁ hlines₂ hlines₃ hstart hlimit hvar
      (hhead (List.mem_cons_of_mem _ List.mem_cons_self)) fun hopen => htail ?_, trivial⟩
    simp [Cursor.loopTail, hopen, typingsOf, Instr.typing?, Computation.result, Opcode.result]
  | .whileLoop _ body _, _, _, _, hr, ht, hd, he, hcells => by
    intro c _ lines c' h hty hused
    obtain ⟨id, operand, condLines, c₁, bodyLines, c₂, hid, hcond, hbody, rfl, rfl⟩ :=
      emit_while_eq_ok h
    simp only [typingsOf_append, List.append_subset] at hty
    obtain ⟨-, -, hty₁, -, -, hty₂, -⟩ := hty
    have hused₁ : c₁.used ⊆ m.declares := by
      have hbefore := (body.regular_emit ctx _).uses _ _ _ _ hbody
      rw [← c₁.opened_used]
      exact List.Subset.trans hbefore hused
    obtain ⟨hlines₁, ho⟩ := Expr.types_emitOperand hs hd he ht.1 hr.1 _ _ _ _ hcond hty₁ hused₁
    obtain ⟨hlines₂, -⟩ := body.types_emit _ hr.2 ht.2 hd he hcells _ _ _ _ hbody hty₂ hused
    exact ⟨conforms_while hlines₁ hlines₂ ho, trivial⟩
  | .call _, _, _, _, hr, ht, hd, he, _ => by
    unfold Stmt.emit
    obtain ⟨ty, hvalue⟩ := ht
    exact Expr.types_emitEffect hs hd he hvalue hr
theorem Block.types_emit :
    ∀ (block : Block) {env : Env} {known : List ValueName} (exit : Option Label),
    block.Resolved env → block.WellTyped ctx.scopes scope ret → types.Declare ctx.scopes known →
    env.KnownIn known → cells block.sites ⊆ known →
    Types m types ctx.kind.ret (block.emit ctx exit) fun _ => True
  | ⟨stmts, result, brk, _, _⟩, env, known, exit, hr, ht, hd, he, hcells => by
    rw [Block.emit_eq]
    have henv : (extendStmts env stmts).KnownIn known := extendStmts_known stmts he hcells
    refine (types_emitStmts stmts exit hr.1 ht.1 hd he hcells).bind (fun _ _ => ?_) fun _ =>
      (regular_emitReturn? ctx result).uses.bind fun _ => (regular_emitBreak? exit brk).uses
    exact (types_emitReturn? hs hfit hd henv ht.2 hr.2).bind
      (fun _ _ => types_emitBreak? exit brk) fun _ => (regular_emitBreak? exit brk).uses
theorem types_emitStmts :
    ∀ (stmts : List Stmt) {env : Env} {known : List ValueName} (exit : Option Label),
    StmtsResolved env stmts → StmtsWellTyped ctx.scopes scope ret stmts →
    types.Declare ctx.scopes known → env.KnownIn known → cells (sitesOf stmts) ⊆ known →
    Types m types ctx.kind.ret (emitStmts ctx exit stmts) fun _ => True
  | [], _, _, _, _, _, _, _, _ => by
    unfold emitStmts
    exact .pure trivial
  | stmt :: stmts, _, _, exit, hr, ht, hd, he, hcells => by
    unfold emitStmts
    obtain ⟨hcells₁, hcells₂⟩ := cells_append_subset.mp hcells
    exact (stmt.types_emit exit hr.1 ht.1 hd he hcells₁).bind
      (fun _ _ => types_emitStmts stmts exit hr.2 ht.2 hd (stmt.extend_known he hcells₁)
        hcells₂)
      fun _ => (regular_emitStmts ctx stmts exit).uses
theorem types_emitArms {span : Span} :
    ∀ (blocks : List Block) (conds : List Expr) {env env' : Env} {known : List ValueName}
    (exit : Option Label), AllResolved env' conds → BlocksResolved env blocks →
    (∀ cond ∈ conds, cond.HasType ctx.scopes scope .bool) →
    BlocksWellTyped ctx.scopes scope ret blocks → types.Declare ctx.scopes known →
    env'.KnownIn known → env.KnownIn known → cells (sitesOfBlocks blocks) ⊆ known →
    Types m types ctx.kind.ret (emitArms ctx exit span conds blocks) fun _ => True
  | _, [], _, _, _, _, _, _, _, _, _, _, _, _ =>
    fun _ _ _ _ h => absurd h emitArms_no_cond
  | [], _ :: _, _, _, _, _, _, _, _, _, _, _, _, _ =>
    fun _ _ _ _ h => absurd h emitArms_no_block
  | block :: blocks, cond :: conds, _, _, _, exit, hrc, hrb, htc, htb, hd, hec, he, hcells => by
    intro c _ lines c' h hty hused
    obtain ⟨id, operand, condLines, c₁, thenLines, c₂, elseLines, c₃, hid, hcond, hthen, helse, rfl,
      rfl⟩ := emitArms_eq_ok h
    simp only [typingsOf_append, List.append_subset] at hty
    obtain ⟨hty₁, -, -, hty₂, -, -, hty₃, -⟩ := hty
    obtain ⟨hcells₁, hcells₂⟩ := cells_append_subset.mp hcells
    have hused₃ : c₃.used ⊆ m.declares := by
      split at hused <;> exact hused
    have hused₂ := List.Subset.trans
      ((regular_emitElse ctx span blocks conds exit).uses _ _ _ _ helse) hused₃
    have hused₁ : c₁.used ⊆ m.declares := by
      have hbefore := (block.regular_emit ctx _).uses _ _ _ _ hthen
      rw [← c₁.opened_used]
      exact List.Subset.trans hbefore hused₂
    obtain ⟨hlines₁, ho⟩ := Expr.types_emitOperand hs hd hec (htc cond List.mem_cons_self) hrc.1
      _ _ _ _ hcond hty₁ hused₁
    obtain ⟨hlines₂, -⟩ := block.types_emit exit hrb.1 htb.1 hd he hcells₁ _ _ _ _ hthen
      hty₂ hused₂
    have henv := block.extend_known he hcells₁
    have hothers : Types m types ctx.kind.ret (emitElse ctx exit span conds blocks)
        fun _ => True := by
      unfold emitElse
      cases conds with
      | nil => exact types_emitLast blocks exit hrb.2 htb.2 hd henv hcells₂
      | cons next conds =>
        exact types_emitArms blocks (next :: conds) exit hrc.2 hrb.2
          (fun cond hm => htc cond (List.mem_cons_of_mem _ hm)) htb.2 hd hec henv hcells₂
    obtain ⟨hlines₃, -⟩ := hothers _ _ _ _ helse hty₃ hused₃
    exact ⟨conforms_arms hlines₁ hlines₂ hlines₃ ho, trivial⟩
theorem types_emitLast :
    ∀ (blocks : List Block) {env : Env} {known : List ValueName} (exit : Option Label),
    BlocksResolved env blocks → BlocksWellTyped ctx.scopes scope ret blocks →
    types.Declare ctx.scopes known → env.KnownIn known → cells (sitesOfBlocks blocks) ⊆ known →
    Types m types ctx.kind.ret (emitLast ctx exit blocks) fun _ => True
  | [], _, _, _, _, _, _, _, _ => by
    unfold emitLast
    exact .pure trivial
  | [block], _, _, exit, hr, ht, hd, he, hcells =>
    block.types_emit exit hr.1 ht.1 hd he (cells_append_subset.mp hcells).1
  | block :: next :: blocks, _, _, exit, hr, ht, hd, he, hcells => by
    obtain ⟨hcells₁, hcells₂⟩ := cells_append_subset.mp hcells
    exact types_emitLast (next :: blocks) exit hr.2 ht.2 hd (block.extend_known he hcells₁)
      hcells₂
end

end

/-! ## Routines -/

theorem types_emitCells {vars : List Local} (hd : ∀ var ∈ vars, var.Declared ctx.scopes) :
    Types m types back (emitCells vars) fun _ =>
      types.Declare ctx.scopes (vars.filterMap Local.value?) := by
  induction vars with
  | nil =>
    unfold emitCells
    exact .pure fun _ _ hm => by cases hm
  | cons var vars ih =>
    unfold emitCells
    obtain ⟨id, decl, hhandle, hdecl, -, hkind, hslot, hprim, -⟩ := hd var List.mem_cons_self
    refine .check fun id' hid => .check fun ty hty => .check fun ir hir => ?_
    rw [demand_eq_ok, hhandle, Option.some.injEq] at hid
    rw [demand_eq_ok, hslot, Option.some.injEq] at hty
    subst hid hty
    rw [hprim.irType, Except.ok.injEq] at hir
    subst hir
    have halloca : (Computation.alloca decl.ty.ir).Typed m types := trivial
    refine (Types.define halloca (by rintro _ ⟨⟩)).bind (fun _ hcell => ?_) fun _ =>
      (regular_emitCells vars).uses
    refine (ih fun var hm => hd var (List.mem_cons_of_mem _ hm)).imp fun _ hrest => ?_
    have hvalue : var.value? = some (.variable var.name id) := by
      rw [Local.value?, hhandle]
      rfl
    rw [List.filterMap_cons_some hvalue]
    refine hrest.cons hdecl ?_
    rw [VarDecl.typing, if_pos hkind]
    exact hcell

theorem Ty.ir_ne_i32 (ty : Ty) : ty.ir ≠ .i32 := by
  unfold Ty.ir
  split_ifs <;> nofun

theorem types_emitEpilogue {kind : RoutineKind} (hfit : kind.Fits ret) :
    Types m types kind.ret (emitEpilogue kind) fun _ => True := by
  cases kind with
  | script =>
    exact .terminate (i := .ret (some (.i32, .const (.int 0)))) ⟨rfl, Or.inr ⟨rfl, rfl⟩⟩ nofun
  | function ty =>
    cases ty with
    | void => exact .terminate (i := .ret none) rfl nofun
    | i32 => exact absurd hfit ret.ir_ne_i32
    | i1 => exact .terminate (i := .ret (some (.i1, _))) ⟨rfl, Or.inl rfl⟩ nofun
    | i64 => exact .terminate (i := .ret (some (.i64, _))) ⟨rfl, Or.inl rfl⟩ nofun
    | double => exact .terminate (i := .ret (some (.double, _))) ⟨rfl, Or.inl rfl⟩ nofun

theorem types_emitRoutine (hs : Supplied m ctx scope) (hfit : ctx.kind.Fits ret) {body : Block}
    (hr : body.Resolved env) (ht : body.WellTyped ctx.scopes scope ret)
    (hd : types.Declare ctx.scopes known) (he : env.KnownIn known) :
    Types m types ctx.kind.ret (emitRoutine ctx body) fun _ => True := by
  intro c _ lines c' h hty hused
  obtain ⟨cellLines, c₁, bodyLines, c₂, last, hcells, hbody, rfl, hlast⟩ := emitRoutine_eq_ok h
  simp only [typingsOf_append, List.append_subset] at hty
  obtain ⟨-, hty₁, hty₂, hty₃⟩ := hty
  have hend : c₂.used ⊆ m.declares ∧ Conforms m types ctx.kind.ret last := by
    rcases hlast with ⟨_, rfl, rfl⟩ | ⟨_, hret⟩
    · exact ⟨hused, .nil⟩
    · exact ⟨List.Subset.trans ((still_emitEpilogue _).uses _ _ _ _ hret) hused,
        (types_emitEpilogue hfit _ _ _ _ hret hty₃ hused).1⟩
  have hused₁ := List.Subset.trans ((body.regular_emit ctx _).uses _ _ _ _ hbody) hend.1
  obtain ⟨hlines₁, hlocals⟩ := types_emitCells (Block.WellTyped.locals body ht) _ _ _ _ hcells hty₁
    hused₁
  rw [body.locals_cells] at hlocals
  obtain ⟨hlines₂, -⟩ := body.types_emit hs hfit none hr ht (hlocals.append hd)
    (he.mono (List.subset_append_right _ _)) (List.subset_append_left _ _) _ _ _ _ hbody hty₂ hend.1
  exact ⟨(Conforms.label _).append (hlines₁.append (hlines₂.append hend.2)), trivial⟩

theorem Routine.From.typed {r : Routine} {params : List (IrType × ValueName)} {body : Block}
    {c c' : Cursor} {sites : List Site} (h : r.From ctx params body c c')
    (hret : r.ret = ctx.kind.ret) (hs : Supplied m ctx scope) (hfit : ctx.kind.Fits ret)
    (hr : body.Resolved env) (ht : body.WellTyped ctx.scopes scope ret)
    (hparams : params.map (·.2) = sites.filterMap Site.value?)
    (he : env.KnownIn (params.map (·.2))) (hd : r.typings.Declare ctx.scopes (params.map (·.2)))
    (hn : ((sites ++ body.sites).filterMap Site.value?).Nodup) (hused : c'.used ⊆ m.declares) :
    r.Typed m where
  once := by
    rw [r.typings_names, ← h.wellFormed.1.definitions_eq]
    exact h.definitions_nodup hparams hn
  conforms := by
    rw [hret]
    exact (types_emitRoutine hs hfit hr ht hd he _ _ _ _ h.2 (List.subset_append_right _ _) hused).1

end

/-! ## Units -/

theorem builtin_scope : ∀ sig ∈ builtinSignatures, sig.scope = ScopeTree.root := by
  decide

theorem CompileUnit.Checked.callee {res : Resolution} (h : unit.Checked res) {name : String}
    {found : List Signature} (hu : name ∈ unit.functions.map (·.name))
    (hn : res.scopes.NearestOverloads name res.unitScope found) (hs : sig ∈ found) :
    ∃ fn ∈ unit.functions, fn.WellTyped res.scopes res.unitScope sig ∧ fn.name = name := by
  obtain ⟨own, hown, hname⟩ := List.mem_map.mp hu
  obtain ⟨_, hvisible, -⟩ := h.visible hown
  rw [hname] at hvisible
  cases hn with
  | above hnone =>
    rw [hnone] at hvisible
    cases hvisible
  | here _ =>
    obtain ⟨users, hsigs, hf⟩ := h.sigs
    obtain ⟨hm, hscope, hsig⟩ := ScopeTree.mem_overloads.mp hs
    rw [hsigs] at hm
    rcases List.mem_append.mp hm with hm | hm
    · rw [builtin_scope sig hm, h.unitScope] at hscope
      cases hscope
    · obtain ⟨fn, hfn, ht, _⟩ := forall₂_mem_right hf hm
      exact ⟨fn, hfn, ht, ht.name.symm.trans hsig⟩

theorem CompileUnit.Checked.supplied {res : Resolution} (h : unit.Checked res)
    {routines : List Routine} (hsub : routines ⊆ m.routines)
    (hlow : List.Forall₂ (FnDef.Lowered res.scopes (unit.functions.map (·.name)) m.declares)
      unit.functions routines) (kind : RoutineKind) :
    Supplied m ⟨res.scopes, unit.functions.map (·.name), kind⟩ res.unitScope where
  covers := h.covers kind
  functions name tys found sig hu hn hf := by
    have hm : sig ∈ found.filter fun sig => sig.params = tys := by simp [hf]
    obtain ⟨hfound, hparams⟩ := List.mem_filter.mp hm
    obtain ⟨fn, hfn, ht, hname⟩ := h.callee (of_decide_eq_true hu) hn hfound
    obtain ⟨r, hr, hlowered⟩ := forall₂_mem_left hlow hfn
    obtain ⟨hret, htypes, hsymbol⟩ := hlowered.spells ht
    rw [of_decide_eq_true hparams] at htypes hsymbol
    rw [ht.name, hname] at hsymbol
    exact ⟨r, hsub hr, hsymbol, hret, htypes⟩

theorem FnDef.WellTyped.declare_params {tree : ScopeTree} {scope : ScopeId} {fn : FnDef}
    {functions : List String} {header : Header} (h : fn.WellTyped tree scope sig)
    (he : fn.header tree functions = .ok header) :
    Typings.Declare (header.params.map fun param => (param.2, .value param.1)) tree
      (header.params.map (·.2)) := by
  simp only [FnDef.header, ScriptLang.bind_eq_ok, pure_eq_ok] at he
  obtain ⟨_, _, _, _, params, hparams, rfl⟩ := he
  intro name id hm
  obtain ⟨⟨ir, v⟩, hpair, rfl⟩ := List.mem_map.mp hm
  obtain ⟨param, hparam, hemit⟩ := forall₂_mem_right (forall₂_of_mapM hparams) hpair
  obtain ⟨ty, -, hty⟩ := forall₂_mem_left h.params hparam
  obtain rfl : ir = ty.ir := hty.emit_type hemit
  obtain ⟨-, id', var, hhandle, hdecl, -, hkind, rfl⟩ := hty
  have hvalue := Param.emit_eq_ok hemit
  rw [Site.value?, Param.site, hhandle] at hvalue
  cases hvalue
  refine ⟨var, hdecl, List.mem_map.mpr ⟨_, hpair, ?_⟩⟩
  rw [VarDecl.typing, if_neg (by rw [hkind]; decide)]

theorem FnDef.Lowered.typed {scopes : ScopeTree} {functions : List String} {scope : ScopeId}
    {fn : FnDef} {r : Routine} (h : fn.Lowered scopes functions m.declares r)
    (hs : ∀ kind, Supplied m ⟨scopes, functions, kind⟩ scope) (ht : fn.WellTyped scopes scope sig)
    (hr : fn.Resolved) (hn : (fn.sites.filterMap Site.value?).Nodup) :
    r.Typed m ∧ r.ret ≠ .i32 := by
  obtain ⟨header, c, c', hheader, hdef, hused⟩ := h
  obtain ⟨hret, -, -⟩ := ht.header_eq hheader
  have hparams := FnDef.header_arguments hheader
  have henv : (extendParams [] fn.params).KnownIn (header.params.map (·.2)) := by
    rw [hparams]
    exact extendParams_known .nil (List.Subset.refl _)
  have hdeclare : r.typings.Declare scopes (header.params.map (·.2)) := by
    refine (ht.declare_params hheader).subset ?_
    rw [Routine.typings, hdef.lines.1]
    exact List.subset_append_left _ _
  refine ⟨hdef.lines.typed hdef.ret (hs _) hret.symm hr ht.body hparams henv hdeclare hn hused, ?_⟩
  rw [hdef.ret, hret]
  exact sig.ret.ir_ne_i32

theorem CompileUnit.compile_typed {options : Options} (h : (unit.compile options).result = .ok m) :
    ∃ functions script, m.routines = functions ++ [script] ∧
      (∀ r ∈ functions, r.Typed m ∧ r.ret ≠ .i32) ∧ script.Typed m ∧
      script.symbol = symbol options.entrySymbol [] false ∧ script.ret = .i32 := by
  obtain ⟨res, hcheck, hlower⟩ := CompileUnit.compile_eq_ok h
  obtain ⟨hchecked, -⟩ := CompileUnit.check_spec hcheck
  obtain ⟨routines, script, hroutines, hlow, c, c', hscript, hused⟩ :=
    CompileUnit.lower_lowered hlower
  have hsupplied := hchecked.supplied (hroutines ▸ List.subset_append_left _ _) hlow
  refine ⟨routines, script, hroutines, ?_, ?_, hscript.symbol, hscript.ret⟩
  · intro r hr
    obtain ⟨fn, hfn, hlowered⟩ := forall₂_mem_right hlow hr
    obtain ⟨sig, -, ht⟩ := hchecked.visible hfn
    exact hlowered.typed hsupplied ht (hchecked.functions fn hfn) (hchecked.sites_nodup hfn)
  · have hnodup := hchecked.numbered.values_nodup
    rw [CompileUnit.sites, List.filterMap_append] at hnodup
    have hnone : (scriptHeader options).params.map (·.2) = ([] : List Site).filterMap Site.value? :=
      rfl
    exact hscript.lines.typed hscript.ret (hsupplied .script) rfl hchecked.script
      hchecked.scriptTyped hnone .nil (fun _ _ hm => by cases hm) hnodup.of_append_right hused

/-- Every routine of a compiled unit is well typed. In particular a function returns what its
`define` line says, and the routine of the script, the last one, returns an `i32`. -/
theorem compile_typeConsistent {unit : CompileUnit} {options : Options} {m : Module}
    (h : (unit.compile options).result = .ok m) :
    (∀ r ∈ m.routines, r.Typed m) ∧
      ∃ functions script, m.routines = functions ++ [script] ∧ (∀ r ∈ functions, r.ret ≠ .i32) ∧
        script.symbol = symbol options.entrySymbol [] false ∧ script.ret = .i32 := by
  obtain ⟨functions, script, hroutines, hfunctions, hscript, hsymbol, hret⟩ :=
    CompileUnit.compile_typed h
  refine ⟨?_, functions, script, hroutines, fun r hr => (hfunctions r hr).2, hsymbol, hret⟩
  rw [hroutines]
  intro r hr
  rcases List.mem_append.mp hr with hr | hr
  · exact (hfunctions r hr).1
  · rw [List.mem_singleton.mp hr]
    exact hscript

/-- Overloads with parameters of different types, locals of all types, both kinds of loop, a
procedure, and a script that comes to its end. -/
def scaling : CompileUnit where
  functions := [
    { name := "scale", params := [{ name := "n", ty := { name := "Int" } }], ret := none
      body := { stmts := [], ret := some { value := .call "*" [.var "n", .lit (.int 2)] } } },
    { name := "scale", params := [{ name := "x", ty := { name := "Float" } }], ret := none
      body := { stmts := [], ret := some { value := .call "+" [.var "x", .var "x"] } } },
    { name := "report", params := [{ name := "x", ty := { name := "Float" } }], ret := none
      body := { stmts := [.call (.call "print" [.var "x"])] } }]
  script :=
    { name := "main"
      body := {
        stmts := [
          .decl "sum" none (.lit (.int 0)),
          .decl "small" none (.lit (.bool true)),
          .forLoop "i" (.lit (.int 1)) (.call "scale" [.lit (.int 4)]) {
            stmts := [
              .assign "sum" (.call "+" [.var "sum", .call "scale" [.var "i"]]),
              .assign "small" (.call "and" [.var "small",
                .call "<" [.var "sum", .lit (.int 9)]])] },
          .whileLoop (.var "small") { stmts := [.assign "small" (.call "not" [.var "small"])] },
          .decl "half" none (.call "scale" [.lit (.float ⟨0x3fd0000000000000⟩)]),
          .call (.call "report" [.var "half"])] } }

theorem compile_typeConsistent_scaling :
    ∃ m, (scaling.compile {}).result = .ok m ∧
      m.routines.map (·.ret) = [.i64, .double, .void, .i32] ∧
      (∀ r ∈ m.routines, r.Typed m) ∧
      ∃ functions script, m.routines = functions ++ [script] ∧ (∀ r ∈ functions, r.ret ≠ .i32) ∧
        script.symbol = symbol "main" [] false ∧ script.ret = .i32 := by
  have hrets : (scaling.compile {}).result.map (fun m => m.routines.map (·.ret)) =
      .ok [.i64, .double, .void, .i32] := by
    decide +kernel
  cases h : (scaling.compile {}).result with
  | error halt =>
    rw [h] at hrets
    cases hrets
  | ok m =>
    rw [h] at hrets
    exact ⟨m, rfl, Except.ok.inj hrets, compile_typeConsistent h⟩

end ScriptLang
