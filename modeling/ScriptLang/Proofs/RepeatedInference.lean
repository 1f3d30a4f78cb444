import ScriptLang.Proofs.InferenceSteps
import ScriptLang.Proofs.Repetition

/-!
# Bodies inferred again

Inference of a body, run a second time on what the first run left. A committing run writes slots,
and the second one finds in them what it is about to write, up to the place where the first one
stopped. A probe does not look at slots at all. Either way the two runs end alike.
-/

namespace ScriptLang

open Pass ScopeTree

variable {block : Block} {expr value : Expr} {exprs : List Expr} {stmts : List Stmt}
  {handle : Option DeclId} {span : Span} {stmt : Stmt}

/-! ## What a run can tell apart -/

/-- A probe does not look at slots. -/
def Mode.Same (clear : Bool → ν → ν) : Mode → ν → ν → Prop
  | .probe, after, before => clear true after = clear true before
  | .commit, after, before => after = before

section

variable {mode : Mode}

theorem Mode.Same.clear {clear : Bool → ν → ν} {after before : ν}
    (h : mode.Same clear after before) : clear true after = clear true before := by
  cases mode with
  | probe => exact h
  | commit => exact congrArg _ h

theorem Mode.Same.of_nil (h : mode.Same clearAll exprs []) : exprs = [] :=
  of_clearAll_nil h.clear

theorem Mode.Same.of_cons {rest : List Expr} (h : mode.Same clearAll exprs (expr :: rest)) :
    ∃ expr' rest', exprs = expr' :: rest' ∧ mode.Same Expr.clear expr' expr ∧
      mode.Same clearAll rest' rest := by
  cases mode with
  | probe => exact of_clearAll_cons h
  | commit => exact ⟨expr, rest, h, rfl, rfl⟩

theorem Mode.Same.of_decl {name : String} {ascription : Option TypeExpr}
    (h : mode.Same Stmt.clear stmt (.decl name ascription value span handle)) :
    ∃ value', stmt = .decl name ascription value' span handle ∧
      mode.Same Expr.clear value' value := by
  cases mode with
  | probe => exact Stmt.of_clear_decl h
  | commit => exact ⟨value, h, rfl⟩

theorem Mode.Same.of_assign {target : String}
    (h : mode.Same Stmt.clear stmt (.assign target value span handle)) :
    ∃ value', stmt = .assign target value' span handle ∧ mode.Same Expr.clear value' value := by
  cases mode with
  | probe => exact Stmt.of_clear_assign h
  | commit => exact ⟨value, h, rfl⟩

theorem Mode.Same.of_branch {conds : List Expr} {blocks : List Block}
    (h : mode.Same Stmt.clear stmt (.branch conds blocks span)) :
    ∃ conds' blocks', stmt = .branch conds' blocks' span ∧ mode.Same clearAll conds' conds ∧
      mode.Same clearBlocks blocks' blocks := by
  cases mode with
  | probe => exact Stmt.of_clear_branch h
  | commit => exact ⟨conds, blocks, h, rfl, rfl⟩

theorem Mode.Same.of_forLoop {var : String} {lo hi : Expr} {body : Block}
    (h : mode.Same Stmt.clear stmt (.forLoop var lo hi body span handle)) :
    ∃ lo' hi' body', stmt = .forLoop var lo' hi' body' span handle ∧
      mode.Same Expr.clear lo' lo ∧ mode.Same Expr.clear hi' hi ∧
      mode.Same Block.clear body' body := by
  cases mode with
  | probe => exact Stmt.of_clear_forLoop h
  | commit => exact ⟨lo, hi, body, h, rfl, rfl, rfl⟩

theorem Mode.Same.of_whileLoop {cond : Expr} {body : Block}
    (h : mode.Same Stmt.clear stmt (.whileLoop cond body span)) :
    ∃ cond' body', stmt = .whileLoop cond' body' span ∧ mode.Same Expr.clear cond' cond ∧
      mode.Same Block.clear body' body := by
  cases mode with
  | probe => exact Stmt.of_clear_whileLoop h
  | commit => exact ⟨cond, body, h, rfl, rfl⟩

theorem Mode.Same.of_call (h : mode.Same Stmt.clear stmt (.call value)) :
    ∃ value', stmt = .call value' ∧ mode.Same Expr.clear value' value := by
  cases mode with
  | probe => exact Stmt.of_clear_call h
  | commit => exact ⟨value, h, rfl⟩

theorem Mode.Same.of_none {brk : Option Break} {own : Option ScopeId}
    (h : mode.Same Block.clear block ⟨stmts, none, brk, span, own⟩) :
    ∃ stmts', block = ⟨stmts', none, brk, span, own⟩ ∧ mode.Same clearStmts stmts' stmts := by
  cases mode with
  | probe => exact Block.of_clear_none h
  | commit => exact ⟨stmts, h, rfl⟩

theorem Mode.Same.of_some {retSpan : Span} {brk : Option Break} {own : Option ScopeId}
    (h : mode.Same Block.clear block ⟨stmts, some ⟨value, retSpan⟩, brk, span, own⟩) :
    ∃ stmts' value', block = ⟨stmts', some ⟨value', retSpan⟩, brk, span, own⟩ ∧
      mode.Same clearStmts stmts' stmts ∧ mode.Same Expr.clear value' value := by
  cases mode with
  | probe => exact Block.of_clear_some h
  | commit => exact ⟨stmts, value, h, rfl, rfl⟩

theorem Mode.Same.of_stmt {rest : List Stmt} (h : mode.Same clearStmts stmts (stmt :: rest)) :
    ∃ stmt' rest', stmts = stmt' :: rest' ∧ mode.Same Stmt.clear stmt' stmt ∧
      mode.Same clearStmts rest' rest := by
  cases mode with
  | probe => exact of_clearStmts_cons h
  | commit => exact ⟨stmt, rest, h, rfl, rfl⟩

theorem Mode.Same.of_block {blocks rest : List Block}
    (h : mode.Same clearBlocks blocks (block :: rest)) :
    ∃ block' rest', blocks = block' :: rest' ∧ mode.Same Block.clear block' block ∧
      mode.Same clearBlocks rest' rest := by
  cases mode with
  | probe => exact of_clearBlocks_cons h
  | commit => exact ⟨block, rest, h, rfl, rfl⟩

end

/-! ## Expressions -/

mutual
theorem Expr.synth_clear (tree : ScopeTree) (scope : ScopeId) : ∀ expr : Expr,
    (expr.clear true).synth tree scope = expr.synth tree scope
  | .lit .. => rfl
  | .var .. => rfl
  | .call name args span slot => by simp [Expr.clear, Expr.synth, synthAll_clear tree scope args]
theorem synthAll_clear (tree : ScopeTree) (scope : ScopeId) : ∀ exprs : List Expr,
    synthAll tree scope (clearAll true exprs) = synthAll tree scope exprs
  | [] => rfl
  | expr :: exprs => by
    simp [clearAll, synthAll, expr.synth_clear tree scope, synthAll_clear tree scope exprs]
end

theorem Expr.synth_of_clear {other : Expr} (h : expr.clear true = other.clear true)
    (tree : ScopeTree) (scope : ScopeId) : expr.synth tree scope = other.synth tree scope := by
  rw [← expr.synth_clear, h, other.synth_clear]

theorem synthAll_of_clear {others : List Expr} (h : clearAll true exprs = clearAll true others)
    (tree : ScopeTree) (scope : ScopeId) :
    synthAll tree scope exprs = synthAll tree scope others := by
  rw [← synthAll_clear, h, synthAll_clear]

theorem Expr.span_clear (expr : Expr) : (expr.clear true).span = expr.span := by
  cases expr <;> rfl

theorem Expr.span_of_clear {other : Expr} (h : expr.clear true = other.clear true) :
    expr.span = other.span := by
  rw [← expr.span_clear, h, other.span_clear]

theorem TypeSlot.writeOrHalt_again {slot slot' : TypeSlot} {ty : Ty}
    (h : slot.writeOrHalt ty span = .ok slot') : slot'.writeOrHalt ty span = .ok slot' := by
  obtain ⟨_, rfl⟩ := TypeSlot.writeOrHalt_eq_ok.mp h
  exact TypeSlot.writeOrHalt_eq_ok.mpr ⟨Or.inr rfl, rfl⟩

mutual
theorem Expr.commit_again (scope : ScopeId) (tree : ScopeTree) : ∀ (expr : Expr) (ty : Ty),
    ((expr.commit scope ty tree).left id).commit scope ty tree = expr.commit scope ty tree
  | .lit _ span slot, ty => by
    by_cases hk : ty.isFullyKnown = true
    · cases hw : slot.writeOrHalt ty span with
      | error => simp [Expr.commit, hk, Expr.writeSlot, Expr.slot, Expr.span, hw]
      | ok slot' =>
        simp [Expr.commit, hk, Expr.writeSlot, Expr.slot, Expr.span, Expr.withSlot, hw,
          TypeSlot.writeOrHalt_again hw]
    · simp [Expr.commit, hk]
  | .var _ _ span slot, ty => by
    by_cases hk : ty.isFullyKnown = true
    · cases hw : slot.writeOrHalt ty span with
      | error => simp [Expr.commit, hk, Expr.writeSlot, Expr.slot, Expr.span, hw]
      | ok slot' =>
        simp [Expr.commit, hk, Expr.writeSlot, Expr.slot, Expr.span, Expr.withSlot, hw,
          TypeSlot.writeOrHalt_again hw]
    · simp [Expr.commit, hk]
  | .call name args span slot, ty => by
    by_cases hk : ty.isFullyKnown = true
    · cases hs : synthAll tree scope args with
      | error => simp [Expr.commit, hk, hs]
      | ok found =>
        cases ho : tree.overloadFor scope name found ty span with
        | error => simp [Expr.commit, hk, hs, ho]
        | ok sig =>
          have ih := commitAll_again scope tree args sig.params found
          have hsame :=
            synthAll_of_clear (commitAll_delivers scope args sig.params found tree).1 tree scope
          cases hc : commitAll scope args sig.params found tree with
          | stopped args₁ halt tree₁ =>
            simp only [hc, Outcome.left_stopped] at ih hsame
            simp [Expr.commit, hk, hs, ho, hc, hsame, ih]
          | done args₁ tree₁ =>
            simp only [hc, Outcome.left_done, id] at ih hsame
            cases hw : slot.writeOrHalt ty span with
            | error =>
              simp [Expr.commit, hk, hs, ho, hc, hsame, ih, Expr.writeSlot, Expr.slot, Expr.span,
                hw]
            | ok slot' =>
              simp [Expr.commit, hk, hs, ho, hc, hsame, ih, Expr.writeSlot, Expr.slot, Expr.span,
                Expr.withSlot, hw, TypeSlot.writeOrHalt_again hw]
    · simp [Expr.commit, hk]
theorem commitAll_again (scope : ScopeId) (tree : ScopeTree) : ∀ (exprs : List Expr)
    (params found : List Ty),
    commitAll scope ((commitAll scope exprs params found tree).left id) params found tree =
      commitAll scope exprs params found tree
  | [], _, _ => by simp [commitAll]
  | _ :: _, [], _ => by simp [commitAll]
  | _ :: _, _ :: _, [] => by simp [commitAll]
  | expr :: exprs, param :: params, own :: found => by
    cases hu : param.unify own with
    | none => simp [commitAll, hu]
    | some ty =>
      have ih := Expr.commit_again scope tree expr ty
      cases he : expr.commit scope ty tree with
      | stopped expr₁ halt tree₁ =>
        simp only [he, Outcome.left_stopped] at ih
        simp [commitAll, hu, he, ih]
      | done expr₁ tree₁ =>
        simp only [he, Outcome.left_done, id] at ih
        have ihs := commitAll_again scope tree₁ exprs params found
        cases hes : commitAll scope exprs params found tree₁
        all_goals
          simp only [hes, Outcome.left_stopped, Outcome.left_done, id] at ihs
          simp [commitAll, hu, he, hes, ih, ihs]
end

section

variable {mode : Mode} {scope : ScopeId}

theorem Expr.consume_again {again : Expr} {expected : Ty} {origin : Origin} {tree : ScopeTree}
    {outcome : Outcome ScopeTree Expr (Expr × Ty)}
    (ho : expr.consume mode scope expected origin tree = outcome)
    (h : mode.Same Expr.clear again (outcome.left Prod.fst)) :
    again.span = expr.span ∧ again.consume mode scope expected origin tree =
      outcome.leaving (fun out => (again, out.2)) again := by
  subst ho
  have hclear := h.clear.trans (expr.consume_delivers expected origin tree).1
  have hsynth := Expr.synth_of_clear hclear tree scope
  have hspan := Expr.span_of_clear hclear
  refine ⟨hspan, ?_⟩
  cases hs : expr.synth tree scope with
  | error => simp [Expr.consume, hsynth, hs]
  | ok found =>
    cases hu : (expected.unifyOrMismatch found origin).mapError Halt.error with
    | error => simp [Expr.consume, hsynth, hs, hu]
    | ok ty =>
      by_cases hv : ty.isVariant = true
      · simp [Expr.consume, hsynth, hs, hu, hv, hspan]
      · cases mode with
        | probe => simp [Expr.consume, hsynth, hs, hu, hv]
        | commit =>
          have ih := expr.commit_again scope tree ty
          cases hc : expr.commit scope ty tree
          all_goals
            obtain rfl : again = _ := by simpa [Mode.Same, Expr.consume, hs, hu, hv, hc] using h
            simp only [hc, Outcome.left_stopped, Outcome.left_done, id] at ih
            simp [Expr.consume, hsynth, hs, hu, hv, hc, ih]

theorem consumeAll_again {expected : Ty} {origin : Span → Origin} : ∀ {exprs again : List Expr}
    {tree : ScopeTree} {outcome : Outcome ScopeTree (List Expr) (List Expr)},
    consumeAll mode scope expected origin exprs tree = outcome →
    mode.Same clearAll again (outcome.left id) →
    consumeAll mode scope expected origin again tree = outcome.leaving (fun _ => again) again
  | [], _, _, _, rfl, h => by
    obtain rfl := h.of_nil
    rfl
  | expr :: exprs, _, tree, _, rfl, h => by
    cases he : expr.consume mode scope expected (origin expr.span) tree with
    | stopped =>
      simp only [consumeAll, bind_apply, within_apply, he, Outcome.left_stopped] at h
      obtain ⟨expr', exprs', rfl, hexpr, _⟩ := h.of_cons
      obtain ⟨hspan, ih⟩ := Expr.consume_again he hexpr
      simp [consumeAll, hspan, he, ih]
    | done out tree₁ =>
      cases hes : consumeAll mode scope expected origin exprs tree₁
      all_goals
        simp only [consumeAll, bind_apply, within_apply, pure_apply, he, hes, Outcome.left_done,
          Outcome.left_stopped] at h
        obtain ⟨expr', exprs', rfl, hexpr, hexprs⟩ := h.of_cons
        obtain ⟨hspan, ih⟩ := Expr.consume_again he hexpr
        have ihs := consumeAll_again hes hexprs
        simp [consumeAll, hspan, he, hes, ih, ihs]

/-! ## Statements -/

mutual
theorem Stmt.infer_again : ∀ (stmt again : Stmt) {ctx : RoutineContext} {tree : ScopeTree}
    {outcome : Outcome ScopeTree Stmt (Stmt × RoutineContext)},
    stmt.infer mode scope ctx tree = outcome →
    mode.Same Stmt.clear again (outcome.left Prod.fst) →
    again.infer mode scope ctx tree = outcome.leaving (fun out => (again, out.2)) again
  | .decl name ascription value span handle, _, _, tree, _, rfl, h => by
    cases hb : boundVariable tree handle "unbound declaration" span with
    | error =>
      simp only [Stmt.infer, bind_apply, scopes_apply, hb, ofExcept_error,
        Outcome.left_stopped] at h
      obtain ⟨value', rfl, _⟩ := h.of_decl
      simp [Stmt.infer, hb]
    | ok entry =>
      cases hc : value.consume mode scope entry.2.declared
          (declarationOrigin name ascription value.span) tree with
      | stopped =>
        obtain ⟨value', rfl, hval⟩ := Mode.Same.of_decl (by simpa [Stmt.infer, hb, hc] using h)
        obtain ⟨hspan, ih⟩ := Expr.consume_again hc hval
        simp [Stmt.infer, hb, hspan, hc, ih]
      | done out tree₁ =>
        have hout := Expr.span_of_clear ((value.consume_delivers _ _).done hc)
        cases hst : storable name entry.2.declared out.2 out.1.span with
        | error =>
          obtain ⟨value', rfl, hval⟩ :=
            Mode.Same.of_decl (by simpa [Stmt.infer, hb, hc, hst] using h)
          obtain ⟨hspan, ih⟩ := Expr.consume_again hc hval
          rw [hout] at hst
          simp [Stmt.infer, hb, hc, hspan, hout, ih, hst]
        | ok u =>
          cases hset : (tree₁.setVarType entry.1 out.2).mapError Halt.fault
          all_goals
            obtain ⟨value', rfl, hval⟩ :=
              Mode.Same.of_decl (by simpa [Stmt.infer, hb, hc, hst, setTypeHere, hset] using h)
            obtain ⟨hspan, ih⟩ := Expr.consume_again hc hval
            rw [hout] at hst
            simp [Stmt.infer, hb, hc, hspan, hout, ih, hst, setTypeHere, hset]
  | .assign target value span handle, _, _, tree, _, rfl, h => by
    cases hb : assignedVariable tree handle target span with
    | error =>
      obtain ⟨value', rfl, _⟩ := Mode.Same.of_assign (by simpa [Stmt.infer, hb] using h)
      simp [Stmt.infer, hb]
    | ok entry =>
      cases hc : value.consume mode scope entry.2.ty (.assignment target span) tree with
      | stopped =>
        obtain ⟨value', rfl, hval⟩ := Mode.Same.of_assign (by simpa [Stmt.infer, hb, hc] using h)
        obtain ⟨_, ih⟩ := Expr.consume_again hc hval
        simp [Stmt.infer, hb, hc, ih]
      | done out tree₁ =>
        have hout := Expr.span_of_clear ((value.consume_delivers _ _).done hc)
        cases hst : storable target entry.2.ty out.2 out.1.span with
        | error =>
          obtain ⟨value', rfl, hval⟩ :=
            Mode.Same.of_assign (by simpa [Stmt.infer, hb, hc, hst] using h)
          obtain ⟨hspan, ih⟩ := Expr.consume_again hc hval
          rw [hout] at hst
          simp [Stmt.infer, hb, hc, hspan, hout, ih, hst]
        | ok u =>
          cases hset : (tree₁.setVarType entry.1 out.2).mapError Halt.fault
          all_goals
            obtain ⟨value', rfl, hval⟩ :=
              Mode.Same.of_assign (by simpa [Stmt.infer, hb, hc, hst, setTypeHere, hset] using h)
            obtain ⟨hspan, ih⟩ := Expr.consume_again hc hval
            rw [hout] at hst
            simp [Stmt.infer, hb, hc, hspan, hout, ih, hst, setTypeHere, hset]
  | .branch conds blocks _, _, ctx, tree, _, rfl, h => by
    cases hc : consumeAll mode scope .bool .condition conds tree with
    | stopped =>
      obtain ⟨conds', blocks', rfl, hconds, _⟩ :=
        Mode.Same.of_branch (by simpa [Stmt.infer, hc] using h)
      have ih := consumeAll_again hc hconds
      simp [Stmt.infer, hc, ih]
    | done conds₁ tree₁ =>
      cases hb : inferBlocks mode scope blocks ctx tree₁
      all_goals
        obtain ⟨conds', blocks', rfl, hconds, hblocks⟩ :=
          Mode.Same.of_branch (by simpa [Stmt.infer, hc, hb] using h)
        have ih := consumeAll_again hc hconds
        have ihb := inferBlocks_again blocks blocks' hb hblocks
        simp [Stmt.infer, hc, hb, ih, ihb]
  | .forLoop _ lo hi body span _, _, ctx, tree, _, rfl, h => by
    cases hl : lo.consume mode scope .int (.forBound lo.span) tree with
    | stopped =>
      obtain ⟨lo', hi', body', rfl, hlo, _⟩ :=
        Mode.Same.of_forLoop (by simpa [Stmt.infer, hl] using h)
      obtain ⟨hls, ihl⟩ := Expr.consume_again hl hlo
      simp [Stmt.infer, hls, hl, ihl]
    | done out tree₁ =>
      cases hh : hi.consume mode scope .int (.forBound hi.span) tree₁ with
      | stopped =>
        obtain ⟨lo', hi', body', rfl, hlo, hhi, _⟩ :=
          Mode.Same.of_forLoop (by simpa [Stmt.infer, hl, hh] using h)
        obtain ⟨hls, ihl⟩ := Expr.consume_again hl hlo
        obtain ⟨hhs, ihh⟩ := Expr.consume_again hh hhi
        simp [Stmt.infer, hls, hl, ihl, hhs, hh, ihh]
      | done out' tree₂ =>
        cases hb : body.infer mode scope ctx tree₂
        all_goals
          obtain ⟨lo', hi', body', rfl, hlo, hhi, hbody⟩ :=
            Mode.Same.of_forLoop (by simpa [Stmt.infer, hl, hh, hb] using h)
          obtain ⟨hls, ihl⟩ := Expr.consume_again hl hlo
          obtain ⟨hhs, ihh⟩ := Expr.consume_again hh hhi
          have ihb := Block.infer_again body body' hb hbody
          simp [Stmt.infer, hls, hl, ihl, hhs, hh, ihh, hb, ihb]
  | .whileLoop cond body span, _, ctx, tree, _, rfl, h => by
    cases hc : cond.consume mode scope .bool (.condition cond.span) tree with
    | stopped =>
      obtain ⟨cond', body', rfl, hcond, _⟩ :=
        Mode.Same.of_whileLoop (by simpa [Stmt.infer, hc] using h)
      obtain ⟨hspan, ih⟩ := Expr.consume_again hc hcond
      simp [Stmt.infer, hspan, hc, ih]
    | done out tree₁ =>
      cases hb : body.infer mode scope ctx tree₁
      all_goals
        obtain ⟨cond', body', rfl, hcond, hbody⟩ :=
          Mode.Same.of_whileLoop (by simpa [Stmt.infer, hc, hb] using h)
        obtain ⟨hspan, ih⟩ := Expr.consume_again hc hcond
        have ihb := Block.infer_again body body' hb hbody
        simp [Stmt.infer, hspan, hc, ih, hb, ihb]
  | .call value, _, _, tree, _, rfl, h => by
    cases hc : value.consume mode scope .unknown .builtin tree
    all_goals
      obtain ⟨value', rfl, hval⟩ := Mode.Same.of_call (by simpa [Stmt.infer, hc] using h)
      obtain ⟨_, ih⟩ := Expr.consume_again hc hval
      simp [Stmt.infer, hc, ih]
termination_by structural stmt => stmt
theorem Block.infer_again : ∀ (block again : Block) {ctx : RoutineContext} {tree : ScopeTree}
    {outcome : Outcome ScopeTree Block (Block × RoutineContext)},
    block.infer mode scope ctx tree = outcome →
    mode.Same Block.clear again (outcome.left Prod.fst) →
    again.infer mode scope ctx tree = outcome.leaving (fun out => (again, out.2)) again
  | ⟨stmts, none, _, _, _⟩, _, ctx, tree, _, rfl, h => by
    cases hs : inferStmts mode scope stmts ctx tree
    all_goals
      obtain ⟨stmts', rfl, hstmts⟩ := Mode.Same.of_none (by simpa [Block.infer, hs] using h)
      have ih := inferStmts_again stmts stmts' hs hstmts
      simp [Block.infer, hs, ih]
  | ⟨stmts, some ⟨value, retSpan⟩, _, span, _⟩, _, ctx, tree, _, rfl, h => by
    cases hs : inferStmts mode scope stmts ctx tree with
    | stopped =>
      obtain ⟨stmts', value', rfl, hstmts, _⟩ :=
        Mode.Same.of_some (by simpa [Block.infer, hs] using h)
      have ih := inferStmts_again stmts stmts' hs hstmts
      simp [Block.infer, hs, ih]
    | done out tree₁ =>
      cases hv : value.consume mode scope out.2.expected (.returned retSpan out.2.span) tree₁
      all_goals
        obtain ⟨stmts', value', rfl, hstmts, hval⟩ :=
          Mode.Same.of_some (by simpa [Block.infer, hs, hv] using h)
        have ih := inferStmts_again stmts stmts' hs hstmts
        obtain ⟨_, ihv⟩ := Expr.consume_again hv hval
        simp [Block.infer, hs, hv, ih, ihv]
termination_by structural block => block
theorem inferStmts_again : ∀ (stmts again : List Stmt) {ctx : RoutineContext} {tree : ScopeTree}
    {outcome : Outcome ScopeTree (List Stmt) (List Stmt × RoutineContext)},
    inferStmts mode scope stmts ctx tree = outcome →
    mode.Same clearStmts again (outcome.left Prod.fst) →
    inferStmts mode scope again ctx tree = outcome.leaving (fun out => (again, out.2)) again
  | [], _, _, _, _, rfl, h => by
    obtain rfl := of_clearStmts_nil h.clear
    rfl
  | stmt :: stmts, _, ctx, tree, _, rfl, h => by
    cases hs : stmt.infer mode scope ctx tree with
    | stopped =>
      obtain ⟨stmt', stmts', rfl, hstmt, _⟩ :=
        Mode.Same.of_stmt (by simpa [inferStmts, hs] using h)
      have ih := Stmt.infer_again stmt stmt' hs hstmt
      simp [inferStmts, hs, ih]
    | done out tree₁ =>
      cases hr : inferStmts mode scope stmts out.2 tree₁
      all_goals
        obtain ⟨stmt', stmts', rfl, hstmt, hstmts⟩ :=
          Mode.Same.of_stmt (by simpa [inferStmts, hs, hr] using h)
        have ih := Stmt.infer_again stmt stmt' hs hstmt
        have ihr := inferStmts_again stmts stmts' hr hstmts
        simp [inferStmts, hs, hr, ih, ihr]
termination_by structural stmts => stmts
theorem inferBlocks_again : ∀ (blocks again : List Block) {ctx : RoutineContext} {tree : ScopeTree}
    {outcome : Outcome ScopeTree (List Block) (List Block × RoutineContext)},
    inferBlocks mode scope blocks ctx tree = outcome →
    mode.Same clearBlocks again (outcome.left Prod.fst) →
    inferBlocks mode scope again ctx tree = outcome.leaving (fun out => (again, out.2)) again
  | [], _, _, _, _, rfl, h => by
    obtain rfl := of_clearBlocks_nil h.clear
    rfl
  | block :: blocks, _, ctx, tree, _, rfl, h => by
    cases hb : block.infer mode scope ctx tree with
    | stopped =>
      obtain ⟨block', blocks', rfl, hblock, _⟩ :=
        Mode.Same.of_block (by simpa [inferBlocks, hb] using h)
      have ih := Block.infer_again block block' hb hblock
      simp [inferBlocks, hb, ih]
    | done out tree₁ =>
      cases hr : inferBlocks mode scope blocks out.2 tree₁
      all_goals
        obtain ⟨block', blocks', rfl, hblock, hblocks⟩ :=
          Mode.Same.of_block (by simpa [inferBlocks, hb, hr] using h)
        have ih := Block.infer_again block block' hb hblock
        have ihr := inferBlocks_again blocks blocks' hr hblocks
        simp [inferBlocks, hb, hr, ih, ihr]
termination_by structural blocks => blocks
end

end

end ScriptLang
