import ScriptLang.Proofs.Acceptance
import ScriptLang.Proofs.Repetition

/-!
# Lexical scoping

Names are bound with an arena of scopes that only grows. Here the same is told with a stack: there
is a frame for each routine and for the body of each `for` loop, taken off again when it ends, and a
name refers to the first declaration of it that is met from the top of the stack down. Binding goes
through if and only if the walk with the stack does, with the same handles and the same
declarations, and otherwise both stop with the same error.
-/

namespace ScriptLang

open Pass ScopeTree

/-! ## A walk with a stack of frames -/

/-- The variables of a routine or of a loop body, the latest first. -/
structure NameFrame where
  number : ScopeId
  entries : List (DeclId × VarDecl) := []

def NameFrame.find? (frame : NameFrame) (name : String) : Option (DeclId × VarDecl) :=
  frame.entries.find? fun entry => entry.2.name = name

/-- Where the walk has come to. -/
structure Scoping where
  /-- The frames, the innermost first. -/
  frames : List NameFrame := []
  /-- What has been declared so far, here and elsewhere. -/
  arena : List VarDecl := []
  /-- The number of the next frame; the built-ins and the functions have the first two. -/
  opened : ScopeId := 2

namespace Scoping

def lookup? (now : Scoping) (name : String) : Option DeclId :=
  now.frames.findSome? fun frame => (frame.find? name).map Prod.fst

def use (now : Scoping) (name : String) (span : Span) : Except Halt DeclId :=
  demand (now.lookup? name) (.error (.undeclaredVariable name span))

/-- Declares a variable in the innermost frame, which must not have one of that name. -/
def declare (now : Scoping) (name : String) (ty : Ty) (kind : DeclKind) (span : Span) :
    Except Halt (DeclId × Scoping) :=
  match now.frames with
  | [] => .error (.fault (.noScope now.opened))
  | frame :: outer =>
    match frame.find? name with
    | some (_, previous) => .error (.error (.illegalRedefine name span previous.span))
    | none =>
      let id := now.arena.length
      let var := { name, declared := ty, ty, kind, scope := frame.number, span }
      .ok (id, { now with
        frames := { frame with entries := (id, var) :: frame.entries } :: outer
        arena := now.arena ++ [var] })

def push (now : Scoping) : Scoping :=
  { now with frames := ⟨now.opened, []⟩ :: now.frames, opened := now.opened + 1 }

def pop (now : Scoping) : Scoping :=
  { now with frames := now.frames.tail }

end Scoping

mutual
def Expr.link (now : Scoping) : Expr → Except Halt Expr
  | .lit value span slot => return .lit value span slot
  | .var name _ span slot => return .var name (some (← now.use name span)) span slot
  | .call name args span slot => return .call name (← linkAll now args) span slot
def linkAll (now : Scoping) : List Expr → Except Halt (List Expr)
  | [] => return []
  | expr :: exprs => do
    let expr ← expr.link now
    return expr :: (← linkAll now exprs)
end

mutual
def Stmt.link : Stmt → Scoping → Except Halt (Stmt × Scoping)
  | .decl name ascription value span _, now => do
    let value ← value.link now
    let ty ← declaredType ascription
    let (id, now) ← now.declare name ty .localVar span
    return (.decl name ascription value span (some id), now)
  | .assign target value span _, now => do
    let value ← value.link now
    return (.assign target value span (some (← now.use target span)), now)
  | .branch conds blocks span, now => do
    if branchShapeFits conds.length blocks.length then
      let conds ← linkAll now conds
      let (blocks, now) ← linkBlocks blocks now
      return (.branch conds blocks span, now)
    else
      throw (.missing s!"branch with {conds.length} conditions and {blocks.length} blocks" span)
  | .forLoop var lo hi body span _, now => do
    let lo ← lo.link now
    let hi ← hi.link now
    let (id, inner) ← now.push.declare var .int .loopVar span
    let (body, inner) ← body.link (some now.opened) inner
    return (.forLoop var lo hi body span (some id), inner.pop)
  | .whileLoop cond body span, now => do
    let cond ← cond.link now
    let (body, now) ← body.link body.scope now
    return (.whileLoop cond body span, now)
  | .call value, now => return (.call (← value.link now), now)
/-- The statements of a block and its `return`; `own` is the number of its frame, if it has one. -/
def Block.link (own : Option ScopeId) : Block → Scoping → Except Halt (Block × Scoping)
  | ⟨stmts, ret, brk, span, _⟩, now => do
    let (stmts, now) ← linkStmts stmts now
    match ret with
    | none => return (⟨stmts, none, brk, span, own⟩, now)
    | some ⟨value, retSpan⟩ =>
      let value ← value.link now
      return (⟨stmts, some ⟨value, retSpan⟩, brk, span, own⟩, now)
def linkStmts : List Stmt → Scoping → Except Halt (List Stmt × Scoping)
  | [], now => return ([], now)
  | stmt :: stmts, now => do
    let (stmt, now) ← stmt.link now
    let (stmts, now) ← linkStmts stmts now
    return (stmt :: stmts, now)
def linkBlocks : List Block → Scoping → Except Halt (List Block × Scoping)
  | [], now => return ([], now)
  | block :: blocks, now => do
    let (block, now) ← block.link block.scope now
    let (blocks, now) ← linkBlocks blocks now
    return (block :: blocks, now)
end

def linkParams : List Param → Scoping → Except Halt (List Param × Scoping)
  | [], now => return ([], now)
  | param :: params, now => do
    let ty ← param.ty.resolve
    let (id, now) ← now.declare param.name ty .param param.span
    let (params, now) ← linkParams params now
    return ({ param with handle := some id } :: params, now)

def FnDef.link (fn : FnDef) (now : Scoping) : Except Halt (FnDef × Scoping) := do
  let (params, inner) ← linkParams fn.params now.push
  let (body, inner) ← fn.body.link (some now.opened) inner
  return ({ fn with params, body }, inner.pop)

def linkFunctions : List FnDef → Scoping → Except Halt (List FnDef × Scoping)
  | [], now => return ([], now)
  | fn :: fns, now => do
    let (fn, now) ← fn.link now
    let (fns, now) ← linkFunctions fns now
    return (fn :: fns, now)

/-- The unit with the handles that the walk gives out, and all that it declares. -/
def CompileUnit.link (unit : CompileUnit) : Except Halt (CompileUnit × List VarDecl) := do
  let (functions, now) ← linkFunctions unit.functions {}
  let (body, inner) ← unit.script.body.link (some now.opened) now.push
  return ({ unit with functions, script := { unit.script with body }, scope := some 1 },
    inner.arena)

/-! ## Frames and scopes -/

/-- The frame holds what the tree declares in the scope of that number. -/
def NameFrame.Shows (tree : ScopeTree) (frame : NameFrame) : Prop :=
  ∀ name, match frame.find? name with
    | some (id, var) =>
      tree.declaredIn? frame.number name = some id ∧ tree.decls[id]? = some var
    | none => tree.declaredIn? frame.number name = none

/-- The frames are the scopes on the way from a scope outwards, as far as they declare something. -/
inductive Chain (tree : ScopeTree) : ScopeId → List NameFrame → Prop where
  | nil {scope : ScopeId} (hlt : scope < tree.parents.length) (hs : tree.Sees scope []) :
    Chain tree scope []
  | cons {frame : NameFrame} {up : ScopeId} {frames : List NameFrame} (hf : frame.Shows tree)
    (hp : tree.parents[frame.number]? = some (some up)) (hc : Chain tree up frames) :
    Chain tree frame.number (frame :: frames)

section

variable {tree tree' : ScopeTree} {scope inner : Nat} {frames : List NameFrame}

theorem Chain.lt (h : Chain tree scope frames) : scope < tree.parents.length := by
  cases h with
  | nil hlt _ => exact hlt
  | cons _ hp _ => exact (List.getElem?_eq_some_iff.mp hp).1

theorem Chain.lookup (ha : tree.Arena) (h : Chain tree scope frames) (name : String) :
    tree.lookupVariable scope name =
      .ok (frames.findSome? fun frame => (frame.find? name).map Prod.fst) := by
  induction h with
  | nil _ hs => exact hs name
  | @cons frame up frames hf hp _ ih =>
    rw [lookupVariable_eq ha hp]
    have hshow := hf name
    cases he : frame.find? name with
    | none =>
      rw [he] at hshow
      simp [hshow, he, ih]
    | some entry =>
      rw [he] at hshow
      simp [hshow.1, he]

theorem NameFrame.Shows.of_grown {frame : NameFrame} (h : frame.Shows tree)
    (hg : Grown inner tree tree') (hi : frame.number ≠ inner)
    (hlt : frame.number < tree.parents.length) : frame.Shows tree' := by
  intro name
  obtain ⟨more, hm, hscope⟩ := hg.decls
  have hdecl : tree'.declaredIn? frame.number name = tree.declaredIn? frame.number name := by
    apply declaredIn?_append hm
    intro var hv he
    rcases hscope var hv with hs | hs
    · exact hi (he.1.symm.trans hs)
    · rw [he.1] at hs
      exact Nat.not_le_of_lt hlt hs
  have hshow := h name
  split at hshow
  · exact ⟨hdecl.trans hshow.1, hg.getElem?_decls hshow.2⟩
  · exact hdecl.trans hshow

theorem Chain.of_grown (ha : tree.Arena) (h : Chain tree scope frames) (hg : Grown inner tree tree')
    (hi : scope < inner) : Chain tree' scope frames := by
  induction h with
  | nil hlt hs => exact .nil (Nat.lt_of_lt_of_le hlt hg.length_parents) (hs.of_grown ha hlt hg hi)
  | @cons frame up frames hf hp hc ih =>
    have hlt := (List.getElem?_eq_some_iff.mp hp).1
    have hup := ha.ordered _ _ hp
    exact .cons (hf.of_grown hg (Nat.ne_of_lt hi) hlt) ((hg.parent_eq hlt).trans hp)
      (ih (Nat.lt_trans hup hi))

theorem NameFrame.Shows.declare {frame : NameFrame} {name : String} {ty : Ty} {kind : DeclKind}
    {span : Span} {id : DeclId} (h : frame.Shows tree)
    (hd : tree.declareVariable frame.number name ty kind span = .ok (id, tree')) :
    NameFrame.Shows tree' { frame with
      entries := (id, ⟨name, ty, ty, kind, frame.number, span⟩) :: frame.entries } := by
  intro name'
  by_cases hn : name' = name
  · subst hn
    obtain ⟨_, _, rfl, he⟩ := declareVariable_eq_ok.mp hd
    simp only [NameFrame.find?, List.find?_cons, decide_true]
    exact ⟨declaredIn?_declare_self hd, by simp [he]⟩
  · have hold := h name'
    have hskip : NameFrame.find? { frame with
        entries := (id, ⟨name, ty, ty, kind, frame.number, span⟩) :: frame.entries } name' =
          frame.find? name' := by
      simp [NameFrame.find?, Ne.symm hn]
    rw [hskip]
    cases he : frame.find? name' with
    | none =>
      rw [he] at hold
      exact (declaredIn?_declare_of_ne hd hn frame.number).trans hold
    | some entry =>
      rw [he] at hold
      exact ⟨(declaredIn?_declare_of_ne hd hn frame.number).trans hold.1,
        (grown_declare hd).getElem?_decls hold.2⟩

theorem Chain.newScope (ha : tree.Arena) (h : Chain tree scope frames) :
    Chain (tree.newScope scope).2 tree.parents.length (⟨tree.parents.length, []⟩ :: frames) := by
  have hshow : (NameFrame.mk tree.parents.length []).Shows (tree.newScope scope).2 :=
    fun name => declaredIn?_newScope ha scope name
  have hp : (tree.newScope scope).2.parents[tree.parents.length]? = some (some scope) := by
    simp [ScopeTree.newScope]
  exact .cons hshow hp (h.of_grown ha (grown_newScope tree.parents.length) h.lt)

end

/-! ## The walk and the tree -/

namespace Scoping

/-- The walk has come to the same place as the pass that binds names in `scope`. -/
structure Mirrors (now : Scoping) (scope : ScopeId) (tree : ScopeTree) : Prop where
  arena : tree.Arena
  decls : tree.decls = now.arena
  opened : tree.parents.length = now.opened
  chain : Chain tree scope now.frames

/-- From one place to another, with only the innermost frame changed. -/
structure Reaches (now : Scoping) (scope : ScopeId) (tree tree' : ScopeTree) (next : Scoping) :
    Prop where
  mirrors : next.Mirrors scope tree'
  grown : Grown scope tree tree'
  depth : next.frames.length = now.frames.length
  outer : next.frames.tail = now.frames.tail

variable {now next last : Scoping} {scope : Nat} {tree tree' tree'' : ScopeTree}

theorem Reaches.refl (h : now.Mirrors scope tree) : now.Reaches scope tree tree now :=
  ⟨h, .refl scope tree, rfl, rfl⟩

theorem Reaches.trans (h : now.Reaches scope tree tree' next)
    (k : next.Reaches scope tree' tree'' last) : now.Reaches scope tree tree'' last :=
  ⟨k.mirrors, h.grown.trans k.grown (Or.inl rfl), k.depth.trans h.depth, k.outer.trans h.outer⟩

theorem Mirrors.push (h : now.Mirrors scope tree) :
    now.push.Mirrors tree.parents.length (tree.newScope scope).2 := by
  refine ⟨arena_newScope h.arena h.chain.lt, h.decls, ?_, ?_⟩
  · simp [ScopeTree.newScope, Scoping.push, h.opened]
  · have hchain := h.chain.newScope h.arena
    simpa only [Scoping.push, ← h.opened] using hchain

/-- What was done with a frame on top is over when the frame is taken off. -/
theorem Reaches.pop (h : now.Mirrors scope tree)
    (k : now.push.Reaches tree.parents.length (tree.newScope scope).2 tree' next) :
    now.Reaches scope tree tree' next.pop := by
  have hframes : next.pop.frames = now.frames := k.outer
  have hchain := (h.chain.of_grown h.arena (grown_newScope tree.parents.length) h.chain.lt).of_grown
    (arena_newScope h.arena h.chain.lt) k.grown h.chain.lt
  refine ⟨⟨k.mirrors.arena, k.mirrors.decls, k.mirrors.opened, ?_⟩, ?_, ?_, ?_⟩
  · rw [hframes]
    exact hchain
  · exact (grown_newScope scope).trans k.grown (Or.inr (Nat.le_refl _))
  · rw [hframes]
  · rw [hframes]

theorem Mirrors.use (h : now.Mirrors scope tree) (name : String) (span : Span) :
    tree.resolveVariable scope name span = now.use name span := by
  unfold ScopeTree.resolveVariable
  rw [h.chain.lookup h.arena]
  rfl

end Scoping

/-! ## Passes and walks -/

/-- Both give a result, and the results fit together; or both stop for the same reason. -/
def Pass.Agrees (Q : α → ScopeTree → β → Prop) (tree : ScopeTree) (p : Pass ScopeTree ν α)
    (x : Except Halt β) : Prop :=
  match p tree, x with
  | .done a tree', .ok b => Q a tree' b
  | .stopped _ halt _, .error halt' => halt' = halt
  | _, _ => False

namespace Pass.Agrees

variable {Q : α → ScopeTree → β → Prop} {R : γ → ScopeTree → δ → Prop} {tree : ScopeTree}

theorem pure {a : α} {b : β} (h : Q a tree b) :
    Agrees Q tree (Pure.pure a : Pass ScopeTree ν α) (Pure.pure b) :=
  h

theorem within {p : Pass ScopeTree μ α} {x : Except Halt β} (h : Agrees Q tree p x)
    (rebuild : μ → ν) : Agrees Q tree (Pass.within rebuild p) x := by
  unfold Agrees at h ⊢
  rw [within_apply]
  cases hp : p tree <;> cases x <;> simp_all

theorem bind {p : Pass ScopeTree ν α} {f : α → Pass ScopeTree ν γ} {x : Except Halt β}
    {g : β → Except Halt δ} (h : Agrees Q tree p x)
    (hf : ∀ a tree' b, Q a tree' b → Agrees R tree' (f a) (g b)) :
    Agrees R tree (p >>= f) (x >>= g) := by
  unfold Agrees at h ⊢
  rw [bind_apply]
  cases hp : p tree with
  | done a tree' =>
    cases x with
    | ok b => exact hf a tree' b (by simpa [hp] using h)
    | error halt' => simp [hp] at h
  | stopped node halt tree' =>
    cases x with
    | ok b => simp [hp] at h
    | error halt' =>
      obtain rfl : halt' = halt := by simpa [hp] using h
      rfl

theorem ofExcept {node : ν} {x : Except Halt α} {f : α → Pass ScopeTree ν γ}
    {g : α → Except Halt δ} (hf : ∀ a, Agrees R tree (f a) (g a)) :
    Agrees R tree (Pass.ofExcept node x >>= f) (x >>= g) := by
  cases x with
  | ok a => exact hf a
  | error halt => rfl

theorem step {p : Pass ScopeTree ν α} {a : α} {tree' : ScopeTree} {f : α → Pass ScopeTree ν γ}
    {y : Except Halt δ} (hp : p tree = .done a tree') (h : Agrees R tree' (f a) y) :
    Agrees R tree (p >>= f) y := by
  unfold Agrees at h ⊢
  rwa [bind_apply, hp]

theorem openScope {scope : ScopeId} {f : ScopeId → Pass ScopeTree ν γ} {y : Except Halt δ}
    (h : Agrees R (tree.newScope scope).2 (f tree.parents.length) y) :
    Agrees R tree (ScriptLang.openScope scope >>= f) y :=
  .step rfl h

end Pass.Agrees

/-! ## Expressions -/

section

variable {now : Scoping} {scope : Nat} {tree : ScopeTree}

theorem Scoping.Mirrors.resolve {node : ν} {name : String} {span : Span}
    {f : DeclId → Pass ScopeTree ν γ} {g : DeclId → Except Halt δ} {R : γ → ScopeTree → δ → Prop}
    (h : now.Mirrors scope tree) (hf : ∀ id, Agrees R tree (f id) (g id)) :
    Agrees R tree (Pass.scopes >>= fun tree =>
      Pass.ofExcept node (tree.resolveVariable scope name span) >>= f)
      (now.use name span >>= g) := by
  have hof : Agrees R tree (Pass.ofExcept node (tree.resolveVariable scope name span) >>= f)
      (now.use name span >>= g) := by
    rw [h.use]
    exact .ofExcept hf
  exact hof

mutual
theorem Expr.bind_link (h : now.Mirrors scope tree) : ∀ expr : Expr,
    Agrees (fun bound tree' linked => linked = bound ∧ tree = tree') tree
      (expr.bind scope : Pass ScopeTree Expr Expr) (expr.link now)
  | .lit value span slot => .pure ⟨rfl, rfl⟩
  | .var name handle span slot => h.resolve fun _ => .pure ⟨rfl, rfl⟩
  | .call name args span slot => by
    refine .bind (.within (bindAll_link h args) _) ?_
    rintro args' _ _ ⟨rfl, rfl⟩
    exact .pure ⟨rfl, rfl⟩
theorem bindAll_link (h : now.Mirrors scope tree) : ∀ exprs : List Expr,
    Agrees (fun bound tree' linked => linked = bound ∧ tree = tree') tree
      (bindAll scope exprs : Pass ScopeTree (List Expr) (List Expr)) (linkAll now exprs)
  | [] => .pure ⟨rfl, rfl⟩
  | expr :: exprs => by
    refine .bind (.within (Expr.bind_link h expr) _) ?_
    rintro expr' _ _ ⟨rfl, rfl⟩
    refine .bind (.within (bindAll_link h exprs) _) ?_
    rintro exprs' _ _ ⟨rfl, rfl⟩
    exact .pure ⟨rfl, rfl⟩
end

end

/-! ## Statements -/

namespace Scoping

variable {now : Scoping} {scope : Nat} {tree : ScopeTree}

/-- The same node, and the walk keeps up with the pass. -/
def Linked (now : Scoping) (scope : ScopeId) (tree : ScopeTree) (bound : ν) (tree' : ScopeTree)
    (linked : ν × Scoping) : Prop :=
  linked.1 = bound ∧ now.Reaches scope tree tree' linked.2

theorem Mirrors.declare (h : now.Mirrors scope tree) (hin : 0 < now.frames.length) (node : ν)
    (name : String) (ty : Ty) (kind : DeclKind) (span : Span) :
    Agrees (now.Linked scope tree) tree
      (declareHere node scope name ty kind span : Pass ScopeTree ν DeclId)
      (now.declare name ty kind span) := by
  obtain ⟨frames, arena, opened⟩ := now
  obtain ⟨ha, rfl, rfl, hchain⟩ := h
  cases hchain with
  | nil => cases hin
  | @cons frame up outer hf hp hc =>
    have hlt := (List.getElem?_eq_some_iff.mp hp).1
    have hshow := hf name
    cases he : frame.find? name with
    | some entry =>
      rw [he] at hshow
      have hd : tree.declareVariable frame.number name ty kind span =
          .error (.error (.illegalRedefine name span entry.2.span)) := by
        simp only [ScopeTree.declareVariable, parent_eq_ok.mpr hp, hshow.1, Option.bind_some,
          ScopeTree.var?, hshow.2]
        rfl
      simp [Agrees, declareHere, hd, Scoping.declare, he]
    | none =>
      rw [he] at hshow
      have hd : tree.declareVariable frame.number name ty kind span =
          .ok (tree.decls.length, { tree with
            decls := tree.decls ++ [⟨name, ty, ty, kind, frame.number, span⟩] }) :=
        declareVariable_eq_ok.mpr ⟨hlt, hshow, rfl, rfl⟩
      have hg := grown_declare hd
      have hreach : Scoping.Reaches ⟨frame :: outer, tree.decls, tree.parents.length⟩ frame.number
          tree { tree with decls := tree.decls ++ [⟨name, ty, ty, kind, frame.number, span⟩] }
          ⟨{ frame with entries :=
              (tree.decls.length, ⟨name, ty, ty, kind, frame.number, span⟩) :: frame.entries } ::
            outer, tree.decls ++ [⟨name, ty, ty, kind, frame.number, span⟩],
            tree.parents.length⟩ :=
        ⟨⟨arena_declare hd ha, rfl, rfl,
            .cons (hf.declare hd) hp (hc.of_grown ha hg (ha.ordered _ _ hp))⟩,
          hg, rfl, rfl⟩
      simpa [Agrees, declareHere, hd, Scoping.declare, he, Scoping.Linked] using hreach

end Scoping

mutual
theorem Stmt.bind_link : ∀ (stmt : Stmt) {scope : Nat} {now : Scoping} {tree : ScopeTree},
    now.Mirrors scope tree → 0 < now.frames.length →
    Agrees (now.Linked scope tree) tree (stmt.bind scope : Pass ScopeTree Stmt Stmt) (stmt.link now)
  | .decl name _ value span _, _, _, _, h, hin => by
    refine .bind (.within (value.bind_link h) _) ?_
    rintro value' _ _ ⟨rfl, rfl⟩
    refine .ofExcept fun ty => .bind (h.declare hin _ name ty .localVar span) ?_
    rintro id tree' _ ⟨rfl, hreach⟩
    exact .pure ⟨rfl, hreach⟩
  | .assign _ value _ _, _, _, _, h, _ => by
    refine .bind (.within (value.bind_link h) _) ?_
    rintro value' _ _ ⟨rfl, rfl⟩
    exact h.resolve fun id => .pure ⟨rfl, .refl h⟩
  | .branch conds blocks _, _, _, _, h, hin => by
    unfold Stmt.bind Stmt.link
    split
    · refine .bind (.within (bindAll_link h conds) _) ?_
      rintro conds' _ _ ⟨rfl, rfl⟩
      refine .bind (.within (bindBlocks_link blocks h hin) _) ?_
      rintro blocks' tree' _ ⟨rfl, hreach⟩
      exact .pure ⟨rfl, hreach⟩
    · exact rfl
  | .forLoop var lo hi body span _, _, _, _, h, _ => by
    refine .bind (.within (lo.bind_link h) _) ?_
    rintro lo' _ _ ⟨rfl, rfl⟩
    refine .bind (.within (hi.bind_link h) _) ?_
    rintro hi' _ _ ⟨rfl, rfl⟩
    refine .openScope (.bind (h.push.declare (Nat.succ_pos _) _ var .int .loopVar span) ?_)
    rintro id tree₁ _ ⟨rfl, hvar⟩
    rw [← h.opened]
    refine .bind (.within (Block.bind_link body _ hvar.mirrors (hvar.depth ▸ Nat.succ_pos _)) _) ?_
    rintro body' tree₂ _ ⟨rfl, hbody⟩
    exact .pure ⟨rfl, .pop h (hvar.trans hbody)⟩
  | .whileLoop cond body _, scope, _, _, h, hin => by
    refine .bind (.within (cond.bind_link h) _) ?_
    rintro cond' _ _ ⟨rfl, rfl⟩
    refine .bind (.within (Block.bind_link body body.scope h hin) _) ?_
    rintro body' tree' _ ⟨rfl, hreach⟩
    exact .pure ⟨rfl, hreach⟩
  | .call value, _, _, _, h, _ => by
    refine .bind (.within (value.bind_link h) _) ?_
    rintro value' _ _ ⟨rfl, rfl⟩
    exact .pure ⟨rfl, .refl h⟩
theorem Block.bind_link : ∀ (block : Block) (own : Option ScopeId) {scope : Nat} {now : Scoping}
    {tree : ScopeTree}, now.Mirrors scope tree → 0 < now.frames.length →
    Agrees (now.Linked scope tree) tree (block.bind scope own : Pass ScopeTree Block Block)
      (block.link own now)
  | ⟨stmts, none, _, _, _⟩, _, _, _, _, h, hin => by
    refine .bind (.within (bindStmts_link stmts h hin) _) ?_
    rintro stmts' tree' _ ⟨rfl, hreach⟩
    exact .pure ⟨rfl, hreach⟩
  | ⟨stmts, some ⟨value, _⟩, _, _, _⟩, _, _, _, _, h, hin => by
    refine .bind (.within (bindStmts_link stmts h hin) _) ?_
    rintro stmts' tree' _ ⟨rfl, hreach⟩
    refine .bind (.within (value.bind_link hreach.mirrors) _) ?_
    rintro value' _ _ ⟨rfl, rfl⟩
    exact .pure ⟨rfl, hreach⟩
theorem bindStmts_link : ∀ (stmts : List Stmt) {scope : Nat} {now : Scoping} {tree : ScopeTree},
    now.Mirrors scope tree → 0 < now.frames.length →
    Agrees (now.Linked scope tree) tree
      (bindStmts scope stmts : Pass ScopeTree (List Stmt) (List Stmt)) (linkStmts stmts now)
  | [], _, _, _, h, _ => .pure ⟨rfl, .refl h⟩
  | stmt :: stmts, _, _, _, h, hin => by
    refine .bind (.within (Stmt.bind_link stmt h hin) _) ?_
    rintro stmt' tree' _ ⟨rfl, hreach⟩
    refine .bind (.within (bindStmts_link stmts hreach.mirrors (hreach.depth ▸ hin)) _) ?_
    rintro stmts' tree'' _ ⟨rfl, hreach'⟩
    exact .pure ⟨rfl, hreach.trans hreach'⟩
theorem bindBlocks_link : ∀ (blocks : List Block) {scope : Nat} {now : Scoping} {tree : ScopeTree},
    now.Mirrors scope tree → 0 < now.frames.length →
    Agrees (now.Linked scope tree) tree
      (bindBlocks scope blocks : Pass ScopeTree (List Block) (List Block)) (linkBlocks blocks now)
  | [], _, _, _, h, _ => .pure ⟨rfl, .refl h⟩
  | block :: blocks, scope, _, _, h, hin => by
    refine .bind (.within (Block.bind_link block block.scope h hin) _) ?_
    rintro block' tree' _ ⟨rfl, hreach⟩
    refine .bind (.within (bindBlocks_link blocks hreach.mirrors (hreach.depth ▸ hin)) _) ?_
    rintro blocks' tree'' _ ⟨rfl, hreach'⟩
    exact .pure ⟨rfl, hreach.trans hreach'⟩
end

/-! ## Units -/

theorem bindParams_link : ∀ (params : List Param) {scope : Nat} {now : Scoping} {tree : ScopeTree},
    now.Mirrors scope tree → 0 < now.frames.length →
    Agrees (now.Linked scope tree) tree
      (bindParams scope params : Pass ScopeTree (List Param) (List Param)) (linkParams params now)
  | [], _, _, _, h, _ => .pure ⟨rfl, .refl h⟩
  | param :: params, _, _, _, h, hin => by
    refine .ofExcept fun ty => .bind (h.declare hin _ param.name ty .param param.span) ?_
    rintro id tree' _ ⟨rfl, hreach⟩
    refine .bind (.within (bindParams_link params hreach.mirrors (hreach.depth ▸ hin)) _) ?_
    rintro params' tree'' _ ⟨rfl, hreach'⟩
    exact .pure ⟨rfl, hreach.trans hreach'⟩

theorem FnDef.bind_link (fn : FnDef) {unitScope : Nat} {now : Scoping} {tree : ScopeTree}
    (h : now.Mirrors unitScope tree) :
    Agrees (now.Linked unitScope tree) tree (fn.bind unitScope : Pass ScopeTree FnDef FnDef)
      (fn.link now) := by
  refine .openScope (.bind (.within (bindParams_link fn.params h.push (Nat.succ_pos _)) _) ?_)
  rintro params tree₁ _ ⟨rfl, hparams⟩
  rw [← h.opened]
  refine .bind (.within (fn.body.bind_link _ hparams.mirrors (hparams.depth ▸ Nat.succ_pos _)) _) ?_
  rintro body tree₂ _ ⟨rfl, hbody⟩
  exact .pure ⟨rfl, .pop h (hparams.trans hbody)⟩

theorem bindFunctions_link : ∀ (fns : List FnDef) {unitScope : Nat} {now : Scoping}
    {tree : ScopeTree}, now.Mirrors unitScope tree →
    Agrees (now.Linked unitScope tree) tree
      (bindFunctions unitScope fns : Pass ScopeTree (List FnDef) (List FnDef))
      (linkFunctions fns now)
  | [], _, _, _, h => .pure ⟨rfl, .refl h⟩
  | fn :: fns, _, _, _, h => by
    refine .bind (.within (fn.bind_link h) _) ?_
    rintro fn' tree' _ ⟨rfl, hreach⟩
    refine .bind (.within (bindFunctions_link fns hreach.mirrors) _) ?_
    rintro fns' tree'' _ ⟨rfl, hreach'⟩
    exact .pure ⟨rfl, hreach.trans hreach'⟩

/-- All signatures of the unit can be declared, one after the other. -/
def CompileUnit.Signed (unit : CompileUnit) : Prop :=
  ∃ ids tree, declareSignatures unit 1 unit.functions unitStart = .done ids tree

theorem Scoping.mirrors_start {tree : ScopeTree} (hp : tree.parents = [none, some root])
    (hd : tree.decls = []) : ({} : Scoping).Mirrors 1 tree := by
  have ha := arena_start hp hd
  have hlt : 1 < tree.parents.length := by simp [hp]
  exact ⟨ha, hd, by simp [hp], .nil hlt (sees_nil ha hd hlt)⟩

theorem CompileUnit.Signed.resolve_link {unit : CompileUnit} (h : unit.Signed) (tree : ScopeTree) :
    Agrees (fun out tree' linked =>
        linked.1 = out.1 ∧ tree'.decls = linked.2 ∧ out.2.scopes = tree')
      tree (unit.resolve : Pass ScopeTree CompileUnit (CompileUnit × Resolution)) unit.link := by
  obtain ⟨ids, tree₁, hd⟩ := h
  obtain ⟨_, _, users, _, rfl⟩ := declareSignatures_spec unit.functions unambiguous_unitStart hd
  have hopen : (openScope root : Pass ScopeTree CompileUnit ScopeId) .initial =
      .done 1 unitStart := by
    rw [initial_eq]
    rfl
  have hsigs := declareSignatures_again unit { unit with scope := some 1 } 1 unit.functions
    unit.functions unitStart rfl
  rw [hd] at hsigs
  refine .step rfl (.step hopen (.step hsigs ?_))
  refine .bind (.within (bindFunctions_link unit.functions (Scoping.mirrors_start rfl rfl)) _) ?_
  rintro functions tree₂ ⟨_, next⟩ ⟨rfl, hfns⟩
  dsimp only at hfns ⊢
  rw [← hfns.mirrors.opened]
  refine .openScope (.bind (.within (unit.script.body.bind_link _ hfns.mirrors.push
    (Nat.succ_pos _)) _) ?_)
  rintro body tree₃ _ ⟨rfl, hbody⟩
  exact .step rfl (.pure ⟨rfl, hbody.mirrors.decls, rfl⟩)

/-- Binding names is what the walk with the stack of frames does. -/
theorem resolve_lexical {unit : CompileUnit} (h : unit.Signed) :
    match unit.link with
    | .ok (linked, arena) => ∃ res, unit.resolveNames = ⟨linked, .ok res⟩ ∧
        res.scopes.decls = arena ∧ Numbered res.scopes 0 linked.sites ∧
        arena.length = linked.sites.length ∧ (∀ fn ∈ linked.functions, fn.Resolved) ∧
        linked.script.body.Resolved []
    | .error halt => unit.resolveNames.result = .error halt := by
  have hagree := h.resolve_link {}
  unfold Agrees at hagree
  cases hr : (unit.resolve : Pass ScopeTree CompileUnit (CompileUnit × Resolution)) {} with
  | stopped node halt tree =>
    have hrun : unit.resolveNames = ⟨node, .error halt⟩ := by
      simp only [CompileUnit.resolveNames, hr, Run.ofOutcome]
    cases hl : unit.link with
    | ok linked => simp [hr, hl] at hagree
    | error halt' =>
      obtain rfl : halt' = halt := by simpa [hr, hl] using hagree
      rw [hrun]
  | done out tree =>
    obtain ⟨bound, res⟩ := out
    have hrun : unit.resolveNames = ⟨bound, .ok res⟩ := by
      simp only [CompileUnit.resolveNames, hr, Run.ofOutcome]
    have hres := (CompileUnit.resolve_spec hr).1
    cases hl : unit.link with
    | error halt' => simp [hr, hl] at hagree
    | ok linked =>
      obtain ⟨linked, arena⟩ := linked
      obtain ⟨rfl, rfl, rfl⟩ : linked = bound ∧ tree.decls = arena ∧ res.scopes = tree := by
        simpa [hr, hl] using hagree
      exact ⟨res, hrun, rfl, hres.numbered, hres.length, hres.functions, hres.script⟩

/-- A loop hides `x`, its sibling does not, and the arm of a branch declares for what follows. -/
def nested : CompileUnit where
  functions := triangle.functions
  script :=
    { name := "main"
      body := {
        stmts := [
          .decl "x" none (.lit (.int 1)),
          .forLoop "i" (.lit (.int 0)) (.var "x") {
            stmts := [.decl "x" none (.var "i"), .assign "x" (.call "+" [.var "x", .var "i"])] },
          .forLoop "i" (.lit (.int 0)) (.var "x") { stmts := [.assign "x" (.var "i")] },
          .branch [.call "<" [.var "x", .lit (.int 9)]] [{ stmts := [.decl "y" none (.var "x")] }]]
        ret := some { value := .var "y" } } }

theorem resolve_lexical_nested :
    nested.Signed ∧ ∃ linked arena res, nested.link = .ok (linked, arena) ∧
      arena.map VarDecl.name = ["n", "x", "i", "x", "i", "y"] ∧
      nested.resolveNames = ⟨linked, .ok res⟩ ∧ res.scopes.decls = arena := by
  have hsigned : nested.Signed := by
    have hdone : (match declareSignatures nested 1 nested.functions unitStart with
        | .done _ _ => true
        | .stopped _ _ _ => false) = true := by
      decide +kernel
    unfold CompileUnit.Signed
    cases h : declareSignatures nested 1 nested.functions unitStart with
    | done ids tree => exact ⟨ids, tree, rfl⟩
    | stopped node halt tree =>
      rw [h] at hdone
      cases hdone
  have hrun : (match nested.link with
      | .error _ => false
      | .ok (_, arena) => arena.map VarDecl.name = ["n", "x", "i", "x", "i", "y"]) = true := by
    decide +kernel
  generalize nested = unit at hsigned hrun ⊢
  have hlex := resolve_lexical hsigned
  cases h : unit.link with
  | error halt =>
    rw [h] at hrun
    cases hrun
  | ok out =>
    obtain ⟨linked, arena⟩ := out
    simp only [h, decide_eq_true_eq] at hrun hlex
    obtain ⟨res, hres, hdecls, _⟩ := hlex
    exact ⟨hsigned, linked, arena, res, rfl, hrun, hres, hdecls⟩

end ScriptLang
