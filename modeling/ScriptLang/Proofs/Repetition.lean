import ScriptLang.Proofs.Resolution

/-!
# Passes repeated

A pass that is run again, from the same state, on the node that it left the first time ends in the
same way and changes nothing: what it writes is what stands there already. This holds whether the
first run went through or stopped in the middle.

Binding looks at the names and writes handles. So it may be repeated even on a node whose slots have
been filled in between.
-/

namespace ScriptLang

open Pass ScopeTree

variable {scope : ScopeId} {slot : TypeSlot}

variable {block : Block} {expr value : Expr} {blocks : List Block} {stmts : List Stmt}
  {handle : Option DeclId} {own : Option ScopeId} {span : Span} {stmt : Stmt} {name : String}

/-! ## Outcomes -/

namespace Outcome

variable {σ ν μ α β : Type}

/-- The same end with another node. -/
def leaving (put : α → β) (node : μ) : Outcome σ ν α → Outcome σ μ β
  | .done value state => .done (put value) state
  | .stopped _ halt state => .stopped node halt state

@[simp] theorem leaving_done (put : α → β) (node : μ) (value : α) (state : σ) :
    (done value state : Outcome σ ν α).leaving put node = .done (put value) state :=
  rfl

@[simp] theorem leaving_stopped (put : α → β) (node : μ) (part : ν) (halt : Halt) (state : σ) :
    (stopped part halt state).leaving put node = .stopped node halt state :=
  rfl

end Outcome

namespace Pass

variable {σ ν μ α β : Type}

@[simp] theorem bind_apply (p : Pass σ ν α) (f : α → Pass σ ν β) (s : σ) :
    (p >>= f) s = match p s with
      | .done a s => f a s
      | .stopped node halt s => .stopped node halt s :=
  rfl

@[simp] theorem within_apply (rebuild : μ → ν) (p : Pass σ μ α) (s : σ) :
    within rebuild p s = match p s with
      | .done a s => .done a s
      | .stopped part halt s => .stopped (rebuild part) halt s :=
  rfl

@[simp] theorem pure_apply (a : α) (s : σ) : (pure a : Pass σ ν α) s = .done a s :=
  rfl

@[simp] theorem stop_apply (node : ν) (halt : Halt) (s : σ) :
    (stop node halt : Pass σ ν α) s = .stopped node halt s :=
  rfl

@[simp] theorem ofExcept_ok (node : ν) (a : α) (s : σ) :
    ofExcept node (.ok a) s = .done a s :=
  rfl

@[simp] theorem ofExcept_error (node : ν) (halt : Halt) (s : σ) :
    (ofExcept node (.error halt) : Pass σ ν α) s = .stopped node halt s :=
  rfl

@[simp] theorem scopes_apply (tree : ScopeTree) :
    (scopes : Pass ScopeTree ν ScopeTree) tree = .done tree tree :=
  rfl

@[simp] theorem setScopes_apply (new tree : ScopeTree) :
    (setScopes new : Pass ScopeTree ν Unit) tree = .done () new :=
  rfl

@[simp] theorem note_apply (event : Event) (tree : ScopeTree) :
    (note event : Pass ScopeTree ν Unit) tree = .done () tree :=
  rfl

namespace Delivers

variable {view : α → ν} {P : ν → Prop}

theorem declareHere {node : ν} {name : String} {ty : Ty} {kind : DeclKind} {span : Span}
    {f : DeclId → Pass ScopeTree ν α} (h : P node)
    (hf : ∀ id, Delivers (fun _ => ()) view P (f id)) :
    Delivers (fun _ => ()) view P (ScriptLang.declareHere node scope name ty kind span >>= f) := by
  intro tree
  cases hd : tree.declareVariable scope name ty kind span with
  | error => simpa [ScriptLang.declareHere, hd] using h
  | ok entry => simpa [ScriptLang.declareHere, hd] using hf entry.1 entry.2

theorem openScope {f : ScopeId → Pass ScopeTree ν α}
    (hf : ∀ inner, Delivers (fun _ => ()) view P (f inner)) :
    Delivers (fun _ => ()) view P (ScriptLang.openScope scope >>= f) :=
  fun tree => hf _ (tree.newScope scope).2

end Delivers

end Pass

/-! ## Trees that differ in their slots -/

theorem Expr.of_clear_lit {value : Literal}
    (h : expr.clear true = (Expr.lit value span slot).clear true) :
    ∃ slot', expr = .lit value span slot' := by
  cases expr <;> simp_all [Expr.clear]

theorem Expr.of_clear_var (h : expr.clear true = (Expr.var name handle span slot).clear true) :
    ∃ slot', expr = .var name handle span slot' := by
  cases expr <;> simp_all [Expr.clear]

theorem Expr.of_clear_call {args : List Expr}
    (h : expr.clear true = (Expr.call name args span slot).clear true) :
    ∃ args' slot', expr = .call name args' span slot' ∧
      clearAll true args' = clearAll true args := by
  cases expr <;> simp_all [Expr.clear]

theorem of_clearAll_nil {exprs : List Expr} (h : clearAll true exprs = clearAll true []) :
    exprs = [] := by
  cases exprs <;> simp_all [clearAll]

theorem of_clearAll_cons {exprs rest : List Expr}
    (h : clearAll true exprs = clearAll true (expr :: rest)) :
    ∃ expr' rest', exprs = expr' :: rest' ∧ expr'.clear true = expr.clear true ∧
      clearAll true rest' = clearAll true rest := by
  cases exprs <;> simp_all [clearAll]

theorem Stmt.of_clear_decl {ascription : Option TypeExpr}
    (h : stmt.clear true = (Stmt.decl name ascription value span handle).clear true) :
    ∃ value', stmt = .decl name ascription value' span handle ∧
      value'.clear true = value.clear true := by
  cases stmt <;> simp_all [Stmt.clear]

theorem Stmt.of_clear_assign {target : String}
    (h : stmt.clear true = (Stmt.assign target value span handle).clear true) :
    ∃ value', stmt = .assign target value' span handle ∧
      value'.clear true = value.clear true := by
  cases stmt <;> simp_all [Stmt.clear]

theorem Stmt.of_clear_branch {conds : List Expr}
    (h : stmt.clear true = (Stmt.branch conds blocks span).clear true) :
    ∃ conds' blocks', stmt = .branch conds' blocks' span ∧
      clearAll true conds' = clearAll true conds ∧
      clearBlocks true blocks' = clearBlocks true blocks := by
  cases stmt <;> simp_all [Stmt.clear]

theorem Stmt.of_clear_forLoop {var : String} {lo hi : Expr} {body : Block}
    (h : stmt.clear true = (Stmt.forLoop var lo hi body span handle).clear true) :
    ∃ lo' hi' body', stmt = .forLoop var lo' hi' body' span handle ∧
      lo'.clear true = lo.clear true ∧ hi'.clear true = hi.clear true ∧
      body'.clear true = body.clear true := by
  cases stmt <;> simp_all [Stmt.clear]

theorem Stmt.of_clear_whileLoop {cond : Expr} {body : Block}
    (h : stmt.clear true = (Stmt.whileLoop cond body span).clear true) :
    ∃ cond' body', stmt = .whileLoop cond' body' span ∧ cond'.clear true = cond.clear true ∧
      body'.clear true = body.clear true := by
  cases stmt <;> simp_all [Stmt.clear]

theorem Stmt.of_clear_call (h : stmt.clear true = (Stmt.call value).clear true) :
    ∃ value', stmt = .call value' ∧ value'.clear true = value.clear true := by
  cases stmt <;> simp_all [Stmt.clear]

theorem Block.of_clear_none {brk : Option Break}
    (h : block.clear true = (Block.mk stmts none brk span own).clear true) :
    ∃ stmts', block = ⟨stmts', none, brk, span, own⟩ ∧
      clearStmts true stmts' = clearStmts true stmts := by
  obtain ⟨stmts', ret', brk', span', own'⟩ := block
  cases ret' <;> simp_all [Block.clear]

theorem Block.of_clear_some {retSpan : Span} {brk : Option Break}
    (h : block.clear true = (Block.mk stmts (some ⟨value, retSpan⟩) brk span own).clear true) :
    ∃ stmts' value', block = ⟨stmts', some ⟨value', retSpan⟩, brk, span, own⟩ ∧
      clearStmts true stmts' = clearStmts true stmts ∧ value'.clear true = value.clear true := by
  obtain ⟨stmts', ret', brk', span', own'⟩ := block
  rcases ret' with _ | ⟨value', retSpan'⟩ <;> simp_all [Block.clear, Return.clear]

theorem of_clearStmts_nil (h : clearStmts true stmts = clearStmts true []) : stmts = [] := by
  cases stmts <;> simp_all [clearStmts]

theorem of_clearStmts_cons {rest : List Stmt}
    (h : clearStmts true stmts = clearStmts true (stmt :: rest)) :
    ∃ stmt' rest', stmts = stmt' :: rest' ∧ stmt'.clear true = stmt.clear true ∧
      clearStmts true rest' = clearStmts true rest := by
  cases stmts <;> simp_all [clearStmts]

theorem of_clearBlocks_nil (h : clearBlocks true blocks = clearBlocks true []) : blocks = [] := by
  cases blocks <;> simp_all [clearBlocks]

theorem of_clearBlocks_cons {rest : List Block}
    (h : clearBlocks true blocks = clearBlocks true (block :: rest)) :
    ∃ block' rest', blocks = block' :: rest' ∧ block'.clear true = block.clear true ∧
      clearBlocks true rest' = clearBlocks true rest := by
  cases blocks <;> simp_all [clearBlocks]

/-! ## Binding changes handles only -/

/-- `after` reads as `before` does, and no slot of it has been filled. -/
def Rebound (clear : Bool → ν → ν) (before after : ν) : Prop :=
  clear false after = clear false before ∧ (clear true before = before → clear true after = after)

mutual
theorem Expr.bind_delivers (scope : ScopeId) : ∀ expr : Expr,
    Delivers (fun _ => ()) id (Rebound Expr.clear expr) (expr.bind scope : Pass ScopeTree Expr Expr)
  | .lit .. => .pure ⟨rfl, id⟩
  | .var name handle span slot =>
    .scopes fun _ => .ofExcept ⟨rfl, id⟩ fun _ => .pure ⟨rfl, by simp [Expr.clear]⟩
  | .call name args span slot => by
    have hrebuild : ∀ args', Rebound clearAll args args' →
        Rebound Expr.clear (.call name args span slot) (.call name args' span slot) := by
      intro args' h
      simp_all [Rebound, Expr.clear]
    exact .within (bindAll_delivers scope args) hrebuild fun args' h => .pure (hrebuild args' h)
theorem bindAll_delivers (scope : ScopeId) : ∀ exprs : List Expr,
    Delivers (fun _ => ()) id (Rebound clearAll exprs)
      (bindAll scope exprs : Pass ScopeTree (List Expr) (List Expr))
  | [] => .pure ⟨rfl, id⟩
  | expr :: exprs => by
    have hrebuild : ∀ expr' exprs', Rebound Expr.clear expr expr' → Rebound clearAll exprs exprs' →
        Rebound clearAll (expr :: exprs) (expr' :: exprs') := by
      intro expr' exprs' h hs
      simp_all [Rebound, clearAll]
    exact .within (Expr.bind_delivers scope expr) (fun expr' h => hrebuild expr' exprs h ⟨rfl, id⟩)
      fun expr' h => .within (bindAll_delivers scope exprs)
        (fun exprs' hs => hrebuild expr' exprs' h hs)
        fun exprs' hs => .pure (hrebuild expr' exprs' h hs)
end

mutual
theorem Stmt.bind_delivers : ∀ (stmt : Stmt) (scope : ScopeId),
    Delivers (fun _ => ()) id (Rebound Stmt.clear stmt) (stmt.bind scope : Pass ScopeTree Stmt Stmt)
  | .decl name ascription value span handle, scope => by
    have hrebuild : ∀ value' handle', Rebound Expr.clear value value' → Rebound Stmt.clear
        (.decl name ascription value span handle) (.decl name ascription value' span handle') := by
      intro value' handle' h
      simp_all [Rebound, Stmt.clear]
    exact .within (value.bind_delivers scope) (fun value' h => hrebuild value' handle h)
      fun value' h => .ofExcept (hrebuild value' handle h)
        fun _ => .declareHere (hrebuild value' handle h) fun id => .pure (hrebuild value' id h)
  | .assign target value span handle, scope => by
    have hrebuild : ∀ value' handle', Rebound Expr.clear value value' → Rebound Stmt.clear
        (.assign target value span handle) (.assign target value' span handle') := by
      intro value' handle' h
      simp_all [Rebound, Stmt.clear]
    exact .within (value.bind_delivers scope) (fun value' h => hrebuild value' handle h)
      fun value' h => .scopes fun _ => .ofExcept (hrebuild value' handle h)
        fun id => .pure (hrebuild value' id h)
  | .branch conds blocks span, scope => by
    have hrebuild : ∀ conds' blocks', Rebound clearAll conds conds' →
        Rebound clearBlocks blocks blocks' →
        Rebound Stmt.clear (.branch conds blocks span) (.branch conds' blocks' span) := by
      intro conds' blocks' hc hb
      simp_all [Rebound, Stmt.clear]
    unfold Stmt.bind
    split
    · exact .within (bindAll_delivers scope conds)
        (fun conds' hc => hrebuild conds' blocks hc ⟨rfl, id⟩)
        fun conds' hc => .within (bindBlocks_delivers blocks scope)
          (fun blocks' hb => hrebuild conds' blocks' hc hb)
          fun blocks' hb => .pure (hrebuild conds' blocks' hc hb)
    · exact .stop ⟨rfl, id⟩ _
  | .forLoop var lo hi body span handle, scope => by
    have hrebuild : ∀ lo' hi' body' handle', Rebound Expr.clear lo lo' → Rebound Expr.clear hi hi' →
        Rebound Block.clear body body' → Rebound Stmt.clear (.forLoop var lo hi body span handle)
          (.forLoop var lo' hi' body' span handle') := by
      intro lo' hi' body' handle' hl hh hb
      simp_all [Rebound, Stmt.clear]
    exact .within (lo.bind_delivers scope)
      (fun lo' hl => hrebuild lo' hi body handle hl ⟨rfl, id⟩ ⟨rfl, id⟩)
      fun lo' hl => .within (hi.bind_delivers scope)
        (fun hi' hh => hrebuild lo' hi' body handle hl hh ⟨rfl, id⟩)
        fun hi' hh => .openScope fun inner =>
          .declareHere (hrebuild lo' hi' body handle hl hh ⟨rfl, id⟩) fun i =>
          .within (Block.bind_delivers body inner (some inner))
            (fun body' hb => hrebuild lo' hi' body' (some i) hl hh hb)
            fun body' hb => .pure (hrebuild lo' hi' body' (some i) hl hh hb)
  | .whileLoop cond body span, scope => by
    have hrebuild : ∀ cond' body', Rebound Expr.clear cond cond' → Rebound Block.clear body body' →
        Rebound Stmt.clear (.whileLoop cond body span) (.whileLoop cond' body' span) := by
      intro cond' body' hc hb
      simp_all [Rebound, Stmt.clear]
    exact .within (cond.bind_delivers scope) (fun cond' hc => hrebuild cond' body hc ⟨rfl, id⟩)
      fun cond' hc => .within (Block.bind_delivers body scope body.scope)
        (fun body' hb => hrebuild cond' body' hc hb)
        fun body' hb => .pure (hrebuild cond' body' hc hb)
  | .call value, scope => by
    have hrebuild : ∀ value', Rebound Expr.clear value value' →
        Rebound Stmt.clear (.call value) (.call value') := by
      intro value' h
      simp_all [Rebound, Stmt.clear]
    exact .within (value.bind_delivers scope) hrebuild fun value' h => .pure (hrebuild value' h)
theorem Block.bind_delivers : ∀ (block : Block) (scope : ScopeId) (own : Option ScopeId),
    Delivers (fun _ => ()) id (Rebound Block.clear block)
      (block.bind scope own : Pass ScopeTree Block Block)
  | ⟨stmts, none, brk, span, mark⟩, scope, own => by
    have hrebuild : ∀ stmts', Rebound clearStmts stmts stmts' → Rebound Block.clear
        ⟨stmts, none, brk, span, mark⟩ ⟨stmts', none, brk, span, own⟩ := by
      intro stmts' h
      simp_all [Rebound, Block.clear]
    exact .within (bindStmts_delivers stmts scope) hrebuild
      fun stmts' h => .pure (hrebuild stmts' h)
  | ⟨stmts, some ⟨value, retSpan⟩, brk, span, mark⟩, scope, own => by
    have hrebuild : ∀ stmts' value', Rebound clearStmts stmts stmts' →
        Rebound Expr.clear value value' → Rebound Block.clear
          ⟨stmts, some ⟨value, retSpan⟩, brk, span, mark⟩
          ⟨stmts', some ⟨value', retSpan⟩, brk, span, own⟩ := by
      intro stmts' value' hs hv
      simp_all [Rebound, Block.clear, Return.clear]
    exact .within (bindStmts_delivers stmts scope)
      (fun stmts' hs => hrebuild stmts' value hs ⟨rfl, id⟩)
      fun stmts' hs => .within (value.bind_delivers scope)
        (fun value' hv => hrebuild stmts' value' hs hv)
        fun value' hv => .pure (hrebuild stmts' value' hs hv)
theorem bindStmts_delivers : ∀ (stmts : List Stmt) (scope : ScopeId),
    Delivers (fun _ => ()) id (Rebound clearStmts stmts)
      (bindStmts scope stmts : Pass ScopeTree (List Stmt) (List Stmt))
  | [], _ => .pure ⟨rfl, id⟩
  | stmt :: stmts, scope => by
    have hrebuild : ∀ stmt' stmts', Rebound Stmt.clear stmt stmt' →
        Rebound clearStmts stmts stmts' →
        Rebound clearStmts (stmt :: stmts) (stmt' :: stmts') := by
      intro stmt' stmts' h hs
      simp_all [Rebound, clearStmts]
    exact .within (Stmt.bind_delivers stmt scope) (fun stmt' h => hrebuild stmt' stmts h ⟨rfl, id⟩)
      fun stmt' h => .within (bindStmts_delivers stmts scope)
        (fun stmts' hs => hrebuild stmt' stmts' h hs)
        fun stmts' hs => .pure (hrebuild stmt' stmts' h hs)
theorem bindBlocks_delivers : ∀ (blocks : List Block) (scope : ScopeId),
    Delivers (fun _ => ()) id (Rebound clearBlocks blocks)
      (bindBlocks scope blocks : Pass ScopeTree (List Block) (List Block))
  | [], _ => .pure ⟨rfl, id⟩
  | block :: blocks, scope => by
    have hrebuild : ∀ block' blocks', Rebound Block.clear block block' →
        Rebound clearBlocks blocks blocks' →
        Rebound clearBlocks (block :: blocks) (block' :: blocks') := by
      intro block' blocks' h hs
      simp_all [Rebound, clearBlocks]
    exact .within (Block.bind_delivers block scope block.scope)
      (fun block' h => hrebuild block' blocks h ⟨rfl, id⟩)
      fun block' h => .within (bindBlocks_delivers blocks scope)
        (fun blocks' hs => hrebuild block' blocks' h hs)
        fun blocks' hs => .pure (hrebuild block' blocks' h hs)
end

/-! ## Binding -/

mutual
theorem Expr.bind_again (scope : ScopeId) (tree : ScopeTree) : ∀ expr again : Expr,
    again.clear true = ((expr.bind scope tree).left id).clear true →
    again.bind scope tree = (expr.bind scope tree).leaving (fun _ => again) again
  | .lit .., _, h => by
    obtain ⟨slot', rfl⟩ := Expr.of_clear_lit h
    rfl
  | .var name _ span _, _, h => by
    cases hv : tree.resolveVariable scope name span
    all_goals
      obtain ⟨slot', rfl⟩ := Expr.of_clear_var (by simpa [Expr.bind, hv] using h)
      simp [Expr.bind, hv]
  | .call _ args _ _, _, h => by
    cases ha : bindAll scope args tree
    all_goals
      obtain ⟨args', slot', rfl, hargs⟩ := Expr.of_clear_call (by simpa [Expr.bind, ha] using h)
      have ih := bindAll_again scope tree args args' (by simpa [ha] using hargs)
      simp [Expr.bind, ha, ih]
theorem bindAll_again (scope : ScopeId) (tree : ScopeTree) : ∀ exprs again : List Expr,
    clearAll true again = clearAll true ((bindAll scope exprs tree).left id) →
    bindAll scope again tree = (bindAll scope exprs tree).leaving (fun _ => again) again
  | [], _, h => by
    obtain rfl := of_clearAll_nil h
    rfl
  | expr :: exprs, _, h => by
    cases he : expr.bind scope tree with
    | stopped =>
      obtain ⟨expr', exprs', rfl, hexpr, _⟩ := of_clearAll_cons (by simpa [bindAll, he] using h)
      have ih := Expr.bind_again scope tree expr expr' (by simpa [he] using hexpr)
      simp [bindAll, he, ih]
    | done expr₁ tree₁ =>
      cases hes : bindAll scope exprs tree₁
      all_goals
        obtain ⟨expr', exprs', rfl, hexpr, hexprs⟩ :=
          of_clearAll_cons (by simpa [bindAll, he, hes] using h)
        have ih := Expr.bind_again scope tree expr expr' (by simpa [he] using hexpr)
        have ihs := bindAll_again scope tree₁ exprs exprs' (by simpa [hes] using hexprs)
        simp [bindAll, he, hes, ih, ihs]
end

theorem length_bindAll_left (scope : ScopeId) (exprs : List Expr) (tree : ScopeTree) :
    ((bindAll scope exprs tree).left id).length = exprs.length :=
  length_eq_of_clearAll (bindAll_delivers scope exprs tree).1.1

theorem length_bindBlocks_left (scope : ScopeId) (blocks : List Block) (tree : ScopeTree) :
    ((bindBlocks scope blocks tree).left id).length = blocks.length :=
  length_eq_of_clearBlocks (bindBlocks_delivers blocks scope tree).1.1

theorem Block.scope_bind_left (block : Block) (scope : ScopeId) (own : Option ScopeId)
    (tree : ScopeTree) : ((block.bind scope own tree).left id).scope = own := by
  obtain ⟨stmts, ret, brk, span, mark⟩ := block
  cases hs : bindStmts scope stmts tree with
  | stopped => simp [Block.bind, hs]
  | done stmts₁ tree₁ =>
    cases ret with
    | none => simp [Block.bind, hs]
    | some r => cases hv : r.value.bind scope tree₁ <;> simp [Block.bind, hs, hv]

theorem Block.scope_of_clear {other : Block} (h : block.clear true = other.clear true) :
    block.scope = other.scope := by
  obtain ⟨stmts, ret, brk, span, mark⟩ := block
  obtain ⟨stmts', ret', brk', span', mark'⟩ := other
  simp only [Block.clear, Block.mk.injEq, kept_true] at h
  exact h.2.2.2.2

theorem Block.scope_again {again : Block} {tree : ScopeTree}
    (h : again.clear true = ((block.bind scope own tree).left id).clear true) : again.scope = own :=
  (Block.scope_of_clear h).trans (block.scope_bind_left scope own tree)

mutual
theorem Stmt.bind_again : ∀ (stmt again : Stmt) (scope : ScopeId) (tree : ScopeTree),
    again.clear true = ((stmt.bind scope tree).left id).clear true →
    again.bind scope tree = (stmt.bind scope tree).leaving (fun _ => again) again
  | .decl name ascription value span _, _, scope, tree, h => by
    cases hv : value.bind scope tree with
    | stopped =>
      obtain ⟨value', rfl, hval⟩ := Stmt.of_clear_decl (by simpa [Stmt.bind, hv] using h)
      have ih := value.bind_again scope tree value' (by simpa [hv] using hval)
      simp [Stmt.bind, hv, ih]
    | done value₁ tree₁ =>
      cases ht : declaredType ascription with
      | error =>
        obtain ⟨value', rfl, hval⟩ := Stmt.of_clear_decl (by simpa [Stmt.bind, hv, ht] using h)
        have ih := value.bind_again scope tree value' (by simpa [hv] using hval)
        simp [Stmt.bind, hv, ht, ih]
      | ok ty =>
        cases hd : tree₁.declareVariable scope name ty .localVar span
        all_goals
          obtain ⟨value', rfl, hval⟩ :=
            Stmt.of_clear_decl (by simpa [Stmt.bind, declareHere, hv, ht, hd] using h)
          have ih := value.bind_again scope tree value' (by simpa [hv] using hval)
          simp [Stmt.bind, declareHere, hv, ht, hd, ih]
  | .assign target value span _, _, scope, tree, h => by
    cases hv : value.bind scope tree with
    | stopped =>
      obtain ⟨value', rfl, hval⟩ := Stmt.of_clear_assign (by simpa [Stmt.bind, hv] using h)
      have ih := value.bind_again scope tree value' (by simpa [hv] using hval)
      simp [Stmt.bind, hv, ih]
    | done value₁ tree₁ =>
      cases hl : tree₁.resolveVariable scope target span
      all_goals
        obtain ⟨value', rfl, hval⟩ := Stmt.of_clear_assign (by simpa [Stmt.bind, hv, hl] using h)
        have ih := value.bind_again scope tree value' (by simpa [hv] using hval)
        simp [Stmt.bind, hv, hl, ih]
  | .branch conds blocks _, _, scope, tree, h => by
    by_cases hfit : branchShapeFits conds.length blocks.length = true
    · cases hc : bindAll scope conds tree with
      | stopped conds₁ halt tree₁ =>
        obtain ⟨conds', blocks', rfl, hconds, hblocks⟩ :=
          Stmt.of_clear_branch (by simpa [Stmt.bind, hfit, hc] using h)
        have hlc := (length_eq_of_clearAll hconds).trans
          (by simpa [hc] using length_bindAll_left scope conds tree)
        have ih := bindAll_again scope tree conds conds' (by simpa [hc] using hconds)
        simp [Stmt.bind, hlc, length_eq_of_clearBlocks hblocks, hfit, hc, ih]
      | done conds₁ tree₁ =>
        cases hb : bindBlocks scope blocks tree₁
        all_goals
          obtain ⟨conds', blocks', rfl, hconds, hblocks⟩ :=
            Stmt.of_clear_branch (by simpa [Stmt.bind, hfit, hc, hb] using h)
          have hlc := (length_eq_of_clearAll hconds).trans
            (by simpa [hc] using length_bindAll_left scope conds tree)
          have hlb := (length_eq_of_clearBlocks hblocks).trans
            (by simpa [hb] using length_bindBlocks_left scope blocks tree₁)
          have ih := bindAll_again scope tree conds conds' (by simpa [hc] using hconds)
          have ihb := bindBlocks_again blocks blocks' scope tree₁ (by simpa [hb] using hblocks)
          simp [Stmt.bind, hlc, hlb, hfit, hc, hb, ih, ihb]
    · obtain ⟨conds', blocks', rfl, hconds, hblocks⟩ :=
        Stmt.of_clear_branch (by simpa [Stmt.bind, hfit] using h)
      simp [Stmt.bind, length_eq_of_clearAll hconds, length_eq_of_clearBlocks hblocks, hfit]
  | .forLoop var lo hi body span _, _, scope, tree, h => by
    cases hl : lo.bind scope tree with
    | stopped =>
      obtain ⟨lo', hi', body', rfl, hlo, _⟩ :=
        Stmt.of_clear_forLoop (by simpa [Stmt.bind, hl] using h)
      have ihl := lo.bind_again scope tree lo' (by simpa [hl] using hlo)
      simp [Stmt.bind, hl, ihl]
    | done lo₁ tree₁ =>
      cases hh : hi.bind scope tree₁ with
      | stopped =>
        obtain ⟨lo', hi', body', rfl, hlo, hhi, _⟩ :=
          Stmt.of_clear_forLoop (by simpa [Stmt.bind, hl, hh] using h)
        have ihl := lo.bind_again scope tree lo' (by simpa [hl] using hlo)
        have ihh := hi.bind_again scope tree₁ hi' (by simpa [hh] using hhi)
        simp [Stmt.bind, hl, hh, ihl, ihh]
      | done hi₁ tree₂ =>
        rcases hn : tree₂.newScope scope with ⟨inner, tree₃⟩
        cases hd : tree₃.declareVariable inner var .int .loopVar span with
        | error =>
          obtain ⟨lo', hi', body', rfl, hlo, hhi, _⟩ := Stmt.of_clear_forLoop
            (by simpa [Stmt.bind, openScope, declareHere, hl, hh, hn, hd] using h)
          have ihl := lo.bind_again scope tree lo' (by simpa [hl] using hlo)
          have ihh := hi.bind_again scope tree₁ hi' (by simpa [hh] using hhi)
          simp [Stmt.bind, openScope, declareHere, hl, hh, hn, hd, ihl, ihh]
        | ok entry =>
          cases hb : body.bind inner (some inner) entry.2
          all_goals
            obtain ⟨lo', hi', body', rfl, hlo, hhi, hbody⟩ := Stmt.of_clear_forLoop
              (by simpa [Stmt.bind, openScope, declareHere, hl, hh, hn, hd, hb] using h)
            have ihl := lo.bind_again scope tree lo' (by simpa [hl] using hlo)
            have ihh := hi.bind_again scope tree₁ hi' (by simpa [hh] using hhi)
            have ihb := Block.bind_again body body' inner (some inner) entry.2
              (by simpa [hb] using hbody)
            simp [Stmt.bind, openScope, declareHere, hl, hh, hn, hd, hb, ihl, ihh, ihb]
  | .whileLoop cond body _, _, scope, tree, h => by
    cases hc : cond.bind scope tree with
    | stopped =>
      obtain ⟨cond', body', rfl, hcond, _⟩ :=
        Stmt.of_clear_whileLoop (by simpa [Stmt.bind, hc] using h)
      have ih := cond.bind_again scope tree cond' (by simpa [hc] using hcond)
      simp [Stmt.bind, hc, ih]
    | done cond₁ tree₁ =>
      cases hb : body.bind scope body.scope tree₁
      all_goals
        obtain ⟨cond', body', rfl, hcond, hbody⟩ :=
          Stmt.of_clear_whileLoop (by simpa [Stmt.bind, hc, hb] using h)
        have ih := cond.bind_again scope tree cond' (by simpa [hc] using hcond)
        have hleft : body'.clear true =
            ((body.bind scope body.scope tree₁).left id).clear true := by simpa [hb] using hbody
        have ihb := Block.bind_again body body' scope body.scope tree₁ hleft
        simp [Stmt.bind, Block.scope_again hleft, hc, hb, ih, ihb]
  | .call value, _, scope, tree, h => by
    cases hv : value.bind scope tree
    all_goals
      obtain ⟨value', rfl, hval⟩ := Stmt.of_clear_call (by simpa [Stmt.bind, hv] using h)
      have ih := value.bind_again scope tree value' (by simpa [hv] using hval)
      simp [Stmt.bind, hv, ih]
theorem Block.bind_again : ∀ (block again : Block) (scope : ScopeId) (own : Option ScopeId)
    (tree : ScopeTree), again.clear true = ((block.bind scope own tree).left id).clear true →
    again.bind scope own tree = (block.bind scope own tree).leaving (fun _ => again) again
  | ⟨stmts, none, _, _, _⟩, _, scope, _, tree, h => by
    cases hs : bindStmts scope stmts tree
    all_goals
      obtain ⟨stmts', rfl, hstmts⟩ := Block.of_clear_none (by simpa [Block.bind, hs] using h)
      have ih := bindStmts_again stmts stmts' scope tree (by simpa [hs] using hstmts)
      simp [Block.bind, hs, ih]
  | ⟨stmts, some ⟨value, _⟩, _, _, _⟩, _, scope, _, tree, h => by
    cases hs : bindStmts scope stmts tree with
    | stopped =>
      obtain ⟨stmts', value', rfl, hstmts, _⟩ :=
        Block.of_clear_some (by simpa [Block.bind, hs] using h)
      have ih := bindStmts_again stmts stmts' scope tree (by simpa [hs] using hstmts)
      simp [Block.bind, hs, ih]
    | done stmts₁ tree₁ =>
      cases hv : value.bind scope tree₁
      all_goals
        obtain ⟨stmts', value', rfl, hstmts, hval⟩ :=
          Block.of_clear_some (by simpa [Block.bind, hs, hv] using h)
        have ih := bindStmts_again stmts stmts' scope tree (by simpa [hs] using hstmts)
        have ihv := value.bind_again scope tree₁ value' (by simpa [hv] using hval)
        simp [Block.bind, hs, hv, ih, ihv]
theorem bindStmts_again : ∀ (stmts again : List Stmt) (scope : ScopeId) (tree : ScopeTree),
    clearStmts true again = clearStmts true ((bindStmts scope stmts tree).left id) →
    bindStmts scope again tree = (bindStmts scope stmts tree).leaving (fun _ => again) again
  | [], _, _, _, h => by
    obtain rfl := of_clearStmts_nil h
    rfl
  | stmt :: stmts, _, scope, tree, h => by
    cases hs : stmt.bind scope tree with
    | stopped =>
      obtain ⟨stmt', stmts', rfl, hstmt, _⟩ :=
        of_clearStmts_cons (by simpa [bindStmts, hs] using h)
      have ih := Stmt.bind_again stmt stmt' scope tree (by simpa [hs] using hstmt)
      simp [bindStmts, hs, ih]
    | done stmt₁ tree₁ =>
      cases hr : bindStmts scope stmts tree₁
      all_goals
        obtain ⟨stmt', stmts', rfl, hstmt, hstmts⟩ :=
          of_clearStmts_cons (by simpa [bindStmts, hs, hr] using h)
        have ih := Stmt.bind_again stmt stmt' scope tree (by simpa [hs] using hstmt)
        have ihs := bindStmts_again stmts stmts' scope tree₁ (by simpa [hr] using hstmts)
        simp [bindStmts, hs, hr, ih, ihs]
theorem bindBlocks_again : ∀ (blocks again : List Block) (scope : ScopeId) (tree : ScopeTree),
    clearBlocks true again = clearBlocks true ((bindBlocks scope blocks tree).left id) →
    bindBlocks scope again tree = (bindBlocks scope blocks tree).leaving (fun _ => again) again
  | [], _, _, _, h => by
    obtain rfl := of_clearBlocks_nil h
    rfl
  | block :: blocks, _, scope, tree, h => by
    cases hb : block.bind scope block.scope tree with
    | stopped =>
      obtain ⟨block', blocks', rfl, hblock, _⟩ :=
        of_clearBlocks_cons (by simpa [bindBlocks, hb] using h)
      have hleft : block'.clear true =
          ((block.bind scope block.scope tree).left id).clear true := by simpa [hb] using hblock
      have ih := Block.bind_again block block' scope block.scope tree hleft
      simp [bindBlocks, Block.scope_again hleft, hb, ih]
    | done block₁ tree₁ =>
      cases hr : bindBlocks scope blocks tree₁
      all_goals
        obtain ⟨block', blocks', rfl, hblock, hblocks⟩ :=
          of_clearBlocks_cons (by simpa [bindBlocks, hb, hr] using h)
        have hleft : block'.clear true =
            ((block.bind scope block.scope tree).left id).clear true := by simpa [hb] using hblock
        have ih := Block.bind_again block block' scope block.scope tree hleft
        have ihs := bindBlocks_again blocks blocks' scope tree₁ (by simpa [hr] using hblocks)
        simp [bindBlocks, Block.scope_again hleft, hb, hr, ih, ihs]
end

/-! ## Functions and units -/

theorem bindParams_delivers (scope : ScopeId) : ∀ params : List Param,
    Delivers (fun _ => ()) id
      (fun params' => params'.map (Param.clear false) = params.map (Param.clear false))
      (bindParams scope params : Pass ScopeTree (List Param) (List Param))
  | [] => .pure rfl
  | param :: params =>
    .ofExcept rfl fun _ => .declareHere rfl fun i =>
      .within (bindParams_delivers scope params) (fun params' h => by simp [h, Param.clear])
        fun params' h => .pure (by simpa [Param.clear] using h)

theorem FnDef.bind_delivers (unitScope : ScopeId) (fn : FnDef) :
    Delivers (fun _ => ()) id (Rebound FnDef.clear fn)
      (fn.bind unitScope : Pass ScopeTree FnDef FnDef) := by
  have hrebuild : ∀ params' body',
      params'.map (Param.clear false) = fn.params.map (Param.clear false) →
      Rebound Block.clear fn.body body' →
      Rebound FnDef.clear fn { fn with params := params', body := body' } := by
    intro params' body' hp hb
    refine ⟨by simp [FnDef.clear, hp, hb.1], fun h => ?_⟩
    have hbody := congrArg FnDef.body h
    have hslot := congrArg FnDef.retSlot h
    simp only [FnDef.clear] at hbody hslot
    simp [FnDef.clear, hb.2 hbody, ← hslot]
  exact .openScope fun scope => .within (bindParams_delivers scope fn.params)
    (fun params' hp => hrebuild params' fn.body hp ⟨rfl, id⟩)
    fun params' hp => .within (fn.body.bind_delivers scope (some scope))
      (fun body' hb => hrebuild params' body' hp hb)
      fun body' hb => .pure (hrebuild params' body' hp hb)

theorem bindFunctions_delivers (unitScope : ScopeId) : ∀ fns : List FnDef,
    Delivers (fun _ => ()) id (Rebound (fun keep => List.map (FnDef.clear keep)) fns)
      (bindFunctions unitScope fns : Pass ScopeTree (List FnDef) (List FnDef))
  | [] => .pure ⟨rfl, id⟩
  | fn :: fns => by
    have hrebuild : ∀ fn' fns', Rebound FnDef.clear fn fn' →
        Rebound (fun keep => List.map (FnDef.clear keep)) fns fns' →
        Rebound (fun keep => List.map (FnDef.clear keep)) (fn :: fns) (fn' :: fns') := by
      intro fn' fns' h hs
      simp_all [Rebound]
    exact .within (fn.bind_delivers unitScope) (fun fn' h => hrebuild fn' fns h ⟨rfl, id⟩)
      fun fn' h => .within (bindFunctions_delivers unitScope fns)
        (fun fns' hs => hrebuild fn' fns' h hs) fun fns' hs => .pure (hrebuild fn' fns' h hs)

theorem bindParams_again (scope : ScopeId) : ∀ (params : List Param) (tree : ScopeTree),
    bindParams scope ((bindParams scope params tree).left id) tree = bindParams scope params tree
  | [], _ => rfl
  | param :: params, tree => by
    cases ht : param.ty.resolve with
    | error => simp [bindParams, ht]
    | ok ty =>
      cases hd : tree.declareVariable scope param.name ty .param param.span with
      | error => simp [bindParams, declareHere, ht, hd]
      | ok entry =>
        have ih := bindParams_again scope params entry.2
        cases hp : bindParams scope params entry.2
        all_goals
          rw [hp] at ih
          simp only [Outcome.left_done, Outcome.left_stopped, id] at ih
          simp [bindParams, declareHere, ht, hd, hp, ih]

theorem FnDef.of_clear {fn other : FnDef} (h : fn.clear true = other.clear true) :
    ∃ body retSlot, fn = { other with body, retSlot } ∧
      body.clear true = other.body.clear true := by
  obtain ⟨name, params, ret, body, span, retSlot⟩ := fn
  simp only [FnDef.clear, map_clear_params, FnDef.mk.injEq] at h
  obtain ⟨rfl, rfl, rfl, hbody, rfl, _⟩ := h
  exact ⟨body, retSlot, rfl, hbody⟩

theorem FnDef.bind_again (unitScope : ScopeId) (fn again : FnDef) (tree : ScopeTree)
    (h : again.clear true = ((fn.bind unitScope tree).left id).clear true) :
    again.bind unitScope tree = (fn.bind unitScope tree).leaving (fun _ => again) again := by
  rcases hn : tree.newScope unitScope with ⟨scope, tree₁⟩
  have ihp := bindParams_again scope fn.params tree₁
  cases hp : bindParams scope fn.params tree₁ with
  | stopped =>
    obtain ⟨body', retSlot', rfl, _⟩ :=
      FnDef.of_clear (by simpa [FnDef.bind, openScope, hn, hp] using h)
    simp only [hp, Outcome.left_stopped] at ihp
    simp [FnDef.bind, openScope, hn, hp, ihp]
  | done params₁ tree₂ =>
    simp only [hp, Outcome.left_done, id] at ihp
    cases hb : fn.body.bind scope (some scope) tree₂
    all_goals
      obtain ⟨body', retSlot', rfl, hbody⟩ :=
        FnDef.of_clear (by simpa [FnDef.bind, openScope, hn, hp, hb] using h)
      have ihb := Block.bind_again fn.body body' scope (some scope) tree₂
        (by simpa [hb] using hbody)
      simp [FnDef.bind, openScope, hn, hp, hb, ihp, ihb]

theorem bindFunctions_again (unitScope : ScopeId) : ∀ (fns again : List FnDef) (tree : ScopeTree),
    again.map (FnDef.clear true) =
      ((bindFunctions unitScope fns tree).left id).map (FnDef.clear true) →
    bindFunctions unitScope again tree =
      (bindFunctions unitScope fns tree).leaving (fun _ => again) again
  | [], again, _, h => by
    obtain rfl : again = [] := by simpa [bindFunctions] using h
    rfl
  | fn :: fns, _, tree, h => by
    cases hf : fn.bind unitScope tree with
    | stopped =>
      simp only [bindFunctions, bind_apply, within_apply, hf, Outcome.left_stopped, List.map_cons,
        List.map_eq_cons_iff] at h
      obtain ⟨fn', fns', rfl, hfn, _⟩ := h
      have ih := FnDef.bind_again unitScope fn fn' tree (by simpa [hf] using hfn)
      simp [bindFunctions, hf, ih]
    | done fn₁ tree₁ =>
      cases hr : bindFunctions unitScope fns tree₁
      all_goals
        simp only [bindFunctions, bind_apply, within_apply, pure_apply, hf, hr,
          Outcome.left_stopped, Outcome.left_done, id, List.map_cons, List.map_eq_cons_iff] at h
        obtain ⟨fn', fns', rfl, hfn, hfns⟩ := h
        have ih := FnDef.bind_again unitScope fn fn' tree (by simpa [hf] using hfn)
        have ihs := bindFunctions_again unitScope fns fns' tree₁ (by simpa [hr] using hfns)
        simp [bindFunctions, hf, hr, ih, ihs]

theorem declareSignatures_again (node : ν) (node' : μ) (unitScope : ScopeId) :
    ∀ (fns again : List FnDef) (tree : ScopeTree),
    again.map (FnDef.clear false) = fns.map (FnDef.clear false) →
    declareSignatures node' unitScope again tree =
      (declareSignatures node unitScope fns tree).leaving id node'
  | [], again, _, h => by
    obtain rfl : again = [] := by simpa using h
    rfl
  | fn :: fns, _, tree, h => by
    obtain ⟨fn', fns', rfl, hfn, hfns⟩ := List.map_eq_cons_iff.mp h
    have hty : fn'.signatureTypes = fn.signatureTypes := by
      rw [← FnDef.signatureTypes_clear false, hfn, FnDef.signatureTypes_clear]
    have hname := congrArg FnDef.name hfn
    change fn'.name = fn.name at hname
    have hspan := congrArg FnDef.span hfn
    change fn'.span = fn.span at hspan
    cases ht : fn.signatureTypes with
    | error => simp [declareSignatures, declareSignature, hty, ht]
    | ok types =>
      cases hd : tree.declareFunction unitScope fn.name types.1 types.2 .user fn.span with
      | error => simp [declareSignatures, declareSignature, hty, ht, hname, hspan, hd]
      | ok entry =>
        have ih := declareSignatures_again node node' unitScope fns fns' entry.2 hfns
        cases hr : declareSignatures node unitScope fns entry.2 <;>
          simp [declareSignatures, declareSignature, hty, ht, hname, hspan, hd, ih, hr]

theorem CompileUnit.of_clear {unit other : CompileUnit} (h : unit.clear true = other.clear true) :
    ∃ functions body, unit = { other with functions, script := { other.script with body } } ∧
      functions.map (FnDef.clear true) = other.functions.map (FnDef.clear true) ∧
      body.clear true = other.script.body.clear true := by
  obtain ⟨functions, ⟨name, body, scriptSpan⟩, span, mark⟩ := unit
  simp only [CompileUnit.clear, Script.clear, CompileUnit.mk.injEq, Script.mk.injEq, kept_true] at h
  obtain ⟨hf, ⟨rfl, hb, rfl⟩, rfl, rfl⟩ := h
  exact ⟨functions, body, rfl, hf, hb⟩

theorem map_clear_false {fns fns' : List FnDef}
    (h : fns'.map (FnDef.clear true) = fns.map (FnDef.clear true)) :
    fns'.map (FnDef.clear false) = fns.map (FnDef.clear false) := by
  have hc : ∀ fns : List FnDef,
      (fns.map (FnDef.clear true)).map (FnDef.clear false) = fns.map (FnDef.clear false) := by
    intro fns
    simp [FnDef.clear_clear]
  rw [← hc fns', h, hc fns]

theorem CompileUnit.resolve_again (unit again : CompileUnit) (tree : ScopeTree)
    (h : again.clear true = ((unit.resolve tree).left Prod.fst).clear true) :
    again.resolve tree = (unit.resolve tree).leaving (fun out => (again, out.2)) again := by
  rcases hn : ScopeTree.initial.newScope root with ⟨unitScope, tree₁⟩
  have hsigs : ∀ (fns : List FnDef) (script : Script),
      fns.map (FnDef.clear false) = unit.functions.map (FnDef.clear false) →
      declareSignatures { unit with functions := fns, script, scope := some unitScope } unitScope
        fns tree₁ = (declareSignatures { unit with scope := some unitScope } unitScope
          unit.functions tree₁).leaving id
            { unit with functions := fns, script, scope := some unitScope } :=
    fun fns script => declareSignatures_again _ _ unitScope unit.functions fns tree₁
  cases hd : declareSignatures { unit with scope := some unitScope } unitScope unit.functions
    tree₁ with
  | stopped node halt tree₂ =>
    obtain rfl : node = { unit with scope := some unitScope } := by
      simpa [hd] using hsigs unit.functions unit.script rfl
    obtain ⟨fns', body', rfl, hf, hb⟩ := CompileUnit.of_clear
      (by simpa [CompileUnit.resolve, openScope, hn, hd] using h)
    have ih := hsigs fns' { unit.script with body := body' } (map_clear_false hf)
    rw [hd] at ih
    simp [CompileUnit.resolve, openScope, hn, hd, ih]
  | done ids tree₂ =>
    have hleft := (bindFunctions_delivers unitScope unit.functions tree₂).1.1
    cases hf : bindFunctions unitScope unit.functions tree₂ with
    | stopped fns₁ halt tree₃ =>
      obtain ⟨fns', body', rfl, hfns, _⟩ := CompileUnit.of_clear
        (by simpa [CompileUnit.resolve, openScope, hn, hd, hf] using h)
      have ih := hsigs fns' { unit.script with body := body' } (by
        rw [hf] at hleft
        exact (map_clear_false hfns).trans hleft)
      have ihf := bindFunctions_again unitScope unit.functions fns' tree₂ (by simpa [hf] using hfns)
      rw [hd] at ih
      simp [CompileUnit.resolve, openScope, hn, hd, hf, ih, ihf]
    | done fns₁ tree₃ =>
      rcases hs : tree₃.newScope unitScope with ⟨scope, tree₄⟩
      cases hb : unit.script.body.bind scope (some scope) tree₄
      all_goals
        obtain ⟨fns', body', rfl, hfns, hbody⟩ := CompileUnit.of_clear
          (by simpa [CompileUnit.resolve, openScope, hn, hd, hf, hs, hb] using h)
        have ih := hsigs fns' { unit.script with body := body' } (by
          rw [hf] at hleft
          exact (map_clear_false hfns).trans hleft)
        have ihf := bindFunctions_again unitScope unit.functions fns' tree₂
          (by simpa [hf] using hfns)
        have ihb := Block.bind_again unit.script.body body' scope (some scope) tree₄
          (by simpa [hb] using hbody)
        rw [hd] at ih
        simp [CompileUnit.resolve, openScope, hn, hd, hf, hs, hb, ih, ihf, ihb]

end ScriptLang
