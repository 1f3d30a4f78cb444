import ScriptLang.Check.Pass

/-!
# How a pass ends

What it says about the parts of a pass that the whole of it is done. The passes run on a bare scope
tree, so that what a pass leaves is a tree and nothing else.
-/

namespace ScriptLang

variable {tree : ScopeTree}

/-! ## Results that may be halts -/

theorem bind_eq_ok {x : Except ε α} {f : α → Except ε β} {b : β} :
    (x >>= f) = .ok b ↔ ∃ a, x = .ok a ∧ f a = .ok b := by
  cases x <;> simp [bind, Except.bind]

theorem bind_eq_error {x : Except ε α} {f : α → Except ε β} {e : ε} :
    (x >>= f) = .error e ↔ x = .error e ∨ ∃ a, x = .ok a ∧ f a = .error e := by
  cases x <;> simp [bind, Except.bind]

theorem pure_eq_ok {a b : α} : (pure a : Except ε α) = .ok b ↔ a = b := by
  simp [pure, Except.pure]

theorem map_eq_ok {x : Except ε α} {f : α → β} {b : β} :
    x.map f = .ok b ↔ ∃ a, x = .ok a ∧ f a = b := by
  cases x <;> simp [Except.map]

theorem mapError_eq_ok {x : Except ε α} {f : ε → δ} {a : α} :
    x.mapError f = .ok a ↔ x = .ok a := by
  cases x with
  | ok b =>
    change Except.ok b = Except.ok a ↔ _
    simp only [Except.ok.injEq]
  | error e =>
    change Except.error (f e) = Except.ok a ↔ _
    simp only [reduceCtorEq]

theorem mapError_error (e : ε) (f : ε → δ) :
    (Except.error e : Except ε α).mapError f = .error (f e) :=
  rfl

theorem demand_eq_ok {value : Option α} {halt : Halt} {a : α} :
    demand value halt = .ok a ↔ value = some a := by
  cases value <;> simp [demand]

namespace ScopeTree

theorem parent_eq_ok {scope : ScopeId} {up : Option ScopeId} :
    tree.parent scope = .ok up ↔ tree.parents[scope]? = some up := by
  unfold parent
  cases tree.parents[scope]? <;> simp

theorem declaration_eq_ok {id : DeclId} {span : Span} {var : VarDecl} :
    tree.declaration id span = .ok var ↔ tree.decls[id]? = some var :=
  demand_eq_ok

theorem var_eq_ok {id : DeclId} {var : VarDecl} :
    tree.var id = .ok var ↔ tree.decls[id]? = some var := by
  unfold ScopeTree.var var?
  cases tree.decls[id]? <;> simp

theorem signature_eq_ok {id : SigId} {sig : Signature} :
    tree.signature id = .ok sig ↔ tree.sigs[id]? = some sig := by
  unfold signature
  cases tree.sigs[id]? <;> simp

end ScopeTree

/-! ## Passes -/

namespace Pass

variable {σ ν μ α β : Type}

theorem pure_eq_done {a b : α} {s s' : σ} :
    (pure a : Pass σ ν α) s = .done b s' ↔ a = b ∧ s = s' := by
  change Outcome.done a s = .done b s' ↔ _
  simp

theorem stop_eq_done {node : ν} {halt : Halt} {s s' : σ} {a : α} :
    (stop node halt : Pass σ ν α) s = .done a s' ↔ False := by
  simp [stop]

theorem ofExcept_eq_done {node : ν} {x : Except Halt α} {s s' : σ} {a : α} :
    ofExcept node x s = .done a s' ↔ x = .ok a ∧ s = s' := by
  cases x <;> simp [ofExcept]

/-- What was attempted went through, or stopped with an error that is kept. -/
theorem attempt_eq_done {node : ν} {p : Pass σ μ α} {s s' : σ} {r : Except TypeError α} :
    attempt node p s = .done r s' ↔
      (∃ a, p s = .done a s' ∧ r = .ok a) ∨
        ∃ part e, p s = .stopped part (.error e) s' ∧ r = .error e := by
  unfold attempt
  cases p s with
  | done a s =>
    simp only [Outcome.done.injEq, reduceCtorEq, false_and, exists_false, or_false]
    constructor
    · rintro ⟨rfl, rfl⟩
      exact ⟨a, ⟨rfl, rfl⟩, rfl⟩
    · rintro ⟨_, ⟨rfl, rfl⟩, rfl⟩
      exact ⟨rfl, rfl⟩
  | stopped part halt s =>
    cases halt with
    | error e =>
      simp only [Outcome.done.injEq, Outcome.stopped.injEq, Halt.error.injEq, reduceCtorEq,
        false_and, exists_false, false_or]
      constructor
      · rintro ⟨rfl, rfl⟩
        exact ⟨part, e, ⟨rfl, rfl, rfl⟩, rfl⟩
      · rintro ⟨_, _, ⟨rfl, rfl, rfl⟩, rfl⟩
        exact ⟨rfl, rfl⟩
    | fault f => simp

theorem scopes_eq_done {found left : ScopeTree} :
    (scopes : Pass ScopeTree ν ScopeTree) tree = .done found left ↔ found = tree ∧ left = tree := by
  change Outcome.done tree tree = .done found left ↔ _
  simp [eq_comm]

theorem setScopes_eq_done {new left : ScopeTree} {u : Unit} :
    (setScopes new : Pass ScopeTree ν Unit) tree = .done u left ↔ left = new := by
  change Outcome.done () new = .done u left ↔ _
  simp [eq_comm]

theorem note_eq_done {left : ScopeTree} {event : Event} {u : Unit} :
    (note event : Pass ScopeTree ν Unit) tree = .done u left ↔ left = tree := by
  change Outcome.done () tree = .done u left ↔ _
  simp [eq_comm]

/-! ## What a pass leaves, however it ends -/

/-- The state that a pass left. -/
def state : Outcome σ ν α → σ
  | .done _ s => s
  | .stopped _ _ s => s

end Pass

/-- The node as the pass left it; `view` finds it in the value. -/
def Outcome.left (view : α → ν) : Outcome σ ν α → ν
  | .done value _ => view value
  | .stopped node _ _ => node

@[simp] theorem Outcome.left_done (view : α → ν) (value : α) (state : σ) :
    (done value state).left view = view value :=
  rfl

@[simp] theorem Outcome.left_stopped (view : α → ν) (node : ν) (halt : Halt) (state : σ) :
    (stopped node halt state).left view = node :=
  rfl

namespace Pass

variable {σ ν μ α β : Type}

/-- However the pass ends, the node that it leaves has the property, and `keep` shows the same of the
state as before. -/
def Delivers (keep : σ → κ) (view : α → ν) (P : ν → Prop) (p : Pass σ ν α) : Prop :=
  ∀ s, P ((p s).left view) ∧ keep (state (p s)) = keep s

namespace Delivers

variable {keep : σ → κ} {view : α → ν} {part : β → μ} {P : ν → Prop} {Q : μ → Prop}

theorem done {p : Pass σ ν α} (h : Delivers keep view P p) {s s' : σ} {a : α}
    (hp : p s = .done a s') : P (view a) := by
  simpa [hp] using (h s).1

theorem kept {p : Pass σ ν α} (h : Delivers keep view P p) {s s' : σ} {a : α}
    (hp : p s = .done a s') : keep s' = keep s := by
  simpa [hp, state] using (h s).2

theorem nodes {p : Pass σ ν α} (h : Delivers keep view P p) : Delivers (fun _ => ()) view P p :=
  fun s => ⟨(h s).1, rfl⟩

theorem pure {a : α} (h : P (view a)) : Delivers keep view P (Pure.pure a : Pass σ ν α) :=
  fun _ => ⟨h, rfl⟩

theorem stop {node : ν} (h : P node) (halt : Halt) :
    Delivers keep view P (stop node halt : Pass σ ν α) :=
  fun _ => ⟨h, rfl⟩

theorem ofExcept {node : ν} {x : Except Halt β} {f : β → Pass σ ν α} (h : P node)
    (hf : ∀ b, Delivers keep view P (f b)) : Delivers keep view P (Pass.ofExcept node x >>= f) := by
  intro s
  cases x with
  | error => exact ⟨h, rfl⟩
  | ok b => exact hf b s

theorem bind {seen : β → ν} {p : Pass σ ν β} {f : β → Pass σ ν α} (h : Delivers keep seen P p)
    (hf : ∀ b, P (seen b) → Delivers keep view P (f b)) : Delivers keep view P (p >>= f) := by
  intro s
  have hs := h s
  change P ((Pass.bind p f s).left view) ∧ keep (state (Pass.bind p f s)) = keep s
  unfold Pass.bind
  cases hp : p s with
  | stopped node halt s₁ => simpa [hp, state] using hs
  | done b s₁ =>
    rw [hp] at hs
    exact ⟨(hf b hs.1 s₁).1, (hf b hs.1 s₁).2.trans hs.2⟩

theorem within {rebuild : μ → ν} {p : Pass σ μ β} {f : β → Pass σ ν α} (h : Delivers keep part Q p)
    (hr : ∀ node, Q node → P (rebuild node)) (hf : ∀ b, Q (part b) → Delivers keep view P (f b)) :
    Delivers keep view P (Pass.within rebuild p >>= f) := by
  intro s
  have hs := h s
  change P ((Pass.bind (Pass.within rebuild p) f s).left view) ∧
    keep (state (Pass.bind (Pass.within rebuild p) f s)) = keep s
  unfold Pass.bind Pass.within
  cases hp : p s with
  | stopped node halt s₁ =>
    rw [hp] at hs
    exact ⟨hr node hs.1, hs.2⟩
  | done b s₁ =>
    rw [hp] at hs
    exact ⟨(hf b hs.1 s₁).1, (hf b hs.1 s₁).2.trans hs.2⟩

section

variable {keep : ScopeTree → κ}

theorem scopes {f : ScopeTree → Pass ScopeTree ν α} (hf : ∀ tree, Delivers keep view P (f tree)) :
    Delivers keep view P (Pass.scopes >>= f) :=
  fun tree => hf tree tree

theorem note {event : Event} {f : Unit → Pass ScopeTree ν α} (hf : Delivers keep view P (f ())) :
    Delivers keep view P (Pass.note event >>= f) :=
  fun tree => hf tree

theorem setScopes {new : ScopeTree} {f : Unit → Pass ScopeTree ν α}
    (hf : Delivers (fun _ => ()) view P (f ())) :
    Delivers (fun _ => ()) view P (Pass.setScopes new >>= f) :=
  fun _ => hf new

end

end Delivers

end Pass

end ScriptLang
