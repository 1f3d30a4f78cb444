import ScriptLang.Check.Event
import ScriptLang.Scope.Basic

/-!
# Passes

A pass fills in a node of the tree while it changes a scope tree. When it stops, what it has filled
in so far stays: the outcome then holds the node as it was left, and the state in any case.

A pass over a node runs passes over the parts of the node; `within` says how the node looks when
the part was left in the middle.
-/

namespace ScriptLang

/-- What the passes work on besides the tree. -/
class Workspace (σ : Type) where
  scopes : σ → ScopeTree
  withScopes : σ → ScopeTree → σ
  note : σ → Event → σ

/-- A workspace that keeps no record of events. -/
instance : Workspace ScopeTree where
  scopes tree := tree
  withScopes _ tree := tree
  note tree _ := tree

/-- A workspace that records events, the latest first. -/
structure Recorded where
  scopes : ScopeTree := {}
  events : List Event := []

instance : Workspace Recorded where
  scopes := Recorded.scopes
  withScopes work scopes := { work with scopes }
  note work event := { work with events := event :: work.events }

/-- How a pass over a node of type `ν` ended, and the state it left. -/
inductive Outcome (σ ν α : Type) where
  | done (value : α) (state : σ)
  | stopped (node : ν) (halt : Halt) (state : σ)

def Pass (σ ν α : Type) : Type :=
  σ → Outcome σ ν α

namespace Pass

variable {σ ν μ α β : Type}

protected def pure (a : α) : Pass σ ν α :=
  fun s => .done a s

protected def bind (p : Pass σ ν α) (f : α → Pass σ ν β) : Pass σ ν β :=
  fun s =>
    match p s with
    | .done a s => f a s
    | .stopped node halt s => .stopped node halt s

instance : Monad (Pass σ ν) where
  pure := Pass.pure
  bind := Pass.bind

/-- Stops and leaves the node as it is. -/
def stop (node : ν) (halt : Halt) : Pass σ ν α :=
  fun s => .stopped node halt s

/-- Goes on with a value or stops. -/
def ofExcept (node : ν) : Except Halt α → Pass σ ν α
  | .ok a => fun s => .done a s
  | .error halt => fun s => .stopped node halt s

/-- Runs a pass over a part; `rebuild` puts the part back into the node. -/
def within (rebuild : μ → ν) (p : Pass σ μ α) : Pass σ ν α :=
  fun s =>
    match p s with
    | .done a s => .done a s
    | .stopped part halt s => .stopped (rebuild part) halt s

/-- Runs a pass whose errors are a result like any other. A fault still stops. -/
def attempt (node : ν) (p : Pass σ μ α) : Pass σ ν (Except TypeError α) :=
  fun s =>
    match p s with
    | .done a s => .done (.ok a) s
    | .stopped _ (.error e) s => .done (.error e) s
    | .stopped _ (.fault f) s => .stopped node (.fault f) s

section

variable [Workspace σ]

def scopes : Pass σ ν ScopeTree :=
  fun s => .done (Workspace.scopes s) s

def setScopes (tree : ScopeTree) : Pass σ ν Unit :=
  fun s => .done () (Workspace.withScopes s tree)

def note (event : Event) : Pass σ ν Unit :=
  fun s => .done () (Workspace.note s event)

end

/-! ## What a composed pass does -/

theorem bind_eq_done {p : Pass σ ν α} {f : α → Pass σ ν β} {s : σ} {b : β} {s'' : σ} :
    (p >>= f) s = .done b s'' ↔ ∃ a s', p s = .done a s' ∧ f a s' = .done b s'' := by
  show Pass.bind p f s = _ ↔ _
  unfold Pass.bind
  cases p s <;> simp [and_assoc]

theorem bind_eq_stopped {p : Pass σ ν α} {f : α → Pass σ ν β} {s : σ} {node : ν} {halt : Halt}
    {s'' : σ} :
    (p >>= f) s = .stopped node halt s'' ↔
      p s = .stopped node halt s'' ∨
        ∃ a s', p s = .done a s' ∧ f a s' = .stopped node halt s'' := by
  show Pass.bind p f s = _ ↔ _
  unfold Pass.bind
  cases p s <;> simp [and_assoc]

theorem within_eq_done {rebuild : μ → ν} {p : Pass σ μ α} {s : σ} {a : α} {s' : σ} :
    within rebuild p s = .done a s' ↔ p s = .done a s' := by
  unfold within
  cases p s <;> simp

theorem within_eq_stopped {rebuild : μ → ν} {p : Pass σ μ α} {s : σ} {node : ν} {halt : Halt}
    {s' : σ} :
    within rebuild p s = .stopped node halt s' ↔
      ∃ part, p s = .stopped part halt s' ∧ rebuild part = node := by
  unfold within
  cases p s with
  | done => simp
  | stopped part =>
    simp only [Outcome.stopped.injEq]
    constructor
    · rintro ⟨rfl, rfl, rfl⟩
      exact ⟨part, ⟨rfl, rfl, rfl⟩, rfl⟩
    · rintro ⟨_, ⟨rfl, rfl, rfl⟩, rfl⟩
      exact ⟨rfl, rfl, rfl⟩

end Pass

end ScriptLang
