import ScriptLang.Check.Unit
import Mathlib.Data.Option.Defs

/-!
# Runs side by side

Two runs of the checker on inputs that have something in common are compared step by step. A
coupling says what their states have in common all the way. Two passes run in parallel if both go on
with values that fit together, or both stop, and the states stay coupled either way.
-/

namespace ScriptLang

/-- Both give values that fit together, or both fail for reasons that do. -/
inductive Results (Q : Halt → Halt → Prop) (R : α → β → Prop) :
    Except Halt α → Except Halt β → Prop
  | ok {a : α} {b : β} (h : R a b) : Results Q R (.ok a) (.ok b)
  | error {halt halt' : Halt} (h : Q halt halt') : Results Q R (.error halt) (.error halt')

namespace Results

variable {Q : Halt → Halt → Prop} {R : α → β → Prop} {S : γ → δ → Prop}

theorem refl {R : α → α → Prop} (hQ : ∀ halt, Q halt halt) (hR : ∀ a, R a a) (x : Except Halt α) :
    Results Q R x x := by
  cases x with
  | ok a => exact .ok (hR a)
  | error halt => exact .error (hQ halt)

theorem eq {x y : Except Halt α} (h : Results (· = ·) (· = ·) x y) : x = y := by
  cases h with
  | ok h => rw [h]
  | error h => rw [h]

theorem bind {x : Except Halt α} {y : Except Halt β} {f : α → Except Halt γ} {g : β → Except Halt δ}
    (h : Results Q R x y) (hf : ∀ a b, R a b → Results Q S (f a) (g b)) :
    Results Q S (x >>= f) (y >>= g) := by
  cases h with
  | ok h => exact hf _ _ h
  | error h => exact .error h

theorem demand {a : Option α} {b : Option β} {halt halt' : Halt} (h : Option.Rel R a b)
    (hQ : Q halt halt') : Results Q R (demand a halt) (ScriptLang.demand b halt') := by
  cases h with
  | some h => exact .ok h
  | none => exact .error hQ

end Results

/-- What two runs have in common: a relation of their states, which follows the scope trees and does
not mind what is noted, and a relation of the reasons for which they stop. -/
structure Coupling (σ : Type) [Workspace σ] where
  states : σ → σ → Prop
  trees : ScopeTree → ScopeTree → Prop
  halts : Halt → Halt → Prop
  scopes : ∀ {s s' : σ}, states s s' → trees (Workspace.scopes s) (Workspace.scopes s')
  withScopes : ∀ {s s' : σ} {tree tree' : ScopeTree}, states s s' → trees tree tree' →
    states (Workspace.withScopes s tree) (Workspace.withScopes s' tree')
  note : ∀ {s s' : σ} (event : Event), states s s' →
    states (Workspace.note s event) (Workspace.note s' event)
  same : ∀ halt, halts halt halt

/-- Runs that are in the same state. -/
@[reducible] def Coupling.equal (σ : Type) [Workspace σ] : Coupling σ where
  states := (· = ·)
  trees := (· = ·)
  halts := (· = ·)
  scopes h := by rw [h]
  withScopes h ht := by rw [h, ht]
  note _ h := by rw [h]
  same _ := rfl

/-- Runs on scope trees that are related. -/
@[reducible] def Coupling.ofTrees (trees : ScopeTree → ScopeTree → Prop) (halts : Halt → Halt → Prop)
    (same : ∀ halt, halts halt halt) : Coupling ScopeTree where
  states := trees
  trees := trees
  halts := halts
  scopes h := h
  withScopes _ ht := ht
  note _ h := h
  same := same

theorem Pass.bind_assoc {σ : Type} (p : Pass σ ν α) (f : α → Pass σ ν β) (g : β → Pass σ ν γ) :
    (p >>= f >>= g) = (p >>= fun a => f a >>= g) := by
  funext s
  change Pass.bind (Pass.bind p f) g s = Pass.bind p (fun a => Pass.bind (f a) g) s
  unfold Pass.bind
  cases p s <;> rfl

/-- Values that fit together, each with the same thing beside it. -/
def Beside (R : α → β → Prop) (x : α × γ) (y : β × γ) : Prop :=
  R x.1 y.1 ∧ x.2 = y.2

section

variable {σ : Type} [Workspace σ] {C : Coupling σ}

/-- The nodes at which two passes stop need not have anything in common. -/
inductive Outcome.Fits (C : Coupling σ) (R : α → β → Prop) : Outcome σ ν α → Outcome σ μ β → Prop
  | done {a : α} {b : β} {s s' : σ} (hs : C.states s s') (h : R a b) :
    Fits C R (.done a s) (.done b s')
  | stopped {node : ν} {other : μ} {halt halt' : Halt} {s s' : σ} (hs : C.states s s')
    (h : C.halts halt halt') : Fits C R (.stopped node halt s) (.stopped other halt' s')

def Pass.Parallel (C : Coupling σ) (R : α → β → Prop) (p : Pass σ ν α) (q : Pass σ μ β) : Prop :=
  ∀ s s', C.states s s' → (p s).Fits C R (q s')

namespace Pass.Parallel

variable {ν μ κ ι α β γ δ ε : Type} {R : α → β → Prop} {S : γ → δ → Prop}

theorem done {p : Pass σ ν α} {q : Pass σ μ β} (h : Parallel C R p q) {s s' s₁ : σ} {a : α}
    (hs : C.states s s') (hp : p s = .done a s₁) :
    ∃ b s₁', q s' = .done b s₁' ∧ R a b ∧ C.states s₁ s₁' := by
  have hfits := h s s' hs
  rw [hp] at hfits
  generalize q s' = right at hfits ⊢
  cases hfits with
  | @done _ b _ s₁' hs h => exact ⟨b, s₁', rfl, h, hs⟩

theorem stopped {p : Pass σ ν α} {q : Pass σ μ β} (h : Parallel C R p q) {s s' s₁ : σ} {node : ν}
    {halt : Halt} (hs : C.states s s') (hp : p s = .stopped node halt s₁) :
    ∃ other halt' s₁', q s' = .stopped other halt' s₁' ∧ C.halts halt halt' := by
  have hfits := h s s' hs
  rw [hp] at hfits
  generalize q s' = right at hfits ⊢
  cases hfits with
  | @stopped _ other _ halt' _ s₁' _ h => exact ⟨other, halt', s₁', rfl, h⟩

theorem pure {a : α} {b : β} (h : R a b) :
    Parallel C R (Pure.pure a : Pass σ ν α) (Pure.pure b : Pass σ μ β) :=
  fun _ _ hs => .done hs h

theorem stop {node : ν} {other : μ} {halt : Halt} :
    Parallel C R (Pass.stop node halt : Pass σ ν α) (Pass.stop other halt : Pass σ μ β) :=
  fun _ _ hs => .stopped hs (C.same halt)

theorem ofExcept {node : ν} {other : μ} {x : Except Halt α} {y : Except Halt β}
    (h : Results C.halts R x y) :
    Parallel C R (Pass.ofExcept node x : Pass σ ν α) (Pass.ofExcept other y : Pass σ μ β) := by
  intro s s' hs
  cases h with
  | ok h => exact .done hs h
  | error h => exact .stopped hs h

theorem within {p : Pass σ ν α} {q : Pass σ μ β} (h : Parallel C R p q) (rebuild : ν → κ)
    (rebuild' : μ → ι) : Parallel C R (Pass.within rebuild p) (Pass.within rebuild' q) := by
  intro s s' hs
  have hfits := h s s' hs
  unfold Pass.within
  generalize p s = left at hfits ⊢
  generalize q s' = right at hfits ⊢
  cases hfits with
  | done hs h => exact .done hs h
  | stopped hs h => exact .stopped hs h

theorem bind {p : Pass σ ν α} {q : Pass σ μ β} {f : α → Pass σ ν γ} {g : β → Pass σ μ δ}
    (h : Parallel C R p q) (hf : ∀ a b, R a b → Parallel C S (f a) (g b)) :
    Parallel C S (p >>= f) (q >>= g) := by
  intro s s' hs
  have hfits := h s s' hs
  change Outcome.Fits C S (Pass.bind p f s) (Pass.bind q g s')
  unfold Pass.bind
  generalize p s = left at hfits ⊢
  generalize q s' = right at hfits ⊢
  cases hfits with
  | done hs h => exact hf _ _ h _ _ hs
  | stopped hs h => exact .stopped hs h

theorem part {p : Pass σ ν α} {q : Pass σ μ β} {f : α → Pass σ κ γ} {g : β → Pass σ ι δ}
    {rebuild : ν → κ} {rebuild' : μ → ι} (h : Parallel C R p q)
    (hf : ∀ a b, R a b → Parallel C S (f a) (g b)) :
    Parallel C S (Pass.within rebuild p >>= f) (Pass.within rebuild' q >>= g) :=
  (h.within rebuild rebuild').bind hf

theorem pair {p : Pass σ ν (α × ε)} {q : Pass σ μ (β × ε)} {f : α × ε → Pass σ κ γ}
    {g : β × ε → Pass σ ι δ} {rebuild : ν → κ} {rebuild' : μ → ι}
    (h : Parallel C (Beside R) p q) (hf : ∀ a b c, R a b → Parallel C S (f (a, c)) (g (b, c))) :
    Parallel C S (Pass.within rebuild p >>= f) (Pass.within rebuild' q >>= g) := by
  refine h.part ?_
  rintro ⟨a, c⟩ ⟨b, _⟩ ⟨hab, rfl⟩
  exact hf a b c hab

theorem step {p : Pass σ ν α} {q : Pass σ μ α} {f : α → Pass σ ν γ} {g : α → Pass σ μ δ}
    (h : Parallel C (· = ·) p q) (hf : ∀ a, Parallel C S (f a) (g a)) :
    Parallel C S (p >>= f) (q >>= g) := by
  refine h.bind ?_
  rintro a _ rfl
  exact hf a

/-- A step that cannot tell the two runs apart. -/
theorem share {node : ν} {other : μ} (x : Except Halt α) :
    Parallel C (· = ·) (Pass.ofExcept node x : Pass σ ν α) (Pass.ofExcept other x : Pass σ μ α) :=
  .ofExcept (.refl C.same (fun _ => rfl) x)

theorem attempt {p : Pass σ ν α} {q : Pass σ μ β} (h : Parallel C R p q)
    (hh : ∀ halt halt', C.halts halt halt' → halt = halt') (node : κ) (other : ι) :
    Parallel C
      (fun x y => (∃ e, x = .error e ∧ y = .error e) ∨ ∃ a b, x = .ok a ∧ y = .ok b ∧ R a b)
      (Pass.attempt node p) (Pass.attempt other q) := by
  intro s s' hs
  have hfits := h s s' hs
  unfold Pass.attempt
  generalize p s = left at hfits ⊢
  generalize q s' = right at hfits ⊢
  cases hfits with
  | @done a b _ _ hs h => exact .done hs (.inr ⟨a, b, rfl, rfl, h⟩)
  | @stopped _ _ halt halt' _ _ hs h =>
    obtain rfl := hh halt halt' h
    cases halt with
    | error e => exact .done hs (.inl ⟨e, rfl, rfl⟩)
    | fault f => exact .stopped hs h

theorem scopes : Parallel C C.trees (Pass.scopes : Pass σ ν ScopeTree) (Pass.scopes : Pass σ μ _) :=
  fun _ _ hs => .done hs (C.scopes hs)

theorem setScopes {tree tree' : ScopeTree} (h : C.trees tree tree') :
    Parallel C (· = ·) (Pass.setScopes tree : Pass σ ν Unit) (Pass.setScopes tree' : Pass σ μ Unit) :=
  fun _ _ hs => .done (C.withScopes hs h) rfl

theorem note (event : Event) :
    Parallel C (· = ·) (Pass.note event : Pass σ ν Unit) (Pass.note event : Pass σ μ Unit) :=
  fun _ _ hs => .done (C.note event hs) rfl

end Pass.Parallel

end

end ScriptLang
