import ScriptLang.Proofs.Discovery

/-!
# Triples

A logic for passes. A triple says from which states a pass is run, what holds of the value and the
state when it is done, and what holds of the halt and the state when it stops. A node that was left
in the middle plays no part.

The rules follow the way passes are put together, so that a triple for a pass over a tree is proved
along the text of the pass.
-/

namespace ScriptLang

/-- `Q` holds if the pass is done, and `E` if it stopped. -/
def Outcome.Meets (Q : α → σ → Prop) (E : Halt → σ → Prop) : Outcome σ ν α → Prop
  | .done a s => Q a s
  | .stopped _ halt s => E halt s

namespace Pass

/-- Run from a state with `P`, the pass meets `Q` or stops and meets `E`. -/
def Triple (P : σ → Prop) (p : Pass σ ν α) (Q : α → σ → Prop) (E : Halt → σ → Prop) : Prop :=
  ∀ s, P s → (p s).Meets Q E

namespace Triple

variable {σ ν μ α β : Type} {P : σ → Prop} {Q : α → σ → Prop} {E : Halt → σ → Prop}

theorem done {p : Pass σ ν α} (h : Triple P p Q E) {s s' : σ} {a : α} (hs : P s)
    (hp : p s = .done a s') : Q a s' := by
  have hm := h s hs
  rw [hp] at hm
  exact hm

theorem stopped {p : Pass σ ν α} (h : Triple P p Q E) {s s' : σ} {node : ν} {halt : Halt}
    (hs : P s) (hp : p s = .stopped node halt s') : E halt s' := by
  have hm := h s hs
  rw [hp] at hm
  exact hm

theorem pre {p : Pass σ ν α} {P' : σ → Prop} (h : Triple P p Q E) (hP : ∀ s, P' s → P s) :
    Triple P' p Q E :=
  fun s hs => h s (hP s hs)

theorem and {φ : Prop} {p : Pass σ ν α} (h : φ → Triple P p Q E) :
    Triple (fun s => P s ∧ φ) p Q E :=
  fun s hs => h hs.2 s hs.1

theorem pure {a : α} (h : ∀ s, P s → Q a s) : Triple P (Pure.pure a : Pass σ ν α) Q E :=
  h

theorem stop {node : ν} {halt : Halt} (h : ∀ s, P s → E halt s) :
    Triple P (Pass.stop node halt : Pass σ ν α) Q E :=
  h

theorem bind {p : Pass σ ν β} {f : β → Pass σ ν α} {R : β → σ → Prop} (h : Triple P p R E)
    (hf : ∀ b, Triple (R b) (f b) Q E) : Triple P (p >>= f) Q E := by
  intro s hs
  change (Pass.bind p f s).Meets Q E
  unfold Pass.bind
  cases hp : p s with
  | done b s' => exact hf b s' (h.done hs hp)
  | stopped node halt s' => exact h.stopped hs hp

theorem within {p : Pass σ μ α} (h : Triple P p Q E) (rebuild : μ → ν) :
    Triple P (Pass.within rebuild p) Q E := by
  intro s hs
  unfold Pass.within
  cases hp : p s with
  | done a s' => exact h.done hs hp
  | stopped part halt s' => exact h.stopped hs hp

theorem ofExcept {node : ν} {x : Except Halt β} {f : β → Pass σ ν α}
    (hx : ∀ halt, x = .error halt → ∀ s, P s → E halt s)
    (hf : ∀ b, x = .ok b → Triple P (f b) Q E) : Triple P (Pass.ofExcept node x >>= f) Q E := by
  cases x with
  | ok b => exact hf b rfl
  | error halt => exact hx halt rfl

theorem attempt {node : ν} {p : Pass σ μ α} (h : Triple P p Q E)
    (hE : ∀ fault s, ¬ E (.fault fault) s) {E' : Halt → σ → Prop} :
    Triple P (Pass.attempt node p)
      (fun r s => (∀ a, r = .ok a → Q a s) ∧ ∀ e, r = .error e → E (.error e) s) E' := by
  intro s hs
  unfold Pass.attempt
  cases hp : p s with
  | done a s' =>
    refine ⟨?_, ?_⟩
    · rintro _ ⟨⟩
      exact h.done hs hp
    · rintro _ ⟨⟩
  | stopped part halt s' =>
    have hm := h.stopped hs hp
    cases halt with
    | error e =>
      refine ⟨?_, ?_⟩
      · rintro _ ⟨⟩
      · rintro _ ⟨⟩
        exact hm
    | fault fault => exact absurd hm (hE fault s')

section

variable {P : ScopeTree → Prop} {Q : α → ScopeTree → Prop} {E : Halt → ScopeTree → Prop}

theorem scopes {f : ScopeTree → Pass ScopeTree ν α} (hf : ∀ tree, P tree → Triple P (f tree) Q E) :
    Triple P (Pass.scopes >>= f) Q E :=
  fun tree hs => hf tree hs tree hs

theorem note {event : Event} {f : Unit → Pass ScopeTree ν α} (hf : Triple P (f ()) Q E) :
    Triple P (Pass.note event >>= f) Q E :=
  hf

theorem setScopes {new : ScopeTree} {f : Unit → Pass ScopeTree ν α}
    (hf : Triple (fun tree => tree = new) (f ()) Q E) : Triple P (Pass.setScopes new >>= f) Q E :=
  fun _ _ => hf new rfl

end

end Triple

end Pass

end ScriptLang
