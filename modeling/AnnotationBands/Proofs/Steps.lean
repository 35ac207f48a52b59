import Mathlib
import AnnotationBands.Error
/-!
# Steps of computations with state

What one step followed by another does, by what the first one does. Flattening,
walking, reading and writing are all such computations.
-/

namespace AnnotationBands

variable {ε σ α β : Type} {x : EStateM ε σ α} {f : α → EStateM ε σ β} {s t : σ}

theorem bind_of_ok {a : α} (h : x s = .ok a t) : (x >>= f) s = f a t := by
  simp only [bind, EStateM.bind, h]

theorem bind_of_error {e : ε} (h : x s = .error e t) : (x >>= f) s = .error e t := by
  simp only [bind, EStateM.bind, h]

/-- Two steps succeed when the first does and the second does from where the
first ends. -/
theorem bind_eq_ok {b : β} {u : σ} : (x >>= f) s = .ok b u ↔ ∃ a t, x s = .ok a t ∧ f a t = .ok b u := by
  cases h : x s with
  | error e t => simp [bind_of_error h]
  | ok a t =>
    rw [bind_of_ok h]
    refine ⟨fun hf => ⟨a, t, rfl, hf⟩, ?_⟩
    rintro ⟨_, _, ⟨⟩, hf⟩
    exact hf

/-- Two steps fail when the first does, or the second from where the first
ends. -/
theorem bind_eq_error {e : ε} {u : σ} :
    (x >>= f) s = .error e u ↔ x s = .error e u ∨ ∃ a t, x s = .ok a t ∧ f a t = .error e u := by
  cases h : x s with
  | error e' t => simp [bind_of_error h]
  | ok a t =>
    rw [bind_of_ok h]
    refine ⟨fun hf => .inr ⟨a, t, rfl, hf⟩, ?_⟩
    rintro (hx | ⟨_, _, ⟨⟩, hf⟩)
    · cases hx
    · exact hf

/-- A step that is made unless a condition holds, which is an error. -/
theorem unless_eq_ok {c : Prop} [Decidable c] {e : ε} {f : β → EStateM ε σ α} {a : α}
    (h : (if c then throw e >>= f else x) s = .ok a t) : x s = .ok a t := by
  by_cases hc : c
  · rw [if_pos hc] at h
    cases h
  · rwa [if_neg hc] at h

theorem map_eq_ok {f : α → β} {r : Except ε α} {y : β} : f <$> r = .ok y ↔ ∃ x, r = .ok x ∧ f x = y := by
  cases r <;> simp [Functor.map, Except.map]

theorem map_eq_error {f : α → β} {r : Except ε α} {e : ε} : f <$> r = .error e ↔ r = .error e := by
  cases r <;> simp [Functor.map, Except.map]

theorem orThrow_eq_ok {r : Except BandError α} {a : α} {s t : σ} :
    BandError.orThrow r s = .ok a t ↔ r = .ok a ∧ s = t := by
  cases r with
  | ok b => simp [BandError.orThrow, pure, EStateM.pure]
  | error e => simp [BandError.orThrow, throw, throwThe, MonadExceptOf.throw, EStateM.throw]

end AnnotationBands
