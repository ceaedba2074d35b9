import Mathlib.Order.Defs.Unbundled

set_option autoImplicit false

namespace UpToError

variable {ε σ α β : Type}

inductive Alike : EStateM.Result ε σ α → EStateM.Result ε σ α → Prop
  | ok (a : α) (s : σ) : Alike (.ok a s) (.ok a s)
  | error (e e' : ε) (s : σ) : Alike (.error e s) (.error e' s)

def final : EStateM.Result ε σ α → σ
  | .ok _ s | .error _ s => s

theorem Alike.refl (result : EStateM.Result ε σ α) : Alike result result := by
  cases result with
  | ok a s => exact .ok a s
  | error e s => exact .error e e s

theorem Alike.final_eq {first second : EStateM.Result ε σ α} (alike : Alike first second) :
    final first = final second := by
  cases alike <;> rfl

theorem bind_of_ok {x : EStateM ε σ α} {f : α → EStateM ε σ β} {s t : σ} {a : α}
    (first : x s = .ok a t) : (x >>= f) s = f a t := by
  simp only [bind, EStateM.bind, first]

theorem bind_of_error {x : EStateM ε σ α} {f : α → EStateM ε σ β} {s t : σ} {e : ε}
    (first : x s = .error e t) : (x >>= f) s = .error e t := by
  simp only [bind, EStateM.bind, first]

theorem Alike.bind {x y : EStateM ε σ α} {f g : α → EStateM ε σ β} {s : σ}
    (first : Alike (x s) (y s)) (later : ∀ a t, Alike (f a t) (g a t)) :
    Alike ((x >>= f) s) ((y >>= g) s) := by
  cases left : x s with
  | ok a t =>
      rw [left] at first
      cases right : y s with
      | ok b u =>
          rw [right] at first
          cases first
          rw [bind_of_ok left, bind_of_ok right]
          exact later a t
      | error e u =>
          rw [right] at first
          cases first
  | error e t =>
      rw [left] at first
      cases right : y s with
      | ok b u =>
          rw [right] at first
          cases first
      | error e' u =>
          rw [right] at first
          cases first
          rw [bind_of_error left, bind_of_error right]
          exact .error e e' t

def Within (relation : σ → σ → Prop) (x : EStateM ε σ α) : Prop :=
  ∀ s, relation s (final (x s))

theorem Within.bind {relation : σ → σ → Prop} [IsTrans σ relation] {x : EStateM ε σ α}
    {f : α → EStateM ε σ β} (first : Within relation x) (later : ∀ a, Within relation (f a)) :
    Within relation (x >>= f) := by
  intro s
  have kept := first s
  cases result : x s with
  | ok a t =>
      rw [result] at kept
      rw [bind_of_ok result]
      exact trans_of relation kept (later a t)
  | error e t =>
      rw [result] at kept
      rwa [bind_of_error result]

end UpToError
