set_option autoImplicit false

def Yields {α : Type} (x : Option α) (P : α → Prop) : Prop :=
  ∃ a, x = some a ∧ P a

namespace Yields

variable {α β : Type} {x : Option α} {f : α → Option β} {P Q : α → Prop} {R : β → Prop}

theorem pure {a : α} (holds : P a) : Yields (some a) P :=
  ⟨a, rfl, holds⟩

theorem bind (first : Yields x P) (next : ∀ a, P a → Yields (f a) R) : Yields (x >>= f) R := by
  obtain ⟨a, rfl, holds⟩ := first
  exact next a holds

theorem mono (first : Yields x P) (weaker : ∀ a, P a → Q a) : Yields x Q := by
  obtain ⟨a, ends, holds⟩ := first
  exact ⟨a, ends, weaker a holds⟩

end Yields
