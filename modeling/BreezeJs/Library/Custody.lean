import Mathlib.Logic.Function.Basic

set_option autoImplicit false

namespace Custody

variable {ι κ : Type}

structure Exclusive (held : ι → Option κ) (outstanding : κ → Prop) : Prop where
  unique : ∀ i j k, held i = some k → held j = some k → i = j
  outstanding_iff : ∀ k, outstanding k ↔ ∃ i, held i = some k

variable {held : ι → Option κ} {outstanding later : κ → Prop}

theorem Exclusive.empty (nothing : ∀ k, ¬ outstanding k) :
    Exclusive (fun _ : ι => none) outstanding := by
  constructor
  · intro i j k here
    cases here
  · intro k
    constructor
    · intro out
      exact absurd out (nothing k)
    · rintro ⟨i, here⟩
      cases here

theorem Exclusive.outstanding_of_held (custody : Exclusive held outstanding) {i : ι} {k : κ}
    (here : held i = some k) : outstanding k :=
  (custody.outstanding_iff k).mpr ⟨i, here⟩

section Moves

variable [DecidableEq ι]

theorem update_eq_some {i j : ι} {token : Option κ} {k : κ} :
    Function.update held i token j = some k ↔
      (j = i ∧ token = some k) ∨ (j ≠ i ∧ held j = some k) := by
  by_cases same : j = i
  · subst same
    simp
  · simp [same]

theorem forall_update {property : κ → Prop} {i : ι} {token : Option κ}
    (before : ∀ j k, held j = some k → property k) (given : ∀ k, token = some k → property k) :
    ∀ j k, Function.update held i token j = some k → property k := by
  intro j k here
  rcases update_eq_some.mp here with ⟨_, here⟩ | ⟨_, here⟩
  · exact given k here
  · exact before j k here

theorem Exclusive.grant (custody : Exclusive held outstanding) {i : ι} {k : κ}
    (free : held i = none) (fresh : ¬ outstanding k)
    (after : ∀ other, later other ↔ outstanding other ∨ other = k) :
    Exclusive (Function.update held i (some k)) later := by
  have unheld (j : ι) : held j ≠ some k := by
    intro here
    exact fresh (custody.outstanding_of_held here)
  constructor
  · intro j l token first second
    rw [update_eq_some] at first second
    rcases first with ⟨rfl, given⟩ | ⟨_, first⟩
    · cases given
      rcases second with ⟨rfl, _⟩ | ⟨_, second⟩
      · rfl
      · exact absurd second (unheld l)
    · rcases second with ⟨_, given⟩ | ⟨_, second⟩
      · cases given
        exact absurd first (unheld j)
      · exact custody.unique j l token first second
  · intro token
    rw [after, custody.outstanding_iff]
    constructor
    · intro out
      rcases out with ⟨j, here⟩ | rfl
      · have other : j ≠ i := by
          rintro rfl
          rw [free] at here
          cases here
        exact ⟨j, update_eq_some.mpr (.inr ⟨other, here⟩)⟩
      · exact ⟨i, update_eq_some.mpr (.inl ⟨rfl, rfl⟩)⟩
    · rintro ⟨j, here⟩
      rcases update_eq_some.mp here with ⟨_, given⟩ | ⟨_, here⟩
      · exact .inr (Option.some.inj given).symm
      · exact .inl ⟨j, here⟩

theorem Exclusive.release (custody : Exclusive held outstanding) {i : ι} {k : κ}
    (here : held i = some k) (after : ∀ other, later other ↔ outstanding other ∧ other ≠ k) :
    Exclusive (Function.update held i none) later := by
  constructor
  · intro j l token first second
    rcases update_eq_some.mp first with ⟨_, gone⟩ | ⟨_, first⟩
    · cases gone
    · rcases update_eq_some.mp second with ⟨_, gone⟩ | ⟨_, second⟩
      · cases gone
      · exact custody.unique j l token first second
  · intro token
    rw [after, custody.outstanding_iff]
    constructor
    · rintro ⟨⟨j, held⟩, different⟩
      have other : j ≠ i := by
        rintro rfl
        rw [here] at held
        exact different (Option.some.inj held).symm
      exact ⟨j, update_eq_some.mpr (.inr ⟨other, held⟩)⟩
    · rintro ⟨j, held⟩
      rcases update_eq_some.mp held with ⟨_, gone⟩ | ⟨other, held⟩
      · cases gone
      · refine ⟨⟨j, held⟩, ?_⟩
        rintro rfl
        exact other (custody.unique j i token held here)

theorem Exclusive.transfer (custody : Exclusive held outstanding) {i j : ι}
    (free : held i = none) (different : i ≠ j) :
    Exclusive (Function.update (Function.update held j none) i (held j)) outstanding := by
  cases token : held j with
  | none =>
      have kept : Function.update (Function.update held j none) i none = held := by
        rw [← token, Function.update_eq_self, token, ← free, Function.update_eq_self]
      rwa [kept]
  | some k =>
      have away := custody.release token
        (fun _ => Iff.rfl)
      refine away.grant ?_ ?_ ?_
      · rw [Function.update_of_ne different, free]
      · exact fun out => out.2 rfl
      · intro other
        constructor
        · intro out
          by_cases same : other = k
          · exact .inr same
          · exact .inl ⟨out, same⟩
        · rintro (out | rfl)
          · exact out.1
          · exact custody.outstanding_of_held token

end Moves

end Custody
