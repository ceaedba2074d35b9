import BreezeJs.Library.Choices

set_option autoImplicit false

namespace Choices

variable {σ τ : Type} {r s : τ → τ → Prop} {a b c : τ} {n m : Nat}

def power (r : τ → τ → Prop) : Nat → τ → τ → Prop
  | 0, a, b => a = b
  | n + 1, a, c => ∃ b, r a b ∧ power r n b c

theorem power_mono (weaker : ∀ a b, r a b → s a b) (path : power r n a b) : power s n a b := by
  induction n generalizing a with
  | zero => exact path
  | succ n ih =>
      obtain ⟨c, first, rest⟩ := path
      exact ⟨c, weaker a c first, ih rest⟩

theorem power_add : power r (m + n) a c ↔ ∃ b, power r m a b ∧ power r n b c := by
  induction m generalizing a with
  | zero => simp [power]
  | succ m ih =>
      rw [Nat.succ_add]
      constructor
      · rintro ⟨d, first, rest⟩
        obtain ⟨b, early, late⟩ := ih.mp rest
        exact ⟨b, ⟨d, first, early⟩, late⟩
      · rintro ⟨b, ⟨d, first, early⟩, late⟩
        exact ⟨d, first, ih.mpr ⟨b, early, late⟩⟩

theorem power_one : power r 1 a b ↔ r a b := by
  simp [power]

theorem power_flip : power (fun a b => r b a) n a b ↔ power r n b a := by
  induction n generalizing a with
  | zero => exact eq_comm
  | succ n ih =>
      have last : power r (n + 1) b a ↔ ∃ c, power r n b c ∧ r c a := by
        rw [power_add]
        simp only [power_one]
      rw [last]
      exact exists_congr fun c => (and_congr_right fun _ => ih).trans and_comm

theorem power_moving (path : power r n a b) :
    ∃ m ≤ n, power (fun a b => r a b ∧ b ≠ a) m a b := by
  induction n generalizing a with
  | zero => exact ⟨0, Nat.le_refl 0, path⟩
  | succ n ih =>
      obtain ⟨c, first, rest⟩ := path
      obtain ⟨m, small, moving⟩ := ih rest
      by_cases stays : c = a
      · rw [stays] at moving
        exact ⟨m, by omega, moving⟩
      · exact ⟨m + 1, by omega, c, ⟨first, stays⟩, moving⟩

def Follows (f : σ → List σ) (key : σ → τ) (holds : σ → Prop) (r : τ → τ → Prop) : Prop :=
  ∀ x, holds x → (∀ y ∈ f x, holds y) ∧ ∀ k, (∃ y ∈ f x, key y = k) ↔ r (key x) k

section Follows

variable {f g : σ → List σ} {key : σ → τ} {holds : σ → Prop} {x : σ} {k : τ}

theorem Follows.flatMap (first : Follows f key holds r) (second : Follows g key holds s) :
    Follows (fun x => (f x).flatMap g) key holds (fun a c => ∃ b, r a b ∧ s b c) := by
  intro x start
  constructor
  · intro z member
    obtain ⟨y, early, late⟩ := List.mem_flatMap.mp member
    exact (second y ((first x start).1 y early)).1 z late
  · intro k
    constructor
    · rintro ⟨z, member, rfl⟩
      obtain ⟨y, early, late⟩ := List.mem_flatMap.mp member
      have middle := (first x start).1 y early
      exact ⟨key y, ((first x start).2 _).mp ⟨y, early, rfl⟩,
        ((second y middle).2 _).mp ⟨z, late, rfl⟩⟩
    · rintro ⟨b, early, late⟩
      obtain ⟨y, member, rfl⟩ := ((first x start).2 b).mpr early
      obtain ⟨z, later, rfl⟩ := ((second y ((first x start).1 y member)).2 k).mpr late
      exact ⟨z, List.mem_flatMap_of_mem member later, rfl⟩

theorem Follows.congr (follows : Follows f key holds r) (same : ∀ a b, r a b ↔ s a b) :
    Follows f key holds s :=
  fun x start => ⟨(follows x start).1, fun k => ((follows x start).2 k).trans (same _ k)⟩

theorem Follows.append (first : Follows f key holds r) (second : Follows g key holds s) :
    Follows (fun x => f x ++ g x) key holds (fun a b => r a b ∨ s a b) := by
  intro x start
  constructor
  · intro y member
    rcases List.mem_append.mp member with early | late
    · exact (first x start).1 y early
    · exact (second x start).1 y late
  · intro k
    simp only [List.mem_append, or_and_right, exists_or, (first x start).2 k, (second x start).2 k]

theorem Follows.exactly (follows : Follows f key holds r) (n : Nat) :
    Follows (exactly f n) key holds (power r n) := by
  induction n with
  | zero =>
      intro x start
      simp [Choices.exactly, power, start]
  | succ n ih => exact follows.flatMap ih

theorem mem_upTo_exactly {greedy : Bool} {z : σ} :
    z ∈ upTo f greedy n x ↔ ∃ m ≤ n, z ∈ Choices.exactly f m x := by
  induction n generalizing x with
  | zero => simp [upTo, Choices.exactly]
  | succ n ih =>
      rw [mem_upTo]
      constructor
      · rintro (rfl | ⟨y, first, later⟩)
        · exact ⟨0, by omega, by simp [Choices.exactly]⟩
        · obtain ⟨m, small, rest⟩ := ih.mp later
          exact ⟨m + 1, by omega, List.mem_flatMap_of_mem first rest⟩
      · rintro ⟨m, small, member⟩
        cases m with
        | zero => exact .inl (List.mem_singleton.mp member)
        | succ m =>
            obtain ⟨y, first, rest⟩ := List.mem_flatMap.mp member
            exact .inr ⟨y, first, ih.mpr ⟨m, by omega, rest⟩⟩

theorem Follows.upTo (follows : Follows f key holds r) (greedy : Bool) (n : Nat) :
    Follows (upTo f greedy n) key holds (fun a b => ∃ m ≤ n, power r m a b) := by
  intro x start
  constructor
  · intro y member
    obtain ⟨m, _, later⟩ := mem_upTo_exactly.mp member
    exact (follows.exactly m x start).1 y later
  · intro k
    constructor
    · rintro ⟨y, member, rfl⟩
      obtain ⟨m, small, later⟩ := mem_upTo_exactly.mp member
      exact ⟨m, small, ((follows.exactly m x start).2 _).mp ⟨y, later, rfl⟩⟩
    · rintro ⟨m, small, path⟩
      obtain ⟨y, later, rfl⟩ := ((follows.exactly m x start).2 k).mpr path
      exact ⟨y, mem_upTo_exactly.mpr ⟨m, small, later⟩, rfl⟩

end Follows

end Choices
