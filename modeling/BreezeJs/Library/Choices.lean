import Mathlib.Data.List.Basic

set_option autoImplicit false

namespace Choices

variable {σ : Type}

def exactly (f : σ → List σ) : Nat → σ → List σ
  | 0, x => [x]
  | n + 1, x => (f x).flatMap (exactly f n)

-- Up to a number of rounds, as many as possible first or as few.
def upTo (f : σ → List σ) (greedy : Bool) : Nat → σ → List σ
  | 0, x => [x]
  | n + 1, x =>
      let more := (f x).flatMap (upTo f greedy n)
      if greedy then more ++ [x] else x :: more

section Related

variable {f : σ → List σ} {relation : σ → σ → Prop}

theorem exactly_related (refl : ∀ x, relation x x)
    (trans : ∀ x y z, relation x y → relation y z → relation x z)
    (round : ∀ x, ∀ y ∈ f x, relation x y) (n : Nat) (x : σ) :
    ∀ z ∈ exactly f n x, relation x z := by
  induction n generalizing x with
  | zero => simp [exactly, refl]
  | succ n ih =>
      intro z member
      obtain ⟨y, first, later⟩ := List.mem_flatMap.mp member
      exact trans x y z (round x y first) (ih y z later)

theorem upTo_related (refl : ∀ x, relation x x)
    (trans : ∀ x y z, relation x y → relation y z → relation x z)
    (round : ∀ x, ∀ y ∈ f x, relation x y) (greedy : Bool) (n : Nat) (x : σ) :
    ∀ z ∈ upTo f greedy n x, relation x z := by
  induction n generalizing x with
  | zero => simp [upTo, refl]
  | succ n ih =>
      have more : ∀ z ∈ (f x).flatMap (upTo f greedy n), relation x z := by
        intro z member
        obtain ⟨y, first, later⟩ := List.mem_flatMap.mp member
        exact trans x y z (round x y first) (ih y z later)
      intro z member
      simp only [upTo] at member
      split at member
      · rcases List.mem_append.mp member with earlier | last
        · exact more z earlier
        · rw [List.mem_singleton.mp last]
          exact refl x
      · rcases List.mem_cons.mp member with rfl | later
        · exact refl _
        · exact more z later

theorem exactly_holds {holds : σ → Prop} (keeps : ∀ x, holds x → ∀ y ∈ f x, holds y) (n : Nat)
    {x : σ} (start : holds x) : ∀ y ∈ exactly f n x, holds y := by
  intro y member
  exact @exactly_related σ f (fun x y => holds x → holds y) (fun _ h => h)
    (fun _ _ _ first second h => second (first h)) (fun x y member h => keeps x h y member) n x y
    member start

theorem upTo_holds {holds : σ → Prop} (keeps : ∀ x, holds x → ∀ y ∈ f x, holds y) (greedy : Bool)
    (n : Nat) {x : σ} (start : holds x) : ∀ y ∈ upTo f greedy n x, holds y := by
  intro y member
  exact @upTo_related σ f (fun x y => holds x → holds y) (fun _ h => h)
    (fun _ _ _ first second h => second (first h)) (fun x y member h => keeps x h y member) greedy
    n x y member start

end Related

theorem upTo_enough {f : σ → List σ} (holds : σ → Prop) (measure : σ → Nat)
    (round : ∀ x, holds x → ∀ y ∈ f x, holds y ∧ measure y < measure x) (greedy : Bool)
    {n m : Nat} {x : σ} (start : holds x) (first : measure x < n) (second : measure x < m) :
    upTo f greedy n x = upTo f greedy m x := by
  induction n generalizing m x with
  | zero => omega
  | succ n ih =>
      cases m with
      | zero => omega
      | succ m =>
          have same : (f x).flatMap (upTo f greedy n) = (f x).flatMap (upTo f greedy m) := by
            apply List.flatMap_congr
            intro y member
            have less := round x start y member
            exact ih less.1 (by omega) (by omega)
          simp only [upTo, same]

theorem flatMap_filter {τ : Type} (holds : σ → Bool) (l : List σ) (found : σ → List τ) :
    (l.filter holds).flatMap found = l.flatMap fun y => if holds y then found y else [] := by
  induction l with
  | nil => rfl
  | cons y rest ih => by_cases kept : holds y = true <;> simp [kept, ih]

theorem upTo_flatMap {τ : Type} (f : σ → List σ) (greedy : Bool) (n : Nat) (x : σ)
    (found : σ → List τ) :
    (upTo f greedy (n + 1) x).flatMap found =
      if greedy then (f x).flatMap (fun y => (upTo f greedy n y).flatMap found) ++ found x
      else found x ++ (f x).flatMap (fun y => (upTo f greedy n y).flatMap found) := by
  cases greedy <;> simp [upTo, List.flatMap_assoc]

theorem mem_upTo {f : σ → List σ} {greedy : Bool} {n : Nat} {x z : σ} :
    z ∈ upTo f greedy (n + 1) x ↔ z = x ∨ ∃ y ∈ f x, z ∈ upTo f greedy n y := by
  cases greedy <;> simp [upTo, or_comm]

section Path

variable {f : σ → List σ} {path : Nat → σ} {n : Nat}

theorem exactly_path (next : ∀ i < n, f (path i) = [path (i + 1)]) {i m : Nat}
    (inside : i + m ≤ n) : exactly f m (path i) = [path (i + m)] := by
  induction m generalizing i with
  | zero => rfl
  | succ m ih =>
      have later := ih (show i + 1 + m ≤ n by omega)
      rw [exactly, next i (by omega), List.flatMap_singleton, later]
      congr 2
      omega

theorem exactly_past (next : ∀ i < n, f (path i) = [path (i + 1)]) (stops : f (path n) = [])
    {i m : Nat} (inside : i ≤ n) (past : n < i + m) : exactly f m (path i) = [] := by
  induction m generalizing i with
  | zero => omega
  | succ m ih =>
      rcases Nat.lt_or_eq_of_le inside with before | rfl
      · rw [exactly, next i before, List.flatMap_singleton]
        exact ih (by omega) (by omega)
      · rw [exactly, stops, List.flatMap_nil]

theorem upTo_path (next : ∀ i < n, f (path i) = [path (i + 1)]) {i m : Nat}
    (inside : i + m ≤ n) :
    upTo f true m (path i) = (List.range (m + 1)).map fun j => path (i + m - j) := by
  induction m generalizing i with
  | zero => simp [upTo]
  | succ m ih =>
      have later := ih (show i + 1 + m ≤ n by omega)
      have same : i + 1 + m = i + (m + 1) := by omega
      have last : i + (m + 1) - (m + 1) = i := by omega
      rw [List.range_succ, List.map_append, List.map_singleton, last, upTo, if_pos rfl,
        next i (by omega), List.flatMap_singleton, later, same]

theorem upTo_stops (next : ∀ i < n, f (path i) = [path (i + 1)]) (stops : f (path n) = [])
    {i m : Nat} (inside : i ≤ n) (enough : n ≤ i + m) :
    upTo f true m (path i) = upTo f true (n - i) (path i) := by
  induction m generalizing i with
  | zero =>
      have last : n - i = 0 := by omega
      rw [last]
  | succ m ih =>
      rcases Nat.lt_or_eq_of_le inside with before | rfl
      · have count : n - i = (n - (i + 1)) + 1 := by omega
        rw [count, upTo, upTo, next i before, List.flatMap_singleton, List.flatMap_singleton,
          ih (show i + 1 ≤ n by omega) (by omega)]
      · simp [upTo, stops]

end Path

end Choices
