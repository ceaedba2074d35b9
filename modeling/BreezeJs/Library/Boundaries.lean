import Mathlib.Order.Lattice
import Mathlib.Data.Bool.Basic
import Mathlib.Data.List.Basic

set_option autoImplicit false

namespace Boundaries

variable {α : Type} [LinearOrder α]

def inside : List α → α → Bool
  | [], _ => false
  | p :: points, c => xor (decide (p ≤ c)) (inside points c)

def intervals : List α → List (α × α)
  | [] => []
  | [_] => []
  | lo :: hi :: points => (lo, hi) :: intervals points

theorem inside_of_lt {points : List α} {c : α} (later : ∀ p ∈ points, c < p) :
    inside points c = false := by
  induction points with
  | nil => rfl
  | cons p rest ih =>
      rw [List.forall_mem_cons] at later
      simp [inside, ih later.2, not_le.mpr later.1]

theorem inside_head {points : List α} {p : α} (sorted : (p :: points).Pairwise (· < ·)) :
    inside (p :: points) p = true := by
  simp [inside, inside_of_lt (List.pairwise_cons.mp sorted).1]

theorem outside_below {points : List α} {p c : α} (sorted : (p :: points).Pairwise (· < ·))
    (below : c < p) : inside (p :: points) c = false := by
  apply inside_of_lt
  rw [List.forall_mem_cons]
  exact ⟨below, fun q member => lt_trans below ((List.pairwise_cons.mp sorted).1 q member)⟩

theorem eq_of_inside {a b : List α} (sortedA : a.Pairwise (· < ·)) (sortedB : b.Pairwise (· < ·))
    (same : ∀ c, c ∈ a ∨ c ∈ b → inside a c = inside b c) : a = b := by
  induction a generalizing b with
  | nil =>
      cases b with
      | nil => rfl
      | cons q b =>
          have differ := same q (by simp)
          rw [inside_head sortedB] at differ
          cases differ
  | cons p a ih =>
      cases b with
      | nil =>
          have differ := same p (by simp)
          rw [inside_head sortedA] at differ
          cases differ
      | cons q b =>
          rcases lt_trichotomy p q with less | rfl | greater
          · have differ := same p (by simp)
            rw [inside_head sortedA, outside_below sortedB less] at differ
            cases differ
          · congr 1
            apply ih (List.pairwise_cons.mp sortedA).2 (List.pairwise_cons.mp sortedB).2
            intro c member
            have agree := same c (member.imp (List.mem_cons_of_mem p) (List.mem_cons_of_mem p))
            simpa only [inside, Bool.xor_right_inj] using agree
          · have differ := same q (by simp)
            rw [inside_head sortedB, outside_below sortedA greater] at differ
            cases differ

theorem inside_append (a b : List α) (c : α) :
    inside (a ++ b) c = xor (inside a c) (inside b c) := by
  induction a with
  | nil => simp [inside]
  | cons p rest ih => simp [inside, ih]

omit [LinearOrder α] in
theorem intervals_mem {points : List α} {interval : α × α} (member : interval ∈ intervals points) :
    interval.1 ∈ points ∧ interval.2 ∈ points := by
  induction points using intervals.induct with
  | case1 => simp [intervals] at member
  | case2 p => simp [intervals] at member
  | case3 lo hi points ih =>
      rcases List.mem_cons.mp member with rfl | later
      · simp
      · have found := ih later
        simp [found]

omit [LinearOrder α] in
theorem length_intervals (points : List α) :
    (intervals points).length = points.length / 2 := by
  induction points using intervals.induct with
  | case1 => simp [intervals]
  | case2 p => simp [intervals]
  | case3 lo hi points ih =>
      simp only [intervals, List.length_cons, ih]
      omega

theorem inside_iff {points : List α} (sorted : points.Pairwise (· ≤ ·))
    (even : points.length % 2 = 0) (c : α) :
    inside points c = true ↔ ∃ interval ∈ intervals points, interval.1 ≤ c ∧ c < interval.2 := by
  induction points using intervals.induct with
  | case1 => simp [inside, intervals]
  | case2 p => simp at even
  | case3 lo hi points ih =>
      simp only [List.pairwise_cons, List.forall_mem_cons, List.length_cons] at sorted even
      obtain ⟨⟨less, _⟩, later, sorted⟩ := sorted
      have onward := ih sorted (by omega)
      simp only [inside, intervals, List.mem_cons, or_and_right, exists_or, exists_eq_left,
        ← onward]
      by_cases past : hi ≤ c
      · simp [past, le_trans less past, not_lt.mpr past]
      · have before : inside points c = false :=
          inside_of_lt fun p member => lt_of_lt_of_le (not_le.mp past) (later p member)
        simp [past, before, not_le.mp past]

theorem intervals_lt {points : List α} (sorted : points.Pairwise (· < ·)) :
    ∀ interval ∈ intervals points, interval.1 < interval.2 := by
  induction points using intervals.induct with
  | case1 => simp [intervals]
  | case2 p => simp [intervals]
  | case3 lo hi points ih =>
      simp only [List.pairwise_cons, List.forall_mem_cons] at sorted
      simp only [intervals, List.forall_mem_cons]
      exact ⟨sorted.1.1, ih sorted.2.2⟩

theorem intervals_sorted {points : List α} (sorted : points.Pairwise (· ≤ ·)) :
    (intervals points).Pairwise fun a b => a.2 ≤ b.1 := by
  induction points using intervals.induct with
  | case1 => simp [intervals]
  | case2 p => simp [intervals]
  | case3 lo hi points ih =>
      simp only [List.pairwise_cons, List.forall_mem_cons] at sorted
      simp only [intervals, List.pairwise_cons]
      refine ⟨?_, ih sorted.2.2⟩
      intro interval member
      exact sorted.2.1 _ (intervals_mem member).1

end Boundaries
