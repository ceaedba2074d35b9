import Mathlib.Data.List.Basic
import Mathlib.Logic.Function.Basic
import Mathlib.Tactic.SplitIfs

set_option autoImplicit false

namespace Backtrack

-- A matcher hands the rest of the list to a continuation, so that the first success in greedy order
-- is the match.

variable {α β : Type}

inductive Pattern (α : Type) where
  | char (accepts : α → Bool)
  | many (least : Nat) (accepts : α → Bool)
  | seq (first second : Pattern α)
  | opt (body : Pattern α)
  | group (index : Nat) (body : Pattern α)

-- A group that did not take part in the match is empty.
abbrev Groups (α : Type) := Nat → List α

def greedy (accepts : α → Bool) (k : List α → Option β) : Nat → List α → Option β
  | 0, [] => k []
  | _ + 1, [] => none
  | least, c :: rest =>
      let stop := if least = 0 then k (c :: rest) else none
      if accepts c then (greedy accepts k (least - 1) rest).or stop else stop

def run : Pattern α → List α → Groups α → (List α → Groups α → Option β) → Option β
  | .char _, [], _, _ => none
  | .char accepts, c :: rest, groups, k => if accepts c then k rest groups else none
  | .many least accepts, s, groups, k => greedy accepts (fun rest => k rest groups) least s
  | .seq first second, s, groups, k =>
      run first s groups fun rest groups => run second rest groups k
  | .opt body, s, groups, k => (run body s groups k).or (k s groups)
  | .group index body, s, groups, k =>
      run body s groups fun rest groups =>
        k rest (Function.update groups index (s.take (s.length - rest.length)))

def fullMatch (pattern : Pattern α) (s : List α) : Option (Groups α) :=
  run pattern s (fun _ => []) fun rest groups => if rest.isEmpty then some groups else none

section Greedy

variable {accepts : α → Bool} {k : List α → Option β} {least : Nat} {s : List α}

theorem greedy_longest (enough : least ≤ (s.takeWhile accepts).length)
    (found : (k (s.dropWhile accepts)).isSome) :
    greedy accepts k least s = k (s.dropWhile accepts) := by
  induction s generalizing least with
  | nil =>
      cases Nat.le_zero.mp enough
      rfl
  | cons c rest ih =>
      by_cases accepted : accepts c = true
      · rw [List.dropWhile_cons_of_pos accepted] at found ⊢
        rw [List.takeWhile_cons_of_pos accepted] at enough
        have fewer : least - 1 ≤ (rest.takeWhile accepts).length := by
          simp only [List.length_cons] at enough
          omega
        have longest := ih fewer found
        rw [greedy, if_pos accepted, longest, Option.or_of_isSome found]
      · rw [List.dropWhile_cons_of_neg accepted]
        rw [List.takeWhile_cons_of_neg accepted] at enough
        rw [greedy, if_neg accepted, if_pos (Nat.le_zero.mp enough)]

theorem greedy_short (short : (s.takeWhile accepts).length < least) :
    greedy accepts k least s = none := by
  induction s generalizing least with
  | nil =>
      cases least with
      | zero => simp at short
      | succ least => rfl
  | cons c rest ih =>
      have some : least ≠ 0 := by omega
      by_cases accepted : accepts c = true
      · rw [List.takeWhile_cons_of_pos accepted, List.length_cons] at short
        rw [greedy, if_pos accepted, ih (by omega), if_neg some, Option.or_none]
      · rw [greedy, if_neg accepted, if_neg some]

theorem greedy_only (only : ∀ c rest, accepts c = true → k (c :: rest) = none) :
    greedy accepts k least s =
      if least ≤ (s.takeWhile accepts).length then k (s.dropWhile accepts) else none := by
  induction s generalizing least with
  | nil => cases least <;> simp [greedy]
  | cons c rest ih =>
      by_cases accepted : accepts c = true
      · simp only [greedy, accepted, if_true, ih, only c rest accepted, ite_self, Option.or_none,
          List.takeWhile_cons, List.dropWhile_cons, List.length_cons, Nat.sub_le_iff_le_add]
      · simp [greedy, accepted]

theorem greedy_guard {g : List α → Bool}
    (keeps : ∀ c rest, accepts c = true → g (c :: rest) = g rest) :
    greedy accepts (fun rest => if g rest then k rest else none) least s =
      if g s then greedy accepts k least s else none := by
  induction s generalizing least with
  | nil => cases least <;> simp [greedy]
  | cons c rest ih =>
      by_cases accepted : accepts c = true
      · simp only [greedy, accepted, if_true, ih, keeps c rest accepted]
        cases g rest <;> simp
      · simp only [greedy, accepted, Bool.false_eq_true, if_false]
        cases g (c :: rest) <;> simp

end Greedy

section Run

variable {groups : Groups α} {k : List α → Groups α → Option β} {s : List α}

@[simp] theorem run_seq (first second : Pattern α) :
    run (.seq first second) s groups k =
      run first s groups fun rest groups => run second rest groups k := rfl

@[simp] theorem run_opt (body : Pattern α) :
    run (.opt body) s groups k = (run body s groups k).or (k s groups) := rfl

theorem consumed_dropWhile (accepts : α → Bool) (s : List α) :
    s.take (s.length - (s.dropWhile accepts).length) = s.takeWhile accepts := by
  have split := List.takeWhile_append_dropWhile (p := accepts) (l := s)
  have lengths := congrArg List.length split
  rw [List.length_append] at lengths
  conv_lhs => rw [← split]
  exact List.take_left' (by rw [split]; omega)

theorem run_group_longest {index least : Nat} {accepts : α → Bool}
    (enough : least ≤ (s.takeWhile accepts).length)
    (found : (k (s.dropWhile accepts)
      (Function.update groups index (s.takeWhile accepts))).isSome) :
    run (.group index (.many least accepts)) s groups k =
      k (s.dropWhile accepts) (Function.update groups index (s.takeWhile accepts)) := by
  rw [← consumed_dropWhile accepts s] at found ⊢
  exact greedy_longest enough found

theorem run_group_short {index least : Nat} {accepts : α → Bool}
    (short : (s.takeWhile accepts).length < least) :
    run (.group index (.many least accepts)) s groups k = none :=
  greedy_short short

theorem run_group_only {index least : Nat} {accepts : α → Bool}
    (only : ∀ c rest groups, accepts c = true → k (c :: rest) groups = none) :
    run (.group index (.many least accepts)) s groups k =
      if least ≤ (s.takeWhile accepts).length then
        k (s.dropWhile accepts) (Function.update groups index (s.takeWhile accepts))
      else none := by
  simp only [run]
  rw [greedy_only, consumed_dropWhile]
  exact fun c rest accepted => only c rest _ accepted

def Pattern.Keeps (g : List α → Bool) : Pattern α → Prop
  | .char accepts | .many _ accepts => ∀ c rest, accepts c = true → g (c :: rest) = g rest
  | .seq first second => first.Keeps g ∧ second.Keeps g
  | .opt body | .group _ body => body.Keeps g

theorem run_guard {g : List α → Bool} (pattern : Pattern α) (keeps : pattern.Keeps g) :
    run pattern s groups (fun rest groups => if g rest then k rest groups else none) =
      if g s then run pattern s groups k else none := by
  induction pattern generalizing s groups k with
  | char accepts =>
      cases s with
      | nil => simp [run]
      | cons c rest =>
          by_cases accepted : accepts c = true
          · simp only [run, accepted, if_true, keeps c rest accepted]
          · simp [run, accepted]
  | many least accepts => exact greedy_guard keeps
  | seq first second first_ih second_ih =>
      simp only [run_seq, second_ih keeps.2, first_ih keeps.1]
  | opt body ih =>
      simp only [run_opt, ih keeps]
      cases g s <;> simp
  | group index body ih => exact ih keeps

end Run

end Backtrack
