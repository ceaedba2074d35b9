import Mathlib.Data.List.TakeWhile

set_option autoImplicit false

namespace Scanning

variable {α : Type} {p q : α → Bool} {front rest s : List α}

def Stops (p : α → Bool) (s : List α) : Prop :=
  ∀ c ∈ s.head?, p c = false

@[simp] theorem stops_nil : Stops p [] := by simp [Stops]

@[simp] theorem stops_cons {c : α} : Stops p (c :: s) ↔ p c = false := by simp [Stops]

theorem Stops.mono (stops : Stops q s) (weaker : ∀ c, p c = true → q c = true) : Stops p s := by
  intro c first
  cases accepted : p c with
  | false => rfl
  | true => rw [← weaker c accepted, stops c first]

theorem stops_dropWhile (p : α → Bool) (s : List α) : Stops p (s.dropWhile p) := by
  intro c first
  have kept := List.head?_dropWhile_not p s
  rw [Option.mem_def.mp first] at kept
  exact kept

theorem bne_of_absent [DecidableEq α] {mark : α} (absent : mark ∉ s) :
    ∀ c ∈ s, (c != mark) = true := by
  intro c member
  rw [bne_iff_ne]
  rintro rfl
  exact absent member

theorem Stops.takeWhile (stops : Stops p s) : s.takeWhile p = [] := by
  cases s with
  | nil => rfl
  | cons c tail =>
      rw [stops_cons] at stops
      simp [stops]

theorem Stops.dropWhile (stops : Stops p s) : s.dropWhile p = s := by
  cases s with
  | nil => rfl
  | cons c tail =>
      rw [stops_cons] at stops
      simp [stops]

theorem takeWhile_append (stops : Stops p rest) :
    (front ++ rest).takeWhile p = front.takeWhile p := by
  induction front with
  | nil => exact stops.takeWhile
  | cons c tail ih => by_cases accepted : p c = true <;> simp [accepted, ih]

theorem dropWhile_append (stops : Stops p rest) :
    (front ++ rest).dropWhile p = front.dropWhile p ++ rest := by
  induction front with
  | nil => exact stops.dropWhile
  | cons c tail ih => by_cases accepted : p c = true <;> simp [accepted, ih]

theorem takeWhile_whole (whole : ∀ c ∈ front, p c = true) (stops : Stops p rest) :
    (front ++ rest).takeWhile p = front := by
  rw [takeWhile_append stops, List.takeWhile_eq_self_iff.mpr whole]

theorem dropWhile_whole (whole : ∀ c ∈ front, p c = true) (stops : Stops p rest) :
    (front ++ rest).dropWhile p = rest := by
  rw [dropWhile_append stops, List.dropWhile_eq_nil_iff.mpr whole, List.nil_append]

end Scanning
