import Mathlib.Algebra.Order.Ring.Int
import Mathlib.Tactic.Ring

set_option autoImplicit false

namespace SizedCode

variable {ι : Type} (size : ι → Nat)

def length : List ι → Nat
  | [] => 0
  | i :: code => size i + length code

def fetch : List ι → Int → Option ι
  | [], _ => none
  | i :: code, pc => if pc = 0 then some i else fetch code (pc - size i)

def CodeAt (program : List ι) (pc : Int) (code : List ι) : Prop :=
  ∃ before after, program = before ++ code ++ after ∧ pc = length size before

@[simp] theorem length_nil : length size [] = 0 := rfl

@[simp] theorem length_cons (i : ι) (code : List ι) :
    length size (i :: code) = size i + length size code := rfl

@[simp] theorem length_append (a b : List ι) :
    length size (a ++ b) = length size a + length size b := by
  induction a with
  | nil => simp
  | cons i rest ih => simp [ih, Nat.add_assoc]

variable {size} {program a b code : List ι} {pc : Int} {i : ι}

theorem fetch_append (sized : ∀ i, 0 < size i) (before after : List ι) (i : ι) :
    fetch size (before ++ i :: after) (length size before) = some i := by
  induction before with
  | nil => simp [fetch]
  | cons j rest ih =>
      have away : ¬ ((length size (j :: rest) : Int) = 0) := by
        have positive := sized j
        simp only [length_cons]
        omega
      have here : ((length size (j :: rest) : Int) - size j) = length size rest := by
        simp only [length_cons]
        omega
      simp only [List.cons_append, fetch, away, if_false, here]
      exact ih

theorem CodeAt.fetch (sized : ∀ i, 0 < size i) (placed : CodeAt size program pc (i :: code)) :
    SizedCode.fetch size program pc = some i := by
  obtain ⟨before, after, rfl, rfl⟩ := placed
  have split : before ++ (i :: code) ++ after = before ++ i :: (code ++ after) := by simp
  rw [split]
  exact fetch_append sized before (code ++ after) i

theorem CodeAt.left (placed : CodeAt size program pc (a ++ b)) : CodeAt size program pc a := by
  obtain ⟨before, after, rfl, rfl⟩ := placed
  exact ⟨before, b ++ after, by simp, rfl⟩

theorem CodeAt.right {next : Int} (placed : CodeAt size program pc (a ++ b))
    (address : next = pc + length size a) : CodeAt size program next b := by
  obtain ⟨before, after, rfl, rfl⟩ := placed
  refine ⟨before ++ a, after, by simp, ?_⟩
  rw [address, length_append]
  omega

theorem CodeAt.tail {next : Int} (placed : CodeAt size program pc (i :: code))
    (address : next = pc + size i) : CodeAt size program next code := by
  have split : CodeAt size program pc ([i] ++ code) := placed
  apply split.right
  simpa using address

theorem CodeAt.whole (code : List ι) : CodeAt size code 0 code :=
  ⟨[], [], by simp, rfl⟩

end SizedCode
