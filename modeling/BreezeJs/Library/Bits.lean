import Mathlib.Data.Nat.Bitwise

set_option autoImplicit false

namespace Bits

def bits : Nat → Nat → List Bool
  | 0, _ => []
  | w + 1, n => n.testBit w :: bits w n

@[simp] theorem length_bits (w n : Nat) : (bits w n).length = w := by
  induction w with
  | zero => rfl
  | succ w ih => rw [bits, List.length_cons, ih]

theorem bits_congr {w m n : Nat} (same : ∀ i < w, m.testBit i = n.testBit i) :
    bits w m = bits w n := by
  induction w with
  | zero => rfl
  | succ w ih =>
      rw [bits, bits, same w (Nat.lt_succ_self w),
        ih fun i below => same i (Nat.lt_succ_of_lt below)]

theorem testBit_of_bits {w m n : Nat} (same : bits w m = bits w n) {i : Nat} (below : i < w) :
    m.testBit i = n.testBit i := by
  induction w with
  | zero => exact absurd below (Nat.not_lt_zero i)
  | succ w ih =>
      obtain ⟨head, rest⟩ := List.cons.inj same
      rcases Nat.lt_succ_iff_lt_or_eq.mp below with lower | rfl
      · exact ih rest lower
      · exact head

@[simp] theorem bits_mod {w k : Nat} (n : Nat) (within : w ≤ k) :
    bits w (n % 2 ^ k) = bits w n := by
  apply bits_congr
  intro i below
  rw [Nat.testBit_mod_two_pow, decide_eq_true (by omega), Bool.true_and]

theorem bits_append (k w n : Nat) : bits (k + w) n = bits k (n / 2 ^ w) ++ bits w n := by
  induction k with
  | zero => rw [Nat.zero_add, bits, List.nil_append]
  | succ k ih =>
      rw [Nat.succ_add, bits, bits, ih, Nat.testBit_div_two_pow, Nat.add_comm k w, List.cons_append]

theorem bits_push (k w n : Nat) {digit : Nat} (small : digit < 2 ^ w) :
    bits (k + w) (n * 2 ^ w + digit) = bits k n ++ bits w digit := by
  have above : (n * 2 ^ w + digit) / 2 ^ w = n := by
    rw [Nat.add_comm, Nat.add_mul_div_right _ _ (Nat.two_pow_pos w), Nat.div_eq_of_lt small,
      Nat.zero_add]
  have below : bits w (n * 2 ^ w + digit) = bits w digit := by
    rw [← bits_mod _ (Nat.le_refl w), Nat.add_comm, Nat.add_mul_mod_self_right,
      bits_mod _ (Nat.le_refl w)]
  rw [bits_append, above, below]

theorem bits_zero (w : Nat) : bits w 0 = List.replicate w false := by
  induction w with
  | zero => rfl
  | succ w ih => rw [bits, Nat.zero_testBit, ih, List.replicate_succ]

theorem bits_injective {w m n : Nat} (first : m < 2 ^ w) (second : n < 2 ^ w)
    (same : bits w m = bits w n) : m = n := by
  rw [← Nat.mod_eq_of_lt first, ← Nat.mod_eq_of_lt second]
  apply Nat.eq_of_testBit_eq
  intro i
  rw [Nat.testBit_mod_two_pow, Nat.testBit_mod_two_pow]
  by_cases below : i < w
  · rw [testBit_of_bits same below]
  · rw [decide_eq_false below, Bool.false_and, Bool.false_and]

def stream (w : Nat) (digits : List Nat) : List Bool :=
  digits.flatMap (bits w)

@[simp] theorem stream_nil (w : Nat) : stream w [] = [] := rfl

@[simp] theorem stream_cons (w n : Nat) (rest : List Nat) :
    stream w (n :: rest) = bits w n ++ stream w rest := rfl

@[simp] theorem stream_append (w : Nat) (first second : List Nat) :
    stream w (first ++ second) = stream w first ++ stream w second :=
  List.flatMap_append

theorem stream_injective {w : Nat} {first second : List Nat} {rest other : List Bool}
    (firstSmall : ∀ n ∈ first, n < 2 ^ w) (secondSmall : ∀ n ∈ second, n < 2 ^ w)
    (short : rest.length < w) (otherShort : other.length < w)
    (same : stream w first ++ rest = stream w second ++ other) : first = second := by
  induction first generalizing second with
  | nil =>
      cases second with
      | nil => rfl
      | cons n tail =>
          have lengths := congrArg List.length same
          simp only [stream_nil, stream_cons, List.length_append, List.length_nil,
            length_bits] at lengths
          omega
  | cons m tail ih =>
      cases second with
      | nil =>
          have lengths := congrArg List.length same
          simp only [stream_nil, stream_cons, List.length_append, List.length_nil,
            length_bits] at lengths
          omega
      | cons n others =>
          rw [List.forall_mem_cons] at firstSmall secondSmall
          simp only [stream_cons, List.append_assoc] at same
          obtain ⟨head, after⟩ := List.append_inj same (by simp)
          rw [bits_injective firstSmall.1 secondSmall.1 head,
            ih firstSmall.2 secondSmall.2 after]

end Bits
