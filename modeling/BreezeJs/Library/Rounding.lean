import Mathlib.Algebra.Order.Group.Unbundled.Int
import Mathlib.Algebra.Ring.Int.Defs
import Mathlib.Tactic.Linarith

set_option autoImplicit false

namespace Rounding

def spacing (precision : Nat) (x : Int) : Nat :=
  2 ^ (x.natAbs.log2 + 1 - precision)

def roundEven (precision : Nat) (x : Int) : Int :=
  let unit : Int := spacing precision x
  let q := x / unit
  let r := x % unit
  if 2 * r < unit ∨ 2 * r = unit ∧ q % 2 = 0 then q * unit else (q + 1) * unit

def Representable (precision : Nat) (x : Int) : Prop :=
  (spacing precision x : Int) ∣ x

variable {p : Nat} {x : Int}

theorem spacing_pos (x : Int) : (0 : Int) < spacing p x := by
  exact_mod_cast Nat.two_pow_pos _

theorem roundEven_cases (x : Int) :
    ∃ q r : Int, x = q * spacing p x + r ∧ 0 ≤ r ∧ r < spacing p x ∧
      (roundEven p x = q * spacing p x ∧ 2 * r ≤ spacing p x ∨
        roundEven p x = (q + 1) * spacing p x ∧
          (spacing p x : Int) ≤ 2 * r) := by
  have unit := spacing_pos (p := p) x
  refine ⟨x / spacing p x, x % spacing p x, ?_, Int.emod_nonneg _ unit.ne',
    Int.emod_lt_of_pos _ unit, ?_⟩
  · exact (Int.ediv_mul_add_emod x _).symm
  · simp only [roundEven]
    split_ifs with down
    · exact .inl ⟨rfl, by omega⟩
    · exact .inr ⟨rfl, by omega⟩

theorem roundEven_near (x : Int) :
    2 * roundEven p x ≤ 2 * x + spacing p x ∧
      2 * x ≤ 2 * roundEven p x + spacing p x := by
  obtain ⟨q, r, split, low, high, near | near⟩ := roundEven_cases (p := p) x
  · rw [near.1]
    constructor <;> linarith [near.2]
  · rw [near.1, add_mul, one_mul]
    constructor <;> linarith [near.2]

theorem dvd_roundEven (x : Int) : (spacing p x : Int) ∣ roundEven p x := by
  obtain ⟨q, r, _, _, _, near | near⟩ := roundEven_cases (p := p) x
  · exact near.1 ▸ Dvd.intro_left q rfl
  · exact near.1 ▸ Dvd.intro_left (q + 1) rfl

theorem roundEven_eq_iff : roundEven p x = x ↔ Representable p x := by
  constructor
  · intro same
    have divides := dvd_roundEven (p := p) x
    rwa [same] at divides
  · intro exact
    have none : x % spacing p x = 0 := Int.emod_eq_zero_of_dvd exact
    have unit := spacing_pos (p := p) x
    simp only [roundEven, none]
    rw [if_pos (by omega)]
    exact Int.ediv_mul_cancel exact

theorem abs_roundEven_le {bound : Int} (inside : |x| ≤ bound)
    (multiple : (spacing p x : Int) ∣ bound) : |roundEven p x| ≤ bound := by
  obtain ⟨m, rfl⟩ := multiple
  obtain ⟨q, r, split, low, high, near⟩ := roundEven_cases (p := p) x
  have unit := spacing_pos (p := p) x
  generalize (spacing p x : Int) = u at *
  have ⟨above, below⟩ := abs_le.mp inside
  have lower : -m ≤ q := by
    by_contra outside
    have step : u * (q + 1) ≤ u * -m := mul_le_mul_of_nonneg_left (by omega) unit.le
    linarith [mul_add u q 1, mul_neg u m, mul_comm q u]
  rcases near with ⟨down, _⟩ | ⟨up, tie⟩
  · have upper : q ≤ m := by
      by_contra outside
      have step : u * (m + 1) ≤ u * q := mul_le_mul_of_nonneg_left (by omega) unit.le
      linarith [mul_add u m 1, mul_comm q u]
    rw [down, mul_comm, abs_le]
    exact ⟨by linarith [mul_le_mul_of_nonneg_left lower unit.le, mul_neg u m],
      mul_le_mul_of_nonneg_left upper unit.le⟩
  · have upper : q + 1 ≤ m := by
      by_contra outside
      have step : u * m ≤ u * q := mul_le_mul_of_nonneg_left (by omega) unit.le
      linarith [mul_comm q u]
    rw [up, mul_comm, abs_le]
    exact ⟨by linarith [mul_le_mul_of_nonneg_left lower unit.le, mul_neg u m, mul_add u q 1],
      mul_le_mul_of_nonneg_left upper unit.le⟩

theorem representable_roundEven (positive : 0 < p) (x : Int) :
    Representable p (roundEven p x) := by
  have divides := dvd_roundEven (p := p) x
  have below : x.natAbs < 2 ^ (x.natAbs.log2 + 1) := Nat.lt_log2_self
  have multiple : (spacing p x : Int) ∣ ((2 ^ (x.natAbs.log2 + 1) : Nat) : Int) :=
    Int.natCast_dvd_natCast.mpr (Nat.pow_dvd_pow 2 (by omega))
  have inside : |x| ≤ ((2 ^ (x.natAbs.log2 + 1) : Nat) : Int) := by
    rw [Int.abs_eq_natAbs]
    exact_mod_cast below.le
  have bounded := abs_roundEven_le inside multiple
  generalize roundEven p x = y at *
  rw [Int.abs_eq_natAbs, Int.ofNat_le] at bounded
  by_cases zero : y.natAbs = 0
  · rw [Int.natAbs_eq_zero.mp zero]
    exact dvd_zero _
  rcases Nat.lt_or_eq_of_le bounded with fewer | power
  · have bits : y.natAbs.log2 < x.natAbs.log2 + 1 := (Nat.log2_lt zero).mpr fewer
    have smaller : (spacing p y : Int) ∣ spacing p x :=
      Int.natCast_dvd_natCast.mpr (Nat.pow_dvd_pow 2 (by omega))
    exact smaller.trans divides
  · -- The rounding has carried into one more bit.
    rw [Representable, spacing, power, Nat.log2_two_pow, ← Int.dvd_natAbs, power]
    exact Int.natCast_dvd_natCast.mpr (Nat.pow_dvd_pow 2 (by omega))

end Rounding
