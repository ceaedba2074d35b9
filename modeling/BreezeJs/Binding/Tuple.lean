import Mathlib.Data.List.Basic
import BreezeJs.Library.Rounding

set_option autoImplicit false

namespace BreezeJs.Tuple

-- A number of the engine is given by its value, which is an integer here.

open Rounding

inductive IntType where
  | int8
  | int16
  | int32
  | int64
  | uint8
  | uint16
  | uint32
  | uint64
deriving DecidableEq, Repr

namespace IntType

def bits : IntType → Nat
  | .int8 | .uint8 => 8
  | .int16 | .uint16 => 16
  | .int32 | .uint32 => 32
  | .int64 | .uint64 => 64

def isSigned : IntType → Bool
  | .int8 | .int16 | .int32 | .int64 => true
  | .uint8 | .uint16 | .uint32 | .uint64 => false

def cast (type : IntType) (n : Int) : Int :=
  let low := n % 2 ^ type.bits
  if type.isSigned ∧ 2 ^ (type.bits - 1) ≤ low then low - 2 ^ type.bits else low

theorem cast_cast (type : IntType) (n : Int) : type.cast (type.cast n) = type.cast n := by
  cases type <;> simp only [cast, bits, isSigned] <;> grind

end IntType

@[ext]
structure Element where
  type : IntType
  value : Int
  fits : type.cast value = value

def newInt64 (val : Int) : Int :=
  if -2 ^ 31 ≤ val ∧ val < 2 ^ 31 then val else roundEven 53 val

def wrapInt (type : IntType) (i : Int) : Int :=
  if type = .uint32 ∨ 32 < type.bits then newInt64 (IntType.int64.cast i)
  else IntType.int32.cast i

-- An element that the array does not have is `undefined`, which converts to 0.
def unwrapInt (type : IntType) (v : Option Int) : Int :=
  if 32 < type.bits then type.cast (IntType.int64.cast (v.getD 0))
  else type.cast (IntType.int32.cast (v.getD 0))

theorem cast_unwrapInt (type : IntType) (v : Option Int) :
    type.cast (unwrapInt type v) = unwrapInt type v := by
  simp only [unwrapInt]
  split_ifs <;> exact type.cast_cast _

structure JsArray where
  length : Nat
  element : Nat → Option Int
  bounded : length < 2 ^ 32

def JsArray.new : JsArray where
  length := 0
  element _ := none
  bounded := by decide

-- The last of the names that an unsigned 32-bit number has is no index of an array.
def JsArray.set (array : JsArray) (index : Nat) (value : Int) : JsArray where
  length := if index < 2 ^ 32 - 1 then max array.length (index + 1) else array.length
  element := Function.update array.element index (some value)
  bounded := by
    have earlier := array.bounded
    split_ifs <;> omega

def index (args : Element) : Nat :=
  (IntType.uint32.cast args.value).toNat

def setElement (jsarray : JsArray) (args : Element) : JsArray :=
  jsarray.set (index args) (wrapInt args.type args.value)

def wrap (obj : List Element) : JsArray :=
  obj.foldl setElement JsArray.new

def unwrapElement (jsarr : JsArray) (i : Nat) (type : IntType) : Element where
  type := type
  value := unwrapInt type (jsarr.element i)
  fits := cast_unwrapInt type _

def unwrap (types : List IntType) : Option JsArray → Except String (List Element)
  | none => .error "Expected an array"
  | some jsarr =>
      let len := IntType.int32.cast jsarr.length
      if IntType.uint64.cast len ≠ types.length then
        .error ("Array length " ++ toString len ++ " does not match tuple size " ++
          toString types.length)
      else .ok (types.mapIdx (unwrapElement jsarr))

structure RoundTrip (t : List Element) : Prop where
  length : (wrap t).length = t.length
  element : ∀ i x, t[i]? = some x → (wrap t).element i = some x.value
  back : unwrap (t.map Element.type) (some (wrap t)) = .ok t

def Exact (n : Int) : Prop :=
  -2 ^ 63 ≤ n ∧ n < 2 ^ 63 ∧ Representable 53 n

section Numbers

variable {type : IntType} {n : Int}

theorem representable_small (low : -2 ^ 53 < n) (high : n < 2 ^ 53) : Representable 53 n := by
  by_cases zero : n.natAbs = 0
  · rw [Int.natAbs_eq_zero.mp zero]
    exact dvd_zero _
  · have bits : n.natAbs.log2 < 53 := (Nat.log2_lt zero).mpr (by omega)
    rw [Representable, spacing, Nat.sub_eq_zero_of_le (by omega)]
    exact one_dvd n

theorem int64_eq (n : Int) :
    IntType.int64.cast n =
      if 2 ^ 63 ≤ n % 2 ^ 64 then n % 2 ^ 64 - 2 ^ 64 else n % 2 ^ 64 := by
  simp [IntType.cast, IntType.bits, IntType.isSigned]

theorem int32_eq (n : Int) :
    IntType.int32.cast n =
      if 2 ^ 31 ≤ n % 2 ^ 32 then n % 2 ^ 32 - 2 ^ 32 else n % 2 ^ 32 := by
  simp [IntType.cast, IntType.bits, IntType.isSigned]

theorem int64_cast (n : Int) :
    -2 ^ 63 ≤ IntType.int64.cast n ∧ IntType.int64.cast n < 2 ^ 63 ∧
      IntType.int64.cast n % 2 ^ 32 = n % 2 ^ 32 := by
  rw [int64_eq]
  split_ifs <;> omega

theorem int64_same (low : -2 ^ 63 ≤ n) (high : n < 2 ^ 63) : IntType.int64.cast n = n := by
  rw [int64_eq]
  split_ifs <;> omega

theorem int32_cast (n : Int) : -2 ^ 31 ≤ IntType.int32.cast n ∧ IntType.int32.cast n < 2 ^ 31 := by
  rw [int32_eq]
  split_ifs <;> omega

theorem spacing_dvd (low : -2 ^ 63 ≤ n) (high : n < 2 ^ 63) : (spacing 53 n : Int) ∣ 2 ^ 11 := by
  have bits : n.natAbs.log2 ≤ 63 := by
    by_cases zero : n.natAbs = 0
    · simp [zero]
    · exact Nat.lt_succ_iff.mp ((Nat.log2_lt zero).mpr (by omega))
  have divides : spacing 53 n ∣ 2 ^ 11 := Nat.pow_dvd_pow 2 (by omega)
  exact_mod_cast divides

theorem newInt64_range (low : -2 ^ 63 ≤ n) (high : n < 2 ^ 63) :
    -2 ^ 63 ≤ newInt64 n ∧ newInt64 n ≤ 2 ^ 63 ∧ Representable 53 (newInt64 n) := by
  rw [newInt64]
  split_ifs with small
  · exact ⟨low, high.le, representable_small (by omega) (by omega)⟩
  · have multiple : (spacing 53 n : Int) ∣ 2 ^ 63 :=
      (spacing_dvd low high).trans (pow_dvd_pow 2 (by omega))
    have bounded := abs_le.mp (abs_roundEven_le (abs_le.mpr ⟨low, high.le⟩) multiple)
    exact ⟨bounded.1, bounded.2, representable_roundEven (by omega) n⟩

theorem wrapInt_range (type : IntType) (n : Int) :
    -2 ^ 63 ≤ wrapInt type n ∧ wrapInt type n ≤ 2 ^ 63 ∧ Representable 53 (wrapInt type n) := by
  rw [wrapInt]
  split_ifs with wide
  · have range := int64_cast n
    exact newInt64_range range.1 range.2.1
  · have range := int32_cast n
    exact ⟨by omega, by omega, representable_small (by omega) (by omega)⟩

theorem wrapInt_largest (rounded : wrapInt type n = 2 ^ 63) : 2 ^ 31 ≤ n % 2 ^ 32 := by
  rw [wrapInt] at rounded
  split_ifs at rounded with wide
  · have range := int64_cast n
    rw [newInt64] at rounded
    split_ifs at rounded with small
    · omega
    · have near := (roundEven_near (p := 53) (IntType.int64.cast n)).1
      have coarse : (spacing 53 (IntType.int64.cast n) : Int) ≤ 2 ^ 11 :=
        Int.le_of_dvd (by omega) (spacing_dvd range.1 range.2.1)
      omega
  · have range := int32_cast n
    omega

theorem wrapInt_exact (fits : type.cast n = n) (exact : Exact n) : wrapInt type n = n := by
  obtain ⟨low, high, representable⟩ := exact
  rw [wrapInt]
  split_ifs with wide
  · rw [int64_same low high, newInt64]
    split_ifs with small
    · rfl
    · exact roundEven_eq_iff.mpr representable
  · cases type <;> simp only [IntType.cast, IntType.bits, IntType.isSigned] at fits wide ⊢ <;> grind

theorem unwrapInt_exact (fits : type.cast n = n) (exact : Exact n) :
    unwrapInt type (some n) = n := by
  obtain ⟨low, high, representable⟩ := exact
  rw [unwrapInt, Option.getD_some]
  split_ifs with wide
  · rw [int64_same low high, fits]
  · cases type <;> simp only [IntType.cast, IntType.bits, IntType.isSigned] at fits wide ⊢ <;> grind

end Numbers

section Elements

variable {t : List Element} {array : JsArray} {i : Nat} {x : Element}

theorem set_element_same (array : JsArray) (i : Nat) (value : Int) :
    (array.set i value).element i = some value :=
  Function.update_self ..

theorem set_element_other {j : Nat} (other : i ≠ j) (array : JsArray) (value : Int) :
    (array.set j value).element i = array.element i :=
  Function.update_of_ne other ..

theorem fold_element_other (others : ∀ x ∈ t, i ≠ index x) :
    (t.foldl setElement array).element i = array.element i := by
  induction t generalizing array with
  | nil => rfl
  | cons x t ih =>
      rw [List.foldl_cons, ih fun y later => others y (List.mem_cons_of_mem x later)]
      exact set_element_other (others x List.mem_cons_self) array _

theorem fold_element_of {value : Int} (stands : (t.foldl setElement array).element i = some value) :
    array.element i = some value ∨ ∃ x ∈ t, index x = i ∧ wrapInt x.type x.value = value := by
  induction t generalizing array with
  | nil => exact .inl stands
  | cons x t ih =>
      rcases ih stands with earlier | ⟨y, later, named⟩
      · by_cases named : index x = i
        · subst named
          rw [setElement, set_element_same, Option.some.injEq] at earlier
          exact .inr ⟨x, List.mem_cons_self, rfl, earlier⟩
        · rw [setElement, set_element_other (Ne.symm named)] at earlier
          exact .inl earlier
      · exact .inr ⟨y, List.mem_cons_of_mem x later, named⟩

def Placed (k : Nat) (t : List Element) : Prop :=
  ∀ i x, t[i]? = some x → index x = k + i

theorem Placed.head {k : Nat} (placed : Placed k (x :: t)) : index x = k :=
  placed 0 x rfl

theorem Placed.tail {k : Nat} (placed : Placed k (x :: t)) : Placed (k + 1) t := by
  intro i y found
  rw [placed (i + 1) y found]
  omega

theorem fold_length (placed : Placed array.length t) (room : array.length + t.length < 2 ^ 32) :
    (t.foldl setElement array).length = array.length + t.length := by
  induction t generalizing array with
  | nil => rfl
  | cons x t ih =>
      rw [List.length_cons] at room
      have longer : (setElement array x).length = array.length + 1 := by
        simp only [setElement, JsArray.set, placed.head]
        rw [if_pos (by omega), max_eq_right (by omega)]
      rw [List.foldl_cons, ih (longer ▸ placed.tail) (by omega), longer, List.length_cons]
      omega

theorem fold_element {k : Nat} (placed : Placed k t) (found : t[i]? = some x) :
    (t.foldl setElement array).element (k + i) = some (wrapInt x.type x.value) := by
  induction t generalizing array k i with
  | nil => cases found
  | cons y t ih =>
      cases i with
      | zero =>
          cases found
          have others : ∀ z ∈ t, k ≠ index z := by
            intro z later
            obtain ⟨j, _, at_j⟩ := List.mem_iff_getElem.mp later
            have := placed.tail j z (List.getElem?_eq_some_iff.mpr ⟨_, at_j⟩)
            omega
          rw [List.foldl_cons, Nat.add_zero, fold_element_other others, setElement, placed.head]
          exact set_element_same ..
      | succ i =>
          rw [List.foldl_cons, show k + (i + 1) = k + 1 + i by omega]
          exact ih placed.tail found

theorem index_eq_iff (x : Element) (i : Nat) : index x = i ↔ x.value % 2 ^ 32 = i := by
  simp only [index, IntType.cast, IntType.bits, IntType.isSigned]
  simp only [Bool.false_eq_true, false_and, if_false]
  omega

theorem wrap_length (placed : Placed 0 t) (few : t.length < 2 ^ 31) :
    (wrap t).length = t.length := by
  rw [wrap, fold_length placed (by simp only [JsArray.new]; omega), JsArray.new, Nat.zero_add]

theorem wrap_element (placed : Placed 0 t) (exact : ∀ x ∈ t, Exact x.value)
    (found : t[i]? = some x) : (wrap t).element i = some x.value := by
  have stands : (wrap t).element (0 + i) = some (wrapInt x.type x.value) :=
    fold_element placed found
  rwa [Nat.zero_add, wrapInt_exact x.fits (exact x (List.mem_of_getElem? found))] at stands

theorem unwrap_wrap (placed : Placed 0 t) (few : t.length < 2 ^ 31)
    (exact : ∀ x ∈ t, Exact x.value) : unwrap (t.map Element.type) (some (wrap t)) = .ok t := by
  have arity : IntType.uint64.cast (IntType.int32.cast t.length) = t.length := by
    rw [int32_eq, if_neg (by omega)]
    simp only [IntType.cast, IntType.bits, IntType.isSigned]
    simp only [Bool.false_eq_true, false_and, if_false]
    omega
  simp only [unwrap, wrap_length placed few, List.length_map, arity, ne_eq, not_true, if_false]
  congr 1
  apply List.ext_getElem?
  intro i
  rw [List.getElem?_mapIdx, List.getElem?_map]
  cases found : t[i]? with
  | none => rfl
  | some x =>
      have back := unwrapInt_exact x.fits (exact x (List.mem_of_getElem? found))
      simp only [Option.map_some, Option.some.injEq]
      ext
      · rfl
      · change unwrapInt x.type ((wrap t).element i) = x.value
        rw [wrap_element placed exact found, back]

theorem few_of_back {array : JsArray} {types : List IntType}
    (back : unwrap types (some array) = .ok t)
    (length : array.length = types.length) : types.length < 2 ^ 31 := by
  have bounded := array.bounded
  by_contra many
  have other : IntType.uint64.cast (IntType.int32.cast array.length) ≠ types.length := by
    rw [int32_eq, if_pos (by omega)]
    simp only [IntType.cast, IntType.bits, IntType.isSigned]
    simp only [Bool.false_eq_true, false_and, if_false]
    omega
  simp only [unwrap, ne_eq, other, not_false_iff, if_true] at back
  cases back

theorem RoundTrip.exact (round : RoundTrip t) (few : t.length < 2 ^ 31) (member : x ∈ t) :
    Exact x.value := by
  obtain ⟨i, inside, found⟩ := List.mem_iff_getElem.mp member
  have stands := round.element i x (List.getElem?_eq_some_iff.mpr ⟨inside, found⟩)
  rcases fold_element_of stands with earlier | ⟨y, _, named, rounded⟩
  · cases earlier
  · have range := wrapInt_range y.type y.value
    rw [rounded] at range
    refine ⟨range.1, lt_of_le_of_ne range.2.1 ?_, range.2.2⟩
    intro largest
    have high := wrapInt_largest (rounded.trans largest)
    have place := (index_eq_iff y i).mp named
    omega

theorem RoundTrip.placed (round : RoundTrip t) (few : t.length < 2 ^ 31) : Placed 0 t := by
  intro i x found
  have stands := round.element i x found
  rcases fold_element_of stands with earlier | ⟨y, later, named, rounded⟩
  · cases earlier
  · rw [wrapInt_exact y.fits (round.exact few later)] at rounded
    rw [Nat.zero_add, index_eq_iff, ← rounded]
    exact (index_eq_iff y i).mp named

end Elements

/-- A tuple comes back from an array of its elements if and only if each of them names its own
index and is exact as a number. -/
theorem round_trip_iff (t : List Element) :
    RoundTrip t ↔ t.length < 2 ^ 31 ∧
      ∀ (i : Nat) (x : Element), t[i]? = some x → x.value % 2 ^ 32 = i ∧ Exact x.value := by
  constructor
  · intro round
    have few : t.length < 2 ^ 31 := by
      have few := few_of_back round.back (by rw [round.length, List.length_map])
      rwa [List.length_map] at few
    refine ⟨few, ?_⟩
    intro i x found
    have named := round.placed few i x found
    rw [Nat.zero_add] at named
    exact ⟨(index_eq_iff x i).mp named, round.exact few (List.mem_of_getElem? found)⟩
  · rintro ⟨few, meets⟩
    have placed : Placed 0 t := by
      intro i x found
      rw [Nat.zero_add, index_eq_iff]
      exact (meets i x found).1
    have exact : ∀ x ∈ t, Exact x.value := by
      intro x member
      obtain ⟨i, inside, found⟩ := List.mem_iff_getElem.mp member
      exact (meets i x (List.getElem?_eq_some_iff.mpr ⟨inside, found⟩)).2
    exact ⟨wrap_length placed few, fun i x found => wrap_element placed exact found,
      unwrap_wrap placed few exact⟩

theorem value_names_place :
    ∃ t : List Element, t.map Element.value = [5, 3] ∧ (wrap t).length = 6 ∧
      (wrap t).element 0 = none ∧
      unwrap (t.map Element.type) (some (wrap t)) =
        .error "Array length 6 does not match tuple size 2" ∧ ¬ RoundTrip t := by
  refine ⟨[⟨.int32, 5, by decide⟩, ⟨.int32, 3, by decide⟩], rfl, rfl, rfl, rfl, ?_⟩
  intro round
  exact absurd round.length (by decide)

end BreezeJs.Tuple
