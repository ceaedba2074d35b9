import BreezeJs.Binding.JsString

set_option autoImplicit false

namespace BreezeJs.Regexp

open Binding (isHiSurrogate isLoSurrogate fromSurrogate)

-- What `cbuf`, `cbuf_end` and `cbuf_type` say; `utf16` is the type 2.
structure Input where
  units : List UInt16
  utf16 : Bool
deriving DecidableEq, Repr

namespace Input

variable (input : Input)

def cbufEnd : Nat :=
  input.units.length

def pairAt (cptr : Nat) : Option Nat :=
  match input.units[cptr]?, input.units[cptr + 1]? with
  | some hi, some lo =>
      if input.utf16 && isHiSurrogate hi && isLoSurrogate lo then some (fromSurrogate hi lo)
      else none
  | _, _ => none

-- `GET_CHAR`; the second unit of a pair must stand before `stop`.
def getChar (cptr stop : Nat) : Option (Nat × Nat) :=
  match if cptr + 1 < stop then input.pairAt cptr else none with
  | some c => some (c, cptr + 2)
  | none => (input.units[cptr]?).map fun c => (c.toNat, cptr + 1)

-- `GET_PREV_CHAR`; the first unit of a pair may not stand before `start`.
def getPrevChar (cptr start : Nat) : Option (Nat × Nat) :=
  if cptr = 0 then none
  else
    match if start < cptr - 1 then input.pairAt (cptr - 2) else none with
    | some c => some (c, cptr - 2)
    | none => (input.units[cptr - 1]?).map fun c => (c.toNat, cptr - 1)

def peekChar (cptr : Nat) : Option Nat :=
  (input.getChar cptr input.cbufEnd).map Prod.fst

def peekPrevChar (cptr : Nat) : Option Nat :=
  (input.getPrevChar cptr 0).map Prod.fst

def prevChar (cptr : Nat) : Option Nat :=
  (input.getPrevChar cptr 0).map Prod.snd

end Input

def isLineTerminator (c : Nat) : Bool :=
  c == 10 || c == 13 || c == 0x2028 || c == 0x2029

def isWordChar (c : Nat) : Bool :=
  (decide (48 ≤ c) && decide (c ≤ 57)) || (decide (97 ≤ c) && decide (c ≤ 122)) ||
    (decide (65 ≤ c) && decide (c ≤ 90)) || c == 95

def maxCodePoint : Nat := 0x10ffff

namespace Input

variable {input : Input} {cptr stop start c next prev : Nat}

def Aligned (input : Input) (cptr : Nat) : Prop :=
  cptr = 0 ∨ input.pairAt (cptr - 1) = none

theorem aligned_zero (input : Input) : input.Aligned 0 :=
  .inl rfl

theorem hi_not_lo {c : UInt16} (hi : isHiSurrogate c = true) : isLoSurrogate c = false := by
  simp only [isHiSurrogate, isLoSurrogate, beq_iff_eq, beq_eq_false_iff_ne, ne_eq] at hi ⊢
  rw [hi]
  decide

theorem pairAt_some (pair : input.pairAt cptr = some c) :
    ∃ hi lo, input.units[cptr]? = some hi ∧ input.units[cptr + 1]? = some lo ∧
      isHiSurrogate hi = true ∧ isLoSurrogate lo = true ∧ c = fromSurrogate hi lo := by
  simp only [pairAt] at pair
  split at pair
  · next hi lo first second =>
      split_ifs at pair with surrogates
      simp only [Bool.and_eq_true] at surrogates
      exact ⟨hi, lo, first, second, surrogates.1.2, surrogates.2, (Option.some.inj pair).symm⟩
  · cases pair

theorem pairAt_room (pair : input.pairAt cptr = some c) : cptr + 1 < input.cbufEnd := by
  obtain ⟨hi, lo, _, second, _⟩ := pairAt_some pair
  exact (List.getElem?_eq_some_iff.mp second).1

theorem pairAt_bound (pair : input.pairAt cptr = some c) : c ≤ maxCodePoint := by
  obtain ⟨hi, lo, _, _, _, _, rfl⟩ := pairAt_some pair
  have high : hi.toNat &&& 1023 ≤ 1023 := Nat.and_le_right
  have low : lo.toNat &&& 1023 ≤ 1023 := Nat.and_le_right
  simp only [fromSurrogate, maxCodePoint]
  omega

theorem pairAt_succ (pair : input.pairAt cptr = some c) : input.pairAt (cptr + 1) = none := by
  obtain ⟨hi, lo, _, second, _, isLo, _⟩ := pairAt_some pair
  cases other : input.pairAt (cptr + 1) with
  | none => rfl
  | some d =>
      obtain ⟨hi', lo', first', _, isHi, _⟩ := pairAt_some other
      rw [second] at first'
      cases first'
      rw [hi_not_lo isHi] at isLo
      cases isLo

theorem pairAt_pred (pair : input.pairAt (cptr + 1) = some c) : input.pairAt cptr = none := by
  cases earlier : input.pairAt cptr with
  | none => rfl
  | some d =>
      rw [pairAt_succ earlier] at pair
      cases pair

theorem getChar_cases (read : input.getChar cptr stop = some (c, next)) :
    (next = cptr + 2 ∧ input.pairAt cptr = some c ∧ cptr + 1 < stop) ∨
      (next = cptr + 1 ∧ (cptr + 1 < stop → input.pairAt cptr = none) ∧
        ∃ unit, input.units[cptr]? = some unit ∧ c = unit.toNat) := by
  simp only [getChar] at read
  split at read
  · next d pair =>
      cases read
      split_ifs at pair with room
      exact .inl ⟨rfl, pair, room⟩
  · next single =>
      obtain ⟨unit, here, same⟩ := Option.map_eq_some_iff.mp read
      cases same
      refine .inr ⟨rfl, ?_, unit, here, rfl⟩
      intro room
      rwa [if_pos room] at single

theorem getPrevChar_cases (read : input.getPrevChar cptr start = some (c, prev)) :
    (cptr = prev + 2 ∧ input.pairAt prev = some c ∧ start < prev + 1) ∨
      (cptr = prev + 1 ∧ (start < prev → input.pairAt (prev - 1) = none) ∧
        ∃ unit, input.units[prev]? = some unit ∧ c = unit.toNat) := by
  simp only [getPrevChar] at read
  by_cases first : cptr = 0
  · simp [first] at read
  · rw [if_neg first] at read
    split at read
    · next d pair =>
        cases read
        split_ifs at pair with room
        exact .inl ⟨by omega, pair, by omega⟩
    · next single =>
        obtain ⟨unit, here, same⟩ := Option.map_eq_some_iff.mp read
        cases same
        refine .inr ⟨by omega, ?_, unit, here, rfl⟩
        intro room
        rwa [if_pos room] at single

theorem unit_bound (unit : UInt16) : unit.toNat ≤ maxCodePoint := by
  have small := unit.toNat_lt
  simp only [maxCodePoint]
  omega

theorem getChar_bounds (read : input.getChar cptr stop = some (c, next)) :
    cptr < next ∧ next ≤ input.cbufEnd ∧ c ≤ maxCodePoint := by
  rcases getChar_cases read with ⟨rfl, pair, _⟩ | ⟨rfl, _, unit, here, rfl⟩
  · exact ⟨by omega, pairAt_room pair, pairAt_bound pair⟩
  · exact ⟨by omega, (List.getElem?_eq_some_iff.mp here).1, unit_bound unit⟩

theorem getPrevChar_bounds (read : input.getPrevChar cptr start = some (c, prev)) :
    prev < cptr ∧ c ≤ maxCodePoint := by
  rcases getPrevChar_cases read with ⟨rfl, pair, _⟩ | ⟨rfl, _, unit, here, rfl⟩
  · exact ⟨by omega, pairAt_bound pair⟩
  · exact ⟨by omega, unit_bound unit⟩

theorem getChar_of_lt (inside : cptr < input.cbufEnd) (stop : Nat) :
    ∃ c next, input.getChar cptr stop = some (c, next) := by
  simp only [getChar, List.getElem?_eq_getElem (show cptr < input.units.length from inside)]
  split <;> simp

theorem getPrevChar_of_pos (positive : 0 < cptr) (inside : cptr ≤ input.cbufEnd) (start : Nat) :
    ∃ c prev, input.getPrevChar cptr start = some (c, prev) := by
  have room : cptr - 1 < input.units.length := by
    simp only [cbufEnd] at inside
    omega
  simp only [getPrevChar, Nat.ne_of_gt positive, if_false, List.getElem?_eq_getElem room]
  split <;> simp

theorem getChar_back (read : input.getChar cptr input.cbufEnd = some (c, next))
    (aligned : input.Aligned cptr) :
    input.getPrevChar next 0 = some (c, cptr) ∧ input.Aligned next := by
  rcases getChar_cases read with ⟨rfl, pair, _⟩ | ⟨rfl, single, unit, here, rfl⟩
  · constructor
    · simp [getPrevChar, pair]
    · exact .inr (pairAt_succ pair)
  · constructor
    · have before : (if 0 < cptr then input.pairAt (cptr - 1) else none) = none := by
        rcases aligned with rfl | none
        · simp
        · simp [none]
      simp only [getPrevChar, Nat.succ_ne_zero, if_false, Nat.add_sub_cancel,
        show cptr + 1 - 2 = cptr - 1 by omega, before, here, Option.map_some]
    · right
      simp only [Nat.add_sub_cancel]
      by_cases room : cptr + 1 < input.cbufEnd
      · exact single room
      · cases pair : input.pairAt cptr with
        | none => rfl
        | some d => exact absurd (pairAt_room pair) room

theorem getPrevChar_forth (read : input.getPrevChar cptr 0 = some (c, prev))
    (aligned : input.Aligned cptr) :
    input.getChar prev input.cbufEnd = some (c, cptr) ∧ input.Aligned prev := by
  rcases getPrevChar_cases read with ⟨rfl, pair, _⟩ | ⟨rfl, single, unit, here, rfl⟩
  · constructor
    · simp [getChar, pair, pairAt_room pair]
    · cases prev with
      | zero => exact aligned_zero input
      | succ p => exact .inr (pairAt_pred pair)
  · have alone : input.pairAt prev = none := aligned.resolve_left (by omega)
    constructor
    · simp [getChar, alone, here]
    · rcases Nat.eq_zero_or_pos prev with rfl | positive
      · exact aligned_zero input
      · exact .inr (single positive)

end Input

end BreezeJs.Regexp
