import Mathlib.Algebra.Group.Nat.Defs
import BreezeJs.Std.QueryCodec

set_option autoImplicit false

namespace BreezeJs.Binding

open Infra

def isHiSurrogate (c : UInt16) : Bool :=
  c.toNat >>> 10 == 0xD800 >>> 10

def isLoSurrogate (c : UInt16) : Bool :=
  c.toNat >>> 10 == 0xDC00 >>> 10

def fromSurrogate (hi lo : UInt16) : Nat :=
  65536 + 1024 * (hi.toNat &&& 1023) + (lo.toNat &&& 1023)

def continuation (c : Nat) : UInt8 :=
  UInt8.ofNat (c &&& 0x3F ||| 0x80)

def utf8Encode (c : Nat) : Bytes :=
  if c < 0x80 then [UInt8.ofNat c]
  else if c < 0x800 then [UInt8.ofNat (c >>> 6 ||| 0xC0), continuation c]
  else if c < 0x10000 then
    [UInt8.ofNat (c >>> 12 ||| 0xE0), continuation (c >>> 6), continuation c]
  else if c < 0x110000 then
    [UInt8.ofNat (c >>> 18 ||| 0xF0), continuation (c >>> 12), continuation (c >>> 6),
      continuation c]
  else [UInt8.ofNat (0xFFFD >>> 12 ||| 0xE0), continuation (0xFFFD >>> 6), continuation 0xFFFD]

-- A surrogate without its other half is kept as it is.
def toCString : List UInt16 → Bytes
  | [] => []
  | [c] => utf8Encode c.toNat
  | c :: c1 :: rest =>
      if isHiSurrogate c && isLoSurrogate c1 then utf8Encode (fromSurrogate c c1) ++ toCString rest
      else utf8Encode c.toNat ++ toCString (c1 :: rest)

def utf16Char (c : Char) : List UInt16 :=
  if c.toNat < 0x10000 then [UInt16.ofNat c.toNat]
  else [UInt16.ofNat (0xD800 + (c.toNat - 0x10000) / 0x400),
    UInt16.ofNat (0xDC00 + (c.toNat - 0x10000) % 0x400)]

theorem scalar_value (c : Char) :
    c.toNat < 0xD800 ∨ 0xDFFF < c.toNat ∧ c.toNat < 0x110000 :=
  c.valid

theorem or_mark {low : Nat} (i : Nat) (small : low < 2 ^ i) (mark : Nat) :
    low ||| 2 ^ i * mark = 2 ^ i * mark + low := by
  rw [Nat.or_comm, Nat.two_pow_add_eq_or_of_lt small]

theorem continuation_eq (c : Nat) : continuation c = UInt8.ofNat (c % 64 + 0x80) := by
  have low : c &&& 0x3F = c % 64 := Nat.and_two_pow_sub_one_eq_mod c 6
  have marked := or_mark 6 (show c % 64 < 2 ^ 6 by omega) 2
  rw [continuation, low]
  exact congrArg UInt8.ofNat (marked.trans (Nat.add_comm _ _))

theorem utf8Encode_char (c : Char) : utf8Encode c.toNat = String.utf8EncodeChar c := by
  have scalar : c.toNat < 0x110000 := by
    have valid := scalar_value c
    omega
  have value : c.val.toNat = c.toNat := rfl
  simp only [utf8Encode, String.utf8EncodeChar, value, continuation_eq, Nat.shiftRight_eq_div_pow]
  by_cases one : c.toNat < 0x80
  · rw [if_pos one, if_pos (by omega)]
  by_cases two : c.toNat < 0x800
  · have lead := or_mark 6 (show c.toNat / 2 ^ 6 < 2 ^ 6 by omega) 3
    have low : c.toNat / 64 % 32 + 0xC0 = 0xC0 + c.toNat / 2 ^ 6 := by omega
    rw [if_neg one, if_pos two, if_neg (by omega), if_pos (by omega), low]
    exact congrArg₂ List.cons (congrArg UInt8.ofNat lead) rfl
  by_cases three : c.toNat < 0x10000
  · have lead := or_mark 5 (show c.toNat / 2 ^ 12 < 2 ^ 5 by omega) 7
    have low : c.toNat / 4096 % 16 + 0xE0 = 0xE0 + c.toNat / 2 ^ 12 := by omega
    rw [if_neg one, if_neg two, if_pos three, if_neg (by omega), if_neg (by omega),
      if_pos (by omega), low]
    exact congrArg₂ List.cons (congrArg UInt8.ofNat lead) rfl
  · have lead := or_mark 4 (show c.toNat / 2 ^ 18 < 2 ^ 4 by omega) 15
    have low : c.toNat / 262144 % 8 + 0xF0 = 0xF0 + c.toNat / 2 ^ 18 := by omega
    rw [if_neg one, if_neg two, if_neg three, if_pos scalar, if_neg (by omega), if_neg (by omega),
      if_neg (by omega), low]
    exact congrArg₂ List.cons (congrArg UInt8.ofNat lead) rfl

theorem toCString_plain {c : UInt16} (plain : isHiSurrogate c = false) (rest : List UInt16) :
    toCString (c :: rest) = utf8Encode c.toNat ++ toCString rest := by
  cases rest with
  | nil => simp [toCString]
  | cons c1 later => simp [toCString, plain]

theorem unit_toNat {n : Nat} (small : n < 2 ^ 16) : (UInt16.ofNat n).toNat = n :=
  Nat.mod_eq_of_lt small

theorem toCString_char (c : Char) (rest : List UInt16) :
    toCString (utf16Char c ++ rest) = String.utf8EncodeChar c ++ toCString rest := by
  have valid := scalar_value c
  rw [utf16Char, ← utf8Encode_char]
  split_ifs with basic
  · have same := unit_toNat (n := c.toNat) basic
    have plain : isHiSurrogate (UInt16.ofNat c.toNat) = false := by
      rw [isHiSurrogate, same, Nat.shiftRight_eq_div_pow, beq_eq_false_iff_ne]
      omega
    rw [List.singleton_append, toCString_plain plain, same]
  · have hiValue := unit_toNat (n := 0xD800 + (c.toNat - 0x10000) / 0x400) (by omega)
    have loValue := unit_toNat (n := 0xDC00 + (c.toNat - 0x10000) % 0x400) (by omega)
    have pair : isHiSurrogate (UInt16.ofNat (0xD800 + (c.toNat - 0x10000) / 0x400)) = true ∧
        isLoSurrogate (UInt16.ofNat (0xDC00 + (c.toNat - 0x10000) % 0x400)) = true := by
      rw [isHiSurrogate, isLoSurrogate, hiValue, loValue]
      simp only [Nat.shiftRight_eq_div_pow, beq_iff_eq]
      omega
    have joined : fromSurrogate (UInt16.ofNat (0xD800 + (c.toNat - 0x10000) / 0x400))
        (UInt16.ofNat (0xDC00 + (c.toNat - 0x10000) % 0x400)) = c.toNat := by
      have low (n : Nat) : n &&& 1023 = n % 1024 := Nat.and_two_pow_sub_one_eq_mod n 10
      rw [fromSurrogate, hiValue, loValue, low, low]
      omega
    simp only [List.cons_append, List.nil_append, toCString, pair, Bool.and_self, if_true, joined]

theorem toCString_utf16 (chars : List Char) :
    toCString (chars.flatMap utf16Char) = chars.flatMap String.utf8EncodeChar := by
  induction chars with
  | nil => rfl
  | cons c chars ih => rw [List.flatMap_cons, List.flatMap_cons, toCString_char, ih]

end BreezeJs.Binding
