import BreezeJs.Library.Bits
import BreezeJs.Std.QueryCodec
import Mathlib.Tactic.SplitIfs

set_option autoImplicit false

namespace BreezeJs.Infra

-- Shifts and conversions wrap, as in C++20 and later.

open Bits

def base64Chars : Bytes :=
  text "ABCDEFGHIJKLMNOPQRSTUVWXYZabcdefghijklmnopqrstuvwxyz0123456789+/"

structure Accumulator where
  val : BitVec 32
  valb : Int
  result : Bytes
deriving DecidableEq, Repr

namespace Accumulator

-- `(val >> valb) & mask`, for a `valb` that is not negative.
def digit (s : Accumulator) (mask : BitVec 32) : Nat :=
  (s.val.sshiftRight s.valb.toNat &&& mask).toNat

def shiftIn (s : Accumulator) (width : Nat) (value : BitVec 32) : Accumulator :=
  { s with
    val := (s.val <<< width) + value
    valb := s.valb + width }

end Accumulator

def encodeDigit (value : Nat) : UInt8 :=
  base64Chars.getD value 0

-- `while (valb >= 0)`, for at most `turns` turns.
def btoaDrain : Nat → Accumulator → Accumulator
  | 0, s => s
  | turns + 1, s =>
      if 0 ≤ s.valb then
        btoaDrain turns { s with
          result := s.result ++ [encodeDigit (s.digit 0x3F)]
          valb := s.valb - 6 }
      else s

def btoaByte (s : Accumulator) (c : UInt8) : Accumulator :=
  let s := s.shiftIn 8 (BitVec.ofNat 32 c.toNat)
  btoaDrain (s.valb.toNat + 1) s

def btoaRest (s : Accumulator) : Bytes :=
  if -6 < s.valb then
    s.result ++ [encodeDigit (((s.val <<< 8).sshiftRight (s.valb + 8).toNat &&& 0x3F).toNat)]
  else s.result

-- `while (result.size() % 4)`
def padded (result : Bytes) : Bytes :=
  result ++ List.replicate ((4 - result.length % 4) % 4) (byte '=')

def btoa (str : Bytes) : Bytes :=
  padded (btoaRest (str.foldl btoaByte ⟨0, -6, []⟩))

-- `base64_chars.find(c)` as it is added to an `int`; `npos` becomes `-1`.
def findChar (c : UInt8) : BitVec 32 :=
  if base64Chars.contains c then BitVec.ofNat 32 (base64Chars.idxOf c) else -1

def atobChar (s : Accumulator) (c : UInt8) : Accumulator :=
  let s := s.shiftIn 6 (findChar c)
  if 0 ≤ s.valb then
    { s with
      result := s.result ++ [UInt8.ofNat (s.digit 0xFF)]
      valb := s.valb - 8 }
  else s

def atobLoop : Accumulator → Bytes → Bytes
  | s, [] => s.result
  | s, c :: rest =>
      if c == byte '=' then s.result
      else if isSpace c then atobLoop s rest
      else atobLoop (atobChar s c) rest

def atob (base64 : Bytes) : Bytes :=
  atobLoop ⟨0, -8, []⟩ base64

def Accumulator.pending (width : Nat) (s : Accumulator) : List Bool :=
  bits (s.valb + width).toNat s.val.toNat

def Accumulator.Ready (width : Nat) (s : Accumulator) : Prop :=
  -width ≤ s.valb ∧ s.valb < 0

-- Below the sign bits an arithmetic shift is a division.
theorem sshiftRight_digit (val : BitVec 32) {k width : Nat} (within : k + width ≤ 32) :
    (val.sshiftRight k &&& BitVec.ofNat 32 (2 ^ width - 1)).toNat =
      val.toNat / 2 ^ k % 2 ^ width := by
  apply Nat.eq_of_testBit_eq
  intro i
  rw [Nat.testBit_mod_two_pow, Nat.testBit_div_two_pow, ← BitVec.getLsbD, BitVec.getLsbD_and,
    BitVec.getLsbD_sshiftRight, BitVec.getLsbD_ofNat, Nat.testBit_two_pow_sub_one]
  by_cases below : i < width
  · have inside : i < 32 := by omega
    have shifted : k + i < 32 := by omega
    simp [below, inside, shifted, BitVec.getLsbD, Nat.add_comm]
  · simp [below]

theorem pending_shiftIn (s : Accumulator) (width taken : Nat) (value : BitVec 32)
    (room : -width ≤ s.valb) (within : (s.valb + width).toNat + taken ≤ 32)
    (small : value.toNat < 2 ^ taken) :
    (s.shiftIn taken value).pending width = s.pending width ++ bits taken value.toNat := by
  have wider : (s.valb + taken + width).toNat = (s.valb + width).toNat + taken := by omega
  have shifted : (s.val <<< taken + value).toNat =
      (s.val.toNat * 2 ^ taken + value.toNat) % 2 ^ 32 := by
    rw [BitVec.toNat_add, BitVec.toNat_shiftLeft, Nat.shiftLeft_eq, Nat.mod_add_mod]
  rw [Accumulator.pending, Accumulator.pending, Accumulator.shiftIn, wider, shifted,
    bits_mod _ within, bits_push _ _ _ small]

theorem pending_digit (s : Accumulator) (width : Nat) (room : 0 ≤ s.valb)
    (within : s.valb.toNat + width ≤ 32) :
    s.pending width =
      bits width (s.digit (BitVec.ofNat 32 (2 ^ width - 1))) ++ bits s.valb.toNat s.val.toNat := by
  have split : (s.valb + width).toNat = width + s.valb.toNat := by omega
  rw [Accumulator.pending, split, bits_append, Accumulator.digit, sshiftRight_digit _ within,
    bits_mod _ (Nat.le_refl width)]

structure Coded (width : Nat) (write : Nat → UInt8) (s : Accumulator) (digits : List Nat)
    (read : List Bool) : Prop where
  written : s.result = digits.map write
  small : ∀ value ∈ digits, value < 2 ^ width
  bits : stream width digits ++ s.pending width = read

section Coded

variable {width : Nat} {write : Nat → UInt8} {s : Accumulator} {digits : List Nat}
  {read : List Bool}

theorem Coded.shiftIn (coded : Coded width write s digits read) (taken : Nat) {value : Nat}
    (room : -width ≤ s.valb) (within : (s.valb + width).toNat + taken ≤ 32)
    (small : value < 2 ^ taken) :
    Coded width write (s.shiftIn taken (BitVec.ofNat 32 value)) digits
      (read ++ Bits.bits taken value) := by
  have exactly : (BitVec.ofNat 32 value).toNat = value := by
    have fits : 2 ^ taken ≤ 2 ^ 32 := Nat.pow_le_pow_right (by decide) (by omega)
    rw [BitVec.toNat_ofNat]
    exact Nat.mod_eq_of_lt (small.trans_le fits)
  have more := pending_shiftIn s width taken (BitVec.ofNat 32 value) room within
    (by rw [exactly]; exact small)
  refine ⟨coded.written, coded.small, ?_⟩
  rw [more, exactly, ← List.append_assoc, coded.bits]

theorem digit_lt (s : Accumulator) (width : Nat) (within : s.valb.toNat + width ≤ 32) :
    s.digit (BitVec.ofNat 32 (2 ^ width - 1)) < 2 ^ width := by
  rw [Accumulator.digit, sshiftRight_digit _ within]
  exact Nat.mod_lt _ (Nat.two_pow_pos width)

theorem Coded.emit (coded : Coded width write s digits read) (full : 0 ≤ s.valb)
    (within : s.valb.toNat + width ≤ 32) {mask : BitVec 32}
    (masked : mask = BitVec.ofNat 32 (2 ^ width - 1)) :
    Coded width write
      { s with result := s.result ++ [write (s.digit mask)], valb := s.valb - width }
      (digits ++ [s.digit mask]) read := by
  subst masked
  refine ⟨?_, ?_, ?_⟩
  · rw [coded.written, List.map_append, List.map_singleton]
  · intro value member
    rcases List.mem_append.mp member with old | new
    · exact coded.small value old
    · rw [List.mem_singleton.mp new]
      exact digit_lt s width within
  · have left : s.valb - width + width = s.valb := by omega
    rw [← coded.bits, pending_digit s width full within, stream_append, stream_cons, stream_nil,
      List.append_nil, List.append_assoc, Accumulator.pending, left]

end Coded

theorem findChar_encodeDigit :
    ∀ value < 64, findChar (encodeDigit value) = BitVec.ofNat 32 value := by
  decide +kernel

theorem encodeDigit_plain : ∀ value < 64,
    encodeDigit value ≠ byte '=' ∧ isSpace (encodeDigit value) = false := by
  decide +kernel

theorem btoaDrain_coded (turns : Nat) {s : Accumulator} {digits : List Nat} {read : List Bool}
    (coded : Coded 6 encodeDigit s digits read) (room : -6 ≤ s.valb) (within : s.valb ≤ 26)
    (enough : s.valb < turns) :
    ∃ later, Coded 6 encodeDigit (btoaDrain turns s) later read ∧
      (btoaDrain turns s).Ready 6 := by
  induction turns generalizing s digits with
  | zero => exact ⟨digits, coded, room, enough⟩
  | succ turns ih =>
      rw [btoaDrain]
      split_ifs with full
      · apply ih (coded.emit full (by omega) rfl)
        · simp only
          omega
        · simp only
          omega
        · simp only
          push_cast at enough ⊢
          omega
      · exact ⟨digits, coded, room, Int.not_le.mp full⟩

theorem btoaByte_coded {s : Accumulator} {digits : List Nat} {read : List Bool}
    (coded : Coded 6 encodeDigit s digits read) (ready : s.Ready 6) (c : UInt8) :
    ∃ later, Coded 6 encodeDigit (btoaByte s c) later (read ++ bits 8 c.toNat) ∧
      (btoaByte s c).Ready 6 := by
  obtain ⟨room, short⟩ := ready
  have valb : (s.shiftIn 8 (BitVec.ofNat 32 c.toNat)).valb = s.valb + 8 := rfl
  apply btoaDrain_coded _ (coded.shiftIn 8 room (by omega) c.toNat_lt)
  · omega
  · omega
  · push_cast
    omega

theorem btoa_fold (str : Bytes) {s : Accumulator} {digits : List Nat} {read : List Bool}
    (coded : Coded 6 encodeDigit s digits read) (ready : s.Ready 6) :
    ∃ later, Coded 6 encodeDigit (str.foldl btoaByte s) later
        (read ++ stream 8 (str.map UInt8.toNat)) ∧
      (str.foldl btoaByte s).Ready 6 := by
  induction str generalizing s digits read with
  | nil => exact ⟨digits, by simpa using coded, ready⟩
  | cons c rest ih =>
      obtain ⟨later, moved, still⟩ := btoaByte_coded coded ready c
      simpa [List.append_assoc] using ih moved still

theorem btoaRest_digit (s : Accumulator) (ready : s.Ready 6) :
    bits 6 ((s.val <<< 8).sshiftRight (s.valb + 8).toNat &&& 0x3F).toNat =
      s.pending 6 ++ List.replicate (-s.valb).toNat false := by
  obtain ⟨room, short⟩ := ready
  have mask : (0x3F : BitVec 32) = BitVec.ofNat 32 (2 ^ 6 - 1) := rfl
  have width : 6 = (s.valb + (6 : Nat)).toNat + (-s.valb).toNat := by omega
  have factor : 2 ^ 8 = 2 ^ (-s.valb).toNat * 2 ^ (s.valb + 8).toNat := by
    rw [← Nat.pow_add]
    congr 1
    omega
  have divided : s.val.toNat * 2 ^ 8 % 2 ^ 32 / 2 ^ (s.valb + 8).toNat % 2 ^ 6 =
      s.val.toNat * 2 ^ (-s.valb).toNat % 2 ^ 6 := by
    have product : 2 ^ 32 = 2 ^ (s.valb + 8).toNat * 2 ^ (32 - (s.valb + 8).toNat) := by
      rw [← Nat.pow_add]
      congr 1
      omega
    have wide : 2 ^ 6 ∣ 2 ^ (32 - (s.valb + 8).toNat) := Nat.pow_dvd_pow 2 (by omega)
    rw [product, Nat.mod_mul_right_div_self, Nat.mod_mod_of_dvd _ wide, factor, ← Nat.mul_assoc,
      Nat.mul_div_cancel _ (Nat.two_pow_pos _)]
  rw [mask, sshiftRight_digit _ (by omega), BitVec.toNat_shiftLeft, Nat.shiftLeft_eq, divided,
    bits_mod _ (Nat.le_refl 6)]
  conv_lhs => rw [width]
  have pushed := bits_push (s.valb + (6 : Nat)).toNat (-s.valb).toNat s.val.toNat
    (Nat.two_pow_pos (-s.valb).toNat)
  rw [Nat.add_zero] at pushed
  rw [pushed, bits_zero, Accumulator.pending]

theorem btoaRest_coded {s : Accumulator} {digits : List Nat} {read : List Bool}
    (coded : Coded 6 encodeDigit s digits read) (ready : s.Ready 6) :
    ∃ later fill, btoaRest s = later.map encodeDigit ∧ (∀ value ∈ later, value < 2 ^ 6) ∧
      fill < 6 ∧ stream 6 later = read ++ List.replicate fill false := by
  rw [btoaRest]
  split_ifs with left
  · have filled := btoaRest_digit s ready
    have fits : ((s.val <<< 8).sshiftRight (s.valb + 8).toNat &&& 0x3F).toNat < 2 ^ 6 := by
      have mask : (0x3F : BitVec 32) = BitVec.ofNat 32 (2 ^ 6 - 1) := rfl
      obtain ⟨room, short⟩ := ready
      rw [mask, sshiftRight_digit _ (by omega)]
      exact Nat.mod_lt _ (Nat.two_pow_pos 6)
    generalize ((s.val <<< 8).sshiftRight (s.valb + 8).toNat &&& 0x3F).toNat = last at filled fits
    refine ⟨digits ++ [last], (-s.valb).toNat, ?_, ?_, by omega, ?_⟩
    · rw [coded.written, List.map_append, List.map_singleton]
    · intro value member
      rcases List.mem_append.mp member with old | new
      · exact coded.small value old
      · rw [List.mem_singleton.mp new]
        exact fits
    · rw [stream_append, stream_cons, stream_nil, List.append_nil, filled, ← List.append_assoc,
        coded.bits]
  · have empty : s.pending 6 = [] := by
      have none : (s.valb + (6 : Nat)).toNat = 0 := by omega
      rw [Accumulator.pending, none, bits]
    have whole := coded.bits
    rw [empty, List.append_nil] at whole
    exact ⟨digits, 0, coded.written, coded.small, by decide, by simp [whole]⟩

theorem btoa_digits (str : Bytes) :
    ∃ digits fill, btoa str = padded (digits.map encodeDigit) ∧
      (∀ value ∈ digits, value < 2 ^ 6) ∧ fill < 6 ∧
      stream 6 digits = stream 8 (str.map UInt8.toNat) ++ List.replicate fill false := by
  have start : Coded 6 encodeDigit ⟨0, -6, []⟩ [] [] := ⟨rfl, by simp, rfl⟩
  obtain ⟨digits, coded, ready⟩ := btoa_fold str start ⟨by decide, by decide⟩
  obtain ⟨later, fill, written, small, short, whole⟩ := btoaRest_coded coded ready
  refine ⟨later, fill, ?_, small, short, whole⟩
  rw [btoa, written]

theorem atobChar_coded {s : Accumulator} {bytes : List Nat} {read : List Bool}
    (coded : Coded 8 UInt8.ofNat s bytes read) (ready : s.Ready 8) {value : Nat}
    (small : value < 2 ^ 6) :
    ∃ later, Coded 8 UInt8.ofNat (atobChar s (encodeDigit value)) later (read ++ bits 6 value) ∧
      (atobChar s (encodeDigit value)).Ready 8 := by
  obtain ⟨room, short⟩ := ready
  have valb : (s.shiftIn 6 (BitVec.ofNat 32 value)).valb = s.valb + 6 := rfl
  have next := coded.shiftIn 6 room (by omega) small
  simp only [atobChar, findChar_encodeDigit value small]
  generalize s.shiftIn 6 (BitVec.ofNat 32 value) = u at next valb
  split_ifs with full
  · refine ⟨_, next.emit full (by omega) rfl, ?_, ?_⟩
    · simp only
      omega
    · simp only
      omega
  · exact ⟨bytes, next, by omega, Int.not_le.mp full⟩

theorem atobLoop_digits (digits : List Nat) (digitsSmall : ∀ value ∈ digits, value < 2 ^ 6)
    {s : Accumulator} {bytes : List Nat} {read : List Bool}
    (coded : Coded 8 UInt8.ofNat s bytes read) (ready : s.Ready 8) :
    ∃ later rest, atobLoop s (digits.map encodeDigit) = later.map UInt8.ofNat ∧
      (∀ value ∈ later, value < 2 ^ 8) ∧ rest.length < 8 ∧
      stream 8 later ++ rest = read ++ stream 6 digits := by
  induction digits generalizing s bytes read with
  | nil =>
      refine ⟨bytes, s.pending 8, coded.written, coded.small, ?_, ?_⟩
      · obtain ⟨room, short⟩ := ready
        rw [Accumulator.pending, length_bits]
        omega
      · rw [stream_nil, List.append_nil, coded.bits]
  | cons value rest ih =>
      rw [List.forall_mem_cons] at digitsSmall
      obtain ⟨notPad, notSpace⟩ := encodeDigit_plain value digitsSmall.1
      obtain ⟨later, moved, still⟩ := atobChar_coded coded ready digitsSmall.1
      rw [List.map_cons, atobLoop, if_neg (by simpa using notPad), if_neg (by simp [notSpace]),
        stream_cons, ← List.append_assoc]
      exact ih digitsSmall.2 moved still

theorem atobLoop_filter {space : UInt8 → Bool} (skipped : ∀ c, space c = true → isSpace c = true)
    (s : Accumulator) (base64 : Bytes) :
    atobLoop s (base64.filter fun c => !space c) = atobLoop s base64 := by
  induction base64 generalizing s with
  | nil => rfl
  | cons c rest ih =>
      by_cases out : space c = true
      · have notPad : c ≠ byte '=' := by
          rintro rfl
          cases skipped _ out
        rw [List.filter_cons_of_neg (by simp [out]), ih, atobLoop, if_neg (by simpa using notPad),
          if_pos (skipped c out)]
      · rw [List.filter_cons_of_pos (by simpa using out), atobLoop, atobLoop, ih, ih]

theorem atobLoop_pads (s : Accumulator) (base64 : Bytes) (pads : Nat) :
    atobLoop s (base64 ++ List.replicate pads (byte '=')) = atobLoop s base64 := by
  induction base64 generalizing s with
  | nil => cases pads <;> simp [List.replicate_succ, atobLoop]
  | cons c rest ih => simp only [List.cons_append, atobLoop, ih]

/-- Decoding undoes encoding, whatever white space is added to the text and however many of the
pads at its end are taken away. -/
theorem atob_btoa (s w : Bytes) (removed : Nat)
    (same : (w.filter fun c => !isSpace c) ++ List.replicate removed (byte '=') = btoa s) :
    atob w = s := by
  obtain ⟨digits, fill, written, small, short, whole⟩ := btoa_digits s
  have start : Coded 8 UInt8.ofNat ⟨0, -8, []⟩ [] [] := ⟨rfl, by simp, rfl⟩
  obtain ⟨bytes, rest, read, bytesSmall, restShort, bits⟩ :=
    atobLoop_digits digits small start ⟨by decide, by decide⟩
  have plain : atob w = bytes.map UInt8.ofNat := by
    rw [atob, ← atobLoop_filter (fun _ space => space), ← atobLoop_pads _ _ removed, same, written,
      padded, atobLoop_pads, read]
  rw [List.nil_append, whole] at bits
  have fillShort : (List.replicate fill false).length < 8 := by
    rw [List.length_replicate]
    omega
  have bytesSame : bytes = s.map UInt8.toNat := by
    refine stream_injective bytesSmall ?_ restShort fillShort bits
    intro value member
    obtain ⟨c, _, rfl⟩ := List.mem_map.mp member
    exact c.toNat_lt
  rw [plain, bytesSame, List.map_map]
  simp [Function.comp_def]

theorem atob_btoa_example : atob (text " aG\nV5 YQ=") = text "heya" :=
  atob_btoa (text "heya") (text " aG\nV5 YQ=") 1 (by decide +kernel)

end BreezeJs.Infra
