import BreezeJs.Binding.JsString

set_option autoImplicit false

namespace BreezeJs.Binding

open Infra

def inRange (low high : Nat) (p : UInt8) : Bool :=
  decide (low ≤ p.toNat) && decide (p.toNat ≤ high)

def need1 (c : Nat) : Bytes → Nat × Nat
  | p :: _ =>
      if inRange 0x80 0xBF p then ((c - 0xC0) <<< 6 + (p.toNat - 0x80), 1) else (0xFFFD, 0)
  | _ => (0xFFFD, 0)

def need2 (lower c : Nat) : Bytes → Nat × Nat
  | p :: p1 :: _ =>
      if inRange lower 0xBF p && inRange 0x80 0xBF p1 then
        ((c - 0xE0) <<< 12 + (p.toNat - 0x80) <<< 6 + (p1.toNat - 0x80), 2)
      else (0xFFFD, 0)
  | _ => (0xFFFD, 0)

def need3 (lower upper c : Nat) : Bytes → Nat × Nat
  | p :: p1 :: p2 :: _ =>
      if inRange lower upper p && inRange 0x80 0xBF p1 && inRange 0x80 0xBF p2 then
        ((c - 0xF0) <<< 18 + (p.toNat - 0x80) <<< 12 + (p1.toNat - 0x80) <<< 6 +
          (p2.toNat - 0x80), 3)
      else (0xFFFD, 0)
  | _ => (0xFFFD, 0)

def utf8Decode (c : Nat) (p : Bytes) : Nat × Nat :=
  if c < 0x80 then (c, 0)
  else if 0xC2 ≤ c ∧ c ≤ 0xDF then need1 c p
  else if 0xE0 ≤ c ∧ c ≤ 0xEF then need2 (if c = 0xE0 then 0xA0 else 0x80) c p
  else if 0xF0 ≤ c ∧ c ≤ 0xF4 then
    need3 (if c = 0xF0 then 0x90 else 0x80) (if c = 0xF4 then 0x8F else 0xBF) c p
  else (0xFFFD, 0)

def codePoints : Nat → Bytes → List Nat
  | _, [] => []
  | used + 1, _ :: rest => codePoints used rest
  | 0, c :: rest => (utf8Decode c.toNat rest).1 :: codePoints (utf8Decode c.toNat rest).2 rest

def getHiSurrogate (c : Nat) : UInt16 :=
  UInt16.ofNat ((c >>> 10) - (0x10000 >>> 10) + 0xD800)

def getLoSurrogate (c : Nat) : UInt16 :=
  UInt16.ofNat (c &&& 0x3FF ||| 0xDC00)

def codeUnits (c : Nat) : List UInt16 :=
  if 0xFFFF < c then [getHiSurrogate c, getLoSurrogate c] else [UInt16.ofNat c]

def utf8DecodeBuf16 (src : Bytes) : List UInt16 :=
  (codePoints 0 src).flatMap codeUnits

-- The source is taken to be correct.
def utf8DecodeBuf8 : Bytes → List UInt8
  | [] => []
  | [c] => [c]
  | c :: p :: rest =>
      if 0xC0 ≤ c.toNat then
        UInt8.ofNat (c.toNat <<< 6 + p.toNat - (0xC0 <<< 6 + 0x80)) :: utf8DecodeBuf8 rest
      else c :: utf8DecodeBuf8 (p :: rest)

structure JsString where
  units : List UInt16
  isWideChar : Bool
deriving DecidableEq, Repr

def latin1 (bytes : Bytes) : List UInt16 :=
  bytes.map UInt8.toUInt16

def newStringLen (buf : Bytes) : JsString :=
  if buf.all (· < 0x80) then ⟨latin1 buf, false⟩
  else if (codePoints 0 buf).all (· ≤ 0xFF) then ⟨latin1 (utf8DecodeBuf8 buf), false⟩
  else ⟨utf8DecodeBuf16 buf, true⟩

def utf8 (chars : List Char) : Bytes :=
  chars.flatMap String.utf8EncodeChar

section Decoding

variable {c : Char} {rest : Bytes}

theorem encodeChar_cases (c : Char) :
    (c.toNat < 0x80 ∧ String.utf8EncodeChar c = [UInt8.ofNat c.toNat]) ∨
    (0x80 ≤ c.toNat ∧ c.toNat < 0x800 ∧ String.utf8EncodeChar c =
      [UInt8.ofNat (0xC0 + c.toNat / 64), UInt8.ofNat (0x80 + c.toNat % 64)]) ∨
    (0x800 ≤ c.toNat ∧ c.toNat < 0x10000 ∧ String.utf8EncodeChar c =
      [UInt8.ofNat (0xE0 + c.toNat / 4096), UInt8.ofNat (0x80 + c.toNat / 64 % 64),
        UInt8.ofNat (0x80 + c.toNat % 64)]) ∨
    (0x10000 ≤ c.toNat ∧ c.toNat < 0x110000 ∧ String.utf8EncodeChar c =
      [UInt8.ofNat (0xF0 + c.toNat / 262144), UInt8.ofNat (0x80 + c.toNat / 4096 % 64),
        UInt8.ofNat (0x80 + c.toNat / 64 % 64), UInt8.ofNat (0x80 + c.toNat % 64)]) := by
  have valid := scalar_value c
  have value : c.val.toNat = c.toNat := rfl
  simp only [String.utf8EncodeChar, value]
  split_ifs with one two three
  · exact .inl ⟨by omega, rfl⟩
  · refine .inr (.inl ⟨by omega, by omega, ?_⟩)
    rw [Nat.mod_eq_of_lt (show c.toNat / 64 < 32 by omega), Nat.add_comm 0xC0, Nat.add_comm 0x80]
  · refine .inr (.inr (.inl ⟨by omega, by omega, ?_⟩))
    rw [Nat.mod_eq_of_lt (show c.toNat / 4096 < 16 by omega), Nat.add_comm 0xE0,
      Nat.add_comm 0x80, Nat.add_comm 0x80]
  · refine .inr (.inr (.inr ⟨by omega, by omega, ?_⟩))
    rw [Nat.mod_eq_of_lt (show c.toNat / 262144 < 8 by omega), Nat.add_comm 0xF0,
      Nat.add_comm 0x80, Nat.add_comm 0x80, Nat.add_comm 0x80]

theorem byte_toNat {n : Nat} (small : n < 256) : (UInt8.ofNat n).toNat = n :=
  Nat.mod_eq_of_lt small

theorem utf8Decode_char (c : Char) (rest : Bytes) :
    ∃ lead more, String.utf8EncodeChar c = lead :: more ∧
      utf8Decode lead.toNat (more ++ rest) = (c.toNat, more.length) := by
  have tail (n : Nat) : (UInt8.ofNat (0x80 + n % 64)).toNat = 0x80 + n % 64 :=
    byte_toNat (by omega)
  rcases encodeChar_cases c with ⟨high, bytes⟩ | ⟨low, high, bytes⟩ | ⟨low, high, bytes⟩ |
    ⟨low, high, bytes⟩
  · refine ⟨_, _, bytes, ?_⟩
    rw [byte_toNat (by omega), utf8Decode, if_pos high]
    rfl
  · refine ⟨_, _, bytes, ?_⟩
    rw [byte_toNat (show 0xC0 + c.toNat / 64 < 256 by omega), utf8Decode, if_neg (by omega),
      if_pos (by omega)]
    simp only [List.cons_append, need1, inRange, tail, Nat.shiftLeft_eq]
    rw [if_pos (by simp; omega)]
    simp only [List.length_cons, List.length_nil, Prod.mk.injEq, and_true]
    omega
  · refine ⟨_, _, bytes, ?_⟩
    rw [byte_toNat (show 0xE0 + c.toNat / 4096 < 256 by omega), utf8Decode, if_neg (by omega),
      if_neg (by omega), if_pos (by omega)]
    simp only [List.cons_append, need2, inRange, tail, Nat.shiftLeft_eq]
    rw [if_pos (by split_ifs <;> simp <;> omega)]
    simp only [List.length_cons, List.length_nil, Prod.mk.injEq, and_true]
    omega
  · refine ⟨_, _, bytes, ?_⟩
    rw [byte_toNat (show 0xF0 + c.toNat / 262144 < 256 by omega), utf8Decode, if_neg (by omega),
      if_neg (by omega), if_neg (by omega), if_pos (by omega)]
    simp only [List.cons_append, need3, inRange, tail, Nat.shiftLeft_eq]
    rw [if_pos (by split_ifs <;> simp <;> omega)]
    simp only [List.length_cons, List.length_nil, Prod.mk.injEq, and_true]
    omega

theorem codePoints_used (used : Bytes) (rest : Bytes) :
    codePoints used.length (used ++ rest) = codePoints 0 rest := by
  induction used with
  | nil => rfl
  | cons c used ih => exact ih

theorem codePoints_utf8 (chars : List Char) : codePoints 0 (utf8 chars) = chars.map Char.toNat := by
  induction chars with
  | nil => rfl
  | cons c chars ih =>
      obtain ⟨lead, more, bytes, decoded⟩ := utf8Decode_char c (utf8 chars)
      rw [utf8, List.flatMap_cons, bytes, List.cons_append, codePoints]
      change (utf8Decode lead.toNat (more ++ utf8 chars)).1 ::
        codePoints (utf8Decode lead.toNat (more ++ utf8 chars)).2 (more ++ utf8 chars) = _
      rw [decoded, codePoints_used, ih, List.map_cons]

theorem codeUnits_char (c : Char) : codeUnits c.toNat = utf16Char c := by
  have valid := scalar_value c
  simp only [codeUnits, utf16Char]
  by_cases basic : c.toNat < 0x10000
  · rw [if_neg (by omega), if_pos basic]
  · have low : c.toNat &&& 0x3FF = c.toNat % 2 ^ 10 := Nat.and_two_pow_sub_one_eq_mod c.toNat 10
    have marked : c.toNat % 2 ^ 10 ||| 0xDC00 = 0xDC00 + c.toNat % 2 ^ 10 :=
      or_mark 10 (show c.toNat % 2 ^ 10 < 2 ^ 10 by omega) 55
    have high : (c.toNat >>> 10) - (0x10000 >>> 10) + 0xD800 =
        0xD800 + (c.toNat - 0x10000) / 0x400 := by
      simp only [Nat.shiftRight_eq_div_pow]
      omega
    have rest : c.toNat % 2 ^ 10 = (c.toNat - 0x10000) % 0x400 := by omega
    rw [if_pos (by omega), if_neg basic, getHiSurrogate, getLoSurrogate, low, marked, high, rest]

theorem utf8_cons (c : Char) (chars : List Char) :
    utf8 (c :: chars) = String.utf8EncodeChar c ++ utf8 chars :=
  List.flatMap_cons

theorem utf8DecodeBuf8_plain {c : UInt8} (plain : c.toNat < 0xC0) (rest : Bytes) :
    utf8DecodeBuf8 (c :: rest) = c :: utf8DecodeBuf8 rest := by
  cases rest with
  | nil => rfl
  | cons p rest => rw [utf8DecodeBuf8, if_neg (by omega)]

theorem utf8DecodeBuf8_utf8 {chars : List Char} (narrow : ∀ c ∈ chars, c.toNat ≤ 0xFF) :
    utf8DecodeBuf8 (utf8 chars) = chars.map fun c => UInt8.ofNat c.toNat := by
  induction chars with
  | nil => rfl
  | cons c chars ih =>
      have small := narrow c List.mem_cons_self
      have rest := ih fun d later => narrow d (List.mem_cons_of_mem c later)
      rw [utf8_cons, List.map_cons]
      rcases encodeChar_cases c with ⟨high, bytes⟩ | ⟨low, high, bytes⟩ | ⟨low, _, _⟩ | ⟨low, _, _⟩
      · have plain : (UInt8.ofNat c.toNat).toNat < 0xC0 := by
          rw [byte_toNat (by omega)]
          omega
        rw [bytes, List.singleton_append, utf8DecodeBuf8_plain plain, rest]
      · have lead : (UInt8.ofNat (0xC0 + c.toNat / 64)).toNat = 0xC0 + c.toNat / 64 :=
          byte_toNat (by omega)
        have tail : (UInt8.ofNat (0x80 + c.toNat % 64)).toNat = 0x80 + c.toNat % 64 :=
          byte_toNat (by omega)
        have joined : (0xC0 + c.toNat / 64) <<< 6 + (0x80 + c.toNat % 64) - (0xC0 <<< 6 + 0x80) =
            c.toNat := by
          simp only [Nat.shiftLeft_eq]
          omega
        rw [bytes, List.cons_append, List.singleton_append, utf8DecodeBuf8, lead, tail,
          if_pos (by omega), joined, rest]
      · omega
      · omega

theorem latin1_chars {chars : List Char} (narrow : ∀ c ∈ chars, c.toNat ≤ 0xFF) :
    latin1 (chars.map fun c => UInt8.ofNat c.toNat) = chars.flatMap utf16Char := by
  induction chars with
  | nil => rfl
  | cons c chars ih =>
      have small := narrow c List.mem_cons_self
      have rest := ih fun d later => narrow d (List.mem_cons_of_mem c later)
      have unit : (UInt8.ofNat c.toNat).toUInt16 = UInt16.ofNat c.toNat := by
        apply UInt16.toNat_inj.mp
        rw [UInt8.toNat_toUInt16, byte_toNat (by omega), unit_toNat (by omega)]
      rw [latin1] at rest ⊢
      rw [List.map_cons, List.map_cons, rest, unit, List.flatMap_cons, utf16Char,
        if_pos (by omega), List.singleton_append]

theorem ascii_of_bytes {chars : List Char} (plain : (utf8 chars).all (· < 0x80) = true) :
    (∀ c ∈ chars, c.toNat < 0x80) ∧ utf8 chars = chars.map fun c => UInt8.ofNat c.toNat := by
  induction chars with
  | nil => exact ⟨by simp, rfl⟩
  | cons c chars ih =>
      rw [utf8_cons, List.all_append, Bool.and_eq_true] at plain
      obtain ⟨later, bytes'⟩ := ih plain.2
      have first : c.toNat < 0x80 ∧ String.utf8EncodeChar c = [UInt8.ofNat c.toNat] := by
        rcases encodeChar_cases c with single | ⟨_, high, bytes⟩ | ⟨_, high, bytes⟩ |
          ⟨_, high, bytes⟩
        · exact single
        all_goals
          exfalso
          have lead := plain.1
          rw [bytes, List.all_cons, Bool.and_eq_true, decide_eq_true_eq, UInt8.lt_iff_toNat_lt,
            byte_toNat (by omega)] at lead
          have small : (0x80 : UInt8).toNat = 0x80 := rfl
          omega
      refine ⟨List.forall_mem_cons.mpr ⟨first.1, later⟩, ?_⟩
      rw [utf8_cons, first.2, bytes', List.map_cons, List.singleton_append]

theorem not_wide {chars : List Char} (narrow : ∀ c ∈ chars, c.toNat ≤ 0xFF) :
    (chars.any fun c => decide (0xFF < c.toNat)) = false := by
  rw [List.any_eq_false]
  intro c member
  rw [decide_eq_true_eq]
  exact Nat.not_lt.mpr (narrow c member)

theorem newStringLen_utf8 (chars : List Char) :
    newStringLen (utf8 chars) =
      ⟨chars.flatMap utf16Char, chars.any fun c => decide (0xFF < c.toNat)⟩ := by
  rw [newStringLen]
  split_ifs with plain narrow
  · obtain ⟨small, bytes⟩ := ascii_of_bytes plain
    have narrow : ∀ c ∈ chars, c.toNat ≤ 0xFF := by
      intro c member
      have := small c member
      omega
    rw [bytes, latin1_chars narrow, not_wide narrow]
  · rw [codePoints_utf8, List.all_map, List.all_eq_true] at narrow
    have small : ∀ c ∈ chars, c.toNat ≤ 0xFF := fun c member => by simpa using narrow c member
    rw [utf8DecodeBuf8_utf8 small, latin1_chars small, not_wide small]
  · rw [codePoints_utf8, List.all_map] at narrow
    have wide : (chars.any fun c => decide (0xFF < c.toNat)) = true := by
      rw [Bool.not_eq_true, List.all_eq_false] at narrow
      obtain ⟨c, member, large⟩ := narrow
      rw [List.any_eq_true]
      exact ⟨c, member, by simpa using large⟩
    rw [wide, utf8DecodeBuf16, codePoints_utf8, List.flatMap_map]
    simp only [codeUnits_char]

end Decoding

end BreezeJs.Binding
