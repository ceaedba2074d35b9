import Mathlib.Data.List.TakeWhile
import BreezeJs.Binding.Utf8Decode

set_option autoImplicit false

namespace BreezeJs.Binding

open Infra

inductive Atom where
  | int (n : Nat)
  | string (units : List UInt16)
deriving DecidableEq, Repr

abbrev AtomTable := List JsString

def isNum (c : UInt16) : Bool :=
  decide (48 ≤ c.toNat) && decide (c.toNat ≤ 57)

def appendDigit (n : Nat) (c : UInt16) : Option Nat :=
  if isNum c then
    let n64 := n * 10 + (c.toNat - 48)
    if 2 ^ 32 ≤ n64 then none else some n64
  else none

def isNumString : List UInt16 → Option Nat
  | [] => none
  | c :: rest =>
      if 10 < rest.length + 1 then none
      else if isNum c then
        if c = 48 then if rest.length + 1 = 1 then some 0 else none
        else rest.foldlM appendDigit (c.toNat - 48)
      else none

def u32toa (n : Nat) : List UInt16 :=
  (Nat.toDigits 10 n).map fun c => UInt16.ofNat c.toNat

def Atom.toUnits : Atom → List UInt16
  | .int n => u32toa n
  | .string units => units

-- `JS_AtomIsArrayIndex`
def Atom.arrayIndex : Atom → Option Nat
  | .int n => some n
  | .string units => (isNumString units).filter (· ≠ 2 ^ 32 - 1)

-- The bytes are compared with those of the atoms, whatever they encode.
def findAtom (table : AtomTable) (str : Bytes) : Option Atom :=
  if ⟨latin1 str, false⟩ ∈ table then some (.string (latin1 str)) else none

def newAtomStr (table : AtomTable) (p : JsString) : Atom × AtomTable :=
  match (isNumString p.units).filter (· ≤ 2 ^ 31 - 1) with
  | some n => (.int n, table)
  | none =>
      (.string p.units, if table.any fun q => q.units == p.units then table else p :: table)

def startsWithDigit (str : Bytes) : Bool :=
  str.head?.any (between '0' '9')

def newAtomLen (table : AtomTable) (str : Bytes) : Atom × AtomTable :=
  if startsWithDigit str then newAtomStr table (newStringLen str)
  else
    match findAtom table str with
    | some atom => (atom, table)
    | none => newAtomStr table (newStringLen str)

theorem u32toa_append {n d : Nat} (positive : 0 < n) (small : d < 10) :
    u32toa (n * 10 + d) = u32toa n ++ u32toa d := by
  have digits := Nat.toDigits_append_toDigits (b := 10) (n := n) (d := d) (by decide) positive small
  rw [u32toa, u32toa, u32toa, Nat.mul_comm, ← digits, List.map_append]

theorem u32toa_digit {c : UInt16} (digit : isNum c = true) : u32toa (c.toNat - 48) = [c] := by
  simp only [isNum, Bool.and_eq_true, decide_eq_true_eq] at digit
  have all : ∀ n < 10, (Nat.digitChar n).toNat = 48 + n := by decide
  have back : UInt16.ofNat (48 + (c.toNat - 48)) = c := by
    rw [Nat.add_sub_cancel' digit.1, UInt16.ofNat_toNat]
  rw [u32toa, Nat.toDigits_of_lt_base (by omega), List.map_singleton, all _ (by omega), back]

theorem appendDigit_some {n m : Nat} {c : UInt16} (positive : 0 < n)
    (next : appendDigit n c = some m) : 0 < m ∧ u32toa m = u32toa n ++ [c] := by
  simp only [appendDigit, Option.ite_none_right_eq_some, Option.ite_none_left_eq_some,
    Option.some.injEq] at next
  obtain ⟨digit, _, rfl⟩ := next
  have range := digit
  simp only [isNum, Bool.and_eq_true, decide_eq_true_eq] at range
  rw [u32toa_append positive (by omega), u32toa_digit digit]
  exact ⟨by omega, rfl⟩

theorem foldlM_appendDigit {rest : List UInt16} {n m : Nat} (positive : 0 < n)
    (read : rest.foldlM appendDigit n = some m) : u32toa m = u32toa n ++ rest := by
  induction rest generalizing n with
  | nil =>
      cases read
      rw [List.append_nil]
  | cons c rest ih =>
      rw [List.foldlM_cons, Option.bind_eq_bind, Option.bind_eq_some_iff] at read
      obtain ⟨next, taken, read⟩ := read
      obtain ⟨positive', written⟩ := appendDigit_some positive taken
      rw [ih positive' read, written, List.append_assoc, List.singleton_append]

theorem isNumString_some {p : List UInt16} {n : Nat} (number : isNumString p = some n) :
    u32toa n = p := by
  cases p with
  | nil => cases number
  | cons c rest =>
      simp only [isNumString] at number
      split_ifs at number with long digit zero single
      · cases number
        rw [List.length_eq_zero_iff.mp (show rest.length = 0 by omega), zero]
        decide
      · have positive : 0 < c.toNat - 48 := by
          simp only [isNum, Bool.and_eq_true, decide_eq_true_eq] at digit
          have other : c.toNat ≠ 48 := fun same => zero (UInt16.toNat_inj.mp same)
          omega
        rw [foldlM_appendDigit positive number, u32toa_digit digit, List.singleton_append]

def isAscii (str : Bytes) : Prop :=
  ∀ c ∈ str, c < 0x80

def Mistaken (table : AtomTable) (str : Bytes) : Prop :=
  ¬ isAscii str ∧ startsWithDigit str = false ∧ ⟨latin1 str, false⟩ ∈ table

section Names

variable {table : AtomTable} {str : Bytes} {p : JsString}

theorem cString_whole (whole : 0 ∉ str) : cString str = str := by
  rw [cString, List.takeWhile_eq_self_iff]
  intro c member
  rw [bne_iff_ne]
  rintro rfl
  exact whole member

theorem toUnits_newAtomStr (table : AtomTable) (p : JsString) :
    (newAtomStr table p).1.toUnits = p.units := by
  rw [newAtomStr]
  split
  · next n number =>
      rw [Option.filter_eq_some_iff] at number
      exact isNumString_some number.1
  · rfl

theorem newAtomStr_string (text : isNumString p.units = none) :
    newAtomStr table p =
      (.string p.units, if table.any fun q => q.units == p.units then table else p :: table) := by
  rw [newAtomStr, text]
  rfl

theorem newStringLen_ascii (ascii : isAscii str) : newStringLen str = ⟨latin1 str, false⟩ := by
  rw [newStringLen, if_pos]
  exact List.all_eq_true.mpr fun c member => decide_eq_true (ascii c member)

theorem newAtomLen_mistaken (mistaken : Mistaken table str) :
    newAtomLen table str = (.string (latin1 str), table) := by
  rw [newAtomLen, mistaken.2.1, if_neg (by decide), findAtom, if_pos mistaken.2.2]

theorem newAtomLen_read (read : ¬ Mistaken table str) (other : ¬ isAscii str) :
    newAtomLen table str = newAtomStr table (newStringLen str) := by
  rw [newAtomLen]
  cases digit : startsWithDigit str with
  | true => rw [if_pos rfl]
  | false =>
      rw [if_neg (by decide), findAtom, if_neg fun found => read ⟨other, digit, found⟩]

theorem toUnits_newAtomLen (read : ¬ Mistaken table str) :
    (newAtomLen table str).1.toUnits = (newStringLen str).units := by
  by_cases ascii : isAscii str
  · rw [newAtomLen]
    split_ifs with digit
    · exact toUnits_newAtomStr table _
    · rw [findAtom]
      split
      · next atom found =>
          rw [Option.ite_none_right_eq_some, Option.some.injEq] at found
          rw [← found.2, newStringLen_ascii ascii]
          rfl
      · exact toUnits_newAtomStr table _
  · rw [newAtomLen_read read ascii]
    exact toUnits_newAtomStr table _

theorem mem_newAtomStr {q : JsString} (table : AtomTable) (p : JsString) :
    q ∈ (newAtomStr table p).2 →
      q ∈ table ∨ q = p ∧ ∀ earlier ∈ table, earlier.units ≠ q.units := by
  rw [newAtomStr]
  split
  · exact .inl
  · intro member
    dsimp only at member
    split_ifs at member with present
    · exact .inl member
    · rcases List.mem_cons.mp member with rfl | earlier
      · refine .inr ⟨rfl, ?_⟩
        intro other listed same
        exact present (List.any_eq_true.mpr ⟨other, listed, beq_iff_eq.mpr same⟩)
      · exact .inl earlier

theorem newAtomStr_keeps {q : JsString} (p : JsString) (member : q ∈ table) :
    q ∈ (newAtomStr table p).2 := by
  rw [newAtomStr]
  split
  · exact member
  · dsimp only
    split_ifs
    · exact member
    · exact List.mem_cons_of_mem p member

theorem mem_newAtomLen {q : JsString} (member : q ∈ (newAtomLen table str).2) :
    q ∈ table ∨ q = newStringLen str ∧ ∀ earlier ∈ table, earlier.units ≠ q.units := by
  rw [newAtomLen] at member
  split at member
  · exact mem_newAtomStr table _ member
  · split at member
    · exact .inl member
    · exact mem_newAtomStr table _ member

theorem newAtomLen_keeps {q : JsString} (str : Bytes) (member : q ∈ table) :
    q ∈ (newAtomLen table str).2 := by
  rw [newAtomLen]
  split
  · exact newAtomStr_keeps _ member
  · split
    · exact member
    · exact newAtomStr_keeps _ member

end Names

def mojibake (str : Bytes) : Bytes :=
  toCString (latin1 str)

section Bytes

variable {str : Bytes} {chars : List Char}

theorem ofUInt8_toNat (c : UInt8) : (Char.ofUInt8 c).toNat = c.toNat :=
  UInt8.toNat_toUInt32 c

theorem ofUInt8_narrow (str : Bytes) : ∀ c ∈ str.map Char.ofUInt8, c.toNat ≤ 0xFF := by
  intro c member
  obtain ⟨b, _, rfl⟩ := List.mem_map.mp member
  rw [ofUInt8_toNat]
  exact Nat.le_of_lt_succ b.toNat_lt

theorem latin1_eq (str : Bytes) : latin1 str = (str.map Char.ofUInt8).flatMap utf16Char := by
  have back : (str.map Char.ofUInt8).map (fun c => UInt8.ofNat c.toNat) = str := by
    rw [List.map_map]
    refine (List.map_congr_left fun b _ => ?_).trans (List.map_id str)
    rw [Function.comp_apply, ofUInt8_toNat, UInt8.ofNat_toNat]
    rfl
  rw [← latin1_chars (ofUInt8_narrow str), back]

theorem mojibake_eq (str : Bytes) : mojibake str = utf8 (str.map Char.ofUInt8) := by
  rw [mojibake, latin1_eq, toCString_utf16]
  rfl

theorem ascii_mem_iff (c : Char) : (∀ b ∈ String.utf8EncodeChar c, b < 0x80) ↔ c.toNat < 0x80 := by
  have mark : (0x80 : UInt8).toNat = 0x80 := rfl
  rcases encodeChar_cases c with ⟨low, bytes⟩ | ⟨low, high, bytes⟩ | ⟨low, high, bytes⟩ |
    ⟨low, high, bytes⟩
  · rw [bytes, List.forall_mem_singleton, UInt8.lt_iff_toNat_lt, byte_toNat (by omega), mark]
  all_goals
    rw [bytes, List.forall_mem_cons, UInt8.lt_iff_toNat_lt, byte_toNat (by omega), mark]
    omega

theorem zero_mem_encodeChar_iff (c : Char) : 0 ∈ String.utf8EncodeChar c ↔ c.toNat = 0 := by
  have zero {n : Nat} (small : n < 256) : (0 : UInt8) = UInt8.ofNat n ↔ n = 0 := by
    rw [← UInt8.toNat_inj, byte_toNat small]
    exact eq_comm
  rcases encodeChar_cases c with ⟨low, bytes⟩ | ⟨low, high, bytes⟩ | ⟨low, high, bytes⟩ |
    ⟨low, high, bytes⟩
  · rw [bytes, List.mem_singleton, zero (by omega)]
  all_goals
    simp only [bytes, List.mem_cons, List.not_mem_nil, or_false]
    repeat rw [zero (by omega)]
    omega

theorem zero_mem_mojibake_iff (str : Bytes) : 0 ∈ mojibake str ↔ 0 ∈ str := by
  rw [mojibake_eq, utf8, List.mem_flatMap]
  constructor
  · rintro ⟨c, member, zero⟩
    obtain ⟨b, listed, rfl⟩ := List.mem_map.mp member
    rw [zero_mem_encodeChar_iff, ofUInt8_toNat] at zero
    have same : b = 0 := UInt8.toNat_inj.mp zero
    rwa [same] at listed
  · intro listed
    exact ⟨Char.ofUInt8 0, List.mem_map_of_mem listed, (zero_mem_encodeChar_iff _).mpr rfl⟩

theorem encodeChar_length (c : Char) :
    1 ≤ (String.utf8EncodeChar c).length ∧
      (¬ c.toNat < 0x80 → 1 < (String.utf8EncodeChar c).length) := by
  rcases encodeChar_cases c with ⟨low, bytes⟩ | ⟨_, _, bytes⟩ | ⟨_, _, bytes⟩ | ⟨_, _, bytes⟩
  · simp [bytes, low]
  all_goals simp [bytes]

theorem mojibake_length (str : Bytes) : str.length ≤ (mojibake str).length := by
  rw [mojibake_eq]
  induction str with
  | nil => exact Nat.le_refl _
  | cons b str ih =>
      have first := (encodeChar_length (Char.ofUInt8 b)).1
      rw [List.map_cons, utf8_cons, List.length_append, List.length_cons]
      omega

theorem mojibake_longer (other : ¬ isAscii str) : str.length < (mojibake str).length := by
  simp only [isAscii, not_forall, UInt8.lt_iff_toNat_lt] at other
  obtain ⟨b, member, high⟩ := other
  obtain ⟨front, rest, rfl⟩ := List.append_of_mem member
  have before := mojibake_length front
  have after := mojibake_length rest
  have mark : (0x80 : UInt8).toNat = 0x80 := rfl
  have longer := (encodeChar_length (Char.ofUInt8 b)).2 (by rw [ofUInt8_toNat]; omega)
  rw [mojibake_eq] at before after ⊢
  rw [utf8] at before after ⊢
  rw [List.map_append, List.map_cons, List.flatMap_append, List.flatMap_cons, List.length_append,
    List.length_append, List.length_append, List.length_cons]
  omega

theorem mojibake_not_ascii (other : ¬ isAscii str) : ¬ isAscii (mojibake str) := by
  intro ascii
  apply other
  intro b member
  have first := ascii_mem_iff (Char.ofUInt8 b)
  have inside : ∀ c ∈ String.utf8EncodeChar (Char.ofUInt8 b), c < 0x80 := by
    intro c written
    apply ascii
    rw [mojibake_eq, utf8, List.mem_flatMap]
    exact ⟨_, List.mem_map_of_mem member, written⟩
  rw [UInt8.lt_iff_toNat_lt, ← ofUInt8_toNat]
  exact first.mp inside

theorem isNumString_latin1 (plain : startsWithDigit str = false) :
    isNumString (latin1 str) = none := by
  cases str with
  | nil => rfl
  | cons c rest =>
      have same : isNum c.toUInt16 = between '0' '9' c := by
        simp only [isNum, between, UInt8.toNat_toUInt16, UInt8.le_iff_toNat_le]
        rfl
      have other : isNum c.toUInt16 = false := same.trans plain
      simp [latin1, isNumString, other]

theorem latin1_narrow {u : UInt16} (member : u ∈ latin1 str) : u.toNat ≤ 0xFF := by
  obtain ⟨b, _, rfl⟩ := List.mem_map.mp member
  rw [UInt8.toNat_toUInt16]
  exact Nat.le_of_lt_succ b.toNat_lt

theorem newStringLen_mojibake (str : Bytes) :
    newStringLen (mojibake str) = ⟨latin1 str, false⟩ := by
  rw [mojibake_eq, newStringLen_utf8, not_wide (ofUInt8_narrow str), ← latin1_eq]

theorem narrow_of_latin1 {chars : List Char} (same : chars.flatMap utf16Char = latin1 str) :
    (newStringLen (utf8 chars)).isWideChar = false := by
  rw [newStringLen_utf8]
  refine not_wide ?_
  intro c member
  have valid := scalar_value c
  have inside {u : UInt16} (written : u ∈ utf16Char c) : u.toNat ≤ 0xFF :=
    latin1_narrow (same ▸ List.mem_flatMap.mpr ⟨c, member, written⟩)
  by_cases basic : c.toNat < 0x10000
  · have unit := inside (u := UInt16.ofNat c.toNat) (by simp [utf16Char, basic])
    rwa [unit_toNat (by omega)] at unit
  · have unit := inside (u := UInt16.ofNat (0xD800 + (c.toNat - 0x10000) / 0x400))
      (by simp [utf16Char, basic])
    rw [unit_toNat (by omega)] at unit
    omega

end Bytes

end BreezeJs.Binding
