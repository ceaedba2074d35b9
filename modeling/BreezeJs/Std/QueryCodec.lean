import Mathlib.Data.List.Basic
import Mathlib.Logic.Function.Basic

set_option autoImplicit false

namespace BreezeJs.Infra

-- The characters are classified as in the C locale.

abbrev Bytes := List UInt8

def byte (c : Char) : UInt8 :=
  UInt8.ofNat c.toNat

def text (s : String) : Bytes :=
  s.toList.map byte

-- What `c_str()` shows of a string: the bytes in front of the first NUL.
def cString (str : Bytes) : Bytes :=
  str.takeWhile (· != 0)

theorem forall_byte {P : UInt8 → Prop} (all : ∀ n < 256, P (UInt8.ofNat n)) (c : UInt8) : P c := by
  have found := all c.toNat c.toNat_lt
  rwa [UInt8.ofNat_toNat] at found

def between (low high : Char) (c : UInt8) : Bool :=
  decide (byte low ≤ c) && decide (c ≤ byte high)

def isAlnum (c : UInt8) : Bool :=
  between 'a' 'z' c || between 'A' 'Z' c || between '0' '9' c

def isUnreserved (c : UInt8) : Bool :=
  isAlnum c || c == byte '-' || c == byte '_' || c == byte '.' || c == byte '~'

-- A digit of `std::uppercase << std::hex`.
def upperDigit (value : Nat) : UInt8 :=
  if value < 10 then byte '0' + UInt8.ofNat value else byte 'A' + UInt8.ofNat (value - 10)

def encodeByte (c : UInt8) : Bytes :=
  if isUnreserved c then [c]
  else [byte '%', upperDigit (c.toNat / 16), upperDigit (c.toNat % 16)]

def percentEncode (str : Bytes) : Bytes :=
  str.flatMap encodeByte

def isSpace (c : UInt8) : Bool :=
  c == byte ' ' || between '\t' '\r' c

def hexDigit (c : UInt8) : Option Nat :=
  if between '0' '9' c then some (c.toNat - (byte '0').toNat)
  else if between 'a' 'f' c then some (c.toNat - (byte 'a').toNat + 10)
  else if between 'A' 'F' c then some (c.toNat - (byte 'A').toNat + 10)
  else none

def readDigits (str : Bytes) : Option Nat :=
  match (str.map hexDigit).takeWhile Option.isSome with
  | [] => none
  | digits => some (digits.reduceOption.foldl (fun value digit => 16 * value + digit) 0)

def readUnsigned : Bytes → Option Nat
  | zero :: x :: rest =>
      if zero == byte '0' && (x == byte 'x' || x == byte 'X') then readDigits rest
      else readDigits (zero :: x :: rest)
  | str => readDigits str

-- `iss >> std::hex >> value`.
def readHex (str : Bytes) : Option Int :=
  match str.dropWhile isSpace with
  | sign :: rest =>
      if sign == byte '-' then (readUnsigned rest).map fun value => -(value : Int)
      else if sign == byte '+' then (readUnsigned rest).map Int.ofNat
      else (readUnsigned (sign :: rest)).map Int.ofNat
  | [] => none

-- A `%` needs two more characters; both are consumed if they start with a number.
def percentDecode : Bytes → Bytes
  | c :: high :: low :: rest =>
      if c == byte '%' then
        match readHex [high, low] with
        | some value => UInt8.ofInt value :: percentDecode rest
        | none => c :: percentDecode (high :: low :: rest)
      else c :: percentDecode (high :: low :: rest)
  | c :: rest => c :: percentDecode rest
  | [] => []

abbrev PairList := List (Bytes × Bytes)

namespace URLSearchParams

def encodePair (pair : Bytes × Bytes) : Bytes :=
  percentEncode pair.1 ++ byte '=' :: percentEncode pair.2

def toString (list : PairList) : Bytes :=
  [byte '&'].intercalate (list.map encodePair)

def decodePair (pair : Bytes) : Bytes × Bytes :=
  (percentDecode (pair.takeWhile (· != byte '=')),
    percentDecode ((pair.dropWhile (· != byte '=')).drop 1))

-- `current` is what the loop has not read yet; every round reads a byte at least.
def parseLoop : Nat → Bytes → PairList
  | 0, _ => []
  | _ + 1, [] => []
  | fuel + 1, c :: current =>
      decodePair ((c :: current).takeWhile (· != byte '&')) ::
        parseLoop fuel (((c :: current).dropWhile (· != byte '&')).drop 1)

def parseQueryString (query : Bytes) : PairList :=
  parseLoop query.length query

theorem parseLoop_enough (query : Bytes) {fuel more : Nat} (enough : query.length ≤ fuel)
    (plenty : query.length ≤ more) : parseLoop fuel query = parseLoop more query := by
  induction fuel generalizing query more with
  | zero =>
      rw [List.length_eq_zero_iff.mp (Nat.le_zero.mp enough)]
      cases more <;> rfl
  | succ fuel ih =>
      cases query with
      | nil => cases more <;> rfl
      | cons c current =>
          cases more with
          | zero => simp at plenty
          | succ more =>
              have shorter : (((c :: current).dropWhile (· != byte '&')).drop 1).length ≤
                  current.length := by
                have shrinks := (List.dropWhile_sublist (l := c :: current)
                  (· != byte '&')).length_le
                simp only [List.length_drop, List.length_cons] at shrinks ⊢
                omega
              simp only [List.length_cons, Nat.add_le_add_iff_right] at enough plenty
              rw [parseLoop, parseLoop,
                ih _ (Nat.le_trans shorter enough) (Nat.le_trans shorter plenty)]

theorem readHex_upperDigit : ∀ c : UInt8,
    readHex [upperDigit (c.toNat / 16), upperDigit (c.toNat % 16)] = some (c.toNat : Int) :=
  forall_byte (by decide +kernel)

theorem decode_cons {c : UInt8} (plain : c ≠ byte '%') (rest : Bytes) :
    percentDecode (c :: rest) = c :: percentDecode rest := by
  match rest with
  | [] => rfl
  | [_] => rfl
  | _ :: _ :: _ => simp [percentDecode, plain]

theorem decode_encodeByte (c : UInt8) (rest : Bytes) :
    percentDecode (encodeByte c ++ rest) = c :: percentDecode rest := by
  simp only [encodeByte]
  split_ifs with unreserved
  · apply decode_cons
    rintro rfl
    revert unreserved
    decide
  · have read := readHex_upperDigit c
    have whole : UInt8.ofInt (c.toNat : Int) = c := by
      simp only [UInt8.ofInt]
      norm_cast
      simp
    simp [percentDecode, read, whole]

theorem percentDecode_percentEncode (str : Bytes) : percentDecode (percentEncode str) = str := by
  simp only [percentEncode]
  induction str with
  | nil => rfl
  | cons c rest ih => rw [List.flatMap_cons, decode_encodeByte, ih]

-- As a test of the whole list: a quantifier over `out` would run through all bytes.
theorem encodeByte_separators : ∀ c : UInt8,
    (encodeByte c).all (fun out => out != byte '&' && out != byte '=' && out != byte '?') = true :=
  forall_byte (by decide +kernel)

theorem percentEncode_separators (str : Bytes) :
    ∀ out ∈ percentEncode str, out ≠ byte '&' ∧ out ≠ byte '=' ∧ out ≠ byte '?' := by
  intro out member
  obtain ⟨c, _, encoded⟩ := List.mem_flatMap.mp member
  have separators := List.all_eq_true.mp (encodeByte_separators c) out encoded
  simpa [and_assoc] using separators

theorem encodePair_amp (pair : Bytes × Bytes) : ∀ c ∈ encodePair pair, c ≠ byte '&' := by
  intro c member
  simp only [encodePair, List.mem_append, List.mem_cons] at member
  rcases member with name | rfl | value
  · exact (percentEncode_separators pair.1 c name).1
  · decide
  · exact (percentEncode_separators pair.2 c value).1

theorem decodePair_encodePair (pair : Bytes × Bytes) : decodePair (encodePair pair) = pair := by
  have name : ∀ c ∈ percentEncode pair.1, (c != byte '=') = true := by
    intro c member
    simpa using (percentEncode_separators pair.1 c member).2.1
  simp [decodePair, encodePair, List.takeWhile_append_of_pos name, List.dropWhile_append_of_pos name,
    percentDecode_percentEncode]

theorem toString_cons (pair : Bytes × Bytes) (rest : PairList) :
    ∃ tail, toString (pair :: rest) = encodePair pair ++ tail ∧
      tail.takeWhile (· != byte '&') = [] ∧
      (tail.dropWhile (· != byte '&')).drop 1 = toString rest := by
  cases rest with
  | nil => exact ⟨[], by simp [toString], rfl, rfl⟩
  | cons next rest =>
      refine ⟨byte '&' :: toString (next :: rest), ?_, by simp, by simp⟩
      simp [toString, List.intercalate_cons_cons]

theorem parseLoop_toString (list : PairList) {fuel : Nat} (enough : list.length ≤ fuel) :
    parseLoop fuel (toString list) = list := by
  induction list generalizing fuel with
  | nil => cases fuel <;> rfl
  | cons pair rest ih =>
      cases fuel with
      | zero => simp at enough
      | succ fuel =>
          have amp : ∀ c ∈ encodePair pair, (c != byte '&') = true := by
            intro c member
            simpa using encodePair_amp pair c member
          obtain ⟨tail, split, stops, later⟩ := toString_cons pair rest
          have taken : (toString (pair :: rest)).takeWhile (· != byte '&') = encodePair pair := by
            rw [split, List.takeWhile_append_of_pos amp, stops, List.append_nil]
          have dropped : ((toString (pair :: rest)).dropWhile (· != byte '&')).drop 1 =
              toString rest := by
            rw [split, List.dropWhile_append_of_pos amp, later]
          cases whole : toString (pair :: rest) with
          | nil => simp [split, encodePair] at whole
          | cons c current =>
              rw [whole] at taken dropped
              rw [parseLoop, taken, dropped, decodePair_encodePair,
                ih (by simpa using enough)]

theorem parseQueryString_toString (list : PairList) : parseQueryString (toString list) = list := by
  have fuel := parseLoop_enough (toString list) (Nat.le_refl _) (Nat.le_add_right _ list.length)
  rw [parseQueryString, fuel, parseLoop_toString list (Nat.le_add_left _ _)]

/-- Reading a written query gives the same pairs in the same order, so that no two lists are
written alike. -/
theorem query_round_trip :
    (∀ list, parseQueryString (toString list) = list) ∧ Function.Injective toString :=
  ⟨parseQueryString_toString, Function.LeftInverse.injective parseQueryString_toString⟩

end URLSearchParams

end BreezeJs.Infra
