import Mathlib.Data.List.Infix
import Mathlib.Data.List.ReduceOption
import BreezeJs.Std.QueryCodec

set_option autoImplicit false

namespace BreezeJs.Infra

def isHex (c : UInt8) : Bool :=
  (hexDigit c).isSome

def standardDecode : Bytes → Bytes
  | c :: high :: low :: rest =>
      if c == byte '%' then
        match hexDigit high, hexDigit low with
        | some a, some b => UInt8.ofNat (16 * a + b) :: standardDecode rest
        | _, _ => c :: standardDecode (high :: low :: rest)
      else c :: standardDecode (high :: low :: rest)
  | c :: rest => c :: standardDecode rest
  | [] => []

def misread (high low : UInt8) : Bool :=
  (isSpace high || high == byte '+' || high == byte '-') && isHex low ||
    isHex high && !isHex low && !(high == byte '0' && (low == byte 'x' || low == byte 'X'))

theorem hexDigit_small {c : UInt8} {value : Nat} (digit : hexDigit c = some value) :
    value < 16 := by
  have small : ∀ c : UInt8, (hexDigit c).all (fun value => decide (value < 16)) = true :=
    forall_byte (by decide +kernel)
  simpa [digit] using small c

theorem hexDigit_space : ∀ c : UInt8, isSpace c = true → hexDigit c = none :=
  forall_byte (by decide +kernel)

theorem readDigits_single (c : UInt8) : readDigits [c] = hexDigit c := by
  cases digit : hexDigit c <;> simp [readDigits, digit]

theorem readDigits_pair (high low : UInt8) :
    readDigits [high, low] =
      (hexDigit high).map fun a => ((hexDigit low).map fun b => 16 * a + b).getD a := by
  cases first : hexDigit high <;> cases second : hexDigit low <;>
    simp [readDigits, first, second]

theorem readUnsigned_single (c : UInt8) : readUnsigned [c] = hexDigit c :=
  readDigits_single c

theorem readHex_single (c : UInt8) : readHex [c] = (hexDigit c).map Int.ofNat := by
  by_cases space : isSpace c = true
  · simp [readHex, space, hexDigit_space c space]
  · by_cases minus : c = byte '-'
    · subst minus
      decide +kernel
    · by_cases plus : c = byte '+'
      · subst plus
        decide +kernel
      · simp [readHex, space, minus, plus, readUnsigned_single]

theorem readHex_pair (high low : UInt8) :
    readHex [high, low] =
      if isSpace high || high == byte '+' then (hexDigit low).map Int.ofNat
      else if high == byte '-' then (hexDigit low).map fun value => -(value : Int)
      else if high == byte '0' && (low == byte 'x' || low == byte 'X') then none
      else ((hexDigit high).map fun a =>
        ((hexDigit low).map fun b => 16 * a + b).getD a).map Int.ofNat := by
  by_cases space : isSpace high = true
  · have dropped : readHex [high, low] = readHex [low] := by simp [readHex, space]
    rw [dropped, readHex_single, if_pos (by simp [space])]
  · simp only [readHex, List.dropWhile_cons_of_neg space]
    by_cases plus : high = byte '+'
    · have apart : byte '+' ≠ byte '-' := by decide
      simp [plus, apart, readUnsigned_single]
    · by_cases minus : high = byte '-'
      · subst minus
        simp [space, plus, readUnsigned_single]
      · simp only [beq_iff_eq, plus, minus, if_false, readUnsigned, readDigits_pair]
        by_cases mark : (high == byte '0' && (low == byte 'x' || low == byte 'X')) = true
        · simp [mark, space, plus, readDigits]
        · rw [if_neg mark, if_neg mark, if_neg (by simp [space, plus])]

theorem sign_not_digit {c : UInt8} (sign : (isSpace c || c == byte '+' || c == byte '-') = true) :
    hexDigit c = none := by
  simp only [Bool.or_eq_true, beq_iff_eq] at sign
  rcases sign with (space | rfl) | rfl
  · exact hexDigit_space c space
  · decide
  · decide

theorem mark_digits {high low : UInt8}
    (mark : (high == byte '0' && (low == byte 'x' || low == byte 'X')) = true) :
    hexDigit high = some 0 ∧ hexDigit low = none := by
  simp only [Bool.and_eq_true, Bool.or_eq_true, beq_iff_eq] at mark
  obtain ⟨rfl, rfl | rfl⟩ := mark <;> decide

inductive PairReading (high low : UInt8) : Prop where
  | digits (a b : Nat) (first : hexDigit high = some a) (second : hexDigit low = some b)
      (right : misread high low = false)
      (read : readHex [high, low] = some ((16 * a + b : Nat) : Int))
  | misread (short : hexDigit high = none ∨ hexDigit low = none)
      (wrong : misread high low = true) (value : Int) (above : -16 < value) (below : value < 16)
      (read : readHex [high, low] = some value)
  | refused (short : hexDigit high = none ∨ hexDigit low = none)
      (right : misread high low = false) (read : readHex [high, low] = none)

theorem pairReading (high low : UInt8) : PairReading high low := by
  have reading := readHex_pair high low
  by_cases sign : (isSpace high || high == byte '+' || high == byte '-') = true
  · have noDigit := sign_not_digit sign
    cases second : hexDigit low with
    | none =>
        apply PairReading.refused (.inl noDigit)
        · simp [misread, isHex, second, noDigit]
        · simp [reading, noDigit, second]
    | some b =>
        have below := hexDigit_small second
        have wrong : misread high low = true := by
          rw [misread, sign, isHex, second]
          rfl
        by_cases plus : (isSpace high || high == byte '+') = true
        · rw [if_pos plus, second] at reading
          exact .misread (.inl noDigit) wrong b (by omega) (by omega) reading
        · rw [Bool.not_eq_true] at plus
          rw [plus, Bool.false_or] at sign
          rw [plus, if_neg Bool.false_ne_true, if_pos sign, second] at reading
          exact .misread (.inl noDigit) wrong (-(b : Int)) (by omega) (by omega) reading
  · simp only [Bool.or_eq_true, not_or] at sign
    rw [if_neg (by simpa using sign.1), if_neg sign.2] at reading
    by_cases mark : (high == byte '0' && (low == byte 'x' || low == byte 'X')) = true
    · obtain ⟨zero, noDigit⟩ := mark_digits mark
      rw [if_pos mark] at reading
      exact .refused (.inr noDigit) (by simp [misread, isHex, noDigit, mark]) reading
    · rw [if_neg mark] at reading
      cases first : hexDigit high with
      | none =>
          exact .refused (.inl first) (by simp [misread, isHex, first, sign])
            (by simp [reading, first])
      | some a =>
          have below := hexDigit_small first
          rw [first] at reading
          cases second : hexDigit low with
          | none =>
              rw [second] at reading
              have wrong : misread high low = true := by
                simp [misread, isHex, first, second, mark]
              exact .misread (.inr second) wrong a (by omega) (by omega) reading
          | some b =>
              rw [second] at reading
              have right : misread high low = false := by
                simp only [misread, isHex, first, second, sign]
                rfl
              exact .digits a b first second right reading

theorem ofInt_natCast (n : Nat) : UInt8.ofInt (n : Int) = UInt8.ofNat n := by
  have low : ((n : Int) % 2 ^ 8).toNat = n % 2 ^ 8 := by omega
  rw [UInt8.ofInt, low, UInt8.ofNat_mod_size]

theorem ofInt_not_percent {value : Int} (above : -16 < value) (below : value < 16) :
    UInt8.ofInt value ≠ byte '%' := by
  have bytes : ∀ n < 31, UInt8.ofInt ((n : Nat) - 15) ≠ byte '%' := by
    decide +kernel
  have found := bytes (value + 15).toNat (by omega)
  rwa [Int.toNat_of_nonneg (by omega), Int.add_sub_cancel] at found

theorem decode_number {high low : UInt8} {value : Int} (read : readHex [high, low] = some value)
    (rest : Bytes) :
    percentDecode (byte '%' :: high :: low :: rest) = UInt8.ofInt value :: percentDecode rest := by
  simp only [percentDecode, beq_self_eq_true, if_true, read]

theorem decode_copied {c high low : UInt8}
    (copied : ¬ (c == byte '%' && (readHex [high, low]).isSome) = true) (rest : Bytes) :
    percentDecode (c :: high :: low :: rest) = c :: percentDecode (high :: low :: rest) := by
  by_cases percent : c = byte '%'
  · have refused : readHex [high, low] = none := by simpa [percent] using copied
    simp [percentDecode, percent, refused]
  · exact URLSearchParams.decode_cons percent _

theorem short_tail {rest : Bytes}
    (short : ∀ high low others, rest = high :: low :: others → False) : rest.length < 2 := by
  match rest with
  | [] => simp
  | [_] => simp
  | high :: low :: others => exact absurd rfl (short high low others)

theorem decode_short {c : UInt8} {rest : Bytes} (few : rest.length < 2) :
    percentDecode (c :: rest) = c :: percentDecode rest := by
  match rest with
  | [] => rfl
  | [_] => rfl
  | _ :: _ :: _ =>
      simp only [List.length_cons] at few
      omega

def Escaped (s : Bytes) : Prop :=
  ∀ high low, misread high low = true → ¬ [byte '%', high, low] <:+: s

theorem escaped_cons_iff (c : UInt8) (rest : Bytes) :
    Escaped (c :: rest) ↔
      (∀ high low, misread high low = true → ¬ [byte '%', high, low] <+: c :: rest) ∧
        Escaped rest := by
  simp only [Escaped, List.infix_cons_iff, not_or]
  exact ⟨fun all => ⟨fun high low wrong => (all high low wrong).1,
    fun high low wrong => (all high low wrong).2⟩,
    fun both high low wrong => ⟨both.1 high low wrong, both.2 high low wrong⟩⟩

theorem escaped_plain {c : UInt8} (plain : c ≠ byte '%') (rest : Bytes) :
    Escaped (c :: rest) ↔ Escaped rest := by
  rw [escaped_cons_iff]
  simp [List.cons_prefix_cons, Ne.symm plain]

theorem escaped_percent (high low : UInt8) (rest : Bytes) :
    Escaped (byte '%' :: high :: low :: rest) ↔
      misread high low = false ∧ Escaped (high :: low :: rest) := by
  rw [escaped_cons_iff]
  apply and_congr_left
  intro _
  simp only [List.cons_prefix_cons, List.nil_prefix, true_and, and_true, ← Bool.not_eq_true]
  constructor
  · intro all wrong
    exact all high low wrong ⟨rfl, rfl⟩
  · rintro right _ _ wrong ⟨rfl, rfl⟩
    exact right wrong

theorem escaped_short {s : Bytes} (short : s.length < 3) : Escaped s := by
  intro high low _ inside
  have long := inside.length_le
  simp only [List.length_cons, List.length_nil] at long
  omega

theorem digit_not_percent {c : UInt8} {value : Nat} (digit : hexDigit c = some value) :
    c ≠ byte '%' := by
  rintro rfl
  revert digit
  decide +revert

/-- `percent_decode` is the standard decoder exactly where no `%` stands before two characters that
are not two digits, but that a stream reads a number from. -/
theorem percentDecode_eq_iff (s : Bytes) : percentDecode s = standardDecode s ↔ Escaped s := by
  fun_induction standardDecode s with
  | case1 c high low rest percent a b second first ih =>
      rw [beq_iff_eq] at percent
      subst percent
      cases pairReading high low with
      | digits m n isFirst isSecond right read =>
          rw [first, Option.some.injEq] at isFirst
          rw [second, Option.some.injEq] at isSecond
          subst isFirst isSecond
          rw [escaped_percent, escaped_plain (digit_not_percent first),
            escaped_plain (digit_not_percent second), ← ih, decode_number read, ofInt_natCast,
            List.cons_inj_right]
          simp [right]
      | misread short => simp [first, second] at short
      | refused short => simp [first, second] at short
  | case2 c high low rest percent short ih =>
      rw [beq_iff_eq] at percent
      subst percent
      rw [escaped_percent, ← ih]
      cases pairReading high low with
      | digits a b first second => exact absurd second (short a b first)
      | misread _ wrong value above below read =>
          simp [decode_number read, wrong, ofInt_not_percent above below]
      | refused _ right read => simp [decode_copied, read, right]
  | case3 c high low rest plain ih =>
      rw [beq_iff_eq] at plain
      rw [URLSearchParams.decode_cons plain, escaped_plain plain, ← ih, List.cons_inj_right]
  | case4 c rest short ih =>
      have few := short_tail short
      have both : Escaped rest ∧ Escaped (c :: rest) :=
        ⟨escaped_short (few.trans (by decide)), escaped_short (Nat.succ_lt_succ few)⟩
      rw [decode_short few, List.cons_inj_right, ih]
      simp [both]
  | case5 => simp [percentDecode, Escaped]

theorem percentDecode_not_standard : ¬ ∀ s, percentDecode s = standardDecode s := by
  intro same
  have outcome := same (text "5% a day")
  revert outcome
  decide +kernel

-- `find(c, pos)`; no position is `npos`.
def findFrom (c : UInt8) (s : Bytes) (pos : Nat) : Option Nat :=
  ((s.drop pos).idxOf? c).map (pos + ·)

def readPair (pair : Bytes) : Bytes × Bytes :=
  match findFrom (byte '=') pair 0 with
  | some eqPos => (percentDecode (pair.take eqPos), percentDecode (pair.drop (eqPos + 1)))
  | none => (percentDecode pair, percentDecode [])

-- The `while` loop of `$parse_query_string`; there is no result when it needs more turns.
def parseFrom (current : Bytes) : Nat → Nat → PairList → Option PairList
  | 0, pos, list => if pos < current.length then none else some list
  | turns + 1, pos, list =>
      if pos < current.length then
        match findFrom (byte '&') current pos with
        | some ampPos =>
            parseFrom current turns (ampPos + 1)
              (list ++ [readPair ((current.drop pos).take (ampPos - pos))])
        | none => parseFrom current turns current.length (list ++ [readPair (current.drop pos)])
      else some list

theorem idxOf_cases (c : UInt8) (s : Bytes) :
    (∃ found, s.idxOf? c = some found ∧ s.take found = s.takeWhile (· != c) ∧
      s.drop (found + 1) = (s.dropWhile (· != c)).drop 1) ∨
    (s.idxOf? c = none ∧ s.takeWhile (· != c) = s ∧ s.dropWhile (· != c) = []) := by
  induction s with
  | nil => exact .inr ⟨rfl, rfl, rfl⟩
  | cons first rest ih =>
      by_cases here : first = c
      · exact .inl ⟨0, by simp [List.idxOf?_cons, here]⟩
      · rcases ih with ⟨found, index, front, back⟩ | ⟨absent, front, back⟩
        · exact .inl ⟨found + 1, by simp [List.idxOf?_cons, here, index, front, back]⟩
        · exact .inr (by simp [List.idxOf?_cons, here, absent, front, back])

theorem findFrom_cases (c : UInt8) (s : Bytes) (pos : Nat) :
    (∃ found, findFrom c s pos = some (pos + found) ∧
      (s.drop pos).take found = (s.drop pos).takeWhile (· != c) ∧
      s.drop (pos + found + 1) = ((s.drop pos).dropWhile (· != c)).drop 1) ∨
    (findFrom c s pos = none ∧ (s.drop pos).takeWhile (· != c) = s.drop pos ∧
      (s.drop pos).dropWhile (· != c) = []) := by
  rw [findFrom]
  rcases idxOf_cases c (s.drop pos) with ⟨found, index, front, back⟩ | ⟨absent, front, back⟩
  · rw [List.drop_drop] at back
    exact .inl ⟨found, by rw [index]; rfl, front, back⟩
  · exact .inr ⟨by rw [absent]; rfl, front, back⟩

theorem readPair_eq (pair : Bytes) : readPair pair = URLSearchParams.decodePair pair := by
  have cases := findFrom_cases (byte '=') pair 0
  simp only [List.drop_zero, Nat.zero_add] at cases
  rw [readPair, URLSearchParams.decodePair]
  rcases cases with ⟨found, index, front, back⟩ | ⟨absent, front, back⟩
  · rw [index, ← front, ← back]
  · rw [absent, front, back]
    rfl

theorem parseFrom_eq (current : Bytes) {turns pos : Nat} (enough : current.length - pos ≤ turns)
    (list : PairList) :
    parseFrom current turns pos list =
      some (list ++ URLSearchParams.parseLoop turns (current.drop pos)) := by
  induction turns generalizing pos list with
  | zero =>
      have past : current.length ≤ pos := by omega
      rw [parseFrom, if_neg (by omega), List.drop_of_length_le past]
      simp [URLSearchParams.parseLoop]
  | succ turns ih =>
      rw [parseFrom]
      split_ifs with inside
      · cases left : current.drop pos with
        | nil =>
            have short := congrArg List.length left
            simp only [List.length_drop, List.length_nil] at short
            omega
        | cons c rest =>
            have cases := findFrom_cases (byte '&') current pos
            rw [left] at cases
            rw [URLSearchParams.parseLoop]
            rcases cases with ⟨found, index, front, back⟩ | ⟨absent, front, back⟩
            · rw [index]
              simp only [Nat.add_sub_cancel_left]
              rw [ih (by omega), readPair_eq, front, back, List.append_assoc]
              rfl
            · rw [absent]
              simp only
              rw [ih (by omega), readPair_eq, front, back, List.drop_length, List.append_assoc]
              rfl
      · have past : current.length ≤ pos := by omega
        rw [List.drop_of_length_le past]
        simp [URLSearchParams.parseLoop]

theorem parseFrom_query (query : Bytes) {turns : Nat} (enough : query.length ≤ turns) :
    parseFrom query turns 0 [] = some (URLSearchParams.parseQueryString query) := by
  rw [parseFrom_eq query (by omega), List.drop_zero, List.nil_append,
    URLSearchParams.parseQueryString,
    URLSearchParams.parseLoop_enough query enough (Nat.le_refl _)]

def plusToSpace (c : UInt8) : UInt8 :=
  if c == byte '+' then byte ' ' else c

def nameOf (piece : Bytes) : Bytes :=
  piece.takeWhile (· != byte '=')

def valueOf (piece : Bytes) : Bytes :=
  (piece.dropWhile (· != byte '=')).drop 1

def formPair (piece : Bytes) : Bytes × Bytes :=
  (percentDecode ((nameOf piece).map plusToSpace), percentDecode ((valueOf piece).map plusToSpace))

def formParse (query : Bytes) : PairList :=
  ((query.splitOn (byte '&')).filter fun piece => !piece.isEmpty).map formPair

def copiesPlus : Bytes → Bool
  | c :: high :: low :: rest =>
      if c == byte '%' && (readHex [high, low]).isSome then copiesPlus rest
      else c == byte '+' || copiesPlus (high :: low :: rest)
  | c :: rest => c == byte '+' || copiesPlus rest
  | [] => false

theorem readHex_plusToSpace (high low : UInt8) :
    readHex [plusToSpace high, plusToSpace low] = readHex [high, low] := by
  have digit : ∀ c, hexDigit (plusToSpace c) = hexDigit c := forall_byte (by decide +kernel)
  have mark : ∀ c, (plusToSpace c == byte 'x' || plusToSpace c == byte 'X') =
      (c == byte 'x' || c == byte 'X') := forall_byte (by decide +kernel)
  rw [readHex_pair, readHex_pair, digit, mark]
  by_cases plus : high = byte '+'
  · subst plus
    rfl
  · simp [plusToSpace, plus]

theorem plusToSpace_eq_iff : ∀ c, plusToSpace c = c ↔ c ≠ byte '+' :=
  forall_byte (by decide +kernel)

theorem plusToSpace_percent : ∀ c, (plusToSpace c == byte '%') = (c == byte '%') :=
  forall_byte (by decide +kernel)

theorem decode_plus_iff (s : Bytes) :
    percentDecode (s.map plusToSpace) = percentDecode s ↔ copiesPlus s = false := by
  fun_induction copiesPlus s with
  | case1 c high low rest number ih =>
      obtain ⟨percent, found⟩ := Bool.and_eq_true_iff.mp number
      obtain ⟨value, read⟩ := Option.isSome_iff_exists.mp found
      rw [beq_iff_eq] at percent
      subst percent
      have kept : plusToSpace (byte '%') = byte '%' := by decide +kernel
      have same : readHex [plusToSpace high, plusToSpace low] = some value := by
        rw [readHex_plusToSpace, read]
      rw [List.map_cons, List.map_cons, List.map_cons, kept, decode_number same, decode_number read,
        List.cons_inj_right, ih]
  | case2 c high low rest copied ih =>
      have still : ¬ (plusToSpace c == byte '%' &&
          (readHex [plusToSpace high, plusToSpace low]).isSome) = true := by
        rwa [plusToSpace_percent, readHex_plusToSpace]
      rw [List.map_cons, List.map_cons, List.map_cons, decode_copied still, decode_copied copied,
        List.cons_eq_cons, plusToSpace_eq_iff, ← List.map_cons, ← List.map_cons, ih]
      simp
  | case3 c rest short ih =>
      have few : rest.length < 2 := short_tail short
      rw [List.map_cons, decode_short few, decode_short (by rwa [List.length_map]),
        List.cons_eq_cons, plusToSpace_eq_iff, ih]
      simp
  | case4 => simp

def readPieces : List Bytes → List Bytes
  | [] => []
  | [last] => if last.isEmpty then [] else [last]
  | piece :: rest => piece :: readPieces rest

theorem readPieces_cons (piece : Bytes) {rest : List Bytes} (more : rest ≠ []) :
    readPieces (piece :: rest) = piece :: readPieces rest := by
  cases rest with
  | nil => exact absurd rfl more
  | cons next others => rfl

theorem parseLoop_pieces (query : Bytes) {turns : Nat} (enough : query.length ≤ turns) :
    URLSearchParams.parseLoop turns query =
      (readPieces (query.splitOn (byte '&'))).map URLSearchParams.decodePair := by
  induction turns generalizing query with
  | zero =>
      rw [List.length_eq_zero_iff.mp (Nat.le_zero.mp enough)]
      rfl
  | succ turns ih =>
      cases query with
      | nil => rfl
      | cons c current =>
          have parts := List.takeWhile_append_dropWhile (p := (· != byte '&')) (l := c :: current)
          have front : byte '&' ∉ (c :: current).takeWhile (· != byte '&') := by
            intro inside
            simpa using List.all_eq_true.mp List.all_takeWhile _ inside
          have lengths := congrArg List.length parts
          rw [List.length_append] at lengths
          rw [URLSearchParams.parseLoop]
          cases back : (c :: current).dropWhile (· != byte '&') with
          | nil =>
              rw [back, List.append_nil] at parts
              rw [parts] at front
              have last : URLSearchParams.parseLoop turns [] = [] := by cases turns <;> rfl
              rw [parts, List.splitOn_eq_singleton front, List.drop_nil, last]
              rfl
          | cons mark others =>
              have isMark : mark = byte '&' := by
                have stops := List.head_dropWhile_not (· != byte '&') (l := c :: current)
                  (by rw [back]; exact List.cons_ne_nil _ _)
                simpa [back] using stops
              subst isMark
              rw [back] at parts
              rw [back, List.length_cons] at lengths
              conv_rhs => rw [← parts]
              rw [List.splitOn_append_cons_self_of_not_mem front,
                readPieces_cons _ (List.splitOn_ne_nil _ _), List.map_cons, List.drop_one,
                List.tail_cons, ih]
              omega

theorem readPieces_length (pieces : List Bytes) :
    (pieces.filter fun piece => !piece.isEmpty).length ≤ (readPieces pieces).length := by
  induction pieces with
  | nil => simp
  | cons piece rest ih =>
      cases rest with
      | nil => by_cases empty : piece = [] <;> simp [readPieces, empty]
      | cons next others =>
          rw [readPieces_cons piece (List.cons_ne_nil _ _), List.length_cons]
          by_cases empty : piece = []
          · rw [List.filter_cons_of_neg (by simp [empty])]
            exact ih.trans (Nat.le_succ _)
          · rw [List.filter_cons_of_pos (by simpa using empty), List.length_cons]
            exact Nat.succ_le_succ ih

theorem readPieces_eq_iff (pieces : List Bytes) :
    (readPieces pieces).map URLSearchParams.decodePair =
        (pieces.filter fun piece => !piece.isEmpty).map formPair ↔
      (∀ piece ∈ pieces.dropLast, piece ≠ []) ∧
        ∀ piece ∈ pieces, URLSearchParams.decodePair piece = formPair piece := by
  have nothing : URLSearchParams.decodePair [] = formPair [] := rfl
  induction pieces with
  | nil => simp [readPieces]
  | cons piece rest ih =>
      cases rest with
      | nil =>
          by_cases empty : piece = [] <;> simp [readPieces, empty, nothing]
      | cons next others =>
          have more : next :: others ≠ [] := List.cons_ne_nil _ _
          rw [readPieces_cons piece more, List.dropLast_cons_of_ne_nil more,
            List.forall_mem_cons, List.forall_mem_cons]
          by_cases empty : piece = []
          · have fewer := readPieces_length (next :: others)
            constructor
            · intro same
              have lengths := congrArg List.length same
              rw [List.filter_cons_of_neg (by simp [empty])] at lengths
              simp only [List.length_map, List.length_cons] at lengths fewer
              omega
            · intro both
              exact absurd empty both.1.1
          · rw [List.filter_cons_of_pos (by simpa using empty), List.map_cons, List.map_cons,
              List.cons_eq_cons]
            simp only [ne_eq, empty, not_false_eq_true, true_and]
            exact (and_congr_right fun _ => ih).trans and_left_comm

def MeetsForm (query : Bytes) : Prop :=
  ∃ bound, ∀ turns, bound ≤ turns → parseFrom query turns 0 [] = some (formParse query)

theorem meetsForm_iff (query : Bytes) :
    MeetsForm query ↔ URLSearchParams.parseQueryString query = formParse query := by
  constructor
  · rintro ⟨bound, result⟩
    have agree := result (bound + query.length) (Nat.le_add_right _ _)
    rwa [parseFrom_query query (Nat.le_add_left _ _), Option.some.injEq] at agree
  · intro same
    exact ⟨query.length, fun turns enough => by rw [parseFrom_query query enough, same]⟩

/-- A query is read as a form exactly where only a last piece of it is empty and every `+` is taken
for part of a number. -/
theorem parse_form_iff (query : Bytes) :
    MeetsForm query ↔
      (∀ piece ∈ (query.splitOn (byte '&')).dropLast, piece ≠ []) ∧
        ∀ piece ∈ query.splitOn (byte '&'),
          copiesPlus (nameOf piece) = false ∧ copiesPlus (valueOf piece) = false := by
  have pairs (piece : Bytes) : URLSearchParams.decodePair piece = formPair piece ↔
      copiesPlus (nameOf piece) = false ∧ copiesPlus (valueOf piece) = false := by
    have plain : URLSearchParams.decodePair piece =
        (percentDecode (nameOf piece), percentDecode (valueOf piece)) := rfl
    rw [plain, formPair, Prod.mk.injEq, ← decode_plus_iff, ← decode_plus_iff]
    exact and_congr eq_comm eq_comm
  simp only [← pairs]
  rw [meetsForm_iff, URLSearchParams.parseQueryString, parseLoop_pieces query (Nat.le_refl _),
    formParse, readPieces_eq_iff]

theorem parse_not_form : ¬ ∀ query, MeetsForm query := by
  intro meets
  have outcome := (meetsForm_iff (text "q=a+b&&x")).mp (meets (text "q=a+b&&x"))
  revert outcome
  decide +kernel

end BreezeJs.Infra
