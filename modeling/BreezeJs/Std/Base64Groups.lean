import BreezeJs.Std.Base64

set_option autoImplicit false

namespace BreezeJs.Infra

open Bits

def rfcChar (value : Nat) : UInt8 :=
  if value < 26 then byte 'A' + UInt8.ofNat value
  else if value < 52 then byte 'a' + UInt8.ofNat (value - 26)
  else if value < 62 then byte '0' + UInt8.ofNat (value - 52)
  else if value = 62 then byte '+' else byte '/'

def rfcEncode : Bytes → Bytes
  | a :: b :: c :: rest =>
      rfcChar (a.toNat / 4) :: rfcChar (a.toNat % 4 * 16 + b.toNat / 16) ::
        rfcChar (b.toNat % 16 * 4 + c.toNat / 64) :: rfcChar (c.toNat % 64) :: rfcEncode rest
  | [a, b] =>
      [rfcChar (a.toNat / 4), rfcChar (a.toNat % 4 * 16 + b.toNat / 16),
        rfcChar (b.toNat % 16 * 4), byte '=']
  | [a] => [rfcChar (a.toNat / 4), rfcChar (a.toNat % 4 * 16), byte '=', byte '=']
  | [] => []

def sextets : Bytes → List Nat
  | a :: b :: c :: rest =>
      a.toNat / 4 :: (a.toNat % 4 * 16 + b.toNat / 16) :: (b.toNat % 16 * 4 + c.toNat / 64) ::
        c.toNat % 64 :: sextets rest
  | [a, b] => [a.toNat / 4, a.toNat % 4 * 16 + b.toNat / 16, b.toNat % 16 * 4]
  | [a] => [a.toNat / 4, a.toNat % 4 * 16]
  | [] => []

theorem encodeDigit_rfcChar : ∀ value < 64, encodeDigit value = rfcChar value := by
  decide +kernel

theorem sextets_small (str : Bytes) : ∀ value ∈ sextets str, value < 2 ^ 6 := by
  fun_induction sextets str with
  | case1 a b c rest ih =>
      have := a.toNat_lt
      have := b.toNat_lt
      have := c.toNat_lt
      simp only [List.forall_mem_cons]
      exact ⟨by omega, by omega, by omega, by omega, ih⟩
  | case2 a b =>
      have := a.toNat_lt
      have := b.toNat_lt
      simp only [List.forall_mem_cons]
      exact ⟨by omega, by omega, by omega, by simp⟩
  | case3 a =>
      have := a.toNat_lt
      simp only [List.forall_mem_cons]
      exact ⟨by omega, by omega, by simp⟩
  | case4 => simp

theorem rfcEncode_sextets (str : Bytes) : rfcEncode str = padded ((sextets str).map rfcChar) := by
  fun_induction sextets str with
  | case1 a b c rest ih =>
      have whole (n : Nat) : (n + 1 + 1 + 1 + 1) % 4 = n % 4 := by omega
      simp only [rfcEncode, ih, padded, List.map_cons, List.length_cons, List.cons_append, whole]
  | case2 a b => rfl
  | case3 a => rfl
  | case4 => rfl

theorem bits_group {a b c : Nat} (second : b < 2 ^ 8) (third : c < 2 ^ 8) :
    stream 6 [a / 4, a % 4 * 16 + b / 16, b % 16 * 4 + c / 64, c % 64] = stream 8 [a, b, c] := by
  have highB : b / 16 < 2 ^ 4 := by omega
  have highC : c / 64 < 2 ^ 2 := by omega
  have splitA := bits_append 6 2 a
  have digitB := bits_push 2 4 (a % 4) highB
  have splitB := bits_append 4 4 b
  have digitC := bits_push 4 2 (b % 16) highC
  have splitC := bits_append 2 6 c
  have lowA : bits 2 (a % 4) = bits 2 a := bits_mod a (Nat.le_refl 2)
  have lowB : bits 4 (b % 16) = bits 4 b := bits_mod b (Nat.le_refl 4)
  have lowC : bits 6 (c % 64) = bits 6 c := bits_mod c (Nat.le_refl 6)
  simp only [Nat.reduceAdd, Nat.reducePow] at splitA digitB splitB digitC splitC
  simp only [stream_cons, stream_nil, splitA, digitB, splitB, digitC, splitC, lowA, lowB, lowC,
    List.append_assoc, List.append_nil]

theorem sextets_bits (str : Bytes) :
    ∃ fill < 6, stream 6 (sextets str) =
      stream 8 (str.map UInt8.toNat) ++ List.replicate fill false := by
  fun_induction sextets str with
  | case1 a b c rest ih =>
      obtain ⟨fill, short, same⟩ := ih
      refine ⟨fill, short, ?_⟩
      have group := bits_group (a := a.toNat) b.toNat_lt c.toNat_lt
      have front := congrArg (· ++ stream 6 (sextets rest)) group
      simp only [← stream_append, List.cons_append, List.nil_append] at front
      rw [front]
      simp only [List.map_cons, stream_cons, stream_nil, same, List.append_assoc, List.nil_append]
  | case2 a b =>
      refine ⟨2, by decide, ?_⟩
      have group := bits_group (a := a.toNat) (c := 0) b.toNat_lt (by decide)
      apply (List.append_left_inj (List.replicate 6 false)).mp
      simpa [bits_zero] using group
  | case3 a =>
      refine ⟨4, by decide, ?_⟩
      have group := bits_group (a := a.toNat) (b := 0) (c := 0) (by decide) (by decide)
      apply (List.append_left_inj (List.replicate 12 false)).mp
      simpa [bits_zero] using group
  | case4 => exact ⟨0, by decide, rfl⟩

/-- The shifting loop writes what the reference encoding writes. -/
theorem btoa_eq_rfcEncode (str : Bytes) : btoa str = rfcEncode str := by
  obtain ⟨digits, fill, written, small, short, whole⟩ := btoa_digits str
  obtain ⟨other, otherShort, same⟩ := sextets_bits str
  have streams : stream 6 digits ++ List.replicate other false =
      stream 6 (sextets str) ++ List.replicate fill false := by
    rw [whole, same, List.append_assoc, List.append_assoc, ← List.replicate_add,
      ← List.replicate_add, Nat.add_comm]
  have digitsSame : digits = sextets str :=
    stream_injective small (sextets_small str) (by simpa using otherShort) (by simpa using short)
      streams
  rw [written, digitsSame, rfcEncode_sextets]
  congr 1
  apply List.map_congr_left
  intro value member
  exact encodeDigit_rfcChar value (sextets_small str value member)

-- A vertical tab is not one of them.
def isAsciiSpace (c : UInt8) : Bool :=
  c == byte '\t' || c == byte '\n' || c == 12 || c == byte '\r' || c == byte ' '

def inAlphabet (c : UInt8) : Bool :=
  isAlnum c || c == byte '+' || c == byte '/'

def alphabetValue (c : UInt8) : Nat :=
  if between 'A' 'Z' c then c.toNat - 65
  else if between 'a' 'z' c then c.toNat - 71
  else if between '0' '9' c then c.toNat + 4
  else if c == byte '+' then 62 else 63

def withoutSpace (s : Bytes) : Bytes :=
  s.filter fun c => !isAsciiSpace c

def beforePads (s : Bytes) : Bytes :=
  (withoutSpace s).takeWhile (· != byte '=')

def padding (s : Bytes) : Bytes :=
  (withoutSpace s).dropWhile (· != byte '=')

def forgiving (s : Bytes) : Bool :=
  (beforePads s).all inAlphabet && (padding s).all (· == byte '=') &&
    if (padding s).isEmpty then (beforePads s).length % 4 != 1
    else decide ((padding s).length ≤ 2) && (withoutSpace s).length % 4 == 0

def octets : List Nat → List Nat
  | a :: b :: c :: d :: rest =>
      (a * 4 + b / 16) :: (b % 16 * 16 + c / 4) :: (c % 4 * 64 + d) :: octets rest
  | [a, b, c] => [a * 4 + b / 16, b % 16 * 16 + c / 4]
  | [a, b] => [a * 4 + b / 16]
  | [_] => []
  | [] => []

def forgivingDecode (s : Bytes) : Option Bytes :=
  if forgiving s then some ((octets ((beforePads s).map alphabetValue)).map UInt8.ofNat) else none

theorem octets_small {digits : List Nat} (small : ∀ value ∈ digits, value < 2 ^ 6) :
    ∀ value ∈ octets digits, value < 2 ^ 8 := by
  fun_induction octets digits with
  | case1 a b c d rest ih =>
      simp only [List.forall_mem_cons] at small ⊢
      exact ⟨by omega, by omega, by omega, ih small.2.2.2.2⟩
  | case2 a b c =>
      simp only [List.forall_mem_cons] at small ⊢
      exact ⟨by omega, by omega, by simp⟩
  | case3 a b =>
      simp only [List.forall_mem_cons] at small ⊢
      exact ⟨by omega, by simp⟩
  | case4 a => simp
  | case5 => simp

theorem octets_group {a b c d : Nat} (second : b < 2 ^ 6) (third : c < 2 ^ 6) (fourth : d < 2 ^ 6) :
    stream 8 [a * 4 + b / 16, b % 16 * 16 + c / 4, c % 4 * 64 + d] = stream 6 [a, b, c, d] := by
  have group := bits_group (a := a * 4 + b / 16) (b := b % 16 * 16 + c / 4) (c := c % 4 * 64 + d)
    (by omega) (by omega)
  have one : (a * 4 + b / 16) / 4 = a := by omega
  have two : (a * 4 + b / 16) % 4 * 16 + (b % 16 * 16 + c / 4) / 16 = b := by omega
  have three : (b % 16 * 16 + c / 4) % 16 * 4 + (c % 4 * 64 + d) / 64 = c := by omega
  have four : (c % 4 * 64 + d) % 64 = d := by omega
  rw [one, two, three, four] at group
  exact group.symm

theorem octets_bits {digits : List Nat} (small : ∀ value ∈ digits, value < 2 ^ 6) :
    ∃ rest, rest.length < 8 ∧ stream 8 (octets digits) ++ rest = stream 6 digits := by
  fun_induction octets digits with
  | case1 a b c d others ih =>
      simp only [List.forall_mem_cons] at small
      obtain ⟨rest, short, same⟩ := ih small.2.2.2.2
      refine ⟨rest, short, ?_⟩
      have front := congrArg (· ++ stream 6 others)
        (octets_group (a := a) small.2.1 small.2.2.1 small.2.2.2.1)
      simp only [← stream_append, List.cons_append, List.nil_append] at front
      rw [← front]
      simp only [stream_cons, stream_nil, List.append_assoc, same, List.nil_append]
  | case2 a b c =>
      simp only [List.forall_mem_cons] at small
      have group := octets_group (a := a) (d := 0) small.2.1 small.2.2.1 (by decide)
      have last := bits_push 2 6 (c % 4) (show 0 < 2 ^ 6 by decide)
      simp only [Nat.reduceAdd, Nat.reducePow, Nat.add_zero] at last
      refine ⟨bits 2 (c % 4), by simp, ?_⟩
      apply (List.append_left_inj (bits 6 0)).mp
      simpa [last] using group
  | case3 a b =>
      simp only [List.forall_mem_cons] at small
      have group := octets_group (a := a) (c := 0) (d := 0) small.2.1 (by decide) (by decide)
      have last := bits_push 4 4 (b % 16) (show 0 < 2 ^ 4 by decide)
      simp only [Nat.reduceAdd, Nat.reducePow, Nat.add_zero] at last
      refine ⟨bits 4 (b % 16), by simp, ?_⟩
      apply (List.append_left_inj (bits 6 0 ++ bits 6 0)).mp
      simpa [last, bits_zero] using group
  | case4 a => exact ⟨bits 6 a, by simp, by simp⟩
  | case5 => exact ⟨[], by decide, rfl⟩

theorem atob_digits {digits : List Nat} (small : ∀ value ∈ digits, value < 2 ^ 6) (pads : Nat) :
    atob (digits.map encodeDigit ++ List.replicate pads (byte '=')) =
      (octets digits).map UInt8.ofNat := by
  have start : Coded 8 UInt8.ofNat ⟨0, -8, []⟩ [] [] := ⟨rfl, by simp, rfl⟩
  obtain ⟨bytes, rest, read, bytesSmall, restShort, streams⟩ :=
    atobLoop_digits digits small start ⟨by decide, by decide⟩
  obtain ⟨other, otherShort, same⟩ := octets_bits small
  rw [List.nil_append, ← same] at streams
  rw [atob, atobLoop_pads, read,
    stream_injective bytesSmall (octets_small small) restShort otherShort streams]

theorem inAlphabet_digit : ∀ c, inAlphabet c = true →
    alphabetValue c < 2 ^ 6 ∧ encodeDigit (alphabetValue c) = c :=
  forall_byte (by decide +kernel)

theorem isAsciiSpace_isSpace : ∀ c, isAsciiSpace c = true → isSpace c = true :=
  forall_byte (by decide +kernel)

theorem atob_forgiving {s : Bytes} (letters : (beforePads s).all inAlphabet = true)
    (pads : (padding s).all (· == byte '=') = true) :
    atob s = (octets ((beforePads s).map alphabetValue)).map UInt8.ofNat := by
  rw [List.all_eq_true] at letters pads
  have small : ∀ value ∈ (beforePads s).map alphabetValue, value < 2 ^ 6 := by
    intro value member
    obtain ⟨c, inside, rfl⟩ := List.mem_map.mp member
    exact (inAlphabet_digit c (letters c inside)).1
  have digits : ((beforePads s).map alphabetValue).map encodeDigit = beforePads s := by
    rw [List.map_map]
    conv_rhs => rw [← List.map_id (beforePads s)]
    exact List.map_congr_left fun c inside => (inAlphabet_digit c (letters c inside)).2
  have tail : padding s = List.replicate (padding s).length (byte '=') := by
    apply List.eq_replicate_of_mem
    intro c inside
    exact beq_iff_eq.mp (pads c inside)
  have parts : withoutSpace s = ((beforePads s).map alphabetValue).map encodeDigit ++
      List.replicate (padding s).length (byte '=') := by
    rw [digits, ← tail, beforePads, padding, List.takeWhile_append_dropWhile]
  rw [← atob_digits small, ← parts, atob, atob, withoutSpace,
    atobLoop_filter isAsciiSpace_isSpace]

def shifted (s : Bytes) : Bytes :=
  (s.takeWhile (· != byte '=')).filter fun c => !isSpace c

-- No statement of `atob` throws.
def atobOutcome (s : Bytes) : Except String Bytes :=
  .ok (atob s)

structure AcceptsForgiving (s : Bytes) : Prop where
  decoded : ∀ v, forgivingDecode s = some v → atobOutcome s = .ok v
  refused : forgivingDecode s = none → ∃ error, atobOutcome s = .error error
  letters : ∀ c ∈ shifted s, inAlphabet c = true

theorem beforePads_eq_filter (s : Bytes) :
    beforePads s = (s.takeWhile (· != byte '=')).filter fun c => !isAsciiSpace c := by
  have plain : (fun c => !(!isAsciiSpace c) || c != byte '=') = (· != byte '=') := by
    funext c
    by_cases pad : c = byte '='
    · subst pad
      rfl
    · simp [pad]
  rw [beforePads, withoutSpace, List.takeWhile_filter, plain]

theorem shifted_letters {s : Bytes} (letters : (beforePads s).all inAlphabet = true) :
    ∀ c ∈ shifted s, inAlphabet c = true := by
  intro c inside
  rw [beforePads_eq_filter, List.all_eq_true] at letters
  obtain ⟨taken, solid⟩ := List.mem_filter.mp inside
  apply letters c (List.mem_filter.mpr ⟨taken, ?_⟩)
  by_contra space
  simp [isAsciiSpace_isSpace c (by simpa using space)] at solid

/-- `atob` deals with a string as forgiving base64 asks exactly where the string is forgiving
base64: it never refuses one. -/
theorem atob_accepts_iff (s : Bytes) : AcceptsForgiving s ↔ forgiving s = true := by
  constructor
  · intro accepts
    by_contra malformed
    obtain ⟨error, refused⟩ := accepts.refused (by rw [forgivingDecode, if_neg malformed])
    cases refused
  · intro legal
    have parts := legal
    simp only [forgiving, Bool.and_eq_true] at parts
    refine ⟨?_, ?_, shifted_letters parts.1.1⟩
    · intro v decoded
      rw [forgivingDecode, if_pos legal, Option.some.injEq] at decoded
      rw [atobOutcome, atob_forgiving parts.1.1 parts.1.2, decoded]
    · intro refused
      rw [forgivingDecode, if_pos legal] at refused
      cases refused

theorem atob_never_refuses : ¬ ∀ s, AcceptsForgiving s := by
  intro accepts
  obtain ⟨error, refused⟩ := (accepts (text "invalid!")).refused (by decide +kernel)
  cases refused

end BreezeJs.Infra
