import BreezeJs.Library.SizedCode
import BreezeJs.Regexp.Input
import BreezeJs.Unicode.CharRange

set_option autoImplicit false

namespace BreezeJs.Regexp

-- The parser emits code as it reads. Here the pattern has been read, and `emit` does the emission.

open Unicode (CharRange uint32Max)

def captureCountMax : Nat := 255

def stackSizeMax : Nat := 255

def int32Max : Nat := 2147483647

-- The ranges of `range` and `range32` are listed with both ends included.
inductive Instr where
  | char8 (c : Nat)
  | char16 (c : Nat)
  | char32 (c : Nat)
  | dot
  | any
  | lineStart
  | lineEnd
  | goto (offset : Int)
  | splitGotoFirst (offset : Int)
  | splitNextFirst (offset : Int)
  | match_
  | saveStart (capture : Nat)
  | saveEnd (capture : Nat)
  | saveReset (first last : Nat)
  | loop (offset : Int)
  | pushI32 (value : Nat)
  | drop
  | wordBoundary
  | notWordBoundary
  | backReference (capture : Nat)
  | backwardBackReference (capture : Nat)
  | range (ranges : List (Nat × Nat))
  | range32 (ranges : List (Nat × Nat))
  | lookahead (offset : Int)
  | negativeLookahead (offset : Int)
  | pushCharPos
  | checkAdvance
  | prev
  | simpleGreedyQuant (nextPos : Int) (quantMin quantMax charCount : Nat)
deriving DecidableEq, Repr

def Instr.size : Instr → Nat
  | .char8 _ => 2
  | .char16 _ => 3
  | .char32 _ => 5
  | .dot | .any | .lineStart | .lineEnd | .match_ | .drop | .wordBoundary | .notWordBoundary => 1
  | .pushCharPos | .checkAdvance | .prev => 1
  | .goto _ | .splitGotoFirst _ | .splitNextFirst _ | .loop _ | .pushI32 _ => 5
  | .lookahead _ | .negativeLookahead _ => 5
  | .saveStart _ | .saveEnd _ | .backReference _ | .backwardBackReference _ => 2
  | .saveReset _ _ => 3
  | .range ranges => 3 + 4 * ranges.length
  | .range32 ranges => 3 + 8 * ranges.length
  | .simpleGreedyQuant _ _ _ _ => 17

theorem Instr.size_pos (i : Instr) : 0 < i.size := by
  cases i <;> simp [Instr.size]

abbrev Code : Type := List Instr

-- Sizes, positions and offsets are `int` in the source: what follows is about patterns whose code
-- stays below 2^31 bytes while it is compiled.
def codeSize (code : Code) : Nat :=
  SizedCode.length Instr.size code

@[simp] theorem codeSize_nil : codeSize [] = 0 := rfl

@[simp] theorem codeSize_cons (i : Instr) (code : Code) :
    codeSize (i :: code) = i.size + codeSize code := rfl

@[simp] theorem codeSize_append (a b : Code) : codeSize (a ++ b) = codeSize a + codeSize b :=
  SizedCode.length_append Instr.size a b

-- `lre_canonicalize` and `cr_regexp_canonicalize`, over the tables of the Unicode data.
structure CaseFolding where
  canonicalize : Bool → Nat → Nat
  canonicalizeRange : Bool → CharRange → CharRange
  bounded : ∀ isUnicode c, c ≤ maxCodePoint → canonicalize isUnicode c ≤ maxCodePoint

structure Flags where
  multiLine : Bool
  ignoreCase : Bool
  dotAll : Bool
  isUnicode : Bool
  isSticky : Bool
deriving DecidableEq, Repr

def canonical (folding : CaseFolding) (flags : Flags) (c : Nat) : Nat :=
  if flags.ignoreCase then folding.canonicalize flags.isUnicode c else c

-- What `get_class_atom` returns inside a class, with the checks of `re_parse_char_class`.
inductive ClassAtom where
  | char (c : Nat) (bounded : c ≤ maxCodePoint)
  | interval (c1 c2 : Nat) (ordered : c1 ≤ c2) (bounded : c2 ≤ maxCodePoint)
  | set (cr : CharRange)

structure CharClass where
  invert : Bool
  atoms : List ClassAtom

-- A quantifier that `re_parse_term` accepts; a maximum of `int32Max` stands for infinity.
structure Quantifier where
  quantMin : Nat
  quantMax : Nat
  greedy : Bool
  ordered : quantMin ≤ quantMax
  bounded : quantMax ≤ int32Max

inductive Node where
  | empty
  | lineStart
  | lineEnd
  | wordBoundary (negated : Bool)
  | char (c : Nat)
  | dot
  -- An escape for a set of characters, outside a class, with what the Unicode data gives for it.
  | charSet (cr : CharRange)
  | charClass (cls : CharClass)
  | backReference (capture : Nat)
  | capture (body : Node)
  | lookaround (isNeg isBackward : Bool) (body : Node)
  | seq (first rest : Node)
  | alt (left right : Node)
  | quant (q : Quantifier) (atom : Node)

inductive CompileError where
  | tooManyCaptures
  | tooManyRanges
  | tooManyImbricatedQuantifiers
deriving DecidableEq, Repr

def CompileError.message : CompileError → String
  | .tooManyCaptures => "too many captures"
  | .tooManyRanges => "too many ranges"
  | .tooManyImbricatedQuantifiers => "too many imbricated quantifiers"

theorem maxCodePoint_lt {c : Nat} (bounded : c ≤ maxCodePoint) : c < uint32Max := by
  simp only [maxCodePoint, uint32Max] at *
  omega

def ClassAtom.union (cr : CharRange) : ClassAtom → CharRange
  | .char c bounded => cr.crUnionInterval c c (Nat.le_refl c) (maxCodePoint_lt bounded)
  | .interval c1 c2 ordered bounded => cr.crUnionInterval c1 c2 ordered (maxCodePoint_lt bounded)
  | .set other => cr.crUnion1 other

def parseCharClass (folding : CaseFolding) (flags : Flags) (cls : CharClass) : CharRange :=
  let cr := cls.atoms.foldl ClassAtom.union CharRange.empty
  let cr := if flags.ignoreCase then folding.canonicalizeRange flags.isUnicode cr else cr
  if cls.invert then cr.crInvert else cr

-- With `put_u16` a value is cut to 16 bits; 0xffff stands for infinity.
def pairs16 (cr : CharRange) : List (Nat × Nat) :=
  (Boundaries.intervals cr.points).map fun interval =>
    let high := interval.2 - 1
    (interval.1 % 65536, (if high = uint32Max - 1 then 0xffff else high) % 65536)

def pairs32 (cr : CharRange) : List (Nat × Nat) :=
  (Boundaries.intervals cr.points).map fun interval => (interval.1, interval.2 - 1)

def emitRange (cr : CharRange) : Except CompileError Code :=
  let len := cr.points.length / 2
  if 65535 ≤ len then .error .tooManyRanges
  else
    match cr.points.reverse with
    | last :: start :: _ =>
        let high := if last = uint32Max then start else last
        if high ≤ 0xffff then .ok [.range (pairs16 cr)] else .ok [.range32 (pairs32 cr)]
    -- A match that is always false.
    | _ => .ok [.char32 uint32Max]

def emitChar (c : Nat) : Instr :=
  if c ≤ 0x7f then .char8 c else if c ≤ 0xffff then .char16 c else .char32 c

-- In backward direction a character is read between two steps back.
def around (isBackward : Bool) (code : Code) : Code :=
  if isBackward then .prev :: code ++ [.prev] else code

-- `re_emit_goto`; `target` counts from the start of `code`.
def emitGoto (op : Int → Instr) (target : Int) (code : Code) : Code :=
  code ++ [op (target - (codeSize code + 5))]

-- `REOP_split_goto_first + greedy`.
def splitOp (greedy : Bool) : Int → Instr :=
  if greedy then .splitNextFirst else .splitGotoFirst

inductive AdvanceEffect where
  | advances
  | neutral
  | unknown
deriving DecidableEq, Repr

def Instr.advanceEffect : Instr → AdvanceEffect
  | .range _ | .range32 _ | .char32 _ | .char16 _ | .char8 _ | .dot | .any => .advances
  | .lineStart | .lineEnd | .pushI32 _ | .pushCharPos | .drop | .wordBoundary | .notWordBoundary
  | .prev => .neutral
  | .saveStart _ | .saveEnd _ | .saveReset _ _ | .backReference _ | .backwardBackReference _ =>
      .neutral
  | _ => .unknown

-- `re_need_check_advance`; `ret` is its local variable.
def needCheckAdvance : Bool → Code → Bool
  | ret, [] => ret
  | ret, i :: code =>
      match i.advanceEffect with
      | .advances => needCheckAdvance false code
      | .neutral => needCheckAdvance ret code
      | .unknown => true

def Instr.simpleCount : Instr → Option Nat
  | .range _ | .range32 _ | .char32 _ | .char16 _ | .char8 _ | .dot | .any => some 1
  | .lineStart | .lineEnd | .wordBoundary | .notWordBoundary => some 0
  | _ => none

-- `re_is_simple_quantifier`; `none` is its -1.
def isSimpleQuantifier : Code → Option Nat
  | [] => some 0
  | i :: code =>
      match i.simpleCount, isSimpleQuantifier code with
      | some n, some m => some (n + m)
      | _, _ => none

def withCheck (check : Bool) (atom : Code) : Code :=
  if check then .pushCharPos :: atom ++ [.checkAdvance] else atom

-- The code of a quantified atom that is not simple; the captures from `lastCaptureCount` up to
-- `captureCount` are those of the atom.
def emitLoops (q : Quantifier) (atom : Code) (lastCaptureCount captureCount : Nat) : Code :=
  let check := needCheckAdvance true atom
  let len : Int := codeSize atom
  let checks : Int := if check then 2 else 0
  let body := withCheck check atom
  if q.quantMin = 0 then
    let reset : Code :=
      if lastCaptureCount ≠ captureCount then [.saveReset lastCaptureCount (captureCount - 1)]
      else []
    let code : Code :=
      if q.quantMax = 0 then []
      else if q.quantMax = 1 then splitOp q.greedy (len + checks) :: body
      else if q.quantMax = int32Max then
        emitGoto .goto 0 (splitOp q.greedy (len + 5 + checks) :: body)
      else
        emitGoto .loop 5
          (.pushI32 q.quantMax :: splitOp q.greedy (len + 5 + checks) :: body) ++ [.drop]
    reset ++ code
  else if q.quantMin = 1 ∧ q.quantMax = int32Max ∧ check = false then
    emitGoto (splitOp (!q.greedy)) 0 atom
  else
    let first : Code :=
      if q.quantMin = 1 then atom
      else emitGoto .loop 5 (.pushI32 q.quantMin :: atom) ++ [.drop]
    if q.quantMax = int32Max then
      emitGoto .goto (codeSize first) (first ++ splitOp q.greedy (len + 5 + checks) :: body)
    else if q.quantMin < q.quantMax then
      let counted := first ++ [.pushI32 (q.quantMax - q.quantMin)]
      emitGoto .loop (codeSize counted)
        (counted ++ splitOp q.greedy (len + 5 + checks) :: body) ++ [.drop]
    else first

def emitQuantifier (q : Quantifier) (atom : Code) (lastCaptureCount captureCount : Nat) : Code :=
  match isSimpleQuantifier atom with
  | some count =>
      if q.greedy ∧ 0 < q.quantMax ∧ 0 < count then
        let body := atom ++ [.match_]
        .simpleGreedyQuant (codeSize body) q.quantMin q.quantMax count :: body
      else emitLoops q atom lastCaptureCount captureCount
  | none => emitLoops q atom lastCaptureCount captureCount

section Emission

variable (folding : CaseFolding) (flags : Flags)

def emit (isBackward : Bool) : Node → Nat → Except CompileError (Code × Nat)
  | .empty, captures => .ok ([], captures)
  | .lineStart, captures => .ok ([.lineStart], captures)
  | .lineEnd, captures => .ok ([.lineEnd], captures)
  | .wordBoundary negated, captures =>
      .ok ([if negated then .notWordBoundary else .wordBoundary], captures)
  | .char c, captures => .ok (around isBackward [emitChar (canonical folding flags c)], captures)
  | .dot, captures =>
      .ok (around isBackward [if flags.dotAll then .any else .dot], captures)
  | .charSet cr, captures => do
      let code ← emitRange cr
      .ok (around isBackward code, captures)
  | .charClass cls, captures => do
      let code ← emitRange (parseCharClass folding flags cls)
      .ok (around isBackward code, captures)
  | .backReference capture, captures =>
      .ok ([if isBackward then .backwardBackReference capture else .backReference capture],
        captures)
  | .capture body, captures =>
      if captureCountMax ≤ captures then .error .tooManyCaptures
      else do
        let (code, count) ← emit isBackward body (captures + 1)
        let first := if isBackward then Instr.saveEnd captures else .saveStart captures
        let last := if isBackward then Instr.saveStart captures else .saveEnd captures
        .ok (first :: code ++ [last], count)
  | .lookaround isNeg isBackwardLookahead body, captures => do
      let (code, count) ← emit isBackwardLookahead body captures
      let op := if isNeg then Instr.negativeLookahead else .lookahead
      .ok (op (codeSize code + 1) :: code ++ [.match_], count)
  | .seq first rest, captures => do
      let (code, count) ← emit isBackward first captures
      let (code', count') ← emit isBackward rest count
      .ok (if isBackward then code' ++ code else code ++ code', count')
  | .alt left right, captures => do
      let (code, count) ← emit isBackward left captures
      let (code', count') ← emit isBackward right count
      .ok (.splitNextFirst (codeSize code + 5) :: code ++ .goto (codeSize code') :: code', count')
  | .quant q atom, captures => do
      let (code, count) ← emit isBackward atom captures
      .ok (emitQuantifier q code captures count, count)

-- `lre_compute_stack_size`: the current and the greatest stack size, in one pass.
def computeStackSize : Nat → Nat → Code → Option Nat
  | _, greatest, [] => some greatest
  | size, greatest, i :: code =>
      match i with
      | .pushI32 _ | .pushCharPos =>
          if greatest < size + 1 then
            if stackSizeMax < size + 1 then none else computeStackSize (size + 1) (size + 1) code
          else computeStackSize (size + 1) greatest code
      | .drop | .checkAdvance => computeStackSize (size - 1) greatest code
      | _ => computeStackSize size greatest code

structure Program where
  flags : Flags
  captureCount : Nat
  stackSize : Nat
  code : Code

-- Try every position, about the same as `.*?`.
def searchLoop : Code :=
  [.splitGotoFirst 6, .any, .goto (-11)]

def lreCompile (pattern : Node) : Except CompileError Program := do
  let (body, count) ← emit folding flags false pattern 1
  let search := if flags.isSticky then [] else searchLoop
  let code := search ++ .saveStart 0 :: body ++ [.saveEnd 0, .match_]
  match computeStackSize 0 0 code with
  | none => .error .tooManyImbricatedQuantifiers
  | some size => .ok { flags := flags, captureCount := count, stackSize := size, code := code }

end Emission

def ClassAtom.contains (c : Nat) : ClassAtom → Bool
  | .char d _ => decide (c = d)
  | .interval c1 c2 _ _ => decide (c1 ≤ c) && decide (c ≤ c2)
  | .set cr => cr.contains c

theorem contains_union (cr : CharRange) (atom : ClassAtom) (c : Nat) :
    (ClassAtom.union cr atom).contains c = (cr.contains c || atom.contains c) := by
  cases atom with
  | char d bounded =>
      simp only [ClassAtom.union, CharRange.crUnionInterval, CharRange.crUnion1,
        CharRange.contains_crOp, CharRange.contains_interval, Unicode.CharRangeOp.isIn,
        ClassAtom.contains]
      congr 1
      rw [← Bool.decide_and, decide_eq_decide]
      omega
  | interval c1 c2 ordered bounded =>
      simp only [ClassAtom.union, CharRange.crUnionInterval, CharRange.crUnion1,
        CharRange.contains_crOp, CharRange.contains_interval, Unicode.CharRangeOp.isIn,
        ClassAtom.contains]
  | set other =>
      simp only [ClassAtom.union, CharRange.crUnion1, CharRange.contains_crOp,
        Unicode.CharRangeOp.isIn, ClassAtom.contains]

theorem contains_foldl (atoms : List ClassAtom) (cr : CharRange) (c : Nat) :
    (atoms.foldl ClassAtom.union cr).contains c =
      (cr.contains c || atoms.any (ClassAtom.contains c)) := by
  induction atoms generalizing cr with
  | nil => simp
  | cons atom rest ih => simp [ih, contains_union, Bool.or_assoc]

/-- Where case is not ignored, the range built for a class contains the characters that one of its
atoms contains, or with `^` all the others. -/
theorem parseCharClass_contains (folding : CaseFolding) (flags : Flags) (cls : CharClass)
    (exact : flags.ignoreCase = false) {c : Nat} (bounded : c ≤ maxCodePoint) :
    (parseCharClass folding flags cls).contains c =
      (cls.invert != cls.atoms.any (ClassAtom.contains c)) := by
  have union := contains_foldl cls.atoms CharRange.empty c
  have outside : CharRange.empty.contains c = false := rfl
  simp only [outside, Bool.false_or] at union
  simp only [parseCharClass, exact, Bool.false_eq_true, if_false]
  cases cls.invert with
  | false => simp [union]
  | true => simp [CharRange.contains_crInvert _ (maxCodePoint_lt bounded), union]

theorem parseCharClass_contains_letters :
    (parseCharClass ⟨fun _ c => c, fun _ cr => cr, fun _ _ bounded => bounded⟩
        ⟨false, false, false, false, false⟩
        ⟨true, [.interval 97 102 (by decide) (by decide), .char 53 (by decide)]⟩).contains 99 =
      false :=
  (parseCharClass_contains _ _ _ rfl (by decide)).trans rfl

end BreezeJs.Regexp
