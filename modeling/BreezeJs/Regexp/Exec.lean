import Mathlib.Logic.Relation
import BreezeJs.Regexp.Compile

set_option autoImplicit false

namespace BreezeJs.Regexp

-- A fault is an access outside of the code, the subject, the captures or the stack, or the `abort()`
-- of an opcode that does not exist.

-- `StackInt` is `uintptr_t`.
def stackRange : Nat := 18446744073709551616

abbrev Captures : Type := List (Option Nat)

structure Subject where
  folding : CaseFolding
  flags : Flags
  input : Input

-- What `REExecContext` holds while it runs.
structure Context extends Subject where
  code : Code
  captureCount : Nat
  stackSize : Nat

-- The local variables of `lre_exec_backtrack`; the top of the stack stands first.
structure Thread where
  pc : Int
  cptr : Nat
  capture : Captures
  stack : List Nat
deriving DecidableEq, Repr

inductive Effect where
  | step (t : Thread)
  | noMatch
  | matched
  -- Go on with the first and come back to the second.
  | split (first second : Thread)
  | lookahead (isNeg : Bool) (body exit : Thread)
  | greedyQuant (body exit : Int) (quantMin quantMax charCount : Nat)
  | fault
deriving DecidableEq, Repr

def Subject.canonical (subject : Subject) (c : Nat) : Nat :=
  Regexp.canonical subject.folding subject.flags c

section Instructions

variable (ctx : Context)

def testChar (t : Thread) (val : Nat) : Effect :=
  if ctx.input.cbufEnd ≤ t.cptr then .noMatch
  else
    match ctx.input.getChar t.cptr ctx.input.cbufEnd with
    | none => .fault
    | some (c, cptr) =>
        if val ≠ ctx.canonical c then .noMatch else .step { t with cptr := cptr }

def testAny (t : Thread) (accepts : Nat → Bool) : Effect :=
  if t.cptr = ctx.input.cbufEnd then .noMatch
  else
    match ctx.input.getChar t.cptr ctx.input.cbufEnd with
    | none => .fault
    | some (c, cptr) => if accepts c then .step { t with cptr := cptr } else .noMatch

def testLineStart (t : Thread) : Effect :=
  if t.cptr = 0 then .step t
  else if ctx.flags.multiLine = false then .noMatch
  else
    match ctx.input.peekPrevChar t.cptr with
    | none => .fault
    | some c => if isLineTerminator c then .step t else .noMatch

def testLineEnd (t : Thread) : Effect :=
  if t.cptr = ctx.input.cbufEnd then .step t
  else if ctx.flags.multiLine = false then .noMatch
  else
    match ctx.input.peekChar t.cptr with
    | none => .fault
    | some c => if isLineTerminator c then .step t else .noMatch

def wordBefore (input : Input) (cptr : Nat) : Option Bool :=
  if cptr = 0 then some false else (input.peekPrevChar cptr).map isWordChar

def wordAt (input : Input) (cptr : Nat) : Option Bool :=
  if input.cbufEnd ≤ cptr then some false else (input.peekChar cptr).map isWordChar

def testWordBoundary (t : Thread) (negated : Bool) : Effect :=
  match wordBefore ctx.input t.cptr, wordAt ctx.input t.cptr with
  | some v1, some v2 => if xor (xor v1 v2) (!negated) then .noMatch else .step t
  | _, _ => .fault

-- The binary search of `range` and `range32`; the indices are 32 bits wide.
inductive Search where
  | found
  | absent
  | outside
deriving DecidableEq, Repr

def searchRange (ranges : List (Nat × Nat)) (c : Nat) : Nat → Nat → Nat → Search
  | 0, _, _ => .outside
  | fuel + 1, idxMin, idxMax =>
      if idxMin ≤ idxMax then
        let idx := (idxMin + idxMax) / 2
        match ranges[idx]? with
        | none => .outside
        | some (low, high) =>
            if c < low then
              searchRange ranges c fuel idxMin ((idx + Unicode.uint32Max) % (Unicode.uint32Max + 1))
            else if high < c then searchRange ranges c fuel (idx + 1) idxMax
            else .found
      else .absent

-- `infinite` is the test for a last range of 16 bits that has no end.
def findRange (ranges : List (Nat × Nat)) (c : Nat) (infinite : Nat → Bool) : Search :=
  match ranges.head?, ranges.getLast? with
  | some (low, _), some (_, high) =>
      if c < low then .absent
      else if infinite high then .found
      else if high < c then .absent
      else searchRange ranges c (ranges.length + 1) 0 (ranges.length - 1)
  | _, _ => .outside

def testRange (t : Thread) (ranges : List (Nat × Nat)) (wide : Bool) : Effect :=
  if ctx.input.cbufEnd ≤ t.cptr then .noMatch
  else
    match ctx.input.getChar t.cptr ctx.input.cbufEnd with
    | none => .fault
    | some (c, cptr) =>
        let c := ctx.canonical c
        let infinite := fun high => !wide && decide (0xffff ≤ c) && high == 0xffff
        match findRange ranges c infinite with
        | .found => .step { t with cptr := cptr }
        | .absent => .noMatch
        | .outside => .fault

inductive Compared where
  | equal (cptr : Nat)
  | differs
  | outside
deriving DecidableEq, Repr

-- The fuel is the number of units captured.
def compareForward (subject : Subject) : Nat → Nat → Nat → Nat → Compared
  | 0, _, _, cptr => .equal cptr
  | fuel + 1, cptr1, cptr1End, cptr =>
      if cptr1 < cptr1End then
        if subject.input.cbufEnd ≤ cptr then .differs
        else
          match subject.input.getChar cptr1 cptr1End, subject.input.getChar cptr subject.input.cbufEnd with
          | some (c1, next1), some (c2, next) =>
              if subject.canonical c1 ≠ subject.canonical c2 then .differs
              else compareForward subject fuel next1 cptr1End next
          | _, _ => .outside
      else .equal cptr

def compareBackward (subject : Subject) : Nat → Nat → Nat → Nat → Compared
  | 0, _, _, cptr => .equal cptr
  | fuel + 1, cptr1, cptr1Start, cptr =>
      if cptr1Start < cptr1 then
        if cptr = 0 then .differs
        else
          match subject.input.getPrevChar cptr1 cptr1Start, subject.input.getPrevChar cptr 0 with
          | some (c1, prev1), some (c2, prev) =>
              if subject.canonical c1 ≠ subject.canonical c2 then .differs
              else compareBackward subject fuel prev1 cptr1Start prev
          | _, _ => .outside
      else .equal cptr

def compareCapture (subject : Subject) (isBackward : Bool) (start stop cptr : Nat) : Compared :=
  if isBackward then compareBackward subject (stop - start) stop start cptr
  else compareForward subject (stop - start) start stop cptr

def testBackReference (t : Thread) (isBackward : Bool) (val : Nat) : Effect :=
  if ctx.captureCount ≤ val then .noMatch
  else
    match t.capture[2 * val]?, t.capture[2 * val + 1]? with
    | some (some start), some (some stop) =>
        match compareCapture ctx.toSubject isBackward start stop t.cptr with
        | .equal cptr => .step { t with cptr := cptr }
        | .differs => .noMatch
        | .outside => .fault
    | some _, some _ => .step t
    | _, _ => .fault

def save (t : Thread) (val offset : Nat) : Effect :=
  if val < ctx.captureCount then
    .step { t with capture := t.capture.set (2 * val + offset) (some t.cptr) }
  else .fault

def resetCaptures (capture : Captures) (first last : Nat) : Captures :=
  (List.range' first (last + 1 - first)).foldl
    (fun capture val => (capture.set (2 * val) none).set (2 * val + 1) none) capture

def push (t : Thread) (value : Nat) : Effect :=
  if t.stack.length < ctx.stackSize then .step { t with stack := value :: t.stack } else .fault

-- One opcode; `t.pc` already stands after it.
def execute (t : Thread) : Instr → Effect
  | .char8 c | .char16 c | .char32 c => testChar ctx t c
  | .dot => testAny ctx t fun c => !isLineTerminator c
  | .any => testAny ctx t fun _ => true
  | .lineStart => testLineStart ctx t
  | .lineEnd => testLineEnd ctx t
  | .goto offset => .step { t with pc := t.pc + offset }
  | .splitGotoFirst offset => .split { t with pc := t.pc + offset } t
  | .splitNextFirst offset => .split t { t with pc := t.pc + offset }
  | .match_ => .matched
  | .saveStart val => save ctx t val 0
  | .saveEnd val => save ctx t val 1
  | .saveReset first last =>
      if last < ctx.captureCount then
        .step { t with capture := resetCaptures t.capture first last }
      else .fault
  | .loop offset =>
      match t.stack with
      | [] => .fault
      | top :: rest =>
          let top := (top + (stackRange - 1)) % stackRange
          .step { t with
            stack := top :: rest
            pc := if top ≠ 0 then t.pc + offset else t.pc }
  | .pushI32 value => push ctx t value
  | .drop =>
      match t.stack with
      | [] => .fault
      | _ :: rest => .step { t with stack := rest }
  | .wordBoundary => testWordBoundary ctx t false
  | .notWordBoundary => testWordBoundary ctx t true
  | .backReference val => testBackReference ctx t false val
  | .backwardBackReference val => testBackReference ctx t true val
  | .range ranges => testRange ctx t ranges false
  | .range32 ranges => testRange ctx t ranges true
  | .lookahead offset => .lookahead false t { t with pc := t.pc + offset }
  | .negativeLookahead offset => .lookahead true t { t with pc := t.pc + offset }
  | .pushCharPos => push ctx t t.cptr
  | .checkAdvance =>
      match t.stack with
      | [] => .fault
      | top :: rest => if top = t.cptr then .noMatch else .step { t with stack := rest }
  | .prev =>
      if t.cptr = 0 then .noMatch
      else
        match ctx.input.prevChar t.cptr with
        | none => .fault
        | some cptr => .step { t with cptr := cptr }
  | .simpleGreedyQuant nextPos quantMin quantMax charCount =>
      .greedyQuant t.pc (t.pc + nextPos) quantMin quantMax charCount

def effect (t : Thread) : Effect :=
  match SizedCode.fetch Instr.size ctx.code t.pc with
  | none => .fault
  | some i => execute ctx { t with pc := t.pc + i.size } i

end Instructions

inductive StateType where
  | split
  | lookahead
  | negativeLookahead
  | greedyQuant (exit : Int) (charCount count : Nat)
deriving DecidableEq, Repr

structure ExecState where
  type : StateType
  thread : Thread
deriving DecidableEq, Repr

structure Quant where
  body : Int
  exit : Int
  quantMin : Nat
  quantMax : Nat
  charCount : Nat
  q : Nat
  cptr : Nat
deriving DecidableEq, Repr

inductive Config where
  | run (t : Thread) (states : List ExecState)
  -- Inside the call with `no_recurse`.
  | quant (quant : Quant) (t : Thread) (states : List ExecState)
  -- At the label `recurse`.
  | recurse (ret : Bool) (capture : Captures) (states : List ExecState)
  | done (ret : Bool) (capture : Captures)
  | fault
deriving DecidableEq, Repr

def finishQuant (quant : Quant) (t : Thread) (states : List ExecState) : Config :=
  let t := { t with pc := quant.exit, cptr := quant.cptr }
  if quant.q < quant.quantMin then .recurse false t.capture states
  else if quant.quantMin < quant.q then
    let type := .greedyQuant quant.exit quant.charCount (quant.q - quant.quantMin)
    .run t (⟨type, t⟩ :: states)
  else .run t states

-- `PREV_CHAR`, `charCount` times.
def goBackward (input : Input) : Nat → Nat → Option Nat
  | 0, cptr => some cptr
  | n + 1, cptr => (input.prevChar cptr).bind (goBackward input n)

def resume (ctx : Context) (ret : Bool) (capture : Captures) (state : ExecState)
    (states : List ExecState) : Config :=
  match state.type with
  | .split => if ret then .recurse ret capture states else .run state.thread states
  | .greedyQuant exit charCount count =>
      if ret then .recurse ret capture states
      else
        match goBackward ctx.input charCount state.thread.cptr with
        | none => .fault
        | some cptr =>
            let t := { state.thread with pc := exit, cptr := cptr }
            if count = 1 then .run t states
            else .run t (⟨.greedyQuant exit charCount (count - 1),
              { state.thread with cptr := cptr }⟩ :: states)
  | .lookahead =>
      if ret then .run { state.thread with capture := capture } states
      else .recurse false capture states
  | .negativeLookahead =>
      if ret then .recurse false capture states else .run state.thread states

def machineStep (ctx : Context) : Config → Option Config
  | .run t states =>
      match effect ctx t with
      | .step u => some (.run u states)
      | .noMatch => some (.recurse false t.capture states)
      | .matched => some (.recurse true t.capture states)
      | .split first second => some (.run first (⟨.split, second⟩ :: states))
      | .lookahead isNeg body exit =>
          some (.run body (⟨if isNeg then .negativeLookahead else .lookahead, exit⟩ :: states))
      | .greedyQuant body exit quantMin quantMax charCount =>
          some (.quant ⟨body, exit, quantMin, quantMax, charCount, 0, t.cptr⟩ { t with pc := body }
            states)
      | .fault => some .fault
  | .quant quant t states =>
      match effect ctx t with
      | .step u => some (.quant quant u states)
      | .noMatch => some (finishQuant quant t states)
      | .matched =>
          let quant := { quant with q := quant.q + 1, cptr := t.cptr }
          if quant.quantMax ≤ quant.q ∧ quant.quantMax ≠ int32Max then
            some (finishQuant quant t states)
          else some (.quant quant { t with pc := quant.body } states)
      -- No simple quantifier has such an opcode in its atom.
      | .split _ _ | .lookahead _ _ _ | .greedyQuant _ _ _ _ _ | .fault => some .fault
  | .recurse ret capture [] => some (.done ret capture)
  | .recurse ret capture (state :: states) => some (resume ctx ret capture state states)
  | .done _ _ => none
  | .fault => none

def Steps (ctx : Context) : Config → Config → Prop :=
  Relation.ReflTransGen fun c d => machineStep ctx c = some d

def runFor (ctx : Context) : Nat → Config → Config
  | 0, c => c
  | fuel + 1, c =>
      match machineStep ctx c with
      | none => c
      | some d => runFor ctx fuel d

-- The start of `lre_exec`; a subject of 16-bit units is UTF-16 for a Unicode pattern.
def execContext (folding : CaseFolding) (program : Program) (units : List UInt16) (isWide : Bool) :
    Context :=
  { folding := folding
    flags := program.flags
    input := { units := units, utf16 := isWide && program.flags.isUnicode }
    code := program.code
    captureCount := program.captureCount
    stackSize := program.stackSize }

def startThread (program : Program) (cindex : Nat) : Thread :=
  { pc := 0
    cptr := cindex
    capture := List.replicate (2 * program.captureCount) none
    stack := [] }

def lreExec (folding : CaseFolding) (program : Program) (units : List UInt16) (isWide : Bool)
    (cindex fuel : Nat) : Config :=
  runFor (execContext folding program units isWide) fuel (.run (startThread program cindex) [])

theorem Steps.next {ctx : Context} {c d e : Config} (taken : machineStep ctx c = some d)
    (later : Steps ctx d e) : Steps ctx c e :=
  Relation.ReflTransGen.head taken later

theorem Steps.one {ctx : Context} {c d : Config} (taken : machineStep ctx c = some d) :
    Steps ctx c d :=
  Relation.ReflTransGen.single taken

theorem Steps.run {ctx : Context} {c d : Config} (steps : Steps ctx c d) :
    ∃ fuel, runFor ctx fuel c = d := by
  induction steps using Relation.ReflTransGen.head_induction_on with
  | refl => exact ⟨0, rfl⟩
  | head first _ ih =>
      obtain ⟨fuel, reached⟩ := ih
      exact ⟨fuel + 1, by simp [runFor, first, reached]⟩

end BreezeJs.Regexp
