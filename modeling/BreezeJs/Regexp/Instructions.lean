import BreezeJs.Regexp.Implements

set_option autoImplicit false

namespace BreezeJs.Regexp

open SizedCode

section Runs

variable {ctx : Context} {x : Place} {pc : Int} {stack : List Nat}

def Runs (pc : Int) (stack : List Nat) (effect : Effect) (places : List Place) : Prop :=
  (effect = .noMatch ∧ places = []) ∨ ∃ y, effect = .step (y.thread pc stack) ∧ places = [y]

theorem runs_if (holds : Bool) :
    Runs pc stack (if holds then .step (x.thread pc stack) else .noMatch) (assertion holds x) := by
  cases holds with
  | false => exact .inl ⟨rfl, rfl⟩
  | true => exact .inr ⟨x, rfl, rfl⟩

theorem getChar_none {input : Input} {cptr : Nat} (past : input.cbufEnd ≤ cptr) (stop : Nat) :
    input.getChar cptr stop = none := by
  cases read : input.getChar cptr stop with
  | none => rfl
  | some pair =>
      obtain ⟨c, next⟩ := pair
      have bounds := Input.getChar_bounds read
      omega

theorem runs_any (accepts : Nat → Bool) (valid : Valid ctx x) :
    Runs pc stack (testAny ctx (x.thread pc stack) accepts)
      (readChar ctx.toSubject false accepts x) := by
  simp only [testAny, readChar, Bool.false_eq_true, if_false]
  by_cases finished : x.cptr = ctx.input.cbufEnd
  · rw [if_pos finished, getChar_none (Nat.le_of_eq finished.symm)]
    exact .inl ⟨rfl, rfl⟩
  · have inside := valid.inside
    obtain ⟨c, next, read⟩ := Input.getChar_of_lt (show x.cptr < ctx.input.cbufEnd by omega)
      ctx.input.cbufEnd
    rw [if_neg finished, read]
    cases accepted : accepts c with
    | false => exact .inl ⟨by simp [accepted], by simp [accepted]⟩
    | true =>
        exact .inr ⟨{ x with cptr := next }, by simp [accepted, Place.thread], by simp [accepted]⟩

theorem testChar_eq (valid : Valid ctx x) (val : Nat) :
    testChar ctx (x.thread pc stack) val =
      testAny ctx (x.thread pc stack) fun c => ctx.canonical c == val := by
  simp only [testChar, testAny]
  have inside := valid.inside
  by_cases finished : x.cptr = ctx.input.cbufEnd
  · rw [if_pos finished, if_pos (Nat.le_of_eq finished.symm)]
  · rw [if_neg finished, if_neg (by omega)]
    split
    · rfl
    · next c next _ =>
        by_cases same : val = ctx.canonical c
        · simp [same]
        · simp [same, Ne.symm same]

theorem canonical_bound (subject : Subject) {c : Nat} (bounded : c ≤ maxCodePoint) :
    subject.canonical c ≤ maxCodePoint := by
  simp only [Subject.canonical, canonical]
  split
  · exact subject.folding.bounded _ c bounded
  · exact bounded

theorem testRange_eq (valid : Valid ctx x) {ranges : List (Nat × Nat)} {wide : Bool}
    {contains : Nat → Bool}
    (finds : ∀ c ≤ maxCodePoint, findRange ranges c
      (fun high => !wide && decide (0xffff ≤ c) && high == 0xffff) = Search.of (contains c)) :
    testRange ctx (x.thread pc stack) ranges wide =
      testAny ctx (x.thread pc stack) fun c => contains (ctx.canonical c) := by
  simp only [testRange, testAny]
  have inside := valid.inside
  by_cases finished : x.cptr = ctx.input.cbufEnd
  · rw [if_pos finished, if_pos (Nat.le_of_eq finished.symm)]
  · rw [if_neg finished, if_neg (by omega)]
    split
    · rfl
    · next c next read =>
        rw [finds _ (canonical_bound ctx.toSubject (Input.getChar_bounds read).2.2)]
        cases inRange : contains (ctx.canonical c) <;> simp [Search.of]

theorem peekPrevChar_some (valid : Valid ctx x) (later : x.cptr ≠ 0) :
    ∃ c, ctx.input.peekPrevChar x.cptr = some c := by
  obtain ⟨c, prev, read⟩ := Input.getPrevChar_of_pos (Nat.pos_of_ne_zero later) valid.inside 0
  exact ⟨c, by simp [Input.peekPrevChar, read]⟩

theorem peekChar_some (valid : Valid ctx x) (before : x.cptr ≠ ctx.input.cbufEnd) :
    ∃ c, ctx.input.peekChar x.cptr = some c := by
  have inside := valid.inside
  obtain ⟨c, next, read⟩ := Input.getChar_of_lt (show x.cptr < ctx.input.cbufEnd by omega)
    ctx.input.cbufEnd
  exact ⟨c, by simp [Input.peekChar, read]⟩

theorem runs_lineStart (valid : Valid ctx x) :
    Runs pc stack (testLineStart ctx (x.thread pc stack))
      (assertion (atLineStart ctx.toSubject x.cptr) x) := by
  have same : testLineStart ctx (x.thread pc stack) =
      if atLineStart ctx.toSubject x.cptr then .step (x.thread pc stack) else .noMatch := by
    simp only [testLineStart, atLineStart]
    by_cases first : x.cptr = 0
    · simp [first]
    · obtain ⟨c, read⟩ := peekPrevChar_some valid first
      by_cases multi : ctx.flags.multiLine = true <;> simp [first, read, multi]
  rw [same]
  exact runs_if _

theorem runs_lineEnd (valid : Valid ctx x) :
    Runs pc stack (testLineEnd ctx (x.thread pc stack))
      (assertion (atLineEnd ctx.toSubject x.cptr) x) := by
  have same : testLineEnd ctx (x.thread pc stack) =
      if atLineEnd ctx.toSubject x.cptr then .step (x.thread pc stack) else .noMatch := by
    simp only [testLineEnd, atLineEnd]
    by_cases last : x.cptr = ctx.input.cbufEnd
    · simp [last]
    · obtain ⟨c, read⟩ := peekChar_some valid last
      by_cases multi : ctx.flags.multiLine = true <;> simp [last, read, multi]
  rw [same]
  exact runs_if _

theorem wordBefore_some (valid : Valid ctx x) : ∃ v, wordBefore ctx.input x.cptr = some v := by
  simp only [wordBefore]
  split_ifs with first
  · exact ⟨false, rfl⟩
  · obtain ⟨c, read⟩ := peekPrevChar_some valid first
    exact ⟨isWordChar c, by simp [read]⟩

theorem wordAt_some (valid : Valid ctx x) : ∃ v, wordAt ctx.input x.cptr = some v := by
  simp only [wordAt]
  split_ifs with past
  · exact ⟨false, rfl⟩
  · obtain ⟨c, read⟩ := peekChar_some valid (by omega)
    exact ⟨isWordChar c, by simp [read]⟩

theorem runs_wordBoundary (valid : Valid ctx x) (negated : Bool) :
    Runs pc stack (testWordBoundary ctx (x.thread pc stack) negated)
      (assertion (xor (atWordBoundary ctx.toSubject x.cptr) negated) x) := by
  obtain ⟨v1, before⟩ := wordBefore_some valid
  obtain ⟨v2, ahead⟩ := wordAt_some valid
  have same : testWordBoundary ctx (x.thread pc stack) negated =
      if xor (atWordBoundary ctx.toSubject x.cptr) negated then .step (x.thread pc stack)
      else .noMatch := by
    simp only [testWordBoundary, atWordBoundary, before, ahead, Option.getD_some]
    cases v1 <;> cases v2 <;> cases negated <;> rfl
  rw [same]
  exact runs_if _

theorem compareForward_inside (subject : Subject) {fuel cptr1 stop cptr : Nat}
    (inside : stop ≤ subject.input.cbufEnd) :
    compareForward subject fuel cptr1 stop cptr ≠ .outside := by
  induction fuel generalizing cptr1 cptr with
  | zero => simp [compareForward]
  | succ fuel ih =>
      simp only [compareForward]
      split_ifs with more past
      · simp
      · obtain ⟨c1, next1, read1⟩ := Input.getChar_of_lt
          (show cptr1 < subject.input.cbufEnd by omega) stop
        obtain ⟨c2, next2, read2⟩ := Input.getChar_of_lt
          (show cptr < subject.input.cbufEnd by omega) subject.input.cbufEnd
        simp only [read1, read2]
        split_ifs
        · simp
        · exact ih
      · simp

theorem compareBackward_inside (subject : Subject) {fuel cptr1 start cptr : Nat}
    (inside1 : cptr1 ≤ subject.input.cbufEnd) (inside : cptr ≤ subject.input.cbufEnd) :
    compareBackward subject fuel cptr1 start cptr ≠ .outside := by
  induction fuel generalizing cptr1 cptr with
  | zero => simp [compareBackward]
  | succ fuel ih =>
      simp only [compareBackward]
      split_ifs with more first
      · simp
      · obtain ⟨c1, prev1, read1⟩ := Input.getPrevChar_of_pos
          (show 0 < cptr1 by omega) inside1 start
        obtain ⟨c2, prev2, read2⟩ := Input.getPrevChar_of_pos
          (show 0 < cptr by omega) inside 0
        have bound1 := Input.getPrevChar_bounds read1
        have bound2 := Input.getPrevChar_bounds read2
        simp only [read1, read2]
        split_ifs
        · simp
        · exact ih (by omega) (by omega)
      · simp

theorem compareCapture_inside (valid : Valid ctx x) (isBackward : Bool) (start : Nat) {stop : Nat}
    (member : some stop ∈ x.capture) :
    compareCapture ctx.toSubject isBackward start stop x.cptr ≠ .outside := by
  have captured := valid.captured stop member
  cases isBackward with
  | false => exact compareForward_inside ctx.toSubject captured
  | true => exact compareBackward_inside ctx.toSubject captured valid.inside

theorem runs_backReference (valid : Valid ctx x) (isBackward : Bool) (val : Nat) :
    Runs pc stack (testBackReference ctx (x.thread pc stack) isBackward val)
      (readCapture ctx.toSubject isBackward val x) := by
  have size := valid.size
  simp only [testBackReference, readCapture]
  by_cases past : ctx.captureCount ≤ val
  · rw [if_pos past, List.getElem?_eq_none (show x.capture.length ≤ 2 * val by omega)]
    exact .inl ⟨rfl, rfl⟩
  · obtain ⟨first, start⟩ : ∃ o, x.capture[2 * val]? = some o :=
      ⟨_, List.getElem?_eq_getElem (show 2 * val < x.capture.length by omega)⟩
    obtain ⟨last, stop⟩ : ∃ o, x.capture[2 * val + 1]? = some o :=
      ⟨_, List.getElem?_eq_getElem (show 2 * val + 1 < x.capture.length by omega)⟩
    rw [if_neg past, start, stop]
    cases first with
    | none => exact .inr ⟨x, rfl, rfl⟩
    | some first =>
        cases last with
        | none => exact .inr ⟨x, rfl, rfl⟩
        | some last =>
            have inside := compareCapture_inside valid isBackward first
              (List.mem_of_getElem? stop)
            simp only
            cases compared : compareCapture ctx.toSubject isBackward first last x.cptr with
            | equal cptr => exact .inr ⟨{ x with cptr := cptr }, rfl, rfl⟩
            | differs => exact .inl ⟨rfl, rfl⟩
            | outside => exact absurd compared inside

theorem runs_save {val offset : Nat} (inside : val < ctx.captureCount) :
    Runs pc stack (save ctx (x.thread pc stack) val offset) [x.mark (2 * val + offset)] := by
  right
  exact ⟨_, by simp only [save, if_pos inside]; rfl, rfl⟩

def stepBack (input : Input) (x : Place) : List Place :=
  match input.prevChar x.cptr with
  | none => []
  | some cptr => [{ x with cptr := cptr }]

theorem runs_prev (valid : Valid ctx x) :
    Runs pc stack (execute ctx (x.thread pc stack) .prev) (stepBack ctx.input x) := by
  simp only [execute, stepBack]
  by_cases first : x.cptr = 0
  · rw [if_pos first, first]
    exact .inl ⟨rfl, rfl⟩
  · obtain ⟨c, prev, read⟩ := Input.getPrevChar_of_pos (Nat.pos_of_ne_zero first) valid.inside 0
    have back : ctx.input.prevChar x.cptr = some prev := by simp [Input.prevChar, read]
    rw [if_neg first, back]
    exact .inr ⟨{ x with cptr := prev }, rfl, rfl⟩

theorem stepBack_valid (x : Place) (valid : Valid ctx x) :
    ∀ y ∈ stepBack ctx.input x, Valid ctx y := by
  intro y member
  simp only [stepBack] at member
  split at member
  · simp at member
  · next prev back =>
      obtain ⟨⟨c, cptr⟩, read, rfl⟩ := Option.map_eq_some_iff.mp back
      have bounds := Input.getPrevChar_bounds read
      have inside := valid.inside
      rw [List.mem_singleton.mp member]
      simp only
      exact valid.move (by omega) (Input.getPrevChar_forth read valid.aligned).2

theorem readChar_backward (accepts : Nat → Bool) (valid : Valid ctx x) :
    ((stepBack ctx.input x).flatMap (readChar ctx.toSubject false accepts)).flatMap
      (stepBack ctx.input) = readChar ctx.toSubject true accepts x := by
  simp only [stepBack, readChar, if_true, Input.prevChar]
  cases read : ctx.input.getPrevChar x.cptr 0 with
  | none => rfl
  | some pair =>
      obtain ⟨c, prev⟩ := pair
      have forth := (Input.getPrevChar_forth read valid.aligned).1
      simp only [Option.map_some, List.flatMap_singleton, readChar, Bool.false_eq_true, if_false,
        forth]
      cases accepts c with
      | false => rfl
      | true => simp [stepBack, Input.prevChar, read]

end Runs

section Reading

variable {ctx : Context} {i : Instr} {accepts : Nat → Bool}

structure Reads (ctx : Context) (i : Instr) (accepts : Nat → Bool) : Prop where
  advances : i.advanceEffect = .advances
  depth : ∀ depth, i.stackAfter depth = depth
  execute : ∀ x, Valid ctx x → ∀ pc stack,
    execute ctx (x.thread pc stack) i = testAny ctx (x.thread pc stack) accepts

theorem reads_emitChar (c : Nat) :
    Reads ctx (emitChar (ctx.canonical c)) fun d => ctx.canonical d == ctx.canonical c := by
  have same : ∀ x, Valid ctx x → ∀ pc stack,
      Regexp.execute ctx (x.thread pc stack) (emitChar (ctx.canonical c)) =
        testChar ctx (x.thread pc stack) (ctx.canonical c) := by
    intro x _ pc stack
    simp only [emitChar]
    split
    · rfl
    · split <;> rfl
  constructor
  · simp only [emitChar]
    split
    · rfl
    · split <;> rfl
  · intro depth
    simp only [emitChar]
    split
    · rfl
    · split <;> rfl
  · intro x valid pc stack
    rw [same x valid pc stack, testChar_eq valid]

theorem reads_dot :
    Reads ctx (if ctx.flags.dotAll then .any else .dot)
      fun d => ctx.flags.dotAll || !isLineTerminator d := by
  cases all : ctx.flags.dotAll with
  | false => exact ⟨rfl, fun _ => rfl, fun _ _ _ _ => rfl⟩
  | true => exact ⟨rfl, fun _ => rfl, fun _ _ _ _ => rfl⟩

theorem testAny_congr {other : Nat → Bool} (same : ∀ c ≤ maxCodePoint, accepts c = other c)
    (t : Thread) : testAny ctx t accepts = testAny ctx t other := by
  simp only [testAny]
  split
  · rfl
  · split
    · rfl
    · next c next read => rw [same c (Input.getChar_bounds read).2.2]

theorem reads_never {cr : Unicode.CharRange} (none : cr.points = []) :
    Reads ctx (.char32 Unicode.uint32Max) fun d => cr.contains (ctx.canonical d) := by
  refine ⟨rfl, fun _ => rfl, ?_⟩
  intro x valid pc stack
  have tested : execute ctx (x.thread pc stack) (.char32 Unicode.uint32Max) =
      testChar ctx (x.thread pc stack) Unicode.uint32Max := rfl
  rw [tested, testChar_eq valid]
  apply testAny_congr
  intro c bounded
  have small := maxCodePoint_lt (canonical_bound ctx.toSubject bounded)
  have outside : cr.contains (ctx.canonical c) = false := by
    simp [Unicode.CharRange.contains, none, Boundaries.inside]
  rw [outside]
  simpa using Nat.ne_of_lt small

theorem emitRange_reads {cr : Unicode.CharRange} {code : Code} (emitted : emitRange cr = .ok code) :
    ∃ i, code = [i] ∧ Reads ctx i fun d => cr.contains (ctx.canonical d) := by
  simp only [emitRange] at emitted
  split at emitted
  · cases emitted
  · next short =>
      have short : cr.points.length / 2 < 65535 := by omega
      split at emitted
      · next last start rest points =>
          obtain ⟨interval, tail⟩ := last_interval points
          by_cases high : (if last = Unicode.uint32Max then start else last) ≤ 0xffff
          · rw [if_pos high] at emitted
            cases emitted
            refine ⟨_, rfl, rfl, fun _ => rfl, ?_⟩
            intro x valid pc stack
            apply testRange_eq valid
            intro c bounded
            have found := findRange_pairs16 short (narrow_of points high) tail
              (maxCodePoint_lt bounded)
            simpa using found
          · rw [if_neg high] at emitted
            cases emitted
            refine ⟨_, rfl, rfl, fun _ => rfl, ?_⟩
            intro x valid pc stack
            apply testRange_eq valid
            intro c _
            have found := findRange_pairs32 short tail c
            simpa using found
      · next few =>
          cases emitted
          have none : cr.points = [] := by
            have even : cr.points.reverse.length % 2 = 0 := by
              rw [List.length_reverse]
              exact cr.even
            exact List.reverse_eq_nil_iff.mp (Unicode.nil_of_short even few)
          exact ⟨_, rfl, reads_never none⟩

theorem Implements.reads (reads : Reads ctx i accepts) :
    Implements ctx [i] (readChar ctx.toSubject false accepts) := by
  apply Implements.single
  intro x valid pc stack
  rw [reads.execute x valid pc stack]
  exact runs_any accepts valid

theorem Balanced.single (depth : ∀ depth, i.stackAfter depth = depth) : Balanced [i] :=
  depth

theorem Balanced.around (reads : Reads ctx i accepts) (isBackward : Bool) :
    Balanced (around isBackward [i]) := by
  have single : Balanced [i] := .single reads.depth
  have prev : Balanced [.prev] := .single fun _ => rfl
  cases isBackward with
  | false => exact single
  | true => exact (prev.append single).append prev

theorem Implements.around (reads : Reads ctx i accepts) (isBackward : Bool) :
    Implements ctx (around isBackward [i]) (readChar ctx.toSubject isBackward accepts) := by
  cases isBackward with
  | false => exact .reads reads
  | true =>
      have prev : Implements ctx [.prev] (stepBack ctx.input) :=
        .single fun x valid pc stack => runs_prev valid
      have single : Balanced [i] := .single reads.depth
      have step : Balanced [.prev] := .single fun _ => rfl
      have forth : ∀ x, Valid ctx x →
          ∀ y ∈ (stepBack ctx.input x).flatMap (readChar ctx.toSubject false accepts),
          Valid ctx y := by
        intro x valid z member
        obtain ⟨y, first, later⟩ := List.mem_flatMap.mp member
        exact (readChar_reaches accepts y z later (stepBack_valid x valid y first)).1
      have pair := prev.append (.reads reads) step stepBack_valid
      have whole := pair.append prev (step.append single) forth
      exact whole.congr fun x valid => readChar_backward accepts valid

end Reading

end BreezeJs.Regexp
