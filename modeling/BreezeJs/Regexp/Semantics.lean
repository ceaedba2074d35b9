import BreezeJs.Library.Choices
import BreezeJs.Regexp.Exec

set_option autoImplicit false

namespace BreezeJs.Regexp

-- The places where a match may end, in the order in which they are tried.

open Choices

structure Place where
  cptr : Nat
  capture : Captures
deriving DecidableEq, Repr

def Node.captures : Node → Nat
  | .capture body => body.captures + 1
  | .lookaround _ _ body => body.captures
  | .seq first rest => first.captures + rest.captures
  | .alt left right => left.captures + right.captures
  | .quant _ atom => atom.captures
  | _ => 0

def Place.mark (x : Place) (i : Nat) : Place :=
  { x with capture := x.capture.set i (some x.cptr) }

def Place.reset (x : Place) (first count : Nat) : Place :=
  if count = 0 then x
  else { x with capture := resetCaptures x.capture first (first + count - 1) }

-- A round of a quantifier that ends where it began is no round.
def advancing (f : Place → List Place) (x : Place) : List Place :=
  (f x).filter fun y => y.cptr ≠ x.cptr

section Meaning

variable (subject : Subject)

def readChar (isBackward : Bool) (accepts : Nat → Bool) (x : Place) : List Place :=
  let read :=
    if isBackward then subject.input.getPrevChar x.cptr 0
    else subject.input.getChar x.cptr subject.input.cbufEnd
  match read with
  | none => []
  | some (c, cptr) => if accepts c then [{ x with cptr := cptr }] else []

def assertion (holds : Bool) (x : Place) : List Place :=
  if holds then [x] else []

def atLineStart (cptr : Nat) : Bool :=
  cptr == 0 || (subject.flags.multiLine && (subject.input.peekPrevChar cptr).any isLineTerminator)

def atLineEnd (cptr : Nat) : Bool :=
  cptr == subject.input.cbufEnd ||
    (subject.flags.multiLine && (subject.input.peekChar cptr).any isLineTerminator)

def atWordBoundary (cptr : Nat) : Bool :=
  (wordBefore subject.input cptr).getD false != (wordAt subject.input cptr).getD false

def readCapture (isBackward : Bool) (capture : Nat) (x : Place) : List Place :=
  match x.capture[2 * capture]?, x.capture[2 * capture + 1]? with
  | some (some start), some (some stop) =>
      match compareCapture subject isBackward start stop x.cptr with
      | .equal cptr => [{ x with cptr := cptr }]
      | _ => []
  -- A capture that has not ended matches the empty text.
  | some _, some _ => [x]
  | _, _ => []

def Quantifier.rounds (q : Quantifier) : Nat :=
  if q.quantMax = int32Max then subject.input.cbufEnd + 1 else q.quantMax - q.quantMin

def quantified (q : Quantifier) (f : Place → List Place) (x : Place) : List Place :=
  (exactly f q.quantMin x).flatMap (upTo (advancing f) q.greedy (q.rounds subject))

def sem : Node → Bool → Nat → Place → List Place
  | .empty, _, _, x => [x]
  | .lineStart, _, _, x => assertion (atLineStart subject x.cptr) x
  | .lineEnd, _, _, x => assertion (atLineEnd subject x.cptr) x
  | .wordBoundary negated, _, _, x => assertion (xor (atWordBoundary subject x.cptr) negated) x
  | .char c, isBackward, _, x =>
      readChar subject isBackward (fun d => subject.canonical d == subject.canonical c) x
  | .dot, isBackward, _, x =>
      readChar subject isBackward (fun d => subject.flags.dotAll || !isLineTerminator d) x
  | .charSet cr, isBackward, _, x =>
      readChar subject isBackward (fun d => cr.contains (subject.canonical d)) x
  | .charClass cls, isBackward, _, x =>
      let cr := parseCharClass subject.folding subject.flags cls
      readChar subject isBackward (fun d => cr.contains (subject.canonical d)) x
  | .backReference capture, isBackward, _, x => readCapture subject isBackward capture x
  | .capture body, isBackward, captures, x =>
      let first := 2 * captures + isBackward.toNat
      let last := 2 * captures + (!isBackward).toNat
      (sem body isBackward (captures + 1) (x.mark first)).map fun y => y.mark last
  | .lookaround isNeg isBackwardLookahead body, _, captures, x =>
      match (sem body isBackwardLookahead captures x).head?, isNeg with
      | some y, false => [{ x with capture := y.capture }]
      | none, true => [x]
      | _, _ => []
  | .seq first rest, isBackward, captures, x =>
      if isBackward then
        (sem rest isBackward (captures + first.captures) x).flatMap (sem first isBackward captures)
      else
        (sem first isBackward captures x).flatMap (sem rest isBackward (captures + first.captures))
  | .alt left right, isBackward, captures, x =>
      sem left isBackward captures x ++ sem right isBackward (captures + left.captures) x
  | .quant q atom, isBackward, captures, x =>
      let x := if q.quantMin = 0 then x.reset captures atom.captures else x
      quantified subject q (sem atom isBackward captures) x

structure Sound (count : Nat) (x : Place) : Prop where
  inside : x.cptr ≤ subject.input.cbufEnd
  aligned : subject.input.Aligned x.cptr
  size : x.capture.length = 2 * count
  captured : ∀ p, some p ∈ x.capture → p ≤ subject.input.cbufEnd

end Meaning

def Onward (isBackward : Bool) (x y : Place) : Prop :=
  if isBackward then y.cptr ≤ x.cptr else x.cptr ≤ y.cptr

theorem Onward.refl (isBackward : Bool) (x : Place) : Onward isBackward x x := by
  simp [Onward]

theorem Onward.trans {isBackward : Bool} {x y z : Place} (first : Onward isBackward x y)
    (second : Onward isBackward y z) : Onward isBackward x z := by
  cases isBackward
  · simp only [Onward, Bool.false_eq_true, if_false] at *
    omega
  · simp only [Onward, if_true] at *
    omega

def Reaches (subject : Subject) (count : Nat) (isBackward : Bool) (x y : Place) : Prop :=
  Sound subject count x → Sound subject count y ∧ Onward isBackward x y

section Soundness

variable {subject : Subject} {count : Nat} {isBackward : Bool} {x y : Place}

theorem Reaches.refl (x : Place) : Reaches subject count isBackward x x :=
  fun sound => ⟨sound, Onward.refl isBackward x⟩

theorem Reaches.trans (x y z : Place) (first : Reaches subject count isBackward x y)
    (second : Reaches subject count isBackward y z) : Reaches subject count isBackward x z := by
  intro sound
  have middle := first sound
  have last := second middle.1
  exact ⟨last.1, middle.2.trans last.2⟩

theorem Sound.move (sound : Sound subject count x) {cptr : Nat}
    (inside : cptr ≤ subject.input.cbufEnd) (aligned : subject.input.Aligned cptr) :
    Sound subject count { x with cptr := cptr } :=
  ⟨inside, aligned, sound.size, sound.captured⟩

theorem Sound.recapture (sound : Sound subject count x) {capture : Captures}
    (size : capture.length = 2 * count)
    (captured : ∀ p, some p ∈ capture → p ≤ subject.input.cbufEnd) :
    Sound subject count { x with capture := capture } :=
  ⟨sound.inside, sound.aligned, size, captured⟩

theorem Sound.mark (sound : Sound subject count x) (i : Nat) : Sound subject count (x.mark i) := by
  apply sound.recapture
  · simpa using sound.size
  · intro p member
    rcases List.mem_or_eq_of_mem_set member with old | new
    · exact sound.captured p old
    · cases new
      exact sound.inside

theorem resetCaptures_spec (capture : Captures) (first last : Nat) :
    (resetCaptures capture first last).length = capture.length ∧
      ∀ p, some p ∈ resetCaptures capture first last → some p ∈ capture := by
  simp only [resetCaptures]
  induction List.range' first (last + 1 - first) generalizing capture with
  | nil => simp
  | cons val rest ih =>
      have onward := ih ((capture.set (2 * val) none).set (2 * val + 1) none)
      simp only [List.foldl_cons]
      refine ⟨by simpa using onward.1, fun p member => ?_⟩
      have once := List.mem_or_eq_of_mem_set (onward.2 p member)
      have twice := List.mem_or_eq_of_mem_set (once.resolve_right (by simp))
      exact twice.resolve_right (by simp)

theorem Sound.reset (sound : Sound subject count x) (first size : Nat) :
    Sound subject count (x.reset first size) := by
  simp only [Place.reset]
  split
  · exact sound
  · have spec := resetCaptures_spec x.capture first (first + size - 1)
    apply sound.recapture
    · rw [spec.1, sound.size]
    · intro p member
      exact sound.captured p (spec.2 p member)

@[simp] theorem reset_cptr (x : Place) (first size : Nat) : (x.reset first size).cptr = x.cptr := by
  simp only [Place.reset]
  split <;> rfl

theorem readChar_reaches (accepts : Nat → Bool) (x : Place) :
    ∀ y ∈ readChar subject isBackward accepts x, Reaches subject count isBackward x y := by
  intro y member sound
  simp only [readChar] at member
  split at member
  · simp at member
  · next c cptr read =>
      split at member
      · rw [List.mem_singleton.mp member]
        cases isBackward with
        | false =>
            have bounds := Input.getChar_bounds read
            exact ⟨sound.move bounds.2.1 (Input.getChar_back read sound.aligned).2,
              by simp [Onward]; omega⟩
        | true =>
            have bounds := Input.getPrevChar_bounds read
            have inside := sound.inside
            exact ⟨sound.move (by omega) (Input.getPrevChar_forth read sound.aligned).2,
              by simp [Onward]; omega⟩
      · simp at member

theorem assertion_reaches (holds : Bool) (x : Place) :
    ∀ y ∈ assertion holds x, Reaches subject count isBackward x y := by
  intro y member
  simp only [assertion] at member
  split at member
  · rw [List.mem_singleton.mp member]
    exact Reaches.refl x
  · simp at member

theorem compareForward_reaches {fuel cptr1 stop cptr q : Nat}
    (equal : compareForward subject fuel cptr1 stop cptr = .equal q)
    (inside : cptr ≤ subject.input.cbufEnd) (aligned : subject.input.Aligned cptr) :
    cptr ≤ q ∧ q ≤ subject.input.cbufEnd ∧ subject.input.Aligned q := by
  induction fuel generalizing cptr1 cptr with
  | zero =>
      cases equal
      exact ⟨le_refl _, inside, aligned⟩
  | succ fuel ih =>
      simp only [compareForward] at equal
      split_ifs at equal
      · split at equal
        · next c1 next1 c2 next _ read =>
            split_ifs at equal
            have bounds := Input.getChar_bounds read
            have onward := ih equal bounds.2.1 (Input.getChar_back read aligned).2
            exact ⟨by omega, onward.2⟩
        · cases equal
      · cases equal
        exact ⟨le_refl _, inside, aligned⟩

theorem compareBackward_reaches {fuel cptr1 start cptr q : Nat}
    (equal : compareBackward subject fuel cptr1 start cptr = .equal q)
    (aligned : subject.input.Aligned cptr) : q ≤ cptr ∧ subject.input.Aligned q := by
  induction fuel generalizing cptr1 cptr with
  | zero =>
      cases equal
      exact ⟨le_refl _, aligned⟩
  | succ fuel ih =>
      simp only [compareBackward] at equal
      split_ifs at equal
      · split at equal
        · next c1 prev1 c2 prev _ read =>
            split_ifs at equal
            have bounds := Input.getPrevChar_bounds read
            have onward := ih equal (Input.getPrevChar_forth read aligned).2
            exact ⟨by omega, onward.2⟩
        · cases equal
      · cases equal
        exact ⟨le_refl _, aligned⟩

theorem readCapture_reaches (capture : Nat) (x : Place) :
    ∀ y ∈ readCapture subject isBackward capture x, Reaches subject count isBackward x y := by
  intro y member sound
  simp only [readCapture] at member
  split at member
  · next start stop _ _ =>
      split at member
      · next cptr equal =>
          rw [List.mem_singleton.mp member]
          cases isBackward with
          | false =>
              simp only [compareCapture, Bool.false_eq_true, if_false] at equal
              have bounds := compareForward_reaches equal sound.inside sound.aligned
              exact ⟨sound.move bounds.2.1 bounds.2.2, by simp [Onward, bounds.1]⟩
          | true =>
              simp only [compareCapture, if_true] at equal
              have bounds := compareBackward_reaches equal sound.aligned
              have inside := sound.inside
              exact ⟨sound.move (by omega) bounds.2, by simp [Onward, bounds.1]⟩
      · simp at member
  · rw [List.mem_singleton.mp member]
    exact Reaches.refl x sound
  · simp at member

theorem quantified_related {relation : Place → Place → Prop} (refl : ∀ x, relation x x)
    (trans : ∀ x y z, relation x y → relation y z → relation x z) {f : Place → List Place}
    (round : ∀ x, ∀ y ∈ f x, relation x y) (q : Quantifier) (x : Place) :
    ∀ y ∈ quantified subject q f x, relation x y := by
  intro z member
  obtain ⟨y, first, later⟩ := List.mem_flatMap.mp member
  have advanced : ∀ x, ∀ y ∈ advancing f x, relation x y :=
    fun x y member => round x y (List.mem_filter.mp member).1
  exact trans x y z (exactly_related refl trans round q.quantMin x y first)
    (upTo_related refl trans advanced q.greedy (q.rounds subject) y z later)

theorem sem_reaches (node : Node) (isBackward : Bool) (captures : Nat) (x : Place) :
    ∀ y ∈ sem subject node isBackward captures x, Reaches subject count isBackward x y := by
  induction node generalizing isBackward captures x with
  | empty =>
      intro y member
      rw [List.mem_singleton.mp member]
      exact Reaches.refl x
  | lineStart | lineEnd | wordBoundary => exact assertion_reaches _ x
  | char | dot | charSet | charClass => exact readChar_reaches _ x
  | backReference capture => exact readCapture_reaches capture x
  | capture body ih =>
      intro z member sound
      obtain ⟨y, inner, rfl⟩ := List.mem_map.mp member
      have reached := ih isBackward (captures + 1) _ y inner (sound.mark _)
      exact ⟨reached.1.mark _, reached.2⟩
  | lookaround isNeg isBackwardLookahead body ih =>
      intro z member sound
      simp only [sem] at member
      split at member
      · next y found =>
          rw [List.mem_singleton.mp member]
          have reached := ih isBackwardLookahead captures x y (List.mem_of_mem_head? found) sound
          exact ⟨sound.recapture reached.1.size reached.1.captured, Onward.refl isBackward x⟩
      · rw [List.mem_singleton.mp member]
        exact Reaches.refl x sound
      · simp at member
  | seq first rest ihFirst ihRest =>
      intro z member
      simp only [sem] at member
      split at member
      · obtain ⟨y, early, late⟩ := List.mem_flatMap.mp member
        exact Reaches.trans x y z (ihRest _ _ x y early) (ihFirst _ _ y z late)
      · obtain ⟨y, early, late⟩ := List.mem_flatMap.mp member
        exact Reaches.trans x y z (ihFirst _ _ x y early) (ihRest _ _ y z late)
  | alt left right ihLeft ihRight =>
      intro y member
      rcases List.mem_append.mp member with first | second
      · exact ihLeft _ _ x y first
      · exact ihRight _ _ x y second
  | quant q atom ih =>
      intro y member sound
      have round := @quantified_related subject _ (@Reaches.refl subject count isBackward)
        Reaches.trans _ (ih isBackward captures) q
      simp only [sem] at member
      split at member
      · have reached := round _ y member (sound.reset captures atom.captures)
        exact ⟨reached.1, by simpa [Onward] using reached.2⟩
      · exact round x y member sound

end Soundness

end BreezeJs.Regexp
