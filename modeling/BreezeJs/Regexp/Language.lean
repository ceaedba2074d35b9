import BreezeJs.Library.Powers
import BreezeJs.Regexp.Groups

set_option autoImplicit false

namespace BreezeJs.Regexp

open Choices

def Node.hasBackReference : Node → Bool
  | .backReference _ => true
  | .capture body | .lookaround _ _ body | .quant _ body => body.hasBackReference
  | .seq left right | .alt left right => left.hasBackReference || right.hasBackReference
  | _ => false

def Quantifier.allows (q : Quantifier) (n : Nat) : Prop :=
  q.quantMin ≤ n ∧ (q.quantMax = int32Max ∨ n ≤ q.quantMax)

section Language

variable (subject : Subject)

def CharSpan (accepts : Nat → Bool) (i j : Nat) : Prop :=
  subject.input.Aligned i ∧
    ∃ c, subject.input.getChar i subject.input.cbufEnd = some (c, j) ∧ accepts c = true

def Spans : Node → Nat → Nat → Prop
  | .empty, i, j => j = i
  | .lineStart, i, j => j = i ∧ atLineStart subject i = true
  | .lineEnd, i, j => j = i ∧ atLineEnd subject i = true
  | .wordBoundary negated, i, j => j = i ∧ xor (atWordBoundary subject i) negated = true
  | .char c, i, j => CharSpan subject (fun d => subject.canonical d == subject.canonical c) i j
  | .dot, i, j => CharSpan subject (fun d => subject.flags.dotAll || !isLineTerminator d) i j
  | .charSet cr, i, j => CharSpan subject (fun d => cr.contains (subject.canonical d)) i j
  | .charClass cls, i, j =>
      CharSpan subject (fun d => (parseCharClass subject.folding subject.flags cls).contains
        (subject.canonical d)) i j
  | .backReference _, _, _ => False
  | .capture body, i, j => Spans body i j
  | .lookaround isNeg isBackward body, i, j =>
      j = i ∧ ((∃ k, if isBackward then Spans body k i else Spans body i k) ↔ isNeg = false)
  | .seq first rest, i, j => ∃ k, Spans first i k ∧ Spans rest k j
  | .alt left right, i, j => Spans left i j ∨ Spans right i j
  | .quant q atom, i, j => ∃ n, q.allows n ∧ power (Spans atom) n i j

end Language

def directed (isBackward : Bool) (r : Nat → Nat → Prop) (i j : Nat) : Prop :=
  if isBackward then r j i else r i j

section Meaning

variable {ctx : Context} {isBackward : Bool} {f : Place → List Place} {r : Nat → Nat → Prop}

abbrev Reading (ctx : Context) (f : Place → List Place) (r : Nat → Nat → Prop) : Prop :=
  Follows f Place.cptr (Valid ctx) r

theorem directed_static (holds : Nat → Prop) (i j : Nat) :
    directed isBackward (fun i j => j = i ∧ holds i) i j ↔ i = j ∧ holds i := by
  cases isBackward with
  | false =>
      simp only [directed, Bool.false_eq_true, if_false]
      exact and_congr_left fun _ => eq_comm
  | true =>
      simp only [directed, if_true]
      constructor
      · rintro ⟨rfl, true⟩
        exact ⟨rfl, true⟩
      · rintro ⟨rfl, true⟩
        exact ⟨rfl, true⟩

theorem assertion_reading (holds : Nat → Bool) :
    Reading ctx (fun x => assertion (holds x.cptr) x)
      (directed isBackward fun i j => j = i ∧ holds i = true) := by
  intro x valid
  have here : assertion (holds x.cptr) x = if holds x.cptr then [x] else [] := rfl
  simp only [directed_static fun i => holds i = true, here]
  cases holds x.cptr with
  | false => simp
  | true => simp [valid]

theorem readChar_reading (accepts : Nat → Bool) :
    Reading ctx (readChar ctx.toSubject isBackward accepts)
      (directed isBackward (CharSpan ctx.toSubject accepts)) := by
  intro x valid
  constructor
  · intro y member
    exact (readChar_reaches accepts x y member valid).1
  · intro k
    have member : (∃ y ∈ readChar ctx.toSubject isBackward accepts x, y.cptr = k) ↔
        ∃ c, (if isBackward then ctx.input.getPrevChar x.cptr 0
          else ctx.input.getChar x.cptr ctx.input.cbufEnd) = some (c, k) ∧ accepts c = true := by
      simp only [readChar]
      split
      · next none => simp [none]
      · next c cptr read =>
          rw [read]
          cases accepted : accepts c <;> simp_all
    rw [member]
    cases isBackward with
    | false =>
        simp only [Bool.false_eq_true, if_false, directed, CharSpan]
        constructor
        · rintro ⟨c, read, accepted⟩
          exact ⟨valid.aligned, c, read, accepted⟩
        · rintro ⟨_, c, read, accepted⟩
          exact ⟨c, read, accepted⟩
    | true =>
        simp only [if_true, directed, CharSpan]
        constructor
        · rintro ⟨c, read, accepted⟩
          have forth := Input.getPrevChar_forth read valid.aligned
          exact ⟨forth.2, c, forth.1, accepted⟩
        · rintro ⟨aligned, c, read, accepted⟩
          exact ⟨c, (Input.getChar_back read aligned).1, accepted⟩

theorem advancing_reading (reading : Reading ctx f r) :
    Reading ctx (advancing f) (fun i j => r i j ∧ j ≠ i) := by
  intro x valid
  constructor
  · intro y member
    exact (reading x valid).1 y (List.mem_filter.mp member).1
  · intro k
    have related := (reading x valid).2 k
    constructor
    · rintro ⟨y, member, rfl⟩
      have kept := List.mem_filter.mp member
      exact ⟨related.mp ⟨y, kept.1, rfl⟩, by simpa using kept.2⟩
    · rintro ⟨step, moved⟩
      obtain ⟨y, member, rfl⟩ := related.mpr step
      exact ⟨y, List.mem_filter.mpr ⟨member, by simpa using moved⟩, rfl⟩

theorem quantified_reading (reading : Reading ctx f r) (onwards : Onwards ctx isBackward f)
    (q : Quantifier) :
    Reading ctx (quantified ctx.toSubject q f) (fun i j => ∃ n, q.allows n ∧ power r n i j) := by
  have ordered := q.ordered
  have least := reading.exactly q.quantMin
  have more := fun n => (advancing_reading reading).upTo q.greedy n
  intro x valid
  refine ⟨((least.flatMap (more _)) x valid).1, fun k => ?_⟩
  rw [show (∃ y ∈ quantified ctx.toSubject q f x, y.cptr = k) ↔ _ from
    ((least.flatMap (more _)) x valid).2 k]
  constructor
  · rintro ⟨b, first, m, small, rest⟩
    refine ⟨q.quantMin + m, ⟨by omega, ?_⟩, power_add.mpr ⟨b, first, ?_⟩⟩
    · simp only [Quantifier.rounds] at small
      split at small
      · next infinite => exact .inl infinite
      · right
        omega
    · exact power_mono (fun _ _ step => step.1) rest
  · rintro ⟨n, ⟨least_, most⟩, path⟩
    obtain ⟨rest, rfl⟩ : ∃ rest, n = q.quantMin + rest := ⟨n - q.quantMin, by omega⟩
    obtain ⟨b, first, later⟩ := power_add.mp path
    obtain ⟨m, small, moving⟩ := power_moving later
    refine ⟨b, first, ?_⟩
    simp only [Quantifier.rounds]
    split
    · obtain ⟨y, member, rfl⟩ := ((least x valid).2 b).mpr first
      have start := (least x valid).1 y member
      obtain ⟨z, found, rfl⟩ :=
        ((more (m + (ctx.input.cbufEnd + 1)) y start).2 k).mpr ⟨m, by omega, moving⟩
      have near := @distance_lt ctx isBackward y start
      rw [upTo_enough (Valid ctx) (distance ctx isBackward) onwards.descends q.greedy start
        (show distance ctx isBackward y < m + (ctx.input.cbufEnd + 1) by omega) near] at found
      exact ((more (ctx.input.cbufEnd + 1) y start).2 _).mp ⟨z, found, rfl⟩
    · next finite =>
        have bound := most.resolve_left finite
        exact ⟨m, by omega, moving⟩

theorem power_directed (r : Nat → Nat → Prop) (n i j : Nat) :
    power (directed isBackward r) n i j ↔ directed isBackward (power r n) i j := by
  cases isBackward with
  | false => exact Iff.rfl
  | true => exact power_flip

theorem sem_reading (node : Node) (plain : node.hasBackReference = false) (isBackward : Bool)
    (captures : Nat) :
    Reading ctx (sem ctx.toSubject node isBackward captures)
      (directed isBackward (Spans ctx.toSubject node)) := by
  induction node generalizing isBackward captures with
  | empty =>
      intro x valid
      have static := @directed_static isBackward fun _ => True
      simp only [and_true] at static
      simp [sem, Spans, static, valid]
  | lineStart => exact assertion_reading (atLineStart ctx.toSubject)
  | lineEnd => exact assertion_reading (atLineEnd ctx.toSubject)
  | wordBoundary negated =>
      exact assertion_reading fun cptr => xor (atWordBoundary ctx.toSubject cptr) negated
  | char | dot | charSet | charClass => exact readChar_reading _
  | backReference => cases plain
  | capture body ih =>
      intro x valid
      have inner := ih plain isBackward (captures + 1) _
        (valid.mark (2 * captures + isBackward.toNat))
      constructor
      · intro z member
        obtain ⟨y, found, rfl⟩ := List.mem_map.mp member
        exact (inner.1 y found).mark _
      · intro k
        have same := inner.2 k
        simpa [sem, Spans, Place.mark] using same
  | lookaround isNeg ahead body ih =>
      intro x valid
      have inner := ih plain ahead captures x valid
      have found : (∃ k, if ahead then Spans ctx.toSubject body k x.cptr
          else Spans ctx.toSubject body x.cptr k) ↔
          sem ctx.toSubject body ahead captures x ≠ [] := by
        constructor
        · rintro ⟨k, spans⟩
          obtain ⟨y, member, _⟩ := (inner.2 k).mpr spans
          exact List.ne_nil_of_mem member
        · intro some
          obtain ⟨y, member⟩ := List.exists_mem_of_ne_nil _ some
          exact ⟨y.cptr, (inner.2 _).mp ⟨y, member, rfl⟩⟩
      have kept := inner.1
      have static := @directed_static isBackward fun i =>
        (∃ k, if ahead then Spans ctx.toSubject body k i else Spans ctx.toSubject body i k) ↔
          isNeg = false
      simp only [Spans, static, found, sem]
      cases places : sem ctx.toSubject body ahead captures x with
      | nil => cases isNeg <;> simp [valid]
      | cons y rest =>
          have valid' := kept y (by simp [places])
          have held : Valid ctx { x with capture := y.capture } :=
            valid.recapture valid'.size valid'.captured
          cases isNeg <;> simp [held]
  | seq first rest ihFirst ihRest =>
      obtain ⟨plainFirst, plainRest⟩ := Bool.or_eq_false_iff.mp plain
      have early := ihFirst plainFirst isBackward captures
      have late := ihRest plainRest isBackward (captures + first.captures)
      cases isBackward with
      | false => exact early.flatMap late
      | true => exact (late.flatMap early).congr fun i j => exists_congr fun k => and_comm
  | alt left right ihLeft ihRight =>
      obtain ⟨plainLeft, plainRight⟩ := Bool.or_eq_false_iff.mp plain
      have first := ihLeft plainLeft isBackward captures
      have second := ihRight plainRight isBackward (captures + left.captures)
      apply (first.append second).congr
      intro i j
      cases isBackward <;> rfl
  | quant q atom ih =>
      have round := quantified_reading (ih plain isBackward captures)
        (sem_reaches atom isBackward captures) q
      have counted := round.congr (s := directed isBackward (Spans ctx.toSubject (.quant q atom)))
        (by
          intro i j
          simp only [power_directed]
          cases isBackward <;> rfl)
      intro x valid
      simp only [sem]
      split
      · have reset := counted _ (valid.reset captures atom.captures)
        simpa using reset
      · exact counted x valid

end Meaning

def Starts (subject : Subject) (cindex i : Nat) : Prop :=
  if subject.flags.isSticky then i = cindex
  else cindex ≤ i ∧ i ≤ subject.input.cbufEnd ∧ subject.input.Aligned i

section Leftmost

variable {ctx : Context} {x : Place}

abbrev readAny (subject : Subject) : Place → List Place :=
  readChar subject false fun _ => true

theorem readAny_below {i : Nat} (below : x.cptr < i)
    (inside : i ≤ ctx.input.cbufEnd) (aligned : ctx.input.Aligned i) :
    ∃ next, readAny ctx.toSubject x = [{ x with cptr := next }] ∧ x.cptr < next ∧ next ≤ i := by
  obtain ⟨c, next, read⟩ := Input.getChar_of_lt (show x.cptr < ctx.input.cbufEnd by omega)
    ctx.input.cbufEnd
  refine ⟨next, by simp [readAny, readChar, read], (Input.getChar_bounds read).1, ?_⟩
  rcases Input.getChar_cases read with ⟨rfl, pair, _⟩ | ⟨rfl, _⟩
  · by_contra past
    have middle : i - 1 = x.cptr := by omega
    rcases aligned with first | apart
    · omega
    · rw [middle, pair] at apart
      cases apart
  · omega

theorem mem_starts (valid : Valid ctx x) {i n : Nat} (onward : x.cptr ≤ i)
    (inside : i ≤ ctx.input.cbufEnd) (aligned : ctx.input.Aligned i) (enough : i - x.cptr ≤ n) :
    { x with cptr := i } ∈ upTo (readAny ctx.toSubject) false n x := by
  induction n generalizing x with
  | zero =>
      have same : i = x.cptr := by omega
      simp [upTo, same]
  | succ n ih =>
      rw [mem_upTo]
      rcases Nat.lt_or_eq_of_le onward with below | rfl
      · obtain ⟨next, read, advance, before⟩ := readAny_below below inside aligned
        have valid' := (readAny_descends ctx x valid { x with cptr := next } (by simp [read])).1
        right
        refine ⟨{ x with cptr := next }, by simp [read], ?_⟩
        exact ih valid' before (by simp only; omega)
      · exact .inl rfl

theorem starts_of_mem {y : Place} {n : Nat} (valid : Valid ctx x)
    (member : y ∈ upTo (readAny ctx.toSubject) false n x) :
    Valid ctx y ∧ x.cptr ≤ y.cptr := by
  have reached : Reaches ctx.toSubject ctx.captureCount false x y :=
    upTo_related Reaches.refl Reaches.trans (readChar_reaches _) false n x y member
  have way := reached valid
  exact ⟨way.1, by simpa [Onward] using way.2⟩

theorem readAny_single (x : Place) :
    readAny ctx.toSubject x = [] ∨ ∃ y, readAny ctx.toSubject x = [y] := by
  simp only [readAny, readChar]
  split
  · exact .inl rfl
  · exact .inr ⟨_, rfl⟩

theorem first_leftmost {g : Place → List Place} {z : Place} (n : Nat) (valid : Valid ctx x)
    (first : ((upTo (readAny ctx.toSubject) false n x).flatMap g).head? = some z) :
    ∃ s ∈ upTo (readAny ctx.toSubject) false n x, z ∈ g s ∧
      ∀ t ∈ upTo (readAny ctx.toSubject) false n x, t.cptr < s.cptr → g t = [] := by
  induction n generalizing x with
  | zero =>
      simp only [upTo, List.flatMap_singleton] at first ⊢
      exact ⟨x, by simp, List.mem_of_mem_head? first, by simp⟩
  | succ n ih =>
      have split : (upTo (readAny ctx.toSubject) false (n + 1) x).flatMap g =
          g x ++ (readAny ctx.toSubject x).flatMap fun y =>
            (upTo (readAny ctx.toSubject) false n y).flatMap g := by
        rw [upTo_flatMap]
        rfl
      rw [split] at first
      cases here : g x with
      | cons w rest =>
          rw [here] at first
          cases first
          refine ⟨x, mem_upTo.mpr (.inl rfl), by simp [here], ?_⟩
          intro t member before
          exact absurd (starts_of_mem valid member).2 (by omega)
      | nil =>
          rw [here, List.nil_append] at first
          rcases @readAny_single ctx x with none | ⟨y, one⟩
          · simp [none] at first
          · rw [one, List.flatMap_singleton] at first
            have valid' := (readAny_descends ctx x valid y (by simp [one])).1
            obtain ⟨s, member, found, least⟩ := ih valid' first
            refine ⟨s, mem_upTo.mpr (.inr ⟨y, by simp [one], member⟩), found, ?_⟩
            intro t other before
            rcases mem_upTo.mp other with rfl | ⟨y', next, later⟩
            · exact here
            · rw [one, List.mem_singleton] at next
              rw [next] at later
              exact least t later before

end Leftmost

section Search

variable {folding : CaseFolding} {flags : Flags} {pattern : Node} {program : Program}

theorem sem_whole {ctx : Context} {s z : Place} (valid : Valid ctx s)
    (plain : pattern.hasBackReference = false) (groups : pattern.captures + 1 ≤ ctx.captureCount)
    (member : z ∈ sem ctx.toSubject (.capture pattern) false 0 s) :
    Spans ctx.toSubject pattern s.cptr z.cptr ∧ z.capture[0]? = some (some s.cptr) ∧
      z.capture[1]? = some (some z.cptr) := by
  obtain ⟨y, inner, rfl⟩ := List.mem_map.mp member
  have spans := (((sem_reading (.capture pattern) plain false 0) s valid).2 _).mp ⟨_, member, rfl⟩
  have marked := valid.mark 0
  have captured := sem_captured pattern false 1 _ (by omega) y inner marked
  have marks := marks_get false (show 0 < ctx.captureCount by omega) valid captured.1 captured.2
  exact ⟨spans, marks.1, marks.2⟩

theorem mem_allMatches {ctx : Context} {x : Place} (valid : Valid ctx x) {i : Nat}
    (start : Starts ctx.toSubject x.cptr i) :
    ∀ z ∈ sem ctx.toSubject (.capture pattern) false 0 { x with cptr := i },
      z ∈ allMatches ctx.toSubject pattern x := by
  intro z member
  simp only [Starts] at start
  simp only [allMatches]
  split at start
  · next sticky =>
      rw [if_pos sticky]
      rwa [start] at member
  · next roaming =>
      rw [if_neg roaming]
      have reached := mem_starts valid start.1 start.2.1 start.2.2
        (show i - x.cptr ≤ ctx.input.cbufEnd + 1 by omega)
      exact List.mem_flatMap_of_mem reached member

theorem starts_valid {ctx : Context} {x : Place} (valid : Valid ctx x) {i : Nat}
    (start : Starts ctx.toSubject x.cptr i) : Valid ctx { x with cptr := i } := by
  simp only [Starts] at start
  split at start
  · rw [start]
    exact valid
  · exact valid.move start.2.1 start.2.2

theorem firstMatch_leftmost {ctx : Context} {x z : Place} (valid : Valid ctx x)
    (plain : pattern.hasBackReference = false) (groups : pattern.captures + 1 ≤ ctx.captureCount)
    (first : (allMatches ctx.toSubject pattern x).head? = some z) :
    ∃ i j, z.capture[0]? = some (some i) ∧ z.capture[1]? = some (some j) ∧
      Starts ctx.toSubject x.cptr i ∧ Spans ctx.toSubject pattern i j ∧
      ∀ k < i, Starts ctx.toSubject x.cptr k → ∀ l, ¬ Spans ctx.toSubject pattern k l := by
  simp only [allMatches] at first
  by_cases sticky : ctx.flags.isSticky = true
  · rw [if_pos sticky] at first
    have whole := sem_whole valid plain groups (List.mem_of_mem_head? first)
    refine ⟨x.cptr, z.cptr, whole.2.1, whole.2.2, by simp [Starts, sticky], whole.1, ?_⟩
    intro k before start
    simp only [Starts, if_pos sticky] at start
    omega
  · rw [if_neg sticky] at first
    obtain ⟨s, member, found, least⟩ := first_leftmost _ valid first
    have reached := starts_of_mem valid member
    have whole := sem_whole reached.1 plain groups found
    refine ⟨s.cptr, z.cptr, whole.2.1, whole.2.2, ?_, whole.1, ?_⟩
    · simp only [Starts, if_neg sticky]
      exact ⟨reached.2, reached.1.inside, reached.1.aligned⟩
    · intro k before start l spans
      simp only [Starts, if_neg sticky] at start
      have place := mem_starts valid start.1 start.2.1 start.2.2
        (show k - x.cptr ≤ ctx.input.cbufEnd + 1 by omega)
      have valid' := (starts_of_mem valid place).1
      have none := least _ place before
      obtain ⟨y, inner, _⟩ :=
        (((sem_reading (.capture pattern) plain false 0) _ valid').2 l).mpr spans
      rw [none] at inner
      cases inner

/-- A pattern without back references is found exactly when its language has a part of the subject
from a boundary at or after the start, and it is found at the leftmost. -/
theorem lreExec_leftmost (compiled : lreCompile folding flags pattern = .ok program)
    (plain : pattern.hasBackReference = false) (units : List UInt16) (isWide : Bool) {cindex : Nat}
    (inside : cindex ≤ units.length)
    (aligned : (execContext folding program units isWide).input.Aligned cindex) :
    ∃ fuel ret capture, lreExec folding program units isWide cindex fuel = .done ret capture ∧
      (ret = true ↔ ∃ i j,
        Starts (execContext folding program units isWide).toSubject cindex i ∧
          Spans (execContext folding program units isWide).toSubject pattern i j) ∧
      (ret = true → ∃ i j, capture[0]? = some (some i) ∧ capture[1]? = some (some j) ∧
        Spans (execContext folding program units isWide).toSubject pattern i j ∧
        ∀ k < i, Starts (execContext folding program units isWide).toSubject cindex k →
          ∀ l, ¬ Spans (execContext folding program units isWide).toSubject pattern k l) := by
  obtain ⟨fuel, capture, done, captured⟩ := lreExec_done compiled units isWide inside aligned
  have valid := startPlace_valid units isWide inside aligned
  obtain ⟨rfl, _, code, emits, _⟩ := lreCompile_ok compiled
  have groups : pattern.captures + 1 ≤ program.captureCount := by
    have counted := emits.count
    simp only [Node.captures] at counted
    omega
  refine ⟨fuel, _, capture, done, ?_, ?_⟩
  · constructor
    · intro found
      obtain ⟨z, first⟩ := Option.isSome_iff_exists.mp found
      obtain ⟨i, j, _, _, start, spans, _⟩ := firstMatch_leftmost valid plain groups first
      exact ⟨i, j, start, spans⟩
    · rintro ⟨i, j, start, spans⟩
      have reading := sem_reading (.capture pattern) plain false 0 _ (starts_valid valid start)
      obtain ⟨z, member, _⟩ := (reading.2 j).mpr spans
      have all := mem_allMatches valid start z member
      simp only [firstMatch]
      cases places : allMatches (execContext folding program units isWide).toSubject pattern
          (startPlace program cindex) with
      | nil =>
          rw [places] at all
          cases all
      | cons first rest => rfl
  · intro found
    obtain ⟨z, first⟩ := Option.isSome_iff_exists.mp found
    obtain ⟨i, j, start, stop, _, spans, least⟩ := firstMatch_leftmost valid plain groups first
    rw [captured z first] at start stop
    exact ⟨i, j, start, stop, spans, least⟩

theorem lreExec_leftmost_pairs :
    ∃ fuel ret capture, lreExec keepCase pairsProgram pairUnits true 2 fuel = .done ret capture ∧
      (ret = true ↔ ∃ i j,
        Starts (execContext keepCase pairsProgram pairUnits true).toSubject 2 i ∧
          Spans (execContext keepCase pairsProgram pairUnits true).toSubject lettersOrPairs i j) ∧
      (ret = true → ∃ i j, capture[0]? = some (some i) ∧ capture[1]? = some (some j) ∧
        Spans (execContext keepCase pairsProgram pairUnits true).toSubject lettersOrPairs i j ∧
        ∀ k < i, Starts (execContext keepCase pairsProgram pairUnits true).toSubject 2 k →
          ∀ l, ¬ Spans (execContext keepCase pairsProgram pairUnits true).toSubject
            lettersOrPairs k l) :=
  lreExec_leftmost lettersOrPairs_compiled rfl pairUnits true (by decide) (.inr rfl)

end Search

end BreezeJs.Regexp
