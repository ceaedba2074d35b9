import BreezeJs.Regexp.Correct

set_option autoImplicit false

namespace BreezeJs.Regexp

open Choices

def Paired (capture : Captures) (i : Nat) : Prop :=
  (capture[2 * i]? = some none ∧ capture[2 * i + 1]? = some none) ∨
    ∃ start stop, capture[2 * i]? = some (some start) ∧ capture[2 * i + 1]? = some (some stop) ∧
      start ≤ stop

def Among (captures count i : Nat) : Prop :=
  captures ≤ i ∧ i < captures + count

structure Groups (captures count : Nat) (x y : Place) : Prop where
  paired : (∀ i, Among captures count i → Paired x.capture i) →
    ∀ i, Among captures count i → Paired y.capture i
  others : ∀ j, ¬ Among captures count (j / 2) → y.capture[j]? = x.capture[j]?

section Relation

variable {captures count : Nat} {x y z : Place}

theorem Groups.refl (x : Place) : Groups captures count x x :=
  ⟨id, fun _ _ => rfl⟩

theorem Groups.of_eq (same : y.capture = x.capture) : Groups captures count x y :=
  ⟨fun paired i among => same ▸ paired i among, fun _ _ => by rw [same]⟩

theorem Groups.trans (x y z : Place) (first : Groups captures count x y)
    (second : Groups captures count y z) : Groups captures count x z :=
  ⟨fun paired => second.paired (first.paired paired),
    fun j away => (second.others j away).trans (first.others j away)⟩

theorem Paired.same {a b : Captures} {i : Nat} (paired : Paired a i)
    (even : b[2 * i]? = a[2 * i]?) (odd : b[2 * i + 1]? = a[2 * i + 1]?) : Paired b i := by
  simpa only [Paired, even, odd] using paired

theorem Groups.widen {first size : Nat} (groups : Groups first size x y)
    (inside : ∀ i, Among first size i → Among captures count i) : Groups captures count x y := by
  constructor
  · intro paired i among
    by_cases own : Among first size i
    · exact groups.paired (fun i own => paired i (inside i own)) i own
    · have even : 2 * i / 2 = i := by omega
      have odd : (2 * i + 1) / 2 = i := by omega
      exact (paired i among).same (groups.others _ (by rwa [even])) (groups.others _ (by rwa [odd]))
  · intro j away
    exact groups.others j fun own => away (inside _ own)

theorem Paired.inside {capture : Captures} {i : Nat} (paired : Paired capture i) :
    2 * i + 1 < capture.length := by
  rcases paired with ⟨_, odd⟩ | ⟨start, stop, _, odd, _⟩
  · exact (List.getElem?_eq_some_iff.mp odd).1
  · exact (List.getElem?_eq_some_iff.mp odd).1

theorem unset_get (capture : Captures) (val j : Nat) :
    ((capture.set (2 * val) none).set (2 * val + 1) none)[j]? =
      if j / 2 = val ∧ j < capture.length then some none else capture[j]? := by
  by_cases inside : j < capture.length
  · by_cases odd : 2 * val + 1 = j
    · rw [← odd, List.getElem?_set_self (by simp; omega), if_pos (by omega)]
    · by_cases even : 2 * val = j
      · rw [List.getElem?_set_ne odd, ← even, List.getElem?_set_self (by omega), if_pos (by omega)]
      · rw [List.getElem?_set_ne odd, List.getElem?_set_ne even, if_neg (by omega)]
  · rw [if_neg (by omega), List.getElem?_eq_none (by simp; omega),
      List.getElem?_eq_none (by omega)]

theorem reset_get (vals : List Nat) (capture : Captures) (j : Nat) :
    (vals.foldl (fun capture val => (capture.set (2 * val) none).set (2 * val + 1) none)
      capture)[j]? = if j / 2 ∈ vals ∧ j < capture.length then some none else capture[j]? := by
  induction vals generalizing capture with
  | nil => simp
  | cons val rest ih =>
      rw [List.foldl_cons, ih, unset_get]
      simp only [List.length_set, List.mem_cons]
      by_cases inside : j < capture.length
      · by_cases here : j / 2 = val
        · simp [inside, here]
        · simp [inside, here]
      · simp [inside]

theorem resetCaptures_get (capture : Captures) (first last j : Nat) :
    (resetCaptures capture first last)[j]? =
      if (first ≤ j / 2 ∧ j / 2 ≤ last) ∧ j < capture.length then some none else capture[j]? := by
  have range : j / 2 ∈ List.range' first (last + 1 - first) ↔ first ≤ j / 2 ∧ j / 2 ≤ last := by
    rw [List.mem_range'_1]
    omega
  rw [resetCaptures, reset_get]
  simp only [range]

theorem Groups.reset (x : Place) : Groups captures count x (x.reset captures count) := by
  simp only [Place.reset]
  split
  · exact .refl x
  · next some =>
      constructor
      · intro paired i among
        have inside := (paired i among).inside
        have range : captures ≤ i ∧ i ≤ captures + count - 1 := by
          simp only [Among] at among
          omega
        have even : 2 * i / 2 = i := by omega
        have odd : (2 * i + 1) / 2 = i := by omega
        left
        simp only [resetCaptures_get, even, odd]
        exact ⟨if_pos ⟨range, by omega⟩, if_pos ⟨range, inside⟩⟩
      · intro j away
        rw [resetCaptures_get, if_neg]
        simp only [Among] at away
        omega

end Relation

section Matching

variable {subject : Subject} {total captures count : Nat} {x y z : Place}

def Captured (subject : Subject) (total captures count : Nat) (x y : Place) : Prop :=
  Sound subject total x → Sound subject total y ∧ Groups captures count x y

theorem Captured.refl (x : Place) : Captured subject total captures count x x :=
  fun sound => ⟨sound, Groups.refl x⟩

theorem Captured.trans (x y z : Place) (first : Captured subject total captures count x y)
    (second : Captured subject total captures count y z) :
    Captured subject total captures count x z := by
  intro sound
  have middle := first sound
  have last := second middle.1
  exact ⟨last.1, middle.2.trans x y z last.2⟩

theorem Captured.widen {first size : Nat} (captured : Captured subject total first size x y)
    (inside : ∀ i, Among first size i → Among captures count i) :
    Captured subject total captures count x y :=
  fun sound => ⟨(captured sound).1, (captured sound).2.widen inside⟩

theorem mark_get (x : Place) {i j : Nat} (apart : i ≠ j) :
    (x.mark i).capture[j]? = x.capture[j]? :=
  List.getElem?_set_ne apart

theorem mark_get_self (x : Place) {i : Nat} (inside : i < x.capture.length) :
    (x.mark i).capture[i]? = some (some x.cptr) :=
  List.getElem?_set_self inside

theorem marks_get (isBackward : Bool) (inside : captures < total) (sound : Sound subject total x)
    (last : Sound subject total y)
    (groups : Groups (captures + 1) count (x.mark (2 * captures + isBackward.toNat)) y) :
    (y.mark (2 * captures + (!isBackward).toNat)).capture[2 * captures + isBackward.toNat]? =
        some (some x.cptr) ∧
      (y.mark (2 * captures + (!isBackward).toNat)).capture[2 * captures + (!isBackward).toNat]? =
        some (some y.cptr) := by
  have size := sound.size
  have size' := last.size
  have outside : ¬ Among (captures + 1) count ((2 * captures + isBackward.toNat) / 2) := by
    simp only [Among]
    cases isBackward
    · simp
    · simp
      omega
  have within : 2 * captures + isBackward.toNat < x.capture.length ∧
      2 * captures + (!isBackward).toNat < y.capture.length ∧
      2 * captures + (!isBackward).toNat ≠ 2 * captures + isBackward.toNat := by
    cases isBackward <;> simp <;> omega
  constructor
  · rw [mark_get y within.2.2, groups.others _ outside]
    exact mark_get_self x within.1
  · exact mark_get_self y within.2.1

theorem marks_paired {isBackward : Bool} (inside : captures < total) (sound : Sound subject total x)
    (last : Sound subject total y)
    (way : Onward isBackward (x.mark (2 * captures + isBackward.toNat)) y)
    (groups : Groups (captures + 1) count (x.mark (2 * captures + isBackward.toNat)) y) :
    Paired (y.mark (2 * captures + (!isBackward).toNat)).capture captures := by
  have marks := marks_get isBackward inside sound last groups
  right
  cases isBackward with
  | false => exact ⟨x.cptr, y.cptr, marks.1, marks.2, way⟩
  | true => exact ⟨y.cptr, x.cptr, marks.2, marks.1, way⟩

theorem group_groups {isBackward : Bool}
    (own : Paired (y.mark (2 * captures + (!isBackward).toNat)).capture captures)
    (groups : Groups (captures + 1) count (x.mark (2 * captures + isBackward.toNat)) y) :
    Groups captures (count + 1) x (y.mark (2 * captures + (!isBackward).toNat)) := by
  have neither : ∀ j, j / 2 ≠ captures → 2 * captures + isBackward.toNat ≠ j ∧
      2 * captures + (!isBackward).toNat ≠ j := by
    intro j other
    cases isBackward <;> simp <;> omega
  constructor
  · intro paired i among
    by_cases same : i = captures
    · rw [same]
      exact own
    · have inner : ∀ i, Among (captures + 1) count i →
          Paired (x.mark (2 * captures + isBackward.toNat)).capture i := by
        intro i among
        simp only [Among] at among
        have even := neither (2 * i) (by omega)
        have odd := neither (2 * i + 1) (by omega)
        exact (paired i (by simp only [Among]; omega)).same (mark_get x even.1) (mark_get x odd.1)
      have even := neither (2 * i) (by omega)
      have odd := neither (2 * i + 1) (by omega)
      simp only [Among] at among
      exact (groups.paired inner i (by simp only [Among]; omega)).same (mark_get y even.2)
        (mark_get y odd.2)
  · intro j away
    simp only [Among] at away
    have apart := neither j (by omega)
    rw [mark_get y apart.2, groups.others j (by simp only [Among]; omega), mark_get x apart.1]

theorem readChar_captured {isBackward : Bool} (accepts : Nat → Bool) (x : Place) :
    ∀ y ∈ readChar subject isBackward accepts x, Captured subject total captures count x y := by
  intro y member sound
  refine ⟨(readChar_reaches accepts x y member sound).1, .of_eq ?_⟩
  simp only [readChar] at member
  split at member
  · simp at member
  · split at member
    · rw [List.mem_singleton.mp member]
    · simp at member

theorem sem_captured (node : Node) (isBackward : Bool) (captures : Nat) (x : Place)
    (inside : captures + node.captures ≤ total) :
    ∀ y ∈ sem subject node isBackward captures x,
      Captured subject total captures node.captures x y := by
  have reached : ∀ {node isBackward captures} {x y : Place}, Sound subject total x →
      y ∈ sem subject node isBackward captures x → Sound subject total y :=
    fun sound member => (sem_reaches _ _ _ _ _ member sound).1
  induction node generalizing isBackward captures x with
  | empty =>
      intro y member
      rw [List.mem_singleton.mp member]
      exact .refl x
  | lineStart | lineEnd | wordBoundary =>
      intro y member
      simp only [sem, assertion] at member
      split at member
      · rw [List.mem_singleton.mp member]
        exact .refl x
      · simp at member
  | char | dot | charSet | charClass => exact readChar_captured _ x
  | backReference capture =>
      intro y member sound
      refine ⟨reached sound member, .of_eq ?_⟩
      simp only [sem, readCapture] at member
      split at member
      · split at member
        · rw [List.mem_singleton.mp member]
        · simp at member
      · rw [List.mem_singleton.mp member]
      · simp at member
  | capture body ih =>
      intro z member sound
      obtain ⟨y, inner, rfl⟩ := List.mem_map.mp member
      simp only [Node.captures] at inside
      have marked := sound.mark (2 * captures + isBackward.toNat)
      have body_ := ih isBackward (captures + 1) _ (by omega) y inner marked
      have way := (sem_reaches body isBackward (captures + 1) _ y inner marked).2
      have own := marks_paired (by omega) sound body_.1 way body_.2
      exact ⟨body_.1.mark _, group_groups own body_.2⟩
  | lookaround isNeg ahead body ih =>
      intro z member sound
      refine ⟨reached sound member, ?_⟩
      simp only [sem] at member
      split at member
      · next y found =>
          rw [List.mem_singleton.mp member]
          have inner := (ih ahead captures x inside y (List.mem_of_mem_head? found) sound).2
          exact ⟨inner.paired, inner.others⟩
      · rw [List.mem_singleton.mp member]
        exact .refl x
      · simp at member
  | seq first rest ihFirst ihRest =>
      intro z member
      simp only [Node.captures] at inside
      have early : ∀ x, ∀ y ∈ sem subject first isBackward captures x,
          Captured subject total captures (first.captures + rest.captures) x y :=
        fun x y member => (ihFirst isBackward captures x (by omega) y member).widen
          (by simp only [Among]; omega)
      have late : ∀ x, ∀ y ∈ sem subject rest isBackward (captures + first.captures) x,
          Captured subject total captures (first.captures + rest.captures) x y :=
        fun x y member => (ihRest isBackward _ x (by omega) y member).widen
          (by simp only [Among]; omega)
      simp only [sem] at member
      split at member
      · obtain ⟨y, one, two⟩ := List.mem_flatMap.mp member
        exact (late x y one).trans x y z (early y z two)
      · obtain ⟨y, one, two⟩ := List.mem_flatMap.mp member
        exact (early x y one).trans x y z (late y z two)
  | alt left right ihLeft ihRight =>
      intro y member
      simp only [Node.captures] at inside
      rcases List.mem_append.mp member with first | second
      · exact (ihLeft isBackward captures x (by omega) y first).widen
          (by simp only [Among, Node.captures]; omega)
      · exact (ihRight isBackward _ x (by omega) y second).widen
          (by simp only [Among, Node.captures]; omega)
  | quant q atom ih =>
      intro y member sound
      have round := @quantified_related subject _ Captured.refl Captured.trans _
        (fun x => ih isBackward captures x inside) q
      simp only [sem] at member
      split at member
      · have reached := round _ y member (sound.reset captures atom.captures)
        exact ⟨reached.1, (Groups.reset x).trans _ _ _ reached.2⟩
      · exact round x y member sound

theorem allMatches_captured (pattern : Node) (x : Place) (inside : pattern.captures + 1 ≤ total) :
    ∀ y ∈ allMatches subject pattern x,
      Captured subject total 0 (pattern.captures + 1) x y := by
  have whole : ∀ x, ∀ y ∈ sem subject (.capture pattern) false 0 x,
      Captured subject total 0 (pattern.captures + 1) x y :=
    fun x => sem_captured (.capture pattern) false 0 x (by simpa [Node.captures] using inside)
  intro z member
  simp only [allMatches] at member
  split at member
  · exact whole x z member
  · obtain ⟨y, start, later⟩ := List.mem_flatMap.mp member
    have moved : Captured subject total 0 (pattern.captures + 1) x y :=
      upTo_related Captured.refl Captured.trans (readChar_captured _) _ _ x y start
    exact moved.trans x y z (whole y z later)

end Matching

/-- When `lre_exec` returns 1 from a boundary between characters, every group of the pattern has
captured nothing, or a part of the subject that ends where it begins or later. -/
theorem lreExec_groups {folding : CaseFolding} {flags : Flags} {pattern : Node} {program : Program}
    (compiled : lreCompile folding flags pattern = .ok program) (units : List UInt16)
    (isWide : Bool) {cindex : Nat} (inside : cindex ≤ units.length)
    (aligned : (execContext folding program units isWide).input.Aligned cindex) {fuel : Nat}
    {capture : Captures}
    (matched : lreExec folding program units isWide cindex fuel = .done true capture) :
    (∀ i < program.captureCount, Paired capture i) ∧
      ∀ p, some p ∈ capture → p ≤ units.length := by
  have returned := firstMatch_of_done compiled units isWide inside aligned matched
  obtain ⟨y, first⟩ := Option.isSome_iff_exists.mp returned.1.symm
  have same : y.capture = capture := returned.2 y first
  obtain ⟨rfl, _, code, emits, _⟩ := lreCompile_ok compiled
  have count : program.captureCount = pattern.captures + 1 := by
    have counted := emits.count
    simpa [Node.captures] using counted
  have start := startPlace_valid units isWide inside aligned
  have reached := allMatches_captured pattern _ (Nat.le_of_eq count.symm) y
    (List.mem_of_mem_head? first) start
  constructor
  · intro i group
    rw [← same]
    apply reached.2.paired _ i ⟨Nat.zero_le i, by omega⟩
    intro i among
    simp only [Among] at among
    left
    simp only [startPlace, List.getElem?_replicate]
    exact ⟨if_pos (by omega), if_pos (by omega)⟩
  · rw [← same]
    exact reached.1.captured

theorem lreExec_groups_pairs :
    (∀ i < 2, Paired [some 2, some 6, some 3, some 5] i) ∧
      ∀ p, some p ∈ [some 2, some 6, some 3, some 5] → p ≤ pairUnits.length := by
  have matched : lreExec keepCase pairsProgram pairUnits true 2 100 =
      .done true [some 2, some 6, some 3, some 5] := by
    decide +kernel
  exact lreExec_groups lettersOrPairs_compiled pairUnits true (by decide) (.inr rfl) matched

end BreezeJs.Regexp
