import BreezeJs.Regexp.Exec

set_option autoImplicit false

namespace BreezeJs.Regexp

open Unicode (CharRange uint32Max)

def inRanges (ranges : List (Nat × Nat)) (c : Nat) : Bool :=
  ranges.any fun r => decide (r.1 ≤ c) && decide (c ≤ r.2)

def Search.of (inside : Bool) : Search :=
  if inside then .found else .absent

section Searching

variable {ranges : List (Nat × Nat)} {c : Nat}

theorem inRanges_iff : inRanges ranges c = true ↔ ∃ r ∈ ranges, r.1 ≤ c ∧ c ≤ r.2 := by
  simp [inRanges]

theorem absent_of (idx : Nat) (below : ∀ i r, ranges[i]? = some r → i < idx → r.2 < c)
    (above : ∀ i r, ranges[i]? = some r → idx ≤ i → c < r.1) : inRanges ranges c = false := by
  rw [Bool.eq_false_iff]
  intro found
  obtain ⟨r, member, low, high⟩ := inRanges_iff.mp found
  obtain ⟨i, here⟩ := List.mem_iff_getElem?.mp member
  by_cases before : i < idx
  · have less := below i r here before
    omega
  · have greater := above i r here (by omega)
    omega

theorem previous_index {idx : Nat} (positive : 0 < idx) (short : idx ≤ uint32Max) :
    (idx + uint32Max) % (uint32Max + 1) = idx - 1 := by
  have whole : idx + uint32Max = (idx - 1) + (uint32Max + 1) := by omega
  rw [whole, Nat.add_mod_right, Nat.mod_eq_of_lt (by omega)]

theorem ranges_order (sorted : ranges.Pairwise fun a b => a.2 < b.1) {i j : Nat} {a b : Nat × Nat}
    (atI : ranges[i]? = some a) (atJ : ranges[j]? = some b) (less : i < j) : a.2 < b.1 := by
  obtain ⟨_, rfl⟩ := List.getElem?_eq_some_iff.mp atI
  obtain ⟨_, rfl⟩ := List.getElem?_eq_some_iff.mp atJ
  exact List.pairwise_iff_getElem.mp sorted i j _ _ less

-- The invariant: what stands outside of the bounds does not contain the character.
theorem searchRange_spec (sorted : ranges.Pairwise fun a b => a.2 < b.1)
    (proper : ∀ r ∈ ranges, r.1 ≤ r.2) (short : ranges.length ≤ uint32Max)
    (first : ∀ r, ranges[0]? = some r → r.1 ≤ c) {fuel idxMin idxMax : Nat}
    (enough : idxMax + 2 ≤ idxMin + fuel) (close : idxMin ≤ idxMax + 1)
    (inside : idxMax < ranges.length)
    (below : ∀ i r, ranges[i]? = some r → i < idxMin → r.2 < c)
    (above : ∀ i r, ranges[i]? = some r → idxMax < i → c < r.1) :
    searchRange ranges c fuel idxMin idxMax = Search.of (inRanges ranges c) := by
  induction fuel generalizing idxMin idxMax with
  | zero => omega
  | succ fuel ih =>
      simp only [searchRange]
      by_cases more : idxMin ≤ idxMax
      · obtain ⟨idx, middle⟩ : ∃ idx, idx = (idxMin + idxMax) / 2 := ⟨_, rfl⟩
        have room : idx < ranges.length := by omega
        obtain ⟨⟨low, high⟩, here⟩ : ∃ r, ranges[idx]? = some r :=
          ⟨_, List.getElem?_eq_getElem room⟩
        have member := List.mem_of_getElem? here
        have ends : low ≤ high := proper _ member
        simp only [more, if_true, ← middle, here]
        by_cases less : c < low
        · have positive : 0 < idx := by
            by_contra zero
            rw [Nat.eq_zero_of_not_pos zero] at here
            exact absurd (first _ here) (by simpa using less)
          rw [if_pos less, previous_index positive (by omega)]
          refine ih (by omega) (by omega) (by omega) below fun i r other past => ?_
          rcases Nat.lt_or_eq_of_le (show idx ≤ i by omega) with later | same
          · have greater : high < r.1 := ranges_order sorted here other later
            omega
          · rw [← same, here] at other
            cases other
            exact less
        · rw [if_neg less]
          by_cases greater : high < c
          · rw [if_pos greater]
            refine ih (by omega) (by omega) inside (fun i r other before => ?_) above
            rcases Nat.lt_or_eq_of_le (show i ≤ idx by omega) with earlier | same
            · have smaller : r.2 < low := ranges_order sorted other here earlier
              omega
            · rw [same, here] at other
              cases other
              exact greater
          · have found : inRanges ranges c = true :=
              inRanges_iff.mpr ⟨_, member, by simpa using less, by simpa using greater⟩
            rw [if_neg greater, found]
            rfl
      · have none := absent_of idxMin below fun i r other past => above i r other (by omega)
        rw [if_neg more, none]
        rfl

theorem findRange_spec {first last : Nat × Nat} (head : ranges.head? = some first)
    (tail : ranges.getLast? = some last) (sorted : ranges.Pairwise fun a b => a.2 < b.1)
    (proper : ∀ r ∈ ranges, r.1 ≤ r.2) (short : ranges.length ≤ uint32Max) {infinite : Nat → Bool}
    (finite : infinite last.2 = false) :
    findRange ranges c infinite = Search.of (inRanges ranges c) := by
  rw [List.head?_eq_getElem?] at head
  rw [List.getLast?_eq_getElem?] at tail
  have nonempty : 0 < ranges.length := (List.getElem?_eq_some_iff.mp head).1
  simp only [findRange, List.head?_eq_getElem?, List.getLast?_eq_getElem?, head, tail, finite,
    Bool.false_eq_true, if_false]
  by_cases low : c < first.1
  · have none : inRanges ranges c = false := by
      apply absent_of 0 fun i r _ before => absurd before (Nat.not_lt_zero i)
      intro i r here _
      rcases Nat.eq_zero_or_pos i with rfl | later
      · rw [head] at here
        cases here
        exact low
      · have greater := ranges_order sorted head here later
        have ends := proper first (List.mem_of_getElem? head)
        omega
    rw [if_pos low, none]
    rfl
  · rw [if_neg low]
    by_cases high : last.2 < c
    · have none : inRanges ranges c = false := by
        apply absent_of ranges.length
        · intro i r here inside
          rcases Nat.lt_or_eq_of_le (show i ≤ ranges.length - 1 by omega) with earlier | same
          · have less := ranges_order sorted here tail earlier
            have ends := proper last (List.mem_of_getElem? tail)
            omega
          · rw [same, tail] at here
            cases here
            exact high
        · intro i r here past
          exact absurd (List.getElem?_eq_some_iff.mp here).1 (by omega)
      rw [if_pos high, none]
      rfl
    · rw [if_neg high]
      apply searchRange_spec sorted proper short _ (by omega) (by omega) (by omega)
      · intro i r _ before
        exact absurd before (Nat.not_lt_zero i)
      · intro i r here past
        exact absurd (List.getElem?_eq_some_iff.mp here).1 (by omega)
      · intro r here
        rw [head] at here
        cases here
        exact Nat.le_of_not_lt low

end Searching

section Emitted

variable {cr : CharRange} {c : Nat}

theorem contains_iff (cr : CharRange) (c : Nat) :
    cr.contains c = true ↔
      ∃ interval ∈ Boundaries.intervals cr.points, interval.1 ≤ c ∧ c < interval.2 :=
  Boundaries.inside_iff cr.sorted cr.even c

def written (cr : CharRange) (upper : Nat × Nat → Nat) : List (Nat × Nat) :=
  (Boundaries.intervals cr.points).map fun i => (i.1, upper i)

theorem inRanges_written {upper : Nat × Nat → Nat}
    (same : ∀ i ∈ Boundaries.intervals cr.points, i.1 ≤ c → (c ≤ upper i ↔ c < i.2)) :
    inRanges (written cr upper) c = cr.contains c := by
  rw [Bool.eq_iff_iff, inRanges_iff, contains_iff]
  constructor
  · rintro ⟨r, member, low, high⟩
    obtain ⟨i, here, rfl⟩ := List.mem_map.mp member
    exact ⟨i, here, low, (same i here low).mp high⟩
  · rintro ⟨i, here, low, high⟩
    exact ⟨_, List.mem_map_of_mem here, low, (same i here low).mpr high⟩

theorem first_of_last {ranges : List (Nat × Nat)} {last : Nat × Nat}
    (tail : ranges.getLast? = some last) : ∃ first, ranges.head? = some first := by
  cases ranges with
  | nil => cases tail
  | cons first rest => exact ⟨first, rfl⟩

theorem findRange_written {upper : Nat × Nat → Nat} {infinite : Nat → Bool} {last : Nat × Nat}
    (short : cr.points.length / 2 < 65535)
    (tail : (Boundaries.intervals cr.points).getLast? = some last)
    (ends : ∀ i ∈ Boundaries.intervals cr.points, i.1 ≤ upper i ∧ upper i < i.2)
    (same : ∀ i ∈ Boundaries.intervals cr.points, i.1 ≤ c → (c ≤ upper i ↔ c < i.2))
    (finite : infinite (upper last) = false) :
    findRange (written cr upper) c infinite = Search.of (cr.contains c) := by
  obtain ⟨first, head⟩ := first_of_last tail
  have head' : (written cr upper).head? = some (first.1, upper first) := by simp [written, head]
  have tail' : (written cr upper).getLast? = some (last.1, upper last) := by simp [written, tail]
  rw [← inRanges_written same]
  apply findRange_spec head' tail' _ _ _ finite
  · simp only [written, List.pairwise_map]
    apply (Boundaries.intervals_sorted cr.sorted).imp_of_mem
    intro a b memberA _ apart
    exact (ends a memberA).2.trans_le apart
  · intro r member
    obtain ⟨i, here, rfl⟩ := List.mem_map.mp member
    exact (ends i here).1
  · simp only [written, List.length_map, Boundaries.length_intervals, uint32Max]
    omega

def Narrow (cr : CharRange) : Prop :=
  ∀ p ∈ cr.points, p ≤ 0xffff ∨ p = uint32Max

def last16 (high : Nat) : Nat :=
  if high = uint32Max then 0xffff else high - 1

theorem pairs16_eq (narrow : Narrow cr) : pairs16 cr = written cr fun i => last16 i.2 := by
  apply List.map_congr_left
  intro interval member
  have ends := Boundaries.intervals_mem member
  have proper := cr.proper interval member
  have low := narrow _ ends.1
  have high := narrow _ ends.2
  have most := cr.bounded _ ends.2
  simp only [Prod.mk.injEq, last16]
  constructor
  · apply Nat.mod_eq_of_lt
    omega
  · by_cases infinity : interval.2 = uint32Max
    · simp [infinity, uint32Max]
    · rw [if_neg infinity, if_neg (by omega), Nat.mod_eq_of_lt (by omega)]

theorem pairs32_eq (cr : CharRange) : pairs32 cr = written cr fun i => i.2 - 1 := rfl

theorem narrow_of {last start : Nat} {rest : List Nat}
    (points : cr.points.reverse = last :: start :: rest)
    (high : (if last = uint32Max then start else last) ≤ 0xffff) : Narrow cr := by
  have order : cr.points = rest.reverse ++ [start, last] := by
    rw [← List.reverse_reverse cr.points, points]
    simp
  have sorted := cr.sorted
  rw [order, List.pairwise_append] at sorted
  intro p member
  rw [order, List.mem_append] at member
  have less : start ≤ last := by simpa using sorted.2.1
  have small : p ≤ start ∨ p = last := by
    rcases member with early | late
    · exact .inl (sorted.2.2 p early start (by simp))
    · rcases List.mem_cons.mp late with rfl | final
      · exact .inl (Nat.le_refl p)
      · exact .inr (List.mem_singleton.mp final)
  split_ifs at high with infinity
  · rcases small with below | rfl
    · exact .inl (below.trans high)
    · exact .inr infinity
  · left
    omega

theorem last_interval {last start : Nat} {rest : List Nat}
    (points : cr.points.reverse = last :: start :: rest) :
    ∃ i, (Boundaries.intervals cr.points).getLast? = some i := by
  cases intervals : Boundaries.intervals cr.points with
  | nil =>
      have size := Boundaries.length_intervals cr.points
      rw [intervals, List.length_nil, ← List.length_reverse, points] at size
      simp only [List.length_cons] at size
      omega
  | cons first more => exact ⟨_, List.getLast?_eq_some_getLast (by simp)⟩

theorem findRange_pairs32 {i : Nat × Nat} (short : cr.points.length / 2 < 65535)
    (tail : (Boundaries.intervals cr.points).getLast? = some i) (c : Nat) :
    findRange (pairs32 cr) c (fun _ => false) = Search.of (cr.contains c) := by
  rw [pairs32_eq]
  apply findRange_written short tail
  · intro i member
    have proper := cr.proper i member
    omega
  · intro i member _
    have proper := cr.proper i member
    omega
  · rfl

theorem before_last {last i : Nat × Nat}
    (tail : (Boundaries.intervals cr.points).getLast? = some last)
    (member : i ∈ Boundaries.intervals cr.points) : i = last ∨ i.2 ≤ last.1 := by
  have sorted := Boundaries.intervals_sorted cr.sorted
  obtain ⟨before, split⟩ := List.getLast?_eq_some_iff.mp tail
  rw [split] at member sorted
  rcases List.mem_append.mp member with early | late
  · exact .inr ((List.pairwise_append.mp sorted).2.2 i early last (by simp))
  · exact .inl (List.mem_singleton.mp late)

theorem findRange_pairs16 {last : Nat × Nat} (short : cr.points.length / 2 < 65535)
    (narrow : Narrow cr) (tail : (Boundaries.intervals cr.points).getLast? = some last)
    (small : c < uint32Max) :
    findRange (pairs16 cr) c (fun high => decide (0xffff ≤ c) && high == 0xffff) =
      Search.of (cr.contains c) := by
  have facts : ∀ i ∈ Boundaries.intervals cr.points, i.1 ≤ 0xffff ∧ i.1 < i.2 ∧ i.2 ≤ uint32Max ∧
      (last16 i.2 = 0xffff ↔ i.2 = uint32Max) := by
    intro i member
    have ends := Boundaries.intervals_mem member
    have proper := cr.proper i member
    have low := narrow _ ends.1
    have high := narrow _ ends.2
    have most := cr.bounded _ ends.2
    simp only [last16]
    split_ifs with infinity
    · have first : i.1 ≠ uint32Max := by omega
      exact ⟨low.resolve_right first, proper, most, by simp [infinity]⟩
    · have narrow := high.resolve_right infinity
      refine ⟨by omega, proper, most, ?_⟩
      simp only [infinity, iff_false]
      omega
  have final := facts last (List.mem_of_getLast? tail)
  rw [pairs16_eq narrow]
  by_cases infinite : 0xffff ≤ c ∧ last16 last.2 = 0xffff
  · have found : cr.contains c = true := by
      rw [contains_iff]
      refine ⟨last, List.mem_of_getLast? tail, by omega, ?_⟩
      rw [final.2.2.2.mp infinite.2]
      exact small
    obtain ⟨first, head⟩ := first_of_last tail
    have low := facts first (List.mem_of_head? head)
    have notBelow : ¬ c < first.1 := by omega
    simp [findRange, written, head, tail, notBelow, infinite, found, Search.of]
  · apply findRange_written short tail
    · intro i member
      have bounds := facts i member
      simp only [last16]
      split_ifs
      · simp only [uint32Max] at *
        omega
      · omega
    · intro i member _
      have bounds := facts i member
      by_cases infinity : i.2 = uint32Max
      · have less : c < 0xffff := by
          by_contra greater
          rcases before_last tail member with rfl | before
          · exact infinite ⟨by omega, bounds.2.2.2.mpr infinity⟩
          · omega
        simp only [last16, if_pos infinity]
        omega
      · simp only [last16, if_neg infinity]
        omega
    · simpa using infinite

end Emitted

end BreezeJs.Regexp
