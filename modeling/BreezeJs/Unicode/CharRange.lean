import BreezeJs.Library.Boundaries
import Mathlib.Order.Nat

set_option autoImplicit false

namespace BreezeJs.Unicode

open Boundaries

def uint32Max : Nat := 4294967295

-- Intervals in order, none of them empty. They may touch, as those do that
-- `unicode_general_category1` adds one by one.
structure CharRange where
  points : List Nat
  sorted : points.Pairwise (· ≤ ·)
  proper : ∀ interval ∈ intervals points, interval.1 < interval.2
  even : points.length % 2 = 0
  bounded : ∀ p ∈ points, p ≤ uint32Max

namespace CharRange

def contains (cr : CharRange) (c : Nat) : Bool :=
  inside cr.points c

end CharRange

-- `cr_compress`; `current` is the interval that the inner loop has reached.
def crCompress (current : Option (Nat × Nat)) (points : List Nat) : List Nat :=
  match current, points with
  | none, lo :: hi :: points =>
      if lo = hi then crCompress none points else crCompress (some (lo, hi)) points
  | some (start, stop), lo :: hi :: points =>
      if stop = lo then crCompress (some (start, hi)) points
      else start :: stop ::
        (if lo = hi then crCompress none points else crCompress (some (lo, hi)) points)
  | some (start, stop), _ => [start, stop]
  | none, _ => []

inductive CharRangeOp where
  | union
  | inter
  | xor
deriving DecidableEq, Repr

def CharRangeOp.isIn : CharRangeOp → Bool → Bool → Bool
  | .union, a, b => a || b
  | .inter, a, b => a && b
  | .xor, a, b => Bool.xor a b

-- What is left of the two lists in `cr_op`, with the parities of `a_idx` and `b_idx`.
structure Merging where
  aIn : Bool
  bIn : Bool
  a : List Nat
  b : List Nat
deriving DecidableEq, Repr

def Merging.next (m : Merging) : Option (Nat × Merging) :=
  match m.a, m.b with
  | x :: a, y :: b =>
      if x < y then some (x, { m with aIn := !m.aIn, a := a })
      else if x = y then some (x, { aIn := !m.aIn, bIn := !m.bIn, a := a, b := b })
      else some (y, { m with bIn := !m.bIn, b := b })
  | x :: a, [] => some (x, { m with aIn := !m.aIn, a := a })
  | [], y :: b => some (y, { m with bIn := !m.bIn, b := b })
  | [], [] => none

-- `out` is the parity of `cr->len`.
def crOpLoop (op : CharRangeOp) : Nat → Bool → Merging → List Nat
  | 0, _, _ => []
  | fuel + 1, out, m =>
      match m.next with
      | none => []
      | some (v, n) =>
          let isIn := op.isIn n.aIn n.bIn
          if isIn != out then v :: crOpLoop op fuel isIn n else crOpLoop op fuel out n

def crOpPoints (op : CharRangeOp) (a b : List Nat) : List Nat :=
  crCompress none (crOpLoop op (a.length + b.length) false ⟨false, false, a, b⟩)

def crInvertPoints (points : List Nat) : List Nat :=
  crCompress none (0 :: points ++ [uint32Max])

-- The points that `cr_compress` has read and not yet written.
def held : Option (Nat × Nat) → List Nat
  | none => []
  | some (start, stop) => [start, stop]

theorem nil_of_short {points : List Nat} (even : points.length % 2 = 0)
    (short : ∀ lo hi rest, points = lo :: hi :: rest → False) : points = [] := by
  match points with
  | [] => rfl
  | [_] => simp at even
  | lo :: hi :: rest => exact absurd rfl (short lo hi rest)

theorem inside_crCompress (current : Option (Nat × Nat)) (points : List Nat)
    (even : points.length % 2 = 0) (c : Nat) :
    inside (crCompress current points) c = inside (held current ++ points) c := by
  induction current, points using crCompress.induct with
  | case1 hi points ih =>
      simp only [List.length_cons] at even
      have onward := ih (by omega)
      simpa [crCompress, held, inside] using onward
  | case2 lo hi points differs ih =>
      simp only [List.length_cons] at even
      have onward := ih (by omega)
      simpa [crCompress, differs, held, inside] using onward
  | case3 start lo hi points ih =>
      simp only [List.length_cons] at even
      have onward := ih (by omega)
      simpa [crCompress, held, inside] using onward
  | case4 start stop lo hi points apart none some =>
      simp only [List.length_cons] at even
      have skipped := none (by omega)
      have onward := some (by omega)
      by_cases empty : lo = hi
      · simp_all [crCompress, held, inside]
      · simp_all [crCompress, held, inside]
  | case5 points start stop short =>
      simp [nil_of_short even short, crCompress, held]
  | case6 points short =>
      simp [nil_of_short even short, crCompress, held]

theorem crCompress_canonical (current : Option (Nat × Nat)) (points : List Nat)
    (even : points.length % 2 = 0) (ordered : (held current ++ points).Pairwise (· ≤ ·))
    (proper : ∀ start stop, current = some (start, stop) → start < stop) :
    (crCompress current points).Pairwise (· < ·) ∧
      (crCompress current points).length % 2 = 0 ∧
      ∀ p ∈ crCompress current points, p ∈ held current ++ points := by
  induction current, points using crCompress.induct with
  | case1 hi points ih =>
      simp only [List.length_cons] at even
      simp only [held, List.nil_append, List.pairwise_cons] at ordered
      have onward := ih (by omega) (by simpa [held] using ordered.2.2) (by simp)
      simp only [crCompress, if_true]
      refine ⟨onward.1, onward.2.1, fun p member => ?_⟩
      have kept := onward.2.2 p member
      simp_all [held]
  | case2 lo hi points differs ih =>
      simp only [List.length_cons] at even
      have less : lo < hi := by
        simp only [held, List.nil_append, List.pairwise_cons, List.forall_mem_cons] at ordered
        omega
      have onward := ih (by omega) (by simpa [held] using ordered) (by simpa using less)
      simpa [crCompress, differs, held] using onward
  | case3 start lo hi points ih =>
      simp only [List.length_cons] at even
      have below := proper start lo rfl
      simp only [held, List.cons_append, List.nil_append, List.pairwise_cons,
        List.forall_mem_cons] at ordered
      have onward := ih (by omega) (by simp_all [held]) (by simp; omega)
      simp only [crCompress, if_true]
      refine ⟨onward.1, onward.2.1, fun p member => ?_⟩
      have kept := onward.2.2 p member
      simp only [held, List.cons_append, List.nil_append, List.mem_cons] at kept ⊢
      tauto
  | case4 start stop lo hi points apart skip keep =>
      simp only [List.length_cons] at even
      have below := proper start stop rfl
      simp only [held, List.cons_append, List.nil_append, List.pairwise_cons,
        List.forall_mem_cons] at ordered
      obtain ⟨_, ⟨stopLo, _, _⟩, ⟨loHi, loRest⟩, hiRest, sorted⟩ := ordered
      generalize written : (if lo = hi then crCompress none points
        else crCompress (some (lo, hi)) points) = tail
      have rest : tail.Pairwise (· < ·) ∧ tail.length % 2 = 0 ∧
          ∀ p ∈ tail, p ∈ lo :: hi :: points := by
        rw [← written]
        split_ifs with empty
        · have onward := skip (by omega) (by simpa [held] using sorted) (by simp)
          refine ⟨onward.1, onward.2.1, fun p member => ?_⟩
          have kept := onward.2.2 p member
          simp_all [held]
        · have onward := keep (by omega) (by simp_all [held]) (by simp; omega)
          simpa [held] using onward
      have later : ∀ p ∈ tail, stop < p := by
        intro p member
        rcases List.mem_cons.mp (rest.2.2 p member) with rfl | member
        · omega
        · rcases List.mem_cons.mp member with rfl | member
          · omega
          · have bound := loRest p member
            omega
      have result : crCompress (some (start, stop)) (lo :: hi :: points) =
          start :: stop :: tail := by
        rw [← written]
        simp [crCompress, apart]
      simp only [result, List.pairwise_cons, List.forall_mem_cons, List.length_cons, held,
        List.cons_append, List.nil_append]
      refine ⟨⟨⟨below, fun p member => below.trans (later p member)⟩, later, rest.1⟩, by omega,
        by simp, by simp, fun p member => ?_⟩
      have kept := rest.2.2 p member
      exact List.mem_cons_of_mem _ (List.mem_cons_of_mem _ kept)
  | case5 points start stop short =>
      have below := proper start stop rfl
      simp [nil_of_short even short, crCompress, held, below]
  | case6 points short =>
      simp [crCompress]

namespace Merging

def points (m : Merging) : List Nat :=
  m.a ++ m.b

def Sorted (m : Merging) : Prop :=
  m.a.Pairwise (· ≤ ·) ∧ m.b.Pairwise (· ≤ ·)

def Closed (m : Merging) : Prop :=
  m.a.length % 2 = m.aIn.toNat ∧ m.b.length % 2 = m.bIn.toNat

def status (op : CharRangeOp) (m : Merging) (c : Nat) : Bool :=
  op.isIn (xor m.aIn (inside m.a c)) (xor m.bIn (inside m.b c))

structure Reads (m : Merging) (v : Nat) (n : Merging) : Prop where
  sorted : n.Sorted
  closed : m.Closed → n.Closed
  least : ∀ p ∈ m.points, v ≤ p
  later : ∀ p ∈ n.points, v ≤ p
  present : v ∈ m.points
  kept : ∀ p ∈ n.points, p ∈ m.points
  fewer : n.points.length < m.points.length
  same : ∀ op c, v ≤ c → n.status op c = m.status op c

variable {m n : Merging} {v : Nat}

theorem closed_cons {size : Nat} {isIn : Bool} (closed : (size + 1) % 2 = isIn.toNat) :
    size % 2 = (!isIn).toNat := by
  cases isIn
  · simp at closed ⊢
    omega
  · simp at closed ⊢
    omega

theorem reads_a {aIn bIn : Bool} {x : Nat} {a b : List Nat}
    (sorted : Sorted ⟨aIn, bIn, x :: a, b⟩) (before : ∀ y ∈ b, x ≤ y) :
    Reads ⟨aIn, bIn, x :: a, b⟩ x ⟨!aIn, bIn, a, b⟩ := by
  simp only [Sorted, List.pairwise_cons] at sorted
  constructor
  · exact ⟨sorted.1.2, sorted.2⟩
  · rintro ⟨aClosed, bClosed⟩
    exact ⟨closed_cons aClosed, bClosed⟩
  · intro p member
    simp only [points, List.cons_append, List.mem_cons, List.mem_append] at member
    rcases member with rfl | later | other
    · exact le_refl _
    · exact sorted.1.1 p later
    · exact before p other
  · intro p member
    exact (List.mem_append.mp member).elim (sorted.1.1 p) (before p)
  · simp [points]
  · intro p member
    exact List.mem_cons_of_mem x member
  · simp [points]
  · intro op c past
    simp [status, inside, past]

theorem reads_b {aIn bIn : Bool} {y : Nat} {a b : List Nat}
    (sorted : Sorted ⟨aIn, bIn, a, y :: b⟩) (before : ∀ x ∈ a, y ≤ x) :
    Reads ⟨aIn, bIn, a, y :: b⟩ y ⟨aIn, !bIn, a, b⟩ := by
  simp only [Sorted, List.pairwise_cons] at sorted
  constructor
  · exact ⟨sorted.1, sorted.2.2⟩
  · rintro ⟨aClosed, bClosed⟩
    exact ⟨aClosed, closed_cons bClosed⟩
  · intro p member
    simp only [points, List.mem_append, List.mem_cons] at member
    rcases member with other | rfl | later
    · exact before p other
    · exact le_refl _
    · exact sorted.2.1 p later
  · intro p member
    exact (List.mem_append.mp member).elim (before p) (sorted.2.1 p)
  · simp [points]
  · intro p member
    simp only [points, List.mem_append, List.mem_cons] at member ⊢
    tauto
  · simp [points]
  · intro op c past
    simp [status, inside, past]

theorem reads_both {aIn bIn : Bool} {x : Nat} {a b : List Nat}
    (sorted : Sorted ⟨aIn, bIn, x :: a, x :: b⟩) :
    Reads ⟨aIn, bIn, x :: a, x :: b⟩ x ⟨!aIn, !bIn, a, b⟩ := by
  simp only [Sorted, List.pairwise_cons] at sorted
  constructor
  · exact ⟨sorted.1.2, sorted.2.2⟩
  · rintro ⟨aClosed, bClosed⟩
    exact ⟨closed_cons aClosed, closed_cons bClosed⟩
  · intro p member
    simp only [points, List.cons_append, List.mem_cons, List.mem_append] at member
    rcases member with rfl | later | rfl | later
    · exact le_refl _
    · exact sorted.1.1 p later
    · exact le_refl _
    · exact sorted.2.1 p later
  · intro p member
    exact (List.mem_append.mp member).elim (sorted.1.1 p) (sorted.2.1 p)
  · simp [points]
  · intro p member
    simp only [points, List.cons_append, List.mem_append, List.mem_cons] at member ⊢
    tauto
  · simp only [points, List.cons_append, List.length_cons, List.length_append]
    omega
  · intro op c past
    simp [status, inside, past]

theorem next_some (taken : m.next = some (v, n)) (sorted : m.Sorted) : m.Reads v n := by
  obtain ⟨aIn, bIn, a, b⟩ := m
  have ordered := sorted
  simp only [Sorted] at ordered
  cases a with
  | nil =>
      cases b with
      | nil => simp [next] at taken
      | cons y b =>
          cases taken
          exact reads_b sorted (by simp)
  | cons x a =>
      cases b with
      | nil =>
          cases taken
          exact reads_a sorted (by simp)
      | cons y b =>
          simp only [next] at taken
          simp only [List.pairwise_cons] at ordered
          split_ifs at taken with less same
          · cases taken
            refine reads_a sorted ?_
            rw [List.forall_mem_cons]
            exact ⟨less.le, fun z member => less.le.trans (ordered.2.1 z member)⟩
          · subst same
            cases taken
            exact reads_both sorted
          · have greater : y < x := by omega
            cases taken
            refine reads_b sorted ?_
            rw [List.forall_mem_cons]
            exact ⟨greater.le, fun z member => greater.le.trans (ordered.1.1 z member)⟩

theorem next_none (finished : m.next = none) : m.a = [] ∧ m.b = [] := by
  obtain ⟨aIn, bIn, a, b⟩ := m
  cases a with
  | nil => cases b <;> simp_all [next]
  | cons x a =>
      cases b with
      | nil => simp [next] at finished
      | cons y b =>
          simp only [next] at finished
          split_ifs at finished

end Merging

theorem isIn_outside (op : CharRangeOp) : op.isIn false false = false := by
  cases op <;> rfl

theorem crOpLoop_sorted (op : CharRangeOp) (fuel : Nat) (out : Bool) (m : Merging)
    (sorted : m.Sorted) :
    (crOpLoop op fuel out m).Pairwise (· ≤ ·) ∧ ∀ p ∈ crOpLoop op fuel out m, p ∈ m.points := by
  induction fuel generalizing out m with
  | zero => simp [crOpLoop]
  | succ fuel ih =>
      cases taken : m.next with
      | none => simp [crOpLoop, taken]
      | some read =>
          obtain ⟨v, n⟩ := read
          have reads := Merging.next_some taken sorted
          simp only [crOpLoop, taken]
          split
          · have onward := ih (op.isIn n.aIn n.bIn) n reads.sorted
            simp only [List.pairwise_cons, List.forall_mem_cons]
            exact ⟨⟨fun p member => reads.later p (onward.2 p member), onward.1⟩, reads.present,
              fun p member => reads.kept p (onward.2 p member)⟩
          · have onward := ih out n reads.sorted
            exact ⟨onward.1, fun p member => reads.kept p (onward.2 p member)⟩

theorem crOpLoop_closed (op : CharRangeOp) (fuel : Nat) (m : Merging) (sorted : m.Sorted)
    (closed : m.Closed) (enough : m.points.length ≤ fuel) :
    (crOpLoop op fuel (op.isIn m.aIn m.bIn) m).length % 2 = (op.isIn m.aIn m.bIn).toNat := by
  induction fuel generalizing m with
  | zero =>
      have none : m.a = [] ∧ m.b = [] := by
        simpa [Merging.points] using enough
      obtain ⟨aIn, bIn, a, b⟩ := m
      obtain ⟨rfl, rfl⟩ := none
      cases aIn <;> cases bIn <;> simp_all [Merging.Closed, crOpLoop, isIn_outside]
  | succ fuel ih =>
      cases taken : m.next with
      | none =>
          have none := Merging.next_none taken
          obtain ⟨aIn, bIn, a, b⟩ := m
          obtain ⟨rfl, rfl⟩ := none
          cases aIn <;> cases bIn <;> simp_all [Merging.Closed, crOpLoop, isIn_outside]
      | some read =>
          obtain ⟨v, n⟩ := read
          have reads := Merging.next_some taken sorted
          have fewer := reads.fewer
          have onward := ih n reads.sorted (reads.closed closed) (by omega)
          by_cases toggles : op.isIn n.aIn n.bIn = op.isIn m.aIn m.bIn
          · rw [toggles] at onward
            simp [crOpLoop, taken, toggles, onward]
          · have other : op.isIn m.aIn m.bIn = !op.isIn n.aIn n.bIn := by
              cases here : op.isIn n.aIn n.bIn <;> simp_all
            simp only [crOpLoop, taken, other]
            cases here : op.isIn n.aIn n.bIn <;> simp_all <;> omega

theorem inside_crOpLoop (op : CharRangeOp) (fuel : Nat) (m : Merging) (sorted : m.Sorted)
    (enough : m.points.length ≤ fuel) (c : Nat) :
    xor (op.isIn m.aIn m.bIn) (inside (crOpLoop op fuel (op.isIn m.aIn m.bIn) m) c) =
      m.status op c := by
  induction fuel generalizing m with
  | zero =>
      have none : m.a = [] ∧ m.b = [] := by
        simpa [Merging.points] using enough
      simp [crOpLoop, Merging.status, none, inside]
  | succ fuel ih =>
      cases taken : m.next with
      | none =>
          have none := Merging.next_none taken
          simp [crOpLoop, taken, Merging.status, none, inside]
      | some read =>
          obtain ⟨v, n⟩ := read
          have reads := Merging.next_some taken sorted
          have fewer := reads.fewer
          by_cases past : v ≤ c
          · have onward := ih n reads.sorted (by omega)
            rw [← reads.same op c past, ← onward]
            by_cases toggles : op.isIn n.aIn n.bIn = op.isIn m.aIn m.bIn
            · simp [crOpLoop, taken, toggles]
            · have other : op.isIn m.aIn m.bIn = !op.isIn n.aIn n.bIn := by
                cases here : op.isIn n.aIn n.bIn <;> simp_all
              simp [crOpLoop, taken, other, inside, past]
          · -- No point is at or before `c`.
            have later : ∀ p ∈ m.points, c < p := by
              intro p member
              have bound := reads.least p member
              omega
            have written := (crOpLoop_sorted op (fuel + 1) (op.isIn m.aIn m.bIn) m sorted).2
            have fromA : inside m.a c = false :=
              inside_of_lt fun p member => later p (List.mem_append_left _ member)
            have fromB : inside m.b c = false :=
              inside_of_lt fun p member => later p (List.mem_append_right _ member)
            have out : inside (crOpLoop op (fuel + 1) (op.isIn m.aIn m.bIn) m) c = false :=
              inside_of_lt fun p member => later p (written p member)
            simp [out, Merging.status, fromA, fromB]

theorem crCompress_of (points : List Nat) (ordered : points.Pairwise (· ≤ ·))
    (even : points.length % 2 = 0) :
    (crCompress none points).Pairwise (· < ·) ∧ (crCompress none points).length % 2 = 0 ∧
      ∀ p ∈ crCompress none points, p ∈ points := by
  simpa [held] using crCompress_canonical none points even (by simpa [held] using ordered) (by simp)

namespace CharRange

def ofIncreasing (points : List Nat) (increasing : points.Pairwise (· < ·))
    (even : points.length % 2 = 0) (bounded : ∀ p ∈ points, p ≤ uint32Max) : CharRange where
  points := points
  sorted := increasing.imp le_of_lt
  proper := intervals_lt increasing
  even := even
  bounded := bounded

def empty : CharRange :=
  ofIncreasing [] .nil rfl (by simp)

theorem merging_sorted (a b : CharRange) :
    Merging.Sorted ⟨false, false, a.points, b.points⟩ :=
  ⟨a.sorted, b.sorted⟩

theorem crOp_points (op : CharRangeOp) (a b : CharRange) :
    (crOpPoints op a.points b.points).Pairwise (· < ·) ∧
      (crOpPoints op a.points b.points).length % 2 = 0 ∧
      ∀ p ∈ crOpPoints op a.points b.points, p ∈ a.points ++ b.points := by
  have fuel : (Merging.points ⟨false, false, a.points, b.points⟩).length ≤
      a.points.length + b.points.length := by
    simp [Merging.points]
  have loop := crOpLoop_sorted op (a.points.length + b.points.length) false
    ⟨false, false, a.points, b.points⟩ (merging_sorted a b)
  have closed := crOpLoop_closed op (a.points.length + b.points.length)
    ⟨false, false, a.points, b.points⟩ (merging_sorted a b)
    ⟨by simpa using a.even, by simpa using b.even⟩ fuel
  simp only [isIn_outside, Bool.toNat_false] at closed
  have compressed := crCompress_of _ loop.1 closed
  exact ⟨compressed.1, compressed.2.1, fun p member => loop.2 p (compressed.2.2 p member)⟩

def crOp (op : CharRangeOp) (a b : CharRange) : CharRange :=
  ofIncreasing (crOpPoints op a.points b.points) (crOp_points op a b).1 (crOp_points op a b).2.1
    (by
      intro p member
      rcases List.mem_append.mp ((crOp_points op a b).2.2 p member) with left | right
      · exact a.bounded p left
      · exact b.bounded p right)

def crUnion1 (cr b : CharRange) : CharRange :=
  crOp .union cr b

def interval (c1 c2 : Nat) (ordered : c1 ≤ c2) (bounded : c2 < uint32Max) : CharRange :=
  ofIncreasing [c1, c2 + 1] (List.pairwise_pair.mpr (Nat.lt_succ_of_le ordered)) (by simp)
    (List.forall_mem_cons.mpr
      ⟨Nat.le_of_lt (Nat.lt_of_le_of_lt ordered bounded), List.forall_mem_singleton.mpr bounded⟩)

def crUnionInterval (cr : CharRange) (c1 c2 : Nat) (ordered : c1 ≤ c2)
    (bounded : c2 < uint32Max) : CharRange :=
  crUnion1 cr (interval c1 c2 ordered bounded)

theorem crInvert_points (cr : CharRange) :
    (crInvertPoints cr.points).Pairwise (· < ·) ∧ (crInvertPoints cr.points).length % 2 = 0 ∧
      ∀ p ∈ crInvertPoints cr.points, p ∈ 0 :: cr.points ++ [uint32Max] := by
  apply crCompress_of
  · simp only [List.cons_append, List.pairwise_cons, List.pairwise_append]
    refine ⟨by simp, cr.sorted, by simp, ?_⟩
    intro p member q last
    rw [List.mem_singleton.mp last]
    exact cr.bounded p member
  · have even := cr.even
    simp
    omega

def crInvert (cr : CharRange) : CharRange :=
  ofIncreasing (crInvertPoints cr.points) (crInvert_points cr).1 (crInvert_points cr).2.1
    (by
      intro p member
      have kept := (crInvert_points cr).2.2 p member
      simp only [List.cons_append, List.mem_cons, List.mem_append, List.not_mem_nil, or_false]
        at kept
      rcases kept with rfl | inner | rfl
      · exact Nat.zero_le _
      · exact cr.bounded p inner
      · exact le_refl _)

theorem contains_crOp (op : CharRangeOp) (a b : CharRange) (c : Nat) :
    (crOp op a b).contains c = op.isIn (a.contains c) (b.contains c) := by
  have fuel : (Merging.points ⟨false, false, a.points, b.points⟩).length ≤
      a.points.length + b.points.length := by
    simp [Merging.points]
  have loop := inside_crOpLoop op (a.points.length + b.points.length)
    ⟨false, false, a.points, b.points⟩ (merging_sorted a b) fuel c
  have closed := crOpLoop_closed op (a.points.length + b.points.length)
    ⟨false, false, a.points, b.points⟩ (merging_sorted a b)
    ⟨by simpa using a.even, by simpa using b.even⟩ fuel
  simp only [isIn_outside, Bool.toNat_false] at closed loop
  have compressed := inside_crCompress none _ closed c
  simp only [held, List.nil_append] at compressed
  simp only [contains, crOp, ofIncreasing, crOpPoints, compressed]
  simpa [Merging.status] using loop

theorem contains_interval {c1 c2 : Nat} (ordered : c1 ≤ c2) (bounded : c2 < uint32Max) (c : Nat) :
    (interval c1 c2 ordered bounded).contains c = (decide (c1 ≤ c) && decide (c ≤ c2)) := by
  have here : (interval c1 c2 ordered bounded).contains c = inside [c1, c2 + 1] c := rfl
  rw [here]
  simp only [inside, Bool.xor_false]
  by_cases low : c1 ≤ c
  · by_cases high : c ≤ c2
    · simp [low, high, show ¬ c2 + 1 ≤ c by omega]
    · simp [low, high, show c2 + 1 ≤ c by omega]
  · simp [low, show ¬ c2 + 1 ≤ c by omega]

theorem contains_crInvert (cr : CharRange) {c : Nat} (small : c < uint32Max) :
    (crInvert cr).contains c = !cr.contains c := by
  have even : (0 :: cr.points ++ [uint32Max]).length % 2 = 0 := by
    have even := cr.even
    simp
    omega
  simp only [contains, crInvert, ofIncreasing, crInvertPoints, inside_crCompress none _ even c, held,
    List.nil_append]
  simp [inside, inside_append, not_le.mpr small]

theorem crOp_unique (op : CharRangeOp) (a b cr : CharRange) :
    cr = crOp op a b ↔ cr.points.Pairwise (· < ·) ∧
      ∀ c ≤ uint32Max, cr.contains c = op.isIn (a.contains c) (b.contains c) := by
  constructor
  · rintro rfl
    exact ⟨(crOp_points op a b).1, fun c _ => contains_crOp op a b c⟩
  · rintro ⟨increasing, agrees⟩
    have points : cr.points = (crOp op a b).points := by
      apply eq_of_inside increasing (crOp_points op a b).1
      intro c member
      have bounded : c ≤ uint32Max := member.elim (cr.bounded c) ((crOp op a b).bounded c)
      exact (agrees c bounded).trans (contains_crOp op a b c).symm
    cases cr
    simp only at points
    subst points
    rfl

example : (crOp .union ⟨[0x178, 0x179, 0x179, 0x17a], by decide, by decide, rfl, by decide⟩
    empty).points = [0x178, 0x17a] := by decide

end CharRange

end BreezeJs.Unicode
