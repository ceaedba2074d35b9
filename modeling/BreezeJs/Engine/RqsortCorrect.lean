import Mathlib.Order.RelClasses
import BreezeJs.Engine.RqsortPartition

set_option autoImplicit false

namespace BreezeJs.Rqsort

open Segments

variable {σ α : Type} {cmp : σ → α → α → Int × σ} {le : α → α → Prop} {good : σ → Prop}
variable {s t : Sorting σ α} {ptr n k : Nat}

def SortedButAt (le : α → α → Prop) (lo hi hole : Nat) (a : Array α) : Prop :=
  ∀ i j, lo ≤ i → i < j → j < hi → j ≠ hole → InOrder le a i j

theorem SortedButAt.swap {a : Array α} {lo hi : Nat} (hole : Nat) {first : hole + 1 < a.size}
    {second : hole < a.size} (sorted : SortedButAt le lo hi (hole + 1) a) (lower : lo ≤ hole)
    (order : InOrder le a (hole + 1) hole) :
    SortedButAt le lo hi hole (a.swap (hole + 1) hole) := by
  intro i j above less upper other
  by_cases left : i = hole
  · subst left
    by_cases right : j = i + 1
    · rw [right]
      exact order.congr (swap_second (by omega)) swap_first
    · exact (sorted (i + 1) j (by omega) (by omega) upper right).congr
        (swap_second (by omega)) (swap_other right other)
  · by_cases right : j = hole + 1
    · rw [right]
      exact (sorted i hole above (by omega) (by omega) (by omega)).congr
        (swap_other (by omega) left) swap_first
    · by_cases hinder : i = hole + 1
      · rw [hinder]
        exact (sorted hole j lower (by omega) upper right).congr swap_first
          (swap_other right other)
      · exact (sorted i j above less upper right).congr (swap_other hinder left)
          (swap_other right other)

theorem SortedButAt.sorted [IsTrans α le] {a : Array α} {lo hi : Nat} (hole : Nat)
    (sorted : SortedButAt le lo hi (hole + 1) a) (within : hole < a.size)
    (order : InOrder le a hole (hole + 1)) : SortedOn le lo hi a := by
  intro i j above less upper
  by_cases last : j = hole + 1
  · subst last
    by_cases adjacent : i = hole
    · exact adjacent ▸ order
    · exact (sorted i hole above (by omega) (by omega) (by omega)).trans order within
  · exact sorted i j above less upper last

theorem insert_yields [IsTrans α le] (judges : Judges cmp le good) (hi : Nat)
    (within : ptr + k < s.base.size) : Yields (insert cmp ptr k s) fun t =>
      Moves cmp good ptr (ptr + k + 1) s t ∧
        (good t.ctx → SortedButAt le ptr hi (ptr + k) s.base → SortedOn le ptr hi t.base) := by
  induction k generalizing s with
  | zero =>
      refine .pure ⟨Moves.refl s, fun _ sorted i j above less upper => ?_⟩
      exact sorted i j above less upper (by omega)
  | succ k ih =>
      simp only [insert]
      refine (compare_yields judges (by omega) (by omega)).bind ?_
      rintro _ ⟨c, ctx, rfl, judged⟩
      simp only
      split_ifs with greater
      · rw [swap_eq (s := ⟨ctx, s.base⟩) (by simp only; omega) (by simp only; omega)]
        have swapped : Moves cmp good ptr (ptr + (k + 1) + 1) s
            ⟨ctx, s.base.swap (ptr + (k + 1)) (ptr + k)⟩ :=
          ⟨judged.toLater, Shuffles.swap (by omega) (by omega)⟩
        refine (ih (by rw [swapped.size]; omega)).mono ?_
        rintro t ⟨moves, inserted⟩
        refine ⟨swapped.trans (moves.mono le_rfl (by omega)), fun fine sorted => ?_⟩
        exact inserted fine
          (sorted.swap (ptr + k) (by omega) (judged.after (moves.earlier fine) (by omega)))
      · refine .pure ⟨judged.moves, fun fine sorted => ?_⟩
        have inside : ptr + k < s.base.size := by omega
        exact SortedButAt.sorted (ptr + k) sorted inside (judged.before fine (by omega))

theorem insertionSort_yields [IsTrans α le] (judges : Judges cmp le good) {left : Nat}
    (within : ptr + (n + left) ≤ s.base.size) : Yields (insertionSort cmp ptr n left s) fun t =>
      Moves cmp good ptr (ptr + (n + left)) s t ∧
        (good t.ctx → SortedOn le ptr (ptr + n) s.base →
          SortedOn le ptr (ptr + (n + left)) t.base) := by
  induction left generalizing n s with
  | zero => exact .pure ⟨Moves.refl s, fun _ sorted => sorted⟩
  | succ left ih =>
      simp only [insertionSort]
      refine (insert_yields judges (ptr + (n + 1)) (by omega)).bind ?_
      rintro t ⟨moves, inserted⟩
      have count : n + (left + 1) = n + 1 + left := by omega
      refine (ih (by rw [moves.size]; omega)).mono ?_
      rintro u ⟨later, sorts⟩
      rw [count]
      refine ⟨(moves.mono le_rfl (by omega)).trans later, fun fine sorted => sorts fine ?_⟩
      apply inserted (later.earlier fine)
      intro i j above less upper other
      exact sorted i j above less (by omega)

theorem insertionSort_whole [IsTrans α le] (judges : Judges cmp le good)
    (within : ptr + n ≤ s.base.size) : Yields (insertionSort cmp ptr 1 (n - 1) s) fun t =>
      Moves cmp good ptr (ptr + n) s t ∧ (good t.ctx → SortedOn le ptr (ptr + n) t.base) := by
  cases n with
  | zero =>
      refine .pure ⟨Moves.refl s, fun _ i j above less upper => ?_⟩
      omega
  | succ n =>
      have count : 1 + (n + 1 - 1) = n + 1 := by omega
      refine (insertionSort_yields judges (by rw [count]; exact within)).mono ?_
      rw [count]
      rintro t ⟨moves, sorts⟩
      refine ⟨moves, fun fine => sorts fine fun i j above less upper => ?_⟩
      omega

def Segment.range (segment : Segment) : Nat × Nat :=
  (segment.ptr, segment.ptr + segment.nmemb)

def Segment.away (a b : Segment) : Prop :=
  a.ptr + a.nmemb ≤ b.ptr ∨ b.ptr + b.nmemb ≤ a.ptr

-- A segment that lies on `k` others has been made by as many partitions at least.
def Leveled : List Segment → Prop
  | [] => True
  | segment :: stack => stack.length ≤ segment.depth ∧ Leveled stack

structure Stacked (size : Nat) (segments : List Segment) : Prop where
  within : ∀ segment ∈ segments, segment.ptr + segment.nmemb ≤ size
  apart : segments.Pairwise Segment.away
  leveled : Leveled segments

def weight : List Segment → Nat
  | [] => 0
  | segment :: segments => segment.nmemb + 1 + weight segments

variable {size : Nat} {segment : Segment} {stack : List Segment}

theorem Stacked.pop (stacked : Stacked size (segment :: stack)) : Stacked size stack :=
  ⟨fun other member => stacked.within other (List.mem_cons_of_mem segment member),
    (List.pairwise_cons.mp stacked.apart).2, stacked.leveled.2⟩

theorem Stacked.pieces {first second : Segment} (stacked : Stacked size (segment :: stack))
    (firstDepth : first.depth = segment.depth + 1) (secondDepth : second.depth = segment.depth + 1)
    (firstInside : segment.ptr ≤ first.ptr ∧
      first.ptr + first.nmemb ≤ segment.ptr + segment.nmemb)
    (secondInside : segment.ptr ≤ second.ptr ∧
      second.ptr + second.nmemb ≤ segment.ptr + segment.nmemb)
    (away : first.away second) : Stacked size (first :: second :: stack) := by
  have inside := stacked.within segment (List.mem_cons_self)
  have outside := (List.pairwise_cons.mp stacked.apart).1
  have level := stacked.leveled.1
  have piece : ∀ part : Segment, segment.ptr ≤ part.ptr ∧
      part.ptr + part.nmemb ≤ segment.ptr + segment.nmemb → ∀ other ∈ stack, part.away other := by
    intro part partInside other member
    have far := outside other member
    simp only [Segment.away] at far ⊢
    omega
  refine ⟨?_, ?_, ?_, ?_, stacked.leveled.2⟩
  · rw [List.forall_mem_cons, List.forall_mem_cons]
    exact ⟨by omega, by omega, stacked.pop.within⟩
  · rw [List.pairwise_cons, List.pairwise_cons, List.forall_mem_cons]
    exact ⟨⟨away, piece first firstInside⟩, piece second secondInside, stacked.pop.apart⟩
  · rw [List.length_cons]
    omega
  · omega

theorem Stacked.narrow {smaller : Segment} (stacked : Stacked size (segment :: stack))
    (ptr : smaller.ptr = segment.ptr) (few : smaller.nmemb ≤ segment.nmemb)
    (deeper : segment.depth ≤ smaller.depth) : Stacked size (smaller :: stack) := by
  have inside := stacked.within segment (List.mem_cons_self)
  have outside := (List.pairwise_cons.mp stacked.apart).1
  have level := stacked.leveled.1
  refine ⟨?_, ?_, by omega, stacked.leveled.2⟩
  · rw [List.forall_mem_cons]
    exact ⟨by omega, stacked.pop.within⟩
  · rw [List.pairwise_cons]
    refine ⟨?_, stacked.pop.apart⟩
    intro other member
    have far := outside other member
    simp only [Segment.away] at far ⊢
    omega

def ranges (segments : List Segment) : List (Nat × Nat) :=
  segments.map Segment.range

theorem Stacked.disjoint (stacked : Stacked size (segment :: stack)) :
    ∀ range ∈ ranges stack,
      range.2 ≤ segment.ptr ∨ segment.ptr + segment.nmemb ≤ range.1 := by
  intro range member
  obtain ⟨other, below, rfl⟩ := List.mem_map.mp member
  exact ((List.pairwise_cons.mp stacked.apart).1 other below).symm

theorem split_yields [IsPreorder α le] (judges : Judges cmp le good) (fuel : Nat)
    (stacked : Stacked s.base.size (segment :: stack)) (enough : segment.nmemb < fuel) :
    Yields (split cmp fuel segment stack s) fun result => ∃ first rest t,
      result = (first, rest, t) ∧ Moves cmp good 0 s.base.size s t ∧
      Stacked s.base.size (first :: rest) ∧
      weight (first :: rest) ≤ weight (segment :: stack) ∧
      (good t.ctx → SortedBut le (ranges (segment :: stack)) s.base →
        SortedBut le (ranges (first :: rest)) t.base) := by
  induction fuel generalizing segment stack s with
  | zero => omega
  | succ fuel ih =>
      have inside := stacked.within segment (List.mem_cons_self)
      have level := stacked.leveled.1
      simp only [split]
      split_ifs with many deep
      · refine (heapsortx_yields judges inside).bind ?_
        rintro t ⟨moves, sorts⟩
        refine .pure ⟨_, _, t, rfl, moves.mono (Nat.zero_le _) inside,
          stacked.narrow rfl (Nat.zero_le _) (Nat.le_succ _), ?_, fun fine sorted => ?_⟩
        · simp only [weight]
          omega
        · have settled := SortedBut.refine [] sorted moves.shuffles stacked.disjoint
            fun i j lower less upper _ => sorts fine i j lower less upper
          exact settled.of_subset fun range member => List.mem_cons_of_mem _ member
      · refine (partition_yields judges (by omega) inside).bind ?_
        rintro _ ⟨lt, gt, t, rfl, moves, fewer, parts⟩
        have room : stack.length < stackSize := by
          simp only [stackSize]
          omega
        have total : Moves cmp good 0 s.base.size s t := moves.mono (Nat.zero_le _) inside
        -- One piece is pushed and the other gone on with, whichever is the smaller.
        have next : ∀ first second : Segment, Stacked s.base.size (first :: second :: stack) →
            weight (first :: second :: stack) ≤ weight (segment :: stack) → first.nmemb < fuel →
            (∀ range ∈ [(segment.ptr, segment.ptr + lt), (segment.ptr + segment.nmemb - gt,
              segment.ptr + segment.nmemb)], range ∈ ranges [first, second]) →
            Yields (push second stack >>= fun stack => split cmp fuel first stack t) fun result =>
              ∃ first rest t, result = (first, rest, t) ∧ Moves cmp good 0 s.base.size s t ∧
              Stacked s.base.size (first :: rest) ∧
              weight (first :: rest) ≤ weight (segment :: stack) ∧
              (good t.ctx → SortedBut le (ranges (segment :: stack)) s.base →
                SortedBut le (ranges (first :: rest)) t.base) := by
          intro first second pieces lighter fewer covered
          rw [push, if_pos room, ← moves.size] at *
          refine (ih pieces fewer).mono ?_
          rintro _ ⟨last, rest, u, rfl, later, done, least, known⟩
          refine ⟨last, rest, u, rfl, total.trans later, done, Nat.le_trans least lighter, ?_⟩
          intro fine sorted
          have parted := SortedBut.refine _ sorted moves.shuffles stacked.disjoint
            (parts (later.earlier fine))
          apply known fine
          apply parted.of_subset
          intro range member
          have both : ranges (first :: second :: stack) = ranges [first, second] ++ ranges stack :=
            rfl
          rw [both, List.mem_append]
          exact (List.mem_append.mp member).imp (covered range) id
        have ends : segment.ptr + segment.nmemb - gt + gt = segment.ptr + segment.nmemb := by omega
        simp only
        split_ifs with smaller
        · apply next
          · exact stacked.pieces rfl rfl ⟨by simp only; omega, by simp only; omega⟩
              ⟨by simp only; omega, by simp only; omega⟩ (.inr (by simp only; omega))
          · simp only [weight]
            omega
          · simp only
            omega
          · simp [ranges, Segment.range, ends]
        · apply next
          · exact stacked.pieces rfl rfl ⟨by simp only; omega, by simp only; omega⟩
              ⟨by simp only; omega, by simp only; omega⟩ (.inl (by simp only; omega))
          · simp only [weight]
            omega
          · simp only
            omega
          · simp [ranges, Segment.range, ends]
      · exact .pure ⟨segment, stack, s, rfl, Moves.refl s, stacked, le_rfl, fun _ sorted => sorted⟩

theorem sortLoop_yields [IsPreorder α le] (judges : Judges cmp le good) (fuel : Nat)
    (stacked : Stacked s.base.size stack) (enough : weight stack ≤ fuel) :
    Yields (sortLoop cmp fuel stack s) fun t => Moves cmp good 0 s.base.size s t ∧
      (good t.ctx → SortedBut le (ranges stack) s.base → SortedBut le [] t.base) := by
  induction fuel generalizing stack s with
  | zero =>
      cases stack with
      | nil => exact .pure ⟨Moves.refl s, fun _ sorted => sorted⟩
      | cons segment stack =>
          simp only [weight] at enough
          omega
  | succ fuel ih =>
      cases stack with
      | nil => exact .pure ⟨Moves.refl s, fun _ sorted => sorted⟩
      | cons segment stack =>
          simp only [sortLoop]
          refine (split_yields judges _ stacked (Nat.lt_succ_self _)).bind ?_
          rintro _ ⟨last, rest, t, rfl, moves, done, lighter, parted⟩
          have inside := done.within last (List.mem_cons_self)
          have fewer : weight rest + (last.nmemb + 1) ≤ fuel + 1 := by
            simp only [weight] at lighter enough ⊢
            omega
          simp only
          refine (insertionSort_whole judges (moves.within inside)).bind ?_
          rintro u ⟨inserts, sorts⟩
          have onward : Moves cmp good 0 s.base.size s u :=
            moves.trans (inserts.mono (Nat.zero_le _) inside)
          rw [← onward.size] at done
          refine (ih done.pop (by omega)).mono ?_
          rintro v ⟨later, known⟩
          rw [onward.size] at later
          refine ⟨onward.trans later, fun fine sorted => known fine ?_⟩
          have settled := parted (inserts.earlier (later.earlier fine)) sorted
          exact SortedBut.refine [] settled inserts.shuffles done.disjoint
            fun i j lower less upper _ => sorts (later.earlier fine) i j lower less upper

theorem rqsort_yields [IsPreorder α le] (judges : Judges cmp le good) (s : Sorting σ α) :
    Yields (rqsort cmp s) fun t => Moves cmp good 0 s.base.size s t ∧
      (good t.ctx → t.base.toList.Pairwise le) := by
  simp only [rqsort]
  split_ifs with few
  · refine .pure ⟨Moves.refl s, fun _ => ?_⟩
    apply SortedBut.pairwise
    intro i j less _ x y _ there
    have inside : j < s.base.size := (Array.getElem?_eq_some_iff.mp there).1
    omega
  · have stacked : Stacked s.base.size [⟨0, s.base.size, 0⟩] := by
      refine ⟨?_, List.pairwise_singleton _ _, le_rfl, trivial⟩
      rw [List.forall_mem_singleton]
      simp only
      omega
    refine (sortLoop_yields judges _ stacked le_rfl).mono ?_
    rintro t ⟨moves, sorts⟩
    refine ⟨moves, fun fine => (sorts fine ?_).pairwise⟩
    have whole : SortedBut le [(0, s.base.size)] s.base := sortedBut_whole s.base
    simpa [ranges, Segment.range] using whole

/-- Whatever `cmp` answers and does to its state, `rqsort` comes to an end, accesses nothing
outside of the array or of its own stack, and only moves values about. -/
theorem rqsort_total (cmp : σ → α → α → Int × σ) (s : Sorting σ α) :
    ∃ t, rqsort cmp s = some t ∧ t.base.Perm s.base := by
  have judges : Judges cmp (fun _ _ => True) (fun _ => False) :=
    ⟨fun _ _ _ no => no, fun _ _ _ no => no.elim, fun _ _ _ no => no.elim⟩
  have preorder : IsPreorder α fun _ _ => True :=
    { refl := fun _ => trivial, trans := fun _ _ _ _ _ => trivial }
  obtain ⟨t, ends, moves, _⟩ := rqsort_yields judges s
  exact ⟨t, ends, moves.shuffles.perm⟩

/-- Values are in order afterwards if the last answer, and so all before it, was a good one. -/
theorem rqsort_sorts [IsPreorder α le] (judges : Judges cmp le good) (s : Sorting σ α) :
    ∃ t, rqsort cmp s = some t ∧ t.base.Perm s.base ∧
      (good t.ctx → t.base.toList.Pairwise le) := by
  obtain ⟨t, ends, moves, sorts⟩ := rqsort_yields judges s
  exact ⟨t, ends, moves.shuffles.perm, sorts⟩

def difference (ctx : Unit) (x y : Nat) : Int × Unit :=
  ((x : Int) - y, ctx)

theorem difference_judges : Judges difference (· ≤ ·) fun _ => True where
  earlier := fun _ _ _ _ => trivial
  before := fun ctx x y _ low => by
    simp only [difference] at low
    omega
  after := fun ctx x y _ high => by
    simp only [difference] at high
    omega

theorem rqsort_sorts_nine : ∃ t, rqsort difference ⟨(), #[5, 2, 9, 4, 7, 1, 8, 3, 6]⟩ = some t ∧
    t.base.Perm #[5, 2, 9, 4, 7, 1, 8, 3, 6] ∧ (True → t.base.toList.Pairwise (· ≤ ·)) :=
  rqsort_sorts difference_judges _

end BreezeJs.Rqsort
