import Mathlib.Logic.Equiv.Basic
import Mathlib.Order.Defs.Unbundled

set_option autoImplicit false

namespace Segments

variable {α : Type} {a b c : Array α} {lo hi i j : Nat}

structure Shuffles (lo hi : Nat) (a b : Array α) : Prop where
  perm : b.Perm a
  moved : ∃ σ : Equiv.Perm Nat, (∀ k, b[k]? = a[σ k]?) ∧ ∀ k, k < lo ∨ hi ≤ k → σ k = k

theorem Shuffles.refl (lo hi : Nat) (a : Array α) : Shuffles lo hi a a :=
  ⟨Array.Perm.refl a, Equiv.refl Nat, fun _ => rfl, fun _ _ => rfl⟩

theorem Shuffles.trans (first : Shuffles lo hi a b) (second : Shuffles lo hi b c) :
    Shuffles lo hi a c := by
  obtain ⟨σ, read, fixed⟩ := first.moved
  obtain ⟨τ, later, kept⟩ := second.moved
  refine ⟨second.perm.trans first.perm, τ.trans σ, ?_, ?_⟩
  · intro k
    rw [later, read, Equiv.trans_apply]
  · intro k outside
    rw [Equiv.trans_apply, kept k outside, fixed k outside]

theorem Shuffles.mono {lo' hi' : Nat} (moves : Shuffles lo hi a b) (lower : lo' ≤ lo)
    (upper : hi ≤ hi') : Shuffles lo' hi' a b := by
  obtain ⟨σ, read, fixed⟩ := moves.moved
  exact ⟨moves.perm, σ, read, fun k outside => fixed k (by omega)⟩

theorem Shuffles.size (moves : Shuffles lo hi a b) : b.size = a.size :=
  moves.perm.size_eq

theorem Shuffles.outside (moves : Shuffles lo hi a b) {k : Nat} (away : k < lo ∨ hi ≤ k) :
    b[k]? = a[k]? := by
  obtain ⟨σ, read, fixed⟩ := moves.moved
  rw [read, fixed k away]

theorem getElem?_swap {first : i < a.size} {second : j < a.size} (k : Nat) :
    (a.swap i j first second)[k]? = a[Equiv.swap i j k]? := by
  rw [Array.getElem?_swap]
  split_ifs with right left
  · rw [← right, Equiv.swap_apply_right, Array.getElem?_eq_getElem first]
  · rw [← left, Equiv.swap_apply_left, Array.getElem?_eq_getElem second]
  · rw [Equiv.swap_apply_of_ne_of_ne (Ne.symm left) (Ne.symm right)]

theorem swap_reads {first : i < a.size} {second : j < a.size} (k : Nat) :
    (a.swap i j)[k]? = a[if k = i then j else if k = j then i else k]? := by
  rw [getElem?_swap, Equiv.swap_apply_def]

theorem swap_first {first : i < a.size} {second : j < a.size} : (a.swap i j)[i]? = a[j]? := by
  rw [swap_reads, if_pos rfl]

theorem swap_second {first : i < a.size} {second : j < a.size} (apart : j ≠ i) :
    (a.swap i j)[j]? = a[i]? := by
  rw [swap_reads, if_neg apart, if_pos rfl]

theorem swap_other {first : i < a.size} {second : j < a.size} {k : Nat} (notFirst : k ≠ i)
    (notSecond : k ≠ j) : (a.swap i j)[k]? = a[k]? := by
  rw [swap_reads, if_neg notFirst, if_neg notSecond]

theorem Shuffles.swap {first : i < a.size} {second : j < a.size} (left : lo ≤ i ∧ i < hi)
    (right : lo ≤ j ∧ j < hi) : Shuffles lo hi a (a.swap i j first second) := by
  refine ⟨Array.swap_perm first second, Equiv.swap i j, getElem?_swap, ?_⟩
  intro k outside
  exact Equiv.swap_apply_of_ne_of_ne (by omega) (by omega)

theorem inside_of_fixed {σ : Equiv.Perm Nat} (fixed : ∀ k, k < lo ∨ hi ≤ k → σ k = k) {k : Nat}
    (inside : lo ≤ k ∧ k < hi) : lo ≤ σ k ∧ σ k < hi := by
  by_contra outside
  have same : σ k = k := σ.injective (fixed (σ k) (by omega))
  omega

def Everywhere (lo hi : Nat) (P : α → Prop) (a : Array α) : Prop :=
  ∀ k x, lo ≤ k → k < hi → a[k]? = some x → P x

variable {P Q : α → Prop}

theorem Everywhere.imp (every : Everywhere lo hi P a) (weaker : ∀ x, P x → Q x) :
    Everywhere lo hi Q a :=
  fun k x lower upper read => weaker x (every k x lower upper read)

theorem Everywhere.empty (P : α → Prop) (a : Array α) (k : Nat) : Everywhere k k P a := by
  intro i x lower upper
  omega

theorem Everywhere.append {m : Nat} (left : Everywhere lo m P a)
    (right : Everywhere m hi P a) : Everywhere lo hi P a := by
  intro k x lower upper read
  by_cases before : k < m
  · exact left k x lower before read
  · exact right k x (Nat.le_of_not_lt before) upper read

theorem Everywhere.of_reads {lo' hi' : Nat} (every : Everywhere lo hi P a)
    (reads : ∀ k, lo' ≤ k → k < hi' → ∃ l, lo ≤ l ∧ l < hi ∧ b[k]? = a[l]?) :
    Everywhere lo' hi' P b := by
  intro k x lower upper read
  obtain ⟨l, above, below, same⟩ := reads k lower upper
  exact every l x above below (same ▸ read)

theorem Everywhere.shuffle {lo' hi' : Nat} (every : Everywhere lo hi P a)
    (moves : Shuffles lo' hi' a b) (lower : lo ≤ lo') (upper : hi' ≤ hi) :
    Everywhere lo hi P b := by
  obtain ⟨σ, read, fixed⟩ := moves.moved
  refine every.of_reads fun k above below => ⟨σ k, ?_⟩
  by_cases inside : lo' ≤ k ∧ k < hi'
  · have kept := inside_of_fixed fixed inside
    exact ⟨by omega, by omega, read k⟩
  · rw [fixed k (by omega)]
    exact ⟨above, below, moves.outside (by omega)⟩

theorem Everywhere.away {lo' hi' : Nat} (every : Everywhere lo hi P a)
    (moves : Shuffles lo' hi' a b) (apart : hi ≤ lo' ∨ hi' ≤ lo) : Everywhere lo hi P b :=
  every.of_reads fun k above below => ⟨k, above, below, moves.outside (by omega)⟩

theorem Everywhere.swap_away {first : i < a.size} {second : j < a.size}
    (every : Everywhere lo hi P a) (left : i < lo ∨ hi ≤ i) (right : j < lo ∨ hi ≤ j) :
    Everywhere lo hi P (a.swap i j) :=
  every.of_reads fun k above below => ⟨k, above, below, swap_other (by omega) (by omega)⟩

theorem Everywhere.swap_first {first : i < a.size} {second : j < a.size}
    (every : Everywhere j (j + 1) P a) : Everywhere i (i + 1) P (a.swap i j) := by
  refine every.of_reads fun k above below => ⟨j, Nat.le_refl j, by omega, ?_⟩
  obtain rfl : k = i := by omega
  exact Segments.swap_first

theorem Everywhere.swap_second {first : i < a.size} {second : j < a.size}
    (every : Everywhere i (i + 1) P a) (apart : j ≠ i) :
    Everywhere j (j + 1) P (a.swap i j) := by
  refine every.of_reads fun k above below => ⟨i, Nat.le_refl i, by omega, ?_⟩
  obtain rfl : k = j := by omega
  exact Segments.swap_second apart

variable {le : α → α → Prop}

def InOrder (le : α → α → Prop) (a : Array α) (i j : Nat) : Prop :=
  ∀ x y, a[i]? = some x → a[j]? = some y → le x y

theorem InOrder.congr {k l : Nat} (order : InOrder le a k l) (first : b[i]? = a[k]?)
    (second : b[j]? = a[l]?) : InOrder le b i j := by
  intro x y here there
  exact order x y (first ▸ here) (second ▸ there)

theorem InOrder.trans [IsTrans α le] {k : Nat} (first : InOrder le a i j)
    (second : InOrder le a j k) (inside : j < a.size) : InOrder le a i k := by
  intro x y here there
  have between := Array.getElem?_eq_getElem inside
  exact IsTrans.trans x _ y (first x _ here between) (second _ y between there)

theorem inOrder_of_bound [IsTrans α le] {lo' hi' : Nat} {v : α}
    (left : Everywhere lo hi (fun x => le x v) a) (right : Everywhere lo' hi' (fun x => le v x) a)
    (first : lo ≤ i ∧ i < hi) (second : lo' ≤ j ∧ j < hi') : InOrder le a i j := by
  intro x y here there
  exact IsTrans.trans x v y (left i x first.1 first.2 here) (right j y second.1 second.2 there)

theorem InOrder.below {v : α} (order : InOrder le a i j) (read : a[j]? = some v) :
    Everywhere i (i + 1) (fun x => le x v) a := by
  intro k x lower upper here
  obtain rfl : k = i := by omega
  exact order x v here read

theorem InOrder.above {v : α} (order : InOrder le a j i) (read : a[j]? = some v) :
    Everywhere i (i + 1) (fun x => le v x) a := by
  intro k x lower upper here
  obtain rfl : k = i := by omega
  exact order v x read here

def Apart (pending : List (Nat × Nat)) (i j : Nat) : Prop :=
  ∀ segment ∈ pending, ¬ (segment.1 ≤ i ∧ j < segment.2)

def SortedBut (le : α → α → Prop) (pending : List (Nat × Nat)) (a : Array α) : Prop :=
  ∀ i j, i < j → Apart pending i j → InOrder le a i j

theorem sortedBut_whole (a : Array α) : SortedBut le [(0, a.size)] a := by
  intro i j _ apart x y _ there
  have inside : j < a.size := (Array.getElem?_eq_some_iff.mp there).1
  exact absurd ⟨Nat.zero_le i, inside⟩ (apart (0, a.size) (List.mem_singleton.mpr rfl))

theorem SortedBut.of_subset {pending wider : List (Nat × Nat)} (sorted : SortedBut le pending a)
    (subset : ∀ segment ∈ pending, segment ∈ wider) : SortedBut le wider a :=
  fun i j less apart => sorted i j less fun segment member => apart segment (subset segment member)

theorem SortedBut.refine {pending : List (Nat × Nat)} (pieces : List (Nat × Nat))
    (sorted : SortedBut le ((lo, hi) :: pending) a) (moves : Shuffles lo hi a b)
    (disjoint : ∀ segment ∈ pending, segment.2 ≤ lo ∨ hi ≤ segment.1)
    (inside : ∀ i j, lo ≤ i → i < j → j < hi → Apart pieces i j → InOrder le b i j) :
    SortedBut le (pieces ++ pending) b := by
  obtain ⟨σ, read, fixed⟩ := moves.moved
  intro i j less apart
  have apartPieces : Apart pieces i j :=
    fun segment member => apart segment (List.mem_append_left _ member)
  have apartPending : Apart pending i j :=
    fun segment member => apart segment (List.mem_append_right _ member)
  by_cases both : lo ≤ i ∧ j < hi
  · exact inside i j both.1 less both.2 apartPieces
  · -- One of the places is outside, and its value has stayed.
    have places : σ i < σ j ∧ Apart ((lo, hi) :: pending) (σ i) (σ j) := by
      by_cases first : lo ≤ i ∧ i < hi
      · have kept := inside_of_fixed fixed first
        have stays := fixed j (by omega)
        refine ⟨by omega, ?_⟩
        rintro segment member ⟨above, below⟩
        rcases List.mem_cons.mp member with rfl | later
        · simp only at below
          omega
        · have away := disjoint segment later
          have outside := apartPending segment later
          omega
      · have stays := fixed i (by omega)
        by_cases second : lo ≤ j ∧ j < hi
        · have kept := inside_of_fixed fixed second
          refine ⟨by omega, ?_⟩
          rintro segment member ⟨above, below⟩
          rcases List.mem_cons.mp member with rfl | later
          · simp only at above
            omega
          · have away := disjoint segment later
            have outside := apartPending segment later
            omega
        · have remains := fixed j (by omega)
          rw [stays, remains]
          refine ⟨less, ?_⟩
          rintro segment member ⟨above, below⟩
          rcases List.mem_cons.mp member with rfl | later
          · simp only at above below
            omega
          · exact apartPending segment later ⟨above, below⟩
    exact (sorted _ _ places.1 places.2).congr (read i) (read j)

theorem SortedBut.pairwise (sorted : SortedBut le [] a) : a.toList.Pairwise le := by
  rw [List.pairwise_iff_getElem]
  intro i j first second less
  have apart : Apart [] i j := fun segment member => absurd member List.not_mem_nil
  apply sorted i j less apart
  · rw [← Array.getElem?_toList, List.getElem?_eq_getElem first]
  · rw [← Array.getElem?_toList, List.getElem?_eq_getElem second]

end Segments
