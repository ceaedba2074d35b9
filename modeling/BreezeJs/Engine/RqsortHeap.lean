import Mathlib.Data.Nat.Basic
import Mathlib.Logic.Relation
import BreezeJs.Engine.Rqsort

set_option autoImplicit false

namespace BreezeJs.Rqsort

open Segments

variable {σ α : Type} {cmp : σ → α → α → Int × σ} {le : α → α → Prop} {good : σ → Prop}
variable {s t u : Sorting σ α} {i j lo hi ptr n k r : Nat}

structure Judges (cmp : σ → α → α → Int × σ) (le : α → α → Prop) (good : σ → Prop) : Prop where
  earlier : ∀ ctx x y, good (cmp ctx x y).2 → good ctx
  before : ∀ ctx x y, good (cmp ctx x y).2 → (cmp ctx x y).1 ≤ 0 → le x y
  after : ∀ ctx x y, good (cmp ctx x y).2 → 0 ≤ (cmp ctx x y).1 → le y x

def Calls (cmp : σ → α → α → Int × σ) (ctx ctx' : σ) : Prop :=
  ∃ x y, ctx' = (cmp ctx x y).2

structure Later (cmp : σ → α → α → Int × σ) (good : σ → Prop) (ctx ctx' : σ) : Prop where
  earlier : good ctx' → good ctx
  called : Relation.ReflTransGen (Calls cmp) ctx ctx'

theorem Later.refl (ctx : σ) : Later cmp good ctx ctx :=
  ⟨id, .refl⟩

theorem Later.trans {first second third : σ} (before : Later cmp good first second)
    (after : Later cmp good second third) : Later cmp good first third :=
  ⟨fun fine => before.earlier (after.earlier fine), before.called.trans after.called⟩

theorem Later.keeps {ctx ctx' : σ} (later : Later cmp good ctx ctx') (inv : σ → Prop)
    (kept : ∀ ctx x y, inv ctx → inv (cmp ctx x y).2) (start : inv ctx) : inv ctx' := by
  have called := later.called
  clear later
  induction called with
  | refl => exact start
  | tail _ last ih =>
      obtain ⟨x, y, rfl⟩ := last
      exact kept _ x y ih

structure Judged (cmp : σ → α → α → Int × σ) (le : α → α → Prop) (good : σ → Prop)
    (s : Sorting σ α) (i j : Nat) (c : Int) (ctx : σ) : Prop
    extends Later cmp good s.ctx ctx where
  before : good ctx → c ≤ 0 → InOrder le s.base i j
  after : good ctx → 0 ≤ c → InOrder le s.base j i

theorem compare_yields (judges : Judges cmp le good) (first : i < s.base.size)
    (second : j < s.base.size) : Yields (compare cmp i j s) fun result =>
      ∃ c ctx, result = (c, ⟨ctx, s.base⟩) ∧ Judged cmp le good s i j c ctx := by
  have here := Array.getElem?_eq_getElem first
  have there := Array.getElem?_eq_getElem second
  refine ⟨_, by rw [compare, here, there], _, _, rfl,
    ⟨judges.earlier _ _ _, .single ⟨_, _, rfl⟩⟩, ?_, ?_⟩
  · intro fine low x y readFirst readSecond
    cases here.symm.trans readFirst
    cases there.symm.trans readSecond
    exact judges.before _ _ _ fine low
  · intro fine high x y readSecond readFirst
    cases here.symm.trans readFirst
    cases there.symm.trans readSecond
    exact judges.after _ _ _ fine high

theorem swap_eq (first : i < s.base.size) (second : j < s.base.size) :
    swap i j s = some { s with base := s.base.swap i j } :=
  dif_pos ⟨first, second⟩

structure Moves (cmp : σ → α → α → Int × σ) (good : σ → Prop) (lo hi : Nat)
    (s t : Sorting σ α) : Prop extends Later cmp good s.ctx t.ctx where
  shuffles : Shuffles lo hi s.base t.base

theorem Moves.refl (s : Sorting σ α) : Moves cmp good lo hi s s :=
  ⟨Later.refl s.ctx, Shuffles.refl lo hi s.base⟩

theorem Moves.trans (first : Moves cmp good lo hi s t) (second : Moves cmp good lo hi t u) :
    Moves cmp good lo hi s u :=
  ⟨first.toLater.trans second.toLater, first.shuffles.trans second.shuffles⟩

theorem Moves.mono {lo' hi' : Nat} (moves : Moves cmp good lo hi s t) (lower : lo' ≤ lo)
    (upper : hi ≤ hi') : Moves cmp good lo' hi' s t :=
  ⟨moves.toLater, moves.shuffles.mono lower upper⟩

theorem Moves.size (moves : Moves cmp good lo hi s t) : t.base.size = s.base.size :=
  moves.shuffles.size

theorem Moves.within {m : Nat} (moves : Moves cmp good lo hi s t) (inside : m ≤ s.base.size) :
    m ≤ t.base.size := by
  rw [moves.size]
  exact inside

theorem Judged.moves {c : Int} {ctx : σ} (judged : Judged cmp le good s i j c ctx) :
    Moves cmp good lo hi s ⟨ctx, s.base⟩ :=
  ⟨judged.toLater, Shuffles.refl lo hi s.base⟩

theorem Moves.swap {first : i < s.base.size} {second : j < s.base.size} (left : lo ≤ i ∧ i < hi)
    (right : lo ≤ j ∧ j < hi) : Moves cmp good lo hi s ⟨s.ctx, s.base.swap i j⟩ :=
  ⟨Later.refl s.ctx, Shuffles.swap left right⟩

def parent (j : Nat) : Nat := (j - 1) / 2

def HeapFrom (le : α → α → Prop) (ptr n k : Nat) (a : Array α) : Prop :=
  ∀ j, 0 < j → j < n → k ≤ parent j → InOrder le a (ptr + j) (ptr + parent j)

structure HeapBut (le : α → α → Prop) (ptr n k r : Nat) (a : Array α) : Prop where
  others : ∀ j, 0 < j → j < n → k ≤ parent j → parent j ≠ r →
    InOrder le a (ptr + j) (ptr + parent j)
  grand : ∀ j, 0 < j → j < n → parent j = r → 0 < r → k ≤ parent r →
    InOrder le a (ptr + j) (ptr + parent r)

structure Greatest (le : α → α → Prop) (ptr n r c : Nat) (a : Array α) : Prop where
  child : parent c = r
  positive : 0 < c
  inside : c < n
  greatest : ∀ j, 0 < j → j < n → parent j = r → InOrder le a (ptr + j) (ptr + c)

theorem inOrder_self [Std.Refl le] (a : Array α) (i : Nat) : InOrder le a i i := by
  intro x y here there
  cases here.symm.trans there
  exact Std.Refl.refl x

theorem greaterChild_yields [Std.Refl le] (judges : Judges cmp le good)
    (within : ptr + n ≤ s.base.size) (inside : r * 2 + 1 < n) :
    Yields (greaterChild cmp ptr n (r * 2 + 1) s) fun result => ∃ c ctx,
      result = (c, ⟨ctx, s.base⟩) ∧ r < c ∧ c < n ∧ Later cmp good s.ctx ctx ∧
        (good ctx → Greatest le ptr n r c s.base) := by
  have children : ∀ j, 0 < j → parent j = r → j = r * 2 + 1 ∨ j = r * 2 + 2 := by
    intro j positive same
    simp only [parent] at same
    omega
  simp only [greaterChild]
  split_ifs with two
  · refine (compare_yields judges (by omega) (by omega)).bind ?_
    rintro _ ⟨d, ctx, rfl, judged⟩
    refine .pure ⟨_, _, rfl, ?_⟩
    split_ifs with low
    · refine ⟨by omega, by omega, judged.toLater, fun fine => ⟨?_, by omega, by omega, ?_⟩⟩
      · simp only [parent]
        omega
      · intro j positive below same
        rcases children j positive same with rfl | rfl
        · exact judged.before fine low
        · exact inOrder_self _ _
    · refine ⟨by omega, by omega, judged.toLater, fun fine => ⟨?_, by omega, by omega, ?_⟩⟩
      · simp only [parent]
        omega
      · intro j positive below same
        rcases children j positive same with rfl | rfl
        · exact inOrder_self _ _
        · exact judged.after fine (by omega)
  · refine .pure ⟨_, _, rfl, by omega, by omega, Later.refl s.ctx, fun _ => ?_⟩
    refine ⟨?_, by omega, by omega, ?_⟩
    · simp only [parent]
      omega
    · intro j positive below same
      rcases children j positive same with rfl | rfl
      · exact inOrder_self _ _
      · omega

theorem HeapBut.done [IsTrans α le] {a : Array α} {c : Nat} (heap : HeapBut le ptr n k r a)
    (greatest : Greatest le ptr n r c a) (within : ptr + n ≤ a.size)
    (ordered : InOrder le a (ptr + c) (ptr + r)) : HeapFrom le ptr n k a := by
  intro j positive below past
  by_cases same : parent j = r
  · have inside := greatest.inside
    rw [same]
    exact (greatest.greatest j positive below same).trans ordered (by omega)
  · exact heap.others j positive below past same

theorem parent_lt {j : Nat} (positive : 0 < j) : parent j < j := by
  simp only [parent]
  omega

theorem HeapBut.sift {a : Array α} {c : Nat} (heap : HeapBut le ptr n k r a)
    (greatest : Greatest le ptr n r c a) {first : ptr + r < a.size} {second : ptr + c < a.size}
    (ordered : InOrder le a (ptr + r) (ptr + c)) :
    HeapBut le ptr n k c (a.swap (ptr + r) (ptr + c)) := by
  have child := greatest.child
  have apart : r < c := child ▸ parent_lt greatest.positive
  constructor
  · intro j positive below past other
    have above := parent_lt positive
    by_cases same : parent j = r
    · rw [same]
      by_cases chosen : j = c
      · rw [chosen]
        exact ordered.congr (swap_second (by omega)) swap_first
      · exact (greatest.greatest j positive below same).congr
          (swap_other (by omega) (by omega)) swap_first
    · by_cases hole : j = r
      · subst hole
        exact (heap.grand c greatest.positive greatest.inside child positive past).congr
          swap_first (swap_other (by omega) (by omega))
      · have chosen : j ≠ c := by
          rintro rfl
          exact same child
        exact (heap.others j positive below past same).congr
          (swap_other (by omega) (by omega)) (swap_other (by omega) (by omega))
  · intro j positive below same _ past
    have above := parent_lt positive
    rw [child] at past ⊢
    have edge := heap.others j positive below (by omega) (by omega)
    rw [same] at edge
    exact edge.congr (swap_other (by omega) (by omega)) swap_first

theorem siftDown_yields [IsPreorder α le] (judges : Judges cmp le good) (fuel : Nat)
    (within : ptr + n ≤ s.base.size) (inside : r < n) (enough : n - r ≤ fuel) :
    Yields (siftDown cmp ptr n fuel r s) fun t => Moves cmp good ptr (ptr + n) s t ∧
      (good t.ctx → HeapBut le ptr n k r s.base → HeapFrom le ptr n k t.base) := by
  induction fuel generalizing r s with
  | zero => omega
  | succ fuel ih =>
      simp only [siftDown]
      split_ifs with children
      · refine (greaterChild_yields judges within children).bind ?_
        rintro _ ⟨c, chosen, rfl, above, below, earlier, greatest⟩
        refine (compare_yields judges (s := ⟨chosen, s.base⟩) (by simp only; omega)
          (by simp only; omega)).bind ?_
        rintro _ ⟨d, ctx, rfl, judged⟩
        have later : Later cmp good s.ctx ctx := earlier.trans judged.toLater
        simp only
        split_ifs with greater
        · refine .pure ⟨⟨later, Shuffles.refl _ _ _⟩, fun known heap => ?_⟩
          exact heap.done (greatest (judged.earlier known)) within
            (judged.after known (by omega))
        · rw [swap_eq (s := ⟨ctx, s.base⟩) (by simp only; omega) (by simp only; omega)]
          refine (ih (s := ⟨ctx, s.base.swap (ptr + r) (ptr + c)⟩) (r := c) ?_ below
            (by omega)).mono ?_
          · simpa using within
          · rintro t ⟨moves, sifted⟩
            have first : Moves cmp good ptr (ptr + n) s ⟨ctx, s.base.swap (ptr + r) (ptr + c)⟩ :=
              ⟨later, Shuffles.swap (by omega) (by omega)⟩
            refine ⟨first.trans moves, fun ended heap => sifted ended ?_⟩
            have known := moves.earlier ended
            exact heap.sift (greatest (judged.earlier known)) (judged.before known (by omega))
      · refine .pure ⟨Moves.refl s, fun _ heap j positive below past => ?_⟩
        apply heap.others j positive below past
        rintro rfl
        simp only [parent] at children
        omega

theorem heapFrom_half (a : Array α) : HeapFrom le ptr n (n / 2) a := by
  intro j positive below past
  simp only [parent] at past
  omega

theorem HeapFrom.hole {a : Array α} (heap : HeapFrom le ptr n (k + 1) a) :
    HeapBut le ptr n k k a := by
  constructor
  · intro j positive below past other
    exact heap j positive below (by omega)
  · intro j _ _ _ positive past
    have above := parent_lt positive
    omega

theorem buildHeap_yields [IsPreorder α le] (judges : Judges cmp le good)
    (within : ptr + n ≤ s.base.size) (inside : i ≤ n) :
    Yields (buildHeap cmp ptr n i s) fun t => Moves cmp good ptr (ptr + n) s t ∧
      (good t.ctx → HeapFrom le ptr n i s.base → HeapFrom le ptr n 0 t.base) := by
  induction i generalizing s with
  | zero => exact .pure ⟨Moves.refl s, fun _ heap => heap⟩
  | succ i ih =>
      refine (siftDown_yields (r := i) (k := i) judges n within (by omega) (by omega)).bind ?_
      rintro t ⟨moves, sifted⟩
      refine (ih (moves.within within) (by omega)).mono ?_
      rintro u ⟨later, built⟩
      refine ⟨moves.trans later, fun fine heap => built fine ?_⟩
      exact sifted (later.earlier fine) heap.hole

theorem HeapFrom.root [IsPreorder α le] {a : Array α} (heap : HeapFrom le ptr n 0 a)
    (within : ptr + n ≤ a.size) (inside : i < n) : InOrder le a (ptr + i) ptr := by
  induction i using Nat.strong_induction_on with
  | h i ih =>
      by_cases top : i = 0
      · subst top
        exact inOrder_self a ptr
      · have above := parent_lt (Nat.pos_of_ne_zero top)
        have edge := heap i (by omega) inside (Nat.zero_le _)
        exact edge.trans (ih _ above (by omega)) (by omega)

theorem HeapFrom.drain {a : Array α} {first : ptr < a.size} {second : ptr + (i + 1) < a.size}
    (heap : HeapFrom le ptr (i + 2) 0 a) :
    HeapBut le ptr (i + 1) 0 0 (a.swap ptr (ptr + (i + 1))) := by
  constructor
  · intro j positive below past other
    have above := parent_lt positive
    exact (heap j positive (by omega) past).congr (swap_other (by omega) (by omega))
      (swap_other (by omega) (by omega))
  · intro j _ _ _ positive
    omega

def SortedOn (le : α → α → Prop) (lo hi : Nat) (a : Array α) : Prop :=
  ∀ i j, lo ≤ i → i < j → j < hi → InOrder le a i j

theorem drainHeap_yields [IsPreorder α le] (judges : Judges cmp le good)
    (within : ptr + (i + 1) ≤ s.base.size) :
    Yields (drainHeap cmp ptr i s) fun t => Moves cmp good ptr (ptr + (i + 1)) s t ∧
      (good t.ctx → HeapFrom le ptr (i + 1) 0 s.base →
        SortedOn le ptr (ptr + (i + 1)) t.base) := by
  induction i generalizing s with
  | zero =>
      refine .pure ⟨Moves.refl s, fun _ _ j l lower less upper => ?_⟩
      omega
  | succ i ih =>
      have first : ptr < s.base.size := by omega
      have second : ptr + (i + 1) < s.base.size := by omega
      simp only [drainHeap, swap_eq first second, Option.bind_eq_bind, Option.bind_some]
      have swapped : Moves cmp good ptr (ptr + (i + 2)) s
          ⟨s.ctx, s.base.swap ptr (ptr + (i + 1))⟩ :=
        Moves.swap (by omega) (by omega)
      refine (siftDown_yields (r := 0) (k := 0) judges (i + 1) (by rw [swapped.size]; omega)
        (by omega) (by omega)).bind ?_
      rintro t ⟨moves, sifted⟩
      refine (ih (by rw [moves.size, swapped.size]; omega)).mono ?_
      rintro u ⟨later, drained⟩
      have inner : Moves cmp good ptr (ptr + (i + 1)) _ u := moves.trans later
      refine ⟨swapped.trans (inner.mono le_rfl (by omega)), fun fine heap => ?_⟩
      have sorted := drained fine (sifted (later.earlier fine) heap.drain)
      have greatest : Everywhere ptr (ptr + (i + 2)) (fun x => le x s.base[ptr]) u.base := by
        refine Everywhere.shuffle (a := s.base) ?_
          (swapped.trans (inner.mono le_rfl (by omega))).shuffles le_rfl le_rfl
        intro l x lower upper read
        obtain ⟨j, rfl⟩ := Nat.exists_eq_add_of_le lower
        exact heap.root within (by omega) x _ read (Array.getElem?_eq_getElem first)
      have last : u.base[ptr + (i + 1)]? = some s.base[ptr] := by
        rw [inner.shuffles.outside (by omega), swap_second (by omega),
          Array.getElem?_eq_getElem first]
      intro j l lower less upper
      by_cases behind : l = ptr + (i + 1)
      · intro x y here there
        rw [behind, last] at there
        cases there
        exact greatest j x lower (by omega) here
      · exact sorted j l lower less (by omega)

theorem heapsortx_yields [IsPreorder α le] (judges : Judges cmp le good)
    (within : ptr + n ≤ s.base.size) :
    Yields (heapsortx cmp ptr n s) fun t => Moves cmp good ptr (ptr + n) s t ∧
      (good t.ctx → SortedOn le ptr (ptr + n) t.base) := by
  simp only [heapsortx]
  split_ifs with several
  · obtain ⟨i, rfl⟩ := Nat.exists_eq_add_of_le (show 1 ≤ n by omega)
    refine (buildHeap_yields judges within (Nat.div_le_self _ 2)).bind ?_
    rintro t ⟨moves, built⟩
    simp only [Nat.add_comm 1 i, Nat.add_sub_cancel] at *
    refine (drainHeap_yields judges (moves.within within)).mono ?_
    rintro u ⟨later, drained⟩
    refine ⟨moves.trans later, fun fine => drained fine ?_⟩
    exact built (later.earlier fine) (heapFrom_half s.base)
  · refine .pure ⟨Moves.refl s, fun _ j l lower less upper => ?_⟩
    omega

end BreezeJs.Rqsort
