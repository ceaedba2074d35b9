import BreezeJs.Engine.RqsortHeap

set_option autoImplicit false

namespace BreezeJs.Rqsort

open Segments

variable {σ α : Type} {cmp : σ → α → α → Int × σ} {le : α → α → Prop} {good : σ → Prop}
variable {s t : Sorting σ α} {ptr top : Nat} {v : α}

theorem med3_yields (judges : Judges cmp le good) {a b c : Nat} (first : a < s.base.size)
    (second : b < s.base.size) (third : c < s.base.size) :
    Yields (med3 cmp a b c s) fun result => ∃ m ctx, result = (m, ⟨ctx, s.base⟩) ∧
      (m = a ∨ m = b ∨ m = c) ∧ Later cmp good s.ctx ctx := by
  refine (compare_yields judges first second).bind ?_
  rintro _ ⟨d, ctx, rfl, judged⟩
  refine (compare_yields judges (s := ⟨ctx, s.base⟩) second third).bind ?_
  rintro _ ⟨d', ctx', rfl, judged'⟩
  have earlier : Later cmp good s.ctx ctx' := judged.toLater.trans judged'.toLater
  have last : ∀ yes no : Nat, (yes = a ∨ yes = c) → (no = a ∨ no = c) →
      Yields (compare cmp a c ⟨ctx', s.base⟩ >>= fun answer =>
        some (if answer.1 < 0 then yes else no, answer.2)) fun result => ∃ m ctx,
          result = (m, ⟨ctx, s.base⟩) ∧ (m = a ∨ m = b ∨ m = c) ∧ Later cmp good s.ctx ctx := by
    intro yes no isYes isNo
    refine (compare_yields judges (s := ⟨ctx', s.base⟩) first third).bind ?_
    rintro _ ⟨e, ctx'', rfl, judged''⟩
    refine .pure ⟨_, _, rfl, ?_, earlier.trans judged''.toLater⟩
    split_ifs
    · exact isYes.imp id .inr
    · exact isNo.imp id .inr
  simp only
  split_ifs
  · exact .pure ⟨b, _, rfl, .inr (.inl rfl), earlier⟩
  · exact last c a (.inr rfl) (.inl rfl)
  · exact .pure ⟨b, _, rfl, .inr (.inl rfl), earlier⟩
  · exact last a c (.inl rfl) (.inr rfl)

def Same (le : α → α → Prop) (v x : α) : Prop := le x v ∧ le v x

structure Zones (le : α → α → Prop) (v : α) (ptr plt pi pj pgt top : Nat) (a : Array α) :
    Prop where
  pivot : a[ptr]? = some v
  low : Everywhere ptr plt (Same le v) a
  less : Everywhere plt pi (fun x => le x v) a
  more : Everywhere pj pgt (fun x => le v x) a
  high : Everywhere pgt top (Same le v) a

structure Bounds (ptr top : Nat) (p : Scan) : Prop where
  pivot : ptr < p.plt
  low : p.plt ≤ p.pi
  middle : p.pi ≤ p.pj
  high : p.pj ≤ p.pgt
  top : p.pgt ≤ top

section Scans

variable {plt pi pj pgt : Nat} {a : Array α}

theorem Zones.up (zones : Zones le v ptr plt pi pj pgt top a) (order : InOrder le a pi ptr) :
    Zones le v ptr plt (pi + 1) pj pgt top a :=
  { zones with less := zones.less.append (order.below zones.pivot) }

theorem Zones.up_same (zones : Zones le v ptr plt pi pj pgt top a) {first : plt < a.size}
    {second : pi < a.size} (bounds : ptr < plt ∧ plt ≤ pi ∧ pi < pj ∧ pj ≤ pgt)
    (order : InOrder le a pi ptr) (order' : InOrder le a ptr pi) :
    Zones le v ptr (plt + 1) (pi + 1) pj pgt top (a.swap plt pi) := by
  have same : Everywhere pi (pi + 1) (Same le v) a := fun k x lower upper read =>
    ⟨order.below zones.pivot k x lower upper read,
      order'.above zones.pivot k x lower upper read⟩
  constructor
  · rw [swap_other (by omega) (by omega)]
    exact zones.pivot
  · refine Everywhere.append (m := plt) ?_ ?_
    · exact zones.low.swap_away (by omega) (by omega)
    · exact same.swap_first
  · refine zones.less.of_reads fun k lower upper => ?_
    by_cases last : k = pi
    · exact ⟨plt, le_rfl, by omega, by rw [last, swap_second (by omega)]⟩
    · exact ⟨k, by omega, by omega, swap_other (by omega) last⟩
  · exact zones.more.swap_away (by omega) (by omega)
  · exact zones.high.swap_away (by omega) (by omega)

theorem Zones.down (zones : Zones le v ptr plt pi (pj + 1) pgt top a)
    (order : InOrder le a ptr pj) : Zones le v ptr plt pi pj pgt top a :=
  { zones with more := (order.above zones.pivot).append zones.more }

theorem Zones.down_same (zones : Zones le v ptr plt pi (pj + 1) (pgt + 1) top a)
    {first : pgt < a.size} {second : pj < a.size}
    (bounds : ptr < plt ∧ plt ≤ pi ∧ pi < pj ∧ pj ≤ pgt) (order : InOrder le a pj ptr)
    (order' : InOrder le a ptr pj) : Zones le v ptr plt pi pj pgt top (a.swap pgt pj) := by
  have same : Everywhere pj (pj + 1) (Same le v) a := fun k x lower upper read =>
    ⟨order.below zones.pivot k x lower upper read, order'.above zones.pivot k x lower upper read⟩
  constructor
  · rw [swap_other (by omega) (by omega)]
    exact zones.pivot
  · exact zones.low.swap_away (by omega) (by omega)
  · exact zones.less.swap_away (by omega) (by omega)
  · refine zones.more.of_reads fun k lower upper => ?_
    by_cases last : k = pj
    · exact ⟨pgt, by omega, by omega, by rw [last, swap_second (by omega)]⟩
    · exact ⟨k, by omega, by omega, swap_other (by omega) last⟩
  · refine Everywhere.append (m := pgt + 1) ?_ ?_
    · exact same.swap_first
    · exact zones.high.swap_away (by omega) (by omega)

theorem Zones.exchange (zones : Zones le v ptr plt pi (pj + 1) pgt top a) {first : pi < a.size}
    {second : pj < a.size} (bounds : ptr < plt ∧ plt ≤ pi ∧ pi < pj ∧ pj < pgt)
    (greater : Everywhere pi (pi + 1) (fun x => le v x) a)
    (smaller : Everywhere pj (pj + 1) (fun x => le x v) a) :
    Zones le v ptr plt (pi + 1) pj pgt top (a.swap pi pj) := by
  constructor
  · rw [swap_other (by omega) (by omega)]
    exact zones.pivot
  · exact zones.low.swap_away (by omega) (by omega)
  · refine Everywhere.append (m := pi) ?_ ?_
    · exact zones.less.swap_away (by omega) (by omega)
    · exact smaller.swap_first
  · refine Everywhere.append (m := pj + 1) ?_ ?_
    · exact greater.swap_second (by omega)
    · exact zones.more.swap_away (by omega) (by omega)
  · exact zones.high.swap_away (by omega) (by omega)

end Scans

theorem scanUp_yields (judges : Judges cmp le good) (fuel : Nat) {p : Scan}
    (bounds : Bounds ptr top p) (within : top ≤ s.base.size) (enough : p.pj - p.pi < fuel) :
    Yields (scanUp cmp ptr fuel p s) fun result => ∃ q t, result = (q, t) ∧
      Moves cmp good (ptr + 1) top s t ∧ Bounds ptr top q ∧ q.pj = p.pj ∧ p.pi ≤ q.pi ∧
      (good t.ctx → Zones le v ptr p.plt p.pi p.pj p.pgt top s.base →
        Zones le v ptr q.plt q.pi q.pj q.pgt top t.base ∧
          (q.pi < q.pj → Everywhere q.pi (q.pi + 1) (fun x => le v x) t.base)) := by
  induction fuel generalizing p s with
  | zero => omega
  | succ fuel ih =>
      have ⟨pivot, low, middle, high, upper⟩ := bounds
      simp only [scanUp]
      split_ifs with more
      · refine (compare_yields judges (by omega) (by omega)).bind ?_
        rintro _ ⟨c, ctx, rfl, judged⟩
        have looked : Moves cmp good (ptr + 1) top s ⟨ctx, s.base⟩ := judged.moves
        simp only
        split_ifs with greater same
        · refine (ih (s := ⟨ctx, s.base⟩) (p := { p with pi := p.pi + 1 })
            ⟨pivot, by simp only; omega, by simp only; omega, high, upper⟩ within
            (by simp only; omega)).mono ?_
          rintro _ ⟨q, t, rfl, moves, after, stays, onward, known⟩
          refine ⟨q, t, rfl, looked.trans moves, after, stays, by simp only at onward; omega,
            fun fine zones => known fine ?_⟩
          exact zones.up (judged.after (moves.earlier fine) (by omega))
        · rw [swap_eq (s := ⟨ctx, s.base⟩) (by simp only; omega) (by simp only; omega)]
          have swapped : Moves cmp good (ptr + 1) top s ⟨ctx, s.base.swap p.plt p.pi⟩ :=
            looked.trans (Moves.swap (by omega) (by omega))
          refine (ih (p := { p with pi := p.pi + 1, plt := p.plt + 1 })
            ⟨by simp only; omega, by simp only; omega, by simp only; omega, high, upper⟩
            (swapped.within within) (by simp only; omega)).mono ?_
          rintro _ ⟨q, t, rfl, moves, after, stays, onward, known⟩
          refine ⟨q, t, rfl, swapped.trans moves, after, stays, by simp only at onward; omega,
            fun fine zones => known fine ?_⟩
          have judgedFine := moves.earlier fine
          exact zones.up_same ⟨pivot, low, more, high⟩ (judged.after judgedFine (by omega))
            (judged.before judgedFine (by omega))
        · refine .pure ⟨p, _, rfl, looked, bounds, rfl, le_rfl, fun fine zones => ?_⟩
          refine ⟨zones, fun _ => ?_⟩
          exact (judged.before fine (by omega)).above zones.pivot
      · refine .pure ⟨p, s, rfl, Moves.refl s, bounds, rfl, le_rfl, fun _ zones => ?_⟩
        exact ⟨zones, fun less => absurd less more⟩

structure Stopped (ptr top : Nat) (p : Scan) : Prop where
  pivot : ptr < p.plt
  low : p.plt ≤ p.pi
  middle : p.pi ≤ p.pj + 1
  high : p.pj < p.pgt
  top : p.pgt ≤ top

theorem scanDown_yields (judges : Judges cmp le good) (fuel : Nat) {p : Scan}
    (bounds : Bounds ptr top p) (within : top ≤ s.base.size) (enough : p.pj - p.pi < fuel) :
    Yields (scanDown cmp ptr fuel p s) fun result => ∃ q t, result = (q, t) ∧
      Moves cmp good (p.pi + 1) top s t ∧ Stopped ptr top q ∧ q.plt = p.plt ∧ q.pi = p.pi ∧
      q.pj < p.pj ∧
      (good t.ctx → Zones le v ptr p.plt p.pi p.pj p.pgt top s.base →
        Zones le v ptr q.plt q.pi (q.pj + 1) q.pgt top t.base ∧
          (q.pi < q.pj → Everywhere q.pj (q.pj + 1) (fun x => le x v) t.base)) := by
  induction fuel generalizing p s with
  | zero => omega
  | succ fuel ih =>
      have ⟨pivot, low, middle, high, upper⟩ := bounds
      obtain ⟨pi, plt, pj, pgt⟩ := p
      obtain ⟨last, rfl⟩ : ∃ last, pj = last + 1 := ⟨pj - 1, by simp only at *; omega⟩
      simp only [scanDown, Nat.add_sub_cancel] at *
      split_ifs with more
      · refine (compare_yields judges (by omega) (by omega)).bind ?_
        rintro _ ⟨c, ctx, rfl, judged⟩
        have looked : Moves cmp good (pi + 1) top s ⟨ctx, s.base⟩ := judged.moves
        simp only
        split_ifs with smaller same
        · refine (ih (s := ⟨ctx, s.base⟩) (p := ⟨pi, plt, last, pgt⟩)
            ⟨pivot, low, by simp only; omega, by simp only; omega, upper⟩ within
            (by simp only; omega)).mono ?_
          rintro _ ⟨q, t, rfl, moves, stopped, samePlt, samePi, down, known⟩
          refine ⟨q, t, rfl, looked.trans moves, stopped, samePlt, samePi,
            by simp only at down; omega, fun fine zones => known fine ?_⟩
          exact zones.down (judged.before (moves.earlier fine) (by omega))
        · obtain ⟨before, rfl⟩ : ∃ before, pgt = before + 1 := ⟨pgt - 1, by omega⟩
          simp only [Nat.add_sub_cancel]
          rw [swap_eq (s := ⟨ctx, s.base⟩) (by simp only; omega) (by simp only; omega)]
          have swapped : Moves cmp good (pi + 1) top s ⟨ctx, s.base.swap before last⟩ :=
            looked.trans (Moves.swap (by omega) (by omega))
          refine (ih (p := ⟨pi, plt, last, before⟩)
            ⟨pivot, low, by simp only; omega, by simp only; omega, by simp only; omega⟩
            (swapped.within within) (by simp only; omega)).mono ?_
          rintro _ ⟨q, t, rfl, moves, stopped, samePlt, samePi, down, known⟩
          refine ⟨q, t, rfl, swapped.trans moves, stopped, samePlt, samePi,
            by simp only at down; omega, fun fine zones => known fine ?_⟩
          have judgedFine := moves.earlier fine
          exact zones.down_same ⟨pivot, low, more, by omega⟩ (judged.after judgedFine (by omega))
            (judged.before judgedFine (by omega))
        · refine .pure ⟨_, _, rfl, looked, ⟨pivot, low, middle, high, upper⟩, rfl, rfl,
            Nat.lt_succ_self last, fun fine zones => ⟨zones, fun _ => ?_⟩⟩
          exact (judged.after fine (by omega)).below zones.pivot
      · refine .pure ⟨_, s, rfl, Moves.refl s, ⟨pivot, low, middle, high, upper⟩, rfl, rfl,
          Nat.lt_succ_self last, fun _ zones => ⟨zones, fun less => absurd less more⟩⟩

theorem scan_yields (judges : Judges cmp le good) (fuel : Nat) {p : Scan}
    (bounds : Bounds ptr top p) (within : top ≤ s.base.size) (enough : p.pj - p.pi < fuel) :
    Yields (scan cmp ptr fuel p s) fun result => ∃ q t, result = (q, t) ∧
      Moves cmp good (ptr + 1) top s t ∧ ptr < q.plt ∧ q.plt ≤ q.pi ∧ q.pi ≤ q.pgt ∧ q.pgt ≤ top ∧
      (good t.ctx → Zones le v ptr p.plt p.pi p.pj p.pgt top s.base →
        Zones le v ptr q.plt q.pi q.pi q.pgt top t.base) := by
  induction fuel generalizing p s with
  | zero => omega
  | succ fuel ih =>
      simp only [scan]
      refine (scanUp_yields (v := v) judges _ bounds within (Nat.lt_succ_self _)).bind ?_
      rintro _ ⟨q, t, rfl, up, middle, samePj, onward, upward⟩
      refine (scanDown_yields (v := v) judges _ middle (up.within within)
        (Nat.lt_succ_self _)).bind ?_
      rintro _ ⟨r, u, rfl, down, stopped, samePlt, samePi, downward, backward⟩
      have ⟨pivot, low, met, high, upper⟩ := stopped
      have before := middle.low
      have moved : Moves cmp good (ptr + 1) top s u := up.trans (down.mono (by omega) le_rfl)
      have known : good u.ctx → Zones le v ptr p.plt p.pi p.pj p.pgt top s.base →
          Zones le v ptr r.plt r.pi (r.pj + 1) r.pgt top u.base ∧
            (r.pi < r.pj → Everywhere r.pj (r.pj + 1) (fun x => le x v) u.base) ∧
            (r.pi < q.pj → Everywhere r.pi (r.pi + 1) (fun x => le v x) u.base) := by
        intro fine zones
        have upped := upward (down.earlier fine) zones
        have downed := backward fine upped.1
        refine ⟨downed.1, downed.2, fun less => ?_⟩
        rw [samePi] at less ⊢
        exact (upped.2 less).away down.shuffles (.inl le_rfl)
      simp only
      split_ifs with crossed
      · refine .pure ⟨r, u, rfl, moved, pivot, low, by omega, upper, fun fine zones => ?_⟩
        obtain ⟨zones, _, front⟩ := known fine zones
        by_cases together : r.pj = r.pi
        · rw [together] at zones
          exact { zones with more := (front (by omega)).append zones.more }
        · have apart : r.pj + 1 = r.pi := by omega
          rw [apart] at zones
          exact zones
      · have inside : top ≤ u.base.size := moved.within within
        rw [swap_eq (by omega) (by omega)]
        have swapped : Moves cmp good (ptr + 1) top u ⟨u.ctx, u.base.swap r.pi r.pj⟩ :=
          Moves.swap (by omega) (by omega)
        refine (ih (p := { r with pi := r.pi + 1 })
          ⟨pivot, by simp only; omega, by simp only; omega, by simp only; omega, upper⟩
          (swapped.within inside) (by simp only; omega)).mono ?_
        rintro _ ⟨w, x, rfl, moves, pivot', low', high', upper', later⟩
        refine ⟨w, x, rfl, moved.trans (swapped.trans moves), pivot', low', high', upper',
          fun fine zones => later fine ?_⟩
        obtain ⟨zones, back, front⟩ := known (moves.earlier fine) zones
        exact zones.exchange ⟨pivot, low, by omega, high⟩ (front (by omega)) (back (by omega))

def exchanged (i j span k : Nat) : Nat :=
  if i ≤ k ∧ k < i + span then k - i + j else if j ≤ k ∧ k < j + span then k - j + i else k

theorem swapBlock_yields (cmp : σ → α → α → Int × σ) (good : σ → Prop) (lo hi : Nat)
    {i j span : Nat} (apart : i + span ≤ j) (within : hi ≤ s.base.size) (lower : lo ≤ i)
    (upper : j + span ≤ hi) : Yields (swapBlock i j span s) fun t =>
      Moves cmp good lo hi s t ∧ t.ctx = s.ctx ∧
      ∀ k, t.base[k]? = s.base[exchanged i j span k]? := by
  induction span generalizing i j s with
  | zero =>
      refine .pure ⟨Moves.refl s, rfl, fun k => ?_⟩
      have same : exchanged i j 0 k = k := by
        simp only [exchanged]
        split_ifs <;> omega
      rw [same]
  | succ span ih =>
      simp only [swapBlock]
      have first : i < s.base.size := by omega
      have second : j < s.base.size := by omega
      rw [swap_eq first second]
      have swapped : Moves cmp good lo hi s ⟨s.ctx, s.base.swap i j⟩ :=
        Moves.swap (by omega) (by omega)
      refine (ih (i := i + 1) (j := j + 1) (by omega) (swapped.within within)
        (by omega) (by omega)).mono ?_
      rintro t ⟨moves, same, reads⟩
      refine ⟨swapped.trans moves, same, fun k => ?_⟩
      rw [reads, swap_reads]
      congr 1
      simp only [exchanged]
      split_ifs <;> omega

def Parted (le : α → α → Prop) (ptr lt gt top : Nat) (a : Array α) : Prop :=
  ∀ i j, ptr ≤ i → i < j → j < top → Apart [(ptr, ptr + lt), (top - gt, top)] i j →
    InOrder le a i j

theorem parted_of_zones [IsTrans α le] {lt gt : Nat} {a : Array α}
    (few : ptr + lt + gt ≤ top) (less : Everywhere ptr (ptr + lt) (fun x => le x v) a)
    (same : Everywhere (ptr + lt) (top - gt) (Same le v) a)
    (more : Everywhere (top - gt) top (fun x => le v x) a) : Parted le ptr lt gt top a := by
  intro i j lower order upper apart
  simp only [Apart, List.forall_mem_cons] at apart
  have left : Everywhere ptr (top - gt) (fun x => le x v) a :=
    less.append (same.imp fun x equal => equal.1)
  have right : Everywhere (ptr + lt) top (fun x => le v x) a :=
    (same.imp fun x equal => equal.2).append more
  exact inOrder_of_bound left right (by omega) (by omega)

theorem everywhere_exchanged {P Q : α → Prop} {lo cut hi span : Nat} {a b : Array α}
    (lower : lo ≤ cut) (upper : cut ≤ hi) (smaller : span = min (cut - lo) (hi - cut))
    (left : Everywhere lo cut P a) (right : Everywhere cut hi Q a)
    (reads : ∀ k, b[k]? = a[exchanged lo (hi - span) span k]?) :
    Everywhere lo (lo + (hi - cut)) Q b ∧ Everywhere (lo + (hi - cut)) hi P b := by
  constructor
  · refine right.of_reads fun k above below => ⟨_, ?_, ?_, reads k⟩
    · simp only [exchanged]
      split_ifs <;> omega
    · simp only [exchanged]
      split_ifs <;> omega
  · refine left.of_reads fun k above below => ⟨_, ?_, ?_, reads k⟩
    · simp only [exchanged]
      split_ifs <;> omega
    · simp only [exchanged]
      split_ifs <;> omega

theorem gather_yields (cmp : σ → α → α → Int × σ) (le : α → α → Prop) [IsTrans α le]
    (good : σ → Prop) {p : Scan}
    (pivot : ptr < p.plt) (low : p.plt ≤ p.pi) (high : p.pi ≤ p.pgt) (upper : p.pgt ≤ top)
    (within : top ≤ s.base.size) : Yields (gather ptr top p s) fun t => Moves cmp good ptr top s t ∧
      (good t.ctx → Zones le v ptr p.plt p.pi p.pi p.pgt top s.base →
        Parted le ptr (p.pi - p.plt) (p.pgt - p.pi) top t.base) := by
  simp only [gather]
  refine (swapBlock_yields cmp good ptr p.pi (by omega) (by omega) le_rfl
    (by omega)).bind ?_
  rintro t ⟨first, _, front⟩
  refine (swapBlock_yields cmp good p.pi top (by omega)
    (first.within within) le_rfl (by omega)).mono ?_
  rintro u ⟨second, _, back⟩
  refine ⟨(first.mono le_rfl (by omega)).trans (second.mono (by omega) le_rfl), fun _ zones => ?_⟩
  have left := everywhere_exchanged (Nat.le_of_lt pivot) low rfl zones.low zones.less front
  have right := everywhere_exchanged high upper (Nat.min_comm _ _)
    (zones.more.away first.shuffles (.inr le_rfl)) (zones.high.away first.shuffles (.inr high)) back
  have middle : p.pi + (top - p.pgt) = top - (p.pgt - p.pi) := by omega
  rw [middle] at right
  refine parted_of_zones (v := v) (by omega) ?_ ?_ right.2
  · exact left.1.away second.shuffles (.inl (by omega))
  · exact (left.2.away second.shuffles (.inl le_rfl)).append right.1

theorem partition_yields [IsPreorder α le] (judges : Judges cmp le good) {nmemb : Nat}
    (several : 1 < nmemb) (within : ptr + nmemb ≤ s.base.size) :
    Yields (partition cmp ptr nmemb s) fun result => ∃ lt gt t, result = (lt, gt, t) ∧
      Moves cmp good ptr (ptr + nmemb) s t ∧ lt + gt < nmemb ∧
      (good t.ctx → Parted le ptr lt gt (ptr + nmemb) t.base) := by
  simp only [partition]
  refine (med3_yields judges (by omega) (by omega) (by omega)).bind ?_
  rintro _ ⟨m, ctx, rfl, chosen, earlier⟩
  have inside : ptr ≤ m ∧ m < ptr + nmemb := by omega
  simp only
  rw [swap_eq (by simp only; omega) (by simp only; omega)]
  have swapped : Moves cmp good ptr (ptr + nmemb) s
      ⟨ctx, s.base.swap ptr m (by omega) (by omega)⟩ :=
    ⟨earlier, Shuffles.swap (by omega) inside⟩
  have size : ptr + nmemb ≤ (s.base.swap ptr m (by omega) (by omega)).size := by
    rw [swapped.size]
    exact within
  have least : ptr < (s.base.swap ptr m (by omega) (by omega)).size := by omega
  obtain ⟨v, pivot⟩ : ∃ v, (s.base.swap ptr m (by omega) (by omega))[ptr]? = some v :=
    ⟨_, Array.getElem?_eq_getElem least⟩
  have bounds : Bounds ptr (ptr + nmemb) ⟨ptr + 1, ptr + 1, ptr + nmemb, ptr + nmemb⟩ :=
    ⟨Nat.lt_succ_self ptr, le_rfl, by simp only; omega, le_rfl, le_rfl⟩
  refine (scan_yields (v := v) judges nmemb bounds size (by simp only; omega)).bind ?_
  rintro _ ⟨p, t, rfl, moves, first, low, high, upper, known⟩
  refine (gather_yields (v := v) cmp le good first low high upper
    (moves.within size)).bind ?_
  rintro u ⟨gathered, parted⟩
  refine .pure ⟨_, _, u, rfl, ?_, by simp only; omega, fun fine => ?_⟩
  · exact swapped.trans ((moves.mono (by omega) le_rfl).trans gathered)
  · refine parted fine (known (gathered.earlier fine) ⟨pivot, ?_, ?_, ?_, ?_⟩)
    · intro k x lower upper' read
      obtain rfl : k = ptr := by
        simp only at upper'
        omega
      cases pivot.symm.trans read
      exact ⟨refl_of le v, refl_of le v⟩
    · exact Everywhere.empty _ _ _
    · exact Everywhere.empty _ _ _
    · exact Everywhere.empty _ _ _

end BreezeJs.Rqsort
