import Mathlib.Algebra.Ring.Int.Defs
import Mathlib.Data.Int.Order.Basic
import BreezeJs.Std.Headers

set_option autoImplicit false

namespace BreezeJs

-- Positions are `int`s, whose arithmetic is undefined where it leaves their range.

open Infra

structure Blob where
  data : Bytes
  type : Bytes
deriving DecidableEq, Repr

namespace Blob

inductive Undefined where
  | overflow
  | outOfRange
deriving DecidableEq, Repr

def checked (n : Int) : Except Undefined Int :=
  if -2 ^ 31 ≤ n ∧ n < 2 ^ 31 then .ok n else .error .overflow

-- `static_cast<int>` of a `size_t`.
def toInt (n : Nat) : Int :=
  if n % 2 ^ 32 < 2 ^ 31 then n % 2 ^ 32 else n % 2 ^ 32 - 2 ^ 32

def resolve (size i : Int) : Except Undefined Int :=
  if i < 0 then (checked (size + i)).map (max · 0) else .ok (min i size)

def assign (data : Bytes) (s span : Int) : Except Undefined Bytes :=
  if 0 < span then
    if 0 ≤ s ∧ s + span ≤ data.length then .ok ((data.drop s.toNat).take span.toNat)
    else .error .outOfRange
  else .ok []

def sliceData (data : Bytes) (start stop : Option Int) : Except Undefined Bytes := do
  let size := toInt data.length
  let s ← resolve size (start.getD 0)
  let e ← resolve size (stop.getD size)
  let difference ← checked (e - s)
  assign data s (max difference 0)

def slice (self : Blob) (start stop : Option Int32) (contentType : Option Bytes) :
    Except Undefined Blob :=
  (sliceData self.data (start.map Int32.toInt) (stop.map Int32.toInt)).map fun data =>
    { data := data
      type := contentType.getD [] }

end Blob

def Http.Response.blob (self : Http.Response) : Blob where
  data := self.body
  type := Http.Headers.get (text "content-type") self.headers

namespace Blob

def range (data : Bytes) (s e : Nat) : Bytes :=
  (data.drop s).take (e - s)

def position (n : Nat) (i : Int) : Nat :=
  if i < 0 then (n + i).toNat else min i.toNat n

def fileSlice (data : Bytes) (start stop : Option Int) : Bytes :=
  range data (position data.length (start.getD 0))
    ((stop.map (position data.length)).getD data.length)

def Sliced (self : Blob) (start stop : Option Int32) : Prop :=
  ∀ contentType, self.slice start stop contentType = .ok {
    data := fileSlice self.data (start.map Int32.toInt) (stop.map Int32.toInt)
    type := contentType.getD [] }

theorem position_le (n : Nat) (i : Int) : position n i ≤ n := by
  simp only [position]
  split_ifs <;> omega

theorem stop_le (n : Nat) (stop : Option Int) : (stop.map (position n)).getD n ≤ n := by
  cases stop with
  | none => exact le_refl n
  | some b => exact position_le n b

section Ranges

variable {data : Bytes} {s e s' e' : Nat}

theorem range_empty (ordered : e ≤ s) : range data s e = [] := by
  rw [range, Nat.sub_eq_zero_of_le ordered, List.take_zero]

theorem range_eq_nil_iff (inside : e ≤ data.length) : range data s e = [] ↔ e ≤ s := by
  rw [← List.length_eq_zero_iff, range, List.length_take, List.length_drop]
  omega

theorem range_length (inside : e ≤ data.length) : (range data s e).length = e - s := by
  rw [range, List.length_take, List.length_drop]
  omega

theorem range_sizes (inside : e ≤ data.length) (inside' : e' ≤ data.length)
    (same : range data s e = range data s' e') : e - s = e' - s' := by
  rw [← range_length inside, ← range_length inside', same]

theorem range_take {k : Nat} (inside : e ≤ k) : range (data.take k) s e = range data s e := by
  rw [range, range, List.drop_take, List.take_take]
  congr 1
  omega

end Ranges

section Positions

variable {size i : Int}

theorem resolve_nonneg (low : 0 ≤ size) (high : size < 2 ^ 31) (least : -2 ^ 31 ≤ i) :
    resolve size i = .ok (position size.toNat i) := by
  simp only [resolve, position, checked]
  split_ifs with negative fits
  · simp only [Except.map, Except.ok.injEq]
    omega
  · omega
  · simp only [Except.ok.injEq]
    omega

theorem resolve_negative (low : size < 0) (least : -2 ^ 31 ≤ size) :
    resolve size i =
      if 0 ≤ i then .ok size else if -2 ^ 31 ≤ size + i then .ok 0 else .error .overflow := by
  by_cases nonneg : 0 ≤ i
  · rw [resolve, if_neg (by omega), if_pos nonneg, min_eq_right (by omega)]
  · rw [resolve, if_pos (by omega), if_neg nonneg, checked]
    by_cases enough : -2 ^ 31 ≤ size + i
    · rw [if_pos (by omega), if_pos enough, Except.map, max_eq_right (by omega)]
    · rw [if_neg (by omega), if_neg enough, Except.map]

end Positions

theorem toInt_range (n : Nat) : -2 ^ 31 ≤ toInt n ∧ toInt n < 2 ^ 31 := by
  simp only [toInt]
  split_ifs <;> omega

theorem toInt_cases (n : Nat) :
    (n : Int) < 2 ^ 31 ∧ toInt n = n ∨ 2 ^ 31 ≤ (n : Int) ∧ toInt n + 2 ^ 32 ≤ n := by
  simp only [toInt]
  split_ifs <;> omega

section Cut

variable {data : Bytes} {start stop : Option Int}

theorem resolve_start {k : Nat} (high : (k : Int) < 2 ^ 31) (first : ∀ a ∈ start, -2 ^ 31 ≤ a) :
    resolve k (start.getD 0) = .ok (position k (start.getD 0) : Nat) := by
  have least : -2 ^ 31 ≤ start.getD 0 := by
    cases start with
    | none => simp
    | some a => exact first a rfl
  exact resolve_nonneg (by omega) high least

theorem resolve_stop {k : Nat} (high : (k : Int) < 2 ^ 31) (last : ∀ b ∈ stop, -2 ^ 31 ≤ b) :
    resolve k (stop.getD k) = .ok ((stop.map (position k)).getD k : Nat) := by
  cases stop with
  | none =>
      rw [Option.getD_none, resolve_nonneg (by omega) high (by omega), position,
        if_neg (by omega), Int.toNat_natCast, min_self]
      rfl
  | some b =>
      rw [Option.getD_some, resolve_nonneg (by omega) high (last b rfl), Int.toNat_natCast]
      rfl

theorem assign_range {k e : Nat} (inside : k ≤ data.length) (s : Nat) (stops : e ≤ k) :
    assign data s (max ((e : Int) - s) 0) = .ok (range (data.take k) s e) := by
  rw [assign, range_take stops]
  by_cases some : s < e
  · rw [if_pos (by omega), if_pos (by omega), Int.toNat_natCast, range]
    congr 2
    omega
  · rw [if_neg (by omega), range_empty (by omega)]

theorem sliceData_nonneg (low : 0 ≤ toInt data.length) (first : ∀ a ∈ start, -2 ^ 31 ≤ a)
    (last : ∀ b ∈ stop, -2 ^ 31 ≤ b) :
    sliceData data start stop =
      .ok (fileSlice (data.take (toInt data.length).toNat) start stop) := by
  have inside := toInt_cases data.length
  have high := (toInt_range data.length).2
  obtain ⟨k, known⟩ : ∃ k : Nat, toInt data.length = k := ⟨_, (Int.toNat_of_nonneg low).symm⟩
  have width : (data.take k).length = k := by
    rw [List.length_take]
    omega
  have short : (k : Int) < 2 ^ 31 := known ▸ high
  have beginning := resolve_start short first
  have ending := resolve_stop short last
  have starts := position_le k (start.getD 0)
  have stops := stop_le k stop
  simp only [sliceData, known, Int.toNat_natCast, fileSlice, width, beginning, ending]
  generalize position k (start.getD 0) = s at *
  generalize (stop.map (position k)).getD k = e at *
  have difference : checked ((e : Int) - s) = .ok ((e : Int) - s) := if_pos (by omega)
  have copied := assign_range (show k ≤ data.length by omega) s stops
  change (checked ((e : Int) - s) >>= fun difference => assign data s (max difference 0)) = _
  rw [difference]
  exact copied

def TailKept (data : Bytes) (size a b : Int) : Prop :=
  a < 0 ∧ (b ≤ a ∨ 0 ≤ size + a ∧
    range data (size + a).toNat (size + b).toNat =
      range data (data.length + a).toNat (data.length + b).toNat)

def CutSliceable (data : Bytes) (size a : Int) : Option Int → Prop
  | none => TailKept data size a 0
  | some b =>
      if 0 ≤ b then
        if 0 ≤ a then b ≤ a ∨ b ≤ size else size = 0 ∨ b ≤ max (size + a) 0
      else TailKept data size a b

def NegativeSliceable (n size a : Int) : Option Int → Prop
  | none => False
  | some b =>
      if 0 ≤ a then 0 ≤ b ∧ b ≤ a
      else -2 ^ 31 ≤ size + a ∧ if 0 ≤ b then b ≤ n + a else b ≤ a ∧ -2 ^ 31 ≤ size + b

def Sliceable (data : Bytes) (start stop : Option Int) : Prop :=
  let size := toInt data.length
  data.length < 2 ^ 31 ∨
    if 0 ≤ size then CutSliceable data size (start.getD 0) stop
    else NegativeSliceable data.length size (start.getD 0) stop

theorem position_nonneg {n : Nat} {i : Int} (nonneg : 0 ≤ i) : position n i = min i.toNat n :=
  if_neg (by omega)

theorem position_negative {n : Nat} {i : Int} (negative : i < 0) : position n i = (n + i).toNat :=
  if_pos negative

theorem position_cases {n : Nat} {i : Int} (inside : i ≤ n) :
    0 ≤ i ∧ position n i = i.toNat ∨ i < 0 ∧ position n i = (n + i).toNat := by
  by_cases nonneg : 0 ≤ i
  · rw [position_nonneg nonneg]
    omega
  · exact .inr ⟨by omega, position_negative (by omega)⟩

section Large

variable {k : Nat} {a b : Int}

theorem tail_kept_iff {s' e' e : Nat} (gap : k + 2 ^ 32 ≤ data.length) (least : -2 ^ 31 ≤ a)
    (most : a < 2 ^ 31) (upper : b ≤ 0)
    (lower : -2 ^ 31 ≤ b) (starts : s' = position k a) (stops' : e' = (k + b).toNat)
    (stops : e = (data.length + b).toNat) :
    range data s' e' = range data (position data.length a) e ↔ TailKept data k a b := by
  have inside : e ≤ data.length := by omega
  have inside' : e' ≤ data.length := by omega
  subst starts stops stops'
  by_cases nonneg : 0 ≤ a
  · rw [position_nonneg nonneg, position_nonneg nonneg]
    constructor
    · intro same
      have sizes := range_sizes inside' inside same
      omega
    · intro kept
      exact absurd kept.1 (by omega)
  · rw [position_negative (by omega), position_negative (by omega), TailKept]
    constructor
    · intro same
      have sizes := range_sizes inside' inside same
      refine ⟨by omega, ?_⟩
      by_cases ordered : b ≤ a
      · exact .inl ordered
      · exact .inr ⟨by omega, same⟩
    · rintro ⟨_, ordered | ⟨_, same⟩⟩
      · rw [range_empty (by omega), range_empty (by omega)]
      · exact same

theorem front_kept_iff (gap : k + 2 ^ 32 ≤ data.length) (nonneg : 0 ≤ a) (nonneg' : 0 ≤ b)
    (most : a < 2 ^ 31) (most' : b < 2 ^ 31) :
    range data (position k a) (position k b) =
        range data (position data.length a) (position data.length b) ↔ b ≤ a ∨ b ≤ k := by
  simp only [position_nonneg nonneg, position_nonneg nonneg']
  constructor
  · intro same
    have sizes := range_sizes (by omega) (by omega) same
    omega
  · rintro (ordered | inside)
    · rw [range_empty (by omega), range_empty (by omega)]
    · by_cases ordered : b ≤ a
      · rw [range_empty (by omega), range_empty (by omega)]
      · congr 1 <;> omega

theorem crossed_iff (gap : k + 2 ^ 32 ≤ data.length) (least : -2 ^ 31 ≤ a) (negative : a < 0)
    (nonneg : 0 ≤ b) (most : b < 2 ^ 31) :
    range data (position k a) (position k b) =
        range data (position data.length a) (position data.length b) ↔
      (k : Int) = 0 ∨ b ≤ max (k + a) 0 := by
  simp only [position_negative negative, position_nonneg nonneg]
  have none : range data (data.length + a).toNat (min b.toNat data.length) = [] :=
    range_empty (by omega)
  rw [none, range_eq_nil_iff (by omega)]
  omega

theorem cut_iff (gap : k + 2 ^ 32 ≤ data.length) (first : ∀ a ∈ start, -2 ^ 31 ≤ a ∧ a < 2 ^ 31)
    (last : ∀ b ∈ stop, -2 ^ 31 ≤ b ∧ b < 2 ^ 31) :
    fileSlice (data.take k) start stop = fileSlice data start stop ↔
      CutSliceable data k (start.getD 0) stop := by
  have width : (data.take k).length = k := by
    rw [List.length_take]
    omega
  have bounds : -2 ^ 31 ≤ start.getD 0 ∧ start.getD 0 < 2 ^ 31 := by
    cases start with
    | none => simp
    | some a => exact first a rfl
  simp only [fileSlice, width, range_take (stop_le k stop)]
  cases stop with
  | none =>
      exact tail_kept_iff gap bounds.1 bounds.2 (le_refl 0) (by omega) rfl (by simp) (by simp)
  | some b =>
      have bounds' := last b rfl
      simp only [Option.map_some, Option.getD_some, CutSliceable]
      by_cases nonneg' : 0 ≤ b
      · rw [if_pos nonneg']
        by_cases nonneg : 0 ≤ start.getD 0
        · rw [if_pos nonneg]
          exact front_kept_iff gap nonneg nonneg' bounds.2 bounds'.2
        · rw [if_neg nonneg]
          exact crossed_iff gap bounds.1 (by omega) nonneg' bounds'.2
      · rw [if_neg nonneg']
        have ends : position k b = (k + b).toNat := position_negative (by omega)
        have ends' : position data.length b = (data.length + b).toNat :=
          position_negative (by omega)
        exact tail_kept_iff gap bounds.1 bounds.2 (by omega) bounds'.1 rfl ends ends'

end Large

theorem copy_empty {s e : Int} (ordered : e ≤ s) (fits : -2 ^ 31 ≤ e - s) :
    (checked (e - s) >>= fun difference => assign data s (max difference 0)) = .ok [] := by
  rw [checked, if_pos (by omega)]
  change assign data s (max (e - s) 0) = .ok []
  rw [assign, if_neg (by omega)]

theorem copy_outside {s : Int} (negative : s < 0) (bytes : Bytes) :
    (checked (0 - s) >>= fun difference => assign data s (max difference 0)) ≠ .ok bytes := by
  rw [checked]
  split_ifs with fits
  · change assign data s (max (0 - s) 0) ≠ .ok bytes
    rw [assign, if_pos (by omega), if_neg (by omega)]
    exact nofun
  · exact nofun

-- A negative size copies nothing, in these cases without a fault.
def Defined (size a b : Int) : Prop :=
  if 0 ≤ a then 0 ≤ b else -2 ^ 31 ≤ size + a ∧ (0 ≤ b ∨ -2 ^ 31 ≤ size + b)

theorem negative_ok_iff {size : Int} (negative : size < 0) (least : -2 ^ 31 ≤ size) (a b : Int)
    (bytes : Bytes) :
    (resolve size a >>= fun s => resolve size b >>= fun e => checked (e - s) >>= fun difference =>
        assign data s (max difference 0)) = .ok bytes ↔ bytes = [] ∧ Defined size a b := by
  have never : (Except.error .overflow : Except Undefined Bytes) ≠ .ok bytes := nofun
  have empty {s e : Int} (ordered : e ≤ s) (fits : -2 ^ 31 ≤ e - s) :
      (checked (e - s) >>= fun difference => assign data s (max difference 0)) = .ok bytes ↔
        bytes = [] := by
    rw [copy_empty ordered fits, Except.ok.injEq, eq_comm]
  rw [resolve_negative negative least, resolve_negative negative least, Defined]
  by_cases nonneg : 0 ≤ a
  · rw [if_pos nonneg, if_pos nonneg]
    by_cases nonneg' : 0 ≤ b
    · rw [if_pos nonneg', and_iff_left nonneg']
      exact empty (le_refl size) (by omega)
    · rw [if_neg nonneg']
      refine iff_of_false ?_ (fun right => nonneg' right.2)
      split_ifs
      · exact copy_outside negative bytes
      · exact never
  · rw [if_neg nonneg, if_neg nonneg]
    by_cases enough : -2 ^ 31 ≤ size + a
    · rw [if_pos enough, and_iff_right enough]
      by_cases nonneg' : 0 ≤ b
      · rw [if_pos nonneg', and_iff_left (.inl nonneg')]
        exact empty (by omega) (by omega)
      · rw [if_neg nonneg', or_iff_right nonneg']
        by_cases enough' : -2 ^ 31 ≤ size + b
        · rw [if_pos enough', and_iff_left enough']
          exact empty (le_refl 0) (by omega)
        · rw [if_neg enough']
          exact iff_of_false never (fun right => enough' right.2)
    · rw [if_neg enough]
      exact iff_of_false never (fun right => enough right.2.1)

theorem negative_iff (negative : toInt data.length < 0)
    (first : ∀ a ∈ start, -2 ^ 31 ≤ a ∧ a < 2 ^ 31) (last : ∀ b ∈ stop, -2 ^ 31 ≤ b ∧ b < 2 ^ 31) :
    sliceData data start stop = .ok (fileSlice data start stop) ↔
      NegativeSliceable data.length (toInt data.length) (start.getD 0) stop := by
  have large := toInt_cases data.length
  have bounds : -2 ^ 31 ≤ start.getD 0 ∧ start.getD 0 < 2 ^ 31 := by
    cases start with
    | none => simp
    | some a => exact first a rfl
  refine (negative_ok_iff negative (toInt_range _).1 (start.getD 0) _ _).trans ?_
  rw [fileSlice, range_eq_nil_iff (stop_le _ stop), Defined]
  generalize toInt data.length = size at *
  generalize start.getD 0 = a at *
  have starts := position_cases (n := data.length) (i := a) (by omega)
  cases stop with
  | none =>
      simp only [Option.map_none, Option.getD_none, NegativeSliceable, iff_false]
      split_ifs <;> omega
  | some b =>
      have bounds' := last b rfl
      have stops := position_cases (n := data.length) (i := b) (by omega)
      simp only [Option.map_some, Option.getD_some, NegativeSliceable]
      split_ifs <;> omega

theorem sliced_iff (self : Blob) (start stop : Option Int32) :
    Sliced self start stop ↔
      sliceData self.data (start.map Int32.toInt) (stop.map Int32.toInt) =
        .ok (fileSlice self.data (start.map Int32.toInt) (stop.map Int32.toInt)) := by
  simp only [Sliced, slice]
  cases sliceData self.data (start.map Int32.toInt) (stop.map Int32.toInt) with
  | error fault => simp [Except.map]
  | ok data => simp [Except.map]

/-- A slice is defined and right exactly for blobs below 2 GiB and for the requests that the
truncated size does not touch. -/
theorem slice_right_iff (self : Blob) (start stop : Option Int32) :
    Sliced self start stop ↔
      Sliceable self.data (start.map Int32.toInt) (stop.map Int32.toInt) := by
  have bounds (i : Option Int32) : ∀ n ∈ i.map Int32.toInt, -2 ^ 31 ≤ n ∧ n < 2 ^ 31 := by
    intro n given
    cases i with
    | none => cases given
    | some j =>
        cases given
        exact ⟨j.le_toInt, j.toInt_lt⟩
  rw [sliced_iff, Sliceable]
  by_cases low : 0 ≤ toInt self.data.length
  · rw [if_pos low, sliceData_nonneg low (fun a given => (bounds start a given).1)
      (fun b given => (bounds stop b given).1), Except.ok.injEq]
    obtain ⟨k, known⟩ : ∃ k : Nat, toInt self.data.length = k :=
      ⟨_, (Int.toNat_of_nonneg low).symm⟩
    rw [known, Int.toNat_natCast]
    rcases toInt_cases self.data.length with ⟨small, same⟩ | ⟨large, gap⟩
    · have whole : self.data.take k = self.data := List.take_of_length_le (by omega)
      rw [whole]
      exact iff_of_true rfl (.inl (by omega))
    · rw [or_iff_right (by omega)]
      exact cut_iff (by omega) (bounds start) (bounds stop)
  · have large := toInt_cases self.data.length
    rw [if_neg low, or_iff_right (by omega)]
    exact negative_iff (by omega) (bounds start) (bounds stop)

theorem large_slice_undefined :
    ∃ response : Http.Response, response.body = List.replicate (2 ^ 31) 0 ∧
      response.blob.slice none none none = .error .overflow ∧ ¬ Sliced response.blob none none := by
  refine ⟨⟨200, "OK", text "http://h/", [], List.replicate (2 ^ 31) 0, true⟩, rfl, ?_⟩
  have size : toInt (List.replicate (2 ^ 31) (0 : UInt8)).length = -2 ^ 31 := by
    rw [List.length_replicate]
    rfl
  have overflows : sliceData (List.replicate (2 ^ 31) 0) none none = .error .overflow := by
    rw [sliceData, size]
    rfl
  constructor
  · rw [slice]
    exact congrArg (Except.map _) overflows
  · intro right
    have copied := (sliced_iff _ _ _).mp right
    exact absurd (overflows.symm.trans copied) nofun

end Cut

end Blob

end BreezeJs
