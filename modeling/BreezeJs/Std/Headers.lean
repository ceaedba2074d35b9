import Mathlib.Data.List.Forall2
import BreezeJs.Library.Association
import BreezeJs.Std.Fetch

set_option autoImplicit false

namespace BreezeJs.Http

-- Names are compared after `::tolower` of the C locale.

open Infra Association

def toLower (c : UInt8) : UInt8 :=
  if between 'A' 'Z' c then c + 32 else c

def lower (name : Bytes) : Bytes :=
  name.map toLower

namespace Headers

def get (name : Bytes) : HeaderList → Bytes
  | [] => []
  | (k, v) :: rest => if lower k == lower name then v else get name rest

-- The loop returns at the first match.
def set (name value : Bytes) : HeaderList → HeaderList
  | [] => [(name, value)]
  | (k, v) :: rest =>
      if lower k == lower name then (k, value) :: rest else (k, v) :: set name value rest

def has (name : Bytes) : HeaderList → Bool
  | [] => false
  | (k, _) :: rest => if lower k == lower name then true else has name rest

def append (name value : Bytes) (list : HeaderList) : HeaderList :=
  list ++ [(name, value)]

def remove_ (name : Bytes) (list : HeaderList) : HeaderList :=
  list.filter fun entry => !(lower entry.1 == lower name)

inductive Call where
  | set (name value : Bytes)
  | append (name value : Bytes)
  | remove_ (name : Bytes)
deriving DecidableEq, Repr

def Call.perform : Call → HeaderList → HeaderList
  | .set name value => Headers.set name value
  | .append name value => Headers.append name value
  | .remove_ name => Headers.remove_ name

def performAll (calls : List Call) (list : HeaderList) : HeaderList :=
  calls.foldl (fun list call => call.perform list) list

def SameLetter (c d : UInt8) : Prop :=
  c = d ∨ (between 'A' 'Z' c = true ∧ d = c + 32) ∨ (between 'A' 'Z' d = true ∧ c = d + 32)

def SameName (name other : Bytes) : Prop :=
  List.Forall₂ SameLetter name other

theorem toLower_eq_iff (c d : UInt8) : toLower c = toLower d ↔ SameLetter c d := by
  have upper : ∀ c : UInt8, between 'A' 'Z' c = true ↔ 65 ≤ c.toNat ∧ c.toNat ≤ 90 := by
    intro c
    simp [between, byte, UInt8.le_iff_toNat_le]
  simp only [toLower, SameLetter, upper]
  have low : c.toNat < 256 := c.toNat_lt
  have low' : d.toNat < 256 := d.toNat_lt
  split_ifs with first second second <;>
    simp only [← UInt8.toNat_inj, UInt8.toNat_add, UInt8.reduceToNat] <;> omega

theorem lower_eq_iff (name other : Bytes) : lower name = lower other ↔ SameName name other := by
  rw [lower, lower, SameName, ← List.forall₂_eq_eq_eq, List.forall₂_map_left_iff,
    List.forall₂_map_right_iff]
  simp only [toLower_eq_iff]

instance (name other : Bytes) : Decidable (SameName name other) :=
  decidable_of_iff _ (lower_eq_iff name other)

theorem get_eq_head (name : Bytes) (list : HeaderList) :
    get name list = (values lower name list).headD [] := by
  induction list with
  | nil => rfl
  | cons entry rest ih =>
      rw [values_cons]
      by_cases here : lower entry.1 = lower name <;> simp [get, here, ih]

theorem has_iff (name : Bytes) (list : HeaderList) :
    has name list = true ↔ values lower name list ≠ [] := by
  induction list with
  | nil => simp [has, values]
  | cons entry rest ih =>
      rw [values_cons]
      by_cases here : lower entry.1 = lower name <;> simp [has, here, ih]

theorem set_eq_replaceFirst (name value : Bytes) (list : HeaderList) :
    set name value list = replaceFirst lower name value list := by
  induction list with
  | nil => rfl
  | cons entry rest ih => simp [set, replaceFirst, ih]

theorem remove_eq_without (name : Bytes) (list : HeaderList) :
    remove_ name list = without lower name list := by
  simp [remove_, without, beq_eq_decide]

def Call.onValues (name : Bytes) : Call → List Bytes → List Bytes
  | .set n value, found => if SameName name n then value :: found.tail else found
  | .append n value, found => if SameName name n then found ++ [value] else found
  | .remove_ n, found => if SameName name n then [] else found

theorem perform_values (name : Bytes) (call : Call) (list : HeaderList) :
    values lower name (call.perform list) = call.onValues name (values lower name list) := by
  cases call with
  | set n value =>
      simp only [Call.perform, Call.onValues, set_eq_replaceFirst, values_replaceFirst,
        lower_eq_iff]
  | append n value =>
      simp only [Call.perform, Call.onValues, append, values_append, values_singleton,
        ← lower_eq_iff, eq_comm (a := lower n)]
      split_ifs <;> simp
  | remove_ n =>
      simp only [Call.perform, Call.onValues, remove_eq_without, values_without, lower_eq_iff]

theorem performAll_values (name : Bytes) (calls : List Call) (list : HeaderList) :
    values lower name (performAll calls list) =
      calls.foldl (fun found call => call.onValues name found) (values lower name list) := by
  induction calls generalizing list with
  | nil => rfl
  | cons call rest ih =>
      rw [performAll, List.foldl_cons, List.foldl_cons, ← perform_values]
      exact ih (call.perform list)

structure CaseInsensitive (list : HeaderList) : Prop where
  get_same : ∀ n m, SameName n m → get n list = get m list
  has_same : ∀ n m, SameName n m → has n list = has m list
  get_set : ∀ n m v, SameName m n → get m (set n v list) = v
  set_frame : ∀ n m v, ¬ SameName m n →
    get m (set n v list) = get m list ∧ has m (set n v list) = has m list
  has_append : ∀ n v, has n (append n v list) = true
  append_frame : ∀ n m v, get m (append n v list) ≠ get m list →
    SameName m n ∧ has m list = false
  has_remove : ∀ n m, has m (remove_ n list) = (has m list && !decide (SameName m n))
  remove_entries : ∀ n, remove_ n list = list.filter fun entry => !decide (SameName entry.1 n)

theorem same_refl (name : Bytes) : SameName name name :=
  (lower_eq_iff name name).mp rfl

theorem values_same {n m : Bytes} (same : SameName n m) (list : HeaderList) :
    values lower n list = values lower m list :=
  values_congr ((lower_eq_iff n m).mpr same)

theorem has_eq_of_values {n m : Bytes} {first second : HeaderList}
    (agree : values lower n first = values lower m second) : has n first = has m second := by
  rw [Bool.eq_iff_iff, has_iff, has_iff, agree]

theorem values_set (n m v : Bytes) (list : HeaderList) :
    values lower m (set n v list) =
      if SameName m n then v :: (values lower m list).tail else values lower m list :=
  perform_values m (.set n v) list

theorem values_append_call (n m v : Bytes) (list : HeaderList) :
    values lower m (append n v list) =
      if SameName m n then values lower m list ++ [v] else values lower m list :=
  perform_values m (.append n v) list

theorem values_remove (n m : Bytes) (list : HeaderList) :
    values lower m (remove_ n list) = if SameName m n then [] else values lower m list :=
  perform_values m (.remove_ n) list

theorem append_frame (n m v : Bytes) (list : HeaderList)
    (changed : get m (append n v list) ≠ get m list) : SameName m n ∧ has m list = false := by
  rw [get_eq_head, get_eq_head, values_append_call] at changed
  by_cases same : SameName m n
  · refine ⟨same, ?_⟩
    rw [← Bool.not_eq_true, has_iff, not_not]
    cases found : values lower m list with
    | nil => rfl
    | cons first others => simp [same, found] at changed
  · simp [same] at changed

/-- Headers are a map that does not tell names apart by their case, after every sequence of calls
and whatever they held before. -/
theorem headers_case_insensitive (calls : List Call) (start : HeaderList) :
    CaseInsensitive (performAll calls start) where
  get_same n m same := by rw [get_eq_head, get_eq_head, values_same same]
  has_same n m same := has_eq_of_values (values_same same _)
  get_set n m v same := by rw [get_eq_head, values_set, if_pos same, List.headD_cons]
  set_frame n m v other := by
    have kept := (values_set n m v (performAll calls start)).trans (if_neg other)
    exact ⟨by rw [get_eq_head, get_eq_head, kept], has_eq_of_values kept⟩
  has_append n v := by
    rw [has_iff, values_append_call, if_pos (same_refl n)]
    exact List.append_ne_nil_of_right_ne_nil _ (List.cons_ne_nil v [])
  append_frame n m v changed := append_frame n m v _ changed
  has_remove n m := by
    rw [Bool.eq_iff_iff, has_iff, values_remove, Bool.and_eq_true, has_iff]
    by_cases same : SameName m n <;> simp [same]
  remove_entries n := by
    apply List.filter_congr
    intro entry _
    simp [beq_eq_decide, lower_eq_iff]

def entriesOf (name : Bytes) (list : HeaderList) : HeaderList :=
  list.filter fun entry => decide (SameName entry.1 name)

def SingleEntry (name value : Bytes) (list : HeaderList) : Prop :=
  ∃ spelling, entriesOf name list = [(spelling, value)]

theorem entriesOf_values (name : Bytes) (list : HeaderList) :
    (entriesOf name list).map Prod.snd = values lower name list := by
  simp only [entriesOf, values, lower_eq_iff]

theorem singleEntry_iff (name value : Bytes) (list : HeaderList) :
    SingleEntry name value list ↔ values lower name list = [value] := by
  rw [SingleEntry, ← entriesOf_values, List.map_eq_singleton_iff]
  constructor
  · rintro ⟨spelling, single⟩
    exact ⟨_, single, rfl⟩
  · rintro ⟨⟨spelling, _⟩, single, rfl⟩
    exact ⟨spelling, single⟩

/-- `set` leaves a single entry of the name exactly where there was no second one before it. -/
theorem set_single_iff (calls : List Call) (name value : Bytes) :
    SingleEntry name value (set name value (performAll calls [])) ↔
      (entriesOf name (performAll calls [])).length ≤ 1 := by
  rw [singleEntry_iff, values_set, if_pos (same_refl name), ← List.length_map Prod.snd,
    entriesOf_values, List.cons.injEq, ← List.length_eq_zero_iff, List.length_tail]
  simp only [true_and]
  omega

theorem set_leaves_second : ¬ ∀ (calls : List Call) (name value : Bytes),
    SingleEntry name value (set name value (performAll calls [])) := by
  intro single
  obtain ⟨spelling, entry⟩ := single
    [.append (text "accept") (text "a"), .append (text "Accept") (text "b")] (text "ACCEPT")
    (text "c")
  have two : entriesOf (text "ACCEPT") (set (text "ACCEPT") (text "c") (performAll
      [.append (text "accept") (text "a"), .append (text "Accept") (text "b")] [])) =
      [(text "accept", text "c"), (text "Accept", text "b")] := by decide +kernel
  simp [two] at entry

end Headers

end BreezeJs.Http
