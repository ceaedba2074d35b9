import Mathlib.Data.List.Basic
import Mathlib.Tactic.SplitIfs

set_option autoImplicit false

namespace Association

variable {α β κ : Type} [DecidableEq κ] (fold : α → κ)

def values (name : α) (list : List (α × β)) : List β :=
  (list.filter fun entry => decide (fold entry.1 = fold name)).map Prod.snd

def without (name : α) (list : List (α × β)) : List (α × β) :=
  list.filter fun entry => !decide (fold entry.1 = fold name)

-- The first entry of the name keeps its place and its spelling.
def replaceFirst (name : α) (value : β) : List (α × β) → List (α × β)
  | [] => [(name, value)]
  | entry :: rest =>
      if fold entry.1 = fold name then (entry.1, value) :: rest
      else entry :: replaceFirst name value rest

def replaceAll (name : α) (value : β) : List (α × β) → List (α × β)
  | [] => [(name, value)]
  | entry :: rest =>
      if fold entry.1 = fold name then (entry.1, value) :: without fold name rest
      else entry :: replaceAll name value rest

variable {fold} {name other : α} {value : β} {list : List (α × β)}

theorem values_congr (same : fold name = fold other) :
    values fold name list = values fold other list := by
  rw [values, values, same]

theorem values_cons (name : α) (entry : α × β) (list : List (α × β)) :
    values fold name (entry :: list) =
      if fold entry.1 = fold name then entry.2 :: values fold name list
      else values fold name list := by
  by_cases same : fold entry.1 = fold name <;> simp [values, same]

theorem values_append (name : α) (first second : List (α × β)) :
    values fold name (first ++ second) = values fold name first ++ values fold name second := by
  simp [values]

theorem values_singleton (name : α) (entry : α × β) :
    values fold name [entry] = if fold entry.1 = fold name then [entry.2] else [] := by
  rw [values_cons]
  rfl

theorem values_eq_nil_iff :
    values fold name list = [] ↔ ∀ entry ∈ list, fold entry.1 ≠ fold name := by
  simp [values]

theorem mem_values {v : β} :
    v ∈ values fold name list ↔
      ∃ entry, (entry ∈ list ∧ fold entry.1 = fold name) ∧ entry.2 = v := by
  simp [values]

theorem values_without (name other : α) (list : List (α × β)) :
    values fold other (without fold name list) =
      if fold other = fold name then [] else values fold other list := by
  split_ifs with same
  · rw [values_eq_nil_iff]
    intro entry member
    rw [same]
    simpa using (List.mem_filter.mp member).2
  · simp only [values, without, List.filter_filter]
    congr 1
    apply List.filter_congr
    intro entry _
    by_cases named : fold entry.1 = fold other <;> simp [named, same]

theorem values_replaceFirst (name other : α) (value : β) (list : List (α × β)) :
    values fold other (replaceFirst fold name value list) =
      if fold other = fold name then value :: (values fold other list).tail
      else values fold other list := by
  induction list with
  | nil =>
      rw [replaceFirst, values_singleton]
      by_cases same : fold other = fold name
      · simp [same, values]
      · simp [same, Ne.symm same, values]
  | cons entry rest ih =>
      rw [replaceFirst]
      by_cases here : fold entry.1 = fold name
      · rw [if_pos here, values_cons, values_cons, here]
        by_cases same : fold other = fold name
        · simp [same]
        · simp [same, Ne.symm same]
      · rw [if_neg here, values_cons, values_cons, ih]
        by_cases same : fold other = fold name
        · simp [same, here]
        · simp [same]

theorem without_eq_nil_iff :
    without fold name list = [] ↔ ∀ entry ∈ list, fold entry.1 = fold name := by
  simp [without]

theorem without_cons (name : α) (entry : α × β) (list : List (α × β)) :
    without fold name (entry :: list) =
      if fold entry.1 = fold name then without fold name list
      else entry :: without fold name list := by
  by_cases same : fold entry.1 = fold name <;> simp [without, same]

variable (fold) in
theorem append_eq_replaceAll_iff (spelled : Function.Injective fold) (name : α) (value : β)
    (list : List (α × β)) :
    without fold name list ++ [(name, value)] = replaceAll fold name value list ↔
      ∀ entry ∈ list.dropWhile fun entry => !decide (fold entry.1 = fold name),
        fold entry.1 = fold name := by
  induction list with
  | nil => simp [without, replaceAll]
  | cons entry rest ih =>
      by_cases here : fold entry.1 = fold name
      · have whole : without fold name rest ++ [(name, value)] =
            (name, value) :: without fold name rest ↔ without fold name rest = [] := by
          cases left : without fold name rest with
          | nil => simp
          | cons first others =>
              have member : first ∈ without fold name rest := left ▸ List.mem_cons_self
              have apart : first ≠ (name, value) := by
                rintro rfl
                simp [without] at member
              simp [apart]
        rw [without_cons, if_pos here, replaceAll, if_pos here, spelled here, whole,
          without_eq_nil_iff]
        simp [here]
      · rw [without_cons, if_neg here, replaceAll, if_neg here, List.cons_append,
          List.cons_inj_right, ih, List.dropWhile_cons_of_pos (by simpa using here)]

section Sorting

variable (le : κ → κ → Bool) (trans : ∀ a b c, le a b → le b c → le a c)
  (total : ∀ a b, le a b || le b a)

theorem values_perm {outcome : List (α × β)} (perm : outcome.Perm list) :
    (values fold name outcome).Perm (values fold name list) :=
  (perm.filter _).map _

include trans total in
theorem values_mergeSort (name : α) (list : List (α × β)) :
    values fold name (list.mergeSort fun first second => le (fold first.1) (fold second.1)) =
      values fold name list := by
  have refl (key : κ) : le key key = true := by simpa using total key key
  let named (entry : α × β) : Bool := decide (fold entry.1 = fold name)
  let sorted := list.mergeSort fun first second => le (fold first.1) (fold second.1)
  -- Entries of one name are in order already, so that the sort leaves them so.
  have ordered : (list.filter named).Pairwise fun first second =>
      le (fold first.1) (fold second.1) = true := by
    apply List.pairwise_of_forall_mem_list
    intro first isFirst second isSecond
    have one : fold first.1 = fold name := by simpa [named] using (List.mem_filter.mp isFirst).2
    have two : fold second.1 = fold name := by simpa [named] using (List.mem_filter.mp isSecond).2
    rw [one, two]
    exact refl _
  have kept : (list.filter named).Sublist sorted :=
    List.sublist_mergeSort (fun a b c => trans (fold a.1) (fold b.1) (fold c.1))
      (fun a b => total (fold a.1) (fold b.1)) ordered List.filter_sublist
  have inside : (list.filter named).Sublist (sorted.filter named) := by
    have narrowed := kept.filter named
    simpa only [List.filter_filter, Bool.and_self] using narrowed
  have lengths : (list.filter named).length = (sorted.filter named).length :=
    ((List.mergeSort_perm list _).filter named).length_eq.symm
  exact congrArg (List.map Prod.snd) (inside.eq_of_length lengths).symm

include trans total in
theorem exists_sorted_first {entry : α × β} (member : entry ∈ list) :
    ∃ outcome : List (α × β), outcome.Perm list ∧
      outcome.Pairwise (fun first second => le (fold first.1) (fold second.1)) ∧
      ∃ rest, values fold entry.1 outcome = entry.2 :: rest := by
  obtain ⟨front, back, rfl⟩ := List.append_of_mem member
  refine ⟨(entry :: (front ++ back)).mergeSort fun first second =>
    le (fold first.1) (fold second.1), ?_, ?_, ?_⟩
  · exact (List.mergeSort_perm _ _).trans List.perm_middle.symm
  · exact List.pairwise_mergeSort (fun a b c => trans (fold a.1) (fold b.1) (fold c.1))
      (fun a b => total (fold a.1) (fold b.1)) _
  · rw [values_mergeSort le trans total, values_cons, if_pos rfl]
    exact ⟨_, rfl⟩

variable (fold) in
include trans total in
theorem values_sorted_iff (list : List (α × β)) :
    (∀ outcome : List (α × β), outcome.Perm list →
        outcome.Pairwise (fun first second => le (fold first.1) (fold second.1)) →
        ∀ name, values fold name outcome = values fold name list) ↔
      ∀ first ∈ list, ∀ second ∈ list, fold first.1 = fold second.1 → first.2 = second.2 := by
  constructor
  · intro stable first isFirst second isSecond same
    obtain ⟨outcome, perm, sorted, rest, front⟩ :=
      exists_sorted_first le trans total isFirst
    obtain ⟨other, otherPerm, otherSorted, others, otherFront⟩ :=
      exists_sorted_first le trans total isSecond
    have agree := (stable outcome perm sorted first.1).trans
      ((stable other otherPerm otherSorted first.1).symm)
    rw [front, values_congr same, otherFront] at agree
    exact (List.cons.inj agree).1
  · intro single outcome perm _ name
    have same : (values fold name outcome).Perm (values fold name list) := values_perm perm
    cases found : values fold name list with
    | nil =>
        rw [found] at same
        exact same.eq_nil
    | cons value rest =>
        obtain ⟨chosen, isChosen, rfl⟩ := mem_values.mp (found ▸ List.mem_cons_self)
        have all : ∀ v ∈ values fold name list, v = chosen.2 := by
          intro v inside
          obtain ⟨entry, isEntry, rfl⟩ := mem_values.mp inside
          exact single entry isEntry.1 chosen isChosen.1 (isEntry.2.trans isChosen.2.symm)
        have repeated := List.eq_replicate_of_mem all
        rw [repeated, List.perm_replicate] at same
        rw [← found, same, ← repeated]

end Sorting

end Association
