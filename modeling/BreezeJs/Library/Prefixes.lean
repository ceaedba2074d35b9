import Mathlib.Data.List.Nodup

set_option autoImplicit false

namespace Prefixes

variable {α : Type}

abbrev Link (α : Type) := List α × α

def links : List α → List α → List (Link α)
  | _, [] => []
  | before, key :: rest => (before, key) :: links (before ++ [key]) rest

theorem mem_links {before path : List α} {link : Link α} :
    link ∈ links before path ↔
      ∃ front rest, path = front ++ link.2 :: rest ∧ link.1 = before ++ front := by
  induction path generalizing before with
  | nil => simp [links]
  | cons key path ih =>
      rw [links, List.mem_cons, ih]
      constructor
      · rintro (rfl | ⟨front, rest, rfl, led⟩)
        · exact ⟨[], path, rfl, (List.append_nil before).symm⟩
        · exact ⟨key :: front, rest, rfl, by rw [led, List.append_assoc, List.singleton_append]⟩
      · rintro ⟨front, rest, split, led⟩
        cases front with
        | nil =>
            cases split
            exact .inl (Prod.ext (led.trans (List.append_nil before)) rfl)
        | cons first front =>
            cases split
            exact .inr ⟨front, rest, rfl, by rw [led, List.append_assoc, List.singleton_append]⟩

theorem last_link (before front : List α) (key : α) :
    (before ++ front, key) ∈ links before (front ++ [key]) :=
  mem_links.mpr ⟨front, [], rfl, rfl⟩

section Reindex

variable [BEq α] [LawfulBEq α] {first second : List α}

def reindex (first second : List α) (i : Nat) : Nat :=
  match first[i]? with
  | some a => second.idxOf a
  | none => i

theorem getElem?_idxOf {a : α} (member : a ∈ first) : first[first.idxOf a]? = some a := by
  rw [List.getElem?_eq_getElem (List.idxOf_lt_length_iff.mpr member), List.getElem_idxOf]

theorem reindex_idxOf {a : α} (member : a ∈ first) :
    reindex first second (first.idxOf a) = second.idxOf a := by
  rw [reindex, getElem?_idxOf member]

theorem reindex_lt (same : first.Perm second) {i : Nat} (inside : i < first.length) :
    reindex first second i < second.length := by
  rw [reindex, List.getElem?_eq_getElem inside]
  exact List.idxOf_lt_length_iff.mpr (same.mem_iff.mp (List.getElem_mem inside))

omit [LawfulBEq α] in
theorem reindex_outside {i : Nat} (outside : first.length ≤ i) : reindex first second i = i := by
  rw [reindex, List.getElem?_eq_none outside]

theorem reindex_reindex (distinct : first.Nodup) (same : first.Perm second) (i : Nat) :
    reindex second first (reindex first second i) = i := by
  by_cases inside : i < first.length
  · have place : reindex first second i = second.idxOf first[i] := by
      rw [reindex, List.getElem?_eq_getElem inside]
    rw [place, reindex_idxOf (same.mem_iff.mp (List.getElem_mem inside)), distinct.idxOf_getElem]
  · have outside := Nat.le_of_not_lt inside
    rw [reindex_outside outside, reindex_outside (same.length_eq ▸ outside)]

end Reindex

end Prefixes
