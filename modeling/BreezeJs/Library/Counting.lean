import Mathlib.Data.List.FinRange
import Mathlib.Data.List.Perm.Subperm

set_option autoImplicit false

namespace Counting

variable {α : Type}

theorem getElem?_set_of_some {entries : List α} {i : Nat} {old : α}
    (current : entries[i]? = some old) (new : α) (j : Nat) :
    (entries.set i new)[j]? = if j = i then some new else entries[j]? := by
  have inside := (List.getElem?_eq_some_iff.mp current).1
  rw [List.getElem?_set]
  by_cases same : i = j
  · subst same
    simp [inside]
  · simp [same, Ne.symm same]

theorem countP_set_add {p : α → Bool} {entries : List α} {i : Nat} {old : α} (new : α)
    (current : entries[i]? = some old) :
    (entries.set i new).countP p + (if p old then 1 else 0) =
      entries.countP p + (if p new then 1 else 0) := by
  obtain ⟨inside, here⟩ := List.getElem?_eq_some_iff.mp current
  have counted : (if p old then 1 else 0) ≤ entries.countP p := by
    split
    · next holds => exact List.countP_pos_iff.mpr ⟨old, here ▸ List.getElem_mem inside, holds⟩
    · omega
  rw [List.countP_set inside, here]
  omega

def positions (p : α → Bool) (entries : List α) : List Nat :=
  ((List.finRange entries.length).filter fun i => p (entries.get i)).map Fin.val

theorem mem_positions {p : α → Bool} {entries : List α} {i : Nat} :
    i ∈ positions p entries ↔ ∃ x, entries[i]? = some x ∧ p x = true := by
  simp only [positions, List.mem_map, List.mem_filter, List.mem_finRange, true_and,
    List.getElem?_eq_some_iff]
  constructor
  · rintro ⟨j, holds, rfl⟩
    exact ⟨_, ⟨j.isLt, rfl⟩, holds⟩
  · rintro ⟨x, ⟨inside, rfl⟩, holds⟩
    exact ⟨⟨i, inside⟩, holds, rfl⟩

theorem nodup_positions (p : α → Bool) (entries : List α) : (positions p entries).Nodup :=
  ((List.nodup_finRange _).filter _).map Fin.val_injective

theorem length_positions (p : α → Bool) (entries : List α) :
    (positions p entries).length = entries.countP p := by
  have split : entries.countP p = ((List.finRange entries.length).map entries.get).countP p := by
    rw [List.map_get_finRange]
  rw [split, List.countP_map, List.countP_eq_length_filter]
  simp [positions, Function.comp_def]

theorem countP_lt_length_of_positions {p : α → Bool} {entries : List α} {indices : List Nat}
    (covered : ∀ i x, entries[i]? = some x → p x = true → i ∈ indices)
    {other : Nat} (extra : other ∈ indices)
    (outside : ∀ x, entries[other]? = some x → p x = false) :
    entries.countP p < indices.length := by
  have distinct : (other :: positions p entries).Nodup := by
    refine List.nodup_cons.mpr ⟨fun member => ?_, nodup_positions p entries⟩
    obtain ⟨x, current, holds⟩ := mem_positions.mp member
    simp [outside x current] at holds
  have inside : other :: positions p entries ⊆ indices := by
    intro i member
    rcases List.mem_cons.mp member with rfl | member
    · exact extra
    · obtain ⟨x, current, holds⟩ := mem_positions.mp member
      exact covered i x current holds
  have bounded := (List.subperm_of_subset distinct inside).length_le
  rw [List.length_cons, length_positions] at bounded
  omega

end Counting
