import BreezeJs.Engine.Gc
import Mathlib.Data.List.Perm.Basic

set_option autoImplicit false

namespace BreezeJs.Gc

variable {ν : Type} [DecidableEq ν]

structure Decref (objects : List ν) (count : ν → Nat) (visited seen : List ν) (h : Heap ν) :
    Prop where
  counted : ∀ p, h.refCount p + seen.count p = count p
  marked : ∀ p, h.mark p = true ↔ p ∈ visited
  perm : (h.gcObjList ++ h.tmpObjList).Perm objects
  zero : ∀ p, p ∈ h.tmpObjList ↔ p ∈ visited ∧ h.refCount p = 0

section Steps

variable {objects visited seen : List ν} {count : ν → Nat} {h : Heap ν} {p : ν}

theorem mem_gcObjList (inv : Decref objects count visited seen h) (member : p ∈ objects)
    (present : ¬ (p ∈ visited ∧ h.refCount p = 0)) : p ∈ h.gcObjList := by
  have either := List.mem_append.mp (inv.perm.mem_iff.mpr member)
  exact either.resolve_right (present ∘ (inv.zero p).mp)

theorem count_append_singleton (seen : List ν) (p q : ν) :
    (seen ++ [p]).count q = seen.count q + if q = p then 1 else 0 := by
  rw [List.count_append, List.count_singleton]
  by_cases same : q = p
  · simp [same]
  · simp [same, Ne.symm same]

theorem decrefChild_some (inv : Decref objects count visited seen h) (member : p ∈ objects)
    (positive : 0 < h.refCount p) :
    ∃ h', gcDecrefChild h p = some h' ∧ Decref objects count visited (seen ++ [p]) h' := by
  have present : p ∈ h.gcObjList := mem_gcObjList inv member (by omega)
  have counted : ∀ q, (h.setRefCount p (h.refCount p - 1)).refCount q + (seen ++ [p]).count q =
      count q := by
    intro q
    have before := inv.counted q
    rw [setRefCount_refCount, count_append_singleton]
    by_cases same : q = p
    · simp only [same, if_true] at before ⊢
      omega
    · simpa only [same, if_false, Nat.add_zero] using before
  have absent : p ∉ h.tmpObjList := by
    intro listed
    have zero := ((inv.zero p).mp listed).2
    omega
  simp only [gcDecrefChild, positive, if_true, Option.some.injEq, exists_eq_left']
  split_ifs with emptied
  · simp only [setRefCount_refCount, if_true, setRefCount_mark] at emptied
    refine ⟨counted, inv.marked, (moveToTmp_perm (by simpa using present)).trans inv.perm, ?_⟩
    intro q
    simp only [Heap.moveToTmp, setRefCount_tmpObjList, List.mem_append, List.mem_singleton,
      setRefCount_refCount]
    by_cases same : q = p
    · simp [same, emptied.1, (inv.marked p).mp emptied.2]
    · simp [same, inv.zero q]
  · simp only [setRefCount_refCount, if_true, setRefCount_mark] at emptied
    refine ⟨counted, inv.marked, inv.perm, ?_⟩
    intro q
    simp only [setRefCount_tmpObjList, setRefCount_refCount]
    by_cases same : q = p
    · have kept : ¬ (p ∈ visited ∧ h.refCount p - 1 = 0) := by
        rintro ⟨walked, zero⟩
        exact emptied ⟨zero, (inv.marked p).mpr walked⟩
      simp only [same, if_true, absent, kept]
    · simp only [same, if_false, inv.zero q]

theorem decrefChildren_spec (inv : Decref objects count visited seen h) {children : List ν}
    (members : ∀ c ∈ children, c ∈ objects) :
    match children.foldlM gcDecrefChild h with
    | some h' => Decref objects count visited (seen ++ children) h'
    | none => ∃ p, count p < (seen ++ children).count p := by
  induction children generalizing h seen with
  | nil => simpa using inv
  | cons c rest ih =>
      rw [List.forall_mem_cons] at members
      rw [List.foldlM_cons]
      by_cases positive : 0 < h.refCount c
      · obtain ⟨h', taken, next⟩ := decrefChild_some inv members.1 positive
        have tail := ih next members.2
        rw [taken]
        simpa only [List.append_assoc, List.singleton_append, Option.bind_eq_bind,
          Option.bind_some] using tail
      · have refused : gcDecrefChild h c = none := by rw [gcDecrefChild, if_neg positive]
        have counted := inv.counted c
        rw [refused]
        refine ⟨c, ?_⟩
        rw [List.count_append, List.count_cons_self]
        omega

theorem decref_visit {reported : List ν} (inv : Decref objects count visited (seen ++ reported) h)
    (member : p ∈ objects) (fresh : p ∉ visited) :
    Decref objects count (visited ++ [p]) (seen ++ reported)
      (if (h.setMark p true).refCount p = 0 then (h.setMark p true).moveToTmp p
        else h.setMark p true) := by
  have marked : ∀ q, (h.setMark p true).mark q = true ↔ q ∈ visited ++ [p] := by
    intro q
    rw [setMark_mark, List.mem_append, List.mem_singleton]
    by_cases same : q = p
    · simp [same]
    · simp [same, inv.marked q]
  have present : p ∈ h.gcObjList := mem_gcObjList inv member (fun both => fresh both.1)
  have absent : p ∉ h.tmpObjList := fun listed => fresh ((inv.zero p).mp listed).1
  split_ifs with emptied
  · refine ⟨inv.counted, marked, (moveToTmp_perm (by simpa using present)).trans inv.perm, ?_⟩
    intro q
    rw [setMark_refCount] at emptied
    simp only [Heap.moveToTmp, setMark_tmpObjList, setMark_refCount, List.mem_append,
      List.mem_singleton]
    by_cases same : q = p
    · simp [same, emptied]
    · simp [same, inv.zero q]
  · refine ⟨inv.counted, marked, inv.perm, ?_⟩
    intro q
    rw [setMark_refCount] at emptied
    simp only [setMark_tmpObjList, setMark_refCount, List.mem_append, List.mem_singleton]
    by_cases same : q = p
    · simp [same, absent, emptied]
    · simp [same, inv.zero q]

theorem decrefObjects_spec {children : ν → List ν} (inv : Decref objects count visited seen h)
    {walk : List ν} (members : ∀ p ∈ walk, p ∈ objects)
    (closed : ∀ p ∈ objects, ∀ c ∈ children p, c ∈ objects) (nodup : (visited ++ walk).Nodup) :
    match walk.foldlM (gcDecrefObject children) h with
    | some h' => Decref objects count (visited ++ walk) (seen ++ walk.flatMap children) h'
    | none => ∃ p, count p < (seen ++ walk.flatMap children).count p := by
  induction walk generalizing h visited seen with
  | nil => simpa using inv
  | cons p rest ih =>
      rw [List.forall_mem_cons] at members
      have fresh : p ∉ visited := by
        intro earlier
        exact (List.nodup_append.mp nodup).2.2 p earlier p List.mem_cons_self rfl
      have unmarked : h.mark p = false := by
        rw [← Bool.not_eq_true, inv.marked]
        exact fresh
      rw [List.foldlM_cons, gcDecrefObject, unmarked, List.flatMap_cons]
      have spec := decrefChildren_spec inv (closed p members.1)
      cases folded : (children p).foldlM gcDecrefChild h with
      | none =>
          rw [folded] at spec
          obtain ⟨q, short⟩ := spec
          refine ⟨q, ?_⟩
          rw [← List.append_assoc, List.count_append]
          omega
      | some h' =>
          rw [folded] at spec
          have next := decref_visit spec members.1 fresh
          have tail := ih next members.2 (by rwa [List.append_assoc, List.singleton_append])
          simpa only [List.append_assoc, List.singleton_append, Bool.false_eq_true, if_false,
            Option.map_some, Option.bind_eq_bind, Option.bind_some] using tail

end Steps

section Whole

variable {children : ν → List ν} {h : Heap ν}

theorem gcDecref_spec (sound : Sound children h) :
    match gcDecref children h with
    | some h' => Decref h.gcObjList h.refCount h.gcObjList (h.gcObjList.flatMap children) h'
    | none => ∃ p, h.refCount p < reports children h.gcObjList p := by
  have inv : Decref h.gcObjList h.refCount [] [] { h with tmpObjList := [] } :=
    ⟨by simp, by simp [sound.unmarked], by simp, by simp⟩
  have spec := decrefObjects_spec inv (fun _ member => member) sound.closed
    (by simpa using sound.nodup)
  simpa only [List.nil_append, gcDecref, reports] using spec

end Whole

end BreezeJs.Gc
