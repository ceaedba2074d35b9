import BreezeJs.Engine.GcDecref

set_option autoImplicit false

namespace BreezeJs.Gc

variable {ν : Type} [DecidableEq ν]

structure Scan (objects : List ν) (extra : ν → Nat) (kept : ν → Prop) (i : Nat) (seen : List ν)
    (h : Heap ν) : Prop where
  counted : ∀ p, h.refCount p = extra p + seen.count p
  perm : (h.gcObjList ++ h.tmpObjList).Perm objects
  live : ∀ p ∈ objects, p ∈ h.gcObjList ↔ 0 < h.refCount p
  marks : ∀ p ∈ objects, h.mark p = true → p ∈ h.tmpObjList ∨ p ∈ h.gcObjList.drop i
  reached : ∀ p ∈ h.gcObjList, kept p

section Steps

variable {objects seen : List ν} {extra : ν → Nat} {kept : ν → Prop} {i : Nat} {h : Heap ν} {p : ν}

theorem scan_counted (counted : ∀ q, h.refCount q = extra q + seen.count q) (p q : ν) :
    (h.setRefCount p (h.refCount p + 1)).refCount q = extra q + (seen ++ [p]).count q := by
  have before := counted q
  rw [setRefCount_refCount, count_append_singleton]
  by_cases same : q = p
  · simp only [same, if_true] at before ⊢
    omega
  · simpa only [same, if_false, Nat.add_zero] using before

theorem scanChild_preserved (inv : Scan objects extra kept i seen h) (member : p ∈ objects)
    (known : kept p) :
    Scan objects extra kept i (seen ++ [p]) (gcScanIncrefChild h p) ∧
      h.gcObjList <+: (gcScanIncrefChild h p).gcObjList := by
  simp only [gcScanIncrefChild]
  split_ifs with first
  · simp only [setRefCount_refCount, if_true, Nat.add_eq_right] at first
    have absent : p ∉ h.gcObjList := by
      rw [inv.live p member]
      omega
    have present : p ∈ h.tmpObjList :=
      (List.mem_append.mp (inv.perm.mem_iff.mpr member)).resolve_left absent
    refine ⟨⟨scan_counted inv.counted p, (moveToGc_perm (by simpa using present)).trans inv.perm,
      ?_, ?_, ?_⟩, List.prefix_append ..⟩
    · intro q listed
      simp only [setMark_gcObjList, Heap.moveToGc, setMark_refCount, setRefCount_gcObjList,
        List.mem_append, List.mem_singleton]
      rw [setRefCount_refCount, inv.live q listed]
      by_cases same : q = p
      · simp [same]
      · simp [same]
    · intro q listed marked
      rw [setMark_mark] at marked
      by_cases same : q = p
      · simp [same] at marked
      · simp only [same, if_false] at marked
        simp only [setMark_tmpObjList, setMark_gcObjList, Heap.moveToGc, setRefCount_tmpObjList,
          setRefCount_gcObjList, List.drop_append]
        rcases inv.marks q listed marked with waiting | ahead
        · exact .inl ((List.mem_erase_of_ne same).mpr waiting)
        · exact .inr (List.mem_append_left _ ahead)
    · intro q listed
      simp only [setMark_gcObjList, Heap.moveToGc, setRefCount_gcObjList, List.mem_append,
        List.mem_singleton] at listed
      rcases listed with earlier | rfl
      · exact inv.reached q earlier
      · exact known
  · simp only [setRefCount_refCount, if_true, Nat.add_eq_right] at first
    refine ⟨⟨scan_counted inv.counted p, inv.perm, ?_, inv.marks, inv.reached⟩, List.prefix_refl _⟩
    intro q listed
    rw [setRefCount_gcObjList, setRefCount_refCount, inv.live q listed]
    by_cases same : q = p
    · simp only [same, if_true]
      omega
    · simp only [same, if_false]

theorem scanChildren_preserved (inv : Scan objects extra kept i seen h) (children : List ν)
    (members : ∀ c ∈ children, c ∈ objects ∧ kept c) :
    Scan objects extra kept i (seen ++ children) (children.foldl gcScanIncrefChild h) ∧
      h.gcObjList <+: (children.foldl gcScanIncrefChild h).gcObjList := by
  induction children generalizing h seen with
  | nil => simpa using inv
  | cons c rest ih =>
      rw [List.forall_mem_cons] at members
      have first := scanChild_preserved inv members.1.1 members.1.2
      have tail := ih first.1 members.2
      rw [List.foldl_cons]
      exact ⟨by simpa using tail.1, first.2.trans tail.2⟩

theorem scan_visit (inv : Scan objects extra kept i seen h) (here : h.gcObjList[i]? = some p) :
    Scan objects extra kept (i + 1) seen (h.setMark p false) := by
  refine ⟨inv.counted, inv.perm, inv.live, ?_, inv.reached⟩
  intro q listed marked
  rw [setMark_mark] at marked
  by_cases same : q = p
  · simp [same] at marked
  · simp only [same, if_false] at marked
    rcases inv.marks q listed marked with waiting | ahead
    · exact .inl waiting
    · obtain ⟨within, found⟩ := List.getElem?_eq_some_iff.mp here
      rw [List.drop_eq_getElem_cons within, found, List.mem_cons] at ahead
      exact .inr (ahead.resolve_left same)

theorem scan_finished {children : ν → List ν}
    (inv : Scan objects extra kept i ((h.gcObjList.take i).flatMap children) h)
    (past : h.gcObjList.length ≤ i) :
    Scan objects extra kept h.gcObjList.length (h.gcObjList.flatMap children) h := by
  rw [List.take_of_length_le past] at inv
  refine ⟨inv.counted, inv.perm, inv.live, ?_, inv.reached⟩
  intro q listed marked
  have where_ := inv.marks q listed marked
  rw [List.drop_eq_nil_of_le past] at where_
  exact .inl (where_.resolve_right List.not_mem_nil)

theorem gcScanLoop_spec {children : ν → List ν} (fuel : Nat)
    (closed : ∀ p ∈ objects, ∀ c ∈ children p, c ∈ objects)
    (step : ∀ p c, kept p → c ∈ children p → kept c)
    (inv : Scan objects extra kept i ((h.gcObjList.take i).flatMap children) h)
    (enough : objects.length ≤ fuel + i) :
    ∃ h', gcScanLoop children fuel i h = some h' ∧
      Scan objects extra kept h'.gcObjList.length (h'.gcObjList.flatMap children) h' := by
  induction fuel generalizing i h with
  | zero =>
      have lengths := inv.perm.length_eq
      rw [List.length_append] at lengths
      exact ⟨h, rfl, scan_finished inv (by omega)⟩
  | succ fuel ih =>
      rw [gcScanLoop]
      cases here : h.gcObjList[i]? with
      | none => exact ⟨h, rfl, scan_finished inv (List.getElem?_eq_none_iff.mp here)⟩
      | some p =>
          have present : p ∈ h.gcObjList := List.mem_of_getElem? here
          have member : p ∈ objects := inv.perm.mem_iff.mp (List.mem_append_left _ present)
          have positive : 0 < h.refCount p := (inv.live p member).mp present
          have known := inv.reached p present
          obtain ⟨next, grown⟩ := scanChildren_preserved (scan_visit inv here) (children p)
            (fun c child => ⟨closed p member c child, step p c known child⟩)
          rw [setMark_gcObjList] at grown
          -- What is added comes behind the position, so the walked part stays.
          have walked : ((children p).foldl gcScanIncrefChild (h.setMark p false)).gcObjList.take
              (i + 1) = h.gcObjList.take i ++ [p] := by
            obtain ⟨within, found⟩ := List.getElem?_eq_some_iff.mp here
            obtain ⟨added, whole⟩ := grown
            rw [← whole, List.take_append_of_le_length (by omega),
              List.take_succ_eq_append_getElem within, found]
          simp only [positive, if_true]
          apply ih (by rw [walked, List.flatMap_append, List.flatMap_singleton]; exact next)
          omega

end Steps

theorem incref2_fold (children : List ν) (h : Heap ν) :
    (children.foldl gcScanIncrefChild2 h).gcObjList = h.gcObjList ∧
      (children.foldl gcScanIncrefChild2 h).tmpObjList = h.tmpObjList ∧
      (children.foldl gcScanIncrefChild2 h).mark = h.mark ∧
      ∀ q, (children.foldl gcScanIncrefChild2 h).refCount q = h.refCount q + children.count q := by
  induction children generalizing h with
  | nil => simp
  | cons c rest ih =>
      rw [List.foldl_cons]
      obtain ⟨gc, tmp, mark, count⟩ := ih (gcScanIncrefChild2 h c)
      refine ⟨gc, tmp, mark, fun q => ?_⟩
      rw [count q, gcScanIncrefChild2, setRefCount_refCount, List.count_cons]
      by_cases same : q = c
      · subst same
        simp
        omega
      · simp [same, Ne.symm same]

theorem incref2_objects (children : ν → List ν) (walk : List ν) (h : Heap ν) :
    walk.foldl (fun h p => (children p).foldl gcScanIncrefChild2 h) h =
      (walk.flatMap children).foldl gcScanIncrefChild2 h := by
  induction walk generalizing h with
  | nil => rfl
  | cons p rest ih => rw [List.foldl_cons, List.flatMap_cons, List.foldl_append, ih]

section Whole

variable {children : ν → List ν} {h : Heap ν} {p : ν}

theorem kept_step {c : ν} (known : Kept children h p) (child : c ∈ children p) :
    Kept children h c := by
  obtain ⟨root, member, outside, path⟩ := known
  exact ⟨root, member, outside, path.tail child⟩

theorem kept_closed {live : List ν}
    (roots : ∀ p ∈ h.gcObjList, reports children h.gcObjList p < h.refCount p → p ∈ live)
    (step : ∀ p ∈ live, ∀ c ∈ children p, c ∈ live) (known : Kept children h p) : p ∈ live := by
  obtain ⟨root, member, outside, path⟩ := known
  induction path with
  | refl => exact roots root member outside
  | tail _ child ih => exact step _ ih _ child

theorem scan_of_decref {h' : Heap ν} (nodup : h.gcObjList.Nodup)
    (inv : Decref h.gcObjList h.refCount h.gcObjList (h.gcObjList.flatMap children) h') :
    Scan h.gcObjList h'.refCount (Kept children h) 0 [] h' := by
  have apart := List.nodup_append.mp (inv.perm.nodup_iff.mpr nodup)
  have live : ∀ q ∈ h.gcObjList, q ∈ h'.gcObjList ↔ 0 < h'.refCount q := by
    intro q listed
    constructor
    · intro present
      have absent : q ∉ h'.tmpObjList := fun other => apart.2.2 q present q other rfl
      rw [inv.zero q] at absent
      have nonzero : h'.refCount q ≠ 0 := fun zero => absent ⟨listed, zero⟩
      omega
    · intro positive
      exact mem_gcObjList inv listed (by omega)
  refine ⟨by simp, inv.perm, live, ?_, ?_⟩
  · intro q listed _
    rw [List.drop_zero]
    exact (List.mem_append.mp (inv.perm.mem_iff.mpr listed)).symm
  · intro q present
    have listed : q ∈ h.gcObjList := inv.perm.mem_iff.mp (List.mem_append_left _ present)
    have positive := (live q listed).mp present
    have counted := inv.counted q
    exact ⟨q, listed, by rw [reports]; omega, .refl⟩

structure Separated (children : ν → List ν) (h h' : Heap ν) : Prop where
  refCount : ∀ p, h'.refCount p = h.refCount p
  perm : (h'.gcObjList ++ h'.tmpObjList).Perm h.gcObjList
  live : ∀ p ∈ h.gcObjList, p ∈ h'.gcObjList ↔ Kept children h p
  unmarked : ∀ p ∈ h'.gcObjList, h'.mark p = false

theorem separated_of_scan {h' walked : Heap ν}
    (counted : ∀ p, h'.refCount p + reports children h.gcObjList p = h.refCount p)
    (nodup : h.gcObjList.Nodup) (closed : ∀ p ∈ h.gcObjList, ∀ c ∈ children p, c ∈ h.gcObjList)
    (inv : Scan h.gcObjList h'.refCount (Kept children h) walked.gcObjList.length
      (walked.gcObjList.flatMap children) walked) :
    Separated children h
      ((walked.tmpObjList.flatMap children).foldl gcScanIncrefChild2 walked) := by
  obtain ⟨gc, tmp, mark, count⟩ := incref2_fold (walked.tmpObjList.flatMap children) walked
  have apart := List.nodup_append.mp (inv.perm.nodup_iff.mpr nodup)
  refine ⟨fun p => ?_, by rw [gc, tmp]; exact inv.perm, fun p listed => ?_, fun p present => ?_⟩
  · have before := inv.counted p
    have all := (inv.perm.flatMap_right children).count_eq p
    have whole := counted p
    rw [List.flatMap_append, List.count_append] at all
    rw [reports] at whole
    rw [count p]
    omega
  · rw [gc]
    constructor
    · exact inv.reached p
    · intro known
      refine kept_closed (fun q member outside => ?_)
        (fun q present c child => ?_) known
      · have whole := counted q
        have before := inv.counted q
        rw [inv.live q member]
        omega
      · have member : q ∈ h.gcObjList := inv.perm.mem_iff.mp (List.mem_append_left _ present)
        have before := inv.counted c
        have reported : 0 < (walked.gcObjList.flatMap children).count c :=
          List.count_pos_iff.mpr (List.mem_flatMap.mpr ⟨q, present, child⟩)
        rw [inv.live c (closed q member c child)]
        omega
  · rw [gc] at present
    rw [mark, ← Bool.not_eq_true]
    intro marked
    have member : p ∈ h.gcObjList := inv.perm.mem_iff.mp (List.mem_append_left _ present)
    have either := inv.marks p member marked
    rw [List.drop_length] at either
    exact apart.2.2 p present p (either.resolve_right List.not_mem_nil) rfl

theorem gcScan_spec (sound : Sound children h) :
    match (gcDecref children h).bind (gcScan children) with
    | some h' => Separated children h h' ∧
        ∀ p, reports children h.gcObjList p ≤ h.refCount p
    | none => ∃ p, h.refCount p < reports children h.gcObjList p := by
  have spec := gcDecref_spec sound
  cases first : gcDecref children h with
  | none => simpa only [first, Option.bind_none] using spec
  | some h' =>
      rw [first] at spec
      have lengths := spec.perm.length_eq
      rw [List.length_append] at lengths
      have start : Scan h.gcObjList h'.refCount (Kept children h) 0
          ((h'.gcObjList.take 0).flatMap children) h' := scan_of_decref sound.nodup spec
      obtain ⟨walked, looped, inv⟩ := gcScanLoop_spec
        (h'.gcObjList.length + h'.tmpObjList.length) sound.closed
        (fun p c known child => kept_step known child) start (by omega)
      have counted : ∀ p, h'.refCount p + reports children h.gcObjList p = h.refCount p :=
        spec.counted
      simp only [Option.bind_some, gcScan, looped, Option.map_some, incref2_objects]
      refine ⟨separated_of_scan counted sound.nodup sound.closed inv, fun p => ?_⟩
      have whole := counted p
      omega

end Whole

end BreezeJs.Gc
