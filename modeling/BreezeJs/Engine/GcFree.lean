import BreezeJs.Engine.GcScan
import Mathlib.Data.List.Count
import Mathlib.Data.List.Nodup

set_option autoImplicit false

namespace BreezeJs.Gc

-- Values stay in memory until all references of the cycle have been dropped; everything else is
-- freed with its last reference. A reference to freed memory is `none`.

variable {ν : Type} [DecidableEq ν]

inductive GcObjType where
  | jsObject
  | functionBytecode
  | shape
  | varRef
  | asyncFunction
  | jsContext
deriving DecidableEq, Repr

def GcObjType.isValue : GcObjType → Bool
  | .jsObject | .functionBytecode => true
  | _ => false

structure Graph (ν : Type) where
  children : ν → List ν
  type : ν → GcObjType

def Graph.isValue (g : Graph ν) (p : ν) : Bool :=
  (g.type p).isValue

structure Freeing (ν : Type) where
  refCount : ν → Nat
  tmpObjList : List ν
  gcZeroRefCountList : List ν
  freed : List ν

def Freeing.decrement (s : Freeing ν) (p : ν) : Freeing ν :=
  { s with refCount := Function.update s.refCount p (s.refCount p - 1) }

-- `remove_gc_object` takes the object off the list it is on.
def Freeing.free (p : ν) (s : Freeing ν) : Freeing ν :=
  { s with
    tmpObjList := s.tmpObjList.erase p
    gcZeroRefCountList := s.gcZeroRefCountList.erase p
    freed := s.freed ++ [p] }

def Freeing.postpone (p : ν) (s : Freeing ν) : Freeing ν :=
  { s with
    tmpObjList := s.tmpObjList.erase p
    gcZeroRefCountList := s.gcZeroRefCountList ++ [p] }

-- Dropping one reference to `p`: `JS_FreeValueRT`, `js_free_shape`, `free_var_ref`,
-- `js_async_function_free` or `JS_FreeContext`, while cycles are removed.
def dropReference (g : Graph ν) : Nat → Freeing ν → ν → Option (Freeing ν)
  | 0, _, _ => none
  | depth + 1, s, p =>
      if s.refCount p = 0 ∨ p ∈ s.freed then none
      else if g.isValue p = true ∨ (s.decrement p).refCount p ≠ 0 then some (s.decrement p)
      else ((g.children p).foldlM (dropReference g depth) (s.decrement p)).map (Freeing.free p)

-- A value, a context behind it and what that context refers to.
def dropDepth : Nat := 3

-- `free_object` or `free_function_bytecode`, for objects without weak references, whose finalizers
-- release just what `mark_children` reports.
def freeGcObject (g : Graph ν) (s : Freeing ν) (p : ν) : Option (Freeing ν) :=
  ((g.children p).foldlM (dropReference g dropDepth) s).map fun s =>
    if s.refCount p ≠ 0 then s.postpone p else s.free p

def freeCyclesLoop (g : Graph ν) : Nat → Freeing ν → Option (Freeing ν)
  | 0, s => some s
  | fuel + 1, s =>
      match s.tmpObjList with
      | [] => some s
      | p :: _ =>
          if g.isValue p then (freeGcObject g s p).bind (freeCyclesLoop g fuel)
          else freeCyclesLoop g fuel (s.postpone p)

def freePostponed (g : Graph ν) (s : Freeing ν) : Option (Freeing ν) :=
  if s.gcZeroRefCountList.all g.isValue then
    some { s with gcZeroRefCountList := [], freed := s.freed ++ s.gcZeroRefCountList }
  else none

def gcFreeCycles (g : Graph ν) (h : Heap ν) : Option (Freeing ν) :=
  (freeCyclesLoop g h.tmpObjList.length
    { refCount := h.refCount
      tmpObjList := h.tmpObjList
      gcZeroRefCountList := []
      freed := [] }).bind (freePostponed g)

structure Collected (ν : Type) where
  refCount : ν → Nat
  gcObjList : List ν
  freed : List ν

def runGc (g : Graph ν) (h : Heap ν) : Option (Collected ν) :=
  ((gcDecref g.children h).bind (gcScan g.children)).bind fun scanned =>
    (gcFreeCycles g scanned).map fun s =>
      { refCount := s.refCount
        gcObjList := scanned.gcObjList
        freed := s.freed }

def GcObjType.layer : GcObjType → Nat
  | .jsContext => 1
  | _ => 0

-- Only a context refers to objects that are not values, and not to contexts.
def Layered (g : Graph ν) : Prop :=
  ∀ p, g.isValue p = false → ∀ c ∈ g.children p, g.isValue c = false →
    (g.type c).layer < (g.type p).layer

structure Dropping (g : Graph ν) (objects : List ν) (extra : ν → Nat) (held owed : List ν)
    (s : Freeing ν) : Prop where
  nodup : held.Nodup
  within : ∀ p ∈ held, p ∈ objects
  targets : ∀ p ∈ owed, p ∈ objects
  counted : ∀ p ∈ objects,
    s.refCount p = extra p + (held.flatMap g.children).count p + owed.count p
  dropped : ∀ p ∈ objects, g.isValue p = false → (p ∈ held ↔ 0 < s.refCount p)
  freed : ∀ p ∈ s.freed, s.refCount p = 0

structure Frees (gone : List ν) (s t : Freeing ν) : Prop where
  tmpObjList : t.tmpObjList = s.tmpObjList.diff gone
  gcZeroRefCountList : t.gcZeroRefCountList = s.gcZeroRefCountList.diff gone
  freed : t.freed = s.freed ++ gone

theorem Frees.refl {s t : Freeing ν} (tmp : t.tmpObjList = s.tmpObjList)
    (zero : t.gcZeroRefCountList = s.gcZeroRefCountList) (freed : t.freed = s.freed) :
    Frees [] s t :=
  ⟨by rw [tmp, List.diff_nil], by rw [zero, List.diff_nil], by rw [freed, List.append_nil]⟩

theorem Frees.trans {first second : List ν} {s t u : Freeing ν} (before : Frees first s t)
    (after : Frees second t u) : Frees (first ++ second) s u := by
  refine ⟨?_, ?_, ?_⟩
  · rw [after.tmpObjList, before.tmpObjList, List.diff_append]
  · rw [after.gcZeroRefCountList, before.gcZeroRefCountList, List.diff_append]
  · rw [after.freed, before.freed, List.append_assoc]

theorem frees_free (p : ν) (s : Freeing ν) : Frees [p] s (s.free p) := by
  refine ⟨?_, ?_, rfl⟩
  · rw [List.diff_cons, List.diff_nil]
    rfl
  · rw [List.diff_cons, List.diff_nil]
    rfl

section Drop

variable {g : Graph ν} {objects held rest : List ν} {extra : ν → Nat} {s : Freeing ν} {p : ν}

def Drops (g : Graph ν) (objects : List ν) (extra : ν → Nat) (held rest : List ν) (s : Freeing ν)
    (result : Option (Freeing ν)) : Prop :=
  ∃ t left gone, result = some t ∧ Dropping g objects extra left rest t ∧ Frees gone s t ∧
    (gone ++ left).Perm held ∧ ∀ q ∈ gone, g.isValue q = false

theorem decrement_refCount (s : Freeing ν) (p q : ν) :
    (s.decrement p).refCount q = if q = p then s.refCount p - 1 else s.refCount q := by
  simp only [Freeing.decrement, Function.update_apply]

theorem refCount_pos (inv : Dropping g objects extra held (p :: rest) s) : 0 < s.refCount p := by
  have counted := inv.counted p (inv.targets p List.mem_cons_self)
  rw [List.count_cons_self] at counted
  omega

theorem decrement_counted (inv : Dropping g objects extra held (p :: rest) s) :
    ∀ q ∈ objects, (s.decrement p).refCount q =
      extra q + (held.flatMap g.children).count q + rest.count q := by
  intro q member
  have before := inv.counted q member
  rw [decrement_refCount]
  by_cases same : q = p
  · rw [same, List.count_cons_self] at before
    rw [if_pos same, same]
    omega
  · rw [List.count_cons_of_ne (Ne.symm same)] at before
    rw [if_neg same, before]

theorem decrement_freed (inv : Dropping g objects extra held (p :: rest) s) :
    ∀ q ∈ s.freed, (s.decrement p).refCount q = 0 := by
  intro q gone
  have zero := inv.freed q gone
  have positive := refCount_pos inv
  have other : q ≠ p := by
    rintro rfl
    omega
  rw [decrement_refCount, if_neg other, zero]

theorem decrement_kept (inv : Dropping g objects extra held (p :: rest) s)
    (stays : g.isValue p = true ∨ (s.decrement p).refCount p ≠ 0) :
    Dropping g objects extra held rest (s.decrement p) := by
  refine ⟨inv.nodup, inv.within, fun q member => inv.targets q (List.mem_cons_of_mem _ member),
    decrement_counted inv, fun q member plain => ?_, decrement_freed inv⟩
  rw [inv.dropped q member plain]
  by_cases same : q = p
  · subst same
    have remains := stays.resolve_left (by simp [plain])
    have positive := refCount_pos inv
    omega
  · rw [decrement_refCount, if_neg same]

theorem flatMap_erase (children : ν → List ν) (member : p ∈ held) (q : ν) :
    (held.flatMap children).count q =
      (children p).count q + ((held.erase p).flatMap children).count q := by
  have parts := ((List.perm_cons_erase member).flatMap_right children).count_eq q
  rwa [List.flatMap_cons, List.count_append] at parts

theorem decrement_opened (inv : Dropping g objects extra held (p :: rest) s)
    (closed : ∀ q ∈ objects, ∀ c ∈ g.children q, c ∈ objects)
    (plain : g.isValue p = false) (zero : (s.decrement p).refCount p = 0) :
    p ∈ held ∧ Dropping g objects extra (held.erase p) (g.children p ++ rest) (s.decrement p) := by
  have member := inv.targets p List.mem_cons_self
  have present : p ∈ held := (inv.dropped p member plain).mpr (refCount_pos inv)
  refine ⟨present, inv.nodup.erase p, fun q left => inv.within q (List.mem_of_mem_erase left),
    ?_, ?_, ?_, decrement_freed inv⟩
  · intro q target
    rcases List.mem_append.mp target with child | later
    · exact closed p member q child
    · exact inv.targets q (List.mem_cons_of_mem _ later)
  · intro q listed
    have before := decrement_counted inv q listed
    rw [flatMap_erase g.children present q] at before
    rw [before, List.count_append]
    omega
  · intro q listed other
    by_cases same : q = p
    · subst same
      rw [zero]
      simp [inv.nodup.not_mem_erase]
    · rw [List.mem_erase_of_ne same, inv.dropped q listed other, decrement_refCount, if_neg same]

theorem drops_list {depth : Nat} {cs : List ν}
    (single : ∀ held rest s c, c ∈ cs → Dropping g objects extra held (c :: rest) s →
      Drops g objects extra held rest s (dropReference g depth s c))
    (inv : Dropping g objects extra held (cs ++ rest) s) :
    Drops g objects extra held rest s (cs.foldlM (dropReference g depth) s) := by
  induction cs generalizing held s with
  | nil => exact ⟨s, held, [], rfl, inv, Frees.refl rfl rfl rfl, List.Perm.refl _, by simp⟩
  | cons c others ih =>
      obtain ⟨t, left, gone, first, next, freed, parts, plain⟩ :=
        single held (others ++ rest) s c List.mem_cons_self inv
      obtain ⟨u, last, more, second, after, later, halves, plainer⟩ :=
        ih (fun held rest s d member => single held rest s d (List.mem_cons_of_mem _ member)) next
      refine ⟨u, last, gone ++ more, ?_, after, freed.trans later, ?_, ?_⟩
      · rw [List.foldlM_cons, first]
        exact second
      · rw [List.append_assoc]
        exact (halves.append_left gone).trans parts
      · intro q member
        rcases List.mem_append.mp member with early | late
        · exact plain q early
        · exact plainer q late

theorem dropReference_spec (layered : Layered g)
    (closed : ∀ q ∈ objects, ∀ c ∈ g.children q, c ∈ objects) (depth : Nat)
    (inv : Dropping g objects extra held (p :: rest) s) (positive : 0 < depth)
    (deep : g.isValue p = false → (g.type p).layer + 1 < depth) :
    Drops g objects extra held rest s (dropReference g depth s p) := by
  induction depth generalizing held rest s p with
  | zero => exact absurd positive (Nat.lt_irrefl 0)
  | succ depth ih =>
      have counted := refCount_pos inv
      have alive : ¬ (s.refCount p = 0 ∨ p ∈ s.freed) := by
        rintro (zero | gone)
        · omega
        · have zero := inv.freed p gone
          omega
      rw [dropReference, if_neg alive]
      by_cases stays : g.isValue p = true ∨ (s.decrement p).refCount p ≠ 0
      · refine ⟨s.decrement p, held, [], if_pos stays, decrement_kept inv stays,
          Frees.refl rfl rfl rfl, List.Perm.refl _, by simp⟩
      · rw [not_or, Bool.not_eq_true, ne_eq, not_not] at stays
        obtain ⟨plain, zero⟩ := stays
        obtain ⟨present, opened⟩ := decrement_opened inv closed plain zero
        have bound := deep plain
        have deeper : ∀ c ∈ g.children p, g.isValue c = false → (g.type c).layer + 1 < depth := by
          intro c child other
          have below := layered p plain c child other
          omega
        obtain ⟨t, left, gone, folded, next, freed, parts, others⟩ := drops_list
          (fun held rest s c member inv => ih inv (by omega) (deeper c member)) opened
        have member := inv.targets p List.mem_cons_self
        have start : Frees [] s (s.decrement p) := Frees.refl rfl rfl rfl
        have lost : p ∉ left := by
          intro still
          have back := parts.mem_iff.mp (List.mem_append_right gone still)
          exact inv.nodup.not_mem_erase back
        refine ⟨t.free p, left, gone ++ [p], ?_, ?_, start.trans (freed.trans (frees_free p t)),
          ?_, ?_⟩
        · rw [if_neg (by simp [plain, zero]), folded, Option.map_some]
        · refine ⟨next.nodup, next.within, next.targets, next.counted, next.dropped, ?_⟩
          intro q listed
          rcases List.mem_append.mp listed with earlier | now
          · exact next.freed q earlier
          · rw [List.mem_singleton.mp now]
            have unreferenced := mt (next.dropped p member plain).mpr lost
            change t.refCount p = 0
            omega
        · rw [List.append_assoc, List.singleton_append]
          have middle : (gone ++ p :: left).Perm (p :: (gone ++ left)) := List.perm_middle
          exact middle.trans ((parts.cons p).trans (List.perm_cons_erase present).symm)
        · intro q listed
          rcases List.mem_append.mp listed with earlier | now
          · exact others q earlier
          · rw [List.mem_singleton.mp now]
            exact plain

end Drop

section Loop

variable {g : Graph ν} {objects live garbage held : List ν} {extra : ν → Nat} {s t : Freeing ν}
  {p : ν}

structure Sweeping (g : Graph ν) (objects live garbage : List ν) (extra : ν → Nat) (held : List ν)
    (s : Freeing ν) : Prop where
  dropping : Dropping g objects extra held [] s
  listed : (s.tmpObjList ++ s.gcZeroRefCountList ++ s.freed).Perm garbage
  waiting : ∀ p ∈ s.tmpObjList, p ∈ held
  postponed : ∀ p ∈ s.gcZeroRefCountList, g.isValue p = false → p ∈ held
  spared : ∀ p ∈ live, p ∈ held
  holders : ∀ p ∈ held, p ∈ live ∨ p ∈ s.tmpObjList ∨
    (p ∈ s.gcZeroRefCountList ∧ g.isValue p = false)

structure Divided (g : Graph ν) (objects live garbage : List ν) (extra : ν → Nat) : Prop where
  closed : ∀ p ∈ objects, ∀ c ∈ g.children p, c ∈ objects
  layered : Layered g
  nodup : garbage.Nodup
  apart : ∀ p ∈ live, p ∉ garbage
  within : ∀ p ∈ garbage, p ∈ objects
  roots : ∀ p ∈ objects, 0 < extra p → p ∈ live
  step : ∀ p ∈ live, ∀ c ∈ g.children p, c ∈ live
  reached : ∀ p ∈ live, ∃ root ∈ objects, 0 < extra root ∧
    Relation.ReflTransGen (fun parent child => child ∈ g.children parent) root p

theorem frees_listed {gone : List ν} (frees : Frees gone s t)
    (nodup : (s.tmpObjList ++ s.gcZeroRefCountList).Nodup) (once : gone.Nodup)
    (inside : gone ⊆ s.tmpObjList ++ s.gcZeroRefCountList) :
    (t.tmpObjList ++ t.gcZeroRefCountList ++ t.freed).Perm
      (s.tmpObjList ++ s.gcZeroRefCountList ++ s.freed) := by
  rw [List.perm_iff_count]
  intro q
  have single := List.nodup_iff_count_le_one.mp nodup q
  have fewer := (List.subperm_of_subset once inside).count_le q
  rw [frees.tmpObjList, frees.gcZeroRefCountList, frees.freed]
  simp only [List.count_append, List.count_diff] at single fewer ⊢
  omega

theorem live_held {left rest gone : List ν} (divided : Divided g objects live garbage extra)
    (next : Dropping g objects extra left rest t) (parts : (gone ++ left).Perm held)
    (plain : ∀ q ∈ gone, g.isValue q = false) (before : ∀ q ∈ live, q ∈ held) :
    ∀ q ∈ live, q ∈ left := by
  have kept : ∀ q ∈ objects, q ∈ live → 0 < t.refCount q → q ∈ left := by
    intro q member alive positive
    cases value : g.isValue q with
    | false => exact (next.dropped q member value).mpr positive
    | true =>
        have either := List.mem_append.mp (parts.mem_iff.mpr (before q alive))
        refine either.resolve_left fun lost => ?_
        simp [plain q lost] at value
  intro q alive
  obtain ⟨root, member, outside, path⟩ := divided.reached q alive
  have along : q ∈ objects ∧ q ∈ live ∧ q ∈ left := by
    clear alive
    induction path with
    | refl =>
        have counted := next.counted root member
        have known := divided.roots root member outside
        exact ⟨member, known, kept root member known (by omega)⟩
    | @tail parent child earlier edge ih =>
        have listed := divided.closed parent ih.1 child edge
        have known := divided.step parent ih.2.1 child edge
        have reported : 0 < (left.flatMap g.children).count child :=
          List.count_pos_iff.mpr (List.mem_flatMap.mpr ⟨parent, ih.2.2, edge⟩)
        have counted := next.counted child listed
        exact ⟨listed, known, kept child listed known (by omega)⟩
  exact along.2.2

theorem postponed_values (divided : Divided g objects live garbage extra)
    (sweeping : Sweeping g objects live garbage extra held s) (done : s.tmpObjList = []) :
    ∀ p ∈ s.gcZeroRefCountList, g.isValue p = true := by
  have higher : ∀ p ∈ s.gcZeroRefCountList, g.isValue p = false →
      ∃ q ∈ s.gcZeroRefCountList, g.isValue q = false ∧ (g.type p).layer < (g.type q).layer := by
    intro p postponed plain
    have known := sweeping.postponed p postponed plain
    have member := sweeping.dropping.within p known
    have positive := (sweeping.dropping.dropped p member plain).mp known
    have counted := sweeping.dropping.counted p member
    have dead : p ∉ live := fun alive => divided.apart p alive
      (sweeping.listed.mem_iff.mp (by simp [postponed]))
    have inside : extra p = 0 := by
      by_contra outside
      exact dead (divided.roots p member (by omega))
    rw [List.count_nil] at counted
    have reported : 0 < (held.flatMap g.children).count p := by omega
    obtain ⟨q, holder, edge⟩ := List.mem_flatMap.mp (List.count_pos_iff.mp reported)
    rcases sweeping.holders q holder with alive | waiting | ⟨listed, other⟩
    · exact absurd (divided.step q alive p edge) dead
    · simp [done] at waiting
    · exact ⟨q, listed, other, divided.layered q other p edge plain⟩
  intro p postponed
  by_contra plain
  rw [Bool.not_eq_true] at plain
  obtain ⟨q, second, other, above⟩ := higher p postponed plain
  obtain ⟨r, _, _, top⟩ := higher q second other
  have bound : (g.type r).layer ≤ 1 := by cases g.type r <;> simp [GcObjType.layer]
  omega

theorem drop_children (divided : Divided g objects live garbage extra)
    (sweeping : Sweeping g objects live garbage extra held s) (head : p ∈ s.tmpObjList)
    (value : g.isValue p = true) :
    Drops g objects extra (held.erase p) [] s
      ((g.children p).foldlM (dropReference g dropDepth) s) := by
  have inv := sweeping.dropping
  have present := sweeping.waiting p head
  have opened : Dropping g objects extra (held.erase p) (g.children p ++ []) s := by
    refine ⟨inv.nodup.erase p, fun q left => inv.within q (List.mem_of_mem_erase left), ?_, ?_, ?_,
      inv.freed⟩
    · rw [List.append_nil]
      exact divided.closed p (inv.within p present)
    · intro q member
      have before := inv.counted q member
      rw [flatMap_erase g.children present q, List.count_nil] at before
      rw [List.append_nil]
      omega
    · intro q member plain
      have other : q ≠ p := by
        rintro rfl
        simp [value] at plain
      rw [List.mem_erase_of_ne other]
      exact inv.dropped q member plain
  refine drops_list (fun held rest u c _ inv => ?_) opened
  refine dropReference_spec divided.layered divided.closed dropDepth inv (by decide) fun _ => ?_
  have bound : (g.type c).layer ≤ 1 := by cases g.type c <;> simp [GcObjType.layer]
  rw [dropDepth]
  omega

theorem postpone_listed (head : p ∈ s.tmpObjList) :
    ((s.postpone p).tmpObjList ++ (s.postpone p).gcZeroRefCountList ++ (s.postpone p).freed).Perm
      (s.tmpObjList ++ s.gcZeroRefCountList ++ s.freed) := by
  rw [List.perm_iff_count]
  intro q
  have positive := List.count_pos_iff.mpr head
  simp only [Freeing.postpone, List.count_append, List.count_erase, List.count_singleton]
  by_cases same : p = q
  · subst same
    simp only [beq_self_eq_true, if_true]
    omega
  · simp only [beq_iff_eq, same, if_false]
    omega

theorem free_listed (head : p ∈ s.tmpObjList) (absent : p ∉ s.gcZeroRefCountList) :
    ((s.free p).tmpObjList ++ (s.free p).gcZeroRefCountList ++ (s.free p).freed).Perm
      (s.tmpObjList ++ s.gcZeroRefCountList ++ s.freed) := by
  rw [List.perm_iff_count]
  intro q
  have positive := List.count_pos_iff.mpr head
  simp only [Freeing.free, List.erase_of_not_mem absent, List.count_append, List.count_erase,
    List.count_singleton]
  by_cases same : p = q
  · subst same
    simp only [beq_self_eq_true, if_true]
    omega
  · simp only [beq_iff_eq, same, if_false]
    omega

theorem sweeping_after {left gone : List ν} {t u : Freeing ν}
    (divided : Divided g objects live garbage extra)
    (sweeping : Sweeping g objects live garbage extra held s) (head : p ∈ s.tmpObjList)
    (value : g.isValue p = true) (next : Dropping g objects extra left [] t)
    (frees : Frees gone s t) (parts : (gone ++ left).Perm (held.erase p))
    (plain : ∀ q ∈ gone, g.isValue q = false) (tmp : u.tmpObjList = t.tmpObjList.erase p)
    (zero : ∀ q, q ≠ p → (q ∈ u.gcZeroRefCountList ↔ q ∈ t.gcZeroRefCountList))
    (count : u.refCount = t.refCount) (freed : ∀ q ∈ u.freed, t.refCount q = 0)
    (moved : p ∈ t.tmpObjList → p ∉ t.gcZeroRefCountList →
      (u.tmpObjList ++ u.gcZeroRefCountList ++ u.freed).Perm
        (t.tmpObjList ++ t.gcZeroRefCountList ++ t.freed)) :
    Sweeping g objects live garbage extra left u ∧
      u.tmpObjList.length < s.tmpObjList.length := by
  have nodup := List.nodup_append.mp (sweeping.listed.nodup_iff.mpr divided.nodup)
  have lists := List.nodup_append.mp nodup.1
  have member : p ∈ garbage := sweeping.listed.mem_iff.mp (by simp [head])
  have before : ∀ q ∈ live, q ∈ held.erase p := by
    intro q alive
    have other : q ≠ p := by
      rintro rfl
      exact divided.apart q alive member
    exact (List.mem_erase_of_ne other).mpr (sweeping.spared q alive)
  have spared := live_held divided next parts plain before
  have once := List.nodup_append.mp (parts.nodup_iff.mpr (sweeping.dropping.nodup.erase p))
  have stays : ∀ q ∈ left, q ∉ gone := fun q kept lost => once.2.2 q lost q kept rfl
  have inside : gone ⊆ s.tmpObjList ++ s.gcZeroRefCountList := by
    intro q lost
    have earlier := List.mem_of_mem_erase (parts.mem_iff.mp (List.mem_append_left _ lost))
    rcases sweeping.holders q earlier with alive | waiting | ⟨postponed, _⟩
    · exact absurd lost (stays q (spared q alive))
    · exact List.mem_append_left _ waiting
    · exact List.mem_append_right _ postponed
  have kept : p ∉ gone := by
    intro lost
    simp [plain p lost] at value
  have present : p ∈ t.tmpObjList := by
    rw [frees.tmpObjList]
    exact List.mem_diff_of_mem head kept
  have absent : p ∉ t.gcZeroRefCountList := by
    rw [frees.gcZeroRefCountList]
    intro listed
    exact lists.2.2 p head p (List.diff_subset _ _ listed) rfl
  have waits : ∀ q, q ∈ u.tmpObjList ↔ q ∈ s.tmpObjList ∧ q ∉ gone ∧ q ≠ p := by
    intro q
    rw [tmp, frees.tmpObjList, (lists.1.diff).mem_erase_iff, lists.1.mem_sdiff_iff]
    tauto
  have postponed : ∀ q, q ≠ p →
      (q ∈ u.gcZeroRefCountList ↔ q ∈ s.gcZeroRefCountList ∧ q ∉ gone) := by
    intro q other
    rw [zero q other, frees.gcZeroRefCountList, lists.2.1.mem_sdiff_iff]
  have remains : ∀ q ∈ held, q ≠ p → q ∉ gone → q ∈ left := by
    intro q earlier other saved
    have either := List.mem_append.mp (parts.mem_iff.mpr ((List.mem_erase_of_ne other).mpr earlier))
    exact either.resolve_left saved
  refine ⟨⟨?_, ?_, ?_, ?_, spared, ?_⟩, ?_⟩
  · exact ⟨next.nodup, next.within, next.targets, by rw [count]; exact next.counted,
      by rw [count]; exact next.dropped, by rw [count]; exact freed⟩
  · exact (moved present absent).trans
      ((frees_listed frees nodup.1 once.1 inside).trans sweeping.listed)
  · intro q listed
    obtain ⟨waiting, saved, other⟩ := (waits q).mp listed
    exact remains q (sweeping.waiting q waiting) other saved
  · intro q listed other
    have different : q ≠ p := by
      rintro rfl
      simp [value] at other
    obtain ⟨earlier, saved⟩ := (postponed q different).mp listed
    exact remains q (sweeping.postponed q earlier other) different saved
  · intro q kept
    have saved := stays q kept
    have earlier := parts.mem_iff.mp (List.mem_append_right gone kept)
    have different : q ≠ p := by
      rintro rfl
      exact sweeping.dropping.nodup.not_mem_erase earlier
    rcases sweeping.holders q (List.mem_of_mem_erase earlier) with alive | waiting | ⟨later, other⟩
    · exact .inl alive
    · exact .inr (.inl ((waits q).mpr ⟨waiting, saved, different⟩))
    · exact .inr (.inr ⟨(postponed q different).mpr ⟨later, saved⟩, other⟩)
  · have shorter := (List.diff_sublist s.tmpObjList gone).length_le
    have positive := List.length_pos_of_mem present
    rw [tmp, List.length_erase_of_mem present, frees.tmpObjList]
    rw [frees.tmpObjList] at positive
    omega

theorem value_round (divided : Divided g objects live garbage extra)
    (sweeping : Sweeping g objects live garbage extra held s) (head : p ∈ s.tmpObjList)
    (value : g.isValue p = true) :
    ∃ t left, freeGcObject g s p = some t ∧ Sweeping g objects live garbage extra left t ∧
      t.tmpObjList.length < s.tmpObjList.length := by
  obtain ⟨t, left, gone, folded, next, frees, parts, plain⟩ :=
    drop_children divided sweeping head value
  by_cases referred : t.refCount p ≠ 0
  · have after := sweeping_after (u := t.postpone p) divided sweeping head value next frees parts
      plain rfl (fun q other => by simp [Freeing.postpone, other]) rfl next.freed
      (fun present _ => postpone_listed present)
    exact ⟨t.postpone p, left, by rw [freeGcObject, folded, Option.map_some, if_pos referred], after⟩
  · have zero : t.refCount p = 0 := by simpa using referred
    have freed : ∀ q ∈ (t.free p).freed, t.refCount q = 0 := by
      intro q listed
      rcases List.mem_append.mp listed with earlier | now
      · exact next.freed q earlier
      · rw [List.mem_singleton.mp now, zero]
    have after := sweeping_after (u := t.free p) divided sweeping head value next frees parts plain
      rfl (fun q other => by simp [Freeing.free, List.mem_erase_of_ne other]) rfl freed
      free_listed
    exact ⟨t.free p, left, by rw [freeGcObject, folded, Option.map_some, if_neg referred], after⟩

theorem other_round (divided : Divided g objects live garbage extra)
    (sweeping : Sweeping g objects live garbage extra held s) (head : p ∈ s.tmpObjList)
    (plain : g.isValue p = false) :
    Sweeping g objects live garbage extra held (s.postpone p) ∧
      (s.postpone p).tmpObjList.length < s.tmpObjList.length := by
  have inv := sweeping.dropping
  have nodup := List.nodup_append.mp (sweeping.listed.nodup_iff.mpr divided.nodup)
  refine ⟨⟨⟨inv.nodup, inv.within, inv.targets, inv.counted, inv.dropped, inv.freed⟩,
    (postpone_listed head).trans sweeping.listed, ?_, ?_, sweeping.spared, ?_⟩, ?_⟩
  · intro q listed
    exact sweeping.waiting q (List.mem_of_mem_erase listed)
  · intro q listed other
    rcases List.mem_append.mp listed with earlier | now
    · exact sweeping.postponed q earlier other
    · rw [List.mem_singleton.mp now]
      exact sweeping.waiting p head
  · intro q kept
    by_cases same : q = p
    · subst same
      exact .inr (.inr ⟨List.mem_append_right _ List.mem_cons_self, plain⟩)
    · rcases sweeping.holders q kept with alive | waiting | ⟨later, other⟩
      · exact .inl alive
      · exact .inr (.inl ((List.mem_erase_of_ne same).mpr waiting))
      · exact .inr (.inr ⟨List.mem_append_left _ later, other⟩)
  · have positive := List.length_pos_of_mem head
    simp only [Freeing.postpone, List.length_erase_of_mem head]
    omega

theorem freeCyclesLoop_spec (divided : Divided g objects live garbage extra) (fuel : Nat)
    (sweeping : Sweeping g objects live garbage extra held s)
    (enough : s.tmpObjList.length ≤ fuel) :
    ∃ t left, freeCyclesLoop g fuel s = some t ∧ Sweeping g objects live garbage extra left t ∧
      t.tmpObjList = [] := by
  induction fuel generalizing s held with
  | zero => exact ⟨s, held, rfl, sweeping, List.eq_nil_of_length_eq_zero (by omega)⟩
  | succ fuel ih =>
      rw [freeCyclesLoop]
      cases waiting : s.tmpObjList with
      | nil => exact ⟨s, held, rfl, sweeping, waiting⟩
      | cons p rest =>
          have head : p ∈ s.tmpObjList := by simp [waiting]
          cases value : g.isValue p with
          | true =>
              obtain ⟨t, left, taken, next, shorter⟩ := value_round divided sweeping head value
              have tail := ih next (by omega)
              simpa only [value, if_true, taken, Option.bind_some] using tail
          | false =>
              have next := other_round divided sweeping head value
              have tail := ih next.1 (by omega)
              simpa only [value, Bool.false_eq_true, if_false] using tail

end Loop

section Whole

variable {g : Graph ν} {h : Heap ν}

structure Collects (g : Graph ν) (h : Heap ν) (c : Collected ν) : Prop where
  perm : (c.gcObjList ++ c.freed).Perm h.gcObjList
  live : ∀ p ∈ h.gcObjList, p ∈ c.gcObjList ↔ Kept g.children h p
  refCount : ∀ p ∈ c.gcObjList, c.refCount p + reports g.children h.gcObjList p =
    h.refCount p + reports g.children c.gcObjList p

theorem divided_of_separated {scanned : Heap ν} (sound : Sound g.children h) (layered : Layered g)
    (separated : Separated g.children h scanned) :
    Divided g h.gcObjList scanned.gcObjList scanned.tmpObjList
      fun p => h.refCount p - reports g.children h.gcObjList p := by
  have apart := List.nodup_append.mp (separated.perm.nodup_iff.mpr sound.nodup)
  have within : ∀ p ∈ scanned.gcObjList, p ∈ h.gcObjList := fun p live =>
    separated.perm.mem_iff.mp (List.mem_append_left _ live)
  refine ⟨sound.closed, layered, apart.2.1, fun p live dead => apart.2.2 p live p dead rfl,
    fun p dead => separated.perm.mem_iff.mp (List.mem_append_right _ dead), ?_, ?_, ?_⟩
  · intro p member outside
    exact (separated.live p member).mpr ⟨p, member, by omega, .refl⟩
  · intro p live c child
    have member := within p live
    rw [separated.live c (sound.closed p member c child)]
    exact kept_step ((separated.live p member).mp live) child
  · intro p live
    obtain ⟨root, member, outside, path⟩ := (separated.live p (within p live)).mp live
    exact ⟨root, member, by omega, path⟩

theorem sweeping_of_separated {scanned : Heap ν} (sound : Sound g.children h)
    (positive : ∀ p ∈ h.gcObjList, 0 < h.refCount p)
    (bounded : ∀ p, reports g.children h.gcObjList p ≤ h.refCount p)
    (separated : Separated g.children h scanned) :
    Sweeping g h.gcObjList scanned.gcObjList scanned.tmpObjList
      (fun p => h.refCount p - reports g.children h.gcObjList p) h.gcObjList
      ⟨scanned.refCount, scanned.tmpObjList, [], []⟩ := by
  refine ⟨⟨sound.nodup, fun _ member => member, by simp, ?_, ?_, by simp⟩, by simp, ?_, by simp,
    ?_, ?_⟩
  · intro p _
    have bound := bounded p
    change scanned.refCount p = _
    rw [separated.refCount p, List.count_nil, ← reports]
    omega
  · intro p member _
    change p ∈ h.gcObjList ↔ 0 < scanned.refCount p
    rw [separated.refCount p]
    exact ⟨fun _ => positive p member, fun _ => member⟩
  · intro p dead
    exact separated.perm.mem_iff.mp (List.mem_append_right _ dead)
  · intro p live
    exact separated.perm.mem_iff.mp (List.mem_append_left _ live)
  · intro p member
    rcases List.mem_append.mp (separated.perm.mem_iff.mpr member) with live | dead
    · exact .inl live
    · exact .inr (.inl dead)

theorem gcFreeCycles_spec {scanned : Heap ν} (sound : Sound g.children h) (layered : Layered g)
    (positive : ∀ p ∈ h.gcObjList, 0 < h.refCount p)
    (bounded : ∀ p, reports g.children h.gcObjList p ≤ h.refCount p)
    (separated : Separated g.children h scanned) :
    ∃ t, gcFreeCycles g scanned = some t ∧ t.freed.Perm scanned.tmpObjList ∧
      ∀ p ∈ scanned.gcObjList, t.refCount p + reports g.children h.gcObjList p =
        h.refCount p + reports g.children scanned.gcObjList p := by
  have divided := divided_of_separated sound layered separated
  obtain ⟨t, left, looped, sweeping, done⟩ := freeCyclesLoop_spec divided
    scanned.tmpObjList.length (sweeping_of_separated sound positive bounded separated)
    (Nat.le_refl _)
  have values := postponed_values divided sweeping done
  have listed := sweeping.listed
  rw [done, List.nil_append] at listed
  -- Only live objects still have their references.
  have same : left.Perm scanned.gcObjList := by
    have apart := List.nodup_append.mp (separated.perm.nodup_iff.mpr sound.nodup)
    rw [List.perm_ext_iff_of_nodup sweeping.dropping.nodup apart.1]
    intro p
    refine ⟨fun kept => ?_, sweeping.spared p⟩
    rcases sweeping.holders p kept with live | waiting | ⟨postponed, plain⟩
    · exact live
    · simp [done] at waiting
    · simp [values p postponed] at plain
  refine ⟨⟨t.refCount, t.tmpObjList, [], t.freed ++ t.gcZeroRefCountList⟩, ?_,
    List.perm_append_comm.trans listed, ?_⟩
  · simp only [gcFreeCycles, looped, Option.bind_some, freePostponed,
      List.all_eq_true.mpr values, if_true]
  · intro p live
    have member := separated.perm.mem_iff.mp (List.mem_append_left scanned.tmpObjList live)
    have counted := sweeping.dropping.counted p member
    have held := (same.flatMap_right g.children).count_eq p
    have bound := bounded p
    rw [List.count_nil, held, ← reports] at counted
    change t.refCount p + _ = _
    omega

/-- A collection passes all its assertions and touches no freed object if and only if no object is
reported more often than it is counted. -/
theorem runGc_spec (sound : Sound g.children h) (layered : Layered g)
    (positive : ∀ p ∈ h.gcObjList, 0 < h.refCount p) :
    match runGc g h with
    | some c => Collects g h c ∧ ∀ p, reports g.children h.gcObjList p ≤ h.refCount p
    | none => ∃ p, h.refCount p < reports g.children h.gcObjList p := by
  have spec := gcScan_spec sound
  rw [runGc]
  cases scan : (gcDecref g.children h).bind (gcScan g.children) with
  | none => simpa only [scan, Option.bind_none] using spec
  | some scanned =>
      rw [scan] at spec
      obtain ⟨separated, bounded⟩ := spec
      obtain ⟨t, freed, parts, counted⟩ :=
        gcFreeCycles_spec sound layered positive bounded separated
      simp only [Option.bind_some, freed, Option.map_some]
      exact ⟨⟨(parts.append_left _).trans separated.perm, separated.live, counted⟩, bounded⟩

end Whole

def cycleGraph : Graph Nat where
  children p := if p = 0 then [] else if p = 1 then [3, 2] else if p = 2 then [1] else [0]
  type p := if p = 3 then .shape else .jsObject

def cycleHeap : Heap Nat where
  refCount p := if p = 0 then 2 else 1
  mark _ := false
  gcObjList := [0, 1, 2, 3]
  tmpObjList := []

theorem runGc_spec_cycle :
    ∃ c, runGc cycleGraph cycleHeap = some c ∧ c.freed = [3, 2, 1] ∧
      Collects cycleGraph cycleHeap c := by
  have sound : Sound cycleGraph.children cycleHeap := ⟨by decide, by decide, fun _ => rfl⟩
  have layered : Layered cycleGraph := by
    intro p plain c child other
    have shape : ∀ q, cycleGraph.isValue q = false → q = 3 := by
      intro q plain
      by_contra other
      simp [Graph.isValue, cycleGraph, other, GcObjType.isValue] at plain
    rw [shape p plain] at child
    rw [shape c other] at child
    exact absurd child (by decide)
  have spec := runGc_spec sound layered (by decide)
  have freed : (runGc cycleGraph cycleHeap).map (fun c => c.freed) = some [3, 2, 1] := by
    decide +kernel
  cases result : runGc cycleGraph cycleHeap with
  | none => simp [result] at freed
  | some c =>
      rw [result] at spec freed
      exact ⟨c, rfl, Option.some.inj freed, spec.1⟩

end BreezeJs.Gc
