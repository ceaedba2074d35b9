import Mathlib.Logic.Function.Basic
import BreezeJs.Library.Transition
import BreezeJs.Library.Counting

set_option autoImplicit false

namespace BreezeJs.ClassId

open Transition Counting

-- `JS_CLASS_INIT_COUNT`.
def classInitCount : Nat := 61

def maxClassId : Nat := 65536

-- The C++ types that own a static class id; `κ` names the wrapped type.
inductive Native (κ : Type) where
  | sharedPtr (type : κ)
  | function
  | lazy (type : κ)
deriving DecidableEq, Repr

inductive ClassDef (κ : Type) where
  | builtin
  | native (type : Native κ)
deriving DecidableEq, Repr

structure Runtime (κ : Type) where
  -- One step for each type, so it stays far below the range of `JSClassID`.
  classIdAlloc : Nat
  classArray : Nat → Option (ClassDef κ)

structure View (κ : Type) where
  classId : Native κ → Nat
  runtime : Runtime κ

structure State (κ : Type) where
  classId : Native κ → Nat
  runtimes : List (Runtime κ)

inductive Action (κ : Type) where
  | newRuntime
  | newContext (rt : Nat)
  | registerClass (rt : Nat) (type : κ)
  | ensureCanCastToBase (rt : Nat) (type : κ)
  | wrapSharedPtr (rt : Nat) (type : κ)
  | wrapLazy (rt : Nat) (type : κ)
deriving DecidableEq, Repr

variable {κ : Type} [DecidableEq κ]

-- The last built-in classes are registered by the first context, before any bound type.
def newRuntime : Runtime κ :=
  { classIdAlloc := classInitCount
    classArray := fun id => if 0 < id ∧ id < classInitCount then some .builtin else none }

def newClassId (v : View κ) (type : Native κ) : View κ :=
  if v.classId type = 0 then
    { classId := Function.update v.classId type v.runtime.classIdAlloc
      runtime := { v.runtime with classIdAlloc := v.runtime.classIdAlloc + 1 } }
  else v

-- Slot 0 can only hold the class id 0.
def isRegisteredClass (rt : Runtime κ) (id : Nat) : Bool :=
  id != 0 && (rt.classArray id).isSome

def newClass (rt : Runtime κ) (id : Nat) (type : Native κ) : Option (Runtime κ) :=
  if maxClassId ≤ id then none
  else if isRegisteredClass rt id then none
  else some { rt with classArray := Function.update rt.classArray id (some (.native type)) }

-- The outcome of a call, `false` for an exception; its effects up to there remain.
def defineClass (v : View κ) (type : Native κ) : View κ × Bool :=
  match newClass v.runtime (v.classId type) type with
  | some rt => ({ v with runtime := rt }, true)
  | none => (v, false)

def registerClass (v : View κ) (type : Native κ) : View κ × Bool :=
  let v := if v.classId type = 0 then newClassId v type else v
  if isRegisteredClass v.runtime (v.classId type) then (v, true) else defineClass v type

def ensureCanCastToBase (v : View κ) (type : Native κ) : View κ × Bool :=
  (if v.classId type = 0 then newClassId v type else v, true)

def wrapSharedPtr (v : View κ) (type : Native κ) : View κ × Bool :=
  if v.classId type = 0 then registerClass v type else (v, true)

def wrapLazy (v : View κ) (type : Native κ) : View κ × Bool :=
  if isRegisteredClass v.runtime (v.classId type) then (v, true)
  else defineClass (newClassId v type) type

def call : Action κ → Option (Nat × Native κ × (View κ → Native κ → View κ × Bool))
  | .newRuntime => none
  | .newContext rt => some (rt, .function, registerClass)
  | .registerClass rt type => some (rt, .sharedPtr type, registerClass)
  | .ensureCanCastToBase rt type => some (rt, .sharedPtr type, ensureCanCastToBase)
  | .wrapSharedPtr rt type => some (rt, .sharedPtr type, wrapSharedPtr)
  | .wrapLazy rt type => some (rt, .lazy type, wrapLazy)

def step (s : State κ) (a : Action κ) : Option (State κ) :=
  match call a with
  | none => some { s with runtimes := s.runtimes ++ [newRuntime] }
  | some (rt, type, op) =>
      (s.runtimes[rt]?).map fun runtime =>
        let result := (op ⟨s.classId, runtime⟩ type).1
        { classId := result.classId, runtimes := s.runtimes.set rt result.runtime }

def initial : State κ :=
  { classId := fun _ => 0
    runtimes := [] }

def system (κ : Type) [DecidableEq κ] : System (State κ) (Action κ) :=
  { init := fun s => s = initial
    step := step }

def received (v : View κ) (type : Native κ) : Nat :=
  if v.classId type = 0 then v.runtime.classIdAlloc else v.classId type

structure Used (v : View κ) (type : Native κ) (w : View κ) : Prop where
  ids : w.classId = Function.update v.classId type (received v type)
  alloc : w.runtime.classIdAlloc =
    v.runtime.classIdAlloc + if v.classId type = 0 then 1 else 0
  classes : w.runtime.classArray = v.runtime.classArray ∨
    w.runtime.classArray =
      Function.update v.runtime.classArray (received v type) (some (.native type))

theorem newClassId_used (v : View κ) (type : Native κ) : Used v type (newClassId v type) := by
  simp only [newClassId]
  by_cases first : v.classId type = 0
  · rw [if_pos first]
    exact ⟨by simp [received, first], by simp [first], .inl rfl⟩
  · rw [if_neg first]
    exact ⟨by simp [received, first], by simp [first], .inl rfl⟩

theorem newClassId_id (v : View κ) (type : Native κ) :
    (newClassId v type).classId type = received v type := by
  rw [(newClassId_used v type).ids, Function.update_self]

theorem used_of_set {v : View κ} {type : Native κ} (set : v.classId type ≠ 0) : Used v type v := by
  have unchanged : newClassId v type = v := by simp [newClassId, set]
  have used := newClassId_used v type
  rwa [unchanged] at used

theorem defineClass_used {v w : View κ} {type : Native κ} (used : Used v type w)
    (current : w.classId type = received v type)
    (classes : w.runtime.classArray = v.runtime.classArray) :
    Used v type (defineClass w type).1 := by
  simp only [defineClass, newClass]
  split
  · next rt defined =>
      split_ifs at defined
      cases defined
      exact ⟨used.ids, used.alloc, .inr (by rw [current, classes])⟩
  · exact used

theorem registerClass_used (v : View κ) (type : Native κ) :
    Used v type (registerClass v type).1 := by
  have same : (if v.classId type = 0 then newClassId v type else v) = newClassId v type := by
    simp only [newClassId]
    split_ifs <;> rfl
  have kept : (newClassId v type).runtime.classArray = v.runtime.classArray := by
    simp only [newClassId]
    split_ifs <;> rfl
  simp only [registerClass, same]
  split_ifs
  · exact newClassId_used v type
  · exact defineClass_used (newClassId_used v type) (newClassId_id v type) kept

theorem ensureCanCastToBase_used (v : View κ) (type : Native κ) :
    Used v type (ensureCanCastToBase v type).1 := by
  simp only [ensureCanCastToBase]
  by_cases first : v.classId type = 0
  · rw [if_pos first]
    exact newClassId_used v type
  · rw [if_neg first]
    exact used_of_set first

theorem wrapSharedPtr_used (v : View κ) (type : Native κ) :
    Used v type (wrapSharedPtr v type).1 := by
  simp only [wrapSharedPtr]
  by_cases first : v.classId type = 0
  · rw [if_pos first]
    exact registerClass_used v type
  · rw [if_neg first]
    exact used_of_set first

theorem wrapLazy_used (v : View κ) (type : Native κ) : Used v type (wrapLazy v type).1 := by
  have kept : (newClassId v type).runtime.classArray = v.runtime.classArray := by
    simp only [newClassId]
    split_ifs <;> rfl
  simp only [wrapLazy]
  split_ifs with registered
  · apply used_of_set
    intro unset
    simp [isRegisteredClass, unset] at registered
  · exact defineClass_used (newClassId_used v type) (newClassId_id v type) kept

inductive Step (s : State κ) (a : Action κ) : State κ → Prop
  | newRuntime : call a = none → Step s a { s with runtimes := s.runtimes ++ [newRuntime] }
  | use (rt : Nat) (type : Native κ) (op : View κ → Native κ → View κ × Bool)
      (runtime : Runtime κ) (w : View κ) :
      call a = some (rt, type, op) → s.runtimes[rt]? = some runtime →
      Used ⟨s.classId, runtime⟩ type w →
      Step s a { classId := w.classId, runtimes := s.runtimes.set rt w.runtime }

theorem call_used {a : Action κ} {rt : Nat} {type : Native κ}
    {op : View κ → Native κ → View κ × Bool} (called : call a = some (rt, type, op)) (v : View κ) :
    Used v type (op v type).1 := by
  cases a <;> simp only [call, Option.some.injEq, Prod.mk.injEq, reduceCtorEq] at called <;>
    obtain ⟨rfl, rfl, rfl⟩ := called
  · exact registerClass_used v _
  · exact registerClass_used v _
  · exact ensureCanCastToBase_used v _
  · exact wrapSharedPtr_used v _
  · exact wrapLazy_used v _

theorem step_some {s t : State κ} {a : Action κ} (taken : step s a = some t) : Step s a t := by
  unfold step at taken
  split at taken
  · next called =>
      cases taken
      exact .newRuntime called
  · next rt type op called =>
      obtain ⟨runtime, current, rfl⟩ := Option.map_eq_some_iff.mp taken
      exact .use rt type op runtime _ called current (call_used called _)

structure Filed (s : State κ) : Prop where
  base : ∀ rt ∈ s.runtimes, classInitCount ≤ rt.classIdAlloc
  issued : ∀ rt ∈ s.runtimes, ∀ id, classInitCount ≤ id → id < rt.classIdAlloc →
    ∃ type, s.classId type = id
  source : ∀ type, s.classId type ≠ 0 →
    classInitCount ≤ s.classId type ∧
      ∃ (i : Nat) (rt : Runtime κ), s.runtimes[i]? = some rt ∧ s.classId type < rt.classIdAlloc
  native : ∀ rt ∈ s.runtimes, ∀ id type, rt.classArray id = some (.native type) →
    s.classId type = id ∧ id ≠ 0
  builtin : ∀ rt ∈ s.runtimes, ∀ id, rt.classArray id = some .builtin → id < classInitCount

omit [DecidableEq κ] in
theorem filed_initial : Filed (initial : State κ) := by
  constructor <;> simp [initial]

omit [DecidableEq κ] in
theorem received_pos {s : State κ} (filed : Filed s) {rt : Nat} {runtime : Runtime κ}
    (current : s.runtimes[rt]? = some runtime) (type : Native κ) :
    received ⟨s.classId, runtime⟩ type ≠ 0 := by
  have base := filed.base runtime (List.mem_of_getElem? current)
  unfold received
  unfold classInitCount at base
  split_ifs with first
  · simp only
    omega
  · exact first

theorem used_id {v w : View κ} {type : Native κ} (used : Used v type w) (other : Native κ) :
    w.classId other = if other = type then received v type else v.classId other := by
  rw [used.ids, Function.update_apply]

theorem used_keeps {v w : View κ} {type other : Native κ} (used : Used v type w)
    (set : v.classId other ≠ 0) : w.classId other = v.classId other := by
  rw [used_id used]
  by_cases same : other = type
  · subst same
    simp [received, set]
  · simp [same]

section Preservation

variable {s t : State κ} {a : Action κ} {rt : Nat} {type : Native κ} {runtime : Runtime κ}
  {w : View κ}

theorem issued_preserved (filed : Filed s) (current : s.runtimes[rt]? = some runtime)
    (used : Used ⟨s.classId, runtime⟩ type w) :
    ∀ r ∈ s.runtimes.set rt w.runtime, ∀ id, classInitCount ≤ id → id < r.classIdAlloc →
      ∃ other, w.classId other = id := by
  intro r member id least below
  have old (q : Runtime κ) (known : q ∈ s.runtimes) (under : id < q.classIdAlloc) :
      ∃ other, w.classId other = id := by
    obtain ⟨other, here⟩ := filed.issued q known id least under
    have set : s.classId other ≠ 0 := by
      unfold classInitCount at least
      omega
    exact ⟨other, (used_keeps used set).trans here⟩
  rcases List.mem_or_eq_of_mem_set member with known | rfl
  · exact old r known below
  · rw [used.alloc] at below
    by_cases last : id < runtime.classIdAlloc
    · exact old runtime (List.mem_of_getElem? current) last
    · by_cases first : s.classId type = 0
      · refine ⟨type, ?_⟩
        simp only [first, if_true] at below
        simp only [used_id used, if_true, received, first]
        omega
      · simp only [first, if_false] at below
        omega

theorem source_preserved (filed : Filed s) (current : s.runtimes[rt]? = some runtime)
    (used : Used ⟨s.classId, runtime⟩ type w) (other : Native κ) (set : w.classId other ≠ 0) :
    classInitCount ≤ w.classId other ∧
      ∃ (i : Nat) (r : Runtime κ), (s.runtimes.set rt w.runtime)[i]? = some r ∧
        w.classId other < r.classIdAlloc := by
  have grown : runtime.classIdAlloc ≤ w.runtime.classIdAlloc := by
    rw [used.alloc]
    exact Nat.le_add_right _ _
  by_cases old : s.classId other = 0
  · have same : other = type := by
      by_contra different
      rw [used_id used, if_neg different] at set
      exact set old
    subst same
    have fresh : w.classId other = runtime.classIdAlloc := by
      simp [used_id used, received, old]
    have counted := used.alloc
    simp only [old, if_true] at counted
    refine ⟨?_, rt, w.runtime, by rw [getElem?_set_of_some current, if_pos rfl], by omega⟩
    rw [fresh]
    exact filed.base runtime (List.mem_of_getElem? current)
  · rw [used_keeps used old]
    obtain ⟨least, i, r, here, below⟩ := filed.source other old
    refine ⟨least, i, ?_⟩
    rw [getElem?_set_of_some current]
    by_cases same : i = rt
    · subst same
      rw [current] at here
      cases here
      exact ⟨w.runtime, if_pos rfl, lt_of_lt_of_le below grown⟩
    · exact ⟨r, by rw [if_neg same, here], below⟩

theorem native_preserved (filed : Filed s) (current : s.runtimes[rt]? = some runtime)
    (used : Used ⟨s.classId, runtime⟩ type w) :
    ∀ r ∈ s.runtimes.set rt w.runtime, ∀ id other, r.classArray id = some (.native other) →
      w.classId other = id ∧ id ≠ 0 := by
  intro r member id other registered
  have old (q : Runtime κ) (known : q ∈ s.runtimes)
      (here : q.classArray id = some (.native other)) : w.classId other = id ∧ id ≠ 0 := by
    obtain ⟨same, set⟩ := filed.native q known id other here
    have held : s.classId other ≠ 0 := same ▸ set
    exact ⟨(used_keeps used held).trans same, set⟩
  have known := List.mem_of_getElem? current
  rcases List.mem_or_eq_of_mem_set member with kept | rfl
  · exact old r kept registered
  · rcases used.classes with same | updated
    · exact old runtime known (same ▸ registered)
    · rw [updated, Function.update_apply] at registered
      by_cases here : id = received ⟨s.classId, runtime⟩ type
      · simp only [here, if_true, Option.some.injEq, ClassDef.native.injEq] at registered
        subst registered
        rw [here]
        exact ⟨by rw [used_id used, if_pos rfl], received_pos filed current type⟩
      · simp only [here, if_false] at registered
        exact old runtime known registered

theorem builtin_preserved (filed : Filed s) (current : s.runtimes[rt]? = some runtime)
    (used : Used ⟨s.classId, runtime⟩ type w) :
    ∀ r ∈ s.runtimes.set rt w.runtime, ∀ id, r.classArray id = some .builtin →
      id < classInitCount := by
  intro r member id registered
  have known := List.mem_of_getElem? current
  rcases List.mem_or_eq_of_mem_set member with kept | rfl
  · exact filed.builtin r kept id registered
  · rcases used.classes with same | updated
    · exact filed.builtin runtime known id (same ▸ registered)
    · rw [updated, Function.update_apply] at registered
      by_cases here : id = received ⟨s.classId, runtime⟩ type
      · simp [here] at registered
      · simp only [here, if_false] at registered
        exact filed.builtin runtime known id registered

omit [DecidableEq κ] in
theorem filed_newRuntime (filed : Filed s) :
    Filed { s with runtimes := s.runtimes ++ [newRuntime] } where
  base := by
    intro r member
    rcases List.mem_append.mp member with old | new
    · exact filed.base r old
    · rw [List.mem_singleton.mp new]
      exact le_refl classInitCount
  issued := by
    intro r member id least below
    rcases List.mem_append.mp member with old | new
    · exact filed.issued r old id least below
    · rw [List.mem_singleton.mp new] at below
      exact absurd below (Nat.not_lt.mpr least)
  source := by
    intro type set
    obtain ⟨least, i, r, here, below⟩ := filed.source type set
    have inside := (List.getElem?_eq_some_iff.mp here).1
    exact ⟨least, i, r, by rw [List.getElem?_append_left inside, here], below⟩
  native := by
    intro r member id type registered
    rcases List.mem_append.mp member with old | new
    · exact filed.native r old id type registered
    · rw [List.mem_singleton.mp new] at registered
      simp [newRuntime] at registered
  builtin := by
    intro r member id registered
    rcases List.mem_append.mp member with old | new
    · exact filed.builtin r old id registered
    · rw [List.mem_singleton.mp new] at registered
      simp only [newRuntime] at registered
      split_ifs at registered with range
      exact range.2

theorem filed_preserved (taken : Step s a t) (filed : Filed s) : Filed t := by
  cases taken with
  | newRuntime _ => exact filed_newRuntime filed
  | use rt type op runtime w _ current used =>
      refine ⟨?_, issued_preserved filed current used, source_preserved filed current used,
        native_preserved filed current used, builtin_preserved filed current used⟩
      intro r member
      rcases List.mem_or_eq_of_mem_set member with old | rfl
      · exact filed.base r old
      · rw [used.alloc]
        exact (filed.base runtime (List.mem_of_getElem? current)).trans (Nat.le_add_right _ _)

end Preservation

def Distinct (s : State κ) : Prop :=
  ∀ one other, s.classId one ≠ 0 → s.classId one = s.classId other → one = other

def clashes (s : State κ) (a : Action κ) : Bool :=
  match call a with
  | none => false
  | some (rt, type, _) =>
      (s.runtimes[rt]?).any fun runtime =>
        match runtime.classArray (received ⟨s.classId, runtime⟩ type) with
        | none => false
        | some registered => registered != .native type

def allocatesBeside (s : State κ) (a : Action κ) : Bool :=
  match call a with
  | none => false
  | some (rt, type, _) =>
      s.classId type == 0 &&
        (s.runtimes.eraseIdx rt).any fun runtime => runtime.classIdAlloc != classInitCount

def OneSource (s : State κ) : Prop :=
  ∀ (i j : Nat) (one other : Runtime κ), s.runtimes[i]? = some one → s.runtimes[j]? = some other →
    one.classIdAlloc ≠ classInitCount → other.classIdAlloc ≠ classInitCount → i = j

theorem others_untouched {s : State κ} {a : Action κ} {rt : Nat} {type : Native κ}
    {op : View κ → Native κ → View κ × Bool} (called : call a = some (rt, type, op))
    (allowed : allocatesBeside s a = false) (first : s.classId type = 0) {i : Nat}
    {other : Runtime κ} (here : s.runtimes[i]? = some other) (different : i ≠ rt) :
    other.classIdAlloc = classInitCount := by
  simp only [allocatesBeside, called, first, beq_self_eq_true, Bool.true_and,
    List.any_eq_false] at allowed
  have untouched := allowed other (List.mem_eraseIdx_iff_getElem?.mpr ⟨i, different, here⟩)
  simpa using untouched

theorem below_alloc {s : State κ} {a : Action κ} {rt : Nat} {type : Native κ}
    {op : View κ → Native κ → View κ × Bool} (filed : Filed s)
    (called : call a = some (rt, type, op)) (allowed : allocatesBeside s a = false)
    (first : s.classId type = 0) {runtime : Runtime κ} (current : s.runtimes[rt]? = some runtime)
    {other : Native κ} (set : s.classId other ≠ 0) : s.classId other < runtime.classIdAlloc := by
  obtain ⟨least, i, r, here, below⟩ := filed.source other set
  by_cases same : i = rt
  · subst same
    rw [current] at here
    cases here
    exact below
  · have untouched := others_untouched called allowed first here same
    omega

theorem distinct_preserved {s t : State κ} {a : Action κ} (taken : Step s a t) (filed : Filed s)
    (allowed : allocatesBeside s a = false) (distinct : Distinct s) : Distinct t := by
  cases taken with
  | newRuntime _ => exact distinct
  | use rt type op runtime w called current used =>
      by_cases first : s.classId type = 0
      · have fresh {other : Native κ} (set : s.classId other ≠ 0) :
            s.classId other ≠ runtime.classIdAlloc :=
          Nat.ne_of_lt (below_alloc filed called allowed first current set)
        intro one other set same
        simp only [used_id used, received, first, if_true] at set same
        split_ifs at set same with isOne isOther isOther
        · rw [isOne, isOther]
        · exact absurd same.symm (fresh (same ▸ set))
        · exact absurd same (fresh set)
        · exact distinct one other set same
      · have unchanged : w.classId = s.classId := by
          rw [used.ids]
          simp [received, first]
        intro one other set same
        simp only [unchanged] at set same
        exact distinct one other set same

omit [DecidableEq κ] in
theorem received_least {s : State κ} (filed : Filed s) {rt : Nat} {runtime : Runtime κ}
    (current : s.runtimes[rt]? = some runtime) (type : Native κ) :
    classInitCount ≤ received ⟨s.classId, runtime⟩ type := by
  simp only [received]
  split_ifs with first
  · exact filed.base runtime (List.mem_of_getElem? current)
  · exact (filed.source type first).1

theorem not_clashes_of_distinct {s : State κ} {a : Action κ} (filed : Filed s)
    (allowed : allocatesBeside s a = false) (distinct : Distinct s) : clashes s a = false := by
  simp only [clashes]
  split
  · rfl
  · next rt type op called =>
      cases current : s.runtimes[rt]? with
      | none => rfl
      | some runtime =>
          have known := List.mem_of_getElem? current
          simp only [Option.any_some]
          split
          · rfl
          · next registered here =>
              cases registered with
              | builtin =>
                  have low := filed.builtin runtime known _ here
                  have least := received_least filed current type
                  omega
              | native other =>
                  obtain ⟨same, set⟩ := filed.native runtime known _ other here
                  by_cases first : s.classId type = 0
                  · have beside : s.classId other ≠ 0 := by rw [same]; exact set
                    have below := below_alloc filed called allowed first current beside
                    simp only [same, received, first, if_true] at below
                    omega
                  · simp only [received, first, if_false] at same
                    have equal := distinct type other first same.symm
                    simp [equal]

omit [DecidableEq κ] in
theorem oneSource_newRuntime {s : State κ} (single : OneSource s) :
    OneSource { s with runtimes := s.runtimes ++ [newRuntime] } := by
  have old {i : Nat} {r : Runtime κ} (here : (s.runtimes ++ [newRuntime])[i]? = some r)
      (moved : r.classIdAlloc ≠ classInitCount) : s.runtimes[i]? = some r := by
    rw [List.getElem?_append] at here
    split_ifs at here with inside
    · exact here
    · have new := List.mem_singleton.mp (List.mem_of_getElem? here)
      rw [new] at moved
      exact absurd rfl moved
  intro i j one other first second movedOne movedOther
  exact single i j one other (old first movedOne) (old second movedOther) movedOne movedOther

theorem oneSource_preserved {s t : State κ} {a : Action κ} (taken : Step s a t)
    (allowed : allocatesBeside s a = false) (single : OneSource s) : OneSource t := by
  cases taken with
  | newRuntime _ => exact oneSource_newRuntime single
  | use rt type op runtime w called current used =>
      intro i j one other here there movedOne movedOther
      simp only [getElem?_set_of_some current] at here there
      by_cases first : s.classId type = 0
      · have home {k : Nat} {r : Runtime κ}
            (found : (if k = rt then some w.runtime else s.runtimes[k]?) = some r)
            (moved : r.classIdAlloc ≠ classInitCount) : k = rt := by
          by_contra different
          rw [if_neg different] at found
          exact moved (others_untouched called allowed first found different)
        rw [home here movedOne, home there movedOther]
      · have kept : w.runtime.classIdAlloc = runtime.classIdAlloc := by
          simp [used.alloc, first]
        have before {k : Nat} {r : Runtime κ}
            (found : (if k = rt then some w.runtime else s.runtimes[k]?) = some r) :
            ∃ q, s.runtimes[k]? = some q ∧ q.classIdAlloc = r.classIdAlloc := by
          split_ifs at found with same
          · cases found
            exact ⟨runtime, by rw [same, current], kept.symm⟩
          · exact ⟨r, found, rfl⟩
        obtain ⟨p, atOne, allocOne⟩ := before here
        obtain ⟨q, atOther, allocOther⟩ := before there
        exact single i j p q atOne atOther (allocOne ▸ movedOne) (allocOther ▸ movedOther)

theorem allowed_of_distinct {s t : State κ} {a : Action κ} (taken : Step s a t) (filed : Filed s)
    (single : OneSource s) (distinct : Distinct t) : allocatesBeside s a = false := by
  cases taken with
  | newRuntime called => simp [allocatesBeside, called]
  | use rt type op runtime w called current used =>
      by_contra beside
      simp only [allocatesBeside, called, Bool.not_eq_false, Bool.and_eq_true, beq_iff_eq,
        List.any_eq_true, bne_iff_ne] at beside
      obtain ⟨first, other, member, moved⟩ := beside
      obtain ⟨i, different, here⟩ := List.mem_eraseIdx_iff_getElem?.mp member
      have known := List.mem_of_getElem? here
      have start : runtime.classIdAlloc = classInitCount := by
        by_contra also
        exact different (single i rt other runtime here current moved also)
      have least := filed.base other known
      obtain ⟨holder, held⟩ := filed.issued other known classInitCount (le_refl _) (by omega)
      have set : s.classId holder ≠ 0 := by
        unfold classInitCount at held
        omega
      have kept : w.classId holder = classInitCount := (used_keeps used set).trans held
      have taken : w.classId type = classInitCount := by
        simp [used_id used, received, first, start]
      have same := distinct holder type (by simp only [kept]; exact held ▸ set)
        (by simp only [kept, taken])
      rw [same] at set
      exact set first

structure Separated (s : State κ) : Prop where
  filed : Filed s
  single : OneSource s
  distinct : Distinct s

omit [DecidableEq κ] in
theorem separated_initial : Separated (initial : State κ) where
  filed := filed_initial
  single := by simp [OneSource, initial]
  distinct := by simp [Distinct, initial]

theorem separated_preserved {s t : State κ} {a : Action κ} (taken : Step s a t)
    (allowed : allocatesBeside s a = false) (separated : Separated s) : Separated t where
  filed := filed_preserved taken separated.filed
  single := oneSource_preserved taken allowed separated.single
  distinct := distinct_preserved taken separated.filed allowed separated.distinct

/-- Two types never share a class id, and no use of a type meets the class of another, if and only
if all ids of the run are handed out by one runtime. -/
theorem class_ids_separated_iff {history : List (State κ × Action κ)} {s : State κ}
    (run : Run (system κ) history s) :
    ((Distinct s ∧ ∀ entry ∈ history, Distinct entry.1) ∧
        ∀ entry ∈ history, clashes entry.1 entry.2 = false) ↔
      ∀ entry ∈ history, allocatesBeside entry.1 entry.2 = false := by
  have first : ∀ s : State κ, (system κ).init s → Separated s := by
    rintro _ rfl
    exact separated_initial
  have preserved : ∀ (s : State κ) (a : Action κ) (t : State κ), Separated s →
      allocatesBeside s a = false → (system κ).step s a = some t → Separated t :=
    fun s a t separated allowed taken => separated_preserved (step_some taken) allowed separated
  have ids := run.always_iff (fun s a => allocatesBeside s a = false) Distinct Separated first
    (fun s separated => separated.distinct) preserved
    (fun s a t separated beside taken distinct => beside
      (allowed_of_distinct (step_some taken) separated.filed separated.single distinct))
  constructor
  · exact fun separated => ids.mp separated.1
  · intro allowed
    have holds := run.always_invariant _ Separated first preserved allowed
    refine ⟨ids.mpr allowed, fun entry member => ?_⟩
    have before := holds.2 entry member
    exact not_clashes_of_distinct before.filed (allowed entry member) before.distinct

theorem class_ids_separated_after_reset :
    ∃ (history : List (State Nat × Action Nat)) (s : State Nat),
      Run (system Nat) history s ∧ s.runtimes.length = 2 ∧ s.classId (.lazy 0) ≠ 0 ∧
        Distinct s ∧ ∀ entry ∈ history, clashes entry.1 entry.2 = false := by
  obtain ⟨history, s, run, checked⟩ := (system Nat).exists_run rfl
    [.newRuntime, .newContext 0, .registerClass 0 0, .wrapLazy 0 0, .newRuntime, .newContext 1,
      .registerClass 1 0, .wrapLazy 1 0]
    (fun history s => s.runtimes.length == 2 && s.classId (.lazy 0) != 0 &&
      history.all fun entry => !allocatesBeside entry.1 entry.2) (by decide +kernel)
  simp only [Bool.and_eq_true, beq_iff_eq, bne_iff_ne, List.all_eq_true,
    Bool.not_eq_true'] at checked
  have separated := (class_ids_separated_iff run).mpr checked.2
  exact ⟨history, s, run, checked.1.1, checked.1.2, separated.1.1, separated.2⟩

theorem class_id_shared_after_reset :
    ∃ (history : List (State Nat × Action Nat)) (s : State Nat),
      Run (system Nat) history s ∧ s.classId .function ≠ 0 ∧
        s.classId .function = s.classId (.lazy 0) ∧
        ∃ entry ∈ history, clashes entry.1 entry.2 = true := by
  obtain ⟨history, s, run, checked⟩ := (system Nat).exists_run rfl
    [.newRuntime, .newContext 0, .newRuntime, .newContext 1, .wrapLazy 1 0]
    (fun history s => s.classId .function != 0 && s.classId .function == s.classId (.lazy 0) &&
      history.any fun entry => clashes entry.1 entry.2) (by decide +kernel)
  simp only [Bool.and_eq_true, beq_iff_eq, bne_iff_ne, List.any_eq_true] at checked
  exact ⟨history, s, run, checked.1.1, checked.1.2, checked.2⟩

end BreezeJs.ClassId
