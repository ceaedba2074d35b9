import Mathlib.Logic.Function.Basic
import BreezeJs.Binding.Atom

set_option autoImplicit false

namespace BreezeJs.ModuleExports

open Infra Binding

inductive JsValue where
  | undefined
  | object (ref : Nat)
  | other (n : Nat)
deriving DecidableEq, Repr

-- Accessors and whatever else is not simply a value are `special`.
inductive Property where
  | data (value : JsValue) (writable : Bool)
  | special
deriving DecidableEq, Repr

structure ArrayLength where
  len : Nat
  writable : Bool
deriving DecidableEq, Repr

-- `exotic` has the names that the class of the object treats in its own way, `length` what an
-- array has. Its elements are among `own`.
@[ext] structure Object where
  own : Atom → Option Property
  exotic : Atom → Bool
  length : Option ArrayLength
  prototypes : List Nat
  extensible : Bool

structure State where
  atoms : AtomTable
  heap : List Object

structure Engine where
  objectPrototype : Nat
  getOther : State → JsValue → Atom → JsValue × State
  setOther : State → JsValue → Atom → JsValue → State

def lookup (heap : List Object) (prop : Atom) : List Nat → Option JsValue
  | [] => some .undefined
  | r :: chain =>
      match heap[r]? with
      | none => none
      | some obj =>
          match obj.own prop with
          | some (.data value _) => some value
          | some .special => none
          | none => if obj.exotic prop then none else lookup heap prop chain

def readable (heap : List Object) (obj : Object) (prop : Atom) : Option JsValue :=
  match obj.own prop with
  | some (.data value _) => some value
  | some .special => none
  | none => if obj.exotic prop then none else lookup heap prop obj.prototypes

-- Whether the prototypes let an object have a property of that name. The search goes on behind
-- a writable one.
def admits (heap : List Object) (prop : Atom) : List Nat → Option Bool
  | [] => some true
  | r :: chain =>
      match heap[r]? with
      | none => none
      | some obj =>
          match obj.own prop with
          | some .special => none
          | some (.data _ false) => some false
          | some (.data _ true) =>
              if obj.exotic prop then none
              -- A fast array ends the search at its element, any other array goes on.
              else if obj.length.isSome && prop.arrayIndex.isSome then
                (admits heap prop chain).filter id
              else admits heap prop chain
          | none => if obj.exotic prop then none else admits heap prop chain

def Object.reaches (obj : Object) (prop : Atom) : Bool :=
  match obj.length, prop.arrayIndex with
  | some length, some i => decide (i < length.len) || length.writable
  | _, _ => true

def settable (heap : List Object) (obj : Object) (prop : Atom) : Option Bool :=
  match obj.own prop with
  | some (.data _ writable) => some writable
  | some .special => none
  | none =>
      if obj.exotic prop then none
      else
        (admits heap prop obj.prototypes).map fun open' =>
          open' && obj.extensible && obj.reaches prop

def ArrayLength.cover (length : ArrayLength) (i : Nat) : ArrayLength :=
  { length with len := max length.len (i + 1) }

def Object.write (obj : Object) (prop : Atom) (value : JsValue) : Object :=
  { obj with
    own := Function.update obj.own prop (some (.data value true))
    length :=
      match obj.own prop, prop.arrayIndex with
      | none, some i => obj.length.map fun length => length.cover i
      | _, _ => obj.length }

def newObject (engine : Engine) : Object where
  own := fun _ => none
  exotic := fun _ => false
  length := none
  prototypes := [engine.objectPrototype]
  extensible := true

def State.alloc (engine : Engine) (s : State) : JsValue × State :=
  (.object s.heap.length, { s with heap := s.heap ++ [newObject engine] })

def getProperty (engine : Engine) (s : State) (thisObj : JsValue) (prop : Atom) :
    JsValue × State :=
  let found :=
    match thisObj with
    | .object r => s.heap[r]?.bind fun obj => readable s.heap obj prop
    | _ => none
  match found with
  | some value => (value, s)
  | none => engine.getOther s thisObj prop

def setProperty (engine : Engine) (s : State) (thisObj : JsValue) (prop : Atom) (value : JsValue) :
    State :=
  match thisObj with
  | .object r =>
      match s.heap[r]? with
      | none => engine.setOther s thisObj prop value
      | some obj =>
          match settable s.heap obj prop with
          | some true => { s with heap := s.heap.set r (obj.write prop value) }
          | some false => s
          | none => engine.setOther s thisObj prop value
  | _ => engine.setOther s thisObj prop value

def getPropertyStr (engine : Engine) (s : State) (thisObj : JsValue) (name : Bytes) :
    JsValue × State :=
  let (prop, atoms) := newAtomLen s.atoms (cString name)
  getProperty engine { s with atoms := atoms } thisObj prop

def setPropertyStr (engine : Engine) (s : State) (thisObj : JsValue) (name : Bytes)
    (value : JsValue) : State :=
  let (prop, atoms) := newAtomLen s.atoms (cString name)
  setProperty engine { s with atoms := atoms } thisObj prop value

def atomOf (units : List UInt16) : Atom :=
  match (isNumString units).filter (· ≤ 2 ^ 31 - 1) with
  | some n => .int n
  | none => .string units

def nameOf (key : Bytes) : Atom :=
  atomOf (newStringLen key).units

-- No atom that there is or comes from `names` has the bytes of the key for its characters.
def Legible (table : AtomTable) (names : List Bytes) (key : Bytes) : Prop :=
  isAscii key ∨ startsWithDigit key = true ∨ ⟨latin1 key, false⟩ ∉ table ∧
    ((∃ other ∈ names, newStringLen other = ⟨latin1 key, false⟩) →
      ∃ q ∈ table, q.units = latin1 key)

structure Interned (table : AtomTable) (names : List Bytes) (later : AtomTable) : Prop where
  kept : ∀ p ∈ table, p ∈ later
  source : ∀ p ∈ later, p ∈ table ∨
    (∃ key ∈ names, newStringLen key = p) ∧ ∀ q ∈ table, q.units ≠ p.units

def Clean (table : AtomTable) (names : List Bytes) : Prop :=
  ∀ key ∈ names, 0 ∉ key ∧ Legible table names key

section Names

variable {table later : AtomTable} {names : List Bytes} {key : Bytes}

theorem newAtomLen_nameOf (read : ¬ Mistaken table key) :
    (newAtomLen table key).1 = nameOf key := by
  have string {p : JsString} : (newAtomStr table p).1 = atomOf p.units := by
    rw [newAtomStr, atomOf]
    cases (isNumString p.units).filter (· ≤ 2 ^ 31 - 1) <;> rfl
  by_cases ascii : isAscii key
  · rw [newAtomLen]
    split_ifs with digit
    · exact string
    · rw [findAtom]
      split
      · next atom found =>
          rw [Option.ite_none_right_eq_some, Option.some.injEq] at found
          have plain : startsWithDigit key = false := by simpa using digit
          rw [nameOf, newStringLen_ascii ascii, atomOf, isNumString_latin1 plain, ← found.2]
          rfl
      · exact string
  · rw [newAtomLen_read read ascii]
    exact string

theorem Interned.refl (table : AtomTable) (names : List Bytes) : Interned table names table where
  kept _ member := member
  source _ member := .inl member

theorem Interned.read (interned : Interned table names later) (legible : Legible table names key) :
    ¬ Mistaken later key := by
  rintro ⟨other, plain, found⟩
  rcases legible with ascii | digit | ⟨absent, twin⟩
  · exact other ascii
  · rw [plain] at digit
    cases digit
  · rcases interned.source _ found with old | ⟨source, fresh⟩
    · exact absent old
    · obtain ⟨q, old, units⟩ := twin source
      exact fresh q old units

theorem Interned.newAtomLen (interned : Interned table names later) (listed : key ∈ names) :
    Interned table names (newAtomLen later key).2 where
  kept p member := newAtomLen_keeps key (interned.kept p member)
  source p member := by
    rcases mem_newAtomLen member with earlier | ⟨same, fresh⟩
    · exact interned.source p earlier
    · exact .inr ⟨⟨key, listed, same.symm⟩, fun q old => fresh q (interned.kept q old)⟩

theorem Interned.named (interned : Interned table names later) (clean : Clean table names)
    (listed : key ∈ names) :
    ∃ atoms, Binding.newAtomLen later (cString key) = (nameOf key, atoms) ∧
      Interned table names atoms := by
  obtain ⟨whole, legible⟩ := clean key listed
  rw [cString_whole whole]
  exact ⟨_, Prod.ext (newAtomLen_nameOf (interned.read legible)) rfl, interned.newAtomLen listed⟩

theorem clean_of_ascii
    (ascii : (names.all fun key => key.all fun c => c != 0 && decide (c < 0x80)) = true) :
    Clean table names := by
  intro key listed
  have each := List.all_eq_true.mp (List.all_eq_true.mp ascii key listed)
  constructor
  · intro zero
    exact absurd (each 0 zero) (by decide)
  · refine .inl fun c member => ?_
    have low := each c member
    rw [Bool.and_eq_true] at low
    exact of_decide_eq_true low.2

end Names

section Access

variable {engine : Engine} {s : State} {heap : List Object} {r : Nat} {obj : Object} {prop : Atom}
  {value : JsValue} {chain : List Nat}

theorem getProperty_readable (here : s.heap[r]? = some obj)
    (found : readable s.heap obj prop = some value) :
    getProperty engine s (.object r) prop = (value, s) := by
  simp only [getProperty, here, Option.bind_some, found]

theorem getProperty_own {writable : Bool} (here : s.heap[r]? = some obj)
    (own : obj.own prop = some (.data value writable)) :
    getProperty engine s (.object r) prop = (value, s) :=
  getProperty_readable here (by rw [readable, own])

theorem setProperty_write (here : s.heap[r]? = some obj)
    (granted : settable s.heap obj prop = some true) :
    setProperty engine s (.object r) prop value =
      { s with heap := s.heap.set r (obj.write prop value) } := by
  simp only [setProperty, here, granted]

theorem setProperty_refused (here : s.heap[r]? = some obj) {held : JsValue}
    (own : obj.own prop = some (.data held false)) :
    setProperty engine s (.object r) prop value = s := by
  simp only [setProperty, here, settable, own]

def Object.Open (obj : Object) (prop : Atom) : Prop :=
  obj.exotic prop = false ∧ (obj.own prop = none ∨ ∃ value, obj.own prop = some (.data value true))

theorem admits_cons : admits heap prop (r :: chain) = some true ↔
    (∃ obj, heap[r]? = some obj ∧ obj.Open prop) ∧ admits heap prop chain = some true := by
  rw [admits]
  cases here : heap[r]? with
  | none => simp
  | some obj =>
      simp only [Option.some.injEq, exists_eq_left', Object.Open]
      cases own : obj.own prop with
      | none => simp
      | some property =>
          cases property with
          | special => simp
          | data value writable =>
              cases writable with
              | false => simp
              | true =>
                  cases obj.exotic prop <;> cases obj.length.isSome && prop.arrayIndex.isSome <;>
                    cases admits heap prop chain <;> simp

theorem admits_congr {later : List Object} (granted : admits heap prop chain = some true)
    (same : ∀ r ∈ chain, ∀ obj, heap[r]? = some obj →
      ∃ obj', later[r]? = some obj' ∧ (obj.Open prop → obj'.Open prop)) :
    admits later prop chain = some true := by
  induction chain with
  | nil => rfl
  | cons r chain ih =>
      obtain ⟨⟨obj, here, passes⟩, rest⟩ := admits_cons.mp granted
      obtain ⟨obj', here', passes'⟩ := same r List.mem_cons_self obj here
      exact admits_cons.mpr ⟨⟨obj', here', passes' passes⟩,
        ih rest fun r member => same r (List.mem_cons_of_mem _ member)⟩

theorem settable_own (own : obj.own prop = some (.data value true)) :
    settable heap obj prop = some true := by
  rw [settable, own]

theorem settable_new (own : obj.own prop = none) (exotic : obj.exotic prop = false)
    (granted : admits heap prop obj.prototypes = some true) (extensible : obj.extensible = true)
    (reaches : obj.reaches prop = true) : settable heap obj prop = some true := by
  simp [settable, own, exotic, granted, extensible, reaches]

theorem settable_cases (granted : settable heap obj prop = some true) :
    (∃ value, obj.own prop = some (.data value true)) ∨ obj.own prop = none ∧
      obj.exotic prop = false ∧ admits heap prop obj.prototypes = some true ∧
      obj.extensible = true ∧ obj.reaches prop = true := by
  rw [settable] at granted
  split at granted
  · next value writable own =>
      cases granted
      exact .inl ⟨value, own⟩
  · cases granted
  · next own =>
      rw [Option.ite_none_left_eq_some, Option.map_eq_some_iff] at granted
      obtain ⟨plain, admitted, passes, both⟩ := granted
      rw [Bool.and_eq_true, Bool.and_eq_true] at both
      obtain ⟨⟨rfl, extensible⟩, reaches⟩ := both
      exact .inr ⟨own, eq_false_of_ne_true plain, passes, extensible, reaches⟩

end Access

end BreezeJs.ModuleExports
