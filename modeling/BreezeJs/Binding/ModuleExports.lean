import Mathlib.Logic.Equiv.Defs
import BreezeJs.Binding.PropertyHeap
import BreezeJs.Library.Prefixes

set_option autoImplicit false

namespace BreezeJs.ModuleExports

open Infra Binding Prefixes

abbrev Export := Bytes × JsValue

structure Module where
  exports : List Export
  -- `export_entries` of the module definition.
  entries : List (Atom × JsValue)

-- `name.substr(0, name.find("::"))`
def beforeColons : Bytes → Bytes
  | [] => []
  | [c] => [c]
  | c :: d :: rest => if c = 58 ∧ d = 58 then [] else c :: beforeColons (d :: rest)

-- `std::views::split` of a text that is not empty.
def pieces : Bytes → List Bytes
  | [] => [[]]
  | [c] => [[c]]
  | c :: d :: rest =>
      if c = 58 ∧ d = 58 then [] :: pieces rest
      else
        match pieces (d :: rest) with
        | [] => [[c]]
        | first :: later => (c :: first) :: later

def pathOf (name : Bytes) : List Bytes :=
  if name = [] then [] else pieces name

-- A name that is there already is refused.
def addModuleExport (state : State × Module) (exportName : Bytes) : State × Module :=
  let (prop, atoms) := newAtomLen state.1.atoms (cString exportName)
  ({ state.1 with atoms := atoms },
    if state.2.entries.any fun entry => entry.1 == prop then state.2
    else { state.2 with entries := state.2.entries ++ [(prop, .undefined)] })

def add (state : State × Module) (e : Export) : State × Module :=
  addModuleExport (state.1, { state.2 with exports := state.2.exports ++ [e] }) (beforeColons e.1)

def setModuleExport (state : State × Module) (exportName : Bytes) (value : JsValue) :
    State × Module :=
  let (prop, atoms) := newAtomLen state.1.atoms (cString exportName)
  ({ state.1 with atoms := atoms },
    { state.2 with
      entries := state.2.entries.map fun entry =>
        if entry.1 = prop then (prop, value) else entry })

def setKeyRecursive (engine : Engine) (s : State) (obj : JsValue) : List Bytes → JsValue → State
  | [], _ => s
  | [key], value => setPropertyStr engine s obj key value
  | key :: next :: rest, value =>
      let (subObj, s) := getPropertyStr engine s obj key
      if subObj = .undefined then
        let (subObj, s) := s.alloc engine
        let s := setPropertyStr engine s obj key subObj
        setKeyRecursive engine s subObj (next :: rest) value
      else setKeyRecursive engine s subObj (next :: rest) value

def initExport (engine : Engine) (exportObj : JsValue) (state : State × Module) (e : Export) :
    State × Module :=
  match pathOf e.1 with
  | [] => state
  | first :: rest =>
      let s := setKeyRecursive engine state.1 exportObj (first :: rest) e.2
      let (value, s) := getPropertyStr engine s exportObj first
      setModuleExport (s, state.2) first value

def initModule (engine : Engine) (state : State × Module) (sorted : List Export) :
    State × Module :=
  let (exportObj, s) := state.1.alloc engine
  sorted.foldl (initExport engine exportObj) (s, { state.2 with exports := sorted })

-- `std::ranges::sort` by the length of the names, which leaves open what comes of equal lengths.
def SortsTo (exports sorted : List Export) : Prop :=
  exports.Perm sorted ∧ sorted.Pairwise fun a b => a.1.length ≤ b.1.length

def Outcome (engine : Engine) (start : State) (exports : List Export) (final : State × Module) :
    Prop :=
  ∃ added sorted, exports.Perm added ∧
    SortsTo (added.foldl add (start, ⟨[], []⟩)).2.exports sorted ∧
    final = initModule engine (added.foldl add (start, ⟨[], []⟩)) sorted

def exportOf (final : State × Module) (exportName : Bytes) : Option JsValue :=
  final.2.entries.lookup (newAtomLen final.1.atoms (cString exportName)).1

def walk (engine : Engine) (final : State × Module) : List Bytes → Option JsValue
  | [] => none
  | first :: rest =>
      (exportOf final first).map fun value =>
        rest.foldl (fun value key => (getPropertyStr engine final.1 value key).1) value

def joined : List Bytes → Bytes
  | [] => []
  | [key] => key
  | key :: next :: rest => key ++ 58 :: 58 :: joined (next :: rest)

theorem pieces_first (name : Bytes) : ∃ rest, pieces name = beforeColons name :: rest := by
  fun_induction pieces name with
  | case1 => exact ⟨_, rfl⟩
  | case2 c => exact ⟨_, rfl⟩
  | case3 c d rest colons =>
      rw [beforeColons, if_pos colons]
      exact ⟨_, rfl⟩
  | case4 c d rest other none ih =>
      obtain ⟨_, some⟩ := ih
      rw [none] at some
      cases some
  | case5 c d rest other first later found ih =>
      obtain ⟨rest', some⟩ := ih
      rw [found, List.cons.injEq] at some
      rw [beforeColons, if_neg other, some.1]
      exact ⟨_, rfl⟩

theorem joined_pieces (name : Bytes) : joined (pieces name) = name := by
  fun_induction pieces name with
  | case1 => rfl
  | case2 c => rfl
  | case3 c d rest colons ih =>
      obtain ⟨more, split⟩ := pieces_first rest
      rw [split, joined, ← split, ih, colons.1, colons.2]
      rfl
  | case4 c d rest other none ih =>
      rw [none] at ih
      cases ih
  | case5 c d rest other first later found ih =>
      rw [found] at ih
      rw [← ih]
      cases later <;> rfl

theorem joined_append {front rest : List Bytes} (some : front ≠ []) (more : rest ≠ []) :
    joined (front ++ rest) = joined front ++ 58 :: 58 :: joined rest := by
  induction front with
  | nil => exact absurd rfl some
  | cons key front ih =>
      cases front with
      | nil =>
          obtain ⟨next, rest, rfl⟩ := List.exists_cons_of_ne_nil more
          rfl
      | cons next front =>
          have later := ih (List.cons_ne_nil _ _)
          rw [List.cons_append, List.cons_append, joined, ← List.cons_append, later, joined,
            List.append_assoc]
          rfl

section Paths

variable {name other : Bytes}

theorem pathOf_first (named : name ≠ []) : ∃ rest, pathOf name = beforeColons name :: rest := by
  rw [pathOf, if_neg named]
  exact pieces_first name

theorem joined_pathOf (name : Bytes) : joined (pathOf name) = name := by
  rw [pathOf]
  split_ifs with empty
  · exact empty.symm
  · exact joined_pieces name

theorem length_lt_of_proper {rest : List Bytes} (named : name ≠ []) (more : rest ≠ [])
    (split : pathOf other = pathOf name ++ rest) : name.length < other.length := by
  obtain ⟨_, first⟩ := pathOf_first named
  have some : pathOf name ≠ [] := first ▸ List.cons_ne_nil _ _
  rw [← joined_pathOf name, ← joined_pathOf other, split, joined_append some more,
    List.length_append, List.length_cons]
  omega

end Paths

def JsValue.rename (rename : Nat → Nat) : JsValue → JsValue
  | .object r => .object (rename r)
  | value => value

def Property.rename (rename : Nat → Nat) : Property → Property
  | .data value writable => .data (value.rename rename) writable
  | .special => .special

def Object.rename (rename : Nat → Nat) (obj : Object) : Object :=
  { obj with
    own := fun prop => (obj.own prop).map (Property.rename rename)
    prototypes := obj.prototypes.map rename }

-- Only the objects that are new have other places.
def SameTree (old : Nat) (first second : State × Module) : Prop :=
  ∃ rename : Equiv.Perm Nat, (∀ r < old, rename r = r) ∧
    (∀ r : Nat, second.1.heap[rename r]? = first.1.heap[r]?.map (Object.rename rename)) ∧
    ∀ prop, second.2.entries.lookup prop =
      (first.2.entries.lookup prop).map (JsValue.rename rename)

def Resolves (engine : Engine) (start : State) (exports : List Export) : Prop :=
  ∀ first, Outcome engine start exports first →
    (∀ e ∈ exports, walk engine first (pathOf e.1) = some e.2) ∧
    ∀ second, Outcome engine start exports second → SameTree start.heap.length first second

inductive Node where
  | value (v : JsValue)
  | made (path : List Bytes)
deriving DecidableEq, Repr

def nodeAt (exports : List Export) (path : List Bytes) : Node :=
  match exports.find? fun e => pathOf e.1 == path with
  | some e => .value e.2
  | none => .made path

def Node.object (engine : Engine) (heap : List Object) : Node → Option Object
  | .value (.object r) => heap[r]?
  | .value _ => none
  | .made _ => some (newObject engine)

def allLinks (exports : List Export) : List (Link Bytes) :=
  exports.flatMap fun e => links [] (pathOf e.1)

def target (link : Link Bytes) : List Bytes :=
  link.1 ++ [link.2]

def JsValue.Inside (size : Nat) (value : JsValue) : Prop :=
  ∀ r, value = .object r → r < size

instance (size : Nat) (value : JsValue) : Decidable (value.Inside size) :=
  match value with
  | .object r =>
      decidable_of_iff (r < size)
        ⟨fun inside _ same => JsValue.object.inj same ▸ inside, fun inside => inside r rfl⟩
  | .undefined => .isTrue fun _ same => JsValue.noConfusion same
  | .other _ => .isTrue fun _ same => JsValue.noConfusion same

structure Object.Inside (size : Nat) (obj : Object) : Prop where
  values : ∀ prop value writable, obj.own prop = some (.data value writable) → value.Inside size
  prototypes : ∀ r ∈ obj.prototypes, r < size

structure Allowed (engine : Engine) (start : State) (exports : List Export) : Prop where
  heap : ∀ obj ∈ start.heap, obj.Inside start.heap.length
  prototype : engine.objectPrototype < start.heap.length
  values : ∀ e ∈ exports, e.2.Inside start.heap.length
  named : ∀ e ∈ exports, e.1 ≠ []
  distinct : (exports.map Prod.fst).Nodup
  objects : ∀ link ∈ allLinks exports,
    ((nodeAt exports link.1).object engine start.heap).isSome

def Unconflicted (start : State) (exports : List Export) : Prop :=
  ∀ link ∈ allLinks exports, ∀ r obj, nodeAt exports link.1 = .value (.object r) →
    start.heap[r]? = some obj → obj.own (nameOf link.2) = none

def SameSlot (place : List Bytes → Node) (link other : Link Bytes) : Prop :=
  place link.1 = place other.1 ∧ nameOf link.2 = nameOf other.2

instance (place : List Bytes → Node) (link other : Link Bytes) :
    Decidable (SameSlot place link other) :=
  inferInstanceAs (Decidable (_ ∧ _))

def Shows (place : List Bytes → Node) (shown : List (Link Bytes)) (prop : Atom) (r : Nat)
    (node : Node) : Prop :=
  ∃ link ∈ shown, place link.1 = .value (.object r) ∧ nameOf link.2 = prop ∧
    place (target link) = node

-- Nothing is found along a chain of objects, with what has been shown by then.
inductive Blank (heap : List Object) (shows : Nat → Node → Prop) (prop : Atom) :
    List Nat → Prop where
  | nil : Blank heap shows prop []
  | shown {r : Nat} {chain : List Nat} (here : shows r (.value .undefined)) :
      Blank heap shows prop (r :: chain)
  | own {r : Nat} {chain : List Nat} {obj : Object} {writable : Bool}
      (untouched : ∀ node, ¬ shows r node) (here : heap[r]? = some obj)
      (own : obj.own prop = some (.data .undefined writable)) : Blank heap shows prop (r :: chain)
  | behind {r : Nat} {chain : List Nat} {obj : Object} (untouched : ∀ node, ¬ shows r node)
      (here : heap[r]? = some obj) (own : obj.own prop = none) (plain : obj.exotic prop = false)
      (rest : Blank heap shows prop chain) : Blank heap shows prop (r :: chain)

-- What is looked up at a link that has not been shown: an object that was there before, or
-- nothing where a namespace has to be made.
def Finds (start : State) (place : List Bytes → Node) (shown : List (Link Bytes))
    (link : Link Bytes) (obj : Object) : Prop :=
  match place (target link) with
  | .value v => ∃ writable, obj.own (nameOf link.2) = some (.data v writable)
  | .made _ =>
      (∃ writable, obj.own (nameOf link.2) = some (.data .undefined writable)) ∨
        obj.own (nameOf link.2) = none ∧ obj.exotic (nameOf link.2) = false ∧
          Blank start.heap (Shows place shown (nameOf link.2)) (nameOf link.2) obj.prototypes

-- The paths have places, one for each property, that every lookup leads to in every order.
structure Clear (engine : Engine) (start : State) (exports : List Export)
    (place : List Bytes → Node) : Prop where
  clean : Clean start.atoms ((allLinks exports).map Prod.snd)
  root : place [] = .made []
  exported : ∀ e ∈ exports, place (pathOf e.1) = .value e.2
  objects : ∀ link ∈ allLinks exports, ((place link.1).object engine start.heap).isSome
  same : ∀ link ∈ allLinks exports, ∀ other ∈ allLinks exports, SameSlot place link other →
    place (target link) = place (target other)
  apart : ∀ link ∈ allLinks exports, ∀ other ∈ allLinks exports, ∀ path,
    place (target link) = .made path → place (target other) = .made path →
      SameSlot place link other
  below : ∀ link ∈ allLinks exports, place (target link) ≠ .made []
  room : ∀ link ∈ allLinks exports,
    (∀ v, place (target link) = .value v → ∃ e ∈ exports, pathOf e.1 = target link) →
      ∀ obj ∈ (place link.1).object engine start.heap,
        settable start.heap obj (nameOf link.2) = some true ∨
          ∃ v, place (target link) = .value v ∧ obj.own (nameOf link.2) = some (.data v false)
  finds : ∀ done e later, SortsTo exports (done ++ e :: later) →
    ∀ front key more, pathOf e.1 = front ++ key :: more → more ≠ [] →
      (∀ e' ∈ exports, pathOf e'.1 ≠ front ++ [key]) →
        (∀ link ∈ allLinks done ++ links [] front, ¬ SameSlot place link (front, key)) →
          ∀ obj ∈ (place front).object engine start.heap,
            Finds start place (allLinks done ++ links [] front) (front, key) obj

end BreezeJs.ModuleExports
