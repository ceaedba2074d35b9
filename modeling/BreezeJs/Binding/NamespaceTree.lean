import Mathlib.Data.Option.Defs
import BreezeJs.Library.Counting
import BreezeJs.Binding.ModuleExports

set_option autoImplicit false

namespace BreezeJs.ModuleExports

open Infra Binding Prefixes

-- The objects that are made lie behind the old ones, in the order of `made`.
def Node.toValue (start : State) (made : List (List Bytes)) : Node → JsValue
  | .value v => v
  | .made path => .object (start.heap.length + made.idxOf path)

def Node.Present (made : List (List Bytes)) (node : Node) : Prop :=
  ∀ path, node = .made path → path ∈ made

section Nodes

variable {engine : Engine} {start : State} {made : List (List Bytes)} {node other : Node} {r : Nat}

theorem Node.toValue_append (present : node.Present made) (more : List (List Bytes)) :
    node.toValue start (made ++ more) = node.toValue start made := by
  cases node with
  | value v => rfl
  | made path => rw [toValue, toValue, List.idxOf_append_of_mem (present path rfl)]

theorem Node.Present.append (present : node.Present made) (more : List (List Bytes)) :
    node.Present (made ++ more) :=
  fun path here => List.mem_append_left _ (present path here)

theorem Node.old_lt (object : (node.object engine start.heap).isSome)
    (here : node = .value (.object r)) : r < start.heap.length := by
  rw [here] at object
  obtain ⟨obj, found⟩ := Option.isSome_iff_exists.mp object
  exact (List.getElem?_eq_some_iff.mp found).1

theorem Node.toValue_old (old : r < start.heap.length) :
    node.toValue start made = .object r ↔ node = .value (.object r) := by
  constructor
  · intro here
    cases node with
    | value v => exact congrArg _ here
    | made path =>
        have := JsValue.object.inj here
        omega
  · rintro rfl
    rfl

theorem Node.toValue_inj (object : (node.object engine start.heap).isSome)
    (object' : (other.object engine start.heap).isSome) (present : node.Present made)
    (first : node.toValue start made = .object r)
    (second : other.toValue start made = .object r) : node = other := by
  cases node with
  | value v =>
      cases first
      exact ((Node.toValue_old (Node.old_lt object rfl)).mp second).symm
  | made path =>
      cases other with
      | value v =>
          cases second
          exact (Node.toValue_old (Node.old_lt object' rfl)).mp first
      | made path' =>
          have places := JsValue.object.inj (first.trans second.symm)
          have same : path = path' :=
            (List.idxOf_inj (present path rfl)).mp (Nat.add_left_cancel places)
          rw [same]

end Nodes

def base (engine : Engine) (start : State) (made : List (List Bytes)) (r : Nat) : Option Object :=
  (start.heap ++ List.replicate made.length (newObject engine))[r]?

section Base

variable {engine : Engine} {start : State} {made : List (List Bytes)} {r : Nat}

theorem base_old (old : r < start.heap.length) : base engine start made r = start.heap[r]? :=
  List.getElem?_append_left old

theorem base_made (new : r < made.length) :
    base engine start made (start.heap.length + r) = some (newObject engine) := by
  rw [base, List.getElem?_append_right (Nat.le_add_right _ _), Nat.add_sub_cancel_left,
    List.getElem?_replicate, if_pos new]

theorem base_append (made : List (List Bytes)) (path : List Bytes) (r : Nat) :
    base engine start (made ++ [path]) r =
      if r = start.heap.length + made.length then some (newObject engine)
      else base engine start made r := by
  have size : (start.heap ++ List.replicate made.length (newObject engine)).length =
      start.heap.length + made.length := by simp
  rw [base, base, List.length_append, List.length_singleton, List.replicate_succ',
    ← List.append_assoc]
  split_ifs with last
  · rw [last, ← size, List.getElem?_concat_length]
  · by_cases inside : r < start.heap.length + made.length
    · exact List.getElem?_append_left (size ▸ inside)
    · rw [List.getElem?_eq_none (by simp; omega), List.getElem?_eq_none (by omega)]

theorem base_lt {obj : Object} (here : base engine start made r = some obj) :
    r < start.heap.length + made.length := by
  obtain ⟨inside, _⟩ := List.getElem?_eq_some_iff.mp here
  simpa using inside

end Base

def Object.writable (obj : Object) (prop : Atom) : Bool :=
  match obj.own prop with
  | some (.data _ writable) => writable
  | _ => true

theorem writable_of_settable {heap : List Object} {obj : Object} {prop : Atom}
    (granted : settable heap obj prop = some true) : obj.writable prop = true := by
  rcases settable_cases granted with ⟨value, own⟩ | ⟨own, _⟩ <;> rw [Object.writable, own]

structure Covers (elements : Nat → Prop) (first later : ArrayLength) : Prop where
  writable : later.writable = first.writable
  least : ∀ n, later.len ≤ n ↔ first.len ≤ n ∧ ∀ i, elements i → i < n

section Tree

variable {engine : Engine} {start s : State} {exports : List Export} {place : List Bytes → Node}
  {made : List (List Bytes)} {shown : List (Link Bytes)} {link other : Link Bytes}
  {path : List Bytes} {r : Nat}

def Starts (start : State) (place : List Bytes → Node) (made : List (List Bytes))
    (link : Link Bytes) (r : Nat) : Prop :=
  (place link.1).toValue start made = .object r

def Elements (start : State) (place : List Bytes → Node) (made : List (List Bytes))
    (shown : List (Link Bytes)) (r : Nat) (obj : Object) (i : Nat) : Prop :=
  ∃ link ∈ shown, Starts start place made link r ∧ obj.own (nameOf link.2) = none ∧
    (nameOf link.2).arrayIndex = some i

structure Overlaid (start : State) (place : List Bytes → Node) (made : List (List Bytes))
    (shown : List (Link Bytes)) (r : Nat) (obj obj' : Object) : Prop where
  exotic : obj'.exotic = obj.exotic
  prototypes : obj'.prototypes = obj.prototypes
  extensible : obj'.extensible = obj.extensible
  length : Option.Rel (Covers (Elements start place made shown r obj)) obj.length obj'.length
  slot : ∀ link ∈ shown, Starts start place made link r →
    obj'.own (nameOf link.2) =
      some (.data ((place (target link)).toValue start made) (obj.writable (nameOf link.2)))
  rest : ∀ prop, (∀ link ∈ shown, Starts start place made link r → nameOf link.2 ≠ prop) →
    obj'.own prop = obj.own prop

structure Laid (engine : Engine) (start : State) (exports : List Export)
    (place : List Bytes → Node) (made : List (List Bytes)) (shown : List (Link Bytes))
    (s : State) : Prop where
  atoms : Interned start.atoms ((allLinks exports).map Prod.snd) s.atoms
  known : ∀ link ∈ shown, link ∈ allLinks exports
  distinct : made.Nodup
  source : ∀ link ∈ shown, (place link.1).Present made
  reached : ∀ link ∈ shown, (place (target link)).Present made
  size : s.heap.length = start.heap.length + made.length
  objects : ∀ r obj, base engine start made r = some obj →
    ∃ obj', s.heap[r]? = some obj' ∧ Overlaid start place made shown r obj obj'

theorem forall_mem_concat {P : Link Bytes → Prop} (earlier : ∀ l ∈ shown, P l) (last : P link) :
    ∀ l ∈ shown ++ [link], P l := by
  intro l member
  rcases List.mem_append.mp member with before | here
  · exact earlier l before
  · exact List.mem_singleton.mp here ▸ last

theorem Covers.congr {elements elements' : Nat → Prop} {first later : ArrayLength}
    (covers : Covers elements first later) (same : ∀ i, elements i ↔ elements' i) :
    Covers elements' first later where
  writable := covers.writable
  least n := (covers.least n).trans (by simp only [same])

theorem Covers.cover {elements elements' : Nat → Prop} {first later : ArrayLength} {i : Nat}
    (covers : Covers elements first later) (next : ∀ j, elements' j ↔ elements j ∨ j = i) :
    Covers elements' first (later.cover i) where
  writable := covers.writable
  least n := by
    rw [ArrayLength.cover, Nat.max_le, covers.least n, and_assoc]
    refine and_congr_right fun _ => ?_
    constructor
    · rintro ⟨earlier, last⟩ j element
      rcases (next j).mp element with before | rfl
      · exact earlier j before
      · exact last
    · intro all
      exact ⟨fun j element => all j ((next j).mpr (.inl element)), all i ((next i).mpr (.inr rfl))⟩

theorem Covers.unique {elements : Nat → Prop} {first later later' : ArrayLength}
    (covers : Covers elements first later) (covers' : Covers elements first later') :
    later' = later := by
  obtain ⟨len, writable⟩ := later
  obtain ⟨len', writable'⟩ := later'
  have below : len' ≤ len := (covers'.least len).mpr ((covers.least len).mp (Nat.le_refl len))
  have above : len ≤ len' := (covers.least len').mpr ((covers'.least len').mp (Nat.le_refl len'))
  have flags : writable' = writable := covers'.writable.trans covers.writable.symm
  rw [Nat.le_antisymm below above, flags]

theorem rel_congr {elements elements' : Nat → Prop} {first later : Option ArrayLength}
    (rel : Option.Rel (Covers elements) first later) (same : ∀ i, elements i ↔ elements' i) :
    Option.Rel (Covers elements') first later := by
  cases rel with
  | none => exact .none
  | some covers => exact .some (covers.congr same)

theorem reaches_of_covers {elements : Nat → Prop} {obj obj' : Object} {prop : Atom}
    (covered : Option.Rel (Covers elements) obj.length obj'.length)
    (reaches : obj.reaches prop = true) : obj'.reaches prop = true := by
  rw [Object.reaches] at reaches ⊢
  generalize obj.length = first at covered reaches
  generalize obj'.length = later at covered ⊢
  cases covered with
  | none => rfl
  | @some first later covers =>
      cases index : prop.arrayIndex with
      | none => rfl
      | some i =>
          have grown := ((covers.least later.len).mp (Nat.le_refl _)).1
          simp only [index, Bool.or_eq_true, decide_eq_true_eq] at reaches ⊢
          rcases reaches with below | writable
          · exact .inl (Nat.lt_of_lt_of_le below grown)
          · exact .inr (covers.writable.trans writable)

section Overlaid

variable {obj obj' : Object}

theorem Overlaid.refl (obj : Object) : Overlaid start place made [] r obj obj where
  exotic := rfl
  prototypes := rfl
  extensible := rfl
  length := by
    cases obj.length with
    | none => exact .none
    | some length => exact .some ⟨rfl, fun n => by simp [Elements]⟩
  slot := by simp
  rest _ _ := rfl

theorem Overlaid.alloc (overlaid : Overlaid start place made shown r obj obj')
    (source : ∀ link ∈ shown, (place link.1).Present made)
    (reached : ∀ link ∈ shown, (place (target link)).Present made) (more : List (List Bytes)) :
    Overlaid start place (made ++ more) shown r obj obj' := by
  have starts {l : Link Bytes} (member : l ∈ shown) :
      Starts start place (made ++ more) l r ↔ Starts start place made l r := by
    rw [Starts, Starts, Node.toValue_append (source l member)]
  refine
    { exotic := overlaid.exotic
      prototypes := overlaid.prototypes
      extensible := overlaid.extensible
      length := rel_congr overlaid.length fun i => exists_congr fun l =>
        and_congr_right fun member => by rw [starts member]
      slot := ?_
      rest := ?_ }
  · intro l member begins
    rw [Node.toValue_append (reached l member)]
    exact overlaid.slot l member ((starts member).mp begins)
  · exact fun prop absent => overlaid.rest prop fun l member begins =>
      absent l member ((starts member).mpr begins)

theorem Overlaid.found (overlaid : Overlaid start place made shown r obj obj')
    (own : Starts start place made link r → obj'.own (nameOf link.2) =
      some (.data ((place (target link)).toValue start made) (obj.writable (nameOf link.2)))) :
    Overlaid start place made (shown ++ [link]) r obj obj' := by
  refine
    { exotic := overlaid.exotic
      prototypes := overlaid.prototypes
      extensible := overlaid.extensible
      length := rel_congr overlaid.length fun i => ⟨?_, ?_⟩
      slot := ?_
      rest := fun prop absent =>
        overlaid.rest prop fun l member => absent l (List.mem_append_left _ member) }
  · rintro ⟨l, member, element⟩
    exact ⟨l, List.mem_append_left _ member, element⟩
  · rintro ⟨l, member, begins, absent, index⟩
    rcases List.mem_append.mp member with before | last
    · exact ⟨l, before, begins, absent, index⟩
    · cases List.mem_singleton.mp last
      by_contra missing
      have same := overlaid.rest (nameOf link.2) fun l before begins' named =>
        missing ⟨l, before, begins', named ▸ absent, named ▸ index⟩
      rw [own begins, absent] at same
      cases same
  · intro l member begins
    rcases List.mem_append.mp member with before | last
    · exact overlaid.slot l before begins
    · cases List.mem_singleton.mp last
      exact own begins

theorem Overlaid.frame (overlaid : Overlaid start place made shown r obj obj')
    (elsewhere : ¬ Starts start place made link r) :
    Overlaid start place made (shown ++ [link]) r obj obj' :=
  overlaid.found fun begins => absurd begins elsewhere

theorem Overlaid.write (overlaid : Overlaid start place made shown r obj obj')
    (here : Starts start place made link r) (writable : obj.writable (nameOf link.2) = true)
    (agree : ∀ l ∈ shown, Starts start place made l r → nameOf l.2 = nameOf link.2 →
      (place (target l)).toValue start made = (place (target link)).toValue start made) :
    Overlaid start place made (shown ++ [link]) r obj
      (obj'.write (nameOf link.2) ((place (target link)).toValue start made)) where
  exotic := overlaid.exotic
  prototypes := overlaid.prototypes
  extensible := overlaid.extensible
  length := by
    -- The length grows where the property is new.
    by_cases taken : ∃ l ∈ shown, Starts start place made l r ∧ nameOf l.2 = nameOf link.2
    · obtain ⟨l, member, begins, named⟩ := taken
      have own := named ▸ overlaid.slot l member begins
      simp only [Object.write, own]
      refine rel_congr overlaid.length fun i => ⟨?_, ?_⟩
      · rintro ⟨l, member, element⟩
        exact ⟨l, List.mem_append_left _ member, element⟩
      · rintro ⟨l', member', element⟩
        rcases List.mem_append.mp member' with before | last
        · exact ⟨l', before, element⟩
        · cases List.mem_singleton.mp last
          exact ⟨l, member, begins, named ▸ element.2.1, named ▸ element.2.2⟩
    · have own := overlaid.rest (nameOf link.2) fun l member begins named =>
        taken ⟨l, member, begins, named⟩
      have elements (i : Nat) : Elements start place made (shown ++ [link]) r obj i ↔
          Elements start place made shown r obj i ∨
            obj.own (nameOf link.2) = none ∧ (nameOf link.2).arrayIndex = some i := by
        simp only [Elements, List.mem_append, List.mem_singleton, or_and_right, exists_or,
          exists_eq_left, here, true_and]
      cases old : obj.own (nameOf link.2) with
      | some property =>
          simp only [Object.write, own, old]
          exact rel_congr overlaid.length fun i => by rw [elements, old]; simp
      | none =>
          cases index : (nameOf link.2).arrayIndex with
          | none =>
              simp only [Object.write, own, old, index]
              exact rel_congr overlaid.length fun i => by rw [elements, index]; simp
          | some i =>
              simp only [Object.write, own, old, index]
              have before := overlaid.length
              revert before
              cases obj.length <;> cases obj'.length <;> intro before
              · exact .none
              · cases before
              · cases before
              · cases before with
                | some covers =>
                    exact .some (covers.cover fun j => by
                      rw [elements, old, index, Option.some.injEq, eq_comm (a := i)]
                      simp)
  slot l member begins := by
    by_cases named : nameOf l.2 = nameOf link.2
    · have value : (place (target l)).toValue start made =
          (place (target link)).toValue start made := by
        rcases List.mem_append.mp member with before | last
        · exact agree l before begins named
        · rw [List.mem_singleton.mp last]
      rw [named, value, writable]
      exact Function.update_self ..
    · have before : l ∈ shown := by
        rcases List.mem_append.mp member with before | last
        · exact before
        · exact absurd (List.mem_singleton.mp last ▸ rfl) named
      exact (Function.update_of_ne named ..).trans (overlaid.slot l before begins)
  rest prop absent := by
    have apart := absent link (List.mem_append_right _ (List.mem_singleton_self link)) here
    refine (Function.update_of_ne (Ne.symm apart) ..).trans ?_
    exact overlaid.rest prop fun l member => absent l (List.mem_append_left _ member)

end Overlaid

section Heap

variable (allowed : Allowed engine start exports) (clear : Clear engine start exports place)

include allowed clear

theorem holder (known : link ∈ allLinks exports) (present : (place link.1).Present made) :
    ∃ r obj, Starts start place made link r ∧ base engine start made r = some obj ∧
      (place link.1).object engine start.heap = some obj ∧
      ∀ r' ∈ obj.prototypes, r' < start.heap.length := by
  obtain ⟨obj, here⟩ := Option.isSome_iff_exists.mp (clear.objects link known)
  cases node : place link.1 with
  | value v =>
      rw [node] at here
      cases v with
      | object r =>
          have found : start.heap[r]? = some obj := here
          obtain ⟨inside, _⟩ := List.getElem?_eq_some_iff.mp found
          refine ⟨r, obj, ?_, (base_old inside).trans found, here,
            (allowed.heap obj (List.mem_of_getElem? found)).prototypes⟩
          rw [Starts, node, Node.toValue]
      | undefined => cases here
      | other n => cases here
  | made path =>
      rw [node] at here
      cases here
      refine ⟨_, _, ?_, base_made (List.idxOf_lt_length_iff.mpr (present path node)), rfl, ?_⟩
      · rw [Starts, node, Node.toValue]
      · intro r' member
        cases List.mem_singleton.mp member
        exact allowed.prototype

omit allowed in
theorem place_eq (known : link ∈ allLinks exports) (known' : other ∈ allLinks exports)
    (present : (place link.1).Present made) (first : Starts start place made link r)
    (second : Starts start place made other r) : place link.1 = place other.1 :=
  Node.toValue_inj (clear.objects link known) (clear.objects other known') present first second

omit allowed in
theorem agree (laid : Laid engine start exports place made shown s)
    (known : link ∈ allLinks exports) (here : Starts start place made link r)
    (member : other ∈ shown) (there : Starts start place made other r)
    (named : nameOf other.2 = nameOf link.2) : SameSlot place other link ∧
      place (target other) = place (target link) := by
  have slot : SameSlot place other link :=
    ⟨place_eq clear (laid.known other member) known (laid.source other member) there here, named⟩
  exact ⟨slot, clear.same other (laid.known other member) link known slot⟩

theorem Laid.alloc (laid : Laid engine start exports place made shown s) (fresh : path ∉ made) :
    Laid engine start exports place (made ++ [path]) shown (s.alloc engine).2 ∧
      (s.alloc engine).1 = (Node.made path).toValue start (made ++ [path]) := by
  have size := laid.size
  constructor
  · refine
      { laid with
        distinct := ?_
        source := fun l member => (laid.source l member).append _
        reached := fun l member => (laid.reached l member).append _
        size := ?_
        objects := ?_ }
    · exact List.nodup_append.mpr ⟨laid.distinct, List.nodup_singleton path, by
        rintro p member q last rfl
        exact fresh (List.mem_singleton.mp last ▸ member)⟩
    · simp only [State.alloc, List.length_append, List.length_singleton, size]
      omega
    · intro r obj here
      rw [base_append] at here
      split_ifs at here with last
      · cases here
        have none : ∀ l ∈ shown, ¬ Starts start place (made ++ [path]) l r := by
          intro l member begins
          obtain ⟨r', obj, here, inside, _⟩ :=
            holder allowed clear (laid.known l member) (laid.source l member)
          rw [Starts, Node.toValue_append (laid.source l member)] at begins
          have places := JsValue.object.inj (begins.symm.trans here)
          have := base_lt inside
          omega
        refine ⟨newObject engine, ?_, rfl, rfl, rfl, .none, ?_, fun _ _ => rfl⟩
        · rw [last, ← size]
          exact List.getElem?_concat_length
        · exact fun l member begins => absurd begins (none l member)
      · obtain ⟨obj', here', overlaid⟩ := laid.objects r obj here
        have inside := base_lt here
        exact ⟨obj', (List.getElem?_append_left (by omega)).trans here',
          overlaid.alloc laid.source laid.reached _⟩
  · rw [Node.toValue, List.idxOf_append_of_notMem fresh, List.idxOf_cons_self]
    simp [State.alloc, size]

theorem Laid.read (laid : Laid engine start exports place made shown s)
    (known : link ∈ allLinks exports) (member : other ∈ shown)
    (slot : SameSlot place other link) :
    ∃ atoms, Laid engine start exports place made shown { s with atoms := atoms } ∧
      getPropertyStr engine s ((place link.1).toValue start made) link.2 =
        ((place (target link)).toValue start made, { s with atoms := atoms }) := by
  obtain ⟨atoms, named, interned⟩ := laid.atoms.named clear.clean (List.mem_map_of_mem known)
  obtain ⟨r, obj, here, old, _, _⟩ :=
    holder allowed clear (laid.known other member) (laid.source other member)
  obtain ⟨obj', there, overlaid⟩ := laid.objects r obj old
  have own := overlaid.slot other member here
  rw [slot.2, clear.same other (laid.known other member) link known slot] at own
  refine ⟨atoms, { laid with atoms := interned }, ?_⟩
  rw [Starts, slot.1] at here
  rw [getPropertyStr, named, here]
  exact getProperty_own there own

omit allowed in
theorem Laid.lookup (laid : Laid engine start exports place made shown s) {prop : Atom}
    {chain : List Nat} (blank : Blank start.heap (Shows place shown prop) prop chain)
    (inside : ∀ r ∈ chain, r < start.heap.length) :
    lookup s.heap prop chain = some .undefined := by
  have untouched {r : Nat} {obj obj' : Object} (old : r < start.heap.length)
      (none : ∀ node, ¬ Shows place shown prop r node)
      (overlaid : Overlaid start place made shown r obj obj') : obj'.own prop = obj.own prop :=
    overlaid.rest prop fun l member begins named =>
      none _ ⟨l, member, (Node.toValue_old old).mp begins, named, rfl⟩
  induction blank with
  | nil => rfl
  | @shown r chain here =>
      obtain ⟨l, member, begins, named, leads⟩ := here
      obtain ⟨obj, found⟩ :=
        Option.isSome_iff_exists.mp (clear.objects l (laid.known l member))
      rw [begins] at found
      have old := inside r List.mem_cons_self
      obtain ⟨obj', there, overlaid⟩ := laid.objects r obj ((base_old old).trans found)
      have own := overlaid.slot l member ((Node.toValue_old old).mpr begins)
      rw [named, leads, Node.toValue] at own
      simp only [ModuleExports.lookup, there, own]
  | @own r chain obj writable none here own =>
      have old := inside r List.mem_cons_self
      obtain ⟨obj', there, overlaid⟩ := laid.objects r obj ((base_old old).trans here)
      simp only [ModuleExports.lookup, there, untouched old none overlaid, own]
  | @behind r chain obj none here own plain rest ih =>
      have old := inside r List.mem_cons_self
      obtain ⟨obj', there, overlaid⟩ := laid.objects r obj ((base_old old).trans here)
      simp only [ModuleExports.lookup, there, untouched old none overlaid, own, overlaid.exotic,
        plain, Bool.false_eq_true, if_false]
      exact ih fun r member => inside r (List.mem_cons_of_mem _ member)

theorem Laid.fresh (laid : Laid engine start exports place made shown s)
    (known : link ∈ allLinks exports) (present : (place link.1).Present made)
    (free : ∀ l ∈ shown, ¬ SameSlot place l link) :
    ∃ r obj obj', Starts start place made link r ∧ s.heap[r]? = some obj' ∧
      (place link.1).object engine start.heap = some obj ∧
      (∀ r' ∈ obj.prototypes, r' < start.heap.length) ∧
      base engine start made r = some obj ∧
      Overlaid start place made shown r obj obj' ∧
      obj'.own (nameOf link.2) = obj.own (nameOf link.2) := by
  obtain ⟨r, obj, here, old, node, inside⟩ := holder allowed clear known present
  obtain ⟨obj', there, overlaid⟩ := laid.objects r obj old
  refine ⟨r, obj, obj', here, there, node, inside, old, overlaid, ?_⟩
  exact overlaid.rest _ fun l member begins named =>
    free l member (agree clear laid known here member begins named).1

theorem Laid.blank (laid : Laid engine start exports place made shown s)
    (known : link ∈ allLinks exports) (present : (place link.1).Present made)
    (new : place (target link) = .made path) (free : ∀ l ∈ shown, ¬ SameSlot place l link)
    (finds : ∀ obj ∈ (place link.1).object engine start.heap, Finds start place shown link obj) :
    ∃ atoms, Laid engine start exports place made shown { s with atoms := atoms } ∧
      getPropertyStr engine s ((place link.1).toValue start made) link.2 =
        (.undefined, { s with atoms := atoms }) := by
  obtain ⟨atoms, named, interned⟩ := laid.atoms.named clear.clean (List.mem_map_of_mem known)
  obtain ⟨r, obj, obj', here, there, node, inside, _, overlaid, own⟩ :=
    laid.fresh allowed clear known present free
  have found := finds obj node
  rw [Finds, new] at found
  refine ⟨atoms, { laid with atoms := interned }, ?_⟩
  rw [Starts] at here
  rw [getPropertyStr, named, here]
  refine getProperty_readable there ?_
  rw [readable, own, overlaid.exotic, overlaid.prototypes]
  rcases found with ⟨writable, value⟩ | ⟨none, plain, blank⟩
  · rw [value]
  · rw [none]
    simp only [plain, Bool.false_eq_true, if_false]
    exact laid.lookup clear blank inside

omit allowed clear in
theorem Laid.hold (laid : Laid engine start exports place made shown s) {obj obj' : Object}
    (known : link ∈ allLinks exports) (present : (place link.1).Present made)
    (reached : (place (target link)).Present made) (here : Starts start place made link r)
    (there : s.heap[r]? = some obj') (before : base engine start made r = some obj)
    (own : obj'.own (nameOf link.2) =
      some (.data ((place (target link)).toValue start made) (obj.writable (nameOf link.2)))) :
    Laid engine start exports place made (shown ++ [link]) s := by
  refine
    { laid with
      known := forall_mem_concat laid.known known
      source := forall_mem_concat laid.source present
      reached := forall_mem_concat laid.reached reached
      objects := ?_ }
  intro r₂ obj₂ old₂
  obtain ⟨obj₃, there₃, overlaid₃⟩ := laid.objects r₂ obj₂ old₂
  refine ⟨obj₃, there₃, overlaid₃.found fun begins => ?_⟩
  have same : r₂ = r := JsValue.object.inj (begins.symm.trans here)
  subst same
  rw [before, Option.some.injEq] at old₂
  rw [there, Option.some.injEq] at there₃
  rw [← old₂, ← there₃, own]

theorem Laid.found (laid : Laid engine start exports place made shown s) {v : JsValue}
    (known : link ∈ allLinks exports) (present : (place link.1).Present made)
    (value : place (target link) = .value v) (free : ∀ l ∈ shown, ¬ SameSlot place l link)
    (finds : ∀ obj ∈ (place link.1).object engine start.heap, Finds start place shown link obj) :
    ∃ atoms, Laid engine start exports place made (shown ++ [link]) { s with atoms := atoms } ∧
      getPropertyStr engine s ((place link.1).toValue start made) link.2 =
        (v, { s with atoms := atoms }) := by
  obtain ⟨atoms, named, interned⟩ := laid.atoms.named clear.clean (List.mem_map_of_mem known)
  obtain ⟨r, obj, obj', here, there, node, _, before, _, own⟩ :=
    laid.fresh allowed clear known present free
  have found := finds obj node
  rw [Finds, value] at found
  obtain ⟨writable, had⟩ := found
  have reached : (place (target link)).Present made := fun path here => by
    rw [value] at here
    cases here
  refine ⟨atoms, ?_, ?_⟩
  · refine Laid.hold { laid with atoms := interned } known present reached here there before ?_
    rw [own, had, value, Object.writable, had, Node.toValue]
  · rw [Starts] at here
    rw [getPropertyStr, named, here]
    exact getProperty_own there (own.trans had)

omit allowed clear in
theorem Laid.settable (laid : Laid engine start exports place made shown s) {obj obj' : Object}
    (granted : settable start.heap obj (nameOf link.2) = some true)
    (inside : ∀ r' ∈ obj.prototypes, r' < start.heap.length)
    (overlaid : Overlaid start place made shown r obj obj') :
    settable s.heap obj' (nameOf link.2) = some true := by
  have writable := writable_of_settable granted
  by_cases taken : ∃ l ∈ shown, Starts start place made l r ∧ nameOf l.2 = nameOf link.2
  · obtain ⟨l, member, begins, named⟩ := taken
    have own := overlaid.slot l member begins
    rw [named, writable] at own
    exact settable_own own
  · have own := overlaid.rest (nameOf link.2) fun l member begins named =>
      taken ⟨l, member, begins, named⟩
    rcases settable_cases granted with ⟨value, set⟩ |
      ⟨none, plain, passes, extensible, reaches⟩
    · exact settable_own (own.trans set)
    · refine settable_new (own.trans none) (overlaid.exotic ▸ plain) ?_
        (overlaid.extensible ▸ extensible) (reaches_of_covers overlaid.length reaches)
      rw [overlaid.prototypes]
      refine admits_congr passes ?_
      intro r' chained obj₀ old
      obtain ⟨obj₁, there, overlaid'⟩ :=
        laid.objects r' obj₀ ((base_old (inside r' chained)).trans old)
      refine ⟨obj₁, there, fun opened => ⟨overlaid'.exotic ▸ opened.1, ?_⟩⟩
      have open' : obj₀.writable (nameOf link.2) = true := by
        rcases opened.2 with absent | ⟨value, set⟩ <;> rw [Object.writable, ‹obj₀.own _ = _›]
      by_cases slot : ∃ l ∈ shown, Starts start place made l r' ∧ nameOf l.2 = nameOf link.2
      · obtain ⟨l, listed, begins, same⟩ := slot
        exact .inr ⟨_, open' ▸ same ▸ overlaid'.slot l listed begins⟩
      · rw [overlaid'.rest _ fun l listed begins same => slot ⟨l, listed, begins, same⟩]
        exact opened.2

omit allowed in
-- A value that an object had at first, and that cannot be written, stays.
theorem Laid.held (laid : Laid engine start exports place made shown s) {obj obj' : Object}
    {v : JsValue} (known : link ∈ allLinks exports) (value : place (target link) = .value v)
    (held : obj.own (nameOf link.2) = some (.data v false))
    (here : Starts start place made link r)
    (overlaid : Overlaid start place made shown r obj obj') :
    obj'.own (nameOf link.2) = some (.data v false) := by
  by_cases taken : ∃ l ∈ shown, Starts start place made l r ∧ nameOf l.2 = nameOf link.2
  · obtain ⟨l, member, begins, named⟩ := taken
    have slot := overlaid.slot l member begins
    rw [(agree clear laid known here member begins named).2, named, value, Object.writable,
      held] at slot
    exact slot
  · rw [overlaid.rest (nameOf link.2) fun l member begins named =>
      taken ⟨l, member, begins, named⟩]
    exact held

theorem Laid.set (laid : Laid engine start exports place made shown s)
    (known : link ∈ allLinks exports) (present : (place link.1).Present made)
    (reached : (place (target link)).Present made)
    (written : ∀ v, place (target link) = .value v → ∃ e ∈ exports, pathOf e.1 = target link) :
    Laid engine start exports place made (shown ++ [link])
      (setPropertyStr engine s ((place link.1).toValue start made) link.2
        ((place (target link)).toValue start made)) := by
  obtain ⟨atoms, named, interned⟩ := laid.atoms.named clear.clean (List.mem_map_of_mem known)
  obtain ⟨r, obj, here, old, node, inside⟩ := holder allowed clear known present
  obtain ⟨obj', there, overlaid⟩ := laid.objects r obj old
  rcases clear.room link known written obj node with granted | ⟨v, value, held⟩
  case inr =>
    have own := laid.held clear known value held here overlaid
    have refused : setPropertyStr engine s ((place link.1).toValue start made) link.2
        ((place (target link)).toValue start made) = { s with atoms := atoms } := by
      rw [Starts] at here
      rw [setPropertyStr, named, here]
      exact setProperty_refused there own
    have later : Laid engine start exports place made shown { s with atoms := atoms } :=
      { laid with atoms := interned }
    rw [refused]
    refine later.hold known present reached here there old ?_
    rw [own, value, Node.toValue, Object.writable, held]
  have writable : obj.writable (nameOf link.2) = true := writable_of_settable granted
  have write : setPropertyStr engine s ((place link.1).toValue start made) link.2
      ((place (target link)).toValue start made) =
        ⟨atoms, s.heap.set r
          (obj'.write (nameOf link.2) ((place (target link)).toValue start made))⟩ := by
    rw [Starts] at here
    rw [setPropertyStr, named, here]
    exact setProperty_write there (laid.settable granted inside overlaid)
  rw [write]
  refine
    { atoms := interned
      known := forall_mem_concat laid.known known
      distinct := laid.distinct
      source := forall_mem_concat laid.source present
      reached := forall_mem_concat laid.reached reached
      size := (List.length_set ..).trans laid.size
      objects := ?_ }
  intro r₂ obj₂ old₂
  have set := Counting.getElem?_set_of_some there
    (obj'.write (nameOf link.2) ((place (target link)).toValue start made)) r₂
  by_cases same : r₂ = r
  · subst same
    rw [old, Option.some.injEq] at old₂
    subst old₂
    refine ⟨_, set.trans (if_pos rfl), overlaid.write here writable fun l member begins named => ?_⟩
    rw [(agree clear laid known here member begins named).2]
  · obtain ⟨obj₃, there₃, overlaid₃⟩ := laid.objects r₂ obj₂ old₂
    refine ⟨obj₃, (set.trans (if_neg same)).trans there₃, overlaid₃.frame fun begins => ?_⟩
    exact same (JsValue.object.inj (begins.symm.trans here))

end Heap

def Passes (engine : Engine) (start : State) (place : List Bytes → Node)
    (shown : List (Link Bytes)) (path rest : List Bytes) : Prop :=
  ∀ front key more, rest = front ++ key :: more → more ≠ [] →
    (∀ link ∈ shown ++ links path front, ¬ SameSlot place link (path ++ front, key)) →
      ∀ obj ∈ (place (path ++ front)).object engine start.heap,
        Finds start place (shown ++ links path front) (path ++ front, key) obj

structure Grown (engine : Engine) (start : State) (exports : List Export)
    (place : List Bytes → Node) (made : List (List Bytes)) (shown : List (Link Bytes))
    (s : State) : Prop extends Laid engine start exports place made shown s where
  purpose : ∀ path ∈ made, path = [] ∨ ∃ link ∈ shown, place (target link) = .made path

theorem Grown.further (grown : Grown engine start exports place made shown s)
    (more : List (Link Bytes)) (member : path ∈ made) :
    path = [] ∨ ∃ link ∈ shown ++ more, place (target link) = .made path := by
  rcases grown.purpose path member with root | ⟨l, listed, led⟩
  · exact .inl root
  · exact .inr ⟨l, List.mem_append_left _ listed, led⟩

variable (allowed : Allowed engine start exports) (clear : Clear engine start exports place)

include clear

theorem Grown.unmade (grown : Grown engine start exports place made shown s)
    (known : link ∈ allLinks exports) (new : place (target link) = .made path)
    (free : ∀ l ∈ shown, ¬ SameSlot place l link) : path ∉ made := by
  intro member
  rcases grown.purpose path member with rfl | ⟨l, listed, led⟩
  · exact clear.below link known new
  · exact free l listed (clear.apart l (grown.known l listed) link known path led new)

include allowed

theorem Grown.enter (grown : Grown engine start exports place made shown s)
    (known : link ∈ allLinks exports) (present : (place link.1).Present made)
    (new : place (target link) = .made path) (free : ∀ l ∈ shown, ¬ SameSlot place l link) :
    Grown engine start exports place (made ++ [path]) (shown ++ [link])
      (setPropertyStr engine (s.alloc engine).2 ((place link.1).toValue start made) link.2
        (s.alloc engine).1) := by
  obtain ⟨laid, value⟩ := grown.toLaid.alloc allowed clear (grown.unmade clear known new free)
  have reached : (place (target link)).Present (made ++ [path]) := by
    intro path' here
    rw [new, Node.made.injEq] at here
    exact here ▸ List.mem_append_right _ (List.mem_singleton_self path)
  have next := laid.set allowed clear known (present.append _) reached fun v value => by
    rw [new] at value
    cases value
  rw [Node.toValue_append present, new] at next
  rw [value]
  refine { next with purpose := ?_ }
  intro p member
  rcases List.mem_append.mp member with earlier | last
  · exact grown.further [link] earlier
  · exact .inr ⟨link, List.mem_append_right _ (List.mem_singleton_self link),
      List.mem_singleton.mp last ▸ new⟩

omit allowed in
theorem Grown.again (grown : Grown engine start exports place made shown s)
    (known : link ∈ allLinks exports) (member : other ∈ shown)
    (slot : SameSlot place other link) :
    Grown engine start exports place made (shown ++ [link]) s := by
  have leads := clear.same other (grown.known other member) link known slot
  exact
    { atoms := grown.atoms
      known := forall_mem_concat grown.known known
      distinct := grown.distinct
      source := forall_mem_concat grown.source (slot.1 ▸ grown.source other member)
      reached := forall_mem_concat grown.reached (leads ▸ grown.reached other member)
      size := grown.size
      purpose := fun p => grown.further [link]
      objects := by
        intro r obj here
        obtain ⟨obj', there, overlaid⟩ := grown.objects r obj here
        refine ⟨obj', there, overlaid.found fun begins => ?_⟩
        rw [← slot.2, ← leads]
        refine overlaid.slot other member ?_
        rw [Starts, slot.1]
        exact begins }

theorem Grown.descend (grown : Grown engine start exports place made shown s)
    (present : (place link.1).Present made) (known : link ∈ allLinks exports)
    (finds : (∀ l ∈ shown, ¬ SameSlot place l link) →
      ∀ obj ∈ (place link.1).object engine start.heap, Finds start place shown link obj)
    {next : Bytes} (further : (target link, next) ∈ allLinks exports) (rest : List Bytes)
    (v : JsValue) :
    ∃ more s', Grown engine start exports place (made ++ more) (shown ++ [link]) s' ∧
      (place (target link)).Present (made ++ more) ∧
      setKeyRecursive engine s ((place link.1).toValue start made) (link.2 :: next :: rest) v =
        setKeyRecursive engine s' ((place (target link)).toValue start (made ++ more))
          (next :: rest) v := by
  have object {made : List (List Bytes)} (reached : (place (target link)).Present made) :
      (place (target link)).toValue start made ≠ .undefined := by
    obtain ⟨r, obj, here, _⟩ := holder allowed clear further reached
    rw [Starts] at here
    rw [here]
    exact JsValue.noConfusion
  by_cases taken : ∃ l ∈ shown, SameSlot place l link
  · obtain ⟨l, member, slot⟩ := taken
    obtain ⟨atoms, laid, read⟩ := grown.toLaid.read allowed clear known member slot
    have again := Grown.again clear { laid with purpose := grown.purpose } known member slot
    have reached : (place (target link)).Present made :=
      clear.same l (grown.known l member) link known slot ▸ grown.reached l member
    refine ⟨[], { s with atoms := atoms }, ?_⟩
    rw [List.append_nil, setKeyRecursive, read]
    exact ⟨again, reached, if_neg (object reached)⟩
  · have free : ∀ l ∈ shown, ¬ SameSlot place l link := fun l member slot =>
      taken ⟨l, member, slot⟩
    cases node : place (target link) with
    | value w =>
        obtain ⟨atoms, laid, read⟩ :=
          grown.toLaid.found allowed clear known present node free (finds free)
        have reached : (place (target link)).Present made := by
          rw [node]
          intro path here
          cases here
        have some := object reached
        rw [node] at some
        refine ⟨[], { s with atoms := atoms }, ?_⟩
        rw [List.append_nil, setKeyRecursive, read, ← node]
        refine ⟨{ laid with purpose := fun p => grown.further [link] }, reached, ?_⟩
        rw [node]
        exact if_neg some
    | made path =>
        obtain ⟨atoms, laid, read⟩ :=
          grown.toLaid.blank allowed clear known present node free (finds free)
        have grown' : Grown engine start exports place made shown { s with atoms := atoms } :=
          { laid with purpose := grown.purpose }
        have value := (grown'.toLaid.alloc allowed clear (grown'.unmade clear known node free)).2
        refine ⟨[path], _, grown'.enter allowed clear known present node free, ?_, ?_⟩
        · intro path' here
          rw [Node.made.injEq] at here
          exact here ▸ List.mem_append_right _ (List.mem_singleton_self path)
        · rw [setKeyRecursive, read, ← value]
          exact if_pos rfl

theorem setKeyRecursive_grown {rest : List Bytes} {v : JsValue}
    (grown : Grown engine start exports place made shown s)
    (present : (place path).Present made) (keys : rest ≠ [])
    (known : ∀ l ∈ links path rest, l ∈ allLinks exports)
    (value : place (path ++ rest) = .value v) (last : ∃ e ∈ exports, pathOf e.1 = path ++ rest)
    (passes : Passes engine start place shown path rest) :
    ∃ more, Grown engine start exports place (made ++ more) (shown ++ links path rest)
      (setKeyRecursive engine s ((place path).toValue start made) rest v) := by
  induction rest generalizing path made shown s with
  | nil => exact absurd rfl keys
  | cons key rest ih =>
      have first := known (path, key) List.mem_cons_self
      cases rest with
      | nil =>
          have reached : (place (target (path, key))).Present made := by
            rw [target, value]
            intro path here
            cases here
          have next := grown.toLaid.set allowed clear first present reached fun _ _ => last
          rw [target, value, Node.toValue] at next
          refine ⟨[], ?_⟩
          rw [List.append_nil]
          exact { next with purpose := fun p => grown.further [(path, key)] }
      | cons next rest =>
          have split : path ++ key :: next :: rest = target (path, key) ++ next :: rest := by
            simp [target]
          rw [split] at value last
          have known' : ∀ l ∈ links (target (path, key)) (next :: rest), l ∈ allLinks exports :=
            fun l member => known l (List.mem_cons_of_mem _ member)
          have finds := passes [] key (next :: rest) rfl (List.cons_ne_nil _ _)
          simp only [links, List.append_nil] at finds
          obtain ⟨more, s', grown₁, reached, entering⟩ := grown.descend allowed clear present first
            finds (known' _ List.mem_cons_self) rest v
          have passes' : Passes engine start place (shown ++ [(path, key)]) (target (path, key))
              (next :: rest) := by
            intro front key' more split
            have later := passes (key :: front) key' more (congrArg (key :: ·) split)
            simpa only [links, target, List.append_assoc, List.singleton_append] using later
          obtain ⟨more', grown₂⟩ := ih grown₁ reached (List.cons_ne_nil _ _) known' value last
            passes'
          rw [List.append_assoc, List.append_assoc] at grown₂
          rw [entering]
          exact ⟨more ++ more', grown₂⟩

end Tree

end BreezeJs.ModuleExports
