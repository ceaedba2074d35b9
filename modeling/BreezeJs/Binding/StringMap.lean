import Mathlib.Data.List.Nodup
import Mathlib.Data.List.TakeWhile
import BreezeJs.Binding.Atom

set_option autoImplicit false

namespace BreezeJs.Binding

-- `Object.prototype` is as the engine made it. Of what it has, only `__proto__` is not simply
-- written over.

open Infra

abbrev StringMap := Std.ExtTreeMap Bytes Bytes

-- Own properties in the order in which they were made.
abbrev Properties := List (Atom × List UInt16)

def atomProto : Atom :=
  .string (latin1 (text "__proto__"))

-- The inherited setter of `__proto__` takes no notice of a string.
def setProperty (thisObj : Properties) (prop : Atom) (val : List UInt16) : Properties :=
  if thisObj.any fun own => own.1 == prop then
    thisObj.map fun own => if own.1 = prop then (prop, val) else own
  else if prop = atomProto then thisObj
  else thisObj ++ [(prop, val)]

def getProperty (obj : Properties) (prop : Atom) : List UInt16 :=
  (obj.lookup prop).getD (latin1 (text "undefined"))

def numKeys (obj : Properties) : List Atom :=
  (obj.map Prod.fst).filter fun atom => atom.arrayIndex.isSome

def strKeys (obj : Properties) : List Atom :=
  (obj.map Prod.fst).filter fun atom => atom.arrayIndex.isNone

def num (atom : Atom) : Nat :=
  atom.arrayIndex.getD 0

-- Array indices come first, in order.
def getOwnPropertyNames (obj : Properties) : List Atom :=
  (numKeys obj).mergeSort (fun a b => decide (num a ≤ num b)) ++ strKeys obj

def setPropertyStr (state : AtomTable × Properties) (key value : Bytes) : AtomTable × Properties :=
  let (prop, table) := newAtomLen state.1 (cString key)
  (table, setProperty state.2 prop (newStringLen value).units)

def wrapMap (table : AtomTable) (map : StringMap) : AtomTable × Properties :=
  map.toList.foldl (fun state entry => setPropertyStr state entry.1 entry.2) (table, [])

def unwrapMap (obj : Properties) : StringMap :=
  (getOwnPropertyNames obj).foldl (fun result atom =>
    result.insert (cString (toCString atom.toUnits)) (toCString (getProperty obj atom))) ∅

structure KeyKept (table : AtomTable) (map : StringMap) (key : Bytes) : Prop where
  whole : 0 ∉ key
  own : key ≠ text "__proto__"
  read : isAscii key ∨ startsWithDigit key = true ∨ ⟨latin1 key, false⟩ ∉ table ∧
    (mojibake key ∈ map → compare (mojibake key) key = .lt → ⟨latin1 key, true⟩ ∈ table)

def Valid (str : Bytes) : Prop :=
  ∃ chars, str = utf8 chars

abbrev Entry := Bytes × Bytes

def tableAfter (table : AtomTable) (entries : List Entry) : AtomTable :=
  entries.foldl (fun table entry => (newAtomLen table (cString entry.1)).2) table

def wanted : AtomTable → List Entry → Properties
  | _, [] => []
  | table, (key, value) :: rest =>
      ((newAtomLen table (cString key)).1, (newStringLen value).units) ::
        wanted (newAtomLen table (cString key)).2 rest

section Wrapping

variable {table : AtomTable} {entries : List Entry}

theorem foldl_setPropertyStr (table : AtomTable) (obj : Properties) (entries : List Entry) :
    (entries.foldl (fun state entry => setPropertyStr state entry.1 entry.2) (table, obj)).2 =
      (wanted table entries).foldl (fun obj own => setProperty obj own.1 own.2) obj := by
  induction entries generalizing table obj with
  | nil => rfl
  | cons entry rest ih => exact ih _ _

theorem wanted_getElem? (table : AtomTable) (entries : List Entry) (i : Nat) :
    (wanted table entries)[i]? = entries[i]?.map fun entry =>
      ((newAtomLen (tableAfter table (entries.take i)) (cString entry.1)).1,
        (newStringLen entry.2).units) := by
  induction entries generalizing table i with
  | nil => rfl
  | cons entry rest ih =>
      cases i with
      | zero => rfl
      | succ i => exact ih _ i

theorem tableAfter_keeps {p : JsString} (member : p ∈ table) (entries : List Entry) :
    p ∈ tableAfter table entries := by
  induction entries generalizing table with
  | nil => exact member
  | cons entry rest ih => exact ih (newAtomLen_keeps _ member)

theorem mem_tableAfter {p : JsString} (member : p ∈ tableAfter table entries) :
    p ∈ table ∨ ∃ entry ∈ entries, p = newStringLen (cString entry.1) ∧
      ∀ earlier ∈ table, earlier.units ≠ p.units := by
  induction entries generalizing table with
  | nil => exact .inl member
  | cons entry rest ih =>
      rcases ih member with earlier | ⟨later, listed, same, fresh⟩
      · rcases mem_newAtomLen earlier with old | ⟨same, fresh⟩
        · exact .inl old
        · exact .inr ⟨entry, List.mem_cons_self, same, fresh⟩
      · refine .inr ⟨later, List.mem_cons_of_mem entry listed, same, ?_⟩
        intro q old
        exact fresh q (newAtomLen_keeps _ old)

theorem tableAfter_take_succ {i : Nat} {entry : Entry} (found : entries[i]? = some entry) :
    tableAfter table (entries.take (i + 1)) =
      (newAtomLen (tableAfter table (entries.take i)) (cString entry.1)).2 := by
  rw [List.take_add_one, found, tableAfter, List.foldl_append]
  rfl

theorem tableAfter_mono {i j : Nat} (order : i ≤ j) {p : JsString}
    (member : p ∈ tableAfter table (entries.take i)) : p ∈ tableAfter table (entries.take j) := by
  have split : entries.take j = entries.take i ++ (entries.take j).drop i := by
    conv_lhs => rw [← List.take_append_drop i (entries.take j)]
    rw [List.take_take, Nat.min_eq_left order]
  rw [split, tableAfter, List.foldl_append]
  exact tableAfter_keeps member _

end Wrapping

section Objects

variable {obj : Properties} {prop : Atom}

theorem names_setProperty (obj : Properties) (prop : Atom) (val : List UInt16) :
    (setProperty obj prop val).map Prod.fst =
      if prop ∈ obj.map Prod.fst ∨ prop = atomProto then obj.map Prod.fst
      else obj.map Prod.fst ++ [prop] := by
  have present : (obj.any fun own => own.1 == prop) = true ↔ prop ∈ obj.map Prod.fst := by
    simp [List.any_eq_true]
  rw [setProperty]
  by_cases owned : prop ∈ obj.map Prod.fst
  · rw [if_pos (present.mpr owned), if_pos (.inl owned), List.map_map]
    refine List.map_congr_left fun own _ => ?_
    by_cases same : own.1 = prop <;> simp [same]
  · rw [if_neg (present.not.mpr owned)]
    by_cases proto : prop = atomProto
    · rw [if_pos proto, if_pos (.inr proto)]
    · rw [if_neg proto, if_neg (by simp [owned, proto]), List.map_append]
      rfl

theorem names_foldl {own : Atom} {props : Properties}
    (member : own ∈ (props.foldl (fun obj p => setProperty obj p.1 p.2) obj).map Prod.fst) :
    own ∈ obj.map Prod.fst ∨ own ≠ atomProto ∧ own ∈ props.map Prod.fst := by
  induction props generalizing obj with
  | nil => exact .inl member
  | cons p rest ih =>
      rcases ih member with earlier | ⟨ordinary, later⟩
      · rw [names_setProperty] at earlier
        split_ifs at earlier with kept
        · exact .inl earlier
        · rcases List.mem_append.mp earlier with before | here
          · exact .inl before
          · have same := List.mem_singleton.mp here
            subst same
            exact .inr ⟨fun proto => kept (.inr proto), List.mem_cons_self⟩
      · exact .inr ⟨ordinary, List.mem_cons_of_mem _ later⟩

theorem setProperty_new {val : List UInt16} (absent : prop ∉ obj.map Prod.fst)
    (ordinary : prop ≠ atomProto) : setProperty obj prop val = obj ++ [(prop, val)] := by
  have missing : (obj.any fun own => own.1 == prop) = false := by
    rw [List.any_eq_false]
    intro own member same
    exact absent (List.mem_map.mpr ⟨own, member, beq_iff_eq.mp same⟩)
  rw [setProperty, missing, if_neg (by decide), if_neg ordinary]

theorem foldl_setProperty {props : Properties} (distinct : ((obj ++ props).map Prod.fst).Nodup)
    (ordinary : ∀ p ∈ props, p.1 ≠ atomProto) :
    props.foldl (fun obj p => setProperty obj p.1 p.2) obj = obj ++ props := by
  induction props generalizing obj with
  | nil => exact (List.append_nil obj).symm
  | cons p rest ih =>
      have absent : p.1 ∉ obj.map Prod.fst := by
        rw [List.map_append, List.map_cons, List.nodup_append] at distinct
        exact fun member => distinct.2.2 p.1 member p.1 List.mem_cons_self rfl
      have split : obj ++ p :: rest = obj ++ [p] ++ rest := by simp
      rw [split] at distinct ⊢
      rw [List.foldl_cons, setProperty_new absent (ordinary p List.mem_cons_self)]
      exact ih distinct fun q later => ordinary q (List.mem_cons_of_mem p later)

theorem mem_getOwnPropertyNames (obj : Properties) (atom : Atom) :
    atom ∈ getOwnPropertyNames obj ↔ atom ∈ obj.map Prod.fst := by
  rw [getOwnPropertyNames, List.mem_append, List.mem_mergeSort, numKeys, strKeys, List.mem_filter,
    List.mem_filter, ← and_or_left, Option.isNone_iff_eq_none, Option.isSome_iff_ne_none]
  exact and_iff_left (ne_or_eq _ _)

theorem getProperty_of_mem {own : Atom × List UInt16} (distinct : (obj.map Prod.fst).Nodup)
    (member : own ∈ obj) : getProperty obj own.1 = own.2 := by
  induction obj with
  | nil => cases member
  | cons first rest ih =>
      rw [List.map_cons, List.nodup_cons] at distinct
      rcases List.mem_cons.mp member with rfl | later
      · rw [getProperty, List.lookup_cons, beq_self_eq_true]
        rfl
      · have other : own.1 ≠ first.1 :=
          fun same => distinct.1 (same ▸ List.mem_map_of_mem later)
        have kept := ih distinct.2 later
        rwa [getProperty, List.lookup_cons, beq_false_of_ne other]

end Objects

section Reading

variable {names : List Atom} {name : Atom → Bytes} {value : Atom → Bytes} {result : StringMap}
  {key found : Bytes}

theorem insertAll_none (absent : ∀ atom ∈ names, name atom ≠ key) :
    (names.foldl (fun result atom => result.insert (name atom) (value atom)) result)[key]? =
      result[key]? := by
  induction names generalizing result with
  | nil => rfl
  | cons atom rest ih =>
      have other : compare (name atom) key ≠ .eq :=
        fun same => absent atom List.mem_cons_self (Std.LawfulEqOrd.eq_of_compare same)
      rw [List.foldl_cons, ih fun later member => absent later (List.mem_cons_of_mem atom member),
        Std.ExtTreeMap.getElem?_insert, if_neg other]

theorem insertAll_some (present : ∃ atom ∈ names, name atom = key)
    (same : ∀ atom ∈ names, name atom = key → value atom = found) :
    (names.foldl (fun result atom => result.insert (name atom) (value atom)) result)[key]? =
      some found := by
  induction names generalizing result with
  | nil =>
      obtain ⟨atom, member, _⟩ := present
      cases member
  | cons atom rest ih =>
      have same' : ∀ later ∈ rest, name later = key → value later = found :=
        fun later member => same later (List.mem_cons_of_mem atom member)
      rw [List.foldl_cons]
      by_cases again : ∃ later ∈ rest, name later = key
      · exact ih again same'
      · have absent : ∀ later ∈ rest, name later ≠ key :=
          fun later member named => again ⟨later, member, named⟩
        obtain ⟨first, member, named⟩ := present
        rcases List.mem_cons.mp member with rfl | later
        · rw [insertAll_none absent, named, same first List.mem_cons_self named,
            Std.ExtTreeMap.getElem?_insert_self]
        · exact absurd named (absent first later)

end Reading

section Turns

variable {table : AtomTable} {map : StringMap} {i j : Nat} {entry other : Entry}

theorem mem_of_turn (turn : map.toList[i]? = some entry) : map[entry.1]? = some entry.2 :=
  Std.ExtTreeMap.mem_toList_iff_getElem?_eq_some.mp (List.mem_of_getElem? turn)

theorem turn_of_mem {key : Bytes} (member : key ∈ map) :
    ∃ (i : Nat) (entry : Entry), map.toList[i]? = some entry ∧ entry.1 = key := by
  have listed : (key, map[key]) ∈ map.toList := by
    rw [Std.ExtTreeMap.mem_toList_iff_getElem?_eq_some]
    exact Std.ExtTreeMap.getElem?_eq_some_getElem member
  obtain ⟨i, inside, found⟩ := List.mem_iff_getElem.mp listed
  exact ⟨i, _, List.getElem?_eq_some_iff.mpr ⟨inside, found⟩, rfl⟩

theorem turn_lt (order : i < j) (first : map.toList[i]? = some entry)
    (later : map.toList[j]? = some other) : compare entry.1 other.1 = .lt := by
  obtain ⟨inside, rfl⟩ := List.getElem?_eq_some_iff.mp first
  obtain ⟨inside', rfl⟩ := List.getElem?_eq_some_iff.mp later
  exact List.pairwise_iff_getElem.mp Std.ExtTreeMap.ordered_keys_toList i j inside inside' order

theorem not_lt_self (key : Bytes) : compare key key ≠ .lt := by
  have same : compare key key = .eq := Std.ReflCmp.compare_self
  rw [same]
  decide

theorem turn_unique (first : map.toList[i]? = some entry) (later : map.toList[j]? = some other)
    (same : entry.1 = other.1) : i = j := by
  rcases Nat.lt_trichotomy i j with order | equal | order
  · exact absurd (same ▸ turn_lt order first later) (not_lt_self _)
  · exact equal
  · exact absurd (same ▸ turn_lt order later first) (not_lt_self _)

theorem earlier_of_lt (first : map.toList[i]? = some entry) (later : map.toList[j]? = some other)
    (less : compare entry.1 other.1 = .lt) : i < j := by
  rcases Nat.lt_trichotomy i j with order | equal | order
  · exact order
  · subst equal
    rw [first, Option.some.injEq] at later
    exact absurd (later ▸ less) (not_lt_self _)
  · exact absurd less (Std.OrientedCmp.not_lt_of_lt (turn_lt order later first))

end Turns

section Names

variable {table : AtomTable} {key : Bytes}

theorem zero_not_mem_cString (str : Bytes) : 0 ∉ cString str := by
  intro member
  have kept : ((0 : UInt8) != 0) = true := List.mem_takeWhile_imp (p := (· != 0)) member
  exact absurd kept (by decide)

theorem toCString_newStringLen (valid : Valid key) : toCString (newStringLen key).units = key := by
  obtain ⟨chars, rfl⟩ := valid
  rw [newStringLen_utf8]
  exact toCString_utf16 chars

def readName (table : AtomTable) (key : Bytes) : Bytes :=
  cString (toCString (newAtomLen table (cString key)).1.toUnits)

theorem readName_read (valid : Valid key) (whole : 0 ∉ key) (read : ¬ Mistaken table key) :
    readName table key = key := by
  rw [readName, cString_whole whole, toUnits_newAtomLen read, toCString_newStringLen valid,
    cString_whole whole]

theorem readName_mistaken (whole : 0 ∉ key) (mistaken : Mistaken table key) :
    readName table key = mojibake key := by
  rw [readName, cString_whole whole, newAtomLen_mistaken mistaken]
  exact cString_whole ((zero_mem_mojibake_iff key).not.mpr whole)

theorem mojibake_entered (read : ¬ Mistaken table (mojibake key)) (other : ¬ isAscii key)
    (plain : startsWithDigit key = false) :
    ∃ wide, ⟨latin1 key, wide⟩ ∈ (newAtomLen table (mojibake key)).2 := by
  rw [newAtomLen_read read (mojibake_not_ascii other), newStringLen_mojibake,
    newAtomStr_string (isNumString_latin1 plain)]
  split_ifs with present
  · obtain ⟨q, listed, units⟩ := List.any_eq_true.mp present
    have same : q.units = latin1 key := beq_iff_eq.mp units
    exact ⟨q.isWideChar, same ▸ listed⟩
  · exact ⟨false, List.mem_cons_self⟩

theorem newAtomLen_proto (table : AtomTable) :
    (newAtomLen table (text "__proto__")).1 = atomProto := by
  have low : (text "__proto__").all (· < 0x80) = true := by decide
  have ascii : isAscii (text "__proto__") :=
    fun c member => of_decide_eq_true (List.all_eq_true.mp low c member)
  have plain : startsWithDigit (text "__proto__") = false := by decide
  have string := newStringLen_ascii ascii
  rw [newAtomLen, plain, if_neg (by decide), findAtom]
  split
  · next atom found =>
      rw [Option.ite_none_right_eq_some, Option.some.injEq] at found
      exact found.2.symm
  · rw [string, newAtomStr_string (isNumString_latin1 plain)]
    rfl

end Names

section RoundTrip

variable {table : AtomTable} {map : StringMap} {key : Bytes}

def turnTable (table : AtomTable) (map : StringMap) (i : Nat) : AtomTable :=
  tableAfter table (map.toList.take i)

def turnAtom (table : AtomTable) (map : StringMap) (i : Nat) (entry : Entry) : Atom :=
  (newAtomLen (turnTable table map i) (cString entry.1)).1

theorem mem_wanted {own : Atom × List UInt16} (member : own ∈ wanted table map.toList) :
    ∃ (i : Nat) (entry : Entry), map.toList[i]? = some entry ∧
      own = (turnAtom table map i entry, (newStringLen entry.2).units) := by
  obtain ⟨i, found⟩ := List.mem_iff_getElem?.mp member
  rw [wanted_getElem?, Option.map_eq_some_iff] at found
  obtain ⟨entry, turn, rfl⟩ := found
  exact ⟨i, entry, turn, rfl⟩

theorem mem_turnTable {i : Nat} {p : JsString} (member : p ∈ turnTable table map i) :
    p ∈ table ∨ ∃ j < i, ∃ entry, map.toList[j]? = some entry ∧
      p = newStringLen (cString entry.1) ∧ ∀ earlier ∈ table, earlier.units ≠ p.units := by
  rcases mem_tableAfter member with old | ⟨entry, early, made, fresh⟩
  · exact .inl old
  · obtain ⟨j, found⟩ := List.mem_iff_getElem?.mp early
    rw [List.getElem?_take, Option.ite_none_right_eq_some] at found
    exact .inr ⟨j, found.1, entry, found.2, made, fresh⟩

theorem key_mem {i : Nat} {entry : Entry} (turn : map.toList[i]? = some entry) :
    entry.1 ∈ map := by
  rw [Std.ExtTreeMap.mem_iff_isSome_getElem?, mem_of_turn turn]
  rfl

theorem source_of_key (member : key ∈ unwrapMap (wrapMap table map).2) :
    ∃ (i : Nat) (entry : Entry), map.toList[i]? = some entry ∧
      turnAtom table map i entry ≠ atomProto ∧
      readName (turnTable table map i) entry.1 = key := by
  by_contra none
  rw [Std.ExtTreeMap.mem_iff_isSome_getElem?, unwrapMap, insertAll_none,
    Std.ExtTreeMap.getElem?_empty] at member
  · cases member
  · intro atom own named
    rw [mem_getOwnPropertyNames, wrapMap, foldl_setPropertyStr] at own
    rcases names_foldl own with before | ⟨ordinary, asked⟩
    · cases before
    · obtain ⟨prop, listed, rfl⟩ := List.mem_map.mp asked
      obtain ⟨i, entry, turn, rfl⟩ := mem_wanted listed
      exact none ⟨i, entry, turn, ordinary, named⟩

section Forward

variable (valid : ∀ key value, map[key]? = some value → Valid key ∧ Valid value)
  (same : unwrapMap (wrapMap table map).2 = map)

include same

theorem whole_of_same (member : key ∈ map) : 0 ∉ key := by
  rw [← same] at member
  obtain ⟨i, entry, _, _, rfl⟩ := source_of_key member
  exact zero_not_mem_cString _

include valid

-- By the length of the key: the entry that it comes back from has a shorter one, or is its own.
theorem read_of_same {i : Nat} {entry : Entry} (turn : map.toList[i]? = some entry) :
    ¬ Mistaken (turnTable table map i) entry.1 ∧ turnAtom table map i entry ≠ atomProto := by
  induction size : entry.1.length using Nat.strong_induction_on generalizing i entry with
  | h n ih =>
      have member : entry.1 ∈ unwrapMap (wrapMap table map).2 := by
        rw [same]
        exact key_mem turn
      obtain ⟨j, source, turn', ordinary, named⟩ := source_of_key member
      have whole := whole_of_same same (key_mem turn')
      by_cases mistaken : Mistaken (turnTable table map j) source.1
      · have shorter := mojibake_longer mistaken.1
        rw [readName_mistaken whole mistaken] at named
        rw [named, size] at shorter
        exact absurd mistaken (ih _ shorter turn' rfl).1
      · rw [readName_read (valid _ _ (mem_of_turn turn')).1 whole mistaken] at named
        have twin := turn_unique turn' turn named
        subst twin
        rw [turn, Option.some.injEq] at turn'
        subst turn'
        exact ⟨mistaken, ordinary⟩

theorem wide_of_same {i : Nat} {str : Bytes} (found : ⟨latin1 str, true⟩ ∈ turnTable table map i) :
    ⟨latin1 str, true⟩ ∈ table := by
  rcases mem_turnTable found with old | ⟨_, _, other, turn, made, _⟩
  · exact old
  · have whole := whole_of_same same (key_mem turn)
    obtain ⟨chars, text⟩ := (valid _ _ (mem_of_turn turn)).1
    rw [cString_whole whole, text] at made
    have units := congrArg JsString.units made
    rw [newStringLen_utf8] at units
    have narrow := congrArg JsString.isWideChar made
    rw [narrow_of_latin1 units.symm] at narrow
    cases narrow

theorem twin_entered {j : Nat} {twin : Entry} {str : Bytes} (turn : map.toList[j]? = some twin)
    (named : twin.1 = mojibake str) (other : ¬ isAscii str)
    (plain : startsWithDigit str = false) :
    ∃ wide, ⟨latin1 str, wide⟩ ∈ turnTable table map (j + 1) := by
  have read := (read_of_same valid same turn).1
  rw [named] at read
  obtain ⟨wide, entered⟩ := mojibake_entered read other plain
  have step : turnTable table map (j + 1) = _ := tableAfter_take_succ turn
  rw [cString_whole (whole_of_same same (key_mem turn)), named] at step
  exact ⟨wide, step ▸ entered⟩

theorem kept_of_same (member : key ∈ map) : KeyKept table map key := by
  obtain ⟨i, entry, turn, rfl⟩ := turn_of_mem member
  have whole := whole_of_same same member
  obtain ⟨read, ordinary⟩ := read_of_same valid same turn
  refine ⟨whole, ?_, ?_⟩
  · intro proto
    apply ordinary
    rw [turnAtom, cString_whole whole, proto]
    exact newAtomLen_proto _
  · by_cases ascii : isAscii entry.1
    · exact .inl ascii
    cases plain : startsWithDigit entry.1 with
    | true => exact .inr (.inl rfl)
    | false =>
        have absent : ⟨latin1 entry.1, false⟩ ∉ turnTable table map i :=
          fun found => read ⟨ascii, plain, found⟩
        refine .inr (.inr ⟨fun found => absent (tableAfter_keeps found _), ?_⟩)
        intro twin less
        obtain ⟨j, source, turn', named⟩ := turn_of_mem twin
        have order := earlier_of_lt turn' turn (named ▸ less)
        obtain ⟨wide, entered⟩ := twin_entered valid same turn' named ascii plain
        cases wide with
        | false => exact absurd (tableAfter_mono order entered) absent
        | true => exact wide_of_same valid same entered

end Forward

section Backward

variable (valid : ∀ key value, map[key]? = some value → Valid key ∧ Valid value)
  (kept : ∀ key ∈ map, KeyKept table map key)

include kept

theorem turn_whole {i : Nat} {entry : Entry} (turn : map.toList[i]? = some entry) :
    cString entry.1 = entry.1 :=
  cString_whole (kept _ (key_mem turn)).whole

include valid

theorem read_of_kept {i : Nat} {entry : Entry} (turn : map.toList[i]? = some entry) :
    ¬ Mistaken (turnTable table map i) entry.1 := by
  rintro ⟨other, plain, found⟩
  rcases (kept _ (key_mem turn)).read with ascii | digit | ⟨absent, twin⟩
  · exact other ascii
  · rw [plain] at digit
    cases digit
  · rcases mem_turnTable found with old | ⟨j, order, source, turn', made, fresh⟩
    · exact absent old
    · rw [turn_whole kept turn'] at made
      have named : source.1 = mojibake entry.1 := by
        rw [← toCString_newStringLen (valid _ _ (mem_of_turn turn')).1, ← made]
        rfl
      have less := turn_lt order turn' turn
      rw [named] at less
      exact fresh _ (twin (named ▸ key_mem turn') less) rfl

theorem toCString_turnAtom {i : Nat} {entry : Entry} (turn : map.toList[i]? = some entry) :
    toCString (turnAtom table map i entry).toUnits = entry.1 := by
  have read := read_of_kept valid kept turn
  rw [turnAtom, turn_whole kept turn, toUnits_newAtomLen read,
    toCString_newStringLen (valid _ _ (mem_of_turn turn)).1]

theorem turnAtom_ordinary {i : Nat} {entry : Entry} (turn : map.toList[i]? = some entry) :
    turnAtom table map i entry ≠ atomProto := by
  intro proto
  have named := toCString_turnAtom valid kept turn
  rw [proto] at named
  exact (kept _ (key_mem turn)).own (named.symm.trans (by decide))

theorem wanted_distinct : ((wanted table map.toList).map Prod.fst).Nodup := by
  have keys : ((wanted table map.toList).map Prod.fst).map (fun atom => toCString atom.toUnits) =
      map.toList.map Prod.fst := by
    apply List.ext_getElem?
    intro i
    rw [List.getElem?_map, List.getElem?_map, wanted_getElem?, List.getElem?_map]
    cases turn : map.toList[i]? with
    | none => rfl
    | some entry => exact congrArg some (toCString_turnAtom valid kept turn)
  apply List.Nodup.of_map (fun atom : Atom => toCString atom.toUnits)
  rw [keys, List.nodup_iff_pairwise_ne, List.pairwise_map]
  refine Std.ExtTreeMap.ordered_keys_toList.imp ?_
  intro first later less same
  rw [same] at less
  exact not_lt_self _ less

theorem wrapMap_of_kept : (wrapMap table map).2 = wanted table map.toList := by
  rw [wrapMap, foldl_setPropertyStr]
  refine foldl_setProperty (wanted_distinct valid kept) ?_
  intro own member
  obtain ⟨i, entry, turn, rfl⟩ := mem_wanted member
  exact turnAtom_ordinary valid kept turn

theorem same_of_kept : unwrapMap (wrapMap table map).2 = map := by
  have names : ∀ atom ∈ getOwnPropertyNames (wrapMap table map).2,
      ∃ (i : Nat) (entry : Entry), map.toList[i]? = some entry ∧
        cString (toCString atom.toUnits) = entry.1 ∧
        toCString (getProperty (wrapMap table map).2 atom) = entry.2 := by
    intro atom own
    rw [mem_getOwnPropertyNames, wrapMap_of_kept valid kept] at own
    obtain ⟨prop, listed, rfl⟩ := List.mem_map.mp own
    rw [wrapMap_of_kept valid kept, getProperty_of_mem (wanted_distinct valid kept) listed]
    obtain ⟨i, entry, turn, rfl⟩ := mem_wanted listed
    refine ⟨i, entry, turn, ?_, toCString_newStringLen (valid _ _ (mem_of_turn turn)).2⟩
    rw [toCString_turnAtom valid kept turn, turn_whole kept turn]
  apply Std.ExtTreeMap.ext_getElem?
  intro key
  rw [unwrapMap]
  by_cases member : key ∈ map
  · obtain ⟨i, entry, turn, rfl⟩ := turn_of_mem member
    rw [mem_of_turn turn]
    apply insertAll_some
    · refine ⟨turnAtom table map i entry, ?_, ?_⟩
      · rw [mem_getOwnPropertyNames, wrapMap_of_kept valid kept]
        have asked : (turnAtom table map i entry, (newStringLen entry.2).units) ∈
            wanted table map.toList := by
          refine List.mem_of_getElem? (i := i) ?_
          rw [wanted_getElem?, turn]
          rfl
        exact List.mem_map_of_mem asked
      · rw [toCString_turnAtom valid kept turn, turn_whole kept turn]
    · intro atom own named
      obtain ⟨j, source, turn', name, value⟩ := names atom own
      have twin := turn_unique turn' turn (name.symm.trans named)
      subst twin
      rw [turn, Option.some.injEq] at turn'
      subst turn'
      exact value
  · rw [insertAll_none, Std.ExtTreeMap.getElem?_empty, Std.ExtTreeMap.getElem?_eq_none member]
    intro atom own named
    obtain ⟨i, entry, turn, name, _⟩ := names atom own
    exact member (named.symm.trans name ▸ key_mem turn)

end Backward

/-- A map comes back whole if and only if each of its keys is kept. -/
theorem map_round_trip_iff (table : AtomTable) (map : StringMap)
    (valid : ∀ key value, map[key]? = some value → Valid key ∧ Valid value) :
    unwrapMap (wrapMap table map).2 = map ↔ ∀ key ∈ map, KeyKept table map key :=
  ⟨fun same _ => kept_of_same valid same, same_of_kept valid⟩

theorem single_mem {name value : Bytes} (member : key ∈ (∅ : StringMap).insert name value) :
    key = name := by
  rcases Std.ExtTreeMap.mem_insert.mp member with same | old
  · exact (Std.LawfulEqOrd.eq_of_compare same).symm
  · exact absurd old Std.ExtTreeMap.not_mem_empty

theorem single_valid (first second : List Char) (key value : Bytes)
    (found : ((∅ : StringMap).insert (utf8 first) (utf8 second))[key]? = some value) :
    Valid key ∧ Valid value := by
  have member : key ∈ (∅ : StringMap).insert (utf8 first) (utf8 second) := by
    rw [Std.ExtTreeMap.mem_iff_isSome_getElem?, found]
    rfl
  have name := single_mem member
  subst name
  rw [Std.ExtTreeMap.getElem?_insert_self, Option.some.injEq] at found
  exact ⟨⟨first, rfl⟩, ⟨second, found.symm⟩⟩

theorem map_round_trip_example :
    let map : StringMap := (∅ : StringMap).insert (utf8 ['0', 'a']) (utf8 ['é', '\x00'])
    unwrapMap (wrapMap [] map).2 = map := by
  refine (map_round_trip_iff [] _ (single_valid _ _)).mpr ?_
  intro key member
  rw [single_mem member]
  exact ⟨by decide, by decide, .inr (.inl (by decide))⟩

theorem proto_key_lost :
    ¬ ∀ (table : AtomTable) (map : StringMap),
      (∀ key value, map[key]? = some value → Valid key ∧ Valid value) →
        unwrapMap (wrapMap table map).2 = map := by
  intro returns
  have valid := single_valid "__proto__".toList ['x']
  have kept := kept_of_same valid (returns [] _ valid) Std.ExtTreeMap.mem_insert_self
  exact kept.own (by decide)

end RoundTrip

end BreezeJs.Binding
