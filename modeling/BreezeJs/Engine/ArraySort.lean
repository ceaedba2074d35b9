import Mathlib.Data.List.Sort
import Mathlib.Logic.Function.Basic
import BreezeJs.Engine.RqsortCorrect

set_option autoImplicit false

namespace BreezeJs.ArraySort

open Rqsort

variable {σ V : Type}

def jsStringMemcmp : Nat → List UInt16 → List UInt16 → Int
  | len + 1, c1 :: s1, c2 :: s2 =>
      if c1 ≠ c2 then (c1.toNat : Int) - c2.toNat else jsStringMemcmp len s1 s2
  | _, _, _ => 0

def compareU32 (a b : Nat) : Int :=
  if b < a then 1 else if a < b then -1 else 0

def jsStringCompare (s1 s2 : List UInt16) : Int :=
  let res := jsStringMemcmp (min s1.length s2.length) s1 s2
  if res = 0 then compareU32 s1.length s2.length else res

structure ValueSlot (V : Type) where
  val : V
  pos : Nat
deriving DecidableEq, Repr

-- `call` is the method with what it returns made a number, `text` is what the one conversion of
-- a slot to a string gives, if it succeeds. The others are the properties of the object: `none` and
-- `false` stand for an exception.
structure Engine (σ V : Type) where
  call : σ → V → V → Option Int × σ
  converts : σ → V → Bool × σ
  text : ValueSlot V → List UInt16
  tryGetProperty : σ → Nat → Option (Option V) × σ
  setProperty : σ → Nat → V → Bool × σ
  deleteProperty : σ → Nat → Bool × σ

-- `str` tells the slots that have their string.
structure SortContext (σ V : Type) where
  engine : σ
  exception : Bool
  str : ValueSlot V → Bool

variable [DecidableEq V]

def toStr (E : Engine σ V) (slot : ValueSlot V) (psc : SortContext σ V) : SortContext σ V :=
  if psc.str slot then psc
  else
    let (succeeded, engine) := E.converts psc.engine slot.val
    if succeeded then { psc with engine, str := Function.update psc.str slot true }
    else { psc with engine, exception := true }

def cmpSame (a b : ValueSlot V) (cmp : Int) : Int :=
  if cmp ≠ 0 then cmp else compareU32 a.pos b.pos

def jsArrayCmpGeneric (E : Engine σ V) (hasMethod : Bool) (psc : SortContext σ V)
    (a b : ValueSlot V) : Int × SortContext σ V :=
  if psc.exception then (0, psc)
  else if hasMethod then
    if a.val = b.val then (cmpSame a b 0, psc)
    else
      match E.call psc.engine a.val b.val with
      | (some val, engine) => (cmpSame a b val.sign, { psc with engine })
      | (none, engine) => (0, { psc with engine, exception := true })
  else
    let psc := toStr E a psc
    if psc.exception then (0, psc)
    else
      let psc := toStr E b psc
      if psc.exception then (0, psc)
      else (cmpSame a b (jsStringCompare (E.text a) (E.text b)), psc)

def readSlots (E : Engine σ V) (undefined : V) :
    Nat → Nat → σ → Option (List (ValueSlot V) × Nat) × σ
  | _, 0, engine => (some ([], 0), engine)
  | i, left + 1, engine =>
      match E.tryGetProperty engine i with
      | (none, engine) => (none, engine)
      | (some present, engine) =>
          match readSlots E undefined (i + 1) left engine with
          | (none, engine) => (none, engine)
          | (some (array, undefinedCount), engine) =>
              match present with
              | none => (some (array, undefinedCount), engine)
              | some val =>
                  if val = undefined then (some (array, undefinedCount + 1), engine)
                  else (some (⟨val, i⟩ :: array, undefinedCount), engine)

def sortSlots (E : Engine σ V) (hasMethod : Bool) (array : List (ValueSlot V)) (engine : σ) :
    Option (List (ValueSlot V) × Bool × σ) := do
  let sorted ← rqsort (jsArrayCmpGeneric E hasMethod)
    ⟨⟨engine, false, fun _ => false⟩, array.toArray⟩
  pure (sorted.base.toList, sorted.ctx.exception, sorted.ctx.engine)

-- A value that has kept its place is not written.
def setSlots (E : Engine σ V) : Nat → List (ValueSlot V) → σ → Bool × σ
  | _, [], engine => (true, engine)
  | n, slot :: slots, engine =>
      if slot.pos = n then setSlots E (n + 1) slots engine
      else
        match E.setProperty engine n slot.val with
        | (true, engine) => setSlots E (n + 1) slots engine
        | (false, engine) => (false, engine)

def fill (write : σ → Nat → Bool × σ) : Nat → Nat → σ → Bool × σ
  | _, 0, engine => (true, engine)
  | i, count + 1, engine =>
      match write engine i with
      | (true, engine) => fill write (i + 1) count engine
      | (false, engine) => (false, engine)

def setUndefined (E : Engine σ V) (undefined : V) (i count : Nat) (engine : σ) : Bool × σ :=
  fill (fun engine i => E.setProperty engine i undefined) i count engine

def deleteFrom (E : Engine σ V) (i count : Nat) (engine : σ) : Bool × σ :=
  fill E.deleteProperty i count engine

def writeBack (E : Engine σ V) (undefined : V) (slots : List (ValueSlot V))
    (undefinedCount len : Nat) (engine : σ) : Bool × σ :=
  match setSlots E 0 slots engine with
  | (false, engine) => (false, engine)
  | (true, engine) =>
      match setUndefined E undefined slots.length undefinedCount engine with
      | (false, engine) => (false, engine)
      | (true, engine) =>
          let i := slots.length + undefinedCount
          deleteFrom E i (len - i) engine

-- `false` stands for an exception.
def jsArraySort (E : Engine σ V) (hasMethod : Bool) (undefined : V) (len : Nat) (engine : σ) :
    Option (Bool × σ) :=
  match readSlots E undefined 0 len engine with
  | (none, engine) => some (false, engine)
  | (some (array, undefinedCount), engine) => do
      let (slots, exception, engine) ← sortSlots E hasMethod array engine
      if exception then pure (false, engine)
      else pure (writeBack E undefined slots undefinedCount len engine)

theorem jsStringCompare_cons (c1 c2 : UInt16) (s1 s2 : List UInt16) :
    jsStringCompare (c1 :: s1) (c2 :: s2) =
      if c1 ≠ c2 then (c1.toNat : Int) - c2.toNat else jsStringCompare s1 s2 := by
  have shorter : min (s1.length + 1) (s2.length + 1) = min s1.length s2.length + 1 := by omega
  simp only [jsStringCompare, List.length_cons, shorter, jsStringMemcmp]
  by_cases same : c1 = c2
  · simp only [same, ne_eq, not_true_eq_false, if_false]
    split_ifs with equal
    · simp only [compareU32]
      split_ifs <;> omega
    · rfl
  · have differ : (c1.toNat : Int) - c2.toNat ≠ 0 := by
      intro zero
      exact same (UInt16.toNat_inj.mp (by omega))
    simp only [ne_eq, same, not_false_eq_true, if_true, differ, if_false]

theorem jsStringCompare_self (s : List UInt16) : jsStringCompare s s = 0 := by
  induction s with
  | nil => rfl
  | cons c s ih => rw [jsStringCompare_cons, if_neg (not_not_intro rfl), ih]

theorem jsStringCompare_nil (s : List UInt16) : jsStringCompare [] s ≤ 0 := by
  cases s <;> simp [jsStringCompare, jsStringMemcmp, compareU32]

theorem jsStringCompare_trans {s1 s2 s3 : List UInt16} (first : jsStringCompare s1 s2 ≤ 0)
    (second : jsStringCompare s2 s3 ≤ 0) : jsStringCompare s1 s3 ≤ 0 := by
  induction s1 generalizing s2 s3 with
  | nil => exact jsStringCompare_nil s3
  | cons c1 s1 ih =>
      cases s2 with
      | nil => simp [jsStringCompare, jsStringMemcmp, compareU32] at first
      | cons c2 s2 =>
          cases s3 with
          | nil => simp [jsStringCompare, jsStringMemcmp, compareU32] at second
          | cons c3 s3 =>
              rw [jsStringCompare_cons] at first second ⊢
              by_cases left : c1 = c2
              · subst left
                rw [if_neg (not_not_intro rfl)] at first
                by_cases right : c1 = c3
                · subst right
                  rw [if_neg (not_not_intro rfl)] at second ⊢
                  exact ih first second
                · rw [if_pos right] at second ⊢
                  exact second
              · have less : c1.toNat ≠ c2.toNat := fun equal => left (UInt16.toNat_inj.mp equal)
                rw [if_pos left] at first
                by_cases right : c2 = c3
                · subst right
                  rw [if_pos left]
                  exact first
                · have more : c2.toNat ≠ c3.toNat :=
                    fun equal => right (UInt16.toNat_inj.mp equal)
                  rw [if_pos right] at second
                  have apart : c1 ≠ c3 := by
                    rintro rfl
                    omega
                  rw [if_pos apart]
                  omega

theorem jsStringCompare_neg (s1 s2 : List UInt16) :
    jsStringCompare s2 s1 = -jsStringCompare s1 s2 := by
  induction s1 generalizing s2 with
  | nil =>
      cases s2 with
      | nil => rfl
      | cons c2 s2 => simp [jsStringCompare, jsStringMemcmp, compareU32]
  | cons c1 s1 ih =>
      cases s2 with
      | nil => simp [jsStringCompare, jsStringMemcmp, compareU32]
      | cons c2 s2 =>
          rw [jsStringCompare_cons, jsStringCompare_cons, ih]
          by_cases same : c1 = c2
          · simp [same]
          · simp only [ne_eq, same, Ne.symm same, not_false_eq_true, if_true]
            omega

def Engine.keyLe (E : Engine σ V) (hasMethod : Bool) (le : V → V → Prop) (a b : ValueSlot V) :
    Prop :=
  if hasMethod then le a.val b.val else jsStringCompare (E.text a) (E.text b) ≤ 0

def stableLe (key : ValueSlot V → ValueSlot V → Prop) (a b : ValueSlot V) : Prop :=
  key a b ∧ (key b a → a.pos ≤ b.pos)

def Engine.Consistent (E : Engine σ V) (le : V → V → Prop) : Prop :=
  ∀ engine x y val, (E.call engine x y).1 = some val → (val ≤ 0 ↔ le x y) ∧ (0 ≤ val ↔ le y x)

section Order

variable {E : Engine σ V} {hasMethod : Bool} {le : V → V → Prop}
variable {key : ValueSlot V → ValueSlot V → Prop}

omit [DecidableEq V] in
theorem keyLe_preorder (E : Engine σ V) (hasMethod : Bool) (le : V → V → Prop)
    [IsPreorder V le] : IsPreorder (ValueSlot V) (E.keyLe hasMethod le) := by
  cases hasMethod with
  | true =>
      exact { refl := fun a => refl_of le a.val
              trans := fun a b c first second => trans_of le first second }
  | false =>
      refine { refl := fun a => ?_, trans := fun a b c first second => ?_ }
      · exact Int.le_of_eq (jsStringCompare_self _)
      · exact jsStringCompare_trans first second

omit [DecidableEq V] in
theorem stableLe_preorder (key : ValueSlot V → ValueSlot V → Prop)
    [IsPreorder (ValueSlot V) key] : IsPreorder (ValueSlot V) (stableLe key) := by
  refine { refl := fun a => ⟨refl_of key a, fun _ => le_rfl⟩
           trans := fun a b c first second => ?_ }
  refine ⟨trans_of key first.1 second.1, fun back => ?_⟩
  have left := first.2 (trans_of key second.1 back)
  have right := second.2 (trans_of key back first.1)
  exact left.trans right

omit [DecidableEq V] in
theorem cmpSame_judges {a b : ValueSlot V} {cmp : Int} (before : cmp ≤ 0 ↔ key a b)
    (after : 0 ≤ cmp ↔ key b a) :
    (cmpSame a b cmp ≤ 0 → stableLe key a b) ∧ (0 ≤ cmpSame a b cmp → stableLe key b a) := by
  simp only [cmpSame, stableLe, ← before, ← after, compareU32]
  split_ifs with differ greater less
  · omega
  · omega
  · omega
  · omega

theorem cmpGeneric_judges [IsPreorder V le] (consistent : hasMethod = true → E.Consistent le) :
    Judges (jsArrayCmpGeneric E hasMethod) (stableLe (E.keyLe hasMethod le))
      fun psc => psc.exception = false := by
  have answers : ∀ psc a b, (jsArrayCmpGeneric E hasMethod psc a b).2.exception = false →
      psc.exception = false ∧ ∃ cmp, (jsArrayCmpGeneric E hasMethod psc a b).1 = cmpSame a b cmp ∧
        (cmp ≤ 0 ↔ E.keyLe hasMethod le a b) ∧ (0 ≤ cmp ↔ E.keyLe hasMethod le b a) := by
    intro psc a b fine
    simp only [jsArrayCmpGeneric] at fine ⊢
    cases thrown : psc.exception with
    | true => simp [thrown] at fine
    | false =>
        refine ⟨rfl, ?_⟩
        simp only [thrown, Bool.false_eq_true, if_false] at fine ⊢
        cases hasMethod with
        | true =>
            simp only [if_true, Engine.keyLe] at fine ⊢
            by_cases same : a.val = b.val
            · simp only [same, if_true]
              exact ⟨0, rfl, by simp [refl_of le b.val], by simp [refl_of le b.val]⟩
            · simp only [same, if_false] at fine ⊢
              cases called : E.call psc.engine a.val b.val with
              | mk answer engine =>
                  cases answer with
                  | none => simp [called] at fine
                  | some val =>
                      have judged := consistent rfl psc.engine a.val b.val val (by rw [called])
                      exact ⟨_, rfl, Int.sign_nonpos_iff.trans judged.1,
                        Int.sign_nonneg_iff.trans judged.2⟩
        | false =>
            simp only [Bool.false_eq_true, if_false, Engine.keyLe] at fine ⊢
            cases first : (toStr E a psc).exception with
            | true => simp [first] at fine
            | false =>
                simp only [first, Bool.false_eq_true, if_false] at fine ⊢
                cases second : (toStr E b (toStr E a psc)).exception with
                | true => simp [second] at fine
                | false =>
                    refine ⟨_, rfl, Iff.rfl, ?_⟩
                    rw [jsStringCompare_neg (E.text a) (E.text b)]
                    omega
  constructor
  · intro psc a b fine
    exact (answers psc a b fine).1
  · intro psc a b fine low
    obtain ⟨_, cmp, same, before, after⟩ := answers psc a b fine
    exact (cmpSame_judges before after).1 (same ▸ low)
  · intro psc a b fine high
    obtain ⟨_, cmp, same, before, after⟩ := answers psc a b fine
    exact (cmpSame_judges before after).2 (same ▸ high)

theorem toStr_quiet (converts : ∀ engine x, (E.converts engine x).1 = true)
    (slot : ValueSlot V) (psc : SortContext σ V) :
    (toStr E slot psc).exception = psc.exception := by
  simp only [toStr, converts, if_true]
  split_ifs <;> rfl

theorem cmpGeneric_quiet (calls : ∀ engine x y, ((E.call engine x y).1).isSome = true)
    (converts : ∀ engine x, (E.converts engine x).1 = true) (psc : SortContext σ V)
    (a b : ValueSlot V) (quiet : psc.exception = false) :
    (jsArrayCmpGeneric E hasMethod psc a b).2.exception = false := by
  simp only [jsArrayCmpGeneric, toStr_quiet converts, quiet, Bool.false_eq_true, if_false]
  cases hasMethod with
  | true =>
      simp only [if_true]
      split_ifs
      · exact quiet
      · cases called : E.call psc.engine a.val b.val with
        | mk answer engine =>
            cases answer with
            | none =>
                have some := calls psc.engine a.val b.val
                rw [called] at some
                cases some
            | some val => rfl
  | false =>
      simp only [Bool.false_eq_true, if_false]
      rw [toStr_quiet converts, toStr_quiet converts]
      exact quiet

end Order

abbrev Elements (V : Type) : Type := Nat → Option V

-- Elements that are read without effect. A write may be refused.
structure Engine.Ordinary (E : Engine σ V) (elements : σ → Elements V) : Prop where
  get : ∀ engine i, E.tryGetProperty engine i = (some (elements engine i), engine)
  set : ∀ engine i val, elements (E.setProperty engine i val).2 =
    if (E.setProperty engine i val).1 then Function.update (elements engine) i (some val)
    else elements engine
  delete : ∀ engine i, elements (E.deleteProperty engine i).2 =
    if (E.deleteProperty engine i).1 then Function.update (elements engine) i none
    else elements engine

def slotAt (undefined : V) (elements : Elements V) (i : Nat) : Option (ValueSlot V) :=
  match elements i with
  | some val => if val = undefined then none else some ⟨val, i⟩
  | none => none

def collect (undefined : V) (elements : Elements V) (len : Nat) : List (ValueSlot V) :=
  (List.range len).filterMap (slotAt undefined elements)

def undefinedCount (undefined : V) (elements : Elements V) (len : Nat) : Nat :=
  (List.range len).countP fun i => elements i = some undefined

section Reads

variable {E : Engine σ V} {view : σ → Elements V} {undefined : V} {elements : Elements V}
  {len : Nat}

theorem readSlots_range (ordinary : E.Ordinary view) (undefined : V) (i left : Nat) (engine : σ) :
    readSlots E undefined i left engine =
      (some ((List.range' i left).filterMap (slotAt undefined (view engine)),
        (List.range' i left).countP fun i => view engine i = some undefined), engine) := by
  induction left generalizing i with
  | zero => rfl
  | succ left ih =>
      rw [readSlots, ordinary.get]
      simp only [ih, List.range'_succ, List.filterMap_cons, List.countP_cons, slotAt]
      cases held : view engine i with
      | none => simp
      | some val =>
          by_cases missing : val = undefined
          · simp [missing]
          · simp [missing]

theorem readSlots_eq (ordinary : E.Ordinary view) (undefined : V) (len : Nat) (engine : σ) :
    readSlots E undefined 0 len engine =
      (some (collect undefined (view engine) len, undefinedCount undefined (view engine) len),
        engine) := by
  rw [readSlots_range ordinary, collect, undefinedCount, List.range_eq_range']

theorem slotAt_eq {i : Nat} {slot : ValueSlot V} (read : slotAt undefined elements i = some slot) :
    slot.pos = i ∧ elements i = some slot.val := by
  cases held : elements i with
  | none => simp [slotAt, held] at read
  | some val =>
      simp only [slotAt, held, Option.ite_none_left_eq_some, Option.some.injEq] at read
      rw [← read.2]
      exact ⟨rfl, rfl⟩

theorem mem_collect {slot : ValueSlot V} (member : slot ∈ collect undefined elements len) :
    elements slot.pos = some slot.val := by
  obtain ⟨i, _, read⟩ := List.mem_filterMap.mp member
  obtain ⟨rfl, held⟩ := slotAt_eq read
  exact held

theorem collect_places (undefined : V) (elements : Elements V) (len : Nat) :
    (collect undefined elements len).Pairwise fun a b => a.pos ≠ b.pos := by
  rw [collect, List.pairwise_filterMap]
  apply List.pairwise_lt_range.imp
  intro i j less a first b second
  have left := slotAt_eq first
  have right := slotAt_eq second
  omega

end Reads

abbrev Write (V : Type) : Type := Nat × Option V

def place (elements : Elements V) (write : Write V) : Elements V :=
  Function.update elements write.1 write.2

def slotWrites : Nat → List (ValueSlot V) → List (Write V)
  | _, [] => []
  | n, slot :: slots =>
      if slot.pos = n then slotWrites (n + 1) slots
      else (n, some slot.val) :: slotWrites (n + 1) slots

def fillWrites (value : Option V) (i count : Nat) : List (Write V) :=
  (List.range' i count).map fun i => (i, value)

def writes (undefined : V) (slots : List (ValueSlot V)) (undefinedCount len : Nat) :
    List (Write V) :=
  slotWrites 0 slots ++ fillWrites (some undefined) slots.length undefinedCount ++
    fillWrites none (slots.length + undefinedCount) (len - (slots.length + undefinedCount))

def write (E : Engine σ V) (engine : σ) : Write V → Bool × σ
  | (i, some val) => E.setProperty engine i val
  | (i, none) => E.deleteProperty engine i

def perform (E : Engine σ V) : List (Write V) → σ → Bool × σ
  | [], engine => (true, engine)
  | next :: later, engine =>
      match write E engine next with
      | (true, engine) => perform E later engine
      | (false, engine) => (false, engine)

section Writes

variable {E : Engine σ V} {view : σ → Elements V} {undefined : V} {elements : Elements V}
  {slots : List (ValueSlot V)} {ws : List (Write V)} {i n : Nat} {value : Option V}

omit [DecidableEq V] in
theorem perform_append (first second : List (Write V)) (engine : σ) :
    perform E (first ++ second) engine =
      match perform E first engine with
      | (true, engine) => perform E second engine
      | (false, engine) => (false, engine) := by
  induction first generalizing engine with
  | nil => rfl
  | cons next later ih =>
      rw [List.cons_append, perform, perform]
      rcases write E engine next with ⟨_ | _, engine'⟩
      · rfl
      · exact ih engine'

omit [DecidableEq V] in
theorem setSlots_perform (n : Nat) (slots : List (ValueSlot V)) (engine : σ) :
    setSlots E n slots engine = perform E (slotWrites n slots) engine := by
  induction slots generalizing n engine with
  | nil => rfl
  | cons slot slots ih =>
      rw [setSlots, slotWrites]
      split_ifs with kept
      · exact ih _ _
      · simp only [perform, write]
        rcases E.setProperty engine n slot.val with ⟨_ | _, engine'⟩
        · rfl
        · exact ih _ _

omit [DecidableEq V] in
theorem fill_perform (value : Option V) (i count : Nat) (engine : σ) :
    fill (fun engine i => write E engine (i, value)) i count engine =
      perform E (fillWrites value i count) engine := by
  induction count generalizing i engine with
  | zero => rfl
  | succ count ih =>
      rw [fill, fillWrites, List.range'_succ, List.map_cons, perform]
      rcases write E engine (i, value) with ⟨_ | _, engine'⟩
      · rfl
      · exact ih _ _

omit [DecidableEq V] in
theorem writeBack_perform (undefined : V) (slots : List (ValueSlot V)) (count len : Nat)
    (engine : σ) :
    writeBack E undefined slots count len engine =
      perform E (writes undefined slots count len) engine := by
  have undefineds (engine : σ) : setUndefined E undefined slots.length count engine =
      perform E (fillWrites (some undefined) slots.length count) engine :=
    fill_perform (some undefined) slots.length count engine
  have holes (engine : σ) :
      deleteFrom E (slots.length + count) (len - (slots.length + count)) engine =
        perform E (fillWrites none (slots.length + count) (len - (slots.length + count))) engine :=
    fill_perform none _ _ engine
  rw [writeBack, writes, perform_append, perform_append, setSlots_perform]
  rcases perform E (slotWrites 0 slots) engine with ⟨_ | _, engine₁⟩
  · rfl
  · simp only [undefineds]
    rcases perform E (fillWrites (some undefined) slots.length count) engine₁ with
      ⟨_ | _, engine₂⟩
    · rfl
    · exact holes engine₂

omit [DecidableEq V] in
theorem write_ordinary (ordinary : E.Ordinary view) (engine : σ) (next : Write V) :
    view (write E engine next).2 =
      if (write E engine next).1 then place (view engine) next else view engine := by
  obtain ⟨i, value⟩ := next
  cases value with
  | none => exact ordinary.delete engine i
  | some val => exact ordinary.set engine i val

omit [DecidableEq V] in
theorem perform_ordinary (ordinary : E.Ordinary view) (ws : List (Write V)) (engine : σ) :
    ∃ made refused, ws = made ++ refused ∧
      ((perform E ws engine).1 = true ↔ refused = []) ∧
      view (perform E ws engine).2 = made.foldl place (view engine) := by
  induction ws generalizing engine with
  | nil => exact ⟨[], [], rfl, by simp [perform], rfl⟩
  | cons next later ih =>
      have first := write_ordinary ordinary engine next
      rw [perform]
      rcases result : write E engine next with ⟨_ | _, engine'⟩
      · rw [result] at first
        refine ⟨[], next :: later, rfl, by simp, ?_⟩
        simpa using first
      · rw [result] at first
        obtain ⟨made, refused, rfl, all, after⟩ := ih engine'
        refine ⟨next :: made, refused, rfl, all, ?_⟩
        rw [List.foldl_cons, after]
        exact congrArg (made.foldl place) (by simpa using first)

omit [DecidableEq V] in
theorem foldl_place_of_notMem (absent : ∀ value, (i, value) ∉ ws) :
    ws.foldl place elements i = elements i := by
  induction ws generalizing elements with
  | nil => rfl
  | cons next ws ih =>
      rw [List.foldl_cons, ih fun value member => absent value (List.mem_cons_of_mem _ member)]
      refine Function.update_of_ne ?_ _ _
      rintro rfl
      exact absent next.2 List.mem_cons_self

omit [DecidableEq V] in
theorem foldl_place_of_mem (increasing : (ws.map Prod.fst).Pairwise (· < ·))
    (member : (i, value) ∈ ws) : ws.foldl place elements i = value := by
  induction ws generalizing elements with
  | nil => cases member
  | cons next ws ih =>
      rw [List.map_cons, List.pairwise_cons] at increasing
      rw [List.foldl_cons]
      rcases List.mem_cons.mp member with rfl | later
      · rw [foldl_place_of_notMem, place, Function.update_self]
        intro value again
        exact absurd (increasing.1 i (List.mem_map_of_mem again)) (Nat.lt_irrefl i)
      · exact ih increasing.2 later

omit [DecidableEq V] in
theorem mem_slotWrites : (i, value) ∈ slotWrites n slots ↔
    ∃ k slot, slots[k]? = some slot ∧ i = n + k ∧ slot.pos ≠ i ∧ value = some slot.val := by
  induction slots generalizing n with
  | nil => simp [slotWrites]
  | cons first slots ih =>
      have later : (i, value) ∈ slotWrites (n + 1) slots ↔
          ∃ k slot, (first :: slots)[k + 1]? = some slot ∧ i = n + (k + 1) ∧ slot.pos ≠ i ∧
            value = some slot.val := by
        rw [ih]
        simp only [List.getElem?_cons_succ, Nat.add_assoc, Nat.add_comm 1]
      have here : (∃ k slot, (first :: slots)[k]? = some slot ∧ i = n + k ∧ slot.pos ≠ i ∧
          value = some slot.val) ↔ (i = n ∧ first.pos ≠ i ∧ value = some first.val) ∨
            (i, value) ∈ slotWrites (n + 1) slots := by
        rw [later]
        constructor
        · rintro ⟨_ | k, slot, read, rest⟩
          · cases read
            exact .inl rest
          · exact .inr ⟨k, slot, read, rest⟩
        · rintro (rest | ⟨k, slot, read, rest⟩)
          · exact ⟨0, first, rfl, rest⟩
          · exact ⟨k + 1, slot, read, rest⟩
      rw [here, slotWrites]
      split_ifs with kept
      · constructor
        · exact .inr
        · rintro (⟨rfl, moved, _⟩ | rest)
          · exact absurd kept moved
          · exact rest
      · rw [List.mem_cons, Prod.mk.injEq]
        refine or_congr_left ⟨?_, ?_⟩
        · rintro ⟨rfl, rfl⟩
          exact ⟨rfl, kept, rfl⟩
        · rintro ⟨rfl, _, rfl⟩
          exact ⟨rfl, rfl⟩

omit [DecidableEq V] in
theorem mem_fillWrites {filler : Option V} {first count : Nat} :
    (i, value) ∈ fillWrites filler first count ↔
      first ≤ i ∧ i < first + count ∧ value = filler := by
  simp only [fillWrites, List.mem_map, List.mem_range'_1, Prod.mk.injEq]
  constructor
  · rintro ⟨j, inside, rfl, rfl⟩
    exact ⟨inside.1, inside.2, rfl⟩
  · rintro ⟨low, high, rfl⟩
    exact ⟨i, ⟨low, high⟩, rfl, rfl⟩

omit [DecidableEq V] in
theorem slotWrites_increasing (n : Nat) (slots : List (ValueSlot V)) :
    ((slotWrites n slots).map Prod.fst).Pairwise (· < ·) := by
  induction slots generalizing n with
  | nil => exact List.Pairwise.nil
  | cons slot slots ih =>
      rw [slotWrites]
      split_ifs
      · exact ih (n + 1)
      · rw [List.map_cons, List.pairwise_cons]
        refine ⟨?_, ih (n + 1)⟩
        intro j member
        obtain ⟨⟨_, value⟩, listed, rfl⟩ := List.mem_map.mp member
        obtain ⟨k, _, _, place, _⟩ := mem_slotWrites.mp listed
        simp only at place ⊢
        omega

omit [DecidableEq V] in
theorem fillWrites_places (filler : Option V) (first count : Nat) :
    (fillWrites filler first count).map Prod.fst = List.range' first count := by
  rw [fillWrites, List.map_map]
  exact List.map_id _

omit [DecidableEq V] in
theorem writes_increasing (undefined : V) (slots : List (ValueSlot V)) (count len : Nat) :
    ((writes undefined slots count len).map Prod.fst).Pairwise (· < ·) := by
  have before {j : Nat} (member : j ∈ (slotWrites 0 slots).map Prod.fst) : j < slots.length := by
    obtain ⟨⟨_, value⟩, listed, rfl⟩ := List.mem_map.mp member
    obtain ⟨k, slot, read, place, _⟩ := mem_slotWrites.mp listed
    have := (List.getElem?_eq_some_iff.mp read).1
    simp only at place ⊢
    omega
  rw [writes, List.map_append, List.map_append, fillWrites_places, fillWrites_places,
    List.pairwise_append, List.pairwise_append]
  refine ⟨⟨slotWrites_increasing 0 slots, List.pairwise_lt_range', ?_⟩,
    List.pairwise_lt_range', ?_⟩
  · intro a first b second
    have := before first
    rw [List.mem_range'_1] at second
    omega
  · intro a first b second
    rw [List.mem_range'_1] at second
    rcases List.mem_append.mp first with slot | filled
    · have := before slot
      omega
    · rw [List.mem_range'_1] at filled
      omega

omit [DecidableEq V] in
theorem foldl_writes (undefined : V) (slots : List (ValueSlot V)) (count len : Nat)
    (elements : Elements V) (i : Nat) :
    (writes undefined slots count len).foldl place elements i =
      match slots[i]? with
      | some slot => if slot.pos = i then elements i else some slot.val
      | none =>
          if i < slots.length + count then some undefined
          else if i < len then none else elements i := by
  have order := writes_increasing undefined slots count len
  have listed (value : Option V) : (i, value) ∈ writes undefined slots count len ↔
      (∃ slot, slots[i]? = some slot ∧ slot.pos ≠ i ∧ value = some slot.val) ∨
        (slots.length ≤ i ∧ i < slots.length + count ∧ value = some undefined) ∨
        (slots.length + count ≤ i ∧ i < len ∧ value = none) := by
    rw [writes, List.mem_append, List.mem_append, mem_slotWrites, mem_fillWrites, mem_fillWrites,
      or_assoc]
    refine or_congr ⟨?_, ?_⟩ (or_congr_right ?_)
    · rintro ⟨k, slot, read, here, rest⟩
      rw [Nat.zero_add] at here
      exact ⟨slot, here ▸ read, rest⟩
    · rintro ⟨slot, read, rest⟩
      exact ⟨i, slot, read, (Nat.zero_add i).symm, rest⟩
    · refine and_congr_right fun low => and_congr_left fun _ => ?_
      omega
  cases read : slots[i]? with
  | some slot =>
      have inside := (List.getElem?_eq_some_iff.mp read).1
      simp only
      split_ifs with kept
      · refine foldl_place_of_notMem fun value member => ?_
        rcases (listed value).mp member with ⟨slot', read', moved, _⟩ | ⟨low, _⟩ | ⟨low, _⟩
        · rw [read, Option.some.injEq] at read'
          exact moved (read' ▸ kept)
        · omega
        · omega
      · exact foldl_place_of_mem order ((listed _).mpr (.inl ⟨slot, read, kept, rfl⟩))
  | none =>
      have outside := List.getElem?_eq_none_iff.mp read
      simp only
      split_ifs with missing hole
      · exact foldl_place_of_mem order ((listed _).mpr (.inr (.inl ⟨outside, missing, rfl⟩)))
      · exact foldl_place_of_mem order
          ((listed _).mpr (.inr (.inr ⟨Nat.le_of_not_lt missing, hole, rfl⟩)))
      · refine foldl_place_of_notMem fun value member => ?_
        rcases (listed value).mp member with ⟨slot', read', _⟩ | ⟨_, high, _⟩ | ⟨_, high, _⟩
        · rw [read] at read'
          cases read'
        · exact missing high
        · exact hole high

omit [DecidableEq V] in
theorem writeBack_ordinary (ordinary : E.Ordinary view) (undefined : V)
    (slots : List (ValueSlot V)) (count len : Nat) (engine : σ) :
    ∃ made refused, writes undefined slots count len = made ++ refused ∧
      ((writeBack E undefined slots count len engine).1 = true ↔ refused = []) ∧
      view (writeBack E undefined slots count len engine).2 = made.foldl place (view engine) := by
  rw [writeBack_perform]
  exact perform_ordinary ordinary _ engine

omit [DecidableEq V] in
theorem writeBack_done (ordinary : E.Ordinary view) (undefined : V) (slots : List (ValueSlot V))
    (count len : Nat) (engine : σ)
    (done : (writeBack E undefined slots count len engine).1 = true) (i : Nat) :
    view (writeBack E undefined slots count len engine).2 i =
      match slots[i]? with
      | some slot => if slot.pos = i then view engine i else some slot.val
      | none =>
          if i < slots.length + count then some undefined
          else if i < len then none else view engine i := by
  obtain ⟨made, refused, split, all, after⟩ :=
    writeBack_ordinary ordinary undefined slots count len engine
  rw [all.mp done, List.append_nil] at split
  rw [after, ← split]
  exact foldl_writes undefined slots count len (view engine) i

end Writes

section Whole

variable {le : V → V → Prop} [IsPreorder V le]

theorem sortSlots_stable (E : Engine σ V) (hasMethod : Bool)
    (consistent : hasMethod = true → E.Consistent le) {array : List (ValueSlot V)}
    (places : array.Pairwise fun a b => a.pos ≠ b.pos) (engine : σ) :
    ∃ slots thrown between, sortSlots E hasMethod array engine = some (slots, thrown, between) ∧
      slots.Perm array ∧
      ((∀ engine x y, ((E.call engine x y).1).isSome = true) →
        (∀ engine x, (E.converts engine x).1 = true) → thrown = false) ∧
      (thrown = false → slots.Pairwise fun a b => E.keyLe hasMethod le a b ∧
        (E.keyLe hasMethod le b a → a.pos < b.pos)) := by
  have keyOrder : IsPreorder (ValueSlot V) (E.keyLe hasMethod le) := keyLe_preorder E hasMethod le
  have order : IsPreorder (ValueSlot V) (stableLe (E.keyLe hasMethod le)) := stableLe_preorder _
  obtain ⟨sorted, ends, moves, sorts⟩ := rqsort_yields (cmpGeneric_judges consistent)
    ⟨⟨engine, false, fun _ => false⟩, array.toArray⟩
  have perm : sorted.base.toList.Perm array := Array.perm_iff_toList_perm.mp moves.shuffles.perm
  refine ⟨sorted.base.toList, sorted.ctx.exception, sorted.ctx.engine, ?_, perm, ?_, ?_⟩
  · rw [sortSlots, ends]
    rfl
  · exact fun calls converts => moves.toLater.keeps (fun psc => psc.exception = false)
      (cmpGeneric_quiet calls converts) rfl
  · intro quiet
    have apart := perm.symm.pairwise places fun differ => Ne.symm differ
    apply ((sorts quiet).and apart).imp
    intro a b both
    exact ⟨both.1.1, fun back => Nat.lt_of_le_of_ne (both.1.2 back) both.2⟩

/-- Of ordinary elements, the values are sorted in the order of the method (of the strings, without
one), equal ones in the order they were in. Unless a call or a conversion throws, they are written
back with every `undefined` and then the holes behind them, up to a write that is refused. A value
that has kept its place is not written, so that it is there what the method has left. -/
theorem jsArraySort_stable (E : Engine σ V) (hasMethod : Bool) (view : σ → Elements V)
    (ordinary : E.Ordinary view) (consistent : hasMethod = true → E.Consistent le) (undefined : V)
    (len : Nat) (engine : σ) :
    ∃ slots thrown between done after,
      sortSlots E hasMethod (collect undefined (view engine) len) engine =
        some (slots, thrown, between) ∧
      jsArraySort E hasMethod undefined len engine = some (done, after) ∧
      ((∀ engine x y, ((E.call engine x y).1).isSome = true) →
        (∀ engine x, (E.converts engine x).1 = true) → thrown = false) ∧
      (thrown = true → done = false ∧ after = between) ∧
      (thrown = false →
        slots.Perm (collect undefined (view engine) len) ∧
        slots.Pairwise (fun a b => E.keyLe hasMethod le a b ∧
          (E.keyLe hasMethod le b a → a.pos < b.pos)) ∧
        ∃ made refused,
          writes undefined slots (undefinedCount undefined (view engine) len) len =
            made ++ refused ∧
          (done = true ↔ refused = []) ∧ view after = made.foldl place (view between)) ∧
      (done = true → ∀ i, view after i =
        match slots[i]? with
        | some slot => if slot.pos = i then view between i else some slot.val
        | none =>
            if i < slots.length + undefinedCount undefined (view engine) len then some undefined
            else if i < len then none else view between i) ∧
      (done = true → view between = view engine → ∀ (i : Nat) (slot : ValueSlot V),
        slots[i]? = some slot → view after i = some slot.val) := by
  obtain ⟨slots, thrown, between, ends, perm, quiet, sorts⟩ := sortSlots_stable E hasMethod
    consistent (collect_places undefined (view engine) len) engine
  cases thrown with
  | true =>
      refine ⟨slots, true, between, false, between, ends, ?_, quiet, fun _ => ⟨rfl, rfl⟩, ?_, ?_,
        ?_⟩
      · simp only [jsArraySort, readSlots_eq ordinary, ends, Option.bind_eq_bind, Option.bind_some]
        rfl
      all_goals
        intro no
        cases no
  | false =>
      obtain ⟨made, refused, split, all, after⟩ := writeBack_ordinary ordinary undefined slots
        (undefinedCount undefined (view engine) len) len between
      have whole := writeBack_done ordinary undefined slots
        (undefinedCount undefined (view engine) len) len between
      refine ⟨slots, false, between, _, _, ends, ?_, quiet, nofun,
        fun _ => ⟨perm, sorts rfl, made, refused, split, all, after⟩, whole, ?_⟩
      · simp only [jsArraySort, readSlots_eq ordinary, ends, Option.bind_eq_bind, Option.bind_some]
        rfl
      · intro done same i slot read
        rw [whole done i, read, same]
        simp only
        split_ifs with kept
        · have held := mem_collect (perm.mem_iff.mp (List.mem_of_getElem? read))
          rwa [kept] at held
        · rfl

def subtraction : Engine (Elements Nat) Nat where
  call := fun elements x y => (some ((x : Int) - y), elements)
  converts := fun elements _ => (true, elements)
  text := fun _ => []
  tryGetProperty := fun elements i => (some (elements i), elements)
  setProperty := fun elements i val => (true, Function.update elements i (some val))
  deleteProperty := fun elements i => (true, Function.update elements i none)

def threeAndOne : Elements Nat := fun i => [some 3, some 0, none, some 1].getD i none

theorem jsArraySort_stable_subtraction : ∃ slots between done after,
    sortSlots subtraction true (collect 0 threeAndOne 4) threeAndOne =
      some (slots, false, between) ∧
    jsArraySort subtraction true 0 4 threeAndOne = some (done, after) ∧
    slots.Perm (collect 0 threeAndOne 4) ∧ slots.Pairwise fun a b => a.val ≤ b.val := by
  have ordinary : subtraction.Ordinary id := ⟨fun _ _ => rfl, fun _ _ _ => rfl, fun _ _ => rfl⟩
  have consistent : subtraction.Consistent (· ≤ ·) := by
    intro elements x y val read
    cases read
    omega
  obtain ⟨slots, thrown, between, done, after, ends, runs, quiet, _, sorted, _⟩ :=
    jsArraySort_stable subtraction true id ordinary (fun _ => consistent) 0 4 threeAndOne
  obtain rfl := quiet (fun _ _ _ => rfl) (fun _ _ => rfl)
  obtain ⟨perm, order, _⟩ := sorted rfl
  exact ⟨slots, between, done, after, ends, runs, perm, order.imp And.left⟩

end Whole

end BreezeJs.ArraySort
