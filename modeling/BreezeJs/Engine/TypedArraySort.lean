import BreezeJs.Binding.StringMap
import BreezeJs.Engine.ArraySort

set_option autoImplicit false

namespace BreezeJs.ArraySort

open Rqsort Binding

def numKeysCmp (ctx : Unit) (atom1 atom2 : Atom) : Int × Unit :=
  (if num atom1 < num atom2 then -1 else if num atom1 = num atom2 then 0 else 1, ctx)

theorem numKeysCmp_judges : Judges numKeysCmp (fun a b => num a ≤ num b) fun _ => True where
  earlier := fun _ _ _ _ => trivial
  before := fun ctx a b _ low => by
    simp only [numKeysCmp] at low
    split_ifs at low <;> omega
  after := fun ctx a b _ high => by
    simp only [numKeysCmp] at high
    split_ifs at high <;> omega

theorem getOwnPropertyNames_rqsort (obj : Properties)
    (distinct : ∀ a ∈ numKeys obj, ∀ b ∈ numKeys obj, num a = num b → a = b) :
    ∃ t, rqsort numKeysCmp ⟨(), (numKeys obj).toArray⟩ = some t ∧
      getOwnPropertyNames obj = t.base.toList ++ strKeys obj := by
  obtain ⟨t, ends, moves, sorts⟩ := rqsort_yields numKeysCmp_judges ⟨(), (numKeys obj).toArray⟩
  refine ⟨t, ends, ?_⟩
  have perm : t.base.toList.Perm (numKeys obj) := Array.perm_iff_toList_perm.mp moves.shuffles.perm
  have merged : ((numKeys obj).mergeSort fun a b => decide (num a ≤ num b)).Pairwise
      fun a b => num a ≤ num b := by
    have sorted : ((numKeys obj).mergeSort fun a b => decide (num a ≤ num b)).Pairwise
        fun a b => decide (num a ≤ num b) = true :=
      List.pairwise_mergeSort (by simpa using fun a b c => Nat.le_trans)
        (by simpa using fun a b => Nat.le_total _ _) (numKeys obj)
    exact sorted.imp of_decide_eq_true
  have same : ((numKeys obj).mergeSort fun a b => decide (num a ≤ num b)) = t.base.toList := by
    refine List.Perm.eq_of_pairwise ?_ merged (sorts trivial)
      ((List.mergeSort_perm _ _).trans perm.symm)
    intro a b inA inB low high
    exact distinct a ((List.mergeSort_perm _ _).mem_iff.mp inA) b (perm.mem_iff.mp inB)
      (Nat.le_antisymm low high)
  rw [getOwnPropertyNames, same]

-- `array` is `none` while `typed_array_is_oob`.
structure TypedEngine (σ V : Type) where
  call : σ → V → V → Option Int × σ
  array : σ → Option (Array V)

structure TASortContext (σ : Type) where
  engine : σ
  exception : Bool

variable {σ V : Type}

def jsTACmpGeneric (E : TypedEngine σ V) (psc : TASortContext σ) (aIdx bIdx : Nat) :
    Int × TASortContext σ :=
  match E.array psc.engine with
  | none => (0, psc)
  | some p =>
      if psc.exception then (0, psc)
      else
        match p[aIdx]?, p[bIdx]? with
        | some a, some b =>
            match E.call psc.engine a b with
            | (some val, engine) =>
                (if val.sign = 0 then compareU32 aIdx bIdx else val.sign, { psc with engine })
            | (none, engine) => (0, { engine, exception := true })
        | _, _ => (0, psc)

inductive TypedSorted (V : Type) where
  | exception
  | unchanged
  | written (contents : List V)
deriving DecidableEq, Repr

-- `array_tmp[j]` for the indices in their new order; `none` is a read outside of `array_tmp`.
def readTmp (arrayTmp : List V) : List Nat → Option (List V)
  | [] => some []
  | j :: indices =>
      match arrayTmp[j]?, readTmp arrayTmp indices with
      | some value, some values => some (value :: values)
      | _, _ => none

def jsTypedArraySort (E : TypedEngine σ V) (engine : σ) : Option (TypedSorted V × σ) :=
  match E.array engine with
  | none => some (.exception, engine)
  | some p =>
      if 1 < p.size then do
        let arrayIdx ← rqsort (jsTACmpGeneric E) ⟨⟨engine, false⟩, (List.range p.size).toArray⟩
        if arrayIdx.ctx.exception then
          pure (.exception, arrayIdx.ctx.engine)
        else
          match E.array arrayIdx.ctx.engine with
          | none => pure (.unchanged, arrayIdx.ctx.engine)
          | some now => do
              let len := min p.size now.size
              let arrayTmp := now.toList.take len
              let values ← readTmp arrayTmp (arrayIdx.base.toList.take len)
              pure (.written (values ++ now.toList.drop len), arrayIdx.ctx.engine)
      else some (.unchanged, engine)

theorem readTmp_eq (arrayTmp : List V) (indices : List Nat) :
    (∃ values, readTmp arrayTmp indices = some values) ↔ ∀ j ∈ indices, j < arrayTmp.length := by
  induction indices with
  | nil => simp [readTmp]
  | cons j indices ih =>
      rw [List.forall_mem_cons, ← ih]
      simp only [readTmp]
      cases read : arrayTmp[j]? with
      | none =>
          have outside := List.getElem?_eq_none_iff.mp read
          simp [Nat.not_lt.mpr outside]
      | some value =>
          have inside := (List.getElem?_eq_some_iff.mp read).1
          cases later : readTmp arrayTmp indices with
          | none => simp
          | some values => simp [inside]

/-- When no call threw, a read outside of `array_tmp` is what an array that has become shorter comes
to, if one of the indices it has lost is sorted among the first; nothing else is outside, whatever
the comparison function does. -/
theorem jsTypedArraySort_outside_iff (E : TypedEngine σ V) {engine : σ} {p : Array V}
    (held : E.array engine = some p) (several : 1 < p.size) :
    ∃ t, rqsort (jsTACmpGeneric E) ⟨⟨engine, false⟩, (List.range p.size).toArray⟩ = some t ∧
      t.base.toList.Perm (List.range p.size) ∧
      (jsTypedArraySort E engine = none ↔ t.ctx.exception = false ∧
        ∃ now, E.array t.ctx.engine = some now ∧ now.size < p.size ∧
          ∃ j ∈ t.base.toList.take now.size, now.size ≤ j) := by
  have judges : Judges (jsTACmpGeneric E) (fun _ _ => True) (fun _ => False) :=
    ⟨fun _ _ _ no => no, fun _ _ _ no => no.elim, fun _ _ _ no => no.elim⟩
  have preorder : IsPreorder Nat fun _ _ => True :=
    { refl := fun _ => trivial, trans := fun _ _ _ _ _ => trivial }
  obtain ⟨t, ends, moves, _⟩ :=
    rqsort_yields judges ⟨⟨engine, false⟩, (List.range p.size).toArray⟩
  have perm : t.base.toList.Perm (List.range p.size) :=
    Array.perm_iff_toList_perm.mp moves.shuffles.perm
  refine ⟨t, ends, perm, ?_⟩
  simp only [jsTypedArraySort, held, several, if_true, ends, Option.bind_eq_bind,
    Option.bind_some]
  cases thrown : t.ctx.exception with
  | true => simp
  | false =>
      cases left : E.array t.ctx.engine with
      | none => simp
      | some now =>
          have indices := readTmp_eq (now.toList.take (min p.size now.size))
            (t.base.toList.take (min p.size now.size))
          have length : (now.toList.take (min p.size now.size)).length = min p.size now.size := by
            simp
          rw [length] at indices
          simp only [Bool.false_eq_true, if_false, true_and, Option.some.injEq, exists_eq_left']
          cases read : readTmp (now.toList.take (min p.size now.size))
              (t.base.toList.take (min p.size now.size)) with
          | some values =>
              have inside := indices.mp ⟨values, read⟩
              simp only [Option.bind_some, Option.pure_def, reduceCtorEq, false_iff, not_and]
              rintro shorter ⟨j, member, lost⟩
              rw [Nat.min_eq_right (Nat.le_of_lt shorter)] at inside
              exact absurd (inside j member) (Nat.not_lt.mpr lost)
          | none =>
              simp only [Option.bind_none, true_iff]
              have outside : ∃ j ∈ t.base.toList.take (min p.size now.size),
                  min p.size now.size ≤ j := by
                by_contra none
                push Not at none
                obtain ⟨values, some⟩ := indices.mpr none
                rw [read] at some
                cases some
              obtain ⟨j, member, lost⟩ := outside
              have index := List.mem_range.mp (perm.mem_iff.mp (List.mem_of_mem_take member))
              have shorter : now.size < p.size := by omega
              rw [Nat.min_eq_right (Nat.le_of_lt shorter)] at member lost
              exact ⟨shorter, j, member, lost⟩

def shrinking : TypedEngine Bool Nat where
  call := fun _ x y => (some ((y : Int) - x), true)
  array := fun shrunk => if shrunk then some #[1] else some #[1, 2]

theorem jsTypedArraySort_outside_iff_shrinking : ∃ t,
    rqsort (jsTACmpGeneric shrinking) ⟨⟨false, false⟩, (List.range 2).toArray⟩ = some t ∧
      t.base.toList.Perm (List.range 2) ∧
      (jsTypedArraySort shrinking false = none ↔ t.ctx.exception = false ∧
        ∃ now, shrinking.array t.ctx.engine = some now ∧ now.size < 2 ∧
          ∃ j ∈ t.base.toList.take now.size, now.size ≤ j) :=
  jsTypedArraySort_outside_iff shrinking (p := #[1, 2]) rfl (by decide)

example : jsTypedArraySort shrinking false = none := by decide

end BreezeJs.ArraySort
