import Mathlib.Data.List.Basic
import Mathlib.Logic.Function.Basic
import Mathlib.Logic.Relation

set_option autoImplicit false

namespace BreezeJs.Gc

-- `children p` lists what `mark_children` calls its function with for `p`, in this order; a failed
-- assertion is `none`.

variable {ν : Type} [DecidableEq ν]

structure Heap (ν : Type) where
  refCount : ν → Nat
  mark : ν → Bool
  gcObjList : List ν
  tmpObjList : List ν

def Heap.setRefCount (h : Heap ν) (p : ν) (count : Nat) : Heap ν :=
  { h with refCount := Function.update h.refCount p count }

def Heap.setMark (h : Heap ν) (p : ν) (mark : Bool) : Heap ν :=
  { h with mark := Function.update h.mark p mark }

def Heap.moveToTmp (h : Heap ν) (p : ν) : Heap ν :=
  { h with gcObjList := h.gcObjList.erase p, tmpObjList := h.tmpObjList ++ [p] }

def Heap.moveToGc (h : Heap ν) (p : ν) : Heap ν :=
  { h with tmpObjList := h.tmpObjList.erase p, gcObjList := h.gcObjList ++ [p] }

def gcDecrefChild (h : Heap ν) (p : ν) : Option (Heap ν) :=
  if 0 < h.refCount p then
    let h := h.setRefCount p (h.refCount p - 1)
    some (if h.refCount p = 0 ∧ h.mark p = true then h.moveToTmp p else h)
  else none

def gcDecrefObject (children : ν → List ν) (h : Heap ν) (p : ν) : Option (Heap ν) :=
  if h.mark p then none
  else
    ((children p).foldlM gcDecrefChild h).map fun h =>
      let h := h.setMark p true
      if h.refCount p = 0 then h.moveToTmp p else h

-- Only marked objects leave the list, so the walk is over the list as it was.
def gcDecref (children : ν → List ν) (h : Heap ν) : Option (Heap ν) :=
  h.gcObjList.foldlM (gcDecrefObject children) { h with tmpObjList := [] }

def gcScanIncrefChild (h : Heap ν) (p : ν) : Heap ν :=
  let h := h.setRefCount p (h.refCount p + 1)
  if h.refCount p = 1 then (h.moveToGc p).setMark p false else h

def gcScanIncrefChild2 (h : Heap ν) (p : ν) : Heap ν :=
  h.setRefCount p (h.refCount p + 1)

-- The walk goes on into what is added at the end of the list on the way.
def gcScanLoop (children : ν → List ν) : Nat → Nat → Heap ν → Option (Heap ν)
  | 0, _, h => some h
  | fuel + 1, i, h =>
      match h.gcObjList[i]? with
      | none => some h
      | some p =>
          if 0 < h.refCount p then
            gcScanLoop children fuel (i + 1)
              ((children p).foldl gcScanIncrefChild (h.setMark p false))
          else none

def gcScan (children : ν → List ν) (h : Heap ν) : Option (Heap ν) :=
  (gcScanLoop children (h.gcObjList.length + h.tmpObjList.length) 0 h).map fun h =>
    h.tmpObjList.foldl (fun h p => (children p).foldl gcScanIncrefChild2 h) h

def reports (children : ν → List ν) (objects : List ν) (p : ν) : Nat :=
  (objects.flatMap children).count p

-- Reachable from an object with a reference that no object reports.
def Kept (children : ν → List ν) (h : Heap ν) (p : ν) : Prop :=
  ∃ root ∈ h.gcObjList, reports children h.gcObjList root < h.refCount root ∧
    Relation.ReflTransGen (fun parent child => child ∈ children parent) root p

structure Sound (children : ν → List ν) (h : Heap ν) : Prop where
  nodup : h.gcObjList.Nodup
  closed : ∀ p ∈ h.gcObjList, ∀ c ∈ children p, c ∈ h.gcObjList
  unmarked : ∀ p, h.mark p = false

section Fields

variable (h : Heap ν) (p q : ν) (count : Nat) (mark : Bool)

@[simp] theorem setRefCount_mark : (h.setRefCount p count).mark = h.mark := rfl
@[simp] theorem setRefCount_gcObjList : (h.setRefCount p count).gcObjList = h.gcObjList := rfl
@[simp] theorem setRefCount_tmpObjList : (h.setRefCount p count).tmpObjList = h.tmpObjList := rfl
@[simp] theorem setMark_refCount : (h.setMark p mark).refCount = h.refCount := rfl
@[simp] theorem setMark_gcObjList : (h.setMark p mark).gcObjList = h.gcObjList := rfl
@[simp] theorem setMark_tmpObjList : (h.setMark p mark).tmpObjList = h.tmpObjList := rfl

@[simp] theorem setRefCount_refCount : (h.setRefCount p count).refCount q =
    if q = p then count else h.refCount q := by
  simp only [Heap.setRefCount, Function.update_apply]

@[simp] theorem setMark_mark : (h.setMark p mark).mark q = if q = p then mark else h.mark q := by
  simp only [Heap.setMark, Function.update_apply]

@[simp] theorem moveToTmp_refCount : (h.moveToTmp p).refCount = h.refCount := rfl
@[simp] theorem moveToTmp_mark : (h.moveToTmp p).mark = h.mark := rfl
@[simp] theorem moveToGc_refCount : (h.moveToGc p).refCount = h.refCount := rfl
@[simp] theorem moveToGc_mark : (h.moveToGc p).mark = h.mark := rfl

theorem moveToTmp_perm {h : Heap ν} {p : ν} (member : p ∈ h.gcObjList) :
    ((h.moveToTmp p).gcObjList ++ (h.moveToTmp p).tmpObjList).Perm
      (h.gcObjList ++ h.tmpObjList) := by
  have taken := (List.perm_cons_erase member).symm
  have last := List.perm_append_singleton p (h.gcObjList.erase p ++ h.tmpObjList)
  simp only [Heap.moveToTmp, ← List.append_assoc]
  exact last.trans (taken.append_right h.tmpObjList)

theorem moveToGc_perm {h : Heap ν} {p : ν} (member : p ∈ h.tmpObjList) :
    ((h.moveToGc p).gcObjList ++ (h.moveToGc p).tmpObjList).Perm
      (h.gcObjList ++ h.tmpObjList) := by
  have taken := (List.perm_cons_erase member).symm
  simp only [Heap.moveToGc, List.append_assoc]
  exact taken.append_left h.gcObjList

end Fields

end BreezeJs.Gc
