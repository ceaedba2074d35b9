import Mathlib.Data.List.Range
import Mathlib.Logic.Function.Iterate
import Mathlib.Tactic.IntervalCases

set_option autoImplicit false

namespace BreezeJs.Lifetime

inductive Object where
  | runtime
  | context (rt : Nat)
deriving DecidableEq, Repr

structure ScriptContext where
  -- Every object ever made; its index is its address.
  heap : List Object
  freed : List Nat
  rt : Option Nat
  js : Option Nat
deriving DecidableEq, Repr

def initial : ScriptContext :=
  { heap := []
    freed := []
    rt := none
    js := none }

def release (freed : List Nat) (pointer : Option Nat) : List Nat :=
  freed ++ pointer.toList

-- `rt = std::make_shared<qjs::Runtime>()`: the new object exists before the old one is released.
def assignRuntime (s : ScriptContext) : ScriptContext :=
  { s with
    heap := s.heap ++ [.runtime]
    freed := release s.freed s.rt
    rt := some s.heap.length }

-- `js = std::make_shared<qjs::Context>(*rt)`.
def assignContext (s : ScriptContext) : ScriptContext :=
  match s.rt with
  | none => s
  | some rt =>
      { s with
        heap := s.heap ++ [.context rt]
        freed := release s.freed s.js
        js := some s.heap.length }

def resetRuntime (s : ScriptContext) : ScriptContext :=
  assignContext (assignRuntime s)

-- The members go in the reverse order of their declaration, `js` before `rt`.
def destroy (s : ScriptContext) : ScriptContext :=
  { s with
    freed := release (release s.freed s.js) s.rt
    rt := none
    js := none }

def ContextsFirst (s : ScriptContext) : Prop :=
  ∀ context rt, s.heap[context]? = some (.context rt) → rt ∈ s.freed →
    s.freed.idxOf context < s.freed.idxOf rt

def objects : Nat → List Object
  | 0 => []
  | resets + 1 => objects resets ++ [.runtime, .context (2 * resets)]

theorem length_objects (resets : Nat) : (objects resets).length = 2 * resets := by
  induction resets with
  | zero => rfl
  | succ resets ih =>
      simp only [objects, List.length_append, ih, List.length_cons, List.length_nil]
      omega

theorem resetRuntime_iterate (resets : Nat) :
    resetRuntime^[resets + 1] initial =
      { heap := objects (resets + 1)
        freed := List.range (2 * resets)
        rt := some (2 * resets)
        js := some (2 * resets + 1) } := by
  induction resets with
  | zero => rfl
  | succ resets ih =>
      have counted := length_objects (resets + 1)
      have freed : List.range (2 * (resets + 1)) =
          List.range (2 * resets) ++ [2 * resets] ++ [2 * resets + 1] := by
        rw [show 2 * (resets + 1) = 2 * resets + 1 + 1 by omega, List.range_succ, List.range_succ]
      rw [Function.iterate_succ_apply', ih]
      simp only [resetRuntime, assignRuntime, assignContext, release, Option.toList_some, counted,
        List.length_append, List.length_singleton, freed]
      rw [objects, List.append_assoc]
      rfl

theorem destroyed (resets : Nat) :
    (destroy (resetRuntime^[resets + 1] initial)).freed =
      List.range (2 * resets) ++ [2 * resets + 1, 2 * resets] := by
  rw [resetRuntime_iterate]
  simp [destroy, release]

theorem freed_once (resets : Nat) :
    (destroy (resetRuntime^[resets] initial)).freed.Perm
      (List.range (destroy (resetRuntime^[resets] initial)).heap.length) := by
  cases resets with
  | zero => exact List.Perm.refl _
  | succ resets =>
      have made : (destroy (resetRuntime^[resets + 1] initial)).heap.length = 2 * resets + 1 + 1 := by
        rw [resetRuntime_iterate, destroy]
        simp only [length_objects]
        omega
      rw [made, destroyed, List.range_succ, List.range_succ, List.append_assoc]
      exact List.Perm.append_left _ (List.Perm.swap _ _ _)

theorem first_context (resets : Nat) : (objects (resets + 1))[1]? = some (.context 0) := by
  induction resets with
  | zero => rfl
  | succ resets ih =>
      have inside : 1 < (objects (resets + 1)).length := by
        rw [length_objects]
        omega
      rw [objects, List.getElem?_append_left inside, ih]

theorem replaced_runtime_first (resets : Nat) :
    (destroy (resetRuntime^[resets + 2] initial)).freed.head? = some 0 := by
  rw [destroyed, show 2 * (resets + 1) = 2 * resets + 1 + 1 by omega, List.range_succ_eq_map]
  rfl

/-- The contexts go before their runtimes exactly when the runtime is never replaced. -/
theorem contexts_first_iff (resets : Nat) :
    ContextsFirst (destroy (resetRuntime^[resets] initial)) ↔ resets ≤ 1 := by
  constructor
  · intro ordered
    by_contra more
    obtain ⟨later, rfl⟩ : ∃ later, resets = later + 2 := ⟨resets - 2, by omega⟩
    have made : (destroy (resetRuntime^[later + 2] initial)).heap[1]? = some (.context 0) := by
      rw [resetRuntime_iterate, destroy]
      exact first_context (later + 1)
    have first := replaced_runtime_first later
    obtain ⟨rest, freed⟩ := List.head?_eq_some_iff.mp first
    have before := ordered 1 0 made (by rw [freed]; exact List.mem_cons_self)
    rw [freed, List.idxOf_cons_self] at before
    exact Nat.not_lt_zero _ before
  · intro few context rt made gone
    interval_cases resets
    · simp [destroy, initial] at made
    · rw [resetRuntime_iterate] at made
      rw [destroyed]
      match context with
      | 0 => simp [destroy, objects] at made
      | 1 =>
          simp only [destroy, objects] at made
          cases made
          decide
      | later + 2 => simp [destroy, objects] at made

theorem second_reset_frees_runtime_first :
    ¬ ContextsFirst (destroy (resetRuntime^[2] initial)) := by
  intro ordered
  have before := ordered 1 0 rfl (by decide)
  revert before
  decide

end BreezeJs.Lifetime
