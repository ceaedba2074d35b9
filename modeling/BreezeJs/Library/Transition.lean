import Mathlib.Logic.Relation
import Mathlib.Order.Basic
import Mathlib.Order.Nat
import Mathlib.Order.RelClasses

set_option autoImplicit false

namespace Transition

variable {σ α : Type}

structure System (σ α : Type) where
  init : σ → Prop
  step : σ → α → Option σ

-- The latest step stands first.
inductive Run (M : System σ α) : List (σ × α) → σ → Prop
  | start {s : σ} : M.init s → Run M [] s
  | next {history : List (σ × α)} {s t : σ} {a : α} :
      Run M history s → M.step s a = some t → Run M ((s, a) :: history) t

def Reachable (M : System σ α) (s : σ) : Prop :=
  ∃ history, Run M history s

theorem Run.always_invariant {M : System σ α} (allowed : σ → α → Prop) (invariant : σ → Prop)
    (initial : ∀ s, M.init s → invariant s)
    (preserved : ∀ s a t, invariant s → allowed s a → M.step s a = some t → invariant t)
    {history : List (σ × α)} {s : σ} (run : Run M history s)
    (steps : ∀ entry ∈ history, allowed entry.1 entry.2) :
    invariant s ∧ ∀ entry ∈ history, invariant entry.1 := by
  induction run with
  | start first => exact ⟨initial _ first, by simp⟩
  | @next history s t a _ taken ih =>
      rw [List.forall_mem_cons] at steps ⊢
      have earlier := ih steps.2
      exact ⟨preserved s a t earlier.1 steps.1 taken, earlier⟩

theorem Run.taken {M : System σ α} {history : List (σ × α)} {s : σ} (run : Run M history s) :
    ∀ entry ∈ history, ∃ t, M.step entry.1 entry.2 = some t := by
  induction run with
  | start _ => simp
  | next _ last ih =>
      rw [List.forall_mem_cons]
      exact ⟨⟨_, last⟩, ih⟩

theorem Run.along {M : System σ α} (invariant : List (σ × α) → σ → Prop)
    (initial : ∀ s, M.init s → invariant [] s)
    (preserved : ∀ history s a t, invariant history s → M.step s a = some t →
      invariant ((s, a) :: history) t)
    {history : List (σ × α)} {s : σ} (run : Run M history s) : invariant history s := by
  induction run with
  | start first => exact initial _ first
  | next _ taken ih => exact preserved _ _ _ _ ih taken

theorem Run.invariant {M : System σ α} (allowed : σ → α → Prop) (invariant : σ → Prop)
    (initial : ∀ s, M.init s → invariant s)
    (preserved : ∀ s a t, invariant s → allowed s a → M.step s a = some t → invariant t)
    {history : List (σ × α)} {s : σ} (run : Run M history s)
    (steps : ∀ entry ∈ history, allowed entry.1 entry.2) : invariant s :=
  (run.always_invariant allowed invariant initial preserved steps).1

theorem Run.always_iff {M : System σ α} (allowed : σ → α → Prop) (property invariant : σ → Prop)
    (initial : ∀ s, M.init s → invariant s) (sound : ∀ s, invariant s → property s)
    (preserved : ∀ s a t, invariant s → allowed s a → M.step s a = some t → invariant t)
    (broken : ∀ s a t, invariant s → ¬ allowed s a → M.step s a = some t → ¬ property t)
    {history : List (σ × α)} {s : σ} (run : Run M history s) :
    (property s ∧ ∀ entry ∈ history, property entry.1) ↔
      ∀ entry ∈ history, allowed entry.1 entry.2 := by
  constructor
  · intro always
    have steps : invariant s ∧ ∀ entry ∈ history, allowed entry.1 entry.2 := by
      induction run with
      | start first => exact ⟨initial _ first, by simp⟩
      | @next history s t a _ taken ih =>
          simp only [List.forall_mem_cons] at always ⊢
          have earlier := ih ⟨always.2.1, always.2.2⟩
          have permitted : allowed s a := by
            by_contra refused
            exact broken s a t earlier.1 refused taken always.1
          exact ⟨preserved s a t earlier.1 permitted taken, permitted, earlier.2⟩
    exact steps.2
  · intro steps
    have holds := run.always_invariant allowed invariant initial preserved steps
    exact ⟨sound s holds.1, fun entry member => sound entry.1 (holds.2 entry member)⟩

theorem Reachable.invariant {M : System σ α} (invariant : σ → Prop)
    (initial : ∀ s, M.init s → invariant s)
    (preserved : ∀ s a t, invariant s → M.step s a = some t → invariant t)
    {s : σ} (reached : Reachable M s) : invariant s := by
  obtain ⟨history, run⟩ := reached
  exact run.invariant (fun _ _ => True) invariant initial
    (fun s a t holds _ taken => preserved s a t holds taken) (fun _ _ => trivial)

theorem Run.reachable {M : System σ α} {history : List (σ × α)} {s : σ}
    (run : Run M history s) : Reachable M s :=
  ⟨history, run⟩

theorem Reachable.next {M : System σ α} {s t : σ} {a : α} (reached : Reachable M s)
    (taken : M.step s a = some t) : Reachable M t := by
  obtain ⟨history, run⟩ := reached
  exact ⟨_, run.next taken⟩

def System.after (M : System σ α) (s : σ) : System σ α :=
  { init := fun t => t = s
    step := M.step }

theorem Reachable.refl (M : System σ α) (s : σ) : Reachable (M.after s) s :=
  ⟨[], .start rfl⟩

theorem Reachable.later {M : System σ α} {s t : σ} (first : Reachable M s)
    (second : Reachable (M.after s) t) : Reachable M t := by
  obtain ⟨history, run⟩ := second
  induction run with
  | start here =>
      cases here
      exact first
  | next _ taken ih => exact ih.next taken

theorem Reachable.trans {M : System σ α} {s t u : σ} (first : Reachable (M.after s) t)
    (second : Reachable (M.after t) u) : Reachable (M.after s) u :=
  Reachable.later (M := M.after s) first second

theorem Reachable.onward {M : System σ α} {s t u : σ} {a : α} (reached : Reachable (M.after s) t)
    (taken : M.step t a = some u) : Reachable (M.after s) u :=
  Reachable.next (M := M.after s) reached taken

def System.record (M : System σ α) :
    List (σ × α) → σ → List α → Option (List (σ × α) × σ)
  | history, s, [] => some (history, s)
  | history, s, a :: rest =>
      match M.step s a with
      | none => none
      | some t => System.record M ((s, a) :: history) t rest

theorem Run.record {M : System σ α} {history later : List (σ × α)} {s t : σ}
    (run : Run M history s) (actions : List α)
    (executed : M.record history s actions = some (later, t)) : Run M later t := by
  induction actions generalizing history s with
  | nil =>
      simp only [System.record, Option.some.injEq, Prod.mk.injEq] at executed
      obtain ⟨rfl, rfl⟩ := executed
      exact run
  | cons a rest ih =>
      simp only [System.record] at executed
      cases taken : M.step s a with
      | none => simp [taken] at executed
      | some u =>
          simp only [taken] at executed
          exact ih (run.next taken) executed

theorem System.exists_run (M : System σ α) {s : σ} (first : M.init s) (actions : List α)
    (check : List (σ × α) → σ → Bool)
    (checked : (M.record [] s actions).any (fun result => check result.1 result.2) = true) :
    ∃ history t, Run M history t ∧ check history t = true := by
  cases executed : M.record [] s actions with
  | none => simp [executed] at checked
  | some result =>
      obtain ⟨history, t⟩ := result
      rw [executed] at checked
      exact ⟨history, t, (Run.start first).record actions executed, checked⟩

def Drift (M : System σ α) (passive : α → Prop) : σ → σ → Prop :=
  Relation.ReflTransGen (fun s t => ∃ a, passive a ∧ M.step s a = some t)

-- Whatever `passive` steps come in between, every maximal sequence of `active` steps is finite
-- and meets `goal`.
inductive Inevitable (M : System σ α) (active passive : α → Prop) (goal : σ → Prop) : σ → Prop
  | reached {s : σ} : goal s → Inevitable M active passive goal s
  | progress {s : σ} :
      (∀ t, Drift M passive s t → ∃ a u, active a ∧ M.step t a = some u) →
      (∀ t, Drift M passive s t → ∀ a u, active a → M.step t a = some u →
        Inevitable M active passive goal u) →
      Inevitable M active passive goal s

variable {M : System σ α} {active passive : α → Prop} {goal : σ → Prop}

theorem inevitable_of_rank {ρ : Type} [Preorder ρ] [WellFoundedLT ρ] (invariant : σ → Prop)
    (rank : σ → ρ)
    (drifts : ∀ s a t, invariant s → passive a → M.step s a = some t →
      invariant t ∧ rank t ≤ rank s ∧ (goal t → goal s))
    (enabled : ∀ s, invariant s → ¬ goal s → ∃ a t, active a ∧ M.step s a = some t)
    (descends : ∀ s a t, invariant s → ¬ goal s → active a → M.step s a = some t →
      invariant t ∧ rank t < rank s)
    {s : σ} (holds : invariant s) : Inevitable M active passive goal s := by
  have drifted {s t : σ} (holds : invariant s) (drift : Drift M passive s t) :
      invariant t ∧ rank t ≤ rank s ∧ (goal t → goal s) := by
    induction drift with
    | refl => exact ⟨holds, le_refl _, id⟩
    | tail _ last ih =>
        obtain ⟨a, quiet, taken⟩ := last
        have next := drifts _ a _ ih.1 quiet taken
        exact ⟨next.1, next.2.1.trans ih.2.1, ih.2.2 ∘ next.2.2⟩
  induction bound : rank s using WellFoundedLT.induction generalizing s with
  | ind r ih =>
      by_cases done : goal s
      · exact .reached done
      · refine .progress (fun t drift => ?_) (fun t drift a u acts taken => ?_)
        · have moved := drifted holds drift
          exact enabled t moved.1 (done ∘ moved.2.2)
        · have moved := drifted holds drift
          have dropped := descends t a u moved.1 (done ∘ moved.2.2) acts taken
          exact ih (rank u) (bound ▸ dropped.2.trans_le moved.2.1) dropped.1 rfl

-- The trap rule: from a trapped state, passive steps lead to one where no active step exists or
-- one ends in the trap.
theorem not_inevitable_of_trap (trap : σ → Prop)
    (avoids : ∀ s, trap s → ¬ goal s)
    (stays : ∀ s, trap s → ∃ t, Drift M passive s t ∧
      ((∃ a u, active a ∧ M.step t a = some u) → ∃ a u, active a ∧ M.step t a = some u ∧ trap u))
    {s : σ} (caught : trap s) : ¬ Inevitable M active passive goal s := by
  intro must
  induction must with
  | reached done => exact avoids _ caught done
  | progress enabled _ ih =>
      obtain ⟨t, drift, within⟩ := stays _ caught
      obtain ⟨a, u, acts, taken, trapped⟩ := within (enabled t drift)
      exact ih t drift a u acts taken trapped

end Transition
