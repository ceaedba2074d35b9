import BreezeJs.FileWatch.Liveness
import Mathlib.Data.Prod.Lex

set_option autoImplicit false

namespace BreezeJs.FileWatch

open Infra Transition

variable {pass : Bytes → Bool} {s t : State} {a : Action}

def destroyAction : Action → Prop
  | .watch _ | .callback _ | .destroy => True
  | _ => False

def environmentAction : Action → Prop
  | .happen _ | .vanish | .interrupted | .spuriousWake => True
  | _ => False

def OwnerPc.signalled : OwnerPc → Bool
  | .joiningWatch | .joiningCallback | .destroyed => true
  | _ => false

inductive Stranded (s : State) : Prop
  -- The directory has gone before, so there is no watch to remove.
  | reader : s.watch = .reading → s.unread = [] → s.watched = false → Stranded s
  -- No dispatch of the watch thread has to wait for this lock. A `read` may be interrupted.
  | entering : s.callback = .entering → (∀ parsed, s.watch ≠ .locking parsed) → Stranded s
  | blocked : s.callback = .blocked → s.owner.signalled = true →
      s.watch = .test ∨ s.watch = .reading ∨ s.watch = .exited → Stranded s

structure Closing (s : State) : Prop where
  coherent : Coherent s
  begun : s.owner ≠ .idle

theorem Closing.flag (closing : Closing s) : s.destory = true :=
  closing.coherent.flagged.mpr closing.begun

theorem closing_preserved (taken : Step pass s a t) (closing : Closing s) : Closing t := by
  refine ⟨coherent_preserved taken closing.coherent, ?_⟩
  have begun := closing.begun
  cases taken <;> simp_all [State.queue]

def OwnerPc.remaining : OwnerPc → Nat
  | .idle | .flagged => 4
  | .removed => 3
  | .joiningWatch => 2
  | .joiningCallback => 1
  | .destroyed => 0

def WatchPc.remaining : WatchPc → Nat
  | .exited => 0
  | .test => 1
  | .notifying => 2
  | .inserting _ => 3
  | .locking _ => 4
  | .reading => 5

def CallbackPc.remaining : CallbackPc → Nat
  | .exited _ => 0
  | .test => 1
  | .delivering _ => 2
  | .swapping => 3
  | .predicate | .checking => 4
  | .relocking | .locking => 5
  | .blocked => 6
  | .entering => 7

def State.remaining (s : State) : Nat ×ₗ Nat :=
  toLex (s.owner.remaining + s.watch.remaining,
    s.information.length + s.callback.held.length + s.callback.remaining)

theorem remaining_lt_iff : t.remaining < s.remaining ↔
    t.owner.remaining + t.watch.remaining < s.owner.remaining + s.watch.remaining ∨
      t.owner.remaining + t.watch.remaining = s.owner.remaining + s.watch.remaining ∧
        t.information.length + t.callback.held.length + t.callback.remaining <
          s.information.length + s.callback.held.length + s.callback.remaining :=
  Prod.Lex.toLex_lt_toLex

theorem remaining_decreases (taken : Step pass s a t) (acts : destroyAction a)
    (closing : Closing s) : t.remaining < s.remaining := by
  have flag := closing.flag
  have begun := closing.begun
  rw [remaining_lt_iff]
  cases taken with
  | throw file rest pc =>
      refine .inr ⟨rfl, ?_⟩
      simp only [pc, CallbackPc.remaining, CallbackPc.held, List.length_cons, List.length_nil]
      omega
  | _ =>
      simp_all [destroyAction, OwnerPc.remaining, WatchPc.remaining, CallbackPc.remaining,
        CallbackPc.held, State.queue]

theorem remaining_background (taken : Step pass s a t) (waits : environmentAction a) :
    t.remaining ≤ s.remaining ∧ (t.owner = .destroyed → s.owner = .destroyed) := by
  cases taken with
  | happen event _ => exact ⟨le_refl _, id⟩
  | vanish _ => exact ⟨le_refl _, id⟩
  | spuriousWake pc =>
      have fewer : State.remaining { s with callback := .relocking } < s.remaining := by
        rw [remaining_lt_iff]
        simp [pc, CallbackPc.remaining, CallbackPc.held]
      exact ⟨fewer.le, id⟩
  | interrupted pc =>
      have fewer : State.remaining { s with watch := .test } < s.remaining := by
        rw [remaining_lt_iff]
        simp [pc, WatchPc.remaining]
      exact ⟨fewer.le, id⟩
  | _ => simp_all [environmentAction]

theorem reader_back (taken : Step pass s a t) (closing : Closing s) (pc : t.watch = .reading)
    (unread : t.unread = []) (gone : t.watched = false) : Stranded s := by
  have flag := closing.flag
  have before : s.watch = .reading ∧ s.unread = [] ∧ s.watched = false := by
    cases taken <;> simp_all [State.queue]
  exact .reader before.1 before.2.1 before.2.2

theorem entering_back (taken : Step pass s a t) (closing : Closing s)
    (pc : t.callback = .entering) (ahead : ∀ parsed, t.watch ≠ .locking parsed) : Stranded s := by
  have flag := closing.flag
  have lock := closing.coherent.callbackMutex
  have before : s.callback = .entering ∧ ∀ parsed, s.watch ≠ .locking parsed := by
    cases taken with
    | watchLock count parsed watch free =>
        change s.callback = .entering at pc
        simp [pc, free, CallbackPc.locked] at lock
    | _ => simp_all [State.queue]
  exact .entering before.1 before.2

theorem blocked_back (taken : Step pass s a t) (closing : Closing s)
    (pc : t.callback = .blocked) (signalled : t.owner.signalled = true)
    (done : t.watch = .test ∨ t.watch = .reading ∨ t.watch = .exited) : Stranded s := by
  have flag := closing.flag
  cases taken with
  | block outcome entering =>
      change s.watch = .test ∨ s.watch = .reading ∨ s.watch = .exited at done
      refine .entering entering fun parsed locking => ?_
      simp [locking] at done
  | interrupted reading => exact .blocked pc signalled (.inr (.inl reading))
  | watchLeave count test _ => exact .blocked pc signalled (.inl test)
  | notifyAll | signal => exact absurd pc (notified_ne_blocked _)
  | joinWatch joining left => exact .blocked pc (by rw [joining]; rfl) (.inr (.inr left))
  | joinCallback _ joining => exact .blocked pc (by rw [joining]; rfl) done
  | _ => first | exact .blocked pc signalled done | simp_all [OwnerPc.signalled]

theorem not_stranded_preserved (taken : Step pass s a t) (closing : Closing s)
    (free : ¬ Stranded s) : ¬ Stranded t := by
  intro stranded
  cases stranded with
  | reader pc unread gone => exact free (reader_back taken closing pc unread gone)
  | entering pc ahead => exact free (entering_back taken closing pc ahead)
  | blocked pc signalled done => exact free (blocked_back taken closing pc signalled done)

theorem destroyStep_enabled (ready : s.owner = .flagged ∨ s.owner = .removed ∨
    (s.owner = .joiningWatch ∧ s.watch = .exited) ∨
    (s.owner = .joiningCallback ∧ s.callback.isExited = true)) :
    ∃ a t, destroyAction a ∧ step pass s a = some t := by
  have next : ∃ t, step pass s .destroy = some t := by
    rcases ready with here | here | ⟨here, left⟩ | ⟨here, left⟩
    · simp [step, State.destroyStep, here]
    · simp [step, State.destroyStep, here]
    · simp [step, State.destroyStep, here, left]
    · simp [step, State.destroyStep, here, left]
  obtain ⟨t, taken⟩ := next
  exact ⟨.destroy, t, trivial, taken⟩

theorem destroy_progress (closing : Closing s) (free : ¬ Stranded s)
    (unfinished : s.owner ≠ .destroyed) : ∃ a t, destroyAction a ∧ step pass s a = some t := by
  have coherent := closing.coherent
  have threads : (∃ a t, threadAction a ∧ step pass s a = some t) →
      ∃ a t, destroyAction a ∧ step pass s a = some t := by
    rintro ⟨a, t, acts, taken⟩
    exact ⟨a, t, by cases a <;> simp_all [threadAction, destroyAction], taken⟩
  cases owner : s.owner with
  | idle => exact absurd owner closing.begun
  | destroyed => exact absurd owner unfinished
  | flagged => exact destroyStep_enabled (.inl owner)
  | removed => exact destroyStep_enabled (.inr (.inl owner))
  | joiningWatch =>
      by_cases left : s.watch = .exited
      · exact destroyStep_enabled (.inr (.inr (.inl ⟨owner, left⟩)))
      · refine threads (watch_progress coherent left fun reading unread => ?_)
        have gone : s.watched = false := by
          by_contra still
          have early := coherent.watched (by simpa using still)
          simp [owner] at early
        exact free (.reader reading unread gone)
  | joiningCallback =>
      have left := coherent.watchJoined (.inl owner)
      by_cases done : s.callback.isExited = true
      · exact destroyStep_enabled (.inr (.inr (.inr ⟨owner, done⟩)))
      · refine threads (callback_progress coherent (by simpa using done) fun blocked => ?_)
        exact free (.blocked blocked (by rw [owner]; rfl) (.inr (.inr left)))

theorem destroyed_inevitable (closing : Closing s) (free : ¬ Stranded s) :
    Inevitable (system pass) destroyAction environmentAction (fun t => t.owner = .destroyed) s := by
  apply inevitable_of_rank (fun u => Closing u ∧ ¬ Stranded u) State.remaining _ _ _ ⟨closing, free⟩
  · intro u a v holds waits taken
    have next := step_some taken
    have kept := not_stranded_preserved next holds.1 holds.2
    exact ⟨⟨closing_preserved next holds.1, kept⟩, remaining_background next waits⟩
  · intro u holds unfinished
    exact destroy_progress holds.1 holds.2 unfinished
  · intro u a v holds _ acts taken
    have next := step_some taken
    have kept := not_stranded_preserved next holds.1 holds.2
    exact ⟨⟨closing_preserved next holds.1, kept⟩, remaining_decreases next acts holds.1⟩

theorem reader_stays (taken : Step pass s a t) (acts : destroyAction a) (closing : Closing s)
    (pc : s.watch = .reading) (unread : s.unread = []) (gone : s.watched = false) :
    Stranded t := by
  have flag := closing.flag
  have after : t.watch = .reading ∧ t.unread = [] ∧ t.watched = false := by
    cases taken <;> simp_all [destroyAction]
  exact .reader after.1 after.2.1 after.2.2

theorem stranded_unfinished (closing : Closing s) (stranded : Stranded s) :
    s.owner ≠ .destroyed := by
  intro finished
  have coherent := closing.coherent
  have watch := coherent.watchJoined (.inr finished)
  have callback := coherent.callbackJoined finished
  cases stranded with
  | reader pc => simp [pc] at watch
  | entering pc => simp [pc, CallbackPc.isExited] at callback
  | blocked pc => simp [pc, CallbackPc.isExited] at callback

theorem watch_leaves (closing : Closing s) (test : s.watch = .test) :
    step pass s (.watch 0) = some { s with watch := .exited } := by
  simp only [step, State.watchStep, test, closing.flag, if_true]

theorem entering_stays (pass : Bytes → Bool) (closing : Closing s) (pc : s.callback = .entering)
    (unread : s.watch ≠ .reading) (ahead : ∀ parsed, s.watch ≠ .locking parsed) :
    ∃ a t, destroyAction a ∧ step pass s a = some t ∧ Stranded t := by
  have coherent := closing.coherent
  cases watch : s.watch with
  | reading => exact absurd watch unread
  | locking parsed => exact absurd watch (ahead parsed)
  | inserting parsed =>
      have excluded := exclusive coherent watch
      simp [pc, CallbackPc.locked] at excluded
  | notifying =>
      refine ⟨.watch 0, { s with callback := s.callback.notified, watch := .test }, trivial, ?_, ?_⟩
      · simp only [step, State.watchStep, watch]
      · exact .entering (by simpa using pc) (by simp)
  | test =>
      exact ⟨.watch 0, _, trivial, watch_leaves closing watch, .entering pc (by simp)⟩
  | exited =>
      cases owner : s.owner with
      | idle => exact absurd owner closing.begun
      | destroyed =>
          exact absurd owner (stranded_unfinished closing (.entering pc ahead))
      | flagged =>
          cases watched : s.watched with
          | true =>
              refine ⟨.destroy, { s.queue ignored with watched := false, owner := .removed },
                trivial, ?_, .entering pc ahead⟩
              simp only [step, State.destroyStep, owner, State.removeWatch, watched, if_true]
          | false =>
              refine ⟨.destroy, { s with owner := .removed }, trivial, ?_,
                .entering pc ahead⟩
              simp [step, State.destroyStep, owner, State.removeWatch, watched]
      | removed =>
          refine ⟨.destroy, { s with callback := s.callback.notified, owner := .joiningWatch },
            trivial, ?_, .entering (by simpa using pc) ahead⟩
          simp only [step, State.destroyStep, owner]
      | joiningWatch =>
          refine ⟨.destroy, { s with owner := .joiningCallback }, trivial, ?_,
            .entering pc ahead⟩
          simp [step, State.destroyStep, owner, watch]
      | joiningCallback =>
          refine ⟨.callback .returned, { s with mutex := none, callback := .blocked }, trivial, ?_,
            .blocked rfl (by simp [owner, OwnerPc.signalled]) (.inr (.inr watch))⟩
          simp only [step, State.callbackStep, pc]

theorem blocked_stays (taken : Step pass s a t) (acts : destroyAction a)
    (pc : s.callback = .blocked) (signalled : s.owner.signalled = true)
    (done : s.watch = .test ∨ s.watch = .exited) (closing : Closing s) : Stranded t := by
  have flag := closing.flag
  have after : t.callback = .blocked ∧ t.owner.signalled = true ∧
      (t.watch = .test ∨ t.watch = .reading ∨ t.watch = .exited) := by
    cases taken <;> simp_all [destroyAction, OwnerPc.signalled]
  exact .blocked after.1 after.2.1 after.2.2

theorem interrupted_drift (pass : Bytes → Bool) (reading : s.watch = .reading) :
    Drift (system pass) environmentAction s { s with watch := .test } :=
  .single ⟨.interrupted, trivial, if_pos reading⟩

theorem interrupted_closing (closing : Closing s) (reading : s.watch = .reading) :
    Closing { s with watch := .test } := by
  have taken : Step regexAll s .interrupted { s with watch := .test } := .interrupted reading
  exact closing_preserved taken closing

theorem stranded_stays (closing : Closing s) (stranded : Stranded s) :
    ∃ t, Drift (system pass) environmentAction s t ∧
      ((∃ a u, destroyAction a ∧ step pass t a = some u) →
        ∃ a u, destroyAction a ∧ step pass t a = some u ∧ Closing u ∧ Stranded u) := by
  cases stranded with
  | reader pc unread gone =>
      refine ⟨s, .refl, ?_⟩
      rintro ⟨a, u, acts, taken⟩
      have next := step_some taken
      exact ⟨a, u, acts, taken, closing_preserved next closing,
        reader_stays next acts closing pc unread gone⟩
  | entering pc ahead =>
      have caught {t : State} (closing : Closing t) (pc : t.callback = .entering)
          (unread : t.watch ≠ .reading) (ahead : ∀ parsed, t.watch ≠ .locking parsed) :
          ∃ a u, destroyAction a ∧ step pass t a = some u ∧ Closing u ∧ Stranded u := by
        obtain ⟨a, u, acts, taken, within⟩ := entering_stays pass closing pc unread ahead
        exact ⟨a, u, acts, taken, closing_preserved (step_some taken) closing, within⟩
      by_cases reading : s.watch = .reading
      · have moved := interrupted_closing closing reading
        exact ⟨_, interrupted_drift pass reading, fun _ => caught moved pc (by simp) (by simp)⟩
      · exact ⟨s, .refl, fun _ => caught closing pc reading ahead⟩
  | blocked pc signalled done =>
      have caught {t : State} (closing : Closing t) (pc : t.callback = .blocked)
          (signalled : t.owner.signalled = true) (done : t.watch = .test ∨ t.watch = .exited) :
          (∃ a u, destroyAction a ∧ step pass t a = some u) →
            ∃ a u, destroyAction a ∧ step pass t a = some u ∧ Closing u ∧ Stranded u := by
        rintro ⟨a, u, acts, taken⟩
        have next := step_some taken
        exact ⟨a, u, acts, taken, closing_preserved next closing,
          blocked_stays next acts pc signalled done closing⟩
      rcases done with test | reading | exited
      · exact ⟨s, .refl, caught closing pc signalled (.inl test)⟩
      · have moved := interrupted_closing closing reading
        exact ⟨_, interrupted_drift pass reading, caught moved pc signalled (.inl rfl)⟩
      · exact ⟨s, .refl, caught closing pc signalled (.inr exited)⟩

theorem destroyed_not_inevitable (closing : Closing s) (stranded : Stranded s) :
    ¬ Inevitable (system pass) destroyAction environmentAction
      (fun t => t.owner = .destroyed) s := by
  apply not_inevitable_of_trap (fun u => Closing u ∧ Stranded u) _ _ ⟨closing, stranded⟩
  · intro u caught
    exact stranded_unfinished caught.1 caught.2
  · rintro u ⟨closing, stranded⟩
    exact stranded_stays closing stranded

-- Every call of the callback is taken to end.
theorem destroyed_inevitable_iff (reached : Reachable (system pass) s) (begun : s.owner ≠ .idle) :
    Inevitable (system pass) destroyAction environmentAction (fun t => t.owner = .destroyed) s ↔
      ¬ Stranded s := by
  have closing : Closing s := ⟨coherent_reachable reached, begun⟩
  constructor
  · intro inevitable stranded
    exact destroyed_not_inevitable closing stranded inevitable
  · intro free
    exact destroyed_inevitable closing free

theorem destroyed_inevitable_when_parked :
    ∃ s, Reachable (system regexAll) s ∧ s.callback = .blocked ∧
      Inevitable (system regexAll) destroyAction environmentAction
        (fun t => t.owner = .destroyed) s := by
  obtain ⟨history, s, run, checked⟩ := (system regexAll).exists_run rfl (parkThreads ++ [.destroy])
    (fun _ s => s.callback == .blocked && s.owner == .flagged && s.watched) (by decide +kernel)
  simp only [Bool.and_eq_true, beq_iff_eq] at checked
  obtain ⟨⟨blocked, owner⟩, watched⟩ := checked
  refine ⟨s, run.reachable, blocked,
    (destroyed_inevitable_iff run.reachable (by simp [owner])).mpr ?_⟩
  intro stranded
  cases stranded with
  | reader _ _ gone => simp [watched] at gone
  | entering pc => simp [blocked] at pc
  | blocked _ signalled => simp [owner, OwnerPc.signalled] at signalled

theorem destroy_stranded :
    ∃ s, Reachable (system regexAll) s ∧ s.owner = .flagged ∧
      ¬ Inevitable (system regexAll) destroyAction environmentAction
        (fun t => t.owner = .destroyed) s := by
  obtain ⟨history, s, run, checked⟩ := (system regexAll).exists_run rfl
    (List.replicate 4 (.callback .returned) ++ [.destroy])
    (fun _ s => s.callback == .entering && s.watch == .test && s.owner == .flagged)
    (by decide +kernel)
  simp only [Bool.and_eq_true, beq_iff_eq] at checked
  obtain ⟨⟨entering, watch⟩, owner⟩ := checked
  refine ⟨s, run.reachable, owner, destroyed_not_inevitable
    ⟨coherent_reachable run.reachable, by simp [owner]⟩ (.entering entering ?_)⟩
  simp [watch]

end BreezeJs.FileWatch
