import BreezeJs.FileWatch.Model

set_option autoImplicit false

namespace BreezeJs.FileWatch

open Infra Transition

variable {pass : Bytes → Bool}

-- What a step can do, with its guard: every branch of `step` is one constructor.
inductive Step (pass : Bytes → Bool) (s : State) : Action → State → Prop
  | happen (event : InotifyEvent) : s.watched = true → Step pass s (.happen event) (s.queue event)
  | vanish : s.watched = true →
      Step pass s .vanish { s.queue ignored with watched := false }
  | watchOn (count : Nat) : s.watch = .test → s.destory = false →
      Step pass s (.watch count) { s with watch := .reading }
  | watchLeave (count : Nat) : s.watch = .test → s.destory = true →
      Step pass s (.watch count) { s with watch := .exited }
  | read (count : Nat) : s.watch = .reading → s.unread.take count ≠ [] →
      Step pass s (.watch count)
        { s with
          unread := s.unread.drop count
          watch := .locking (notices pass (s.unread.take count)) }
  | watchLock (count : Nat) (parsed : List Notice) : s.watch = .locking parsed → s.mutex = none →
      Step pass s (.watch count) { s with mutex := some .watch, watch := .inserting parsed }
  | insert (count : Nat) (parsed : List Notice) : s.watch = .inserting parsed →
      Step pass s (.watch count)
        { s with
          mutex := none
          information := s.information ++ parsed
          watch := .notifying }
  | notifyAll (count : Nat) : s.watch = .notifying →
      Step pass s (.watch count) { s with callback := s.callback.notified, watch := .test }
  | interrupted : s.watch = .reading → Step pass s .interrupted { s with watch := .test }
  | callbackOn (outcome : Outcome) : s.callback = .test → s.destory = false →
      Step pass s (.callback outcome) { s with callback := .locking }
  | callbackLeave (outcome : Outcome) : s.callback = .test → s.destory = true →
      Step pass s (.callback outcome) { s with callback := .exited [] }
  | callbackLock (outcome : Outcome) : s.callback = .locking → s.mutex = none →
      Step pass s (.callback outcome) { s with mutex := some .callback, callback := .checking }
  | checkEmpty (outcome : Outcome) : s.callback = .checking → s.information = [] →
      s.destory = false → Step pass s (.callback outcome) { s with callback := .predicate }
  | checkFull (outcome : Outcome) : s.callback = .checking →
      s.information ≠ [] ∨ s.destory = true →
      Step pass s (.callback outcome) { s with callback := .swapping }
  | predicateTrue (outcome : Outcome) : s.callback = .predicate →
      s.information ≠ [] ∨ s.destory = true →
      Step pass s (.callback outcome) { s with callback := .swapping }
  | predicateFalse (outcome : Outcome) : s.callback = .predicate → s.information = [] →
      s.destory = false → Step pass s (.callback outcome) { s with callback := .entering }
  | block (outcome : Outcome) : s.callback = .entering →
      Step pass s (.callback outcome) { s with mutex := none, callback := .blocked }
  | relock (outcome : Outcome) : s.callback = .relocking → s.mutex = none →
      Step pass s (.callback outcome) { s with mutex := some .callback, callback := .predicate }
  | swap (outcome : Outcome) : s.callback = .swapping →
      Step pass s (.callback outcome)
        { s with mutex := none, information := [], callback := .delivering s.information }
  | finish (outcome : Outcome) : s.callback = .delivering [] →
      Step pass s (.callback outcome) { s with callback := .test }
  | deliver (outcome : Outcome) (file : Notice) (rest : List Notice) :
      s.callback = .delivering (file :: rest) → outcome ≠ .threwOther →
      Step pass s (.callback outcome)
        { s with delivered := s.delivered ++ [file], callback := .delivering rest }
  | throw (file : Notice) (rest : List Notice) : s.callback = .delivering (file :: rest) →
      Step pass s (.callback .threwOther)
        { s with delivered := s.delivered ++ [file], callback := .exited rest }
  | spuriousWake : s.callback = .blocked →
      Step pass s .spuriousWake { s with callback := .relocking }
  | flag : s.owner = .idle → Step pass s .destroy { s with destory := true, owner := .flagged }
  | remove : s.owner = .flagged → s.watched = true →
      Step pass s .destroy { s.queue ignored with watched := false, owner := .removed }
  | removeNone : s.owner = .flagged → s.watched = false →
      Step pass s .destroy { s with owner := .removed }
  | signal : s.owner = .removed →
      Step pass s .destroy { s with callback := s.callback.notified, owner := .joiningWatch }
  | joinWatch : s.owner = .joiningWatch → s.watch = .exited →
      Step pass s .destroy { s with owner := .joiningCallback }
  | joinCallback (abandoned : List Notice) : s.owner = .joiningCallback →
      s.callback = .exited abandoned → Step pass s .destroy { s with owner := .destroyed }

section Inversion

variable {s t : State}

theorem watchStep_some {count : Nat} (taken : s.watchStep pass count = some t) :
    Step pass s (.watch count) t := by
  unfold State.watchStep at taken
  split at taken
  case h_1 pc =>
    split at taken
    · next flag => cases taken; exact .watchLeave count pc flag
    · next clear => cases taken; exact .watchOn count pc (by simpa using clear)
  case h_2 pc =>
    split at taken
    · next some =>
        rw [parse_encode] at taken
        cases taken
        exact .read count pc some.1
    · cases taken
  case h_3 parsed pc =>
    split at taken
    · next free => cases taken; exact .watchLock count parsed pc free
    · cases taken
  case h_4 parsed pc => cases taken; exact .insert count parsed pc
  case h_5 pc => cases taken; exact .notifyAll count pc
  case h_6 => cases taken

theorem callbackStep_some {outcome : Outcome} (taken : s.callbackStep outcome = some t) :
    Step pass s (.callback outcome) t := by
  unfold State.callbackStep at taken
  split at taken
  case h_1 pc =>
    split at taken
    · next flag => cases taken; exact .callbackLeave outcome pc flag
    · next clear => cases taken; exact .callbackOn outcome pc (by simpa using clear)
  case h_2 pc =>
    split at taken
    · next free => cases taken; exact .callbackLock outcome pc free
    · cases taken
  case h_3 pc =>
    split at taken
    · next empty =>
        simp only [Bool.and_eq_true, List.isEmpty_iff, Bool.not_eq_true'] at empty
        cases taken
        exact .checkEmpty outcome pc empty.1 empty.2
    · next full =>
        simp only [Bool.and_eq_true, List.isEmpty_iff, Bool.not_eq_true', not_and,
          Bool.not_eq_false] at full
        cases taken
        exact .checkFull outcome pc (Decidable.or_iff_not_imp_left.mpr fun empty =>
          full (by simpa using empty))
  case h_4 pc =>
    split at taken
    · next awake =>
        simp only [Bool.or_eq_true, Bool.not_eq_true', List.isEmpty_eq_false_iff] at awake
        cases taken
        exact .predicateTrue outcome pc awake
    · next idle =>
        simp only [Bool.or_eq_true, Bool.not_eq_true', List.isEmpty_eq_false_iff, not_or,
          Bool.not_eq_true, ne_eq, not_not] at idle
        cases taken
        exact .predicateFalse outcome pc idle.1 idle.2
  case h_5 pc => cases taken; exact .block outcome pc
  case h_6 pc =>
    split at taken
    · next free => cases taken; exact .relock outcome pc free
    · cases taken
  case h_7 pc => cases taken; exact .swap outcome pc
  case h_8 pc => cases taken; exact .finish outcome pc
  case h_9 file rest pc =>
    by_cases other : outcome = .threwOther
    · subst other
      cases taken
      exact .throw file rest pc
    · simp only [other, if_false] at taken
      cases taken
      exact .deliver outcome file rest pc other
  case h_10 => cases taken
  case h_11 => cases taken

theorem destroyStep_some (taken : s.destroyStep = some t) : Step pass s .destroy t := by
  unfold State.destroyStep at taken
  split at taken
  case h_1 pc => cases taken; exact .flag pc
  case h_2 pc =>
    unfold State.removeWatch at taken
    split at taken
    · next watched => cases taken; exact .remove pc watched
    · next gone => cases taken; exact .removeNone pc (by simpa using gone)
  case h_3 pc => cases taken; exact .signal pc
  case h_4 pc =>
    split at taken
    · next left => cases taken; exact .joinWatch pc left
    · cases taken
  case h_5 pc =>
    split at taken
    · next left =>
        cases callback : s.callback with
        | exited abandoned => cases taken; exact .joinCallback abandoned pc callback
        | _ => simp [callback, CallbackPc.isExited] at left
    · cases taken
  case h_6 => cases taken

theorem step_some {a : Action} (taken : step pass s a = some t) : Step pass s a t := by
  cases a with
  | happen event =>
      simp only [step] at taken
      split at taken
      · next watched => cases taken; exact .happen event watched
      · cases taken
  | vanish =>
      simp only [step] at taken
      split at taken
      · next watched =>
          rw [State.removeWatch, if_pos watched] at taken
          cases taken
          exact .vanish watched
      · cases taken
  | watch count => exact watchStep_some taken
  | interrupted =>
      simp only [step] at taken
      split at taken
      · next pc => cases taken; exact .interrupted pc
      · cases taken
  | callback outcome => exact callbackStep_some taken
  | spuriousWake =>
      simp only [step] at taken
      split at taken
      · next waiting => cases taken; exact .spuriousWake waiting
      · cases taken
  | destroy => exact destroyStep_some taken

end Inversion

end BreezeJs.FileWatch
