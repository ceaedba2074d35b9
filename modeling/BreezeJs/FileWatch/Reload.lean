import BreezeJs.FileWatch.Liveness
import BreezeJs.Runtime.WatchFolder

set_option autoImplicit false

namespace BreezeJs.FileReload

open Infra Transition FileWatch
open WatchFolder (endsWithJs InWindow)

structure State where
  folder : WatchFolder.State
  watch : Option FileWatch.State
deriving DecidableEq

inductive Action where
  | folder (action : WatchFolder.Action)
  | watch (action : FileWatch.Action)
deriving DecidableEq

-- `watch_folder` watches a directory with the default pattern.
def folderFilter : Bytes → Bool :=
  passFilter none regexAll

def called (watch : FileWatch.State) : FileWatch.Action → Option Notice
  | .callback _ =>
      match watch.callback with
      | .delivering (file :: _) => some file
      | _ => none
  | _ => none

-- Nobody reads the flag once the function has ended.
def deliver (folder : WatchFolder.State) : Option Notice → WatchFolder.State
  | some file => (WatchFolder.step folder (.deliver file.1)).getD folder
  | none => folder

def allowed (folder : WatchFolder.State) : FileWatch.Action → Bool
  -- The destructor runs when an exception leaves the function.
  | .destroy => folder.pc == .ended
  -- The callback does not throw.
  | .callback outcome => outcome == .returned
  | _ => true

-- The watch is constructed after the first `reload_all`.
def construct (s : State) (action : WatchFolder.Action) : Option FileWatch.State :=
  if action = .finish ∧ s.watch = none then some FileWatch.initial else s.watch

def step (s : State) : Action → Option State
  | .folder (.deliver _) => none
  | .folder action =>
      (WatchFolder.step s.folder action).map fun folder =>
        { folder := folder
          watch := construct s action }
  | .watch action =>
      match s.watch with
      | none => none
      | some watch =>
          if allowed s.folder action then
            (FileWatch.step folderFilter watch action).map fun next =>
              { folder := deliver s.folder (called watch action)
                watch := some next }
          else none

def initial : State where
  folder := WatchFolder.initial
  watch := none

def system : System State Action where
  init s := s = initial
  step := step

section Watch

variable {pass : Bytes → Bool} {w v : FileWatch.State} {a : FileWatch.Action} {notice : Notice}

theorem called_delivering {outcome : Outcome} {file : Notice} {rest : List Notice}
    (pc : w.callback = .delivering (file :: rest)) : called w (.callback outcome) = some file := by
  simp only [called, pc]

theorem pending_kept (taken : Step pass w a v) (caught : a ≠ .callback .threwOther)
    (member : notice ∈ w.pending pass) :
    notice ∈ v.pending pass ∨ called w a = some notice := by
  simp only [State.pending, List.mem_append] at member ⊢
  cases taken with
  | happen event _ =>
      simp only [State.queue, notices_append, List.mem_append]
      tauto
  | vanish _ =>
      simp only [State.queue, notices_append, List.mem_append]
      tauto
  | remove _ _ =>
      simp only [State.queue, notices_append, List.mem_append]
      tauto
  | read count pc _ =>
      have parts : notices pass w.unread =
          notices pass (w.unread.take count) ++ notices pass (w.unread.drop count) := by
        rw [← notices_append, List.take_append_drop]
      rw [pc, parts, List.mem_append] at member
      simp only [WatchPc.held, List.not_mem_nil, or_false] at member ⊢
      tauto
  | insert count parsed pc =>
      rw [pc] at member
      simp only [WatchPc.held, List.mem_append, List.not_mem_nil, or_false] at member ⊢
      tauto
  | swap outcome pc =>
      rw [pc] at member
      simp only [CallbackPc.held, List.not_mem_nil, false_or, or_false] at member ⊢
      tauto
  | deliver outcome file rest pc _ =>
      rw [called_delivering pc, Option.some.injEq]
      rw [pc] at member
      simp only [CallbackPc.held, List.mem_cons] at member ⊢
      rcases member with ((((rfl | _) | _) | _) | _) <;> tauto
  | throw file rest pc => exact absurd rfl caught
  | notifyAll count pc =>
      rw [pc] at member
      simp only [notified_held, WatchPc.held] at member ⊢
      tauto
  | signal _ =>
      rw [notified_held]
      tauto
  | _ =>
      left
      simp_all [WatchPc.held, CallbackPc.held]

theorem pending_queue (w : FileWatch.State) (event : InotifyEvent)
    (told : event.notice pass = some notice) : notice ∈ (w.queue event).pending pass := by
  simp [State.pending, State.queue, notices, told]

end Watch

-- The kernel reports a change of a script. It does so while the watch is there, of what its mask
-- names: not of changes during the first `reload_all`, nor of a file that is moved in.
def Action.isReported : Action → Bool
  | .watch (.happen event) => (event.notice folderFilter).any fun notice => endsWithJs notice.1
  | _ => false

def Reloaded (history : List (State × Action)) : Prop :=
  ∀ entry ∈ history.takeWhile (fun entry => entry.2 != .folder .enter), entry.2.isReported = false

def OnTheWay (s : State) : Prop :=
  ∃ watch, s.watch = some watch ∧
    ∃ notice ∈ watch.pending folderFilter, endsWithJs notice.1 = true

structure Invariant (history : List (State × Action)) (s : State) : Prop where
  noticed : s.folder.pc = .ended ∨ InWindow s.folder ∨ s.folder.hasUpdate = true ∨ OnTheWay s ∨
    Reloaded history
  folder : ∃ earlier, WatchFolder.Invariant earlier s.folder
  constructed : s.watch ≠ none → s.folder.watching = true ∨ s.folder.pc = .ended

section Steps

variable {history : List (State × Action)} {s t : State} {a : Action}

theorem reloaded_enter (s : State) (history : List (State × Action)) :
    Reloaded ((s, .folder .enter) :: history) := by
  simp [Reloaded]

theorem reloaded_cons (quiet : a.isReported = false) (reloaded : Reloaded history) :
    Reloaded ((s, a) :: history) := by
  intro entry member
  rw [List.takeWhile_cons] at member
  split_ifs at member
  · rcases List.mem_cons.mp member with rfl | earlier
    · exact quiet
    · exact reloaded entry earlier
  · cases member

@[simp] theorem deliver_pc (folder : WatchFolder.State) (file : Option Notice) :
    (deliver folder file).pc = folder.pc := by
  cases file with
  | none => rfl
  | some file =>
      simp only [deliver, WatchFolder.step]
      split_ifs <;> rfl

@[simp] theorem deliver_watching (folder : WatchFolder.State) (file : Option Notice) :
    (deliver folder file).watching = folder.watching := by
  cases file with
  | none => rfl
  | some file =>
      simp only [deliver, WatchFolder.step]
      split_ifs <;> rfl

theorem deliver_keeps {folder : WatchFolder.State} (file : Option Notice)
    (set : folder.hasUpdate = true) : (deliver folder file).hasUpdate = true := by
  cases file with
  | none => exact set
  | some file =>
      simp only [deliver, WatchFolder.step]
      split_ifs <;> simp [set]

theorem deliver_sets {folder : WatchFolder.State} {file : Notice} (watching : folder.watching = true)
    (script : endsWithJs file.1 = true) : (deliver folder (some file)).hasUpdate = true := by
  simp only [deliver, WatchFolder.step, watching, if_true, Option.getD_some, script, Bool.or_true]

theorem deliver_invariant {folder : WatchFolder.State} (file : Option Notice)
    (holds : ∃ earlier, WatchFolder.Invariant earlier folder) :
    ∃ earlier, WatchFolder.Invariant earlier (deliver folder file) := by
  obtain ⟨earlier, holds⟩ := holds
  cases file with
  | none => exact ⟨earlier, holds⟩
  | some file =>
      cases taken : WatchFolder.step folder (.deliver file.1) with
      | none => exact ⟨earlier, by simpa only [deliver, taken, Option.getD_none] using holds⟩
      | some next =>
          refine ⟨(folder, .deliver file.1) :: earlier, ?_⟩
          simp only [deliver, taken, Option.getD_some]
          exact WatchFolder.invariant_preserved holds taken

theorem noticed_kept (holds : Invariant history s) (outside : s.folder.pc ≠ .entering)
    (running : s.folder.pc ≠ .ended) (quiet : a.isReported = false)
    (flag : t.folder.hasUpdate = s.folder.hasUpdate) (way : OnTheWay s → OnTheWay t) :
    t.folder.pc = .ended ∨ InWindow t.folder ∨ t.folder.hasUpdate = true ∨ OnTheWay t ∨
      Reloaded ((s, a) :: history) := by
  rcases holds.noticed with ended | window | set | pending | reloaded
  · exact absurd ended running
  · exact absurd window.1 outside
  · exact .inr (.inr (.inl (flag.trans set)))
  · exact .inr (.inr (.inr (.inl (way pending))))
  · exact .inr (.inr (.inr (.inr (reloaded_cons quiet reloaded))))

theorem folder_some {action : WatchFolder.Action} (taken : step s (.folder action) = some t) :
    (∀ path, action ≠ .deliver path) ∧ t.watch = construct s action ∧
      WatchFolder.step s.folder action = some t.folder := by
  cases action with
  | deliver path => simp [step] at taken
  | _ =>
      simp only [step, Option.map_eq_some_iff] at taken
      obtain ⟨folder, moved, rfl⟩ := taken
      exact ⟨by simp, rfl, moved⟩

theorem onTheWay_construct {action : WatchFolder.Action} (watch : t.watch = construct s action)
    (way : OnTheWay s) : OnTheWay t := by
  obtain ⟨w, present, pending⟩ := way
  exact ⟨w, by simp [watch, construct, present], pending⟩

theorem watching_kept {folder next : WatchFolder.State} {action : WatchFolder.Action}
    (moved : WatchFolder.step folder action = some next) (silent : ∀ path, action ≠ .deliver path)
    (before : action = .finish ∨ folder.watching = true ∨ folder.pc = .ended) :
    next.watching = true ∨ next.pc = .ended := by
  cases action with
  | deliver path => exact absurd rfl (silent path)
  | _ =>
      simp only [WatchFolder.step, Option.ite_none_right_eq_some, Option.some.injEq] at moved
      obtain ⟨here, rfl⟩ := moved
      simp_all

theorem folder_noticed {action : WatchFolder.Action} (holds : Invariant history s)
    (taken : step s (.folder action) = some t) :
    t.folder.pc = .ended ∨ InWindow t.folder ∨ t.folder.hasUpdate = true ∨ OnTheWay t ∨
      Reloaded ((s, .folder action) :: history) := by
  obtain ⟨silent, watch, moved⟩ := folder_some taken
  obtain ⟨earlier, folderHolds⟩ := holds.folder
  have watched := folderHolds.watched
  have way := onTheWay_construct watch
  cases action with
  | deliver path => exact absurd rfl (silent path)
  | enter => exact .inr (.inr (.inr (.inr (reloaded_enter s history))))
  | fail =>
      simp only [WatchFolder.step, Option.ite_none_right_eq_some, Option.some.injEq] at moved
      exact .inl (by rw [← moved.2])
  | clear =>
      simp only [WatchFolder.step, Option.ite_none_right_eq_some, Option.some.injEq] at moved
      obtain ⟨here, moved⟩ := moved
      refine .inr (.inl ⟨by rw [← moved], ?_⟩)
      rw [← moved]
      exact watched (by simp [here])
  | finish | wake | poll | answer =>
      simp only [WatchFolder.step, Option.ite_none_right_eq_some, Option.some.injEq] at moved
      obtain ⟨here, moved⟩ := moved
      exact noticed_kept holds (by simp [here]) (by simp [here]) rfl (by rw [← moved]) way

theorem folder_preserved {action : WatchFolder.Action} (holds : Invariant history s)
    (taken : step s (.folder action) = some t) :
    Invariant ((s, .folder action) :: history) t := by
  obtain ⟨silent, watch, moved⟩ := folder_some taken
  obtain ⟨earlier, folderHolds⟩ := holds.folder
  refine ⟨folder_noticed holds taken,
    ⟨_, WatchFolder.invariant_preserved folderHolds moved⟩, fun present => ?_⟩
  apply watching_kept moved silent
  by_cases first : action = .finish ∧ s.watch = none
  · exact .inl first.1
  · rw [watch, construct, if_neg first] at present
    exact .inr (holds.constructed present)

theorem watch_some {action : FileWatch.Action} (taken : step s (.watch action) = some t) :
    ∃ w v, s.watch = some w ∧ t.watch = some v ∧ FileWatch.Step folderFilter w action v ∧
      t.folder = deliver s.folder (called w action) ∧ action ≠ .callback .threwOther := by
  simp only [step] at taken
  cases watch : s.watch with
  | none => simp [watch] at taken
  | some w =>
      simp only [watch, Option.ite_none_right_eq_some, Option.map_eq_some_iff] at taken
      obtain ⟨permitted, v, moved, rfl⟩ := taken
      refine ⟨w, v, rfl, rfl, step_some moved, rfl, ?_⟩
      rintro rfl
      cases permitted

theorem onTheWay_of_report {w v : FileWatch.State} {action : FileWatch.Action}
    (moved : FileWatch.Step folderFilter w action v)
    (change : Action.isReported (.watch action) = true) :
    ∃ notice ∈ v.pending folderFilter, endsWithJs notice.1 = true := by
  cases moved with
  | happen event _ =>
      simp only [Action.isReported, Option.any_eq_true] at change
      obtain ⟨notice, told, script⟩ := change
      exact ⟨notice, pending_queue w event told, script⟩
  | _ => cases change

theorem watch_preserved {action : FileWatch.Action} (holds : Invariant history s)
    (taken : step s (.watch action) = some t) :
    Invariant ((s, .watch action) :: history) t := by
  obtain ⟨w, v, before, after, moved, folder, caught⟩ := watch_some taken
  have constructed := holds.constructed (by simp [before])
  refine ⟨?_, ?_, fun _ => ?_⟩
  · rcases holds.noticed with ended | window | set | pending | reloaded
    · exact .inl (by rw [folder, deliver_pc, ended])
    · exact .inr (.inl ⟨by rw [folder, deliver_pc, window.1],
        by rw [folder, deliver_watching, window.2]⟩)
    · exact .inr (.inr (.inl (by rw [folder]; exact deliver_keeps _ set)))
    · obtain ⟨u, present, notice, member, script⟩ := pending
      rw [before, Option.some.injEq] at present
      subst present
      rcases pending_kept moved caught member with later | now
      · exact .inr (.inr (.inr (.inl ⟨v, after, notice, later, script⟩)))
      · rcases constructed with watching | ended
        · exact .inr (.inr (.inl (by rw [folder, now]; exact deliver_sets watching script)))
        · exact .inl (by rw [folder, deliver_pc, ended])
    · cases change : Action.isReported (.watch action) with
      | true => exact .inr (.inr (.inr (.inl ⟨v, after, onTheWay_of_report moved change⟩)))
      | false => exact .inr (.inr (.inr (.inr (reloaded_cons change reloaded))))
  · rw [folder]
    exact deliver_invariant _ holds.folder
  · rw [folder, deliver_watching, deliver_pc]
    exact constructed

theorem invariant_initial : Invariant [] initial :=
  ⟨.inr (.inr (.inr (.inr (by simp [Reloaded])))), ⟨[], WatchFolder.invariant_initial⟩,
    by simp [initial]⟩

theorem changes_reloaded (run : Run system history s) (running : s.folder.pc ≠ .ended)
    (outside : ¬ InWindow s.folder) (clear : s.folder.hasUpdate = false)
    (arrived : ¬ OnTheWay s) : Reloaded history := by
  have holds : Invariant history s := by
    refine run.along Invariant ?_ fun history u a v earlier taken => ?_
    · rintro _ rfl
      exact invariant_initial
    · cases a with
      | folder action => exact folder_preserved earlier taken
      | watch action => exact watch_preserved earlier taken
  have noticed := (holds.noticed.resolve_left running).resolve_left outside
  exact (noticed.resolve_left (by simp [clear])).resolve_left arrived

def createAndReload : List Action :=
  [.folder .enter, .folder .finish, .watch (.watch 0), .watch (.happen created)] ++
    List.replicate 4 (.watch (.watch 1)) ++ List.replicate 5 (.watch (.callback .returned)) ++
    [.folder .wake, .folder .poll, .folder (.answer true), .folder .clear, .folder .enter]

theorem changes_reloaded_after_create :
    ∃ history t, Run system history t ∧ (∃ entry ∈ history, entry.2.isReported = true) ∧
      Reloaded history := by
  obtain ⟨history, t, run, checked⟩ := system.exists_run (s := initial) rfl createAndReload
    (fun history t => t.folder.pc == .reloading && !t.folder.hasUpdate &&
      (t.watch.all fun watch => watch.pending folderFilter == []) &&
      history.any fun entry => entry.2.isReported) (by decide +kernel)
  simp only [Bool.and_eq_true, beq_iff_eq, Bool.not_eq_true', List.any_eq_true] at checked
  obtain ⟨⟨⟨reloading, clear⟩, empty⟩, change⟩ := checked
  refine ⟨history, t, run, change,
    changes_reloaded run (by simp [reloading]) (by simp [InWindow, reloading]) clear ?_⟩
  rintro ⟨watch, present, notice, member, _⟩
  simp only [present, Option.all_some, beq_iff_eq] at empty
  simp [empty] at member

end Steps

end BreezeJs.FileReload
