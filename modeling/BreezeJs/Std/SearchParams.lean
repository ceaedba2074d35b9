import BreezeJs.Std.UrlParams

set_option autoImplicit false

namespace BreezeJs.UrlStore

open Transition Infra

section Objects

variable {dot : UInt8 → Bool} {s t : Store} {a : Action} {u v p q : Nat}

theorem current_setSearch {newSearch : Bytes} (taken : s.setSearch u newSearch = some t) :
    t.currentParams v = s.currentParams v ∧ t.handles = s.handles := by
  rw [setSearch_eq] at taken
  obtain ⟨p, _, rfl⟩ := Option.map_eq_some_iff.mp taken
  exact ⟨currentParams_updateUrl fun _ => rfl, rfl⟩

theorem current_edit {f : PairList → PairList} (taken : s.edit p f = some t) :
    t.currentParams v = s.currentParams v ∧ t.handles = s.handles := by
  obtain ⟨params, _, updated⟩ := Option.bind_eq_some_iff.mp taken
  split at updated
  · cases updated
    exact ⟨rfl, rfl⟩
  · exact current_setSearch (s := s.updateList p f) updated

theorem current_mutate {mutation : Mutation} (taken : s.mutate p mutation = some t) :
    t.currentParams v = s.currentParams v ∧ t.handles = s.handles := by
  let unchanged (w : Store) : Prop := w.currentParams v = s.currentParams v ∧ w.handles = s.handles
  have start : unchanged s := ⟨rfl, rfl⟩
  refine mutate_of_edit (fun before after f edited same => ?_) taken start
  have kept := current_edit (v := v) edited
  exact ⟨kept.1.trans same.1, kept.2.trans same.2⟩

def renews (dot : UInt8 → Bool) (u : Nat) : Action → Bool
  | .setHref v newHref => v == u && (matchUrl dot newHref).isSome
  | _ => false

theorem current_step (taken : Step dot s a t) (current : s.currentParams u = some p) :
    t.currentParams u = some (if renews dot u a then s.params.length else p) := by
  have inside : u < s.urls.length := by
    obtain ⟨url, here, _⟩ := Option.bind_eq_some_iff.mp current
    exact (List.getElem?_eq_some_iff.mp here).1
  cases taken with
  | newUrl matched =>
      rw [currentParams_parsed _ (by omega), currentParams_withBlank]
      exact current
  | newBlankUrl => exact (currentParams_withBlank u).trans current
  | assign v setter value =>
      exact (currentParams_updateUrl fun url => (assign_keeps setter value url).2.1).trans current
  | setSearch found => exact (current_setSearch found).1.trans current
  | @setHref v newHref components here matched =>
      by_cases same : v = u
      · subst same
        simp [renews, matched, currentParams_parsed_same components here]
      · simpa [renews, same, currentParams_parsed components same] using current
  | badHref matched => simpa [renews, matched] using current
  | mutate found => exact (current_mutate found).1.trans current
  | _ => exact current

structure Coherent (s : Store) (u : Nat) (url : Url) (p : Nat) (params : Params) : Prop where
  here : s.urls[u]? = some url
  current : url.searchParams = some p
  object : s.params[p]? = some params
  back : params.urlObject = some u
  list : params.list = URLSearchParams.parseQueryString url.search
  href : url.href = url.serializeUrl

theorem coherent_of_valid (valid : Valid s) (current : s.currentParams u = some p) :
    ∃ url params, Coherent s u url p params := by
  obtain ⟨url, here, holds⟩ := Option.bind_eq_some_iff.mp current
  obtain ⟨params, object, back⟩ := valid.linked u p current
  obtain ⟨listed, href⟩ := valid.agrees u url p here holds
  rw [Store.listOf, object] at listed
  exact ⟨url, params, here, holds, object, back, Option.some.inj listed, href⟩

theorem built_current {urlString : Bytes} (built : s.newUrl dot urlString = .done t) :
    t.currentParams s.urls.length = some s.params.length := by
  rw [newUrl_eq] at built
  split at built
  · cases built
  · cases built
    exact currentParams_parsed_same _ (by simp [Store.withBlank])

theorem thrown_unchanged {newHref : Bytes} {message : String} (valid : Valid s)
    (here : u < s.urls.length) (threw : s.setHref dot u newHref = .thrown t message) : t = s := by
  rw [setHref_eq valid here] at threw
  split at threw
  · cases threw
    rfl
  · cases threw

theorem built_reachable {urlString : Bytes} (reached : Reachable (system dot) s)
    (built : s.newUrl dot urlString = .done t) {w : Store}
    (later : Reachable ((system dot).after t) w) :
    Valid w ∧ ∃ p, w.currentParams s.urls.length = some p := by
  have stepped : (system dot).step s (.newUrl urlString) = some t := by
    simp [system, step, callable, call, built]
  apply later.invariant (fun w => Valid w ∧ ∃ p, w.currentParams s.urls.length = some p)
  · rintro _ rfl
    exact ⟨valid_reachable (reached.next stepped), _, built_current built⟩
  · rintro w a x ⟨valid, p, current⟩ taken
    have stepped := step_some valid taken
    exact ⟨valid_step stepped valid, _, current_step stepped current⟩

/-- Whatever calls follow its construction, a URL has a query object, which points back to it and
lists its query, and an href that says what its components say. A `set_href` that throws changes
nothing. -/
theorem url_stays_coherent {urlString : Bytes} {w : Store} (reached : Reachable (system dot) s)
    (built : s.newUrl dot urlString = .done t) (later : Reachable ((system dot).after t) w) :
    (∃ url p params, Coherent w s.urls.length url p params) ∧
      ∀ newHref x message, w.setHref dot s.urls.length newHref = .thrown x message → x = w := by
  obtain ⟨valid, p, current⟩ := built_reachable reached built later
  obtain ⟨url, params, coherent⟩ := coherent_of_valid valid current
  refine ⟨⟨url, p, params, coherent⟩, fun newHref x message threw => ?_⟩
  exact thrown_unchanged valid (List.getElem?_eq_some_iff.mp coherent.here).1 threw

end Objects

theorem stale_write_coherent :
    ∃ w url p params, Coherent w 0 url p params ∧ url.href = text "ftp://g?x=1&a=b#z" := by
  let components : Components :=
    ⟨text "http:", [], [], text "h", [], text "/p", text "x=1", []⟩
  let t := initial.withBlank.parsed 0 components
  have built : initial.newUrl anyByte (text "http://h/p?x=1") = .done t := by
    rw [newUrl_eq, show matchUrl anyByte (text "http://h/p?x=1") = some components by
      decide +kernel]
    rfl
  obtain ⟨history, w, run, checked⟩ := ((system anyByte).after t).exists_run (s := t) rfl
    [.getSearchParams 0, .setHref 0 (text "ftp://g?y=2#z"),
      .mutate 0 (.append (text "a") (text "b"))]
    (fun _ w => w.urls[0]?.map (fun url => url.href) == some (text "ftp://g?x=1&a=b#z"))
    (by decide +kernel)
  obtain ⟨⟨url, p, params, coherent⟩, _⟩ :=
    url_stays_coherent ⟨[], .start rfl⟩ built run.reachable
  refine ⟨w, url, p, params, coherent, ?_⟩
  have here := coherent.here
  simp only [initial, List.length_nil] at here
  simpa [here] using checked

def Mutation.apply : Mutation → PairList → PairList
  | .append name value => appendPair name value
  | .remove name value => removePairs name value
  | .set name value => appendPair name value ∘ removePairs name []
  | .sort outcome => fun _ => outcome

def Mutation.perform (list : PairList) (mutation : Mutation) : Option PairList :=
  match mutation with
  | .sort outcome => if sortsTo list outcome then some outcome else none
  | _ => some (mutation.apply list)

section Mutations

variable {dot : UInt8 → Bool} {s t : Store} {u p q : Nat} {list : PairList}

structure Attached (s : Store) (u p : Nat) (list : PairList) : Prop where
  current : s.currentParams u = some p
  object : s.params[p]? = some ⟨list, some u⟩

theorem toString_unmarked (list : PairList) :
    dropMark '?' (URLSearchParams.toString list) = URLSearchParams.toString list := by
  cases list with
  | nil => rfl
  | cons pair rest =>
      obtain ⟨tail, split, _⟩ := URLSearchParams.toString_cons pair rest
      rw [split, URLSearchParams.encodePair]
      cases name : percentEncode pair.1 with
      | nil => rfl
      | cons c more =>
          have plain := (URLSearchParams.percentEncode_separators pair.1 c (by simp [name])).2.2
          simp [dropMark, plain]

theorem edited_params {object : Option Nat} (here : s.params[p]? = some ⟨list, object⟩)
    (f : PairList → PairList) : (s.updateList p f).params[p]? = some ⟨f list, object⟩ := by
  rw [params_updateList, here]
  simp

theorem edit_alone (here : s.params[p]? = some ⟨list, none⟩) (f : PairList → PairList) :
    s.edit p f = some (s.updateList p f) := by
  simp [Store.edit, Store.updateUrlQuery, edited_params here f]

theorem edit_through (here : s.params[p]? = some ⟨list, some u⟩)
    (current : s.currentParams u = some q) (f : PairList → PairList) :
    s.edit p f = some ((s.updateList p f).write u q (URLSearchParams.toString (f list))) := by
  have moved : (s.updateList p f).currentParams u = some q := current
  simp only [Store.edit, Store.updateUrlQuery, edited_params here f, Option.bind_some, setSearch_eq,
    moved, Option.map_some, toString_unmarked]

theorem edit_attached (attached : Attached s u p list) (f : PairList → PairList) :
    ∃ t, s.edit p f = some t ∧ Attached t u p (f list) ∧
      ∃ url, t.urls[u]? = some url ∧ url.search = URLSearchParams.toString (f list) := by
  have written := edit_through attached.object attached.current f
  obtain ⟨url, here, _⟩ := Option.bind_eq_some_iff.mp attached.current
  refine ⟨_, written, ⟨(current_edit written).1.trans attached.current, ?_⟩, _,
    write_url _ here, rfl⟩
  rw [Store.write, params_updateList, params_updateUrl, edited_params attached.object f]
  simp [URLSearchParams.parseQueryString_toString]

theorem mutate_goes (before after : Store → PairList → Prop)
    (weaker : ∀ s list, after s list → before s list)
    (goes : ∀ s list f, before s list → ∃ t, s.edit p f = some t ∧ after t (f list))
    (start : before s list) (mutation : Mutation) :
    ∃ t, s.mutate p mutation = some t ∧ after t (mutation.apply list) := by
  cases mutation with
  | set name value =>
      obtain ⟨between, removed, still⟩ := goes s list (removePairs name []) start
      obtain ⟨t, appended, later⟩ := goes between _ (appendPair name value) (weaker _ _ still)
      exact ⟨t, Option.bind_eq_some_iff.mpr ⟨between, removed, appended⟩, later⟩
  | append name value => exact goes s list _ start
  | remove name value => exact goes s list _ start
  | sort outcome => exact goes s list _ start

theorem mutate_attached (attached : Attached s u p list) (mutation : Mutation) :
    ∃ t, s.mutate p mutation = some t ∧ Attached t u p (mutation.apply list) ∧
      ∃ url, t.urls[u]? = some url ∧
        url.search = URLSearchParams.toString (mutation.apply list) := by
  apply mutate_goes (fun s list => Attached s u p list) fun t list => Attached t u p list ∧
    ∃ url, t.urls[u]? = some url ∧ url.search = URLSearchParams.toString list
  · intro s list both
    exact both.1
  · intro s list f attached
    exact edit_attached attached f
  · exact attached

theorem edit_detached (object : s.params[p]? = some ⟨list, none⟩) (f : PairList → PairList) :
    ∃ t, s.edit p f = some t ∧ t.params[p]? = some ⟨f list, none⟩ :=
  ⟨s.updateList p f, edit_alone object f, edited_params object f⟩

theorem mutate_detached (object : s.params[p]? = some ⟨list, none⟩) (mutation : Mutation) :
    ∃ t, s.mutate p mutation = some t ∧ t.params[p]? = some ⟨mutation.apply list, none⟩ := by
  apply mutate_goes (fun s list => s.params[p]? = some ⟨list, none⟩)
    fun s list => s.params[p]? = some ⟨list, none⟩
  · intro s list still
    exact still
  · intro s list f object
    exact edit_detached object f
  · exact object

theorem step_mutate {object : Option Nat} (here : s.params[p]? = some ⟨list, object⟩)
    (mutation : Mutation) (went : s.mutate p mutation = some t) :
    step dot s (.mutate p mutation) = (mutation.perform list).map fun _ => t := by
  have inside := (List.getElem?_eq_some_iff.mp here).1
  have listed : s.listOf p = some list := by simp [Store.listOf, here]
  cases mutation with
  | sort outcome =>
      simp only [step, callable, listed, Option.any_some, call, went, finished, Mutation.perform]
      split_ifs <;> rfl
  | _ => simp [step, callable, inside, call, went, finished, Mutation.perform]

def mutateAll (dot : UInt8 → Bool) (p : Nat) (mutations : List Mutation) (s : Store) :
    Option Store :=
  mutations.foldlM (fun s mutation => step dot s (.mutate p mutation)) s

theorem perform_some {later : PairList} {mutation : Mutation}
    (performed : mutation.perform list = some later) : later = mutation.apply list := by
  cases mutation with
  | sort outcome =>
      simp only [Mutation.perform] at performed
      split_ifs at performed
      cases performed
      rfl
  | _ => exact (Option.some.inj performed).symm

theorem mutateAll_list (holds : Store → PairList → Prop)
    (object : ∀ s list, holds s list → ∃ object, s.params[p]? = some ⟨list, object⟩)
    (goes : ∀ s list, holds s list → ∀ mutation : Mutation,
      ∃ t, s.mutate p mutation = some t ∧ holds t (mutation.apply list))
    (start : holds s list) (mutations : List Mutation) :
    (mutateAll dot p mutations s).bind (fun s => s.listOf p) =
      mutations.foldlM Mutation.perform list := by
  induction mutations generalizing s list with
  | nil =>
      obtain ⟨object, here⟩ := object s list start
      simp [mutateAll, Store.listOf, here]
  | cons mutation rest ih =>
      obtain ⟨object, here⟩ := object s list start
      obtain ⟨t, went, still⟩ := goes s list start mutation
      have stepped : step dot s (.mutate p mutation) = (mutation.perform list).map fun _ => t :=
        step_mutate here mutation went
      simp only [mutateAll, List.foldlM_cons, stepped, bind]
      cases performed : mutation.perform list with
      | none => rfl
      | some later =>
          rw [perform_some performed]
          exact ih still

/-- The list of a query object that belongs to a URL and the list of one that belongs to none go
through the same changes. -/
theorem attached_as_detached (mutations : List Mutation) (attached : Attached s u p list)
    (detached : t.params[q]? = some ⟨list, none⟩) :
    (mutateAll dot p mutations s).bind (fun s => s.listOf p) =
        (mutateAll dot q mutations t).bind (fun t => t.listOf q) ∧
      (mutateAll dot p mutations s).bind (fun s => s.listOf p) =
        mutations.foldlM Mutation.perform list := by
  have first : (mutateAll dot p mutations s).bind (fun s => s.listOf p) =
      mutations.foldlM Mutation.perform list :=
    mutateAll_list (fun s list => Attached s u p list)
      (fun _ _ attached => ⟨_, attached.object⟩)
      (fun _ _ attached mutation => by
        obtain ⟨t, went, still, _⟩ := mutate_attached attached mutation
        exact ⟨t, went, still⟩) attached mutations
  have second : (mutateAll dot q mutations t).bind (fun t => t.listOf q) =
      mutations.foldlM Mutation.perform list :=
    mutateAll_list (fun t list => t.params[q]? = some ⟨list, none⟩)
      (fun _ _ detached => ⟨_, detached⟩)
      (fun _ _ detached mutation => mutate_detached detached mutation) detached mutations
  exact ⟨first.trans second.symm, first⟩

end Mutations

theorem attached_as_detached_example :
    ∃ s t, Attached s 0 0 [(text "a", text "&="), (text "b", [])] ∧
      (mutateAll anyByte 0 [.set (text "b") (text "?%"), .append [] [],
        .sort [([], []), (text "a", text "&="), (text "b", text "?%")]] s).bind
          (fun s => s.listOf 0) =
      (mutateAll anyByte 0 [.set (text "b") (text "?%"), .append [] [],
        .sort [([], []), (text "a", text "&="), (text "b", text "?%")]] t).bind
          (fun t => t.listOf 0) ∧
      (mutateAll anyByte 0 [.set (text "b") (text "?%"), .append [] [],
        .sort [([], []), (text "a", text "&="), (text "b", text "?%")]] t).isSome = true := by
  let components : Components :=
    ⟨text "http:", [], [], text "h", [], [], text "a=%26%3D&b=", []⟩
  let s := initial.withBlank.parsed 0 components
  let t := initial.withParams [(text "a", text "&="), (text "b", [])]
  have attached : Attached s 0 0 [(text "a", text "&="), (text "b", [])] :=
    ⟨by decide +kernel, by decide +kernel⟩
  have detached : t.params[0]? = some ⟨[(text "a", text "&="), (text "b", [])], none⟩ := rfl
  exact ⟨s, t, attached, (attached_as_detached _ attached detached).1, by decide +kernel⟩

def Stands (s : Store) (u p : Nat) : Prop :=
  s.currentParams u = some p ∧ ∃ url, s.urls[u]? = some url ∧
    s.listOf p = some (URLSearchParams.parseQueryString url.search) ∧
    ∀ mutation : Mutation, ∃ t later, s.mutate p mutation = some t ∧ t.urls[u]? = some later ∧
      later.search = URLSearchParams.toString
        (mutation.apply (URLSearchParams.parseQueryString url.search)) ∧
      t.listOf p = some (mutation.apply (URLSearchParams.parseQueryString url.search))

def HandlesStand (s : Store) : Prop :=
  ∀ handle ∈ s.handles, Stands s handle.1 handle.2

def orphans (dot : UInt8 → Bool) (s : Store) : Action → Bool
  | .setHref u newHref =>
      (matchUrl dot newHref).isSome && s.handles.any fun handle => handle.1 == u
  | _ => false

structure Held (s : Store) : Prop where
  valid : Valid s
  current : ∀ handle ∈ s.handles, s.currentParams handle.1 = some handle.2

section Handles

variable {dot : UInt8 → Bool} {s t : Store} {a : Action} {u p : Nat}

theorem stands_of_current (valid : Valid s) (current : s.currentParams u = some p) :
    Stands s u p := by
  obtain ⟨url, params, coherent⟩ := coherent_of_valid valid current
  have attached : Attached s u p (URLSearchParams.parseQueryString url.search) := by
    refine ⟨current, ?_⟩
    rw [coherent.object, ← coherent.list, ← coherent.back]
  refine ⟨current, url, coherent.here, by simp [Store.listOf, attached.object], fun mutation => ?_⟩
  obtain ⟨t, went, still, later, here, written⟩ := mutate_attached attached mutation
  exact ⟨t, later, went, here, written, by simp [Store.listOf, still.object]⟩

theorem handles_step (taken : Step dot s a t) :
    t.handles = s.handles ∨
      ∃ u p, t = s.withHandle u ∧ s.currentParams u = some p ∧ t.handles = s.handles ++ [(u, p)] := by
  cases taken with
  | getSearchParams u =>
      cases current : s.currentParams u with
      | none => exact .inl (by simp [Store.withHandle, current])
      | some p => exact .inr ⟨u, p, rfl, current, by simp [Store.withHandle, current]⟩
  | setSearch found => exact .inl (current_setSearch (v := 0) found).2
  | mutate found => exact .inl (current_mutate (v := 0) found).2
  | _ => exact .inl rfl

theorem held_step (taken : Step dot s a t) (kept : orphans dot s a = false) (held : Held s) :
    Held t := by
  refine ⟨valid_step taken held.valid, fun handle member => ?_⟩
  rcases handles_step taken with same | ⟨u, p, rfl, current, added⟩
  · rw [same] at member
    have moved := current_step taken (held.current handle member)
    have old : renews dot handle.1 a = false := by
      cases a with
      | setHref v newHref =>
          simp only [orphans, Bool.and_eq_false_iff, List.any_eq_false, beq_iff_eq] at kept
          simp only [renews, Bool.and_eq_false_iff, beq_eq_false_iff_ne]
          rcases kept with refused | apart
          · exact .inr refused
          · exact .inl fun same => apart handle member same.symm
      | _ => rfl
    simpa [old] using moved
  · rw [added, List.mem_append, List.mem_singleton] at member
    rcases member with old | rfl
    · exact held.current handle old
    · exact current

theorem orphan_falls (taken : Step dot s a t) (lost : orphans dot s a = true) (held : Held s) :
    ¬ HandlesStand t := by
  cases a with
  | setHref v newHref =>
      simp only [orphans, Bool.and_eq_true, List.any_eq_true, beq_iff_eq] at lost
      obtain ⟨matched, handle, member, mine⟩ := lost
      have before := held.current handle member
      have after := current_step taken before
      obtain ⟨params, object, _⟩ := held.valid.linked handle.1 handle.2 before
      have old := (List.getElem?_eq_some_iff.mp object).1
      intro stand
      have kept : handle ∈ t.handles := by
        rcases handles_step taken with same | ⟨_, _, _, _, added⟩
        · rwa [same]
        · rw [added]
          exact List.mem_append_left _ member
      have renewed : renews dot handle.1 (.setHref v newHref) = true := by
        simp [renews, mine, matched]
      rw [renewed, if_pos rfl] at after
      have now := Option.some.inj (after.symm.trans (stand handle kept).1)
      omega
  | _ => simp [orphans] at lost

/-- Every handle stands for its URL in every state of a run if and only if no `set_href` of the run
succeeds on a URL that a handle was taken from. -/
theorem handles_stand_iff {history : List (Store × Action)} (run : Run (system dot) history s) :
    (HandlesStand s ∧ ∀ entry ∈ history, HandlesStand entry.1) ↔
      ∀ entry ∈ history, orphans dot entry.1 entry.2 = false := by
  apply run.always_iff (fun s a => orphans dot s a = false) HandlesStand Held
  · rintro _ rfl
    exact ⟨valid_initial, by simp [initial]⟩
  · intro s held handle member
    exact stands_of_current held.valid (held.current handle member)
  · intro s a t held kept taken
    exact held_step (step_some held.valid taken) kept held
  · intro s a t held lost taken
    exact orphan_falls (step_some held.valid taken) (by simpa using lost) held

end Handles

theorem handle_stands_example :
    ∃ history s, Run (system anyByte) history s ∧ s.handles = [(0, 0)] ∧
      s.listOf 0 = some [(text "x", text "3")] ∧ HandlesStand s := by
  obtain ⟨history, s, run, checked⟩ := (system anyByte).exists_run rfl
    [.newUrl (text "http://h/p?x=1"), .getSearchParams 0, .newUrl (text "http://g"),
      .setHref 1 (text "http://g?z=0"), .setHref 0 (text "nowhere"), .setSearch 0 (text "?x=2"),
      .mutate 0 (.set (text "x") (text "3"))]
    (fun history s => s.handles == [(0, 0)] && s.listOf 0 == some [(text "x", text "3")] &&
      history.all fun entry => !orphans anyByte entry.1 entry.2) (by decide +kernel)
  simp only [Bool.and_eq_true, beq_iff_eq, List.all_eq_true, Bool.not_eq_true'] at checked
  exact ⟨history, s, run, checked.1.1, checked.1.2, ((handles_stand_iff run).mpr checked.2).1⟩

theorem handle_orphaned :
    ∃ s t, Reachable (system anyByte) s ∧ s.handles = [(0, 0)] ∧ s.currentParams 0 = some 1 ∧
      s.listOf 0 = some [(text "x", text "1")] ∧
      s.urls.map (fun url => url.search) = [text "y=2"] ∧
      step anyByte s (.mutate 0 (.append (text "a") (text "b"))) = some t ∧
      t.urls.map (fun url => url.search) = [text "x=1&a=b"] := by
  obtain ⟨history, s, run, checked⟩ := (system anyByte).exists_run rfl
    [.newUrl (text "http://h/p?x=1"), .getSearchParams 0, .setHref 0 (text "http://h/p?y=2")]
    (fun _ s => s.handles == [(0, 0)] && s.currentParams 0 == some 1 &&
      s.listOf 0 == some [(text "x", text "1")] &&
      s.urls.map (fun url => url.search) == [text "y=2"] &&
      (step anyByte s (.mutate 0 (.append (text "a") (text "b")))).any fun t =>
        t.urls.map (fun url => url.search) == [text "x=1&a=b"]) (by decide +kernel)
  simp only [Bool.and_eq_true, beq_iff_eq, Option.any_eq_true] at checked
  obtain ⟨⟨⟨⟨handles, current⟩, list⟩, search⟩, t, stepped, later⟩ := checked
  exact ⟨s, t, run.reachable, handles, current, list, search, stepped, later⟩

end BreezeJs.UrlStore
