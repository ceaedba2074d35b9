import BreezeJs.Std.Url

set_option autoImplicit false

namespace BreezeJs.UrlStore

open Transition Infra

def Linked (s : Store) : Prop :=
  ∀ u p, s.currentParams u = some p → ∃ params, s.params[p]? = some params ∧
    params.urlObject = some u

def Agrees (s : Store) (u : Nat) : Prop :=
  ∀ url p, s.urls[u]? = some url → url.searchParams = some p →
    s.listOf p = some (URLSearchParams.parseQueryString url.search) ∧ url.href = url.serializeUrl

structure Valid (s : Store) : Prop where
  linked : Linked s
  agrees : ∀ u, Agrees s u

theorem assign_keeps (setter : Setter) (value : Bytes) (url : Url) :
    (setter.assign value url).search = url.search ∧
      (setter.assign value url).searchParams = url.searchParams ∧
      (url.href = url.serializeUrl →
        (setter.assign value url).href = (setter.assign value url).serializeUrl) := by
  cases setter with
  | protocol residue => exact ⟨rfl, rfl, fun _ => rfl⟩
  | hash => exact ⟨rfl, rfl, fun _ => rfl⟩
  | _ =>
      simp only [Setter.assign, Url.setUsername, Url.setPassword, Url.setHost, Url.setHostname,
        Url.setPort, Url.setPathname]
      split_ifs <;> exact ⟨rfl, rfl, fun coherent => by first | exact coherent | rfl⟩

section Frame

variable {s t : Store} {u v p q : Nat}

theorem urls_updateUrl (f : Url → Url) :
    (s.updateUrl u f).urls[v]? = s.urls[v]?.map fun url => if u = v then f url else url := by
  simp only [Store.updateUrl, List.getElem?_modify]
  split_ifs <;> simp

@[simp] theorem params_updateUrl (f : Url → Url) : (s.updateUrl u f).params = s.params := rfl

theorem params_updateList (f : PairList → PairList) :
    (s.updateList p f).params[q]? = s.params[q]?.map fun params =>
      if p = q then { params with list := f params.list } else params := by
  simp only [Store.updateList, List.getElem?_modify]
  split_ifs <;> simp

theorem listOf_updateList (f : PairList → PairList) :
    (s.updateList p f).listOf p = (s.listOf p).map f := by
  simp [Store.listOf, params_updateList, Function.comp_def]

theorem listOf_updateList_ne (f : PairList → PairList) (apart : p ≠ q) :
    (s.updateList p f).listOf q = s.listOf q := by
  simp [Store.listOf, params_updateList, apart]

theorem currentParams_updateUrl {f : Url → Url}
    (keeps : ∀ url, (f url).searchParams = url.searchParams) :
    (s.updateUrl u f).currentParams v = s.currentParams v := by
  simp only [Store.currentParams, urls_updateUrl, Option.bind_map]
  congr 1
  funext url
  simp only [Function.comp_apply]
  split_ifs
  · exact keeps url
  · rfl

theorem agrees_frame (agrees : Agrees s v) (urls : t.urls[v]? = s.urls[v]?)
    (lists : ∀ p, s.currentParams v = some p → t.listOf p = s.listOf p) : Agrees t v := by
  intro url p here current
  rw [urls] at here
  rw [lists p (by simp [Store.currentParams, here, current])]
  exact agrees url p here current

theorem linked_frame (linked : Linked s) (current : ∀ v, t.currentParams v = s.currentParams v)
    (objects : ∀ (p : Nat) (params : Params), s.params[p]? = some params →
      ∃ later, t.params[p]? = some later ∧ later.urlObject = params.urlObject) : Linked t := by
  intro v p here
  rw [current] at here
  obtain ⟨params, known, back⟩ := linked v p here
  obtain ⟨later, found, same⟩ := objects p params known
  exact ⟨later, found, same.trans back⟩

theorem linked_updateList (linked : Linked s) (f : PairList → PairList) :
    Linked (s.updateList p f) := by
  refine linked_frame (t := s.updateList p f) linked (fun _ => rfl) ?_
  intro q params known
  refine ⟨_, by rw [params_updateList, known]; rfl, ?_⟩
  split_ifs <;> rfl

theorem linked_updateUrl (linked : Linked s) {f : Url → Url}
    (keeps : ∀ url, (f url).searchParams = url.searchParams) : Linked (s.updateUrl u f) :=
  linked_frame linked (fun _ => currentParams_updateUrl keeps) fun _ params known =>
    ⟨params, known, rfl⟩

theorem current_unique (linked : Linked s) (first : s.currentParams u = some p)
    (second : s.currentParams v = some p) : u = v := by
  obtain ⟨params, known, back⟩ := linked u p first
  obtain ⟨same, found, other⟩ := linked v p second
  rw [known] at found
  cases found
  rw [back] at other
  exact Option.some.inj other

end Frame

def Store.write (s : Store) (u p : Nat) (search : Bytes) : Store :=
  (s.updateUrl u fun url => Url.refresh { url with search := search }).updateList p
    fun _ => URLSearchParams.parseQueryString search

section Queries

variable {s t : Store} {u p : Nat}

theorem setSearch_eq (s : Store) (u : Nat) (newSearch : Bytes) :
    s.setSearch u newSearch =
      (s.currentParams u).map fun p => s.write u p (dropMark '?' newSearch) := by
  simp only [Store.setSearch]
  congr 1
  funext p
  split_ifs with empty
  · rw [List.isEmpty_iff.mp empty]
    rfl
  · rfl

theorem write_url (search : Bytes) {url : Url} (here : s.urls[u]? = some url) :
    (s.write u p search).urls[u]? = some (Url.refresh { url with search := search }) := by
  have changed := urls_updateUrl (s := s) (u := u) (v := u)
    fun url => Url.refresh { url with search := search }
  rw [here] at changed
  simpa [Store.write, Store.updateList] using changed

theorem write_list (search : Bytes) {list : PairList} (here : s.listOf p = some list) :
    (s.write u p search).listOf p = some (URLSearchParams.parseQueryString search) := by
  have same : (s.updateUrl u fun url => Url.refresh { url with search := search }).listOf p =
      some list := here
  rw [Store.write, listOf_updateList, same]
  rfl

theorem valid_write (linked : Linked s) (current : s.currentParams u = some p)
    (others : ∀ v, v ≠ u → Agrees s v) (search : Bytes) : Valid (s.write u p search) := by
  have keeps : ∀ url : Url, (Url.refresh { url with search := search }).searchParams =
      url.searchParams := fun _ => rfl
  refine ⟨linked_updateList (linked_updateUrl linked keeps) _, fun v => ?_⟩
  by_cases same : v = u
  · subst same
    obtain ⟨params, known, _⟩ := linked v p current
    obtain ⟨url, here, holds⟩ := Option.bind_eq_some_iff.mp current
    intro later q found own
    rw [write_url search here] at found
    cases found
    have mine : q = p := Option.some.inj (own.symm.trans holds)
    subst mine
    have listed : s.listOf q = some params.list := by simp [Store.listOf, known]
    exact ⟨write_list search listed, rfl⟩
  · apply agrees_frame (others v same)
    · have untouched := urls_updateUrl (s := s) (u := u) (v := v)
        fun url => Url.refresh { url with search := search }
      simpa [Store.write, Store.updateList, Ne.symm same] using untouched
    · intro q own
      have apart : p ≠ q := by
        rintro rfl
        exact same (current_unique linked own current)
      rw [Store.write, listOf_updateList_ne _ apart]
      rfl

theorem valid_setSearch (linked : Linked s) (others : ∀ v, v ≠ u → Agrees s v) {newSearch : Bytes}
    (taken : s.setSearch u newSearch = some t) : Valid t := by
  rw [setSearch_eq] at taken
  obtain ⟨p, current, rfl⟩ := Option.map_eq_some_iff.mp taken
  exact valid_write linked current others _

def Store.edit (s : Store) (p : Nat) (f : PairList → PairList) : Option Store :=
  (s.updateList p f).updateUrlQuery p

theorem valid_edit (valid : Valid s) {f : PairList → PairList} (taken : s.edit p f = some t) :
    Valid t := by
  obtain ⟨params, found, updated⟩ := Option.bind_eq_some_iff.mp taken
  rw [params_updateList] at found
  obtain ⟨before, known, rfl⟩ := Option.map_eq_some_iff.mp found
  have linked := linked_updateList (p := p) valid.linked f
  have others {u : Nat} (apart : s.currentParams u ≠ some p) : Agrees (s.updateList p f) u := by
    refine agrees_frame (t := s.updateList p f) (valid.agrees u) rfl fun q own => ?_
    apply listOf_updateList_ne
    rintro rfl
    exact apart own
  simp only [if_true] at updated
  split at updated
  · next alone =>
      cases updated
      refine ⟨linked, fun u => others fun own => ?_⟩
      obtain ⟨params, here, back⟩ := valid.linked u p own
      rw [known] at here
      cases here
      rw [alone] at back
      cases back
  · next u owner =>
      refine valid_setSearch linked (fun v apart => others fun own => apart ?_) updated
      obtain ⟨params, here, back⟩ := valid.linked v p own
      rw [known] at here
      cases here
      rw [owner] at back
      exact (Option.some.inj back).symm

theorem mutate_of_edit {holds : Store → Prop}
    (edit : ∀ s t f, s.edit p f = some t → holds s → holds t) {mutation : Mutation}
    (taken : s.mutate p mutation = some t) (known : holds s) : holds t := by
  cases mutation with
  | append name value => exact edit s t _ taken known
  | remove name value => exact edit s t _ taken known
  | set name value =>
      obtain ⟨between, removed, appended⟩ := Option.bind_eq_some_iff.mp taken
      exact edit between t _ appended (edit s between _ removed known)
  | sort outcome => exact edit s t _ taken known

theorem valid_mutate (valid : Valid s) {mutation : Mutation}
    (taken : s.mutate p mutation = some t) : Valid t :=
  mutate_of_edit (fun _ _ _ edited valid => valid_edit valid edited) taken valid

end Queries

section Parse

variable {dot : UInt8 → Bool} {s t : Store} {u v p : Nat} {urlString : Bytes}

def Store.parsed (s : Store) (u : Nat) (components : Components) : Store :=
  let t := s.updateUrl u fun url =>
    Url.refresh { url with toComponents := components, searchParams := some s.params.length }
  { t with params := t.params ++ [⟨URLSearchParams.parseQueryString components.search, some u⟩] }

theorem urls_parsed (components : Components) :
    (s.parsed u components).urls[v]? = s.urls[v]?.map fun url =>
      if u = v then
        Url.refresh { url with toComponents := components, searchParams := some s.params.length }
      else url :=
  urls_updateUrl _

theorem currentParams_parsed (components : Components) (apart : u ≠ v) :
    (s.parsed u components).currentParams v = s.currentParams v := by
  simp [Store.currentParams, urls_parsed, apart]

theorem currentParams_parsed_same (components : Components) (here : u < s.urls.length) :
    (s.parsed u components).currentParams u = some s.params.length := by
  simp [Store.currentParams, urls_parsed, here, Url.refresh]

theorem params_parsed (components : Components) {params : Params}
    (known : s.params[p]? = some params) : (s.parsed u components).params[p]? = some params := by
  have inside := (List.getElem?_eq_some_iff.mp known).1
  simpa [Store.parsed, List.getElem?_append_left inside] using known

theorem fresh_parsed (components : Components) :
    (s.parsed u components).params[s.params.length]? =
      some ⟨URLSearchParams.parseQueryString components.search, some u⟩ := by
  simp [Store.parsed]

theorem valid_parsed (valid : Valid s) (components : Components) :
    Valid (s.parsed u components) := by
  have own {url : Url} (here : (s.parsed u components).urls[u]? = some url) :
      ∃ before : Url, url = Url.refresh { before with
        toComponents := components, searchParams := some s.params.length } := by
    rw [urls_parsed] at here
    obtain ⟨before, _, rfl⟩ := Option.map_eq_some_iff.mp here
    exact ⟨before, if_pos rfl⟩
  constructor
  · intro v p current
    by_cases same : u = v
    · subst same
      obtain ⟨url, here, holds⟩ := Option.bind_eq_some_iff.mp current
      obtain ⟨before, rfl⟩ := own here
      cases holds
      exact ⟨_, fresh_parsed components, rfl⟩
    · rw [currentParams_parsed components same] at current
      obtain ⟨params, known, back⟩ := valid.linked v p current
      exact ⟨params, params_parsed components known, back⟩
  · intro v
    by_cases same : u = v
    · subst same
      intro url p here holds
      obtain ⟨before, rfl⟩ := own here
      cases holds
      rw [Store.listOf, fresh_parsed]
      exact ⟨rfl, rfl⟩
    · apply agrees_frame (valid.agrees v)
      · rw [urls_parsed]
        simp [same]
      · intro p current
        obtain ⟨params, known, _⟩ := valid.linked v p current
        rw [Store.listOf, Store.listOf, params_parsed components known, known]

theorem updateList_same {list : PairList} (here : s.listOf p = some list) :
    s.updateList p (fun _ => list) = s := by
  obtain ⟨params, known, rfl⟩ := Option.map_eq_some_iff.mp here
  have same : s.params.modify p (fun before => { before with list := params.list }) = s.params := by
    apply List.ext_getElem?
    intro q
    rw [List.getElem?_modify]
    split_ifs with at_q
    · subst at_q
      rw [known]
      rfl
    · simp
  simp only [Store.updateList, same]

theorem updateList_updateList (f g : PairList → PairList) :
    (s.updateList p f).updateList p g = s.updateList p (g ∘ f) := by
  simp only [Store.updateList, List.modify_modify_eq]
  rfl

theorem setHref_eq (valid : Valid s) (here : u < s.urls.length) (newHref : Bytes) :
    s.setHref dot u newHref =
      match matchUrl dot newHref with
      | none => .thrown s "Invalid URL"
      | some components => .done (s.parsed u components) := by
  cases matched : matchUrl dot newHref with
  | none => simp [Store.setHref, Store.basicUrlParser, matched]
  | some components =>
      have accepted : s.basicUrlParser dot u newHref = some (s.parsed u components) := by
        simp [Store.basicUrlParser, matched, Store.parsed]
      have current := currentParams_parsed_same components here
      obtain ⟨url, found, holds⟩ := Option.bind_eq_some_iff.mp current
      have listed := ((valid_parsed valid components).agrees u url _ found holds).1
      simp only [Store.setHref, accepted, found, current, updateList_updateList]
      congr 1
      split_ifs with empty
      · rw [List.isEmpty_iff.mp empty] at listed
        exact updateList_same listed
      · exact updateList_same listed

end Parse

def Store.withBlank (s : Store) : Store :=
  { s with urls := s.urls ++ [Url.blank] }

def Store.withParams (s : Store) (list : PairList) : Store :=
  { s with params := s.params ++ [⟨list, none⟩] }

def Store.withHandle (s : Store) (u : Nat) : Store :=
  { s with handles := s.handles ++ ((s.currentParams u).map fun p => (u, p)).toList }

inductive Step (dot : UInt8 → Bool) (s : Store) : Action → Store → Prop
  | newUrl {urlString : Bytes} {components : Components} :
      matchUrl dot urlString = some components →
      Step dot s (.newUrl urlString) (s.withBlank.parsed s.urls.length components)
  | badUrl {urlString : Bytes} : matchUrl dot urlString = none → Step dot s (.newUrl urlString) s
  | newBlankUrl : Step dot s .newBlankUrl s.withBlank
  | newParams (list : PairList) : Step dot s (.newParams list) (s.withParams list)
  | getSearchParams (u : Nat) : Step dot s (.getSearchParams u) (s.withHandle u)
  | assign (u : Nat) (setter : Setter) (value : Bytes) :
      Step dot s (.assign u setter value) (s.updateUrl u (setter.assign value))
  | setSearch {u : Nat} {newSearch : Bytes} {t : Store} : s.setSearch u newSearch = some t →
      Step dot s (.setSearch u newSearch) t
  | setHref {u : Nat} {newHref : Bytes} {components : Components} : u < s.urls.length →
      matchUrl dot newHref = some components →
      Step dot s (.setHref u newHref) (s.parsed u components)
  | badHref {u : Nat} {newHref : Bytes} : matchUrl dot newHref = none →
      Step dot s (.setHref u newHref) s
  | mutate {p : Nat} {mutation : Mutation} {t : Store} : s.mutate p mutation = some t →
      Step dot s (.mutate p mutation) t

section Steps

variable {dot : UInt8 → Bool} {s t : Store} {a : Action} {u p : Nat}

theorem newUrl_eq (s : Store) (urlString : Bytes) :
    s.newUrl dot urlString =
      match matchUrl dot urlString with
      | none => .thrown s "Failed to parse URL"
      | some components => .done (s.withBlank.parsed s.urls.length components) := by
  cases matched : matchUrl dot urlString with
  | none => simp [Store.newUrl, Store.basicUrlParser, matched]
  | some components =>
      simp only [Store.newUrl, Store.basicUrlParser, matched, Option.map_some]
      rfl

theorem step_some (valid : Valid s) (taken : step dot s a = some t) : Step dot s a t := by
  simp only [step] at taken
  split_ifs at taken with allowed
  cases a with
  | newUrl urlString =>
      simp only [call, newUrl_eq] at taken
      cases matched : matchUrl dot urlString with
      | none =>
          rw [matched] at taken
          cases taken
          exact .badUrl matched
      | some components =>
          rw [matched] at taken
          cases taken
          exact .newUrl matched
  | newBlankUrl =>
      cases taken
      exact .newBlankUrl
  | newParams list =>
      cases taken
      exact .newParams list
  | getSearchParams u =>
      cases taken
      exact .getSearchParams u
  | assign u setter value =>
      cases taken
      exact .assign u setter value
  | setSearch u newSearch =>
      simp only [call] at taken
      cases found : s.setSearch u newSearch with
      | none => simp [finished, found] at taken
      | some later =>
          rw [found] at taken
          cases taken
          exact .setSearch found
  | setHref u newHref =>
      have here : u < s.urls.length := by simpa [callable] using allowed
      simp only [call, setHref_eq valid here] at taken
      cases matched : matchUrl dot newHref with
      | none =>
          rw [matched] at taken
          cases taken
          exact .badHref matched
      | some components =>
          rw [matched] at taken
          cases taken
          exact .setHref here matched
  | mutate p mutation =>
      simp only [call] at taken
      cases found : s.mutate p mutation with
      | none => simp [finished, found] at taken
      | some later =>
          rw [found] at taken
          cases taken
          exact .mutate found

theorem currentParams_withBlank (v : Nat) : s.withBlank.currentParams v = s.currentParams v := by
  simp only [Store.withBlank, Store.currentParams, List.getElem?_append]
  split_ifs with inside
  · rfl
  · rw [List.getElem?_eq_none (Nat.le_of_not_lt inside)]
    cases v - s.urls.length <;> rfl

theorem valid_withBlank (valid : Valid s) : Valid s.withBlank := by
  refine ⟨linked_frame valid.linked currentParams_withBlank fun p params known =>
    ⟨params, known, rfl⟩, fun v => ?_⟩
  intro url p here holds
  have current : s.currentParams v = some p := by
    rw [← currentParams_withBlank]
    simp [Store.currentParams, here, holds]
  obtain ⟨before, found, own⟩ := Option.bind_eq_some_iff.mp current
  have inside := (List.getElem?_eq_some_iff.mp found).1
  simp only [Store.withBlank, List.getElem?_append_left inside] at here
  exact valid.agrees v url p here holds

theorem valid_withParams (valid : Valid s) (list : PairList) : Valid (s.withParams list) := by
  have kept {p : Nat} {params : Params} (known : s.params[p]? = some params) :
      (s.withParams list).params[p]? = some params := by
    have inside := (List.getElem?_eq_some_iff.mp known).1
    simpa [Store.withParams, List.getElem?_append_left inside] using known
  refine ⟨linked_frame (t := s.withParams list) valid.linked (fun _ => rfl)
    fun p params known => ⟨params, kept known, rfl⟩, fun v => ?_⟩
  refine agrees_frame (t := s.withParams list) (valid.agrees v) rfl fun p current => ?_
  obtain ⟨params, known, _⟩ := valid.linked v p current
  rw [Store.listOf, Store.listOf, kept known, known]

theorem valid_assign (valid : Valid s) (setter : Setter) (value : Bytes) :
    Valid (s.updateUrl u (setter.assign value)) := by
  refine ⟨linked_updateUrl valid.linked fun url => (assign_keeps setter value url).2.1,
    fun v url p here holds => ?_⟩
  rw [urls_updateUrl] at here
  obtain ⟨before, found, rfl⟩ := Option.map_eq_some_iff.mp here
  obtain ⟨search, own, href⟩ := assign_keeps setter value before
  split_ifs at holds ⊢ with same
  · rw [own] at holds
    obtain ⟨listed, coherent⟩ := valid.agrees v before p found holds
    rw [search]
    exact ⟨listed, href coherent⟩
  · exact valid.agrees v before p found holds

theorem valid_step (taken : Step dot s a t) (valid : Valid s) : Valid t := by
  cases taken with
  | newUrl matched => exact valid_parsed (valid_withBlank valid) _
  | newBlankUrl => exact valid_withBlank valid
  | newParams list => exact valid_withParams valid list
  | getSearchParams u => exact ⟨valid.linked, valid.agrees⟩
  | assign u setter value => exact valid_assign valid setter value
  | setSearch found => exact valid_setSearch valid.linked (fun v _ => valid.agrees v) found
  | setHref here matched => exact valid_parsed valid _
  | mutate found => exact valid_mutate valid found
  | _ => exact valid

theorem valid_initial : Valid initial := by
  constructor <;> intro u <;> simp [Store.currentParams, initial, Agrees]

theorem valid_reachable (reached : Reachable (system dot) s) : Valid s := by
  apply reached.invariant Valid
  · rintro _ rfl
    exact valid_initial
  · intro s a t valid taken
    exact valid_step (step_some valid taken) valid

end Steps

end BreezeJs.UrlStore
