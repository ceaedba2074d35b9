import BreezeJs.Std.UrlAccess
import BreezeJs.Std.UrlWellFormed

set_option autoImplicit false

namespace BreezeJs.UrlStore

open Infra Scanning

def SchemeColon (protocol : Bytes) : Prop :=
  ∃ scheme, scheme ≠ [] ∧ (∀ c ∈ scheme, isWord c = true) ∧ protocol = scheme ++ text ":"

def Sits (username host port pathname : Bytes) : Prop :=
  Place host port pathname ∧
    (username = [] → ¬ReadsUserinfo (host ++ preceded ':' port ++ pathname))

theorem schemeColon_append_iff (value : Bytes) :
    SchemeColon (value ++ text ":") ↔ value ≠ [] ∧ ∀ c ∈ value, isWord c = true := by
  constructor
  · rintro ⟨scheme, nonempty, words, same⟩
    rw [List.append_cancel_right same]
    exact ⟨nonempty, words⟩
  · exact fun ⟨nonempty, words⟩ => ⟨value, nonempty, words, rfl⟩

-- `set_protocol` appends the colon exactly where it has to.
theorem schemeColon_set_iff (residue : UInt8) (value : Bytes) :
    SchemeColon (if value.getLastD residue == byte ':' then value else value ++ text ":") ↔
      SchemeColon value ∨ SchemeColon (value ++ text ":") := by
  have colonLast {scheme : Bytes} : (scheme ++ text ":").getLastD residue = byte ':' := by
    simp [text]
  split_ifs with ends
  · rw [beq_iff_eq] at ends
    refine ⟨.inl, fun either => either.resolve_right ?_⟩
    rw [schemeColon_append_iff]
    rintro ⟨nonempty, words⟩
    have last : byte ':' ∈ value := by
      rw [List.getLastD_eq_getLast?, List.getLast?_eq_some_getLast nonempty] at ends
      exact ends ▸ List.getLast_mem nonempty
    exact absurd (words _ last) (by decide)
  · refine ⟨.inr, fun either => either.resolve_left ?_⟩
    rintro ⟨scheme, _, _, rfl⟩
    rw [colonLast] at ends
    exact ends (beq_self_eq_true _)

section Changes

variable {dot : UInt8 → Bool} {url : Components}

theorem with_protocol_iff (formed : WellFormed dot url) (protocol : Bytes) :
    WellFormed dot { url with protocol := protocol } ↔ SchemeColon protocol := by
  constructor
  · exact fun changed => changed.protocol
  · intro schemed
    exact { formed with protocol := schemed }

theorem with_userinfo_iff (formed : WellFormed dot url) (username password : Bytes) :
    WellFormed dot { url with username := username, password := password } ↔
      (∀ c ∈ username, isWord c = true) ∧ (∀ c ∈ password, isWord c = true) ∧
        (username = [] → password = []) ∧
        (username = [] → ¬ReadsUserinfo (url.host ++ preceded ':' url.port ++ url.pathname)) := by
  constructor
  · exact fun changed => ⟨changed.username, changed.password, changed.owned, changed.bare⟩
  · rintro ⟨user_words, secret_words, owned, bare⟩
    exact { formed with username := user_words, password := secret_words, owned, bare }

theorem with_place_iff (formed : WellFormed dot url) (host port pathname : Bytes) :
    WellFormed dot { url with host := host, port := port, pathname := pathname } ↔
      Sits url.username host port pathname := by
  constructor
  · exact fun changed => ⟨changed.place, changed.bare⟩
  · rintro ⟨place, bare⟩
    exact { formed with place, bare }

theorem with_query_iff (formed : WellFormed dot url) (search hash : Bytes) :
    WellFormed dot { url with search := search, hash := hash } ↔
      (∀ c ∈ search, inSearch c = true) ∧ ∀ c ∈ hash, dot c = true := by
  constructor
  · exact fun changed => ⟨changed.search, changed.hash⟩
  · rintro ⟨searched, dotted⟩
    exact { formed with search := searched, hash := dotted }

end Changes

def Honest (dot : UInt8 → Bool) (url : Url) : Prop :=
  matchUrl dot url.getHref = some url.toComponents

def StaysHonest (dot : UInt8 → Bool) (s : Store) (u : Nat) (field : Field) (value : Bytes) : Prop :=
  ∃ t url, s.assign u value field = some t ∧ t.urls[u]? = some url ∧ Honest dot url

def Setter.Fits (dot : UInt8 → Bool) (url : Url) (value : Bytes) : Setter → Prop
  | .protocol _ => SchemeColon value ∨ SchemeColon (value ++ text ":")
  | .username => url.isLocal = true ∨
      (∀ c ∈ value, isWord c = true) ∧ (value = [] → url.password = []) ∧
        (value = [] → ¬ReadsUserinfo (url.host ++ preceded ':' url.port ++ url.pathname))
  | .password => url.isLocal = true ∨
      (∀ c ∈ value, isWord c = true) ∧ (url.username = [] → value = [])
  | .host => url.hasOpaquePath = true ∨ ∃ host port,
      (value = host ++ text ":" ++ port ∨ value = host ∧ port = url.port) ∧
        Sits url.username host port url.pathname
  | .hostname => url.hasOpaquePath = true ∨ Sits url.username value url.port url.pathname
  | .port => url.isLocal = true ∨ Sits url.username url.host value url.pathname
  | .pathname => url.hasOpaquePath = true ∨ Sits url.username url.host url.port value
  | .hash => ∀ c ∈ dropMark '#' value, dot c = true

def Field.Fits (dot : UInt8 → Bool) (url : Url) (value : Bytes) : Field → Prop
  | .component setter => setter.Fits dot url value
  | .search => url.searchParams ≠ none ∧ byte '#' ∉ value

section Setters

variable {dot : UInt8 → Bool} {s : Store} {u : Nat} {url : Url} {value : Bytes}

theorem honest_iff (url : Url) : Honest dot url ↔ WellFormed dot url.toComponents :=
  parse_serialize_iff

theorem changed_iff {later : Url} (honest : Honest dot url) {fits : Prop}
    (changed : WellFormed dot url.toComponents → (WellFormed dot later.toComponents ↔ fits)) :
    Honest dot later ↔ fits :=
  (honest_iff later).trans (changed ((honest_iff url).mp honest))

theorem guarded_iff (honest : Honest dot url) {guard : Bool} {later : Url} {fits : Prop}
    (changed : Honest dot later ↔ fits) :
    Honest dot (if guard then url else later) ↔ guard = true ∨ fits := by
  cases guard <;> simp [honest, changed]

theorem host_and_port (colon : byte ':' ∈ value) :
    value = value.takeWhile (· != byte ':') ++ text ":" ++
      (value.dropWhile (· != byte ':')).drop 1 := by
  have split := List.takeWhile_append_dropWhile (p := (· != byte ':')) (l := value)
  have stops := stops_dropWhile (· != byte ':') value
  cases later : value.dropWhile (· != byte ':') with
  | nil =>
      have every := List.dropWhile_eq_nil_iff.mp later (byte ':') colon
      simp at every
  | cons c rest =>
      rw [later, stops_cons, bne_eq_false_iff_eq] at stops
      rw [later, stops] at split
      exact split.symm.trans (List.append_assoc _ (text ":") rest).symm

theorem setHost_iff (honest : Honest dot url) (value : Bytes) :
    Honest dot (url.setHost value) ↔ Setter.host.Fits dot url value := by
  have changed (host port : Bytes) :
      Honest dot (Url.refresh { url with host := host, port := port }) ↔
        Sits url.username host port url.pathname :=
    changed_iff honest fun formed => with_place_iff formed host port url.pathname
  have unmarked {host port : Bytes} (sits : Sits url.username host port url.pathname) :
      byte ':' ∉ host := fun member => absurd (sits.1.hostChars _ member) (by decide)
  refine guarded_iff honest ?_
  split_ifs with colon
  · rw [List.contains_iff_mem] at colon
    rw [changed]
    constructor
    · exact fun sits => ⟨_, _, .inl (host_and_port colon), sits⟩
    · rintro ⟨host, port, rfl | ⟨rfl, _⟩, sits⟩
      · obtain ⟨before, after⟩ := split_host (unmarked sits) port
        rwa [before, after]
      · exact absurd colon (unmarked sits)
  · rw [List.contains_iff_mem] at colon
    refine (changed value url.port).trans ⟨fun sits => ⟨_, _, .inr ⟨rfl, rfl⟩, sits⟩, ?_⟩
    rintro ⟨host, port, rfl | ⟨rfl, rfl⟩, sits⟩
    · exact absurd (by simp [text]) colon
    · exact sits

theorem setter_honest_iff (honest : Honest dot url) (value : Bytes) (setter : Setter) :
    Honest dot (setter.assign value url) ↔ setter.Fits dot url value := by
  cases setter with
  | protocol residue =>
      have changed (protocol : Bytes) :
          Honest dot (Url.refresh { url with protocol := protocol }) ↔ SchemeColon protocol :=
        changed_iff honest fun formed => with_protocol_iff formed protocol
      exact (changed _).trans (schemeColon_set_iff residue value)
  | username =>
      refine guarded_iff honest (changed_iff honest fun formed => ?_)
      refine (with_userinfo_iff formed value url.password).trans ?_
      exact ⟨fun fits => ⟨fits.1, fits.2.2⟩, fun fits => ⟨fits.1, formed.password, fits.2⟩⟩
  | password =>
      refine guarded_iff honest (changed_iff honest fun formed => ?_)
      refine (with_userinfo_iff formed url.username value).trans ?_
      exact ⟨fun fits => ⟨fits.2.1, fits.2.2.1⟩,
        fun fits => ⟨formed.username, fits.1, fits.2, formed.bare⟩⟩
  | host => exact setHost_iff honest value
  | hostname =>
      refine guarded_iff honest (changed_iff honest fun formed => ?_)
      exact with_place_iff formed value url.port url.pathname
  | port =>
      refine guarded_iff honest (changed_iff honest fun formed => ?_)
      exact with_place_iff formed url.host value url.pathname
  | pathname =>
      refine guarded_iff honest (changed_iff honest fun formed => ?_)
      exact with_place_iff formed url.host url.port value
  | hash =>
      refine changed_iff honest fun formed => (with_query_iff formed url.search _).trans ?_
      exact and_iff_right formed.search

theorem unhashed_iff (value : Bytes) :
    (∀ c ∈ dropMark '?' value, inSearch c = true) ↔ byte '#' ∉ value := by
  have same : byte '#' ∈ dropMark '?' value ↔ byte '#' ∈ value := by
    cases value with
    | nil => rfl
    | cons c rest =>
        have other : byte '#' ≠ byte '?' := by decide
        by_cases mark : c = byte '?' <;> simp [dropMark, mark, other]
  rw [← same]
  constructor
  · exact fun whole member => absurd (whole _ member) (by decide)
  · exact bne_of_absent

theorem search_honest_iff (honest : Honest dot url) (value : Bytes) :
    Honest dot (Url.refresh { url with search := dropMark '?' value }) ↔ byte '#' ∉ value := by
  refine changed_iff honest fun formed => (with_query_iff formed _ url.hash).trans ?_
  rw [unhashed_iff]
  exact and_iff_left formed.hash

/-- A setter leaves a URL whose href says what its components say if and only if its argument
fits the component. -/
theorem setter_stays_honest_iff (here : s.urls[u]? = some url) (honest : Honest dot url)
    (field : Field) (value : Bytes) :
    StaysHonest dot s u field value ↔ field.Fits dot url value := by
  cases field with
  | component setter =>
      have later : (s.updateUrl u (setter.assign value)).urls[u]? =
          some (setter.assign value url) := by
        simp [urls_updateUrl, here]
      rw [Field.Fits, ← setter_honest_iff honest]
      constructor
      · rintro ⟨t, found, same, there, kept⟩
        cases same
        rw [later] at there
        cases there
        exact kept
      · exact fun kept => ⟨_, _, rfl, later, kept⟩
  | search =>
      rw [Field.Fits, ← search_honest_iff honest]
      constructor
      · rintro ⟨t, found, taken, there, kept⟩
        rw [Store.assign, setSearch_eq] at taken
        obtain ⟨p, current, rfl⟩ := Option.map_eq_some_iff.mp taken
        rw [write_url _ here] at there
        cases there
        refine ⟨fun missing => ?_, kept⟩
        simp [Store.currentParams, here, missing] at current
      · rintro ⟨own, kept⟩
        obtain ⟨p, own⟩ := Option.ne_none_iff_exists'.mp own
        have current : s.currentParams u = some p := by simp [Store.currentParams, here, own]
        refine ⟨_, _, ?_, write_url (p := p) _ here, kept⟩
        rw [Store.assign, setSearch_eq, current]
        rfl

theorem setter_stays_honest_example :
    StaysHonest anyByte (initial.withBlank.parsed 0
      ⟨text "http:", [], [], text "h", text "80", text "/a:b", [], []⟩) 0
      (.component .username) (text "user") := by
  have honest : Honest anyByte (Url.refresh { Url.blank with
      toComponents := ⟨text "http:", [], [], text "h", text "80", text "/a:b", [], []⟩
      searchParams := some 0 }) := by
    rw [Honest]
    decide +kernel
  have named : text "user" ≠ [] := by decide +kernel
  exact (setter_stays_honest_iff rfl honest _ _).mpr
    (.inr ⟨by decide +kernel, fun missing => absurd missing named,
      fun missing => absurd missing named⟩)

theorem pathname_lies :
    ∃ s t url later, initial.newUrl anyByte (text "http://h") = .done s ∧
      s.urls[0]? = some url ∧ Honest anyByte url ∧
      s.assign 0 (text "/a?b") (.component .pathname) = some t ∧ t.urls[0]? = some later ∧
      later.getPathname = text "/a?b" ∧
      matchUrl anyByte later.getHref =
        some ⟨text "http:", [], [], text "h", [], text "/a", text "b", []⟩ ∧
      ¬StaysHonest anyByte s 0 (.component .pathname) (text "/a?b") := by
  let s := initial.withBlank.parsed 0 ⟨text "http:", [], [], text "h", [], [], [], []⟩
  have built : initial.newUrl anyByte (text "http://h") = .done s :=
    newUrl_matched initial (by decide +kernel)
  refine ⟨s, _, _, _, built, rfl, ?_, rfl, rfl, rfl, by decide +kernel, ?_⟩
  · rw [Honest]
    decide +kernel
  · rintro ⟨t, later, taken, here, kept⟩
    cases taken
    cases here
    rw [Honest] at kept
    exact absurd kept (by decide +kernel)

end Setters

end BreezeJs.UrlStore
