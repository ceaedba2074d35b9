import BreezeJs.Std.SearchParams

set_option autoImplicit false

namespace BreezeJs.UrlStore

open Transition Infra

def Url.getHref (url : Url) : Bytes :=
  url.serializeUrl

def Url.getProtocol (url : Url) : Bytes :=
  url.protocol

def Url.getUsername (url : Url) : Bytes :=
  url.username

def Url.getPassword (url : Url) : Bytes :=
  url.password

def Url.getHost (url : Url) : Bytes :=
  if url.host.isEmpty then []
  else if url.port.isEmpty then url.host
  else url.host ++ text ":" ++ url.port

def Url.getHostname (url : Url) : Bytes :=
  if url.host.isEmpty then [] else url.host

def Url.getPort (url : Url) : Bytes :=
  url.port

def Url.getPathname (url : Url) : Bytes :=
  url.pathname

def Url.getSearch (url : Url) : Bytes :=
  if url.search.isEmpty then [] else text "?" ++ url.search

def Url.getHash (url : Url) : Bytes :=
  if url.hash.isEmpty then [] else text "#" ++ url.hash

theorem getHostname_eq (url : Url) : url.getHostname = url.host := by
  simp only [Url.getHostname, List.isEmpty_iff]
  split_ifs with empty
  · exact empty.symm
  · rfl

theorem split_host {host : Bytes} (plain : byte ':' ∉ host) (port : Bytes) :
    (host ++ text ":" ++ port).takeWhile (· != byte ':') = host ∧
      ((host ++ text ":" ++ port).dropWhile (· != byte ':')).drop 1 = port := by
  have whole := Scanning.bne_of_absent plain
  have stops : Scanning.Stops (· != byte ':') (byte ':' :: port) :=
    Scanning.stops_cons.mpr (by simp)
  have marked : host ++ text ":" ++ port = host ++ byte ':' :: port := List.append_assoc _ _ _
  rw [marked, Scanning.takeWhile_whole whole stops, Scanning.dropWhile_whole whole stops]
  exact ⟨rfl, rfl⟩

def Setter.read : Setter → Url → Bytes
  | .protocol _ => Url.getProtocol
  | .username => Url.getUsername
  | .password => Url.getPassword
  | .host => Url.getHost
  | .hostname => Url.getHostname
  | .port => Url.getPort
  | .pathname => Url.getPathname
  | .hash => Url.getHash

inductive Field where
  | component (setter : Setter)
  | search
deriving DecidableEq, Repr

def Field.read : Field → Url → Bytes
  | .component setter => setter.read
  | .search => Url.getSearch

namespace Store

def assign (s : Store) (u : Nat) (value : Bytes) : Field → Option Store
  | .component setter => some (s.updateUrl u (setter.assign value))
  | .search => s.setSearch u value

def components (s : Store) (u : Nat) : Option Components :=
  s.urls[u]?.map fun url => url.toComponents

def currentList (s : Store) (u : Nat) : Option PairList :=
  (s.currentParams u).bind s.listOf

-- A null pointer for every exception.
def parse (dot : UInt8 → Bool) (s : Store) (urlString : Bytes) : Option (Store × Option Nat) :=
  match s.newUrl dot urlString with
  | .done t => some (t, some s.urls.length)
  | .thrown t _ => some (t, none)
  | .undefined => none

-- The parser runs on a temporary URL that is built from the empty string.
def canParse (dot : UInt8 → Bool) (s : Store) (urlString : Bytes) : Option (Except String Bool) :=
  match s.newUrl dot [] with
  | .done t => some (.ok (t.basicUrlParser dot s.urls.length urlString).isSome)
  | .thrown _ message => some (.error message)
  | .undefined => none

end Store

section CanParse

variable {dot : UInt8 → Bool}

theorem newUrl_matched (s : Store) {urlString : Bytes} {components : Components}
    (matched : matchUrl dot urlString = some components) :
    s.newUrl dot urlString = .done (s.withBlank.parsed s.urls.length components) := by
  rw [newUrl_eq, matched]

def CanParseAgrees (dot : UInt8 → Bool) (s : Store) (urlString : Bytes) : Prop :=
  ∃ answer t found, s.canParse dot urlString = some (.ok answer) ∧
    s.parse dot urlString = some (t, found) ∧ (answer = true ↔ found ≠ none)

theorem matchUrl_nil (dot : UInt8 → Bool) : matchUrl dot [] = none := by
  rw [matchUrl_eq]
  exact ite_self none

theorem canParse_throws (s : Store) (urlString : Bytes) :
    s.canParse dot urlString = some (.error "Failed to parse URL") := by
  rw [Store.canParse, newUrl_eq, matchUrl_nil]

theorem parse_eq (s : Store) (urlString : Bytes) :
    s.parse dot urlString = some (match matchUrl dot urlString with
      | none => (s, none)
      | some components => (s.withBlank.parsed s.urls.length components, some s.urls.length)) := by
  rw [Store.parse, newUrl_eq]
  cases matchUrl dot urlString <;> rfl

/-- `canParse` answers for no string: it throws on its way to the parser. -/
theorem canParse_never_agrees (s : Store) (urlString : Bytes) :
    ¬CanParseAgrees dot s urlString := by
  rintro ⟨answer, t, found, answered, _⟩
  rw [canParse_throws] at answered
  cases answered

theorem canParse_disagrees :
    (initial.parse anyByte (text "http://h")).bind (fun found => found.2) = some 0 ∧
      initial.canParse anyByte (text "http://h") = some (.error "Failed to parse URL") ∧
      ¬CanParseAgrees anyByte initial (text "http://h") := by
  have thrown : initial.canParse anyByte (text "http://h") =
      some (.error "Failed to parse URL") := by decide +kernel
  refine ⟨by decide +kernel, thrown, ?_⟩
  rintro ⟨answer, t, found, answered, _⟩
  rw [thrown] at answered
  cases answered

end CanParse

structure Stable (dot : UInt8 → Bool) (holds : Url → Prop) : Prop where
  blank : holds Url.blank
  assign : ∀ (setter : Setter) value url, holds url → holds (setter.assign value url)
  search : ∀ search (url : Url), holds url → holds (Url.refresh { url with search := search })
  parsed : ∀ urlString components p (url : Url), matchUrl dot urlString = some components →
    holds (Url.refresh { url with toComponents := components, searchParams := some p })

def Everywhere (holds : Url → Prop) (s : Store) : Prop :=
  ∀ (v : Nat) (url : Url), s.urls[v]? = some url → holds url

section Everywhere

variable {dot : UInt8 → Bool} {holds : Url → Prop} {s t : Store} {a : Action} {u p : Nat}

theorem everywhere_updateUrl (known : Everywhere holds s) {f : Url → Url}
    (keeps : ∀ url, holds url → holds (f url)) : Everywhere holds (s.updateUrl u f) := by
  intro v url here
  rw [urls_updateUrl] at here
  obtain ⟨before, found, rfl⟩ := Option.map_eq_some_iff.mp here
  split_ifs
  · exact keeps before (known v before found)
  · exact known v before found

theorem everywhere_setSearch (stable : Stable dot holds) (known : Everywhere holds s)
    {newSearch : Bytes} (taken : s.setSearch u newSearch = some t) : Everywhere holds t := by
  rw [setSearch_eq] at taken
  obtain ⟨p, _, rfl⟩ := Option.map_eq_some_iff.mp taken
  exact everywhere_updateUrl known (stable.search (dropMark '?' newSearch))

theorem everywhere_edit (stable : Stable dot holds) (known : Everywhere holds s)
    {f : PairList → PairList} (taken : s.edit p f = some t) : Everywhere holds t := by
  obtain ⟨params, _, updated⟩ := Option.bind_eq_some_iff.mp taken
  have same : Everywhere holds (s.updateList p f) := fun v url here => known v url here
  split at updated
  · cases updated
    exact same
  · exact everywhere_setSearch stable same updated

theorem everywhere_mutate (stable : Stable dot holds) (known : Everywhere holds s)
    {mutation : Mutation} (taken : s.mutate p mutation = some t) : Everywhere holds t :=
  mutate_of_edit (fun _ _ _ edited known => everywhere_edit stable known edited) taken known

theorem everywhere_withBlank (stable : Stable dot holds) (known : Everywhere holds s) :
    Everywhere holds s.withBlank := by
  intro v url here
  rcases List.mem_append.mp (List.mem_of_getElem? here) with old | fresh
  · obtain ⟨w, found⟩ := List.mem_iff_getElem?.mp old
    exact known w url found
  · cases List.mem_singleton.mp fresh
    exact stable.blank

theorem everywhere_parsed (stable : Stable dot holds) (known : Everywhere holds s)
    {urlString : Bytes} {components : Components}
    (matched : matchUrl dot urlString = some components) :
    Everywhere holds (s.parsed u components) := by
  intro v url here
  rw [urls_parsed] at here
  obtain ⟨before, found, rfl⟩ := Option.map_eq_some_iff.mp here
  split_ifs
  · exact stable.parsed urlString components _ before matched
  · exact known v before found

theorem everywhere_step (stable : Stable dot holds) (taken : Step dot s a t)
    (known : Everywhere holds s) : Everywhere holds t := by
  cases taken with
  | newUrl matched => exact everywhere_parsed stable (everywhere_withBlank stable known) matched
  | newBlankUrl => exact everywhere_withBlank stable known
  | newParams list => exact fun v url here => known v url here
  | getSearchParams u => exact fun v url here => known v url here
  | assign u setter value => exact everywhere_updateUrl known (stable.assign setter value)
  | setSearch found => exact everywhere_setSearch stable known found
  | setHref here matched => exact everywhere_parsed stable known matched
  | mutate found => exact everywhere_mutate stable known found
  | _ => exact known

theorem everywhere_reachable (stable : Stable dot holds) (reached : Reachable (system dot) s) :
    Everywhere holds s := by
  have both : Valid s ∧ Everywhere holds s := by
    apply reached.invariant fun s => Valid s ∧ Everywhere holds s
    · rintro _ rfl
      exact ⟨valid_initial, by simp [Everywhere, initial]⟩
    · rintro s a t ⟨valid, known⟩ taken
      have stepped := step_some valid taken
      exact ⟨valid_step stepped valid, everywhere_step stable stepped known⟩
  exact both.2

end Everywhere

def Marked (protocol : Bytes) : Prop :=
  protocol = [] ∨ protocol.getLast? = some (byte ':')

theorem marked_append (scheme : Bytes) : Marked (scheme ++ text ":") :=
  .inr (by simp [text])

theorem marked_assign (setter : Setter) (value : Bytes) (url : Url)
    (marked : Marked url.protocol) : Marked (setter.assign value url).protocol := by
  cases setter with
  | protocol residue =>
      simp only [Setter.assign, Url.setProtocol, Url.refresh]
      split_ifs with colon
      · cases value using List.reverseRecOn with
        | nil => exact .inl rfl
        | append_singleton front last => exact .inr (by simpa using colon)
      · exact marked_append value
  | hash => exact marked
  | _ =>
      simp only [Setter.assign, Url.setUsername, Url.setPassword, Url.setHost, Url.setHostname,
        Url.setPort, Url.setPathname]
      split_ifs <;> exact marked

theorem marked_stable (dot : UInt8 → Bool) : Stable dot fun url => Marked url.protocol where
  blank := .inl rfl
  assign := marked_assign
  search := fun _ _ known => known
  parsed := by
    intro urlString components p url matched
    obtain ⟨groups, _, rfl⟩ := Option.map_eq_some_iff.mp matched
    exact marked_append _

section WriteBack

variable {dot : UInt8 → Bool} {s t w : Store} {u : Nat} {url : Url}

def Store.writeBack (s : Store) (u : Nat) (field : Field) : Option Store :=
  s.urls[u]?.bind fun url => s.assign u (field.read url) field

def WriteBackKeeps (s : Store) (u : Nat) (field : Field) : Prop :=
  ∃ t, s.writeBack u field = some t ∧ t.components u = s.components u ∧
    t.currentList u = s.currentList u

def WritesBack (url : Url) : Field → Prop
  | .component (.protocol residue) => url.protocol = [] → residue = byte ':'
  | .component .host => url.hasOpaquePath = true ∨ byte ':' ∉ url.host
  | _ => True

theorem components_updateUrl (here : s.urls[u]? = some url) (f : Url → Url) :
    (s.updateUrl u f).components u = some (f url).toComponents := by
  simp [Store.components, urls_updateUrl, here]

theorem currentList_assign (setter : Setter) (value : Bytes) :
    (s.updateUrl u (setter.assign value)).currentList u = s.currentList u := by
  rw [Store.currentList, currentParams_updateUrl fun url => (assign_keeps setter value url).2.1]
  rfl

theorem component_kept_iff (here : s.urls[u]? = some url) (setter : Setter) :
    WriteBackKeeps s u (.component setter) ↔
      (setter.assign (setter.read url) url).toComponents = url.toComponents := by
  have written : s.writeBack u (.component setter) =
      some (s.updateUrl u (setter.assign (setter.read url))) := by
    rw [Store.writeBack, here]
    rfl
  have before : s.components u = some url.toComponents := by
    rw [Store.components, here]
    rfl
  rw [WriteBackKeeps, written]
  constructor
  · rintro ⟨t, same, kept, _⟩
    cases same
    rw [components_updateUrl here, before] at kept
    exact Option.some.inj kept
  · intro kept
    refine ⟨_, rfl, ?_, currentList_assign _ _⟩
    rw [components_updateUrl here, kept, before]

theorem dropMark_marked {mark : Char} (part : Bytes) :
    dropMark mark (if part.isEmpty then [] else byte mark :: part) = part := by
  split_ifs with missing
  · simp [dropMark, List.isEmpty_iff.mp missing]
  · simp [dropMark]

theorem components_refresh (url : Url) : url.refresh.toComponents = url.toComponents :=
  rfl

theorem withProtocol_iff (url : Url) (value : Bytes) :
    (Url.refresh { url with protocol := value }).toComponents = url.toComponents ↔
      value = url.protocol := by
  constructor
  · exact congrArg Components.protocol
  · rintro rfl
    rfl

theorem protocol_kept_iff (marked : Marked url.protocol) (residue : UInt8) :
    (url.setProtocol residue url.getProtocol).toComponents = url.toComponents ↔
      (url.protocol = [] → residue = byte ':') := by
  rw [Url.setProtocol, withProtocol_iff, Url.getProtocol]
  rcases marked with missing | colon
  · by_cases read : residue = byte ':' <;> simp [missing, read, text]
  · have some : url.protocol ≠ [] := by
      rintro missing
      rw [missing] at colon
      cases colon
    simp [colon, some]

theorem host_leads (url : Url) : url.host <+: url.getHost := by
  simp only [Url.getHost, List.isEmpty_iff]
  split_ifs with empty
  · exact empty ▸ List.prefix_refl _
  · exact List.prefix_refl _
  · rw [List.append_assoc]
    exact List.prefix_append _ _

theorem getHost_split (url : Url) (plain : byte ':' ∉ url.host) :
    (url.getHost = url.host) ∨
      url.getHost.takeWhile (· != byte ':') = url.host ∧
        (url.getHost.dropWhile (· != byte ':')).drop 1 = url.port := by
  simp only [Url.getHost, List.isEmpty_iff]
  split_ifs with empty
  · exact .inl empty.symm
  · exact .inl rfl
  · exact .inr (split_host plain url.port)

theorem host_kept_iff (url : Url) :
    (url.setHost url.getHost).toComponents = url.toComponents ↔
      url.hasOpaquePath = true ∨ byte ':' ∉ url.host := by
  by_cases opaquePath : url.hasOpaquePath = true
  · simp [Url.setHost, opaquePath]
  by_cases colon : byte ':' ∈ url.host
  · have marked : url.getHost.contains (byte ':') = true :=
      List.contains_iff_mem.mpr ((host_leads url).subset colon)
    simp only [Url.setHost, opaquePath, marked, if_true, Bool.false_eq_true, if_false, colon,
      not_true_eq_false, or_false, iff_false]
    intro same
    have kept : url.getHost.takeWhile (· != byte ':') = url.host :=
      congrArg Components.host same
    rw [← kept] at colon
    simpa using List.mem_takeWhile_imp colon
  · have unmarked : url.host.contains (byte ':') = false := by simpa using colon
    simp only [opaquePath, colon, not_false_eq_true, or_true, iff_true, Url.setHost,
      Bool.false_eq_true, if_false]
    rcases getHost_split url colon with same | ⟨host, port⟩
    · rw [same, unmarked]
      rfl
    · rw [host, port]
      split_ifs with marked
      · rfl
      · have only : url.getHost = url.host := by
          rw [← host, eq_comm, List.takeWhile_eq_self_iff]
          exact Scanning.bne_of_absent fun member => marked (List.contains_iff_mem.mpr member)
        rw [only]
        rfl

theorem component_writes_back_iff (marked : Marked url.protocol) (setter : Setter) :
    (setter.assign (setter.read url) url).toComponents = url.toComponents ↔
      WritesBack url (.component setter) := by
  cases setter with
  | protocol residue => exact protocol_kept_iff marked residue
  | host => exact host_kept_iff url
  | hostname =>
      refine iff_of_true ?_ trivial
      simp only [Setter.assign, Setter.read, Url.setHostname, getHostname_eq]
      split_ifs
      · rfl
      · rw [components_refresh]
  | hash =>
      have unmarked : dropMark '#' url.getHash = url.hash := dropMark_marked url.hash
      refine iff_of_true ?_ trivial
      rw [Setter.assign, Setter.read, Url.setHash, unmarked, components_refresh]
  | _ =>
      refine iff_of_true ?_ trivial
      simp only [Setter.assign, Setter.read, Url.setUsername, Url.setPassword, Url.setPort,
        Url.setPathname]
      split_ifs
      · rfl
      · rw [components_refresh]
        rfl

theorem search_writes_back (valid : Valid s) {p : Nat} (current : s.currentParams u = some p) :
    WriteBackKeeps s u .search := by
  obtain ⟨url, here, own⟩ := Option.bind_eq_some_iff.mp current
  have listed := (valid.agrees u url p here own).1
  have unmarked : dropMark '?' url.getSearch = url.search := dropMark_marked url.search
  have taken : s.setSearch u url.getSearch = some (s.write u p url.search) := by
    rw [setSearch_eq, current, unmarked]
    rfl
  have same := (current_setSearch (v := u) taken).1.trans current
  refine ⟨_, by rw [Store.writeBack, here]; exact taken, ?_, ?_⟩
  · rw [Store.components, Store.components, write_url _ here, here]
    rfl
  · rw [Store.currentList, same, Store.currentList, current, Option.bind_some, Option.bind_some,
      write_list _ listed, listed]

/-- Writing to a URL what was read from it keeps its components and its list, except for a host
with a colon in it, which the setter splits. -/
theorem write_back_keeps_iff {urlString : Bytes} (reached : Reachable (system dot) s)
    (built : s.newUrl dot urlString = .done t) (later : Reachable ((system dot).after t) w)
    (here : w.urls[s.urls.length]? = some url) (field : Field) :
    WriteBackKeeps w s.urls.length field ↔ WritesBack url field := by
  obtain ⟨valid, p, current⟩ := built_reachable reached built later
  have stepped : (system dot).step s (.newUrl urlString) = some t := by
    simp [system, step, callable, call, built]
  have marked := everywhere_reachable (marked_stable dot) ((reached.next stepped).later later)
  cases field with
  | component setter =>
      rw [component_kept_iff here]
      exact component_writes_back_iff (marked _ url here) setter
  | search => exact iff_of_true (search_writes_back valid current) trivial

theorem write_back_keeps_example :
    ∃ w url, w.urls[0]? = some url ∧ url.host = text "g" ∧ url.port = text "8080" ∧
      WriteBackKeeps w 0 (.component .host) := by
  let components : Components := ⟨text "ftp:", [], [], text "h", [], [], [], []⟩
  let t := initial.withBlank.parsed 0 components
  have built : initial.newUrl anyByte (text "ftp://h") = .done t :=
    newUrl_matched initial (by decide +kernel)
  obtain ⟨history, w, run, checked⟩ := ((system anyByte).after t).exists_run (s := t) rfl
    [.assign 0 .hostname (text "g"), .assign 0 .port (text "8080")]
    (fun _ w => w.components 0 == some ⟨text "ftp:", [], [], text "g", text "8080", [], [], []⟩)
    (by decide +kernel)
  obtain ⟨url, here, same⟩ := Option.map_eq_some_iff.mp (beq_iff_eq.mp checked)
  have host : url.host = text "g" := congrArg Components.host same
  refine ⟨w, url, here, host, congrArg Components.port same, ?_⟩
  refine (write_back_keeps_iff ⟨[], .start rfl⟩ built run.reachable here _).mpr (.inr ?_)
  rw [host]
  decide

theorem write_back_splits :
    ∃ t w, initial.newUrl anyByte (text "http://h") = .done t ∧
      Reachable ((system anyByte).after t) w ∧ ¬WriteBackKeeps w 0 (.component .host) ∧
      (w.writeBack 0 (.component .host)).bind (fun later => later.components 0) =
        some ⟨text "http:", [], [], text "a", text "b", [], [], []⟩ := by
  let t := initial.withBlank.parsed 0 ⟨text "http:", [], [], text "h", [], [], [], []⟩
  let w := t.updateUrl 0 (Setter.hostname.assign (text "a:b"))
  have built : initial.newUrl anyByte (text "http://h") = .done t :=
    newUrl_matched initial (by decide +kernel)
  have stepped : (system anyByte).step t (.assign 0 .hostname (text "a:b")) = some w := by
    decide +kernel
  have split : (w.writeBack 0 (.component .host)).bind (fun later => later.components 0) =
      some ⟨text "http:", [], [], text "a", text "b", [], [], []⟩ := by decide +kernel
  refine ⟨t, w, built, (Reachable.refl _ t).onward stepped, ?_, split⟩
  rintro ⟨later, written, kept, _⟩
  rw [written, Option.bind_some, kept] at split
  exact absurd split (by decide +kernel)

end WriteBack

inductive Placing where
  | hostname (h : Bytes)
  | host (h p : Bytes)
  | pathname (q : Bytes)
deriving DecidableEq, Repr

def Placing.Proper : Placing → Prop
  | .hostname h => h ≠ [] ∧ ∀ c ∈ h, inHost c = true
  | .host h p => (h ≠ [] ∧ ∀ c ∈ h, inHost c = true) ∧ ∀ c ∈ p, isDigit c = true
  | .pathname q => ∃ rest, q = byte '/' :: rest

def Placing.perform : Placing → Url → Url
  | .hostname h => Url.setHostname h
  | .host h p => Url.setHost (h ++ text ":" ++ p)
  | .pathname q => Url.setPathname q

def Placing.Shows : Placing → Url → Prop
  | .hostname h, url => url.getHostname = h
  | .host h p, url => url.getHostname = h ∧ url.getPort = p
  | .pathname q, url => url.getPathname = q

def performAll (url : Url) (calls : List Placing) : Url :=
  calls.foldl (fun url call => call.perform url) url

section Placing

variable {url : Url} {call : Placing}

theorem dropped (opaquePath : url.hasOpaquePath = true) (call : Placing) :
    call.perform url = url := by
  cases call <;>
    simp [Placing.perform, Url.setHostname, Url.setHost, Url.setPathname, opaquePath]

theorem placed (hierarchical : url.hasOpaquePath = false) (proper : call.Proper) :
    call.Shows (call.perform url) := by
  cases call with
  | hostname h =>
      simp only [Placing.Shows, getHostname_eq, Placing.perform, Url.setHostname, hierarchical]
      rfl
  | host h p =>
      have plain : byte ':' ∉ h := fun member => absurd (proper.1.2 _ member) (by decide)
      obtain ⟨host, port⟩ := split_host plain p
      have marked : (h ++ text ":" ++ p).contains (byte ':') = true := by simp [text]
      simp only [Placing.Shows, getHostname_eq, Placing.perform, Url.setHost, hierarchical, marked,
        if_true, Bool.false_eq_true, if_false, host, port]
      exact ⟨rfl, rfl⟩
  | pathname q =>
      simp only [Placing.Shows, Placing.perform, Url.setPathname, hierarchical]
      rfl

theorem perform_protocol (url : Url) (call : Placing) :
    (call.perform url).protocol = url.protocol := by
  cases call <;>
    simp only [Placing.perform, Url.setHostname, Url.setHost, Url.setPathname] <;>
    split_ifs <;> rfl

def Url.Web (url : Url) : Prop :=
  url.protocol = text "http:" ∨ url.protocol = text "https:"

theorem hasOpaquePath_iff (url : Url) :
    url.hasOpaquePath = true ↔ ¬ url.Web ∧ byte ':' ∈ url.pathname := by
  simp only [Url.hasOpaquePath, Url.Web, Bool.and_eq_true, List.contains_iff_mem, bne_iff_ne, ne_eq,
    not_or]
  tauto

def Coloned (url : Url) (earlier : List Placing) : Prop :=
  byte ':' ∈ url.pathname ∨ ∃ q, .pathname q ∈ earlier ∧ byte ':' ∈ q

theorem colon_perform (other : ¬ url.Web) (call : Placing) :
    byte ':' ∈ (call.perform url).pathname ↔
      byte ':' ∈ url.pathname ∨ ∃ q, call = .pathname q ∧ byte ':' ∈ q := by
  cases opaquePath : url.hasOpaquePath with
  | true =>
      have colon := ((hasOpaquePath_iff url).mp opaquePath).2
      rw [dropped opaquePath]
      exact iff_of_true colon (.inl colon)
  | false =>
      have plain : byte ':' ∉ url.pathname := by
        intro colon
        rw [(hasOpaquePath_iff url).mpr ⟨other, colon⟩] at opaquePath
        cases opaquePath
      have kept {h : Bytes} : (Url.setHostname h url).pathname = url.pathname ∧
          (Url.setHost h url).pathname = url.pathname := by
        constructor
        · rw [Url.setHostname, opaquePath]
          rfl
        · rw [Url.setHost, opaquePath]
          simp only [Bool.false_eq_true, if_false]
          split_ifs <;> rfl
      cases call with
      | hostname h => simp [Placing.perform, kept.1, plain]
      | host h p => simp [Placing.perform, kept.2, plain]
      | pathname q =>
          have written : (Url.setPathname q url).pathname = q := by
            rw [Url.setPathname, opaquePath]
            rfl
          simp [Placing.perform, written, plain]

theorem hasOpaquePath_performAll (url : Url) (earlier : List Placing) :
    (performAll url earlier).hasOpaquePath = true ↔ ¬ url.Web ∧ Coloned url earlier := by
  induction earlier generalizing url with
  | nil => simp [performAll, hasOpaquePath_iff, Coloned]
  | cons call rest ih =>
      have web : (call.perform url).Web ↔ url.Web := by
        rw [Url.Web, perform_protocol, Url.Web]
      have onward : performAll url (call :: rest) = performAll (call.perform url) rest := rfl
      rw [onward, ih, web]
      refine and_congr_right fun other => ?_
      rw [Coloned, colon_perform other, Coloned]
      simp only [List.mem_cons, or_and_right, exists_or, or_assoc, eq_comm]

theorem placing_shows_iff (url : Url) (earlier : List Placing) (proper : call.Proper) :
    call.Shows (call.perform (performAll url earlier)) ↔
      url.Web ∨ ¬ Coloned url earlier ∨ call.Shows (performAll url earlier) := by
  have looks := hasOpaquePath_performAll url earlier
  cases opaquePath : (performAll url earlier).hasOpaquePath with
  | false =>
      rw [opaquePath] at looks
      refine iff_of_true (placed opaquePath proper) ?_
      tauto
  | true =>
      have coloned := looks.mp opaquePath
      rw [dropped opaquePath]
      tauto

theorem placing_shows_example :
    (Placing.host (text "g") (text "80")).Shows ((Placing.host (text "g") (text "80")).perform
      (performAll { Url.blank with protocol := text "ftp:", host := text "h" }
        [.pathname (text "/p")])) := by
  have proper : (Placing.host (text "g") (text "80")).Proper :=
    ⟨⟨by decide +kernel, by decide +kernel⟩, by decide +kernel⟩
  refine (placing_shows_iff _ _ proper).mpr (.inr (.inl ?_))
  rintro (first | ⟨q, listed, colon⟩)
  · cases first
  · cases List.mem_singleton.mp listed
    revert colon
    decide +kernel

theorem hostname_dropped :
    ∃ t url, initial.newUrl anyByte (text "ftp://h/a:b") = .done t ∧ t.urls[0]? = some url ∧
      (Placing.hostname (text "g")).Proper ∧
      ((Placing.hostname (text "g")).perform (performAll url [])).getHostname = text "h" ∧
      ¬(Placing.hostname (text "g")).Shows
        ((Placing.hostname (text "g")).perform (performAll url [])) := by
  let t := initial.withBlank.parsed 0
    ⟨text "ftp:", [], [], text "h", [], text "/a:b", [], []⟩
  have built : initial.newUrl anyByte (text "ftp://h/a:b") = .done t :=
    newUrl_matched initial (by decide +kernel)
  refine ⟨t, _, built, rfl, ⟨by decide +kernel, by decide +kernel⟩, by decide +kernel, ?_⟩
  rw [Placing.Shows]
  decide +kernel

end Placing

end BreezeJs.UrlStore
