import BreezeJs.Std.UrlPattern

set_option autoImplicit false

namespace BreezeJs.Infra

open Scanning

theorem inPath_of {p : UInt8 → Bool} (question : p (byte '?') = false)
    (hash : p (byte '#') = false) : ∀ c, p c = true → inPath c = true := by
  intro c accepted
  have noQuestion : c ≠ byte '?' := by
    rintro rfl
    simp [question] at accepted
  have noHash : c ≠ byte '#' := by
    rintro rfl
    simp [hash] at accepted
  simp [inPath, noQuestion, noHash]

section Append

variable {front rest : Bytes}

theorem word_append (stops : Stops inPath rest) :
    word (front ++ rest) = (word front).map fun found => (found.1, found.2 ++ rest) := by
  have words : Stops isWord rest := stops.mono (inPath_of rfl rfl)
  simp only [word, takeWhile_append words, dropWhile_append words]
  split_ifs <;> rfl

theorem expect_append {mark : Char} (inside : inPath (byte mark) = true)
    (stops : Stops inPath rest) :
    expect mark (front ++ rest) = (expect mark front).map fun tail => tail ++ rest := by
  cases front with
  | nil =>
      cases rest with
      | nil => rfl
      | cons c tail =>
          have other : c ≠ byte mark := by
            rintro rfl
            simp [inside] at stops
          simp [expect, other]
  | cons c tail =>
      simp only [List.cons_append, expect]
      split_ifs <;> rfl

theorem password_append (stops : Stops inPath rest) :
    password (front ++ rest) = (password front).map fun found => (found.1, found.2 ++ rest) := by
  have colon (s : Bytes) : expect ':' (s ++ rest) = (expect ':' s).map fun tail => tail ++ rest :=
    expect_append rfl stops
  have at_sign (s : Bytes) : expect '@' (s ++ rest) = (expect '@' s).map fun tail => tail ++ rest :=
    expect_append rfl stops
  simp only [password, colon, at_sign, Option.bind_map, Function.comp_def, word_append stops,
    Option.map_or, Option.map_bind, Option.map_map]

theorem userinfo_append (stops : Stops inPath rest) :
    userinfo (front ++ rest) =
      (userinfo front).map fun info => (info.1, info.2.1, info.2.2 ++ rest) := by
  simp only [userinfo, word_append stops, Option.bind_map, Function.comp_def,
    password_append stops, Option.map_bind, Option.map_map]

theorem portOf_append (stops : Stops inPath rest) : portOf (front ++ rest) = portOf front := by
  have digits : Stops isDigit rest := stops.mono (inPath_of rfl rfl)
  cases front with
  | nil =>
      cases rest with
      | nil => rfl
      | cons c tail =>
          have other : c ≠ byte ':' := by
            rintro rfl
            simp [inPath] at stops
            revert stops
            decide
          simp [portOf, other]
  | cons c tail => simp only [List.cons_append, portOf, takeWhile_append digits]

theorem afterPort_append (stops : Stops inPath rest) :
    afterPort (front ++ rest) = afterPort front ++ rest := by
  have digits : Stops isDigit rest := stops.mono (inPath_of rfl rfl)
  simp only [afterPort, portOf_append stops]
  split_ifs with empty
  · rfl
  · cases front with
    | nil => simp [portOf] at empty
    | cons c tail => simp only [List.cons_append, List.drop_succ_cons, List.drop_zero,
        dropWhile_append digits]

theorem afterPort_subset (s : Bytes) : afterPort s ⊆ s := by
  simp only [afterPort]
  split_ifs with empty
  · exact List.Subset.refl s
  · exact ((List.dropWhile_sublist _).trans (List.drop_sublist 1 s)).subset

def Components.withQuery (url : Components) (rest : Bytes) : Components :=
  { url with search := searchOf rest, hash := hashOf rest }

theorem fromHost_append (protocol username password : Bytes) (stops : Stops inPath rest)
    (whole : ∀ c ∈ front, inPath c = true) :
    fromHost protocol username password (front ++ rest) =
      (fromHost protocol username password front).map fun url => url.withQuery rest := by
  have hosts : Stops inHost rest := stops.mono (inPath_of rfl rfl)
  have path : ∀ c ∈ afterPort (front.dropWhile inHost), inPath c = true := by
    intro c member
    exact whole c ((List.dropWhile_sublist _).subset (afterPort_subset _ member))
  simp only [fromHost, takeWhile_append hosts, dropWhile_append hosts, portOf_append stops,
    afterPort_append stops, takeWhile_append stops, dropWhile_whole path stops]
  split_ifs <;> rfl

end Append

section Text

variable {s rest : Bytes}

theorem expect_text {mark : Char} (found : expect mark s = some rest) : s = byte mark :: rest := by
  cases s with
  | nil => cases found
  | cons c tail =>
      simp only [expect] at found
      split_ifs at found with same
      cases found
      rw [beq_iff_eq.mp same]

theorem word_text {scheme : Bytes} (found : word s = some (scheme, rest)) :
    scheme ≠ [] ∧ (∀ c ∈ scheme, isWord c = true) ∧ s = scheme ++ rest ∧ Stops isWord rest := by
  simp only [word] at found
  split_ifs at found with missing
  cases found
  refine ⟨by simpa using missing, fun c => List.mem_takeWhile_imp, ?_, stops_dropWhile isWord s⟩
  exact (List.takeWhile_append_dropWhile).symm

theorem preceded_of_ne {mark : Char} {part : Bytes} (some : part ≠ []) :
    preceded mark part = byte mark :: part := by
  simp [preceded, some]

theorem preceded_all {p : UInt8 → Bool} {mark : Char} {part : Bytes}
    (marked : p (byte mark) = true) (whole : ∀ c ∈ part, p c = true) :
    ∀ c ∈ preceded mark part, p c = true := by
  intro c member
  simp only [preceded] at member
  split_ifs at member
  · cases member
  · rcases List.mem_cons.mp member with rfl | member
    · exact marked
    · exact whole c member

theorem password_text {secret : Bytes} (found : password s = some (secret, rest)) :
    s = preceded ':' secret ++ byte '@' :: rest := by
  rw [password, Option.or_eq_some_iff] at found
  rcases found with found | ⟨_, found⟩
  · obtain ⟨tail, colon, found⟩ := Option.bind_eq_some_iff.mp found
    obtain ⟨⟨name, later⟩, named, found⟩ := Option.bind_eq_some_iff.mp found
    obtain ⟨end_, marked, same⟩ := Option.map_eq_some_iff.mp found
    cases same
    obtain ⟨nonempty, _, split, _⟩ := word_text named
    have ended : later = byte '@' :: rest := expect_text marked
    rw [expect_text colon, split, ended, preceded_of_ne nonempty, List.cons_append]
  · obtain ⟨tail, marked, same⟩ := Option.map_eq_some_iff.mp found
    cases same
    rw [expect_text marked]
    rfl

theorem userinfo_text {username secret : Bytes}
    (found : userinfo s = some (username, secret, rest)) :
    s = serializeUserinfo username secret ++ rest := by
  obtain ⟨⟨name, later⟩, named, found⟩ := Option.bind_eq_some_iff.mp found
  obtain ⟨⟨secret, tail⟩, known, same⟩ := Option.map_eq_some_iff.mp found
  cases same
  obtain ⟨nonempty, _, split, _⟩ := word_text named
  have ended : later = preceded ':' secret ++ byte '@' :: tail := password_text known
  rw [split, ended]
  simp [serializeUserinfo, nonempty, text]

theorem port_text (s : Bytes) : preceded ':' (portOf s) ++ afterPort s = s := by
  simp only [afterPort]
  split_ifs with empty
  · simp [preceded, empty]
  · cases s with
    | nil => simp [portOf] at empty
    | cons c tail =>
        simp only [portOf, beq_iff_eq] at empty ⊢
        split_ifs at empty ⊢ with colon
        · simp [preceded, empty, colon]
        · simp at empty

theorem fromHost_text {protocol username password : Bytes} {url : Components}
    (found : fromHost protocol username password s = some url)
    (whole : ∀ c ∈ s, inPath c = true) :
    url.protocol = protocol ∧ url.username = username ∧ url.password = password ∧
      url.host ++ preceded ':' url.port ++ url.pathname = s := by
  have path : ∀ c ∈ afterPort (s.dropWhile inHost), inPath c = true := by
    intro c member
    exact whole c ((List.dropWhile_sublist _).subset (afterPort_subset _ member))
  simp only [fromHost] at found
  split_ifs at found
  cases found
  refine ⟨rfl, rfl, rfl, ?_⟩
  simp only [List.takeWhile_eq_self_iff.mpr path, List.append_assoc, port_text,
    List.takeWhile_append_dropWhile]

theorem authority_text {protocol : Bytes} {url : Components}
    (found : authority protocol s = some url) (whole : ∀ c ∈ s, inPath c = true) :
    url.protocol = protocol ∧ serializeUserinfo url.username url.password ++ url.host ++
      preceded ':' url.port ++ url.pathname = s := by
  rw [authority, Option.or_eq_some_iff] at found
  rcases found with found | ⟨_, found⟩
  · obtain ⟨⟨username, secret, tail⟩, named, found⟩ := Option.bind_eq_some_iff.mp found
    have split := userinfo_text named
    rw [split] at whole
    obtain ⟨same, user, word, read⟩ :=
      fromHost_text found fun c member => whole c (List.mem_append_right _ member)
    simp only at user word read
    refine ⟨same, ?_⟩
    rw [user, word, split, ← read]
    simp only [List.append_assoc]
  · obtain ⟨same, user, word, read⟩ := fromHost_text found whole
    refine ⟨same, ?_⟩
    rw [user, word]
    exact read

end Text

theorem authority_append (protocol : Bytes) {front rest : Bytes} (stops : Stops inPath rest)
    (whole : ∀ c ∈ front, inPath c = true) :
    authority protocol (front ++ rest) =
      (authority protocol front).map fun url => url.withQuery rest := by
  simp only [authority, userinfo_append stops, fromHost_append _ _ _ stops whole, Option.map_or,
    Option.bind_map, Option.map_bind, Function.comp_def]
  congr 1
  cases found : userinfo front with
  | none => rfl
  | some info =>
      have split := userinfo_text found
      rw [split] at whole
      exact fromHost_append _ _ _ stops fun c member => whole c (List.mem_append_right _ member)

def serializeQuery (search hash : Bytes) : Bytes :=
  preceded '?' search ++ preceded '#' hash

section Query

variable {search : Bytes} (hash : Bytes)

theorem stops_hash (hash : Bytes) : Stops inSearch (preceded '#' hash) := by
  simp only [preceded]
  split_ifs
  · exact stops_nil
  · exact stops_cons.mpr rfl

theorem stops_query (search hash : Bytes) : Stops inPath (serializeQuery search hash) := by
  rw [serializeQuery, preceded]
  split_ifs
  · exact (stops_hash hash).mono fun c inside => by simp [inPath, inSearch] at inside ⊢; exact inside.2
  · exact stops_cons.mpr rfl

theorem searchOf_query (whole : ∀ c ∈ search, inSearch c = true) :
    searchOf (serializeQuery search hash) = search := by
  cases search with
  | nil =>
      cases hash with
      | nil => rfl
      | cons c rest => rfl
  | cons c rest =>
      simp only [serializeQuery, preceded, List.isEmpty_cons, Bool.false_eq_true, if_false,
        List.cons_append, searchOf, beq_self_eq_true, if_true]
      exact takeWhile_whole whole (stops_hash hash)

theorem hashOf_query (whole : ∀ c ∈ search, inSearch c = true) :
    hashOf (serializeQuery search hash) = hash := by
  have marked : ∀ c ∈ preceded '?' search, inSearch c = true := preceded_all rfl whole
  rw [hashOf, serializeQuery, dropWhile_whole marked (stops_hash hash), preceded]
  split_ifs with empty
  · simpa using empty
  · rfl

theorem searchOf_inSearch (s : Bytes) : ∀ c ∈ searchOf s, inSearch c = true := by
  intro c member
  cases s with
  | nil => cases member
  | cons head rest =>
      simp only [searchOf] at member
      split_ifs at member
      · exact List.mem_takeWhile_imp member
      · cases member

end Query

theorem parseUrl_scheme {scheme : Bytes} (nonempty : scheme ≠ [])
    (whole : ∀ c ∈ scheme, isWord c = true) (rest : Bytes) :
    parseUrl (scheme ++ text "://" ++ rest) = authority (scheme ++ text ":") rest := by
  have stops : Stops isWord (text "://" ++ rest) := stops_cons.mpr rfl
  have named : word (scheme ++ text "://" ++ rest) = some (scheme, text "://" ++ rest) := by
    simp [word, takeWhile_whole whole stops, dropWhile_whole whole stops, nonempty]
  rw [parseUrl, named]
  rfl

theorem authority_fixpoint {protocol s : Bytes} {url : Components}
    (found : authority protocol s = some url) :
    url.protocol = protocol ∧ authority protocol (serializeUserinfo url.username url.password ++
      url.host ++ preceded ':' url.port ++ url.pathname ++ serializeQuery url.search url.hash) =
        some url := by
  have whole : ∀ c ∈ s.takeWhile inPath, inPath c = true := fun c => List.mem_takeWhile_imp
  rw [← List.takeWhile_append_dropWhile (p := inPath) (l := s),
    authority_append protocol (stops_dropWhile inPath s) whole] at found
  obtain ⟨bare, read, same⟩ := Option.map_eq_some_iff.mp found
  obtain ⟨named, front⟩ := authority_text read whole
  rw [← same]
  refine ⟨named, ?_⟩
  simp only [Components.withQuery]
  rw [front, authority_append protocol (stops_query _ _) whole, read, Option.map_some,
    Components.withQuery, searchOf_query _ (searchOf_inSearch _),
    hashOf_query _ (searchOf_inSearch _)]

theorem slashes_text {s rest : Bytes} (found : slashes s = some rest) : s = text "//" ++ rest := by
  obtain ⟨tail, first, second⟩ := Option.bind_eq_some_iff.mp found
  rw [expect_text first, expect_text second]
  rfl

theorem parseUrl_cases {s : Bytes} {url : Components} (found : parseUrl s = some url) :
    (∃ scheme rest, scheme ≠ [] ∧ (∀ c ∈ scheme, isWord c = true) ∧
      s = scheme ++ text "://" ++ rest ∧ authority (scheme ++ text ":") rest = some url) ∨
    ∃ rest, s = text "//" ++ rest ∧ authority (text ":") rest = some url := by
  rw [parseUrl] at found
  cases named : word s with
  | none =>
      rw [named] at found
      obtain ⟨rest, marked, read⟩ := Option.bind_eq_some_iff.mp found
      exact .inr ⟨rest, slashes_text marked, read⟩
  | some pair =>
      obtain ⟨scheme, tail⟩ := pair
      obtain ⟨nonempty, whole, split, _⟩ := word_text named
      rw [named] at found
      obtain ⟨rest, marked, read⟩ := Option.bind_eq_some_iff.mp found
      obtain ⟨later, colon, slashed⟩ := Option.bind_eq_some_iff.mp marked
      refine .inl ⟨scheme, rest, nonempty, whole, ?_, read⟩
      rw [split, expect_text colon, slashes_text slashed, List.append_assoc]
      rfl

theorem hashOf_append {front rest : Bytes} (whole : ∀ c ∈ front, inSearch c = true) :
    hashOf (front ++ rest) = hashOf rest := by
  rw [hashOf, List.dropWhile_append_of_pos whole, hashOf]

theorem authority_hash {protocol s : Bytes} {url : Components}
    (found : authority protocol s = some url) : hashOf s = url.hash := by
  have whole : ∀ c ∈ s.takeWhile inPath, inPath c = true := fun c => List.mem_takeWhile_imp
  have split := List.takeWhile_append_dropWhile (p := inPath) (l := s)
  rw [← split, authority_append protocol (stops_dropWhile inPath s) whole] at found
  obtain ⟨bare, _, same⟩ := Option.map_eq_some_iff.mp found
  rw [← same, Components.withQuery, ← split, hashOf_append, split]
  intro c member
  have inside := whole c member
  simp only [inPath, Bool.and_eq_true] at inside
  exact inside.2

theorem parseUrl_hash {s : Bytes} {url : Components} (found : parseUrl s = some url) :
    hashOf s = url.hash := by
  rcases parseUrl_cases found with ⟨scheme, rest, _, whole, split, read⟩ | ⟨rest, split, read⟩
  · rw [← authority_hash read, split, hashOf_append]
    intro c member
    rcases List.mem_append.mp member with inside | mark
    · have path := inPath_of (p := isWord) rfl rfl c (whole c inside)
      simp only [inPath, Bool.and_eq_true] at path
      exact path.2
    · have marks : (text "://").all inSearch = true := by decide
      exact List.all_eq_true.mp marks c mark
  · have marks : (text "//").all inSearch = true := by decide
    rw [← authority_hash read, split, hashOf_append (List.all_eq_true.mp marks)]

theorem parseUrl_serialize {s : Bytes} {url : Components} (found : parseUrl s = some url)
    (schemed : ¬ text "//" <+: s) : parseUrl url.serializeUrl = some url := by
  rcases parseUrl_cases found with ⟨scheme, rest, nonempty, whole, _, read⟩ | ⟨rest, split, _⟩
  · obtain ⟨protocol, fixed⟩ := authority_fixpoint read
    have written : url.serializeUrl = scheme ++ text "://" ++
        (serializeUserinfo url.username url.password ++ url.host ++ preceded ':' url.port ++
          url.pathname ++ serializeQuery url.search url.hash) := by
      simp [Components.serializeUrl, protocol, serializeQuery, text]
    rw [written, parseUrl_scheme nonempty whole, fixed]
  · exact absurd (split ▸ List.prefix_append _ _) schemed

theorem parseUrl_schemeless {s : Bytes} {url : Components} (found : parseUrl s = some url)
    (bare : text "//" <+: s) : parseUrl url.serializeUrl = none := by
  rcases parseUrl_cases found with ⟨scheme, rest, nonempty, whole, split, _⟩ | ⟨rest, _, read⟩
  · obtain ⟨tail, same⟩ := bare
    rw [split] at same
    cases scheme with
    | nil => exact absurd rfl nonempty
    | cons c scheme =>
        have slash : byte '/' = c := (List.cons.inj same).1
        have accepted := whole c (List.mem_cons_self)
        rw [← slash] at accepted
        cases accepted
  · have protocol := (authority_fixpoint read).1
    simp only [Components.serializeUrl, protocol]
    rfl

/-- Parsing the href of a parsed URL gives the same components if and only if the text that was
parsed did not start with `//`. -/
theorem href_fixpoint_iff {dot : UInt8 → Bool} {s : Bytes} {url : Components}
    (accepted : matchUrl dot s = some url) :
    matchUrl dot url.serializeUrl = some url ↔ ¬ text "//" <+: s := by
  rw [matchUrl_eq] at accepted ⊢
  split_ifs at accepted with dots
  constructor
  · intro again bare
    rw [parseUrl_schemeless accepted bare, ite_self] at again
    cases again
  · intro schemed
    have fixed := parseUrl_serialize accepted schemed
    have same : dotted dot url.serializeUrl = dotted dot s := by
      rw [dotted, dotted, parseUrl_hash fixed, parseUrl_hash accepted]
    rw [same, if_pos dots, fixed]

theorem href_fixpoint_example :
    ∃ url, matchUrl anyByte (text "http://user@/path?#top") = some url ∧
      url.serializeUrl = text "http://user@/path#top" ∧
      matchUrl anyByte url.serializeUrl = some url := by
  have accepted : matchUrl anyByte (text "http://user@/path?#top") = some ⟨text "http:", [], [],
      text "user@", [], text "/path", [], text "top"⟩ := by decide +kernel
  exact ⟨_, accepted, by decide +kernel, (href_fixpoint_iff accepted).mpr (by decide +kernel)⟩

theorem schemeless_href_rejected :
    ∃ url, matchUrl anyByte (text "//example.com/p") = some url ∧
      url.serializeUrl = text "://example.com/p" ∧ matchUrl anyByte url.serializeUrl = none := by
  refine ⟨⟨text ":", [], [], text "example.com", [], text "/p", [], []⟩, ?_, ?_, ?_⟩ <;>
    decide +kernel

end BreezeJs.Infra
