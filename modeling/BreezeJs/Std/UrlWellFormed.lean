import BreezeJs.Std.UrlFixpoint

set_option autoImplicit false

namespace BreezeJs.Infra

open Scanning

def ReadsUserinfo (s : Bytes) : Prop :=
  ∃ user secret c rest, user ≠ [] ∧ (∀ b ∈ user, isWord b = true) ∧
    (∀ b ∈ secret, isWord b = true) ∧ inHost c = true ∧
    s = user ++ preceded ':' secret ++ byte '@' :: c :: rest

section Userinfo

variable {s rest user secret : Bytes}

theorem word_written (nonempty : user ≠ []) (whole : ∀ c ∈ user, isWord c = true)
    (stops : Stops isWord rest) : word (user ++ rest) = some (user, rest) := by
  simp [word, takeWhile_whole whole stops, dropWhile_whole whole stops, nonempty]

theorem stops_password (secret rest : Bytes) :
    Stops isWord (preceded ':' secret ++ byte '@' :: rest) := by
  simp only [preceded]
  split_ifs <;> exact stops_cons.mpr rfl

theorem password_written (whole : ∀ c ∈ secret, isWord c = true) (rest : Bytes) :
    password (preceded ':' secret ++ byte '@' :: rest) = some (secret, rest) := by
  by_cases missing : secret = []
  · subst missing
    have refused : expect ':' (byte '@' :: rest) = none := rfl
    have marked : expect '@' (byte '@' :: rest) = some rest := rfl
    simp [preceded, password, refused, marked]
  · have named : word (secret ++ byte '@' :: rest) = some (secret, byte '@' :: rest) :=
      word_written missing whole (stops_cons.mpr rfl)
    simp [preceded_of_ne missing, password, expect, named]

theorem userinfo_written (nonempty : user ≠ []) (user_words : ∀ c ∈ user, isWord c = true)
    (secret_words : ∀ c ∈ secret, isWord c = true) (rest : Bytes) :
    userinfo (user ++ preceded ':' secret ++ byte '@' :: rest) = some (user, secret, rest) := by
  rw [List.append_assoc, userinfo, word_written nonempty user_words (stops_password secret rest)]
  simp [password_written secret_words]

theorem password_words (found : password s = some (secret, rest)) :
    ∀ c ∈ secret, isWord c = true := by
  rw [password, Option.or_eq_some_iff] at found
  rcases found with found | ⟨_, found⟩
  · obtain ⟨tail, _, found⟩ := Option.bind_eq_some_iff.mp found
    obtain ⟨⟨name, later⟩, named, found⟩ := Option.bind_eq_some_iff.mp found
    obtain ⟨_, _, same⟩ := Option.map_eq_some_iff.mp found
    cases same
    exact (word_text named).2.1
  · obtain ⟨_, _, same⟩ := Option.map_eq_some_iff.mp found
    cases same
    simp

theorem userinfo_words (found : userinfo s = some (user, secret, rest)) :
    user ≠ [] ∧ (∀ c ∈ user, isWord c = true) ∧ ∀ c ∈ secret, isWord c = true := by
  obtain ⟨⟨name, later⟩, named, found⟩ := Option.bind_eq_some_iff.mp found
  obtain ⟨⟨secret, tail⟩, known, same⟩ := Option.map_eq_some_iff.mp found
  cases same
  obtain ⟨nonempty, words, _, _⟩ := word_text named
  exact ⟨nonempty, words, password_words known⟩

theorem fromHost_none_iff (protocol username password s : Bytes) :
    fromHost protocol username password s = none ↔ Stops inHost s := by
  cases s with
  | nil => simp [fromHost]
  | cons c rest => cases accepted : inHost c <;> simp [fromHost, accepted]

theorem no_userinfo_iff (protocol s : Bytes) :
    ((userinfo s).bind fun info => fromHost protocol info.1 info.2.1 info.2.2) = none ↔
      ¬ReadsUserinfo s := by
  constructor
  · rintro refused ⟨user, secret, c, rest, nonempty, user_words, secret_words, inside, rfl⟩
    rw [userinfo_written nonempty user_words secret_words] at refused
    have stops := (fromHost_none_iff protocol user secret (c :: rest)).mp refused
    rw [stops_cons, inside] at stops
    cases stops
  · intro bare
    cases found : userinfo s with
    | none => rfl
    | some info =>
        obtain ⟨user, secret, tail⟩ := info
        obtain ⟨nonempty, user_words, secret_words⟩ := userinfo_words found
        refine (fromHost_none_iff protocol user secret tail).mpr ?_
        cases tail with
        | nil => exact stops_nil
        | cons c rest =>
            rw [stops_cons, Bool.eq_false_iff]
            intro inside
            refine bare ⟨user, secret, c, rest, nonempty, user_words, secret_words, inside, ?_⟩
            simpa [serializeUserinfo, nonempty, text] using userinfo_text found

end Userinfo

def startsPort : Bytes → Bool
  | c :: d :: _ => c == byte ':' && isDigit d
  | _ => false

def PathFollows (port pathname : Bytes) : Prop :=
  if port = [] then Stops inHost pathname ∧ startsPort pathname = false
  else Stops isDigit pathname

structure Place (host port pathname : Bytes) : Prop where
  named : host ≠ []
  hostChars : ∀ c ∈ host, inHost c = true
  digits : ∀ c ∈ port, isDigit c = true
  pathChars : ∀ c ∈ pathname, inPath c = true
  follows : PathFollows port pathname

section Place

variable {s host port pathname : Bytes}

theorem portOf_empty_iff (s : Bytes) : portOf s = [] ↔ startsPort s = false := by
  cases s with
  | nil => simp [portOf, startsPort]
  | cons c rest =>
      cases rest with
      | nil => simp [portOf, startsPort]
      | cons d rest =>
          by_cases colon : c = byte ':' <;> cases digit : isDigit d <;>
            simp [portOf, startsPort, colon, digit]

theorem port_written (follows : PathFollows port pathname)
    (digits : ∀ c ∈ port, isDigit c = true) :
    Stops inHost (preceded ':' port ++ pathname) ∧
      portOf (preceded ':' port ++ pathname) = port ∧
      afterPort (preceded ':' port ++ pathname) = pathname := by
  simp only [PathFollows] at follows
  split_ifs at follows with missing
  · subst missing
    have none : portOf pathname = [] := (portOf_empty_iff pathname).mpr follows.2
    exact ⟨follows.1, none, by simp [preceded, afterPort, none]⟩
  · have read : portOf (byte ':' :: (port ++ pathname)) = port := by
      simp [portOf, takeWhile_whole digits follows]
    rw [preceded_of_ne missing]
    refine ⟨stops_cons.mpr rfl, read, ?_⟩
    rw [List.cons_append, afterPort, read]
    simp [missing, dropWhile_whole digits follows]

theorem fromHost_written (place : Place host port pathname)
    (protocol username password : Bytes) :
    fromHost protocol username password (host ++ preceded ':' port ++ pathname) =
      some ⟨protocol, username, password, host, port, pathname, [], []⟩ := by
  obtain ⟨stops, read, left⟩ := port_written place.follows place.digits
  have path := place.pathChars
  simp [fromHost, takeWhile_whole place.hostChars stops, dropWhile_whole place.hostChars stops,
    read, left, List.takeWhile_eq_self_iff.mpr path, List.dropWhile_eq_nil_iff.mpr path,
    place.named, searchOf, hashOf]

theorem portOf_digits (s : Bytes) : ∀ c ∈ portOf s, isDigit c = true := by
  intro c member
  cases s with
  | nil => cases member
  | cons head rest =>
      simp only [portOf] at member
      split_ifs at member
      · exact List.mem_takeWhile_imp member
      · cases member

theorem path_follows (stops : Stops inHost s) : PathFollows (portOf s) (afterPort s) := by
  simp only [PathFollows, afterPort, List.isEmpty_iff]
  split_ifs with missing
  · exact ⟨stops, (portOf_empty_iff s).mp missing⟩
  · exact stops_dropWhile isDigit _

theorem fromHost_place {protocol username password : Bytes} {url : Components}
    (found : fromHost protocol username password s = some url)
    (whole : ∀ c ∈ s, inPath c = true) : Place url.host url.port url.pathname := by
  have path : ∀ c ∈ afterPort (s.dropWhile inHost), inPath c = true := by
    intro c member
    exact whole c ((List.dropWhile_sublist _).subset (afterPort_subset _ member))
  simp only [fromHost, List.isEmpty_iff] at found
  split_ifs at found with missing
  cases found
  simp only [List.takeWhile_eq_self_iff.mpr path]
  exact {
    named := missing
    hostChars := fun c => List.mem_takeWhile_imp
    digits := portOf_digits _
    pathChars := path
    follows := path_follows (stops_dropWhile inHost s) }

end Place

structure WellFormed (dot : UInt8 → Bool) (url : Components) : Prop where
  protocol : ∃ scheme, scheme ≠ [] ∧ (∀ c ∈ scheme, isWord c = true) ∧
    url.protocol = scheme ++ text ":"
  username : ∀ c ∈ url.username, isWord c = true
  password : ∀ c ∈ url.password, isWord c = true
  owned : url.username = [] → url.password = []
  place : Place url.host url.port url.pathname
  bare : url.username = [] → ¬ReadsUserinfo (url.host ++ preceded ':' url.port ++ url.pathname)
  search : ∀ c ∈ url.search, inSearch c = true
  hash : ∀ c ∈ url.hash, dot c = true

def Components.front (url : Components) : Bytes :=
  serializeUserinfo url.username url.password ++ url.host ++ preceded ':' url.port ++ url.pathname

section WellFormed

variable {dot : UInt8 → Bool} {url : Components}

theorem serializeUrl_scheme {scheme : Bytes} (url : Components)
    (named : url.protocol = scheme ++ text ":") :
    url.serializeUrl =
      scheme ++ text "://" ++ (url.front ++ serializeQuery url.search url.hash) := by
  simp [Components.serializeUrl, Components.front, named, serializeQuery, text]

theorem WellFormed.front_inPath (formed : WellFormed dot url) :
    ∀ c ∈ url.front, inPath c = true := by
  intro c member
  simp only [Components.front, serializeUserinfo, List.mem_append] at member
  rcases member with ((member | member) | member) | member
  · split_ifs at member
    · cases member
    · simp only [List.mem_append] at member
      rcases member with (member | member) | member
      · exact inPath_of rfl rfl c (formed.username c member)
      · exact preceded_all rfl (fun c known => inPath_of rfl rfl c (formed.password c known)) c
          member
      · cases List.mem_singleton.mp member
        rfl
  · exact inPath_of rfl rfl c (formed.place.hostChars c member)
  · exact preceded_all rfl (fun c known => inPath_of rfl rfl c (formed.place.digits c known)) c
      member
  · exact formed.place.pathChars c member

theorem WellFormed.authority (formed : WellFormed dot url) :
    authority url.protocol url.front = some { url with search := [], hash := [] } := by
  have written := fromHost_written formed.place
  by_cases missing : url.username = []
  · have front : url.front = url.host ++ preceded ':' url.port ++ url.pathname := by
      simp [Components.front, serializeUserinfo, missing]
    have refused := (no_userinfo_iff url.protocol url.front).mpr (front ▸ formed.bare missing)
    rw [Infra.authority, refused, Option.none_or, front, written]
    simp only [missing, formed.owned missing]
  · have front : url.front = url.username ++ preceded ':' url.password ++
        byte '@' :: (url.host ++ preceded ':' url.port ++ url.pathname) := by
      simp [Components.front, serializeUserinfo, missing, text]
    rw [Infra.authority, front, userinfo_written missing formed.username formed.password,
      Option.bind_some, written, Option.some_or]

theorem WellFormed.parse (formed : WellFormed dot url) :
    parseUrl url.serializeUrl = some url := by
  obtain ⟨scheme, nonempty, words, named⟩ := formed.protocol
  rw [serializeUrl_scheme url named, parseUrl_scheme nonempty words, ← named,
    authority_append _ (stops_query _ _) formed.front_inPath, formed.authority, Option.map_some,
    Components.withQuery, searchOf_query _ formed.search, hashOf_query _ formed.search]

theorem authority_formed {protocol s : Bytes} (found : authority protocol s = some url)
    (whole : ∀ c ∈ s, inPath c = true) :
    (∀ c ∈ url.username, isWord c = true) ∧ (∀ c ∈ url.password, isWord c = true) ∧
      (url.username = [] → url.password = [] ∧ ¬ReadsUserinfo s) ∧
      Place url.host url.port url.pathname := by
  rw [authority, Option.or_eq_some_iff] at found
  rcases found with found | ⟨refused, found⟩
  · obtain ⟨⟨username, secret, tail⟩, named, found⟩ := Option.bind_eq_some_iff.mp found
    obtain ⟨nonempty, user_words, secret_words⟩ := userinfo_words named
    rw [userinfo_text named] at whole
    have later : ∀ c ∈ tail, inPath c = true :=
      fun c member => whole c (List.mem_append_right _ member)
    obtain ⟨_, user, word, _⟩ := fromHost_text found later
    rw [user, word]
    exact ⟨user_words, secret_words, fun missing => absurd missing nonempty,
      fromHost_place found later⟩
  · obtain ⟨_, user, word, _⟩ := fromHost_text found whole
    rw [user, word]
    exact ⟨by simp, by simp, fun _ => ⟨rfl, (no_userinfo_iff protocol s).mp refused⟩,
      fromHost_place found whole⟩

theorem formed_of_authority {scheme s : Bytes} (nonempty : scheme ≠ [])
    (words : ∀ c ∈ scheme, isWord c = true) (read : authority (scheme ++ text ":") s = some url)
    (hash : ∀ c ∈ url.hash, dot c = true) : WellFormed dot url := by
  have whole : ∀ c ∈ s.takeWhile inPath, inPath c = true := fun c => List.mem_takeWhile_imp
  rw [← List.takeWhile_append_dropWhile (p := inPath) (l := s),
    authority_append _ (stops_dropWhile inPath s) whole] at read
  obtain ⟨short, found, rfl⟩ := Option.map_eq_some_iff.mp read
  obtain ⟨named, front⟩ := authority_text found whole
  obtain ⟨user_words, secret_words, unnamed, place⟩ := authority_formed found whole
  exact {
    protocol := ⟨scheme, nonempty, words, named⟩
    username := user_words
    password := secret_words
    owned := fun missing => (unnamed missing).1
    place := place
    bare := by
      intro missing
      have plain : short.username = [] := missing
      have text : short.host ++ preceded ':' short.port ++ short.pathname = s.takeWhile inPath := by
        simpa [serializeUserinfo, plain] using front
      have reads := (unnamed plain).2
      rw [← text] at reads
      exact reads
    search := searchOf_inSearch _
    hash := hash }

theorem parse_serialize_iff : matchUrl dot url.serializeUrl = some url ↔ WellFormed dot url := by
  rw [matchUrl_eq]
  constructor
  · intro read
    split_ifs at read with dots
    have hash : ∀ c ∈ url.hash, dot c = true := by
      rw [dotted, parseUrl_hash read] at dots
      exact List.all_eq_true.mp dots
    rcases parseUrl_cases read with ⟨scheme, rest, nonempty, words, _, found⟩ | ⟨rest, bare, _⟩
    · exact formed_of_authority nonempty words found hash
    · have rejected := parseUrl_schemeless read (bare ▸ List.prefix_append _ _)
      rw [read] at rejected
      cases rejected
  · intro formed
    have dots : dotted dot url.serializeUrl = true := by
      rw [dotted, parseUrl_hash formed.parse]
      exact List.all_eq_true.mpr formed.hash
    rw [if_pos dots, formed.parse]

end WellFormed

structure Plain (url : Components) : Prop where
  protocol : ∃ scheme, scheme ≠ [] ∧ (∀ c ∈ scheme, isWord c = true) ∧
    url.protocol = scheme ++ text ":"
  username : ∀ c ∈ url.username, isWord c = true
  password : ∀ c ∈ url.password, isWord c = true
  owned : url.username = [] → url.password = []
  named : url.host ≠ []
  host : ∀ c ∈ url.host, inHost c = true ∧ c ≠ byte '@'
  port : ∀ c ∈ url.port, isDigit c = true
  rooted : url.pathname = [] ∨ ∃ rest, url.pathname = byte '/' :: rest
  pathname : ∀ c ∈ url.pathname, inPath c = true
  search : ∀ c ∈ url.search, inSearch c = true
  hash : ∀ c ∈ url.hash, c ≠ byte '\n' ∧ c ≠ byte '\r'

section Plain

variable {dot : UInt8 → Bool} {url : Components}

theorem Plain.place (plain : Plain url) : Place url.host url.port url.pathname where
  named := plain.named
  hostChars := fun c member => (plain.host c member).1
  digits := plain.port
  pathChars := plain.pathname
  follows := by
    rw [PathFollows]
    rcases plain.rooted with missing | ⟨rest, rooted⟩
    · simp [missing, startsPort]
    · have slash : startsPort (byte '/' :: rest) = false := by
        cases rest <;> rfl
      have ends : isDigit (byte '/') = false ∧ inHost (byte '/') = false := ⟨rfl, rfl⟩
      simp [rooted, slash, ends]

def beforeMark (c : UInt8) : Bool :=
  c != byte '@' && c != byte '/'

theorem beforeMark_of {p : UInt8 → Bool} (atSign : p (byte '@') = false)
    (slash : p (byte '/') = false) : ∀ c, p c = true → beforeMark c = true := by
  intro c accepted
  have noSign : c ≠ byte '@' := by
    rintro rfl
    simp [atSign] at accepted
  have noSlash : c ≠ byte '/' := by
    rintro rfl
    simp [slash] at accepted
  simp [beforeMark, noSign, noSlash]

theorem Plain.bare (plain : Plain url) :
    ¬ReadsUserinfo (url.host ++ preceded ':' url.port ++ url.pathname) := by
  rintro ⟨user, secret, c, rest, _, user_words, secret_words, _, same⟩
  have words : ∀ b, isWord b = true → beforeMark b = true := beforeMark_of rfl rfl
  have front : ∀ b ∈ user ++ preceded ':' secret, beforeMark b = true := by
    intro b member
    rcases List.mem_append.mp member with member | member
    · exact words b (user_words b member)
    · exact preceded_all rfl (fun b member => words b (secret_words b member)) b member
  have host : ∀ b ∈ url.host ++ preceded ':' url.port, beforeMark b = true := by
    intro b member
    rcases List.mem_append.mp member with member | member
    · obtain ⟨inside, noSign⟩ := plain.host b member
      simp only [inHost, Bool.and_eq_true, bne_iff_ne] at inside
      simp [beforeMark, noSign, inside.1.1.2]
    · exact preceded_all rfl
        (fun b member => beforeMark_of rfl rfl b (plain.port b member)) b member
  have rooted : Stops beforeMark url.pathname := by
    rcases plain.rooted with missing | ⟨rest, rooted⟩
    · rw [missing]
      exact stops_nil
    · rw [rooted]
      exact stops_cons.mpr rfl
  have left : (url.host ++ preceded ':' url.port ++ url.pathname).dropWhile beforeMark =
      url.pathname := dropWhile_whole host rooted
  rw [same, dropWhile_whole front (stops_cons.mpr rfl)] at left
  rcases plain.rooted with missing | ⟨tail, slash⟩
  · rw [missing] at left
    cases left
  · rw [slash] at left
    exact absurd (List.cons.inj left).1 (by decide)

theorem Plain.formed (plain : Plain url)
    (dots : ∀ c, c ≠ byte '\n' → c ≠ byte '\r' → dot c = true) : WellFormed dot url where
  protocol := plain.protocol
  username := plain.username
  password := plain.password
  owned := plain.owned
  place := plain.place
  bare := fun _ => plain.bare
  search := plain.search
  hash := fun c member => dots c (plain.hash c member).1 (plain.hash c member).2

/-- The parser undoes the serializer. -/
theorem plain_round_trip (plain : Plain url)
    (dots : ∀ c, c ≠ byte '\n' → c ≠ byte '\r' → dot c = true) :
    matchUrl dot url.serializeUrl = some url :=
  parse_serialize_iff.mpr (plain.formed dots)

theorem plain_round_trip_example :
    matchUrl (fun c => c != byte '\n' && c != byte '\r')
      (Components.serializeUrl ⟨text "http:", text "u", text "1", text "h", text "80",
        text "/a:b@c", text "?x=y", text "#top"⟩) =
      some ⟨text "http:", text "u", text "1", text "h", text "80", text "/a:b@c", text "?x=y",
        text "#top"⟩ := by
  refine plain_round_trip ?_ fun c newline carriage => by simp [newline, carriage]
  exact {
    protocol := ⟨text "http", by decide +kernel, by decide +kernel, rfl⟩
    username := by decide +kernel
    password := by decide +kernel
    owned := by decide +kernel
    named := by decide +kernel
    host := by decide +kernel
    port := by decide +kernel
    rooted := .inr ⟨text "a:b@c", rfl⟩
    pathname := by decide +kernel
    search := by decide +kernel
    hash := by decide +kernel }

end Plain

end BreezeJs.Infra
