import Mathlib.Data.List.DropRight
import BreezeJs.Library.Backtrack
import BreezeJs.Library.Scanning
import BreezeJs.Std.QueryCodec

set_option autoImplicit false

namespace BreezeJs.Infra

-- The class `dot` is what `.` stands for: every byte, or every byte that ends no line.

open Backtrack Scanning

structure Components where
  protocol : Bytes
  username : Bytes
  password : Bytes
  host : Bytes
  port : Bytes
  pathname : Bytes
  search : Bytes
  hash : Bytes
deriving DecidableEq, Repr

def isDigit : UInt8 → Bool :=
  between '0' '9'

def isWord (c : UInt8) : Bool :=
  isAlnum c || c == byte '_'

def literal (c : Char) : Pattern UInt8 :=
  .char (· == byte c)

def inHost (c : UInt8) : Bool :=
  c != byte ':' && c != byte '/' && c != byte '?' && c != byte '#'

def inPath (c : UInt8) : Bool :=
  c != byte '?' && c != byte '#'

def inSearch (c : UInt8) : Bool :=
  c != byte '#'

-- `(?:(\w+):)?`
def schemePattern : Pattern UInt8 :=
  .opt (.seq (.group 1 (.many 1 isWord)) (literal ':'))

-- `(?:(\w+)(?::(\w+))?@)?`
def userinfoPattern : Pattern UInt8 :=
  .opt (.seq (.group 2 (.many 1 isWord))
    (.seq (.opt (.seq (literal ':') (.group 3 (.many 1 isWord)))) (literal '@')))

-- `([^:/?#]+)`
def hostPattern : Pattern UInt8 :=
  .group 4 (.many 1 inHost)

-- `(?::(\d+))?`
def portPattern : Pattern UInt8 :=
  .opt (.seq (literal ':') (.group 5 (.many 1 isDigit)))

-- `([^?#]*)`
def pathPattern : Pattern UInt8 :=
  .group 6 (.many 0 inPath)

-- `(?:\?([^#]*))?`
def searchPattern : Pattern UInt8 :=
  .opt (.seq (literal '?') (.group 7 (.many 0 inSearch)))

-- `(?:#(.*))?`
def hashPattern (dot : UInt8 → Bool) : Pattern UInt8 :=
  .opt (.seq (literal '#') (.group 8 (.many 0 dot)))

def frontPattern : Pattern UInt8 :=
  .seq schemePattern (.seq (literal '/') (.seq (literal '/') (.seq userinfoPattern
    (.seq hostPattern (.seq portPattern (.seq pathPattern searchPattern))))))

def urlPattern (dot : UInt8 → Bool) : Pattern UInt8 :=
  .seq frontPattern (hashPattern dot)

-- `match.get<n>()`; a missing scheme leaves a protocol of `:`.
def componentsOf (get : Groups UInt8) : Components where
  protocol := get 1 ++ text ":"
  username := get 2
  password := get 3
  host := get 4
  port := get 5
  pathname := get 6
  search := get 7
  hash := get 8

def matchUrl (dot : UInt8 → Bool) (urlString : Bytes) : Option Components :=
  (fullMatch (urlPattern dot) urlString).map componentsOf

def preceded (mark : Char) (part : Bytes) : Bytes :=
  if part.isEmpty then [] else byte mark :: part

def serializeUserinfo (username password : Bytes) : Bytes :=
  if username.isEmpty then [] else username ++ preceded ':' password ++ text "@"

def Components.serializeUrl (url : Components) : Bytes :=
  (if url.protocol.isEmpty then [] else url.protocol ++ text "//") ++
    serializeUserinfo url.username url.password ++ url.host ++ preceded ':' url.port ++
    url.pathname ++ preceded '?' url.search ++ preceded '#' url.hash

def portOf : Bytes → Bytes
  | [] => []
  | c :: rest => if c == byte ':' then rest.takeWhile isDigit else []

def afterPort (rest : Bytes) : Bytes :=
  if (portOf rest).isEmpty then rest else (rest.drop 1).dropWhile isDigit

def searchOf : Bytes → Bytes
  | [] => []
  | c :: rest => if c == byte '?' then rest.takeWhile inSearch else []

def hashOf (rest : Bytes) : Bytes :=
  (rest.dropWhile inSearch).drop 1

def expect (mark : Char) : Bytes → Option Bytes
  | [] => none
  | c :: rest => if c == byte mark then some rest else none

def word (s : Bytes) : Option (Bytes × Bytes) :=
  if (s.takeWhile isWord).isEmpty then none else some (s.takeWhile isWord, s.dropWhile isWord)

def password (s : Bytes) : Option (Bytes × Bytes) :=
  ((expect ':' s).bind fun rest => (word rest).bind fun found =>
    (expect '@' found.2).map fun rest => (found.1, rest)).or
  ((expect '@' s).map fun rest => ([], rest))

def userinfo (s : Bytes) : Option (Bytes × Bytes × Bytes) :=
  (word s).bind fun user => (password user.2).map fun found => (user.1, found.1, found.2)

def fromHost (protocol username password rest : Bytes) : Option Components :=
  if (rest.takeWhile inHost).isEmpty then none
  else
    let path := afterPort (rest.dropWhile inHost)
    some {
      protocol := protocol
      username := username
      password := password
      host := rest.takeWhile inHost
      port := portOf (rest.dropWhile inHost)
      pathname := path.takeWhile inPath
      search := searchOf (path.dropWhile inPath)
      hash := hashOf (path.dropWhile inPath) }

def authority (protocol rest : Bytes) : Option Components :=
  ((userinfo rest).bind fun info => fromHost protocol info.1 info.2.1 info.2.2).or
    (fromHost protocol [] [] rest)

def slashes (s : Bytes) : Option Bytes :=
  (expect '/' s).bind (expect '/')

def parseUrl (s : Bytes) : Option Components :=
  match word s with
  | some (scheme, rest) =>
      ((expect ':' rest).bind slashes).bind (authority (scheme ++ text ":"))
  | none => (slashes s).bind (authority (text ":"))

def dotted (dot : UInt8 → Bool) (s : Bytes) : Bool :=
  (hashOf s).all dot

section Groups

variable {groups : Groups UInt8} {s : Bytes}

def anyByte (_ : UInt8) : Bool := true

def atEnd (rest : Bytes) (groups : Groups UInt8) : Option (Groups UInt8) :=
  if rest.isEmpty then some groups else none

def hashGroups (groups : Groups UInt8) (s : Bytes) : Groups UInt8 :=
  Function.update groups 8 (hashOf s)

def searchGroups (groups : Groups UInt8) (s : Bytes) : Groups UInt8 :=
  hashGroups (Function.update groups 7 (searchOf s)) s

def pathGroups (groups : Groups UInt8) (s : Bytes) : Groups UInt8 :=
  searchGroups (Function.update groups 6 (s.takeWhile inPath)) (s.dropWhile inPath)

def portGroups (groups : Groups UInt8) (s : Bytes) : Groups UInt8 :=
  pathGroups (Function.update groups 5 (portOf s)) (afterPort s)

def hostGroups (groups : Groups UInt8) (s : Bytes) : Option (Groups UInt8) :=
  if (s.takeWhile inHost).isEmpty then none
  else some (portGroups (Function.update groups 4 (s.takeWhile inHost)) (s.dropWhile inHost))

theorem run_literal {β : Type} (c : Char) (k : Bytes → Groups UInt8 → Option β) :
    run (literal c) s groups k = (expect c s).bind fun rest => k rest groups := by
  cases s with
  | nil => rfl
  | cons head rest =>
      simp only [literal, run, expect]
      split_ifs <;> rfl

theorem run_rest (dot : UInt8 → Bool) (s : Bytes) :
    run (.group 8 (.many 0 dot)) s groups atEnd =
      if s.all dot then some (Function.update groups 8 s) else none := by
  rw [run_group_only fun _ _ _ _ => rfl, if_pos (Nat.zero_le _)]
  split_ifs with whole
  · rw [List.all_eq_true] at whole
    rw [List.takeWhile_eq_self_iff.mpr whole, List.dropWhile_eq_nil_iff.mpr whole]
    rfl
  · cases rest : s.dropWhile dot with
    | nil => exact absurd (List.all_eq_true.mpr (List.dropWhile_eq_nil_iff.mp rest)) whole
    | cons _ _ => rfl

theorem run_hash_dot (dot : UInt8 → Bool) :
    run (hashPattern dot) s groups atEnd =
      if dotted dot s then run (hashPattern anyByte) s groups atEnd else none := by
  simp only [hashPattern, run_opt, run_seq, run_literal, run_rest]
  have every (s : Bytes) : s.all anyByte = true := by simp [anyByte]
  cases s with
  | nil => simp [expect, dotted, hashOf]
  | cons c rest =>
      by_cases mark : c = byte '#'
      · simp [expect, mark, dotted, hashOf, inSearch, every, atEnd]
      · simp [expect, mark, atEnd]

theorem hashOf_dropWhile (s : Bytes) : hashOf (s.dropWhile inSearch) = hashOf s := by
  rw [hashOf, List.dropWhile_idempotent, hashOf]

theorem update_empty {n : Nat} (empty : groups n = []) : Function.update groups n [] = groups := by
  rw [← empty, Function.update_eq_self]

theorem run_hash (eighth : groups 8 = []) (stops : Stops inSearch s) :
    run (hashPattern anyByte) s groups atEnd = some (hashGroups groups s) := by
  rw [hashPattern, run_opt, run_seq, run_literal]
  cases s with
  | nil => simp [expect, atEnd, hashGroups, hashOf, eighth]
  | cons c rest =>
      have mark : c = byte '#' := by
        by_contra other
        simp [inSearch, other] at stops
      simp [expect, mark, run_rest, anyByte, hashGroups, hashOf, inSearch]

theorem run_search (seventh : groups 7 = []) (eighth : groups 8 = [])
    (stops : Stops inPath s) :
    run searchPattern s groups (fun rest groups => run (hashPattern anyByte) rest groups atEnd) =
      some (searchGroups groups s) := by
  rw [searchPattern, run_opt, run_seq, run_literal]
  cases s with
  | nil =>
      have later := run_hash (s := []) eighth stops_nil
      simpa [expect, searchGroups, searchOf, update_empty seventh] using later
  | cons c rest =>
      by_cases mark : c = byte '?'
      · have later : run (hashPattern anyByte) (rest.dropWhile inSearch)
            (Function.update groups 7 (rest.takeWhile inSearch)) atEnd =
              some (searchGroups groups (c :: rest)) := by
          rw [run_hash (by simp [eighth]) (stops_dropWhile inSearch rest), hashGroups,
            hashOf_dropWhile]
          have skipped : hashOf (byte '?' :: rest) = hashOf rest := by
            rw [hashOf, List.dropWhile_cons_of_pos (by decide), hashOf]
          simp [searchGroups, hashGroups, searchOf, mark, skipped]
        simp [expect, mark, run_group_longest, later]
      · have hash : c = byte '#' := by
          by_contra other
          simp [inPath, other, mark] at stops
        have later : Stops inSearch (c :: rest) := by simp [hash, inSearch]
        simp [expect, mark, run_hash eighth later, searchGroups, searchOf, update_empty seventh]

theorem run_path (seventh : groups 7 = []) (eighth : groups 8 = []) :
    run pathPattern s groups (fun rest groups => run searchPattern rest groups
      fun rest groups => run (hashPattern anyByte) rest groups atEnd) =
        some (pathGroups groups s) := by
  rw [pathPattern, run_group_longest (Nat.zero_le _)]
  · exact run_search (by simp [seventh]) (by simp [eighth]) (stops_dropWhile inPath s)
  · rw [run_search (by simp [seventh]) (by simp [eighth]) (stops_dropWhile inPath s)]
    rfl

theorem run_port (fifth : groups 5 = []) (seventh : groups 7 = []) (eighth : groups 8 = []) :
    run portPattern s groups (fun rest groups => run pathPattern rest groups
      fun rest groups => run searchPattern rest groups
        fun rest groups => run (hashPattern anyByte) rest groups atEnd) =
          some (portGroups groups s) := by
  rw [portPattern, run_opt, run_seq, run_literal, run_path seventh eighth]
  by_cases empty : portOf s = []
  · have untouched : portGroups groups s = pathGroups groups s := by
      simp [portGroups, empty, afterPort, update_empty fifth]
    rw [untouched]
    cases s with
    | nil => simp [expect]
    | cons c rest =>
        by_cases mark : c = byte ':'
        · have none : (rest.takeWhile isDigit).length < 1 := by
            simp only [portOf, mark, beq_self_eq_true, if_true] at empty
            simp [empty]
          simp [expect, mark, run_group_short none]
        · simp [expect, mark]
  · cases s with
    | nil => simp [portOf] at empty
    | cons c rest =>
        simp only [portOf, beq_iff_eq, ite_eq_right_iff, not_forall, exists_prop] at empty
        have enough := List.length_pos_of_ne_nil empty.2
        have later := run_path (s := rest.dropWhile isDigit)
          (by simp [seventh] : Function.update groups 5 (rest.takeWhile isDigit) 7 = [])
          (by simp [eighth])
        have digits := List.isEmpty_eq_false_iff.mpr empty.2
        simp [expect, empty.1, run_group_longest enough, later, portGroups, portOf, afterPort,
          digits]

theorem run_host (fifth : groups 5 = []) (seventh : groups 7 = []) (eighth : groups 8 = []) :
    run hostPattern s groups (fun rest groups => run portPattern rest groups
      fun rest groups => run pathPattern rest groups
        fun rest groups => run searchPattern rest groups
          fun rest groups => run (hashPattern anyByte) rest groups atEnd) =
            hostGroups groups s := by
  rw [hostPattern, hostGroups]
  split_ifs with missing
  · apply run_group_short
    rw [List.isEmpty_iff.mp missing]
    exact Nat.one_pos
  · have enough : 1 ≤ (s.takeWhile inHost).length := by
      simpa [Nat.one_le_iff_ne_zero] using missing
    have later := run_port (s := s.dropWhile inHost)
      (by simp [fifth] : Function.update groups 4 (s.takeWhile inHost) 5 = [])
      (by simp [seventh]) (by simp [eighth])
    rw [run_group_longest enough (by rw [later]; rfl), later]

theorem run_word {β : Type} (index : Nat) {k : Bytes → Groups UInt8 → Option β}
    (only : ∀ c rest groups, isWord c = true → k (c :: rest) groups = none) :
    run (.group index (.many 1 isWord)) s groups k =
      (word s).bind fun found => k found.2 (Function.update groups index found.1) := by
  rw [run_group_only only, word]
  cases taken : s.takeWhile isWord <;> simp

theorem expect_word {mark : Char} (other : isWord (byte mark) = false) {c : UInt8} (rest : Bytes)
    (accepted : isWord c = true) : expect mark (c :: rest) = none := by
  have different : c ≠ byte mark := by
    rintro rfl
    rw [other] at accepted
    cases accepted
  simp [expect, different]

theorem run_password {β : Type} (third : groups 3 = []) (k : Bytes → Groups UInt8 → Option β) :
    run (.seq (.opt (.seq (literal ':') (.group 3 (.many 1 isWord)))) (literal '@')) s groups k =
      (password s).bind fun found => k found.2 (Function.update groups 3 found.1) := by
  have named (rest : Bytes) :
      run (.group 3 (.many 1 isWord)) rest groups (fun rest groups =>
        run (literal '@') rest groups k) =
          (word rest).bind fun found => (expect '@' found.2).bind fun rest =>
            k rest (Function.update groups 3 found.1) := by
    rw [run_word]
    · simp only [run_literal]
    · intro c rest groups accepted
      rw [run_literal, expect_word rfl rest accepted]
      rfl
  rw [run_seq, run_opt, run_seq, run_literal, run_literal]
  simp only [named, password]
  cases s with
  | nil => simp [expect]
  | cons c rest =>
      by_cases colon : c = byte ':'
      · have here : expect ':' (c :: rest) = some rest := by simp [expect, colon]
        have refused : expect '@' (c :: rest) = none := by simp [expect, colon, byte]
        simp only [here, refused, Option.bind_some, Option.bind_none, Option.or_none,
          Option.map_none, Option.bind_assoc, Option.bind_map, Function.comp_def]
      · have refused : expect ':' (c :: rest) = none := by simp [expect, colon]
        cases expect '@' (c :: rest) <;> simp [refused, update_empty third]

theorem run_userinfo {β : Type} (third : groups 3 = []) (k : Bytes → Groups UInt8 → Option β) :
    run userinfoPattern s groups k =
      ((userinfo s).bind fun info => k info.2.2
        (Function.update (Function.update groups 2 info.1) 3 info.2.1)).or (k s groups) := by
  have named : run (.group 2 (.many 1 isWord)) s groups (fun rest groups =>
      run (.seq (.opt (.seq (literal ':') (.group 3 (.many 1 isWord)))) (literal '@')) rest
        groups k) =
          (word s).bind fun user => (password user.2).bind fun found =>
            k found.2 (Function.update (Function.update groups 2 user.1) 3 found.1) := by
    rw [run_word]
    · congr 1
      funext user
      exact run_password (by simp [third]) k
    · intro c rest groups accepted
      simp [run_literal, expect_word (rfl : isWord (byte ':') = false) rest accepted,
        expect_word (rfl : isWord (byte '@') = false) rest accepted]
  rw [userinfoPattern, run_opt, run_seq, named]
  simp only [userinfo, Option.bind_assoc, Option.bind_map, Function.comp_def]

theorem run_scheme {β : Type} (k : Bytes → Groups UInt8 → Option β) :
    run schemePattern s groups k =
      ((word s).bind fun found => (expect ':' found.2).bind fun rest =>
        k rest (Function.update groups 1 found.1)).or (k s groups) := by
  rw [schemePattern, run_opt, run_seq, run_word]
  · simp only [run_literal]
  · intro c rest groups accepted
    rw [run_literal, expect_word rfl rest accepted]
    rfl

def authorityGroups (groups : Groups UInt8) (s : Bytes) : Option (Groups UInt8) :=
  ((userinfo s).bind fun info => hostGroups
    (Function.update (Function.update groups 2 info.1) 3 info.2.1) info.2.2).or
      (hostGroups groups s)

theorem run_slashes {β : Type} (k : Bytes → Groups UInt8 → Option β) :
    run (literal '/') s groups (fun rest groups => run (literal '/') rest groups k) =
      (slashes s).bind fun rest => k rest groups := by
  simp only [run_literal, slashes, Option.bind_assoc]

end Groups

section Match

variable {s : Bytes}

theorem run_authority {groups : Groups UInt8} (third : groups 3 = []) (fifth : groups 5 = [])
    (seventh : groups 7 = []) (eighth : groups 8 = []) :
    run userinfoPattern s groups (fun rest groups => run hostPattern rest groups
      fun rest groups => run portPattern rest groups
        fun rest groups => run pathPattern rest groups
          fun rest groups => run searchPattern rest groups
            fun rest groups => run (hashPattern anyByte) rest groups atEnd) =
              authorityGroups groups s := by
  rw [run_userinfo third, run_host fifth seventh eighth, authorityGroups]
  congr 2
  funext info
  exact run_host (by simp [fifth]) (by simp [seventh]) (by simp [eighth])

theorem slashes_word {scheme rest : Bytes} (found : word s = some (scheme, rest)) :
    slashes s = none := by
  cases s with
  | nil => rfl
  | cons c tail =>
      have accepted : isWord c = true := by
        by_contra refused
        simp [word, refused] at found
      rw [slashes, expect_word rfl tail accepted]
      rfl

theorem fullMatch_eq (s : Bytes) :
    fullMatch (urlPattern anyByte) s =
      match word s with
      | some (scheme, rest) => ((expect ':' rest).bind slashes).bind
          (authorityGroups (Function.update (fun _ => []) 1 scheme))
      | none => (slashes s).bind (authorityGroups fun _ => []) := by
  have unfolded : fullMatch (urlPattern anyByte) s =
      run (urlPattern anyByte) s (fun _ => []) atEnd := rfl
  rw [unfolded]
  simp only [urlPattern, frontPattern, run_seq, run_scheme, run_slashes]
  cases found : word s with
  | none =>
      simp only [Option.bind_none, Option.none_or]
      congr 1
      funext rest
      exact run_authority rfl rfl rfl rfl
  | some pair =>
      rw [slashes_word found]
      simp only [Option.bind_some, Option.bind_none, Option.or_none, Option.bind_assoc]
      congr 1
      funext rest
      congr 1
      funext rest
      exact run_authority (by simp) (by simp) (by simp) (by simp)

theorem hostGroups_components (groups : Groups UInt8) (rest : Bytes) :
    (hostGroups groups rest).map componentsOf =
      fromHost (groups 1 ++ text ":") (groups 2) (groups 3) rest := by
  simp only [hostGroups, fromHost]
  split_ifs with missing
  · rfl
  · simp [componentsOf, portGroups, pathGroups, searchGroups, hashGroups]

theorem authorityGroups_components (scheme rest : Bytes) :
    (authorityGroups (Function.update (fun _ => []) 1 scheme) rest).map componentsOf =
      authority (scheme ++ text ":") rest := by
  simp only [authorityGroups, authority, Option.map_or, Option.map_bind, Function.comp_def,
    hostGroups_components]
  simp

theorem matchUrl_any (s : Bytes) : matchUrl anyByte s = parseUrl s := by
  rw [matchUrl, fullMatch_eq, parseUrl]
  have bare (rest : Bytes) : (authorityGroups (fun _ => []) rest).map componentsOf =
      authority (text ":") rest := by
    have named := authorityGroups_components [] rest
    rwa [update_empty rfl] at named
  cases word s with
  | none => simp only [Option.map_bind, Function.comp_def, bare]
  | some pair => simp only [Option.map_bind, Function.comp_def, authorityGroups_components]

theorem dotted_cons {dot : UInt8 → Bool} {c : UInt8} (other : c ≠ byte '#') (rest : Bytes) :
    dotted dot (c :: rest) = dotted dot rest := by
  rw [dotted, hashOf, List.dropWhile_cons_of_pos (by simpa [inSearch] using other)]
  rfl

theorem front_keeps (dot : UInt8 → Bool) : frontPattern.Keeps (dotted dot) := by
  have keeps {accepts : UInt8 → Bool} (refused : accepts (byte '#') = false) :
      ∀ c rest, accepts c = true → dotted dot (c :: rest) = dotted dot rest := by
    intro c rest accepted
    apply dotted_cons
    rintro rfl
    rw [refused] at accepted
    cases accepted
  refine ⟨⟨keeps rfl, keeps rfl⟩, keeps rfl, keeps rfl,
    ⟨keeps rfl, ⟨keeps rfl, keeps rfl⟩, keeps rfl⟩,
    keeps rfl, ⟨keeps rfl, keeps rfl⟩, keeps rfl, keeps rfl, keeps rfl⟩

theorem matchUrl_eq (dot : UInt8 → Bool) (s : Bytes) :
    matchUrl dot s = if dotted dot s then parseUrl s else none := by
  have guarded : run frontPattern s (fun _ => []) (fun rest groups => if dotted dot rest then
      run (hashPattern anyByte) rest groups atEnd else none) =
        if dotted dot s then run (urlPattern anyByte) s (fun _ => []) atEnd else none :=
    run_guard frontPattern (front_keeps dot)
  have unfolded : fullMatch (urlPattern dot) s = run frontPattern s (fun _ => []) (fun rest groups =>
      run (hashPattern dot) rest groups atEnd) := rfl
  simp only [run_hash_dot dot] at unfolded
  rw [matchUrl, unfolded, guarded, ← matchUrl_any]
  split_ifs <;> rfl

end Match

end BreezeJs.Infra
