import BreezeJs.Library.Transition
import BreezeJs.Std.UrlPattern

set_option autoImplicit false

namespace BreezeJs.UrlStore

-- No object is ever destroyed.

open Transition Infra

structure Url extends Components where
  href : Bytes
  searchParams : Option Nat
deriving DecidableEq, Repr

structure Params where
  list : PairList
  urlObject : Option Nat
deriving DecidableEq, Repr

structure Store where
  urls : List Url
  params : List Params
  -- Every object that `get_searchParams` returned, after the URL it was asked of.
  handles : List (Nat × Nat)
deriving DecidableEq, Repr

def Url.blank : Url where
  protocol := []
  username := []
  password := []
  host := []
  port := []
  pathname := []
  search := []
  hash := []
  href := []
  searchParams := none

def Url.refresh (url : Url) : Url :=
  { url with href := url.serializeUrl }

def Url.isLocal (url : Url) : Bool :=
  url.protocol == text "file:" || url.protocol == text "data:" || url.protocol == text "about:"

def Url.hasOpaquePath (url : Url) : Bool :=
  url.pathname.contains (byte ':') && url.protocol != text "http:" && url.protocol != text "https:"

def dropMark (mark : Char) (input : Bytes) : Bytes :=
  match input with
  | [] => []
  | c :: rest => if c == byte mark then rest else c :: rest

-- `residue` is what `back` reads in front of an empty string.
def Url.setProtocol (residue : UInt8) (newProtocol : Bytes) (url : Url) : Url :=
  let value := if newProtocol.getLastD residue == byte ':' then newProtocol
    else newProtocol ++ text ":"
  Url.refresh { url with protocol := value }

def Url.setUsername (newUsername : Bytes) (url : Url) : Url :=
  if url.isLocal then url else Url.refresh { url with username := newUsername }

def Url.setPassword (newPassword : Bytes) (url : Url) : Url :=
  if url.isLocal then url else Url.refresh { url with password := newPassword }

def Url.setHost (newHost : Bytes) (url : Url) : Url :=
  if url.hasOpaquePath then url
  else if newHost.contains (byte ':') then
    Url.refresh { url with
      host := newHost.takeWhile (· != byte ':')
      port := (newHost.dropWhile (· != byte ':')).drop 1 }
  else Url.refresh { url with host := newHost }

def Url.setHostname (newHostname : Bytes) (url : Url) : Url :=
  if url.hasOpaquePath then url else Url.refresh { url with host := newHostname }

def Url.setPort (newPort : Bytes) (url : Url) : Url :=
  if url.isLocal then url else Url.refresh { url with port := newPort }

def Url.setPathname (newPathname : Bytes) (url : Url) : Url :=
  if url.hasOpaquePath then url else Url.refresh { url with pathname := newPathname }

def Url.setHash (newHash : Bytes) (url : Url) : Url :=
  Url.refresh { url with hash := dropMark '#' newHash }

inductive Setter where
  | protocol (residue : UInt8)
  | username
  | password
  | host
  | hostname
  | port
  | pathname
  | hash
deriving DecidableEq, Repr

def Setter.assign : Setter → Bytes → Url → Url
  | .protocol residue => Url.setProtocol residue
  | .username => Url.setUsername
  | .password => Url.setPassword
  | .host => Url.setHost
  | .hostname => Url.setHostname
  | .port => Url.setPort
  | .pathname => Url.setPathname
  | .hash => Url.setHash

def appendPair (name value : Bytes) (list : PairList) : PairList :=
  list ++ [(name, value)]

def removePairs (name value : Bytes) (list : PairList) : PairList :=
  list.filter fun pair =>
    !if value.isEmpty then pair.1 == name else pair.1 == name && pair.2 == value

-- What `std::sort` may leave: it need not keep the order of equal names.
def sortsTo (list outcome : PairList) : Bool :=
  list.isPerm outcome && decide (outcome.Pairwise fun first second => first.1 ≤ second.1)

inductive Mutation where
  | append (name value : Bytes)
  | remove (name value : Bytes)
  | set (name value : Bytes)
  | sort (outcome : PairList)
deriving DecidableEq, Repr

inductive Outcome where
  | done (s : Store)
  | thrown (s : Store) (message : String)
  | undefined
deriving DecidableEq, Repr

namespace Store

def updateUrl (s : Store) (u : Nat) (f : Url → Url) : Store :=
  { s with urls := s.urls.modify u f }

def updateList (s : Store) (p : Nat) (f : PairList → PairList) : Store :=
  { s with params := s.params.modify p fun params => { params with list := f params.list } }

def currentParams (s : Store) (u : Nat) : Option Nat :=
  s.urls[u]?.bind fun url => url.searchParams

def listOf (s : Store) (p : Nat) : Option PairList :=
  s.params[p]?.map fun params => params.list

def setSearch (s : Store) (u : Nat) (newSearch : Bytes) : Option Store :=
  (s.currentParams u).map fun p =>
    if newSearch.isEmpty then
      (s.updateUrl u fun url => Url.refresh { url with search := [] }).updateList p fun _ => []
    else
      let input := dropMark '?' newSearch
      (s.updateUrl u fun url => Url.refresh { url with search := input }).updateList p
        fun _ => URLSearchParams.parseQueryString input

def updateUrlQuery (s : Store) (p : Nat) : Option Store :=
  s.params[p]?.bind fun params =>
    match params.urlObject with
    | none => some s
    | some u => s.setSearch u (URLSearchParams.toString params.list)

def append (s : Store) (p : Nat) (name value : Bytes) : Option Store :=
  (s.updateList p (appendPair name value)).updateUrlQuery p

def remove (s : Store) (p : Nat) (name value : Bytes) : Option Store :=
  (s.updateList p (removePairs name value)).updateUrlQuery p

def set (s : Store) (p : Nat) (name value : Bytes) : Option Store :=
  (s.remove p name []).bind fun s => s.append p name value

def sort (s : Store) (p : Nat) (outcome : PairList) : Option Store :=
  (s.updateList p fun _ => outcome).updateUrlQuery p

def mutate (s : Store) (p : Nat) : Mutation → Option Store
  | .append name value => s.append p name value
  | .remove name value => s.remove p name value
  | .set name value => s.set p name value
  | .sort outcome => s.sort p outcome

-- `none` is the answer `false`, before which nothing is written.
def basicUrlParser (dot : UInt8 → Bool) (s : Store) (u : Nat) (urlString : Bytes) : Option Store :=
  (matchUrl dot urlString).map fun components =>
    let fresh : Params := {
      list := URLSearchParams.parseQueryString components.search
      urlObject := some u }
    let t := s.updateUrl u fun url =>
      Url.refresh { url with toComponents := components, searchParams := some s.params.length }
    { t with params := t.params ++ [fresh] }

def newUrl (dot : UInt8 → Bool) (s : Store) (urlString : Bytes) : Outcome :=
  let u := s.urls.length
  match basicUrlParser dot { s with urls := s.urls ++ [Url.blank] } u urlString with
  | none => .thrown s "Failed to parse URL"
  | some t => .done t

def setHref (dot : UInt8 → Bool) (s : Store) (u : Nat) (newHref : Bytes) : Outcome :=
  match s.basicUrlParser dot u newHref with
  | none => .thrown s "Invalid URL"
  | some t =>
      match t.urls[u]?, t.currentParams u with
      | some url, some p =>
          let emptied := t.updateList p fun _ => []
          .done (if url.search.isEmpty then emptied
            else emptied.updateList p fun _ => URLSearchParams.parseQueryString url.search)
      | _, _ => .undefined

end Store

inductive Action where
  | newUrl (urlString : Bytes)
  | newBlankUrl
  -- All constructors of `URLSearchParams` together.
  | newParams (list : PairList)
  | getSearchParams (u : Nat)
  | assign (u : Nat) (setter : Setter) (value : Bytes)
  | setSearch (u : Nat) (newSearch : Bytes)
  | setHref (u : Nat) (newHref : Bytes)
  | mutate (p : Nat) (mutation : Mutation)
deriving DecidableEq, Repr

-- The object exists, and a sort ends as `std::sort` may end.
def callable (s : Store) : Action → Bool
  | .newUrl _ | .newBlankUrl | .newParams _ => true
  | .getSearchParams u | .assign u _ _ | .setSearch u _ | .setHref u _ => decide (u < s.urls.length)
  | .mutate p (.sort outcome) => (s.listOf p).any fun list => sortsTo list outcome
  | .mutate p _ => decide (p < s.params.length)

def finished : Option Store → Outcome
  | none => .undefined
  | some s => .done s

def call (dot : UInt8 → Bool) (s : Store) : Action → Outcome
  | .newUrl urlString => s.newUrl dot urlString
  | .newBlankUrl => .done { s with urls := s.urls ++ [Url.blank] }
  | .newParams list => .done { s with params := s.params ++ [{ list := list, urlObject := none }] }
  | .getSearchParams u =>
      .done { s with handles := s.handles ++ ((s.currentParams u).map fun p => (u, p)).toList }
  | .assign u setter value => .done (s.updateUrl u (setter.assign value))
  | .setSearch u newSearch => finished (s.setSearch u newSearch)
  | .setHref u newHref => s.setHref dot u newHref
  | .mutate p mutation => finished (s.mutate p mutation)

def step (dot : UInt8 → Bool) (s : Store) (a : Action) : Option Store :=
  if callable s a then
    match call dot s a with
    | .done t | .thrown t _ => some t
    | .undefined => none
  else none

def initial : Store where
  urls := []
  params := []
  handles := []

def system (dot : UInt8 → Bool) : System Store Action where
  init := fun s => s = initial
  step := step dot

end BreezeJs.UrlStore
