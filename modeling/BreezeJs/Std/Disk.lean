import Mathlib.Data.List.DropRight
import BreezeJs.Library.UpToError
import BreezeJs.Std.QueryCodec

set_option autoImplicit false

namespace BreezeJs.Filesystem

-- Paths are taken to be shorter than the system's limit.

open Infra UpToError

def slash : UInt8 := byte '/'

def isAbsolute (path : Bytes) : Bool :=
  path.head? == some slash

inductive Component where
  | dot
  | parent
  | name (name : Bytes)
deriving DecidableEq, Repr

def component (piece : Bytes) : Component :=
  if piece = text "." then .dot else if piece = text ".." then .parent else .name piece

-- A slash at the end asks for a directory.
def components (path : Bytes) : List Component :=
  let pieces := path.splitOn slash
  (pieces.filter (· ≠ [])).map component ++ if pieces.getLast? = some [] then [.dot] else []

structure Directory where
  entries : List (Bytes × Nat)
  parent : Nat
  searchable : Bool
  writable : Bool
deriving DecidableEq, Repr

inductive Node where
  | file (content : Bytes) (writable : Bool)
  | dir (directory : Directory)
  | link (target : Bytes)
deriving DecidableEq, Repr

structure Disk where
  nodes : List Node
  root : Nat
  workingDirectory : Nat
  linkLimit : Nat
deriving DecidableEq, Repr

inductive Errno where
  | noEntry
  | notDirectory
  | access
  | loop
  | exist
  | invalidArgument
deriving DecidableEq, Repr

inductive Found where
  | node (i : Nat)
  | vacant (directory : Nat) (name : Bytes)
  | failed (errno : Errno)
deriving DecidableEq, Repr

def Disk.directory (disk : Disk) (i : Nat) : Option Directory :=
  match disk.nodes[i]? with
  | some (.dir directory) => some directory
  | _ => none

def Disk.link (disk : Disk) (i : Nat) : Option Bytes :=
  match disk.nodes[i]? with
  | some (.link target) => some target
  | _ => none

def Disk.start (disk : Disk) (here : Nat) (path : Bytes) : Nat :=
  if isAbsolute path then disk.root else here

def Disk.walk (disk : Disk) (last : Bool) (follow : Nat → List Component → Found) :
    Nat → List Component → Found
  | here, [] => .node here
  | here, piece :: rest =>
      match disk.directory here with
      | none => .failed .notDirectory
      | some directory =>
          if directory.searchable then
            match piece with
            | .dot => disk.walk last follow here rest
            | .parent => disk.walk last follow directory.parent rest
            | .name name =>
                match directory.entries.lookup name with
                | none => if rest = [] then .vacant here name else .failed .noEntry
                | some i =>
                    match disk.link i with
                    | none => disk.walk last follow i rest
                    | some target =>
                        if rest = [] ∧ last = false then .node i
                        else if target = [] then .failed .noEntry
                        else follow (disk.start here target) (components target ++ rest)
          else .failed .access

def Disk.follow (disk : Disk) (last : Bool) : Nat → Nat → List Component → Found
  | 0 => disk.walk last fun _ _ => .failed .loop
  | left + 1 => disk.walk last (disk.follow last left)

def Disk.resolvePieces (disk : Disk) (last : Bool) (path : Bytes) (pieces : List Component) :
    Found :=
  disk.follow last disk.linkLimit (disk.start disk.workingDirectory path) pieces

def Disk.resolve (disk : Disk) (last : Bool) (path : Bytes) : Found :=
  if cString path = [] then .failed .noEntry
  else disk.resolvePieces last path (components (cString path))

theorem Disk.directory_some {disk : Disk} {i : Nat} {directory : Directory}
    (here : disk.directory i = some directory) : disk.nodes[i]? = some (.dir directory) := by
  rw [Disk.directory] at here
  split at here
  · next found => rw [found, Option.some.inj here]
  · cases here

inductive Fault where
  | filesystem (errno : Errno)
  | runtime (message : Bytes)
deriving DecidableEq, Repr

abbrev System := EStateM Fault Disk

-- A path that leads nowhere does not exist; other errors are thrown.
def foundExists : Found → Except Errno Bool
  | .node _ => .ok true
  | .vacant _ _ | .failed .noEntry | .failed .notDirectory => .ok false
  | .failed errno => .error errno

def fileExists (path : Bytes) : System Bool := fun disk =>
  match foundExists (disk.resolve true path) with
  | .ok there => .ok there disk
  | .error errno => .error (.filesystem errno) disk

def Disk.setContent (disk : Disk) (i : Nat) (content : Bytes) (writable : Bool) : Disk :=
  { disk with nodes := disk.nodes.set i (.file content writable) }

def Disk.add (disk : Disk) (i : Nat) (directory : Directory) (name : Bytes) (node : Node) : Disk :=
  let entries := (name, disk.nodes.length) :: directory.entries
  { disk with nodes := disk.nodes.set i (.dir { directory with entries := entries }) ++ [node] }

def mkdir (found : Found) : System Unit := fun disk =>
  match found with
  | .vacant i name =>
      match disk.directory i with
      | some directory =>
          if directory.writable then
            .ok () (disk.add i directory name (.dir ⟨[], i, true, true⟩))
          else .error (.filesystem .access) disk
      | none => .error (.filesystem .notDirectory) disk
  | .node _ => .error (.filesystem .exist) disk
  | .failed errno => .error (.filesystem errno) disk

def createDirectory (path : Bytes) (pieces : List Component) : System Unit := fun disk =>
  let found := disk.resolvePieces true path pieces
  match foundExists found with
  | .error errno => .error (.filesystem errno) disk
  | .ok false => mkdir (disk.resolvePieces false path pieces) disk
  | .ok true =>
      match found with
      | .node i =>
          if (disk.directory i).isSome then .ok () disk
          else .error (.filesystem .notDirectory) disk
      | _ => .error (.filesystem .notDirectory) disk

def createEach (path : Bytes) : List Component → List Component → System Unit
  | _, [] => pure ()
  | before, piece :: rest => do
      createDirectory path (before ++ [piece])
      createEach path (before ++ [piece]) rest

def createDirectories (path : Bytes) : System Unit :=
  if cString path = [] then throw (.filesystem .invalidArgument)
  else createEach path [] (components (cString path))

-- The file that is open, or none. `opening` gives what the file then holds.
def openFile (path : Bytes) (opening : Bytes → Option Bytes) : System (Option Nat) := fun disk =>
  match disk.resolve true path with
  | .node i =>
      match disk.nodes[i]? with
      | some (.file content true) =>
          match opening content with
          | some content => .ok (some i) (disk.setContent i content true)
          | none => .ok none disk
      | _ => .ok none disk
  | .vacant i name =>
      match disk.directory i with
      | some directory =>
          match opening [] with
          | some content =>
              if directory.writable then
                .ok (some disk.nodes.length) (disk.add i directory name (.file content true))
              else .ok none disk
          | none => .ok none disk
      | none => .ok none disk
  | .failed _ => .ok none disk

-- `std::filesystem::path::parent_path`.
def parentPath (path : Bytes) : Bytes :=
  let directory := path.rdropWhile (· != slash)
  let base := directory.rdropWhile (· == slash)
  if base = [] then directory else base

def dotSlash (path : Bytes) : Bytes :=
  text "./" ++ path

theorem dotSlash_eq (path : Bytes) : dotSlash path = byte '.' :: slash :: path := rfl

theorem dotSlash_ne_nil (path : Bytes) : dotSlash path ≠ [] :=
  List.cons_ne_nil _ _

theorem cString_dotSlash (path : Bytes) : cString (dotSlash path) = dotSlash (cString path) := rfl

theorem components_dotSlash (path : Bytes) :
    components (dotSlash path) = .dot :: components path := by
  have pieces : (dotSlash path).splitOn slash = text "." :: path.splitOn slash := by
    rw [dotSlash_eq, List.splitOn_cons_eq_if_modifyHead, if_neg (by decide),
      List.splitOn_cons_eq_if_modifyHead, if_pos (by decide)]
    rfl
  simp only [components, pieces]
  rw [List.getLast?_cons_of_ne_nil (List.splitOn_ne_nil _ _), List.filter_cons_of_pos (by decide)]
  rfl

theorem components_ne_nil (path : Bytes) : components path ≠ [] := by
  obtain ⟨piece, last⟩ := Option.ne_none_iff_exists'.mp
    (List.getLast?_eq_none_iff.not.mpr (List.splitOn_ne_nil slash path))
  have member := List.mem_of_getLast? last
  simp only [components]
  by_cases empty : piece = []
  · simp [last, empty]
  · have kept : piece ∈ (path.splitOn slash).filter (· ≠ []) := by simp [member, empty]
    intro none
    have first := (List.append_eq_nil_iff.mp none).1
    rw [List.map_eq_nil_iff.mp first] at kept
    cases kept

theorem isAbsolute_dotSlash (path : Bytes) : isAbsolute (dotSlash path) = false := rfl

theorem rdropWhile_dotSlash (p : UInt8 → Bool) (path : Bytes) :
    (dotSlash path).rdropWhile p =
      if path.rdropWhile p = [] then (text "./").rdropWhile p
      else dotSlash (path.rdropWhile p) := by
  simp only [dotSlash, List.rdropWhile, List.reverse_append, List.dropWhile_append,
    List.isEmpty_iff, List.reverse_eq_nil_iff]
  split_ifs with none
  · rfl
  · rw [List.reverse_append, List.reverse_reverse]

theorem directory_eq_nil_iff (path : Bytes) :
    path.rdropWhile (· != slash) = [] ↔ slash ∉ path := by
  rw [List.rdropWhile_eq_nil_iff]
  constructor
  · intro plain slashed
    simpa using plain slash slashed
  · intro bare c member
    rw [bne_iff_ne]
    rintro rfl
    exact bare member

theorem base_ne_nil {path : Bytes} (relative : isAbsolute path = false) (slashed : slash ∈ path) :
    (path.rdropWhile (· != slash)).rdropWhile (· == slash) ≠ [] := by
  have front := List.rdropWhile_prefix (· != slash) path
  intro none
  have slashes := List.rdropWhile_eq_nil_iff.mp none
  cases directory : path.rdropWhile (· != slash) with
  | nil => exact (directory_eq_nil_iff path).mp directory slashed
  | cons c rest =>
      rw [directory] at front slashes
      have first := beq_iff_eq.mp (slashes c List.mem_cons_self)
      obtain ⟨later, rfl⟩ := front
      simp [isAbsolute, first] at relative

theorem parentPath_bare {path : Bytes} (bare : slash ∉ path) : parentPath path = [] := by
  have none := (directory_eq_nil_iff path).mpr bare
  simp [parentPath, none]

theorem parentPath_slashed {path : Bytes} (relative : isAbsolute path = false)
    (slashed : slash ∈ path) :
    parentPath path = (path.rdropWhile (· != slash)).rdropWhile (· == slash) :=
  if_neg (base_ne_nil relative slashed)

theorem parentPath_dotSlash {path : Bytes} (relative : isAbsolute path = false) :
    parentPath (dotSlash path) =
      if slash ∈ path then dotSlash (parentPath path) else text "." := by
  have directory := rdropWhile_dotSlash (· != slash) path
  by_cases slashed : slash ∈ path
  · have base := base_ne_nil relative slashed
    have some := (directory_eq_nil_iff path).not.mpr (not_not.mpr slashed)
    rw [if_neg some] at directory
    rw [if_pos slashed, parentPath_slashed relative slashed, parentPath, directory]
    simp only [rdropWhile_dotSlash, if_neg base]
    exact if_neg (List.cons_ne_nil _ _)
  · rw [if_pos ((directory_eq_nil_iff path).mpr slashed)] at directory
    rw [if_neg slashed, parentPath, directory]
    decide

theorem parentPath_front (path : Bytes) : parentPath path <+: path := by
  have directory := List.rdropWhile_prefix (· != slash) path
  rw [parentPath]
  split
  · exact directory
  · exact (List.rdropWhile_prefix _ _).trans directory

theorem isAbsolute_front {front path : Bytes} (leads : front <+: path)
    (relative : isAbsolute path = false) : isAbsolute front = false := by
  cases front with
  | nil => rfl
  | cons c rest =>
      obtain ⟨later, rfl⟩ := leads
      exact relative

theorem cString_front {front path : Bytes} (leads : front <+: path) (some : front ≠ []) :
    cString front = [] ↔ cString path = [] := by
  obtain ⟨c, rest, rfl⟩ := List.exists_cons_of_ne_nil some
  obtain ⟨later, rfl⟩ := leads
  simp only [cString, List.cons_append, List.takeWhile_cons]
  split_ifs <;> simp

section Walks

variable {disk : Disk} {path : Bytes} {last : Bool}

theorem walk_dot (follow : Nat → List Component → Found) (here : Nat) {pieces : List Component}
    (some : pieces ≠ []) :
    disk.walk last follow here (.dot :: pieces) = disk.walk last follow here pieces := by
  obtain ⟨piece, rest, rfl⟩ := List.exists_cons_of_ne_nil some
  rw [Disk.walk]
  cases found : disk.directory here with
  | none => rw [Disk.walk, found]
  | some directory =>
      cases searchable : directory.searchable with
      | true => simp [searchable]
      | false => simp [Disk.walk, found, searchable]

theorem follow_eq (disk : Disk) (last : Bool) :
    ∃ follow, disk.follow last disk.linkLimit = disk.walk last follow := by
  cases disk.linkLimit with
  | zero => exact ⟨_, rfl⟩
  | succ left => exact ⟨_, rfl⟩

theorem resolvePieces_dot (relative : isAbsolute path = false) {pieces : List Component}
    (some : pieces ≠ []) :
    disk.resolvePieces last (dotSlash path) (.dot :: pieces) =
      disk.resolvePieces last path pieces := by
  obtain ⟨follow, known⟩ := follow_eq disk last
  simp only [Disk.resolvePieces, Disk.start, isAbsolute_dotSlash, relative, known]
  exact walk_dot follow _ some

theorem resolve_dotSlash (relative : isAbsolute path = false) (given : cString path ≠ []) :
    disk.resolve last (dotSlash path) = disk.resolve last path := by
  rw [Disk.resolve, Disk.resolve, if_neg given, cString_dotSlash, if_neg (dotSlash_ne_nil _),
    components_dotSlash]
  exact resolvePieces_dot relative (components_ne_nil _)

def Closed (disk : Disk) : Prop :=
  ∃ errno, ∀ last path pieces, isAbsolute path = false → pieces ≠ [] →
    disk.resolvePieces last path pieces = .failed errno

theorem open_or_closed (disk : Disk) :
    (∃ i directory, disk.directory i = some directory ∧
      ∀ last path, isAbsolute path = false → disk.resolvePieces last path [.dot] = .node i) ∨
      Closed disk := by
  cases found : disk.directory disk.workingDirectory with
  | none =>
      refine .inr ⟨.notDirectory, ?_⟩
      intro last path pieces relative some
      obtain ⟨piece, rest, rfl⟩ := List.exists_cons_of_ne_nil some
      obtain ⟨follow, known⟩ := follow_eq disk last
      simp [Disk.resolvePieces, Disk.start, relative, known, Disk.walk, found]
  | some directory =>
      cases searchable : directory.searchable with
      | true =>
          refine .inl ⟨disk.workingDirectory, directory, found, ?_⟩
          intro last path relative
          obtain ⟨follow, known⟩ := follow_eq disk last
          simp [Disk.resolvePieces, Disk.start, relative, known, Disk.walk, found, searchable]
      | false =>
          refine .inr ⟨.access, ?_⟩
          intro last path pieces relative some
          obtain ⟨piece, rest, rfl⟩ := List.exists_cons_of_ne_nil some
          obtain ⟨follow, known⟩ := follow_eq disk last
          simp [Disk.resolvePieces, Disk.start, relative, known, Disk.walk, found, searchable]

end Walks

section Directories

variable {disk : Disk} {path : Bytes} {pieces : List Component}

theorem createDirectory_dot (relative : isAbsolute path = false) (some : pieces ≠ []) :
    createDirectory (dotSlash path) (.dot :: pieces) = createDirectory path pieces := by
  funext disk
  simp only [createDirectory, resolvePieces_dot relative some]

theorem createDirectory_open {i : Nat} {directory : Directory}
    (here : disk.directory i = some directory)
    (reached : disk.resolvePieces true path [.dot] = .node i) :
    createDirectory path [.dot] disk = .ok () disk := by
  simp [createDirectory, reached, foundExists, here]

theorem createDirectory_closed (closed : Closed disk) (relative : isAbsolute path = false)
    (some : pieces ≠ []) : ∃ e, createDirectory path pieces disk = .error e disk := by
  obtain ⟨errno, failed⟩ := closed
  simp only [createDirectory, failed _ path pieces relative some]
  cases errno <;> exact ⟨_, rfl⟩

theorem createEach_dot (relative : isAbsolute path = false) (before : List Component) :
    createEach (dotSlash path) (.dot :: before) pieces = createEach path before pieces := by
  induction pieces generalizing before with
  | nil => rfl
  | cons piece rest ih =>
      have some : before ++ [piece] ≠ [] := by simp
      have step := createDirectory_dot relative some
      rw [createEach, createEach, List.cons_append, step, ih]

theorem createDirectories_closed (closed : Closed disk) (relative : isAbsolute path = false) :
    ∃ e, createDirectories path disk = .error e disk := by
  rw [createDirectories]
  split_ifs with none
  · exact ⟨_, rfl⟩
  · obtain ⟨piece, rest, pieces⟩ := List.exists_cons_of_ne_nil (components_ne_nil (cString path))
    obtain ⟨e, fails⟩ := createDirectory_closed closed relative (List.cons_ne_nil piece [])
    rw [pieces, createEach]
    exact ⟨e, bind_of_error fails⟩

theorem createDirectories_dotSlash (relative : isAbsolute path = false)
    (given : cString path ≠ []) (disk : Disk) :
    Alike (createDirectories path disk) (createDirectories (dotSlash path) disk) := by
  rcases open_or_closed disk with ⟨i, directory, here, reached⟩ | closed
  · have first := createDirectory_open here (reached true (dotSlash path) rfl)
    have same : createDirectories (dotSlash path) disk = createDirectories path disk := by
      rw [createDirectories, createDirectories, if_neg given, cString_dotSlash,
        if_neg (dotSlash_ne_nil _), components_dotSlash, createEach, List.nil_append,
        bind_of_ok first, createEach_dot relative]
    rw [same]
    exact .refl _
  · obtain ⟨e, fails⟩ := createDirectories_closed closed relative
    obtain ⟨e', fails'⟩ := createDirectories_closed closed (isAbsolute_dotSlash path)
    rw [fails, fails']
    exact .error e e' disk

end Directories

end BreezeJs.Filesystem
