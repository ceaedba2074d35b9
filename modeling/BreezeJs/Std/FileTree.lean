import Mathlib.Data.List.Induction
import BreezeJs.Std.QueryCodec

set_option autoImplicit false

namespace BreezeJs.FileTree

-- A link holds a path, which the operating system follows whenever it meets the link. Paths are
-- taken to be shorter than the system's limit.

open Infra

abbrev Name := Bytes

inductive Component where
  | parent
  | name (name : Name)
deriving DecidableEq, Repr

abbrev Path := List Component

mutual

inductive Node where
  | file
  | dir (entries : Entries)
  | link (absolute : Bool) (target : Path)

inductive Entries where
  | nil
  | cons (name : Name) (node : Node) (rest : Entries)

end

@[induction_eliminator]
theorem Entries.induction {motive : Entries → Prop} (nil : motive .nil)
    (cons : ∀ name node rest, (∀ entries, node = .dir entries → motive entries) → motive rest →
      motive (.cons name node rest)) (entries : Entries) : motive entries :=
  @Entries.rec (fun node => ∀ entries, node = .dir entries → motive entries) motive
    (fun _ same => nomatch same)
    (fun _ below _ same => by cases same; exact below)
    (fun _ _ _ same => nomatch same) nil cons entries

def Node.isLink : Node → Bool
  | .link _ _ => true
  | _ => false

def Node.isDir : Node → Bool
  | .dir _ => true
  | _ => false

def Entries.lookup : Entries → Name → Option Node
  | .nil, _ => none
  | .cons name node rest, wanted => if name = wanted then some node else rest.lookup wanted

def Entries.names : Entries → List Name
  | .nil => []
  | .cons name _ rest => name :: rest.names

mutual

def Node.Distinct : Node → Prop
  | .dir entries => entries.Distinct
  | _ => True

-- No directory holds two entries of one name.
def Entries.Distinct : Entries → Prop
  | .nil => True
  | .cons name node rest => name ∉ rest.names ∧ node.Distinct ∧ rest.Distinct

end

structure FileSystem where
  root : Entries
  distinct : root.Distinct
  -- How many links the operating system follows in one path.
  linkLimit : Nat

def Node.child : Node → Name → Option Node
  | .dir entries, name => entries.lookup name
  | _, _ => none

def FileSystem.find (fs : FileSystem) (place : List Name) : Option Node :=
  place.foldl (fun node name => node.bind fun node => node.child name) (some (.dir fs.root))

inductive Found where
  | reached (place : List Name) (left : Nat)
  | missing
  | tooManyLinks
deriving DecidableEq, Repr

def FileSystem.walk (fs : FileSystem) (left : Nat) (follow : List Name → Path → Found) :
    List Name → Path → Found
  | place, [] => .reached place left
  | place, .parent :: rest =>
      match fs.find place with
      | some (.dir _) => fs.walk left follow place.dropLast rest
      | _ => .missing
  | place, .name name :: rest =>
      match fs.find (place ++ [name]) with
      | none => .missing
      | some (.link absolute target) => follow (if absolute then [] else place) (target ++ rest)
      | some _ => fs.walk left follow (place ++ [name]) rest

def FileSystem.resolve (fs : FileSystem) : Nat → List Name → Path → Found
  | 0, place, path => fs.walk 0 (fun _ _ => .tooManyLinks) place path
  | left + 1, place, path => fs.walk (left + 1) (fs.resolve left) place path

inductive Errno where
  | noEntry
  | notDirectory
  | loop
deriving DecidableEq, Repr

-- A missing file is a status of its own, other errors are thrown.
def FileSystem.status (fs : FileSystem) (path : Path) : Except Errno (Option Node) :=
  match fs.resolve fs.linkLimit [] path with
  | .reached place _ => .ok (fs.find place)
  | .missing => .ok none
  | .tooManyLinks => .error .loop

def FileSystem.isDirectory (fs : FileSystem) (path : Path) : Except Errno Bool :=
  (fs.status path).map fun node => node.any Node.isDir

def Entries.Has : Entries → Name → Node → Prop
  | .nil, _, _ => False
  | .cons name node rest, wanted, found => (name = wanted ∧ node = found) ∨ rest.Has wanted found

theorem Entries.mem_names {entries : Entries} {name : Name} {node : Node}
    (has : entries.Has name node) : name ∈ entries.names := by
  induction entries with
  | nil => exact has.elim
  | cons first head rest _ ih =>
      rcases has with ⟨rfl, _⟩ | later
      · exact List.mem_cons_self
      · exact List.mem_cons_of_mem _ (ih later)

theorem Entries.lookup_of_has {entries : Entries} (distinct : entries.Distinct) {name : Name}
    {node : Node} (has : entries.Has name node) : entries.lookup name = some node := by
  induction entries with
  | nil => exact has.elim
  | cons first head rest _ ih =>
      obtain ⟨fresh, _, others⟩ := distinct
      rcases has with ⟨rfl, rfl⟩ | later
      · simp [Entries.lookup]
      · have apart : first ≠ name := by
          rintro rfl
          exact fresh (Entries.mem_names later)
        simpa [Entries.lookup, apart] using ih others later

theorem Entries.distinct_lookup {entries : Entries} (distinct : entries.Distinct) {name : Name}
    {node : Node} (found : entries.lookup name = some node) : node.Distinct := by
  induction entries with
  | nil => cases found
  | cons first head rest _ ih =>
      obtain ⟨_, here, others⟩ := distinct
      simp only [Entries.lookup] at found
      split_ifs at found with same
      · cases found
        exact here
      · exact ih others found

section Places

variable {fs : FileSystem} {place : List Name} {node : Node} {name : Name}

theorem find_append (fs : FileSystem) (place : List Name) (name : Name) :
    fs.find (place ++ [name]) = (fs.find place).bind fun node => node.child name := by
  simp [FileSystem.find, List.foldl_append]

theorem distinct_find (found : fs.find place = some node) : node.Distinct := by
  induction place using List.reverseRecOn generalizing node with
  | nil =>
      cases found
      exact fs.distinct
  | append_singleton place name ih =>
      rw [find_append] at found
      obtain ⟨above, here, inside⟩ := Option.bind_eq_some_iff.mp found
      cases above with
      | dir entries => exact Entries.distinct_lookup (ih here) inside
      | file | link _ _ => cases inside

end Places

def Found.andThen : Found → (List Name → Nat → Found) → Found
  | .reached place left, next => next place left
  | .missing, _ => .missing
  | .tooManyLinks, _ => .tooManyLinks

section Paths

variable {fs : FileSystem} {left : Nat} {rest : Path}

theorem walk_append {follow : List Name → Path → Found}
    (stays : ∀ place, fs.walk left follow place rest = fs.resolve left place rest)
    (follows : ∀ place path, follow place (path ++ rest) =
      (follow place path).andThen fun place left => fs.resolve left place rest)
    (place : List Name) (path : Path) :
    fs.walk left follow place (path ++ rest) =
      (fs.walk left follow place path).andThen fun place left => fs.resolve left place rest := by
  induction path generalizing place with
  | nil => exact stays place
  | cons component path ih =>
      cases component with
      | parent =>
          simp only [List.cons_append, FileSystem.walk]
          split
          · exact ih place.dropLast
          · rfl
      | name name =>
          simp only [List.cons_append, FileSystem.walk]
          split
          · rfl
          · rw [← List.append_assoc]
            exact follows _ _
          · exact ih (place ++ [name])

theorem resolve_append (fs : FileSystem) (left : Nat) (place : List Name) (path rest : Path) :
    fs.resolve left place (path ++ rest) =
      (fs.resolve left place path).andThen fun place left => fs.resolve left place rest := by
  induction left generalizing place path with
  | zero => exact walk_append (fun _ => rfl) (fun _ _ => rfl) place path
  | succ left ih => exact walk_append (fun _ => rfl) ih place path

theorem resolve_entry {path : Path} {place : List Name} {name : Name} {node : Node}
    (here : fs.resolve fs.linkLimit [] path = .reached place left)
    (found : fs.find (place ++ [name]) = some node) (real : node.isLink = false) :
    fs.resolve fs.linkLimit [] (path ++ [.name name]) = .reached (place ++ [name]) left := by
  rw [resolve_append, here, Found.andThen]
  have reached (follow : List Name → Path → Found) :
      fs.walk left follow place [.name name] = .reached (place ++ [name]) left := by
    cases node with
    | link absolute target => cases real
    | file | dir entries => simp [FileSystem.walk, found]
  cases left <;> exact reached _

end Paths

end BreezeJs.FileTree
