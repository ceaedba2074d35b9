import BreezeJs.Std.FileTree

set_option autoImplicit false

namespace BreezeJs.FileTree

open Infra

structure ReadDirOptions where
  recursive : Bool
  followSymlinks : Bool
deriving DecidableEq, Repr

structure Listing where
  names : List Name
  entered : List (Path × Node)

def Listing.append (first later : Listing) : Listing where
  names := first.names ++ later.names
  entered := first.entered ++ later.entered

structure Failure where
  path : Path
  cause : Errno
deriving DecidableEq, Repr

abbrev Outcome := Option (Except Failure Listing)

def Listing.before (first : Listing) (later : Outcome) : Outcome :=
  later.map fun outcome => outcome.map first.append

def readEntries (options : ReadDirOptions) (fs : FileSystem) (readdir : Path → Outcome)
    (path : Path) : Entries → Outcome
  | .nil => some (.ok ⟨[], []⟩)
  | .cons name node rest =>
      let entry := path ++ [.name name]
      let named : Listing :=
        ⟨if options.followSymlinks || !node.isLink then [name] else [], []⟩
      let later := readEntries options fs readdir path rest
      if options.recursive then
        match fs.isDirectory entry with
        | .error cause => some (.error ⟨path, cause⟩)
        | .ok false => named.before later
        | .ok true =>
            match readdir entry with
            | some (.ok sub) =>
                (named.append ⟨sub.names, (entry, node) :: sub.entered⟩).before later
            | failed => failed
      else named.before later

-- `none` is a call that is not finished after `fuel` levels.
def readdirSync (options : ReadDirOptions) (fs : FileSystem) : Nat → Path → Outcome
  | 0, _ => none
  | fuel + 1, path =>
      match fs.status path with
      | .error cause => some (.error ⟨path, cause⟩)
      | .ok none => some (.error ⟨path, .noEntry⟩)
      | .ok (some (.dir entries)) =>
          readEntries options fs (readdirSync options fs fuel) path entries
      | .ok (some _) => some (.error ⟨path, .notDirectory⟩)

mutual

def Node.contents : Node → List (Name × Node)
  | .dir entries => entries.contents
  | _ => []

def Entries.contents : Entries → List (Name × Node)
  | .nil => []
  | .cons name node rest => (name, node) :: node.contents ++ rest.contents

end

mutual

def Node.links (path : Path) : Node → List Path
  | .dir entries => entries.links path
  | _ => []

def Entries.links (path : Path) : Entries → List Path
  | .nil => []
  | .cons name node rest =>
      (if node.isLink then [path ++ [.name name]] else []) ++
        node.links (path ++ [.name name]) ++ rest.links path

end

def realNames (entries : Entries) : List Name :=
  (entries.contents.filter fun entry => !entry.2.isLink).map Prod.fst

def withoutLinks : ReadDirOptions where
  recursive := true
  followSymlinks := false

def ListsReal (fs : FileSystem) (path : Path) (entries : Entries) : Prop :=
  ∃ fuel listing, readdirSync withoutLinks fs fuel path = some (.ok listing) ∧
    (∀ entry ∈ listing.entered, entry.2.isLink = false) ∧ listing.names = realNames entries

section Listing

variable {fs : FileSystem} {path : Path} {place : List Name} {left : Nat} {all entries : Entries}
  {name : Name} {node : Node}

theorem before_ok {first listing : Listing} {later : Outcome} :
    first.before later = some (.ok listing) ↔
      ∃ sub, later = some (.ok sub) ∧ listing = first.append sub := by
  constructor
  · intro finished
    obtain ⟨outcome, here, same⟩ := Option.map_eq_some_iff.mp finished
    cases outcome with
    | error failure => cases same
    | ok sub =>
        cases same
        exact ⟨sub, here, rfl⟩
  · rintro ⟨sub, rfl, rfl⟩
    rfl

structure Opened (fs : FileSystem) (path : Path) (place : List Name) (left : Nat)
    (entries : Entries) : Prop where
  reached : fs.resolve fs.linkLimit [] path = .reached place left
  dir : fs.find place = some (.dir entries)

theorem Opened.status (opened : Opened fs path place left entries) :
    fs.status path = .ok (some (.dir entries)) := by
  rw [FileSystem.status, opened.reached]
  exact congrArg Except.ok opened.dir

theorem Opened.entry (opened : Opened fs path place left all) (has : all.Has name node)
    (real : node.isLink = false) :
    fs.resolve fs.linkLimit [] (path ++ [.name name]) = .reached (place ++ [name]) left ∧
      fs.find (place ++ [name]) = some node := by
  have found : fs.find (place ++ [name]) = some node := by
    rw [find_append, opened.dir]
    exact Entries.lookup_of_has (distinct_find opened.dir) has
  exact ⟨resolve_entry opened.reached found real, found⟩

theorem Opened.isDirectory (opened : Opened fs path place left all) (has : all.Has name node)
    (real : node.isLink = false) :
    fs.isDirectory (path ++ [.name name]) = .ok node.isDir := by
  obtain ⟨reached, found⟩ := opened.entry has real
  simp [FileSystem.isDirectory, FileSystem.status, reached, found, Except.map]

theorem Opened.below (opened : Opened fs path place left all)
    (has : all.Has name (.dir entries)) :
    Opened fs (path ++ [.name name]) (place ++ [name]) left entries := by
  obtain ⟨reached, found⟩ := opened.entry has rfl
  exact ⟨reached, found⟩

def Part (entries all : Entries) : Prop :=
  ∀ name node, entries.Has name node → all.Has name node

theorem Part.head {rest : Entries} (part : Part (.cons name node rest) all) : all.Has name node :=
  part name node (.inl ⟨rfl, rfl⟩)

theorem Part.tail {rest : Entries} (part : Part (.cons name node rest) all) : Part rest all :=
  fun wanted found has => part wanted found (.inr has)

mutual

def Node.depth : Node → Nat
  | .dir entries => entries.depth + 1
  | _ => 0

def Entries.depth : Entries → Nat
  | .nil => 0
  | .cons _ node rest => max node.depth rest.depth

end

def Listing.Clean (listing : Listing) : Prop :=
  ∀ entry ∈ listing.entered, entry.2.isLink = false

theorem realNames_cons (name : Name) (node : Node) (rest : Entries) :
    realNames (.cons name node rest) = (if !node.isLink then [name] else []) ++
      (node.contents.filter fun entry => !entry.2.isLink).map Prod.fst ++ realNames rest := by
  simp only [realNames, Entries.contents, List.cons_append, List.filter_cons, List.filter_append]
  cases node.isLink <;> simp

theorem readEntries_ok {readdir : Path → Outcome} {rest : Entries} {listing : Listing} :
    readEntries withoutLinks fs readdir path (.cons name node rest) = some (.ok listing) ↔
      let named : Listing := ⟨if !node.isLink then [name] else [], []⟩
      ∃ later, readEntries withoutLinks fs readdir path rest = some (.ok later) ∧
        ((fs.isDirectory (path ++ [.name name]) = .ok false ∧ listing = named.append later) ∨
          ∃ sub, fs.isDirectory (path ++ [.name name]) = .ok true ∧
            readdir (path ++ [.name name]) = some (.ok sub) ∧
            listing = (named.append
              ⟨sub.names, (path ++ [.name name], node) :: sub.entered⟩).append later) := by
  have unfolded : readEntries withoutLinks fs readdir path (.cons name node rest) =
      let named : Listing := ⟨if !node.isLink then [name] else [], []⟩
      let later := readEntries withoutLinks fs readdir path rest
      match fs.isDirectory (path ++ [.name name]) with
      | .error cause => some (.error ⟨path, cause⟩)
      | .ok false => named.before later
      | .ok true =>
          match readdir (path ++ [.name name]) with
          | some (.ok sub) =>
              (named.append ⟨sub.names, (path ++ [.name name], node) :: sub.entered⟩).before later
          | failed => failed := rfl
  rw [unfolded]
  cases fs.isDirectory (path ++ [.name name]) with
  | error cause => simp
  | ok isDir =>
      cases isDir with
      | false => simp [before_ok]
      | true =>
          cases readdir (path ++ [.name name]) with
          | none => simp
          | some outcome =>
              cases outcome with
              | error failure => simp
              | ok sub => simp [before_ok]

theorem Opened.readdirSync (opened : Opened fs path place left entries)
    (options : ReadDirOptions) (fuel : Nat) :
    readdirSync options fs (fuel + 1) path =
      readEntries options fs (FileTree.readdirSync options fs fuel) path entries := by
  rw [FileTree.readdirSync, opened.status]

theorem read_real (opened : Opened fs path place left all) (part : Part entries all)
    (shallow : ∀ link ∈ entries.links path, fs.isDirectory link = .ok false) (fuel : Nat)
    (enough : entries.depth ≤ fuel) :
    ∃ listing, readEntries withoutLinks fs (readdirSync withoutLinks fs fuel) path entries =
      some (.ok listing) ∧ listing.Clean ∧ listing.names = realNames entries := by
  induction entries generalizing path place all fuel with
  | nil => exact ⟨⟨[], []⟩, rfl, by simp [Listing.Clean], rfl⟩
  | cons name node rest inner ih =>
      simp only [Entries.links, List.mem_append] at shallow
      simp only [Entries.depth] at enough
      obtain ⟨later, read, clean, named⟩ := ih opened part.tail
        (fun link member => shallow link (.inr member)) fuel (by omega)
      have stays (checked : fs.isDirectory (path ++ [.name name]) = .ok false)
          (empty : node.contents = []) :
          ∃ listing, readEntries withoutLinks fs (readdirSync withoutLinks fs fuel) path
            (.cons name node rest) = some (.ok listing) ∧ listing.Clean ∧
              listing.names = realNames (.cons name node rest) := by
        refine ⟨(⟨if !node.isLink then [name] else [], []⟩ : Listing).append later, ?_, ?_, ?_⟩
        · exact readEntries_ok.mpr ⟨later, read, .inl ⟨checked, rfl⟩⟩
        · simpa [Listing.Clean, Listing.append] using clean
        · simp [Listing.append, realNames_cons, empty, named]
      cases node with
      | file => exact stays (opened.isDirectory part.head rfl) rfl
      | link absolute target =>
          exact stays (shallow _ (.inl (.inl (List.mem_singleton.mpr rfl)))) rfl
      | dir entries =>
          have checked := opened.isDirectory part.head rfl
          obtain ⟨depth, rfl⟩ : ∃ depth, fuel = depth + 1 :=
            Nat.exists_eq_add_one.mpr (by simp only [Node.depth] at enough; omega)
          have below := opened.below part.head
          obtain ⟨sub, listed, subClean, subNamed⟩ := inner entries rfl below
            (fun _ _ has => has) (fun link member => shallow link (.inl (.inr member)))
            depth (by simp only [Node.depth] at enough; omega)
          rw [← below.readdirSync] at listed
          let inside : Listing :=
            ⟨sub.names, (path ++ [.name name], .dir entries) :: sub.entered⟩
          refine ⟨((⟨[name], []⟩ : Listing).append inside).append later, ?_, ?_, ?_⟩
          · exact readEntries_ok.mpr ⟨later, read, .inr ⟨sub, checked, listed, rfl⟩⟩
          · intro entry member
            simp only [Listing.append, inside, List.nil_append, List.cons_append, List.mem_cons,
              List.mem_append] at member
            rcases member with rfl | member | member
            · rfl
            · exact subClean entry member
            · exact clean entry member
          · rw [realNames_cons, ← named]
            exact congrArg (fun names => [name] ++ names ++ later.names) subNamed

theorem links_of_read (opened : Opened fs path place left all) (part : Part entries all)
    {fuel : Nat} {listing : Listing}
    (read : readEntries withoutLinks fs (readdirSync withoutLinks fs fuel) path entries =
      some (.ok listing)) (clean : listing.Clean) :
    ∀ link ∈ entries.links path, fs.isDirectory link = .ok false := by
  induction entries generalizing path place all fuel listing with
  | nil => simp [Entries.links]
  | cons name node rest inner ih =>
      obtain ⟨later, readLater, known⟩ := readEntries_ok.mp read
      have rest_links := ih opened part.tail readLater
      simp only [Entries.links, List.mem_append]
      rcases known with ⟨checked, rfl⟩ | ⟨sub, checked, listed, rfl⟩
      · rintro link ((here | below) | beside)
        · split_ifs at here
          · rwa [List.mem_singleton.mp here]
          · cases here
        · cases node with
          | dir entries =>
              have real := opened.isDirectory part.head rfl
              rw [checked] at real
              cases real
          | file | link _ _ => cases below
        · exact rest_links (fun entry member => clean entry (List.mem_append_right _ member))
            link beside
      · have inside : ∀ entry ∈ (path ++ [.name name], node) :: sub.entered,
            entry.2.isLink = false :=
          fun entry member => clean entry (List.mem_append_left _ member)
        obtain ⟨real, subClean⟩ := List.forall_mem_cons.mp inside
        have isDir := opened.isDirectory part.head real
        rw [checked] at isDir
        cases node with
        | file | link _ _ => cases isDir
        | dir entries =>
            have below := opened.below part.head
            cases fuel with
            | zero => cases listed
            | succ depth =>
                rw [below.readdirSync] at listed
                rintro link ((here | member) | beside)
                · cases here
                · exact inner entries rfl below (fun _ _ has => has) listed subClean link member
                · exact rest_links (fun entry member => clean entry (List.mem_append_right _ member))
                    link beside

theorem opened_of_status (starts : fs.status path = .ok (some (.dir entries))) :
    ∃ place left, Opened fs path place left entries := by
  rw [FileSystem.status] at starts
  cases found : fs.resolve fs.linkLimit [] path with
  | reached place left =>
      rw [found] at starts
      exact ⟨place, left, found, Except.ok.inj starts⟩
  | missing | tooManyLinks =>
      rw [found] at starts
      cases starts

/-- With `recursive` and without `follow_symlinks` a call lists the real subtree if and only if no
link in it resolves to a directory, nor fails to resolve for the number of links. -/
theorem lists_real_iff (starts : fs.status path = .ok (some (.dir entries))) :
    ListsReal fs path entries ↔ ∀ link ∈ entries.links path, fs.isDirectory link = .ok false := by
  obtain ⟨place, left, opened⟩ := opened_of_status starts
  have whole : Part entries entries := fun _ _ has => has
  constructor
  · rintro ⟨fuel, listing, listed, clean, _⟩
    cases fuel with
    | zero => cases listed
    | succ depth =>
        rw [opened.readdirSync] at listed
        exact links_of_read opened whole listed clean
  · intro shallow
    obtain ⟨listing, read, clean, named⟩ := read_real opened whole shallow _ (Nat.le_refl _)
    exact ⟨entries.depth + 1, listing, (opened.readdirSync _ _).trans read, clean, named⟩

end Listing

section Fuel

variable {options : ReadDirOptions} {fs : FileSystem} {path : Path} {entries : Entries}
  {outcome : Except Failure Listing}

theorem before_some {first : Listing} {later : Outcome} :
    first.before later = some outcome ↔
      ∃ sub, later = some sub ∧ sub.map first.append = outcome :=
  Option.map_eq_some_iff

theorem readEntries_mono {readdir further : Path → Outcome}
    (more : ∀ path outcome, readdir path = some outcome → further path = some outcome)
    (read : readEntries options fs readdir path entries = some outcome) :
    readEntries options fs further path entries = some outcome := by
  induction entries generalizing outcome with
  | nil => exact read
  | cons name node rest _ ih =>
      have continues {first : Listing}
          (finished : first.before (readEntries options fs readdir path rest) = some outcome) :
          first.before (readEntries options fs further path rest) = some outcome := by
        obtain ⟨sub, later, same⟩ := before_some.mp finished
        exact before_some.mpr ⟨sub, ih later, same⟩
      simp only [readEntries] at read ⊢
      generalize (⟨if options.followSymlinks || !node.isLink then [name] else [], []⟩ : Listing) =
        named at read ⊢
      by_cases recursive : options.recursive = true
      · rw [if_pos recursive] at read ⊢
        cases checked : fs.isDirectory (path ++ [.name name]) with
        | error cause =>
            rw [checked] at read
            exact read
        | ok isDir =>
            rw [checked] at read
            cases isDir with
            | false => exact continues read
            | true =>
                cases listed : readdir (path ++ [.name name]) with
                | none =>
                    rw [listed] at read
                    cases read
                | some result =>
                    rw [listed] at read
                    simp only [more _ _ listed]
                    cases result with
                    | error failure => exact read
                    | ok sub => exact continues read
      · rw [if_neg recursive] at read ⊢
        exact continues read

theorem readdirSync_mono {fuel : Nat} (listed : readdirSync options fs fuel path = some outcome) :
    readdirSync options fs (fuel + 1) path = some outcome := by
  induction fuel generalizing path outcome with
  | zero => cases listed
  | succ fuel ih =>
      rw [readdirSync] at listed ⊢
      cases found : fs.status path with
      | error cause =>
          rw [found] at listed
          exact listed
      | ok node =>
          rw [found] at listed
          match node with
          | some (.dir entries) => exact readEntries_mono (fun _ _ => ih) listed
          | none | some .file | some (.link _ _) => exact listed

theorem readdirSync_le {fuel more : Nat} (within : fuel ≤ more)
    (listed : readdirSync options fs fuel path = some outcome) :
    readdirSync options fs more path = some outcome := by
  induction within with
  | refl => exact listed
  | step _ ih => exact readdirSync_mono ih

theorem readdirSync_unique {first second : Nat} {other : Except Failure Listing}
    (listed : readdirSync options fs first path = some outcome)
    (again : readdirSync options fs second path = some other) : other = outcome := by
  rcases Nat.le_total first second with within | within
  · rw [readdirSync_le within listed] at again
    exact (Option.some.inj again).symm
  · rw [readdirSync_le within again] at listed
    exact Option.some.inj listed

end Fuel

def linked (target : String) : FileSystem where
  root := .cons (text "d") (.dir (.cons (text "l") (.link true [.name (text target)]) .nil))
    (.cons (text "e") (.dir (.cons (text "f") .file .nil)) .nil)
  distinct := ⟨by decide, ⟨by decide, trivial, trivial⟩, by decide, ⟨by decide, trivial, trivial⟩,
    trivial⟩
  linkLimit := 40

theorem lists_real_example :
    ListsReal (linked "x") [.name (text "d")]
      (.cons (text "l") (.link true [.name (text "x")]) .nil) := by
  refine (lists_real_iff rfl).mpr fun link member => ?_
  cases List.mem_singleton.mp member
  rfl

theorem link_entered :
    readdirSync withoutLinks (linked "e") 2 [.name (text "d")] =
      some (.ok ⟨[text "f"], [([.name (text "d"), .name (text "l")],
        .link true [.name (text "e")])]⟩) ∧
      ¬ListsReal (linked "e") [.name (text "d")]
        (.cons (text "l") (.link true [.name (text "e")]) .nil) := by
  have listed : readdirSync withoutLinks (linked "e") 2 [.name (text "d")] =
      some (.ok ⟨[text "f"], [([.name (text "d"), .name (text "l")],
        .link true [.name (text "e")])]⟩) := rfl
  refine ⟨listed, ?_⟩
  rintro ⟨fuel, listing, again, clean, _⟩
  cases readdirSync_unique listed again
  exact absurd (clean _ (List.mem_singleton.mpr rfl)) (by decide)

end BreezeJs.FileTree
