import BreezeJs.Std.Disk

set_option autoImplicit false

namespace BreezeJs.Filesystem

open Infra UpToError

structure CoroOutput where
  -- The content once the file is open for writing; `none` is a file that does not open.
  opened : Bytes → Option Bytes
  -- The content after a write, and the error or the number of bytes written.
  asyncWrite : Bytes → Bytes → Bytes × Except Bytes Nat

def asyncWrite (device : CoroOutput) (file : Nat) (content : Bytes) :
    System (Except Bytes Nat) := fun disk =>
  match disk.nodes[file]? with
  | some (.file old writable) =>
      let written := device.asyncWrite old content
      .ok written.2 (disk.setContent file written.1 writable)
  | _ => .ok (.error (text "Bad file descriptor")) disk

def createFile (path : Bytes) : System Unit := do
  createDirectories (parentPath path)
  match ← openFile path fun _ => some [] with
  | some _ => pure ()
  | none => throw (.runtime (text "Error creating file: " ++ path))

def storeContent (device : CoroOutput) (path content : Bytes) : System Bool := do
  match ← openFile path device.opened with
  | none => throw (.runtime (text "Error opening file for writing: " ++ path))
  | some file =>
      match ← asyncWrite device file content with
      | .error message =>
          throw (.runtime (text "Error writing to file: " ++ path ++ text " - " ++ message))
      | .ok size =>
          if size ≠ content.length then
            throw (.runtime (text "Error writing to file: " ++ path ++
              text (" - Expected size: " ++ toString content.length ++
                ", Written size: " ++ toString size)))
          else pure true

def writeBytes (device : CoroOutput) (path content : Bytes) : System Bool := do
  unless ← fileExists path do
    createFile path
  storeContent device path content

def writeStringToFile (device : CoroOutput) : Bytes → Bytes → System Bool :=
  writeBytes device

def writeFile (device : CoroOutput) : Bytes → Bytes → System Bool :=
  writeBytes device

def Creates (disk : Disk) (path : Bytes) : Prop :=
  ∃ i name directory, disk.resolve true path = .vacant i name ∧
    disk.directory i = some directory ∧ directory.writable = true

section Alike

variable {device : CoroOutput} {disk : Disk} {path : Bytes}

theorem fileExists_dotSlash (relative : isAbsolute path = false) (given : cString path ≠ []) :
    fileExists (dotSlash path) = fileExists path := by
  funext disk
  rw [fileExists, fileExists, resolve_dotSlash relative given]

theorem openFile_dotSlash (relative : isAbsolute path = false) (given : cString path ≠ [])
    (opening : Bytes → Option Bytes) :
    openFile (dotSlash path) opening = openFile path opening := by
  funext disk
  rw [openFile, openFile, resolve_dotSlash relative given]

theorem storeContent_alike (relative : isAbsolute path = false) (given : cString path ≠ [])
    (content : Bytes) (disk : Disk) :
    Alike (storeContent device path content disk)
      (storeContent device (dotSlash path) content disk) := by
  rw [storeContent, storeContent, openFile_dotSlash relative given]
  refine (Alike.refl _).bind ?_
  intro opened disk
  cases opened with
  | none => exact .error _ _ _
  | some file =>
      refine (Alike.refl _).bind ?_
      intro written disk
      cases written with
      | error message => exact .error _ _ _
      | ok size =>
          simp only
          split
          · exact .error _ _ _
          · exact .ok _ _

theorem createFile_alike (relative : isAbsolute path = false) (given : cString path ≠ [])
    (slashed : slash ∈ path) (disk : Disk) :
    Alike (createFile path disk) (createFile (dotSlash path) disk) := by
  have parent := parentPath_front path
  have some : parentPath path ≠ [] := by
    rw [parentPath_slashed relative slashed]
    exact base_ne_nil relative slashed
  have inside := isAbsolute_front parent relative
  have given' := (cString_front parent some).not.mpr given
  rw [createFile, createFile, parentPath_dotSlash relative, if_pos slashed,
    openFile_dotSlash relative given]
  refine (createDirectories_dotSlash inside given' disk).bind ?_
  intro _ disk
  refine (Alike.refl _).bind ?_
  intro opened disk
  cases opened with
  | none => exact .error _ _ _
  | some file => exact .ok _ _

theorem writeBytes_exists {there : Bool} (found : foundExists (disk.resolve true path) = .ok there)
    (content : Bytes) :
    writeBytes device path content disk =
      if there then storeContent device path content disk
      else (createFile path >>= fun _ => storeContent device path content) disk := by
  have known : fileExists path disk = .ok there disk := by rw [fileExists, found]
  rw [writeBytes, bind_of_ok known]
  cases there <;> rfl

theorem writeBytes_fault {errno : Errno}
    (found : foundExists (disk.resolve true path) = .error errno) (content : Bytes) :
    writeBytes device path content disk = .error (.filesystem errno) disk := by
  have known : fileExists path disk = .error (.filesystem errno) disk := by rw [fileExists, found]
  rw [writeBytes, bind_of_error known]

theorem writeBytes_missing (found : foundExists (disk.resolve true path) = .ok false)
    {e : Fault} (fails : createDirectories (parentPath path) disk = .error e disk)
    (content : Bytes) : writeBytes device path content disk = .error e disk := by
  have created : createFile path disk = .error e disk := by rw [createFile, bind_of_error fails]
  rw [writeBytes_exists found, if_neg (by decide), bind_of_error created]

theorem writeBytes_closed (closed : Closed disk) (relative : isAbsolute path = false)
    (content : Bytes) : ∃ e, writeBytes device path content disk = .error e disk := by
  have parent := isAbsolute_front (parentPath_front path) relative
  obtain ⟨e, fails⟩ := createDirectories_closed closed parent
  obtain ⟨errno, nowhere⟩ : ∃ errno, disk.resolve true path = .failed errno := by
    obtain ⟨errno, failed⟩ := closed
    rw [Disk.resolve]
    split_ifs with none
    · exact ⟨_, rfl⟩
    · exact ⟨errno, failed _ _ _ relative (components_ne_nil _)⟩
  cases found : foundExists (disk.resolve true path) with
  | error errno => exact ⟨_, writeBytes_fault found content⟩
  | ok there =>
      cases there with
      | false => exact ⟨e, writeBytes_missing found fails content⟩
      | true => rw [nowhere] at found; cases errno <;> cases found

theorem closed_alike (closed : Closed disk) (relative : isAbsolute path = false)
    (content : Bytes) :
    Alike (writeBytes device path content disk)
      (writeBytes device (dotSlash path) content disk) := by
  obtain ⟨e, fails⟩ := writeBytes_closed closed relative content
  obtain ⟨e', fails'⟩ := writeBytes_closed closed (isAbsolute_dotSlash path) content
  rw [fails, fails']
  exact .error e e' disk

theorem unnamed_alike (relative : isAbsolute path = false) (unnamed : cString path = [])
    (content : Bytes) :
    Alike (writeBytes device path content disk)
      (writeBytes device (dotSlash path) content disk) := by
  rcases open_or_closed disk with ⟨i, directory, here, reached⟩ | closed
  · have missing : foundExists (disk.resolve true path) = .ok false := by
      rw [Disk.resolve, if_pos unnamed]
      rfl
    have fails : createDirectories (parentPath path) disk =
        .error (.filesystem .invalidArgument) disk := by
      have none : cString (parentPath path) = [] := by
        by_cases top : parentPath path = []
        · rw [top]
          rfl
        · exact (cString_front (parentPath_front path) top).mpr unnamed
      rw [createDirectories, if_pos none]
      rfl
    have found : disk.resolve true (dotSlash path) = .node i := by
      rw [Disk.resolve, cString_dotSlash, if_neg (dotSlash_ne_nil _), components_dotSlash, unnamed]
      exact (resolvePieces_dot relative (List.cons_ne_nil _ _)).trans (reached true path relative)
    have closes : openFile (dotSlash path) device.opened disk = .ok none disk := by
      simp only [openFile, found, Disk.directory_some here]
    have exists' : foundExists (disk.resolve true (dotSlash path)) = .ok true := by
      rw [found]
      rfl
    rw [writeBytes_missing missing fails, writeBytes_exists exists', if_pos rfl, storeContent,
      bind_of_ok closes]
    exact .error _ _ _
  · exact closed_alike closed relative content

theorem slashed_alike (relative : isAbsolute path = false) (given : cString path ≠ [])
    (slashed : slash ∈ path) (content : Bytes) :
    Alike (writeBytes device path content disk)
      (writeBytes device (dotSlash path) content disk) := by
  rw [writeBytes, writeBytes, fileExists_dotSlash relative given]
  refine (Alike.refl _).bind ?_
  intro there disk
  have stored : ∀ disk, Alike (storeContent device path content disk)
      (storeContent device (dotSlash path) content disk) :=
    storeContent_alike relative given content
  cases there with
  | true => exact stored disk
  | false => exact (createFile_alike relative given slashed disk).bind fun _ => stored

def Larger (disk disk' : Disk) : Prop :=
  disk.nodes.length ≤ disk'.nodes.length

instance : IsTrans Disk Larger where
  trans _ _ _ := le_trans

theorem add_length (i : Nat) (directory : Directory) (name : Bytes) (node : Node) :
    (disk.add i directory name node).nodes.length = disk.nodes.length + 1 := by
  simp [Disk.add]

theorem setContent_length (i : Nat) (content : Bytes) (writable : Bool) :
    (disk.setContent i content writable).nodes.length = disk.nodes.length := by
  simp [Disk.setContent]

theorem openFile_larger (path : Bytes) (opening : Bytes → Option Bytes) :
    Within Larger (openFile path opening) := by
  intro disk
  rw [openFile, Larger]
  split
  · split
    · split
      · rw [final, setContent_length]
      · exact le_refl _
    · exact le_refl _
  · split
    · split
      · split
        · rw [final, add_length]
          omega
        · exact le_refl _
      · exact le_refl _
    · exact le_refl _
  · exact le_refl _

theorem asyncWrite_larger (file : Nat) (content : Bytes) :
    Within Larger (asyncWrite device file content) := by
  intro disk
  rw [asyncWrite, Larger]
  split
  · rw [final, setContent_length]
  · exact le_refl _

theorem storeContent_larger (path content : Bytes) :
    Within Larger (storeContent device path content) := by
  refine (openFile_larger path device.opened).bind ?_
  intro opened
  cases opened with
  | none => exact fun disk => le_refl _
  | some file =>
      refine (asyncWrite_larger file content).bind ?_
      intro written disk
      cases written with
      | error message => exact le_refl _
      | ok size =>
          simp only
          split <;> exact le_refl _

theorem openFile_creates (creates : Creates disk path) :
    ∃ file disk', openFile path (fun _ => some []) disk = .ok (some file) disk' ∧
      disk.nodes.length < disk'.nodes.length := by
  obtain ⟨i, name, directory, found, here, writable⟩ := creates
  refine ⟨disk.nodes.length, disk.add i directory name (.file [] true), ?_, ?_⟩
  · simp only [openFile, found, here, writable, if_true]
  · rw [add_length]
    omega

theorem openFile_refused (missing : foundExists (disk.resolve true path) = .ok false)
    (refused : ¬ Creates disk path) (opening : Bytes → Option Bytes) :
    openFile path opening disk = .ok none disk := by
  rw [openFile]
  cases found : disk.resolve true path with
  | node i =>
      rw [found] at missing
      cases missing
  | failed errno => rfl
  | vacant i name =>
      cases here : disk.directory i with
      | none => simp only [here]
      | some directory =>
          have closed : directory.writable = false := by
            rw [← Bool.not_eq_true]
            exact fun writable => refused ⟨i, name, directory, found, here, writable⟩
          simp only [here, closed]
          split <;> rfl

theorem exists_of_creates (creates : Creates disk path) :
    foundExists (disk.resolve true path) = .ok false := by
  obtain ⟨i, name, directory, found, _⟩ := creates
  rw [found]
  rfl

theorem createFile_opened {opened : Option Nat} {disk' : Disk}
    (parent : createDirectories (parentPath path) disk = .ok () disk)
    (opens : openFile path (fun _ => some []) disk = .ok opened disk') :
    createFile path disk =
      if opened.isSome then .ok () disk'
      else .error (.runtime (text "Error creating file: " ++ path)) disk' := by
  rw [createFile, bind_of_ok parent, bind_of_ok opens]
  cases opened <;> rfl

theorem created_not_alike (creates : Creates disk path) {e : Fault} {content : Bytes}
    (fails : writeBytes device path content disk = .error e disk)
    (parent : createDirectories (parentPath (dotSlash path)) disk = .ok () disk)
    (same : openFile (dotSlash path) (fun _ => some []) = openFile path fun _ => some [])
    (missing : foundExists (disk.resolve true (dotSlash path)) = .ok false) :
    ¬ Alike (writeBytes device path content disk)
      (writeBytes device (dotSlash path) content disk) := by
  obtain ⟨file, disk', opens, larger⟩ := openFile_creates creates
  rw [← same] at opens
  have created : createFile (dotSlash path) disk = .ok () disk' := createFile_opened parent opens
  rw [fails, writeBytes_exists missing, if_neg (by decide), bind_of_ok created]
  intro alike
  have larger' : Within Larger (storeContent device (dotSlash path) content) :=
    storeContent_larger (dotSlash path) content
  have kept : disk'.nodes.length ≤ _ := larger' disk'
  rw [← alike.final_eq, final] at kept
  omega

theorem bare_alike_iff (relative : isAbsolute path = false) (given : cString path ≠ [])
    (bare : slash ∉ path) (content : Bytes) :
    Alike (writeBytes device path content disk)
      (writeBytes device (dotSlash path) content disk) ↔ ¬ Creates disk path := by
  have led : disk.resolve true (dotSlash path) = disk.resolve true path :=
    resolve_dotSlash relative given
  cases found : foundExists (disk.resolve true path) with
  | error errno =>
      refine iff_of_true ?_ fun creates => ?_
      · rw [writeBytes_fault found, writeBytes_fault (led ▸ found)]
        exact .error _ _ _
      · rw [exists_of_creates creates] at found
        cases found
  | ok there =>
      cases there with
      | true =>
          refine iff_of_true ?_ fun creates => ?_
          · rw [writeBytes_exists found, writeBytes_exists (led ▸ found), if_pos rfl, if_pos rfl]
            exact storeContent_alike relative given content disk
          · rw [exists_of_creates creates] at found
            cases found
      | false =>
          have fails : writeBytes device path content disk =
              .error (.filesystem .invalidArgument) disk := by
            refine writeBytes_missing found ?_ content
            rw [parentPath_bare bare]
            rfl
          rcases open_or_closed disk with ⟨i, directory, here, reached⟩ | closed
          · have first := createDirectory_open here (reached true (text ".") rfl)
            have parent : createDirectories (parentPath (dotSlash path)) disk = .ok () disk := by
              rw [parentPath_dotSlash relative, if_neg bare]
              exact bind_of_ok first
            have same := openFile_dotSlash relative given fun _ => some []
            by_cases creates : Creates disk path
            · exact iff_of_false (created_not_alike creates fails parent same (led ▸ found))
                (not_not.mpr creates)
            · have refused := openFile_refused found creates fun _ => some []
              rw [← same] at refused
              refine iff_of_true ?_ creates
              rw [fails, writeBytes_exists (led ▸ found), if_neg (by decide),
                bind_of_error (createFile_opened parent refused)]
              exact .error _ _ _
          · refine iff_of_true (closed_alike closed relative content) ?_
            rintro ⟨i, name, directory, vacant, _⟩
            obtain ⟨errno, failed⟩ := closed
            rw [Disk.resolve, if_neg given, failed _ _ _ relative (components_ne_nil _)] at vacant
            cases vacant

theorem writeBytes_alike_iff (relative : isAbsolute path = false) (content : Bytes) :
    Alike (writeBytes device path content disk)
      (writeBytes device (dotSlash path) content disk) ↔ slash ∈ path ∨ ¬ Creates disk path := by
  by_cases unnamed : cString path = []
  · refine iff_of_true (unnamed_alike relative unnamed content) (.inr ?_)
    rintro ⟨i, name, directory, vacant, _⟩
    rw [Disk.resolve, if_pos unnamed] at vacant
    cases vacant
  · by_cases slashed : slash ∈ path
    · exact iff_of_true (slashed_alike relative unnamed slashed content) (.inl slashed)
    · rw [or_iff_right slashed]
      exact bare_alike_iff relative unnamed slashed content

end Alike

/-- Writing to a relative path and to the same path behind `./` comes to the same if and only if
the path has a slash in it or does not lead to a free name in a directory that takes it. -/
theorem write_alike_iff (device : CoroOutput) (disk : Disk) {path : Bytes}
    (relative : isAbsolute path = false) (content : Bytes) :
    (Alike (writeFile device path content disk)
        (writeFile device (dotSlash path) content disk) ↔ slash ∈ path ∨ ¬ Creates disk path) ∧
      (Alike (writeStringToFile device path content disk)
        (writeStringToFile device (dotSlash path) content disk) ↔
          slash ∈ path ∨ ¬ Creates disk path) :=
  ⟨writeBytes_alike_iff relative content, writeBytes_alike_iff relative content⟩

def fileStream : CoroOutput where
  opened _ := some []
  asyncWrite _ content := (content, .ok content.length)

def emptyDisk : Disk where
  nodes := [.dir ⟨[], 0, true, true⟩]
  root := 0
  workingDirectory := 0
  linkLimit := 40

theorem write_alike_example :
    Alike (writeFile fileStream (text "d/a.txt") (text "x") emptyDisk)
      (writeFile fileStream (dotSlash (text "d/a.txt")) (text "x") emptyDisk) :=
  (write_alike_iff fileStream emptyDisk rfl (text "x")).1.mpr (.inl (by decide))

theorem bare_name_refused :
    writeFile fileStream (text "a.txt") (text "x") emptyDisk =
        .error (.filesystem .invalidArgument) emptyDisk ∧
      (∃ disk', writeFile fileStream (dotSlash (text "a.txt")) (text "x") emptyDisk =
        .ok true disk' ∧ disk'.nodes[1]? = some (.file (text "x") true)) ∧
      ¬ Alike (writeFile fileStream (text "a.txt") (text "x") emptyDisk)
        (writeFile fileStream (dotSlash (text "a.txt")) (text "x") emptyDisk) := by
  refine ⟨rfl, ⟨_, rfl, rfl⟩, ?_⟩
  nofun

end BreezeJs.Filesystem
