import BreezeJs.Std.QueryCodec

set_option autoImplicit false

namespace BreezeJs.FileWatch

open Infra

inductive Event where
  | added
  | removed
  | modified
  | renamedOld
  | renamedNew
deriving DecidableEq, Repr

-- One element of `_callback_information`.
abbrev Notice := Bytes × Event

-- `NAME_MAX` and a NUL.
def nameSpace : Nat := 256

-- A `struct inotify_event`; its `len` is the length of `name`, the padding included.
structure InotifyEvent where
  wd : UInt32
  mask : UInt32
  cookie : UInt32
  name : Bytes
  short : name.length ≤ nameSpace
  terminated : name = [] ∨ 0 ∈ name
deriving DecidableEq

def word (n : UInt32) : Bytes :=
  [UInt8.ofNat n.toNat, UInt8.ofNat (n.toNat / 256), UInt8.ofNat (n.toNat / 65536),
    UInt8.ofNat (n.toNat / 16777216)]

def readWord : Bytes → UInt32
  | a :: b :: c :: d :: _ =>
      UInt32.ofNat (a.toNat + 256 * b.toNat + 65536 * c.toNat + 16777216 * d.toNat)
  | _ => 0

def InotifyEvent.len (event : InotifyEvent) : UInt32 :=
  UInt32.ofNat event.name.length

def InotifyEvent.encode (event : InotifyEvent) : Bytes :=
  word event.wd ++ word event.mask ++ word event.cookie ++ word event.len ++ event.name

def eventSize : Nat := 16

structure PathParts where
  directory : Bytes
  filename : Bytes
deriving DecidableEq, Repr

def splitDirectoryAndFile (path : Bytes) : PathParts :=
  let filename := (path.reverse.takeWhile (· != byte '/')).reverse
  let extracted := path.take (path.length - filename.length)
  { directory := if extracted = [] then text "./" else extracted
    filename := filename }

-- `filename` is there when a single file is watched, and `pattern` stands for `_pattern`.
def passFilter (filename : Option Bytes) (pattern : Bytes → Bool) (path : Bytes) : Bool :=
  match filename with
  | some filename => (splitDirectoryAndFile path).filename == filename
  | none => pattern path

-- `.*` does not match line terminators.
def regexAll (path : Bytes) : Bool :=
  path.all fun c => c != byte '\n' && c != byte '\r'

def inModify : UInt32 := 0x2
def inCreate : UInt32 := 0x100
def inDelete : UInt32 := 0x200

def classify (mask : UInt32) : Option Event :=
  if mask &&& inCreate ≠ 0 then some .added
  else if mask &&& inDelete ≠ 0 then some .removed
  else if mask &&& inModify ≠ 0 then some .modified
  else none

-- One turn of the loop; `rest` is the buffer from `&buffer[i]` on.
def readNotice (pass : Bytes → Bool) (rest : Bytes) : Option Notice :=
  if readWord (rest.drop 12) = 0 then none
  else
    let changedFile := cString (rest.drop eventSize)
    if pass changedFile then
      (classify (readWord (rest.drop 4))).map fun event => (changedFile, event)
    else none

def parseLoop (pass : Bytes → Bool) : Nat → Bytes → List Notice
  | 0, _ => []
  | fuel + 1, rest =>
      if rest = [] then []
      else
        (readNotice pass rest).toList ++
          parseLoop pass fuel (rest.drop (eventSize + (readWord (rest.drop 12)).toNat))

def parse (pass : Bytes → Bool) (buffer : Bytes) : List Notice :=
  parseLoop pass buffer.length buffer

def InotifyEvent.notice (pass : Bytes → Bool) (event : InotifyEvent) : Option Notice :=
  if event.name ≠ [] ∧ pass (cString event.name) then
    (classify event.mask).map fun kind => (cString event.name, kind)
  else none

def notices (pass : Bytes → Bool) (events : List InotifyEvent) : List Notice :=
  events.filterMap (InotifyEvent.notice pass)

@[simp] theorem length_word (n : UInt32) : (word n).length = 4 := rfl

@[simp] theorem readWord_word (n : UInt32) (rest : Bytes) : readWord (word n ++ rest) = n := by
  have bound := n.toNat_lt
  have digits : n.toNat % 256 + 256 * (n.toNat / 256 % 256) + 65536 * (n.toNat / 65536 % 256) +
      16777216 * (n.toNat / 16777216 % 256) = n.toNat := by
    omega
  simp only [word, readWord, List.cons_append, UInt8.toNat_ofNat', Nat.reducePow, digits,
    UInt32.ofNat_toNat]

theorem toNat_len (event : InotifyEvent) : event.len.toNat = event.name.length := by
  have short := event.short
  rw [nameSpace] at short
  rw [InotifyEvent.len, UInt32.toNat_ofNat_of_lt' (by rw [UInt32.size]; omega)]

theorem len_eq_zero_iff (event : InotifyEvent) : event.len = 0 ↔ event.name = [] := by
  rw [← UInt32.toNat_inj, toNat_len, UInt32.toNat_zero, List.length_eq_zero_iff]

theorem length_encode (event : InotifyEvent) :
    event.encode.length = eventSize + event.name.length := by
  simp [InotifyEvent.encode, eventSize]
  omega

section Layout

variable (event : InotifyEvent) (rest : Bytes)

theorem mask_encode : readWord ((event.encode ++ rest).drop 4) = event.mask := by
  have after : (event.encode ++ rest).drop 4 =
      word event.mask ++ (word event.cookie ++ word event.len ++ event.name ++ rest) := by
    simp [InotifyEvent.encode, word]
  rw [after, readWord_word]

theorem len_encode : readWord ((event.encode ++ rest).drop 12) = event.len := by
  have after : (event.encode ++ rest).drop 12 = word event.len ++ (event.name ++ rest) := by
    simp [InotifyEvent.encode, word]
  rw [after, readWord_word]

theorem name_encode : (event.encode ++ rest).drop eventSize = event.name ++ rest := by
  simp [InotifyEvent.encode, word, eventSize]

theorem rest_encode : (event.encode ++ rest).drop (eventSize + event.name.length) = rest := by
  rw [← length_encode, List.drop_left]

theorem cString_append {name : Bytes} (terminated : 0 ∈ name) :
    cString (name ++ rest) = cString name := by
  induction name with
  | nil => cases terminated
  | cons c others ih =>
      by_cases last : c = 0
      · simp [cString, last]
      · have later : 0 ∈ others := (List.mem_cons.mp terminated).resolve_left (Ne.symm last)
        have tail := ih later
        simp only [cString] at tail ⊢
        rw [List.cons_append, List.takeWhile_cons_of_pos (by simpa using last),
          List.takeWhile_cons_of_pos (by simpa using last), tail]

theorem readNotice_encode (pass : Bytes → Bool) :
    readNotice pass (event.encode ++ rest) = event.notice pass := by
  rw [readNotice, len_encode, mask_encode, name_encode, InotifyEvent.notice]
  by_cases unnamed : event.name = []
  · rw [if_pos ((len_eq_zero_iff event).mpr unnamed), if_neg (by simp [unnamed])]
  · rw [if_neg (unnamed ∘ (len_eq_zero_iff event).mp),
      cString_append rest (event.terminated.resolve_left unnamed)]
    simp only [ne_eq, unnamed, not_false_eq_true, true_and]

end Layout

theorem parseLoop_encode (pass : Bytes → Bool) (events : List InotifyEvent) {fuel : Nat}
    (enough : (events.flatMap InotifyEvent.encode).length ≤ fuel) :
    parseLoop pass fuel (events.flatMap InotifyEvent.encode) = notices pass events := by
  induction events generalizing fuel with
  | nil => cases fuel <;> rfl
  | cons event rest ih =>
      rw [List.flatMap_cons] at enough ⊢
      rw [List.length_append, length_encode, eventSize] at enough
      cases fuel with
      | zero => omega
      | succ fuel =>
          have present : event.encode ++ rest.flatMap InotifyEvent.encode ≠ [] := by
            simp [InotifyEvent.encode, word]
          have within : (rest.flatMap InotifyEvent.encode).length ≤ fuel := by omega
          have tail := ih within
          rw [parseLoop, if_neg present, readNotice_encode, len_encode, toNat_len, rest_encode,
            tail]
          simp only [notices, List.filterMap_cons]
          cases event.notice pass <;> rfl

/-- The loop reads back every record of the buffer, whatever fills the padding of the names. -/
theorem parse_encode (pass : Bytes → Bool) (events : List InotifyEvent) :
    parse pass (events.flatMap InotifyEvent.encode) = notices pass events :=
  parseLoop_encode pass events (Nat.le_refl _)

@[simp] theorem notices_nil (pass : Bytes → Bool) : notices pass [] = [] := rfl

@[simp] theorem notices_append (pass : Bytes → Bool) (first second : List InotifyEvent) :
    notices pass (first ++ second) = notices pass first ++ notices pass second :=
  List.filterMap_append

end BreezeJs.FileWatch
