import Mathlib.Data.List.Infix
import BreezeJs.Std.QueryCodec

set_option autoImplicit false

namespace BreezeJs.Filesystem

open Infra

inductive Platform where
  | windows
  | linux
  | macosx
deriving DecidableEq, Repr

-- A carriage return in front of a line feed is dropped, and Control-Z ends the stream.
def translate : Bytes → Bytes
  | 0x0D :: 0x0A :: rest => 0x0A :: translate rest
  | 0x1A :: _ => []
  | c :: rest => c :: translate rest
  | [] => []

-- What `std::istreambuf_iterator` goes through.
def ifstream (platform : Platform) (binary : Bool) (stored : Bytes) : Bytes :=
  if platform = .windows ∧ binary = false then translate stored else stored

structure CoroFile where
  fileSize : Bytes → Nat
  -- The stored bytes and the buffer give the buffer afterwards and the number of bytes read.
  asyncRead : Bytes → Bytes → Except String (Bytes × Nat)

-- `none` is a file that cannot be opened.
def readStream (platform : Platform) (binary : Bool) (path : String) (file : Option Bytes) :
    Except String Bytes :=
  match file with
  | none => .error ("Error opening file: " ++ path)
  | some stored => .ok (ifstream platform binary stored)

def readCoro (device : CoroFile) (path : String) (file : Option Bytes) : Except String Bytes :=
  match file with
  | none => .error ("Error opening file: " ++ path)
  | some stored =>
      let size := device.fileSize stored
      if size = 0 then .ok []
      else
        match device.asyncRead stored (List.replicate size 0) with
        | .error message => .error ("Error reading file: " ++ path ++ " - " ++ message)
        | .ok (content, readSize) =>
            if readSize ≠ size then
              .error ("Error reading file: " ++ path ++ " - Expected size: " ++ toString size ++
                ", Read size: " ++ toString readSize)
            else .ok content

def readFileAsStringSync (platform : Platform) : String → Option Bytes → Except String Bytes :=
  readStream platform false

def readFileAsString (device : CoroFile) : String → Option Bytes → Except String Bytes :=
  readCoro device

def readFileSync (platform : Platform) : String → Option Bytes → Except String Bytes :=
  readStream platform true

def readFile (device : CoroFile) : String → Option Bytes → Except String Bytes :=
  readCoro device

structure CoroFile.Faithful (device : CoroFile) : Prop where
  size : ∀ stored, device.fileSize stored = stored.length
  read : ∀ stored buffer, buffer.length = stored.length →
    device.asyncRead stored buffer = .ok (stored, stored.length)

structure Agree (platform : Platform) (device : CoroFile) (path : String) (file : Option Bytes) :
    Prop where
  async_string : readFileAsString device path file = readFileAsStringSync platform path file
  bytes : readFileSync platform path file = readFileAsStringSync platform path file
  async_bytes : readFile device path file = readFileAsStringSync platform path file

theorem translate_eq_iff (content : Bytes) :
    translate content = content ↔ 0x1A ∉ content ∧ ¬ [0x0D, 0x0A] <:+: content := by
  induction content using translate.induct with
  | case1 rest ih =>
      have inside : [0x0D, 0x0A] <:+: (0x0D :: 0x0A :: rest : Bytes) := ⟨[], rest, rfl⟩
      simp [translate, inside]
  | case2 rest => simp [translate]
  | case3 c rest noBreak noEnd ih =>
      have apart : ¬ [0x0D, 0x0A] <+: c :: rest := by
        rintro ⟨later, same⟩
        obtain ⟨rfl, tail⟩ := List.cons.inj same
        exact noBreak later rfl tail.symm
      have other : (0x1A : UInt8) ≠ c := fun same => noEnd same.symm
      rw [translate.eq_3 c rest noBreak noEnd, List.cons.injEq, ih, List.mem_cons,
        List.infix_cons_iff]
      simp [apart, other]
  | case4 => simp [translate]

section Readers

variable {platform : Platform} {device : CoroFile}

theorem readCoro_faithful (faithful : device.Faithful) (path : String) (stored : Bytes) :
    readCoro device path (some stored) = .ok stored := by
  simp only [readCoro, faithful.size]
  by_cases empty : stored.length = 0
  · rw [if_pos empty, List.length_eq_zero_iff.mp empty]
  · rw [if_neg empty, faithful.read stored _ (List.length_replicate ..)]
    simp

theorem ifstream_eq_iff (stored : Bytes) :
    ifstream platform false stored = stored ↔
      (platform = .windows → 0x1A ∉ stored ∧ ¬ [0x0D, 0x0A] <:+: stored) := by
  by_cases windows : platform = .windows
  · simp [ifstream, windows, translate_eq_iff]
  · simp [ifstream, windows]

/-- The four readers agree if and only if the platform is not Windows or the file has no line break
and no end that a text stream translates. -/
theorem readers_agree_iff (faithful : device.Faithful) (path : String) (file : Option Bytes) :
    Agree platform device path file ↔
      ∀ stored ∈ file, platform = .windows → 0x1A ∉ stored ∧ ¬ [0x0D, 0x0A] <:+: stored := by
  cases file with
  | none => exact iff_of_true ⟨rfl, rfl, rfl⟩ (by simp)
  | some stored =>
      have whole := readCoro_faithful faithful path stored
      have binary : ifstream platform true stored = stored := if_neg (by simp)
      simp only [Option.mem_def, Option.some.injEq, forall_eq']
      rw [← ifstream_eq_iff]
      constructor
      · intro agree
        have same := agree.bytes
        simp only [readFileSync, readFileAsStringSync, readStream, binary, Except.ok.injEq] at same
        exact same.symm
      · intro same
        have text : readFileAsStringSync platform path (some stored) = .ok stored := by
          rw [readFileAsStringSync, readStream, same]
        refine ⟨?_, ?_, ?_⟩
        · exact whole.trans text.symm
        · rw [text, readFileSync, readStream, binary]
        · exact whole.trans text.symm

end Readers

def wholeFile : CoroFile where
  fileSize := List.length
  asyncRead stored _ := .ok (stored, stored.length)

theorem wholeFile_faithful : wholeFile.Faithful where
  size _ := rfl
  read _ _ _ := rfl

theorem readers_agree_example : Agree .windows wholeFile "a.txt" (some (text "a\nb\r")) :=
  (readers_agree_iff wholeFile_faithful "a.txt" _).mpr (by
    rintro stored ⟨⟩ _
    decide)

theorem text_reader_differs :
    readFileAsStringSync .windows "a.txt" (some (text "a\r\nb")) = .ok (text "a\nb") ∧
      readFileSync .windows "a.txt" (some (text "a\r\nb")) = .ok (text "a\r\nb") ∧
      ¬ Agree .windows wholeFile "a.txt" (some (text "a\r\nb")) := by
  refine ⟨by decide, by decide, ?_⟩
  intro agree
  exact absurd agree.bytes (by decide)

end BreezeJs.Filesystem
