import BreezeJs.Binding.JsString

set_option autoImplicit false

namespace BreezeJs.Binding

open Infra

structure ArrayBuffer where
  data : Bytes
  detached : Bool
  emptied : detached = true → data = []

-- A typed array of single bytes. `beyond` is what stands in memory behind the buffer.
structure View where
  buffer : ArrayBuffer
  offset : Nat
  length : Nat
  trackRab : Bool
  beyond : Nat → UInt8

def View.isOob (view : View) : Bool :=
  view.buffer.detached || decide (view.buffer.data.length < view.offset) ||
    !view.trackRab && decide (view.buffer.data.length < view.offset + view.length)

def View.bytes (view : View) : Bytes :=
  if view.isOob then []
  else if view.trackRab then view.buffer.data.drop view.offset
  else (view.buffer.data.drop view.offset).take view.length

def View.memory (view : View) : Bytes :=
  let inside := (view.buffer.data.drop view.offset).take view.length
  inside ++ (List.range (view.length - inside.length)).map view.beyond

inductive JsValue where
  | undefined
  | null
  | bool (value : Bool)
  | int (value : Int)
  | float64
  | bigInt
  | symbol
  | string (units : List UInt16)
  | function
  -- `first` is what the index 0 gives.
  | array (first : JsValue)
  | arrayBuffer (buffer : ArrayBuffer)
  | sharedArrayBuffer (buffer : ArrayBuffer)
  | uint8Array (view : View)
  | uint8ClampedArray (view : View)
  | otherTypedArray
  | wrapped (classId : Nat) (data : Bytes)
  | otherObject

-- The classes of the engine's own have no number here.
def JsValue.classId : JsValue → Option Nat
  | .wrapped classId _ => some classId
  | _ => none

def isArray : JsValue → Bool
  | .array _ => true
  | _ => false

def getArrayBuffer : JsValue → Option Bytes
  | .arrayBuffer buffer | .sharedArrayBuffer buffer =>
      if buffer.detached then none else some buffer.data
  | _ => none

def getUint8Array : JsValue → Option Bytes
  | .uint8Array view | .uint8ClampedArray view => if view.isOob then none else some view.memory
  | _ => none

inductive Mismatch where
  | expectedType
  | gotObject
  | gotTag
  | expectedBuffer
deriving DecidableEq, Repr

inductive Trait where
  | callable
  | string
  | boolean
  | integral
  | floatingPoint
  | double
deriving DecidableEq, Repr

structure CppType where
  traits : List Trait
  isByteVector : Bool
  isVector : Bool
  classId : Option Nat

structure Alternative (β : Type) extends CppType where
  element : Option CppType
  unwrap : JsValue → Except Mismatch β

section Variant

variable {β : Type}

def isCompatible (type : CppType) : JsValue → Bool
  | .function => type.traits.contains .callable
  | .string _ => type.traits.contains .string
  | .int _ | .bigInt => type.traits.contains .integral || type.traits.contains .floatingPoint
  | .bool _ => type.traits.contains .boolean || type.traits.contains .integral ||
      type.traits.contains .floatingPoint
  | .float64 => type.traits.contains .double || type.traits.contains .floatingPoint
  | .undefined | .null | .symbol => false
  | object =>
      if type.isByteVector && ((getArrayBuffer object).isSome || (getUint8Array object).isSome) then
        true
      else if isArray object then type.isVector
      else type.classId.isSome && type.classId == object.classId

def unwrapImpl (trait : Trait) : List (Alternative β) → JsValue → Except Mismatch (Option β)
  | [], _ => .ok none
  | type :: types, v =>
      if type.traits.contains trait then (type.unwrap v).map some else unwrapImpl trait types v

def unwrapPriority (types : List (Alternative β)) : List Trait → JsValue → Except Mismatch β
  | [], _ => .error .expectedType
  | trait :: traits, v =>
      match unwrapImpl trait types v with
      | .error mismatch => .error mismatch
      | .ok (some result) => .ok result
      | .ok none => unwrapPriority types traits v

-- The first alternative that accepts an object is the only one that converts it.
def accepts (type : Alternative β) (v : JsValue) : Bool :=
  type.classId.isSome && type.classId == v.classId ||
    type.isByteVector && ((getArrayBuffer v).isSome || (getUint8Array v).isSome) ||
    type.element.any fun element => match v with
      | .array first => isCompatible element first
      | _ => false

def unwrapObj : List (Alternative β) → JsValue → Except Mismatch (Option β)
  | [], _ => .ok none
  | type :: types, v => if accepts type v then (type.unwrap v).map some else unwrapObj types v

def unwrapVariant (types : List (Alternative β)) (v : JsValue) : Except Mismatch β :=
  match v with
  | .function => unwrapPriority types [.callable] v
  | .string _ => unwrapPriority types [.string] v
  | .int _ | .bigInt => unwrapPriority types [.integral, .floatingPoint] v
  | .bool _ => unwrapPriority types [.boolean, .integral, .floatingPoint] v
  | .float64 => unwrapPriority types [.double, .floatingPoint] v
  | .undefined | .null | .symbol => .error .gotTag
  | object =>
      match unwrapObj types object with
      | .error mismatch => .error mismatch
      | .ok (some result) => .ok result
      | .ok none => .error .gotObject

def unwrapOptional (unwrap : JsValue → Except Mismatch β) (v : JsValue) : Option β :=
  match v with
  | .null | .undefined => none
  | value => (unwrap value).toOption

end Variant

def unwrapString : JsValue → Except Mismatch Bytes
  | .string units => .ok (toCString units)
  | _ => .error .expectedType

def unwrapBytes (v : JsValue) : Except Mismatch Bytes :=
  match getArrayBuffer v with
  | some data => .ok data
  | none =>
      match getUint8Array v with
      | some data => .ok data
      | none => .error .expectedBuffer

theorem memory_length (view : View) : view.memory.length = view.length := by
  simp only [View.memory, List.length_append, List.length_map, List.length_range,
    List.length_take, List.length_drop]
  omega

theorem memory_eq_iff {view : View} (inside : view.isOob = false) :
    view.memory = view.bytes ↔ view.length = view.bytes.length := by
  constructor
  · intro same
    rw [← same, memory_length]
  · intro same
    have whole : (view.buffer.data.drop view.offset).take view.length = view.bytes := by
      simp only [View.bytes, inside, Bool.false_eq_true, if_false] at same ⊢
      split_ifs at same ⊢ with tracks
      · rw [same, List.take_length]
      · rfl
    rw [View.memory, whole, ← same, Nat.sub_self]
    simp

end BreezeJs.Binding
