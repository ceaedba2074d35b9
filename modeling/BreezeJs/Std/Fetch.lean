import Mathlib.Data.List.Infix
import BreezeJs.Binding.Variant

set_option autoImplicit false

namespace BreezeJs.Http

open Infra Binding

-- `std::variant<std::string, std::vector<uint8_t>, std::shared_ptr<Blob>>`.
inductive Body where
  | string (data : Bytes)
  | vector (data : Bytes)
  | blob (data : Bytes)
deriving DecidableEq, Repr

abbrev HeaderList := List (Bytes × Bytes)

structure RequestInit where
  method : Bytes
  body : Option Body
  headers : Option HeaderList
deriving DecidableEq, Repr

inductive ContentType where
  | text
  | json
  | formUrlEncode
  | octetStream
deriving DecidableEq, Repr

inductive HttpMethod where
  | get
  | post
  | put
  | delete
  | patch
  | head
  | options
deriving DecidableEq, Repr

-- The content type is handed over by `async_post`, `async_put` and `async_delete`.
structure Request where
  method : HttpMethod
  url : Bytes
  headers : HeaderList
  contentType : Option ContentType
  content : Option Bytes
deriving DecidableEq, Repr

def toUpper (c : UInt8) : UInt8 :=
  if between 'a' 'z' c then c - 32 else c

def Body.data : Body → Bytes
  | .string data | .vector data | .blob data => data

def Body.isBinary : Body → Bool
  | .string _ => false
  | .vector _ | .blob _ => true

def methodOf (init : Option RequestInit) : Bytes :=
  match init with
  | none => text "GET"
  | some opts =>
      if !opts.method.isEmpty && opts.method != text "undefined" then opts.method else text "GET"

-- The variant always holds one of its types, so that no body is an unsupported one here.
def bodyOf (init : Option RequestInit) : Option Body :=
  init.bind fun opts => opts.body

def headersOf (init : Option RequestInit) : HeaderList :=
  (init.bind fun opts => opts.headers).getD []

def contentTypeOf (headers : HeaderList) (isBinary : Bool) : ContentType :=
  match headers.lookup (text "Content-Type") with
  | some value =>
      if text "application/json" <:+: value then .json
      else if text "application/x-www-form-urlencoded" <:+: value then .formUrlEncode
      else if text "application/octet-stream" <:+: value then .octetStream
      else .text
  | none => if isBinary then .octetStream else .text

def requestOf (url : Bytes) (init : Option RequestInit) : Request :=
  let headers := headersOf init
  let body := ((bodyOf init).map Body.data).getD []
  let isBinary := (bodyOf init).any Body.isBinary
  let contentType := contentTypeOf headers isBinary
  let upperMethod := (methodOf init).map toUpper
  if upperMethod = text "GET" then ⟨.get, url, headers, none, none⟩
  else if upperMethod = text "POST" then ⟨.post, url, headers, some contentType, some body⟩
  else if upperMethod = text "PUT" then ⟨.put, url, headers, some contentType, some body⟩
  else if upperMethod = text "DELETE" then ⟨.delete, url, headers, some contentType, some body⟩
  else
    let method :=
      if upperMethod = text "PATCH" then HttpMethod.patch
      else if upperMethod = text "HEAD" then .head
      else if upperMethod = text "OPTIONS" then .options
      else .get
    ⟨method, url, headers, none, some body⟩

structure RespData where
  netErr : Option String
  status : Int
  body : Bytes
  headers : HeaderList
deriving DecidableEq, Repr

structure Response where
  status : Int
  statusText : String
  url : Bytes
  headers : HeaderList
  body : Bytes
  ok : Bool
deriving DecidableEq, Repr

def httpStatusText : Int → String
  | 200 => "OK"
  | 201 => "Created"
  | 204 => "No Content"
  | 301 => "Moved Permanently"
  | 302 => "Found"
  | 304 => "Not Modified"
  | 400 => "Bad Request"
  | 401 => "Unauthorized"
  | 403 => "Forbidden"
  | 404 => "Not Found"
  | 405 => "Method Not Allowed"
  | 500 => "Internal Server Error"
  | 502 => "Bad Gateway"
  | 503 => "Service Unavailable"
  | _ => ""

def fetch (client : Request → RespData) (url : Bytes) (init : Option RequestInit) :
    Except String Response :=
  let resp := client (requestOf url init)
  match resp.netErr with
  | some message => .error ("fetch failed: " ++ message)
  | none => .ok {
      status := resp.status
      statusText := httpStatusText resp.status
      url := url
      headers := resp.headers
      body := resp.body
      ok := decide (200 ≤ resp.status) && decide (resp.status < 300) }

structure InitObject where
  -- A missing method reads as `undefined`.
  method : Option (List UInt16)
  body : JsValue
  headers : Option HeaderList

def uint8 : CppType where
  traits := [.integral]
  isByteVector := false
  isVector := false
  classId := none

def stringType : CppType where
  traits := [.string]
  isByteVector := false
  isVector := false
  classId := none

def bytesType : CppType where
  traits := []
  isByteVector := true
  isVector := true
  classId := none

def blobType (blobClass : Nat) : CppType where
  traits := []
  isByteVector := false
  isVector := false
  classId := some blobClass

def unwrapBlob (blobClass : Nat) : JsValue → Except Mismatch Bytes
  | .wrapped classId data => if classId = blobClass then .ok data else .error .expectedType
  | _ => .error .expectedType

def bodyTypes (blobClass : Nat) : List (Alternative Body) :=
  [{ stringType with
      element := none
      unwrap := fun v => (unwrapString v).map .string },
    { bytesType with
      element := some uint8
      unwrap := fun v => (unwrapBytes v).map .vector },
    { blobType blobClass with
      element := none
      unwrap := fun v => (unwrapBlob blobClass v).map .blob }]

def unwrapBody (blobClass : Nat) (v : JsValue) : Option Body :=
  unwrapOptional (unwrapVariant (bodyTypes blobClass)) v

def InitObject.unwrap (blobClass : Nat) (v : InitObject) : RequestInit where
  method := (v.method.map toCString).getD (text "undefined")
  body := unwrapBody blobClass v.body
  headers := v.headers

section Bodies

variable {blobClass : Nat} {url : Bytes} {init : InitObject}

def readBody (blobClass : Nat) : JsValue → Option Body
  | .string units => some (.string (toCString units))
  | .arrayBuffer buffer | .sharedArrayBuffer buffer =>
      if buffer.detached then none else some (.vector buffer.data)
  | .uint8Array view | .uint8ClampedArray view =>
      if view.isOob then none else some (.vector view.memory)
  | .wrapped classId data => if classId = blobClass then some (.blob data) else none
  | _ => none

attribute [local simp] unwrapBody readBody unwrapOptional unwrapVariant unwrapPriority unwrapImpl
  unwrapObj accepts bodyTypes stringType bytesType blobType unwrapString unwrapBytes unwrapBlob
  JsValue.classId getArrayBuffer getUint8Array Except.map Except.toOption

theorem unwrapBody_eq (blobClass : Nat) (v : JsValue) :
    unwrapBody blobClass v = readBody blobClass v := by
  cases v with
  | array first => cases compatible : isCompatible uint8 first <;> simp [compatible]
  | arrayBuffer buffer | sharedArrayBuffer buffer =>
      cases detached : buffer.detached <;> simp [detached]
  | uint8Array view | uint8ClampedArray view => cases outside : view.isOob <;> simp [outside]
  | wrapped classId data =>
      by_cases same : blobClass = classId
      · simp [same]
      · simp [same, Ne.symm same]
  | _ => simp

def bytesOf (blobClass : Nat) : JsValue → Option Bytes
  | .string units => some (toCString units)
  | .arrayBuffer buffer | .sharedArrayBuffer buffer => some buffer.data
  | .uint8Array view | .uint8ClampedArray view => some view.bytes
  | .wrapped classId data => if classId = blobClass then some data else none
  | _ => none

def BodyKept (blobClass : Nat) (url : Bytes) (init : InitObject) : Prop :=
  ∀ client : Request → RespData,
    (∃ message, fetch client url (some (init.unwrap blobClass)) = .error message) ∨
    ∃ data, bytesOf blobClass init.body = some data ∧
      (requestOf url (some (init.unwrap blobClass))).content = some data

def sendingMethods : List Bytes :=
  [text "POST", text "PUT", text "DELETE", text "PATCH"]

def Carried (blobClass : Nat) : JsValue → Prop
  | .string _ | .arrayBuffer _ | .sharedArrayBuffer _ => True
  | .uint8Array view | .uint8ClampedArray view =>
      view.isOob = true ∨ view.length = view.bytes.length
  | .wrapped classId _ => classId = blobClass
  | _ => False

theorem content_eq (url : Bytes) {opts : RequestInit}
    (sends : opts.method.map toUpper ∈ sendingMethods) :
    (requestOf url (some opts)).content = some ((opts.body.map Body.data).getD []) := by
  have apart {name : Bytes} (absent : name.map toUpper ∉ sendingMethods) :
      opts.method ≠ name := by
    rintro rfl
    exact absent sends
  have named : methodOf (some opts) = opts.method := by
    have nonempty : opts.method ≠ [] := apart (by decide)
    have other : opts.method ≠ text "undefined" := apart (by decide)
    simp [methodOf, nonempty, other]
  have refused : opts.method.map toUpper ≠ text "GET" :=
    ne_of_mem_of_not_mem sends (by decide)
  simp only [requestOf, named, if_neg refused, bodyOf, Option.bind_some]
  split_ifs <;> rfl

theorem carried_iff {v : JsValue} (given : v ≠ .null ∧ v ≠ .undefined) :
    bytesOf blobClass v = some (((unwrapBody blobClass v).map Body.data).getD []) ↔
      Carried blobClass v := by
  rw [unwrapBody_eq]
  cases v with
  | arrayBuffer buffer | sharedArrayBuffer buffer =>
      cases detached : buffer.detached <;>
        simp [bytesOf, readBody, Carried, detached, Body.data, buffer.emptied]
  | uint8Array view | uint8ClampedArray view =>
      cases outside : view.isOob with
      | true => simp [bytesOf, readBody, Carried, outside, View.bytes]
      | false =>
          simp only [bytesOf, readBody, Carried, outside, Bool.false_eq_true, if_false,
            Option.map_some, Option.getD_some, Body.data, Option.some.injEq, false_or]
          exact eq_comm.trans (memory_eq_iff outside)
  | wrapped classId data =>
      by_cases same : classId = blobClass <;> simp [bytesOf, Carried, same, Body.data]
  | string units => simp [bytesOf, Carried, Body.data]
  | null => exact absurd rfl given.1
  | undefined => exact absurd rfl given.2
  | _ => simp [bytesOf, Carried]

/-- The body is sent, or the call fails, if and only if the value is one of the types of the
variant and, where it is a view, has not changed its length since it was made. -/
theorem body_kept_iff (given : init.body ≠ .null ∧ init.body ≠ .undefined)
    (sends : (init.unwrap blobClass).method.map toUpper ∈ sendingMethods) :
    BodyKept blobClass url init ↔ Carried blobClass init.body := by
  have sent := content_eq url sends
  rw [← carried_iff given]
  constructor
  · intro kept
    rcases kept fun _ => ⟨none, 200, [], []⟩ with ⟨message, failed⟩ | ⟨data, known, handed⟩
    · cases failed
    · rw [known, ← handed, sent]
      rfl
  · intro same client
    exact .inr ⟨_, same, sent⟩

theorem body_kept_example :
    BodyKept 7 (text "http://h/") ⟨some ("post".toList.flatMap utf16Char),
      .string ("é".toList.flatMap utf16Char), none⟩ :=
  (body_kept_iff ⟨by simp, by simp⟩ (by decide)).mpr trivial

theorem number_dropped :
    ∃ init : InitObject, init.body = .int 42 ∧
      (requestOf (text "http://h/") (some (init.unwrap 7))) =
        ⟨.post, text "http://h/", [], some .text, some []⟩ ∧
      ¬BodyKept 7 (text "http://h/") init := by
  refine ⟨⟨some ("POST".toList.flatMap utf16Char), .int 42, none⟩, rfl, by decide, ?_⟩
  intro kept
  rcases kept fun _ => ⟨none, 200, [], []⟩ with ⟨message, failed⟩ | ⟨data, known, _⟩
  · cases failed
  · cases known

end Bodies

end BreezeJs.Http
