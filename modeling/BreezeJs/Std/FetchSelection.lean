import BreezeJs.Std.Headers

set_option autoImplicit false

namespace BreezeJs.Http

open Infra Association

def HttpMethod.name : HttpMethod → Bytes
  | .get => text "GET"
  | .post => text "POST"
  | .put => text "PUT"
  | .delete => text "DELETE"
  | .patch => text "PATCH"
  | .head => text "HEAD"
  | .options => text "OPTIONS"

def methods : List HttpMethod :=
  [.get, .post, .put, .delete, .patch, .head, .options]

def recognised : List Bytes :=
  methods.map HttpMethod.name

def MethodSent (url : Bytes) (init : RequestInit) : Prop :=
  ∀ client : Request → RespData,
    (∃ message, fetch client url (some init) = .error message) ∨
    (requestOf url (some init)).method.name = init.method.map toUpper

def dispatched (upper : Bytes) : HttpMethod :=
  (methods.find? fun method => method.name == upper).getD .get

theorem dispatched_of_mem {upper : Bytes} (known : upper ∈ recognised) :
    (dispatched upper).name = upper := by
  obtain ⟨method, listed, rfl⟩ := List.mem_map.mp known
  have found : (methods.find? fun other => other.name == method.name).isSome = true := by
    rw [List.find?_isSome]
    exact ⟨method, listed, beq_self_eq_true _⟩
  rw [dispatched]
  cases first : methods.find? fun other => other.name == method.name with
  | none => simp [first] at found
  | some other =>
      have same := List.find?_some first
      exact beq_iff_eq.mp same

theorem dispatched_of_not_mem {upper : Bytes} (unknown : upper ∉ recognised) :
    dispatched upper = .get := by
  have missing : methods.find? (fun method => method.name == upper) = none := by
    rw [List.find?_eq_none]
    intro method listed same
    exact unknown (List.mem_map.mpr ⟨method, listed, beq_iff_eq.mp same⟩)
  rw [dispatched, missing, Option.getD_none]

theorem dispatched_name_iff (upper : Bytes) :
    (dispatched upper).name = upper ↔ upper ∈ recognised := by
  constructor
  · intro same
    by_contra unknown
    rw [dispatched_of_not_mem unknown] at same
    exact unknown (same ▸ List.mem_map_of_mem (by decide))
  · exact dispatched_of_mem

theorem requestOf_method (url : Bytes) (init : Option RequestInit) :
    (requestOf url init).method = dispatched ((methodOf init).map toUpper) := by
  rw [requestOf]
  generalize (methodOf init).map toUpper = upper
  by_cases known : upper ∈ recognised
  · obtain ⟨method, _, rfl⟩ := List.mem_map.mp known
    cases method <;> rfl
  · have other {name : Bytes} (listed : name ∈ recognised) : upper ≠ name := by
      rintro rfl
      exact known listed
    have get : upper ≠ text "GET" := other (by decide)
    have post : upper ≠ text "POST" := other (by decide)
    have put : upper ≠ text "PUT" := other (by decide)
    have delete : upper ≠ text "DELETE" := other (by decide)
    have patch : upper ≠ text "PATCH" := other (by decide)
    have head : upper ≠ text "HEAD" := other (by decide)
    have options : upper ≠ text "OPTIONS" := other (by decide)
    simp only [if_neg get, if_neg post, if_neg put, if_neg delete, if_neg patch, if_neg head,
      if_neg options, dispatched_of_not_mem known]

section Method

variable {url : Bytes} {init : RequestInit}

/-- The request has the method that was asked for, or the call fails, if and only if the method is
one of the seven that are recognised. -/
theorem method_sent_iff (given : init.method ≠ [] ∧ init.method ≠ text "undefined") :
    MethodSent url init ↔ init.method.map toUpper ∈ recognised := by
  have named : methodOf (some init) = init.method := by simp [methodOf, given.1, given.2]
  rw [← dispatched_name_iff, ← named, ← requestOf_method url, named]
  constructor
  · intro sent
    rcases sent fun _ => ⟨none, 200, [], []⟩ with ⟨message, failed⟩ | same
    · cases failed
    · exact same
  · intro same client
    exact .inr same

theorem method_sent_example : MethodSent (text "http://h/") ⟨text "Patch", none, none⟩ :=
  (method_sent_iff ⟨by decide, by decide⟩).mpr (by decide)

theorem trace_becomes_get :
    ∃ init : RequestInit, init.method = text "TRACE" ∧
      requestOf (text "http://h/") (some init) =
        ⟨.get, text "http://h/", [], none, some []⟩ ∧
      ¬ MethodSent (text "http://h/") init := by
  refine ⟨⟨text "TRACE", none, none⟩, rfl, by decide, ?_⟩
  intro sent
  rcases sent fun _ => ⟨none, 200, [], []⟩ with ⟨message, failed⟩ | same
  · cases failed
  · exact absurd same (by decide)

end Method

def SameHeaders (first second : HeaderList) : Prop :=
  ∀ name, values lower name first = values lower name second

def OneSpelling (headers : HeaderList) : Prop :=
  (headers.map fun entry => lower entry.1).Nodup

def typedMethods : List Bytes :=
  [text "POST", text "PUT", text "DELETE"]

def Defaulted (isBinary : Bool) (value : Bytes) : Prop :=
  ¬ text "application/json" <:+: value ∧
    ¬ text "application/x-www-form-urlencoded" <:+: value ∧
    (text "application/octet-stream" <:+: value ↔ isBinary = true)

def Spelled (headers : HeaderList) : Prop :=
  text "Content-Type" ∈ headers.map Prod.fst

theorem typed_methodOf_iff (init : RequestInit) :
    (methodOf (some init)).map toUpper ∈ typedMethods ↔
      init.method.map toUpper ∈ typedMethods := by
  simp only [methodOf]
  split_ifs with given
  · exact Iff.rfl
  · have absent : init.method = [] ∨ init.method = text "undefined" := by
      by_contra other
      rw [not_or] at other
      exact given (by simp [other.1, other.2])
    rcases absent with empty | undefined
    · rw [empty]
      decide
    · rw [undefined]
      decide

theorem requestOf_contentType (url : Bytes) (init : RequestInit) :
    (requestOf url (some init)).contentType =
      if init.method.map toUpper ∈ typedMethods then
        some (contentTypeOf (init.headers.getD []) (init.body.any Body.isBinary))
      else none := by
  simp only [← typed_methodOf_iff init, requestOf]
  generalize (methodOf (some init)).map toUpper = upper
  by_cases typed : upper ∈ typedMethods
  · rw [if_pos typed]
    simp only [typedMethods, List.mem_cons, List.not_mem_nil, or_false] at typed
    rcases typed with rfl | rfl | rfl <;> rfl
  · rw [if_neg typed]
    have other {name : Bytes} (listed : name ∈ typedMethods) : upper ≠ name := by
      rintro rfl
      exact typed listed
    have post : upper ≠ text "POST" := other (by decide)
    have put : upper ≠ text "PUT" := other (by decide)
    have delete : upper ≠ text "DELETE" := other (by decide)
    rw [if_neg post, if_neg put, if_neg delete]
    split_ifs <;> rfl

section ContentType

variable {headers first second : HeaderList}

theorem values_of_mem (one : OneSpelling headers) {entry : Bytes × Bytes}
    (listed : entry ∈ headers) : values lower entry.1 headers = [entry.2] := by
  induction headers with
  | nil => cases listed
  | cons head rest ih =>
      obtain ⟨fresh, others⟩ := List.nodup_cons.mp one
      rw [values_cons]
      rcases List.mem_cons.mp listed with rfl | later
      · have none : values lower entry.1 rest = [] := by
          rw [values_eq_nil_iff]
          intro other member same
          exact fresh (List.mem_map.mpr ⟨other, member, same⟩)
        rw [if_pos rfl, none]
      · have apart : lower head.1 ≠ lower entry.1 := by
          intro same
          exact fresh (List.mem_map.mpr ⟨entry, later, same.symm⟩)
        rw [if_neg apart]
        exact ih others later

def typeOf (value : Bytes) : ContentType :=
  if text "application/json" <:+: value then .json
  else if text "application/x-www-form-urlencoded" <:+: value then .formUrlEncode
  else if text "application/octet-stream" <:+: value then .octetStream
  else .text

theorem contentTypeOf_spelled (one : OneSpelling headers) (spelled : Spelled headers)
    (isBinary : Bool) :
    ∃ value, values lower (text "Content-Type") headers = [value] ∧
      contentTypeOf headers isBinary = typeOf value := by
  obtain ⟨entry, listed, exact⟩ := List.mem_map.mp spelled
  have single := values_of_mem one listed
  rw [exact] at single
  refine ⟨entry.2, single, ?_⟩
  cases found : headers.lookup (text "Content-Type") with
  | none =>
      have other := List.lookup_eq_none_iff.mp found entry listed
      simp [exact] at other
  | some value =>
      obtain ⟨before, after, split, _⟩ := List.lookup_eq_some_iff.mp found
      have member : (text "Content-Type", value) ∈ headers := by simp [split]
      have same := values_of_mem one member
      have value_eq : value = entry.2 := List.singleton_injective (same.symm.trans single)
      rw [contentTypeOf, found, ← value_eq]
      rfl

theorem contentTypeOf_unspelled (unspelled : ¬ Spelled headers) (isBinary : Bool) :
    contentTypeOf headers isBinary = if isBinary then .octetStream else .text := by
  have missing : headers.lookup (text "Content-Type") = none := by
    rw [List.lookup_eq_none_iff]
    intro entry listed
    rw [bne_iff_ne]
    intro exact
    exact unspelled (List.mem_map.mpr ⟨entry, listed, exact.symm⟩)
  rw [contentTypeOf, missing]

theorem typeOf_defaulted_iff (isBinary : Bool) (value : Bytes) :
    typeOf value = (if isBinary then .octetStream else .text) ↔ Defaulted isBinary value := by
  simp only [typeOf, Defaulted]
  split_ifs <;> simp_all

theorem mixed_iff (one : OneSpelling headers) (spelled : Spelled headers) (isBinary : Bool) :
    contentTypeOf headers isBinary = (if isBinary then .octetStream else .text) ↔
      ∀ value ∈ values lower (text "Content-Type") headers, Defaulted isBinary value := by
  obtain ⟨value, single, selected⟩ := contentTypeOf_spelled one spelled isBinary
  rw [single, selected, List.forall_mem_singleton, typeOf_defaulted_iff]

/-- Two spellings of the same headers give the same content type if and only if none is sent, both
or neither spell the name as the lookup has it, or the value asks for the default. -/
theorem type_same_iff (one : OneSpelling first) (two : OneSpelling second)
    (same : SameHeaders first second) (url method : Bytes) (body : Option Body) :
    (requestOf url (some ⟨method, body, some first⟩)).contentType =
        (requestOf url (some ⟨method, body, some second⟩)).contentType ↔
      method.map toUpper ∉ typedMethods ∨ (Spelled first ↔ Spelled second) ∨
        ∀ value ∈ values lower (text "Content-Type") first,
          Defaulted (body.any Body.isBinary) value := by
  rw [requestOf_contentType, requestOf_contentType]
  by_cases typed : method.map toUpper ∈ typedMethods
  · rw [if_pos typed, if_pos typed, Option.some.injEq, or_iff_right (not_not.mpr typed)]
    simp only [Option.getD_some]
    generalize body.any Body.isBinary = isBinary
    by_cases spelled : Spelled first
    · by_cases spelled' : Spelled second
      · refine iff_of_true ?_ (.inl (iff_of_true spelled spelled'))
        obtain ⟨value, single, selected⟩ := contentTypeOf_spelled one spelled isBinary
        obtain ⟨value', single', selected'⟩ := contentTypeOf_spelled two spelled' isBinary
        rw [same, single'] at single
        rw [selected, selected', List.singleton_injective single]
      · have apart : ¬ (Spelled first ↔ Spelled second) := fun agree => spelled' (agree.mp spelled)
        rw [or_iff_right apart, contentTypeOf_unspelled spelled', mixed_iff one spelled]
    · by_cases spelled' : Spelled second
      · have apart : ¬ (Spelled first ↔ Spelled second) := fun agree => spelled (agree.mpr spelled')
        rw [or_iff_right apart, contentTypeOf_unspelled spelled, eq_comm, mixed_iff two spelled',
          same]
      · rw [contentTypeOf_unspelled spelled, contentTypeOf_unspelled spelled']
        exact iff_of_true rfl (.inl (iff_of_false spelled spelled'))
  · rw [if_neg typed, if_neg typed]
    exact iff_of_true rfl (.inl typed)

theorem sameHeaders_respelled {name other : Bytes} (same : lower name = lower other)
    (value : Bytes) : SameHeaders [(name, value)] [(other, value)] := by
  intro wanted
  rw [values_cons, values_cons, same]

theorem type_same_example :
    (requestOf (text "http://h/") (some ⟨text "post", some (.vector [1]),
        some [(text "content-type", text "application/octet-stream")]⟩)).contentType =
      (requestOf (text "http://h/") (some ⟨text "post", some (.vector [1]),
        some [(text "Content-Type", text "application/octet-stream")]⟩)).contentType := by
  refine (type_same_iff ?_ ?_ ?_ _ _ _).mpr (.inr (.inr ?_))
  · simp [OneSpelling]
  · simp [OneSpelling]
  · exact sameHeaders_respelled (by decide) _
  · have single : values lower (text "Content-Type")
        [(text "content-type", text "application/octet-stream")] =
          [text "application/octet-stream"] := by decide
    rw [single, List.forall_mem_singleton, Defaulted]
    decide

theorem type_by_spelling :
    ∃ first second : HeaderList, OneSpelling first ∧ OneSpelling second ∧
      SameHeaders first second ∧
      (requestOf (text "http://h/")
        (some ⟨text "POST", some (.string (text "{}")), some first⟩)).contentType = some .json ∧
      (requestOf (text "http://h/")
        (some ⟨text "POST", some (.string (text "{}")), some second⟩)).contentType = some .text :=
  ⟨[(text "Content-Type", text "application/json")],
    [(text "content-type", text "application/json")], by simp [OneSpelling],
    by simp [OneSpelling], sameHeaders_respelled (by decide) _, by decide, by decide⟩

end ContentType

end BreezeJs.Http
