import BreezeJs.Std.SearchParams

set_option autoImplicit false

namespace BreezeJs.UrlStore

open Transition Infra

-- `new URL()` in a script is the default constructor.
inductive Construction where
  | blank
  | string (urlString : Bytes)
deriving DecidableEq, Repr

def Construction.action : Construction → Action
  | .blank => .newBlankUrl
  | .string urlString => .newUrl urlString

def Construction.parses : Construction → Bool
  | .blank => false
  | .string _ => true

inductive SetterCall where
  | component (setter : Setter) (value : Bytes)
  | search (newSearch : Bytes)
  | href (newHref : Bytes)
deriving DecidableEq, Repr

namespace SetterCall

def action (u : Nat) : SetterCall → Action
  | .component setter value => .assign u setter value
  | .search newSearch => .setSearch u newSearch
  | .href newHref => .setHref u newHref

def takesBackOfEmpty : SetterCall → Bool
  | .component (.protocol _) value => value.isEmpty
  | _ => false

-- A setter that throws leaves a store; one that is undefined leaves none.
def call (dot : UInt8 → Bool) (u : Nat) (s : Store) (setterCall : SetterCall) : Option Store :=
  if setterCall.takesBackOfEmpty then none else step dot s (setterCall.action u)

end SetterCall

def callAll (dot : UInt8 → Bool) (u : Nat) (calls : List SetterCall) (s : Store) : Option Store :=
  calls.foldlM (SetterCall.call dot u) s

def SetterCall.fills (dot : UInt8 → Bool) (filled : Bool) : SetterCall → Bool
  | .href newHref => filled || (matchUrl dot newHref).isSome
  | _ => filled

def SetterCall.harmless (filled : Bool) : SetterCall → Bool
  | .component (.protocol _) value => !value.isEmpty
  | .search _ => filled
  | _ => true

def harmless (dot : UInt8 → Bool) : Bool → List SetterCall → Bool
  | _, [] => true
  | filled, setterCall :: rest =>
      setterCall.harmless filled && harmless dot (setterCall.fills dot filled) rest

section Setters

variable {dot : UInt8 → Bool} {s t : Store} {u : Nat}

structure Ready (s : Store) (u : Nat) (filled : Bool) : Prop where
  valid : Valid s
  here : u < s.urls.length
  object : (s.currentParams u).isSome = filled

theorem call_eq_none {filled : Bool} (ready : Ready s u filled) {setterCall : SetterCall}
    (harm : setterCall.harmless filled = false) : setterCall.call dot u s = none := by
  cases setterCall with
  | component setter value =>
      cases setter with
      | protocol residue =>
          simp only [SetterCall.harmless, Bool.not_eq_false'] at harm
          simp [SetterCall.call, SetterCall.takesBackOfEmpty, harm]
      | _ => simp [SetterCall.harmless] at harm
  | search newSearch =>
      have absent : s.currentParams u = none := by
        rw [← Option.not_isSome_iff_eq_none, ready.object, Bool.not_eq_true]
        exact harm
      simp [SetterCall.call, SetterCall.takesBackOfEmpty, SetterCall.action, step, callable, call,
        setSearch_eq, absent, finished]
  | href newHref => simp [SetterCall.harmless] at harm

theorem call_ready {filled : Bool} (ready : Ready s u filled) {setterCall : SetterCall}
    (safe : setterCall.harmless filled = true) :
    ∃ t, setterCall.call dot u s = some t ∧ Ready t u (setterCall.fills dot filled) := by
  cases setterCall with
  | component setter value =>
      have defined : (SetterCall.component setter value).takesBackOfEmpty = false := by
        cases setter <;> simp_all [SetterCall.harmless, SetterCall.takesBackOfEmpty]
      have kept : (s.updateUrl u (setter.assign value)).currentParams u = s.currentParams u :=
        currentParams_updateUrl fun url => (assign_keeps setter value url).2.1
      refine ⟨s.updateUrl u (setter.assign value), ?_, valid_assign ready.valid setter value, ?_,
        ?_⟩
      · simp [SetterCall.call, defined, SetterCall.action, step, callable, ready.here, call]
      · simpa [Store.updateUrl] using ready.here
      · rw [kept]
        exact ready.object
  | search newSearch =>
      obtain ⟨p, current⟩ := Option.isSome_iff_exists.mp (ready.object.trans safe)
      have found : s.setSearch u newSearch = some (s.write u p (dropMark '?' newSearch)) := by
        rw [setSearch_eq, current, Option.map_some]
      refine ⟨_, ?_, valid_setSearch ready.valid.linked (fun v _ => ready.valid.agrees v) found, ?_,
        ?_⟩
      · simp [SetterCall.call, SetterCall.takesBackOfEmpty, SetterCall.action, step, callable,
          ready.here, call, found, finished]
      · simpa [Store.write, Store.updateUrl, Store.updateList] using ready.here
      · rw [(current_setSearch found).1]
        exact ready.object
  | href newHref =>
      have answer : s.setHref dot u newHref = _ := setHref_eq ready.valid ready.here newHref
      cases matched : matchUrl dot newHref with
      | none =>
          rw [matched] at answer
          refine ⟨s, ?_, ready.valid, ready.here, ?_⟩
          · simp [SetterCall.call, SetterCall.takesBackOfEmpty, SetterCall.action, step, callable,
              ready.here, call, answer]
          · simpa [SetterCall.fills, matched] using ready.object
      | some components =>
          rw [matched] at answer
          refine ⟨s.parsed u components, ?_, valid_parsed ready.valid components, ?_, ?_⟩
          · simp [SetterCall.call, SetterCall.takesBackOfEmpty, SetterCall.action, step, callable,
              ready.here, call, answer]
          · simpa [Store.parsed, Store.updateUrl] using ready.here
          · simp [SetterCall.fills, matched, currentParams_parsed_same components ready.here]

theorem callAll_iff (calls : List SetterCall) {filled : Bool} (ready : Ready s u filled) :
    callAll dot u calls s ≠ none ↔ harmless dot filled calls = true := by
  induction calls generalizing s filled with
  | nil => simp [callAll, harmless]
  | cons setterCall rest ih =>
      cases safe : setterCall.harmless filled with
      | false =>
          have undefined : setterCall.call dot u s = none := call_eq_none ready safe
          simp [callAll, harmless, safe, undefined]
      | true =>
          obtain ⟨t, went, still⟩ : ∃ t, setterCall.call dot u s = some t ∧
              Ready t u (setterCall.fills dot filled) := call_ready ready safe
          simp only [callAll, List.foldlM_cons, went, harmless, safe, Bool.true_and]
          exact ih still

theorem ready_built {construction : Construction} (valid : Valid s)
    (built : call dot s construction.action = .done t) :
    Ready t s.urls.length construction.parses := by
  cases construction with
  | blank =>
      cases built
      refine ⟨valid_withBlank valid, by simp, ?_⟩
      simp [Store.currentParams, Url.blank, Construction.parses]
  | string urlString =>
      simp only [Construction.action, call, newUrl_eq] at built
      split at built
      · cases built
      · cases built
        have here : s.urls.length < s.withBlank.urls.length := by simp [Store.withBlank]
        refine ⟨valid_parsed (valid_withBlank valid) _, ?_, ?_⟩
        · simpa [Store.parsed, Store.updateUrl] using here
        · rw [currentParams_parsed_same _ here]
          rfl

/-- No setter of a sequence of calls on a new URL is undefined if and only if none of them sets the
protocol to nothing and, where the URL was made without a string, none sets the query before a
`set_href` succeeded. -/
theorem setters_defined_iff (reached : Reachable (system dot) s) (construction : Construction)
    (built : call dot s construction.action = .done t) (calls : List SetterCall) :
    callAll dot s.urls.length calls t ≠ none ↔ harmless dot construction.parses calls = true :=
  callAll_iff calls (ready_built (valid_reachable reached) built)

end Setters

theorem setters_defined_example :
    callAll anyByte 0 [.href (text "nowhere"), .component .hash [], .href (text "http://h"),
      .search [], .component (.protocol 0) (text "ftp")] initial.withBlank ≠ none :=
  (setters_defined_iff ⟨[], .start rfl⟩ .blank rfl _).mpr (by decide +kernel)

theorem new_url_search_undefined : ¬ ∀ (s t : Store) (construction : Construction),
    Reachable (system anyByte) s → call anyByte s construction.action = .done t →
    ∀ calls, callAll anyByte s.urls.length calls t ≠ none := by
  intro defined
  exact defined initial _ .blank ⟨[], .start rfl⟩ rfl [.search (text "?a=b")] (by decide +kernel)

end BreezeJs.UrlStore
