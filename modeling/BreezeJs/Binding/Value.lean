import Mathlib.Tactic.SplitIfs

set_option autoImplicit false

namespace BreezeJs.Binding

inductive Thread where
  | js
  | other (id : Nat)
deriving DecidableEq, Repr

inductive Primitive where
  | dupValue
  | freeValue
  | convert
deriving DecidableEq, Repr

structure Call where
  primitive : Primitive
  value : Nat
  thread : Thread
deriving DecidableEq, Repr

-- Work is posted unless the caller is the JS thread already.
def onJsThread (work : Thread → List Call) (caller : Thread) : List Call :=
  if caller ≠ .js then work .js else work caller

@[simp] theorem onJsThread_eq (work : Thread → List Call) (caller : Thread) :
    onJsThread work caller = work .js := by
  simp only [onJsThread]
  by_cases here : caller = .js <;> simp [here]

structure Value where
  v : Nat
  hasCtx : Bool
  hasHolder : Bool
deriving DecidableEq, Repr

def Value.copyCalls (rhs : Value) (caller : Thread) : List Call :=
  [⟨.dupValue, rhs.v, caller⟩]

-- What a move leaves behind; the value itself is not swapped.
def Value.movedFrom (rhs : Value) : Value :=
  { rhs with hasCtx := false, hasHolder := false }

def Value.release (self : Value) : Value :=
  { self with hasCtx := false }

def Value.destroyCalls (self : Value) (caller : Thread) : List Call :=
  if self.hasCtx = false then []
  else if self.hasHolder = false then []
  else onJsThread (fun t => [⟨.freeValue, self.v, t⟩]) caller

def Value.as (self : Value) (convert : Thread → List Call) (caller : Thread) : List Call :=
  if self.hasHolder then onJsThread convert caller else convert caller

structure Error where
  value : Nat
  stack : Nat
  hasStack : Bool
deriving DecidableEq, Repr

def stackCalls (e : Error) (caller : Thread) : List Call :=
  [⟨.dupValue, e.value, caller⟩, ⟨.convert, e.stack, caller⟩, ⟨.freeValue, e.stack, caller⟩,
    ⟨.freeValue, e.value, caller⟩]

def exceptionCalls (e : Error) (caller : Thread) : List Call :=
  [⟨.dupValue, e.value, caller⟩, ⟨.dupValue, e.value, caller⟩, ⟨.convert, e.value, caller⟩] ++
    stackCalls e caller ++ if e.hasStack then stackCalls e caller else []

structure Exception where
  value : Option Nat
deriving DecidableEq, Repr

-- The base class fetches the error, and the member initialiser empties `value` after it.
def Exception.new : Exception :=
  { value := none }

def Exception.get (self : Exception) (pending : Nat) : Exception :=
  { value := some (self.value.getD pending) }

def Exception.getCalls (self : Exception) (pending : Nat) (caller : Thread) : List Call :=
  match self.value with
  | none => [⟨.dupValue, pending, caller⟩, ⟨.dupValue, pending, caller⟩]
  | some value => [⟨.dupValue, value, caller⟩]

def Exception.destroyCalls (self : Exception) (caller : Thread) : List Call :=
  match self.value with
  | none => []
  | some value => [⟨.freeValue, value, caller⟩]

inductive Ret where
  | void
  | value
deriving DecidableEq, Repr

inductive Outcome where
  | returns (result : Nat) (failure : Option Error)
  | throws (e : Error)
deriving DecidableEq, Repr

structure JsCall where
  ret : Ret
  args : List Nat
  outcome : Outcome
deriving DecidableEq, Repr

def unwrapFunctionCalls (v : Nat) (caller : Thread) : List Call :=
  [⟨.dupValue, v, caller⟩]

def unwrapFunction (v : Nat) : Value :=
  { v := v
    hasCtx := true
    hasHolder := true }

def unwrapFreeCalls (call : JsCall) (result : Nat) (failure : Option Error) (caller : Thread) :
    List Call :=
  match call.ret, failure with
  | .void, _ => [⟨.freeValue, result, caller⟩]
  | .value, none => [⟨.convert, result, caller⟩, ⟨.freeValue, result, caller⟩]
  | .value, some e =>
      ⟨.convert, result, caller⟩ :: exceptionCalls e caller ++ [⟨.freeValue, result, caller⟩]

def workCalls (call : JsCall) (caller : Thread) : List Call :=
  call.args.map (fun v => ⟨.convert, v, caller⟩) ++
    call.args.map (fun v => ⟨.freeValue, v, caller⟩) ++
    match call.outcome with
    | .returns _ _ => []
    | .throws e => exceptionCalls e caller

-- The work goes to the JS thread; its result is unwrapped where the caller is.
def invokeCalls (call : JsCall) (caller : Thread) : List Call :=
  onJsThread (workCalls call) caller ++
    match call.outcome with
    | .returns result failure => unwrapFreeCalls call result failure caller
    | .throws _ => []

def JsCall.raises (call : JsCall) : Bool :=
  match call.outcome with
  | .throws _ => true
  | .returns _ failure => call.ret == .value && failure.isSome

def madeOn (thread : Thread) (calls : List Call) : Prop :=
  ∀ call ∈ calls, call.thread = thread

@[simp] theorem madeOn_cons (thread : Thread) (call : Call) (rest : List Call) :
    madeOn thread (call :: rest) ↔ call.thread = thread ∧ madeOn thread rest := by
  simp only [madeOn, List.forall_mem_cons]

end BreezeJs.Binding
