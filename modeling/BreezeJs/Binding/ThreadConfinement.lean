import BreezeJs.Library.Transition
import BreezeJs.Binding.Value
import BreezeJs.Std.Timer

set_option autoImplicit false

namespace BreezeJs.Binding

open Transition

inductive Object where
  | value (self : Value)
  -- An empty `std::function` holds no closure.
  | function (closure : Option Value)
  | exception (self : Exception)
deriving DecidableEq, Repr

def Object.copyCalls (caller : Thread) : Object → List Call
  | .value self => self.copyCalls caller
  | .function none => []
  | .function (some closure) => closure.copyCalls caller
  | .exception _ => []

def Object.destroyCalls (caller : Thread) : Object → List Call
  | .value self => self.destroyCalls caller
  | .function none => []
  | .function (some closure) => closure.destroyCalls caller
  | .exception self => self.destroyCalls caller

def Object.movedFrom : Object → Object
  | .value self => .value self.movedFrom
  | .function _ => .function none
  | .exception self => .exception self

def Object.sameKind : Object → Object → Bool
  | .value _, .value _ => true
  | .function _, .function _ => true
  | _, _ => false

inductive Op where
  | wrap (v : Nat) (hasHolder : Bool)
  | adopt (v : Nat) (hasCtx hasHolder : Bool)
  | copy (source : Nat)
  | move (source : Nat)
  | copyAssign (target source : Nat)
  | moveAssign (target source : Nat)
  | release (source : Nat)
  | destroy (source : Nat)
  | as (source : Nat)
  | asFunction (source : Nat)
  | invoke (source : Nat) (call : JsCall)
  | getException (source pending : Nat)
deriving DecidableEq, Repr

structure Action where
  caller : Thread
  op : Op
deriving DecidableEq, Repr

structure Effect where
  objects : List (Option Object)
  calls : List Call
deriving DecidableEq, Repr

def lookup (objects : List (Option Object)) (source : Nat) : Option Object :=
  (objects[source]?).join

def apply (objects : List (Option Object)) (caller : Thread) : Op → Option Effect
  | .wrap v hasHolder =>
      some ⟨objects ++ [some (.value ⟨v, true, hasHolder⟩)], [⟨.convert, v, caller⟩]⟩
  | .adopt v hasCtx hasHolder => some ⟨objects ++ [some (.value ⟨v, hasCtx, hasHolder⟩)], []⟩
  | .copy source =>
      (lookup objects source).map fun rhs =>
        ⟨objects ++ [some rhs], rhs.copyCalls caller⟩
  | .move source =>
      (lookup objects source).map fun rhs =>
        ⟨objects.set source (some rhs.movedFrom) ++ [some rhs], []⟩
  | .copyAssign target source =>
      match lookup objects target, lookup objects source with
      | some old, some rhs =>
          if old.sameKind rhs then
            some ⟨objects.set target (some rhs), rhs.copyCalls caller ++ old.destroyCalls caller⟩
          else none
      | _, _ => none
  | .moveAssign target source =>
      match lookup objects target, lookup objects source with
      | some old, some rhs =>
          if old.sameKind rhs then
            -- After a self-assignment the old value is the moved-from one.
            let left := if target = source then rhs.movedFrom else old
            some ⟨(objects.set source (some rhs.movedFrom)).set target (some rhs),
              left.destroyCalls caller⟩
          else none
      | _, _ => none
  | .release source =>
      match lookup objects source with
      | some (.value self) => some ⟨objects.set source (some (.value self.release)), []⟩
      | _ => none
  | .destroy source =>
      (lookup objects source).map fun self =>
        ⟨objects.set source none, self.destroyCalls caller⟩
  | .as source =>
      match lookup objects source with
      | some (.value self) =>
          some ⟨objects, self.as (fun t => [⟨.convert, self.v, t⟩]) caller⟩
      | _ => none
  | .asFunction source =>
      match lookup objects source with
      | some (.value self) =>
          some ⟨objects ++ [some (.function (some (unwrapFunction self.v)))],
            self.as (unwrapFunctionCalls self.v) caller⟩
      | _ => none
  | .invoke source call =>
      match lookup objects source with
      | some (.function (some _)) =>
          some ⟨if call.raises then objects ++ [some (.exception Exception.new)] else objects,
            invokeCalls call caller⟩
      | _ => none
  | .getException source pending =>
      match lookup objects source with
      | some (.exception self) =>
          some ⟨objects.set source (some (.exception (self.get pending))),
            self.getCalls pending caller⟩
      | _ => none

structure State where
  objects : List (Option Object)
  calls : List Call
deriving DecidableEq, Repr

def initial : State :=
  { objects := []
    calls := [] }

def step (s : State) (a : Action) : Option State :=
  (apply s.objects a.caller a.op).map fun effect =>
    { objects := effect.objects
      calls := s.calls ++ effect.calls }

def system : System State Action :=
  { init := fun s => s = initial
    step := step }

def Object.fetched : Object → Bool
  | .exception self => self.value.isSome
  | _ => false

end BreezeJs.Binding
