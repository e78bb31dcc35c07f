import Mathlib.Logic.Basic

/-!
# JavaScript values as the stream classes see them

The stream classes store, compare and pass on values; they look inside a value
only to test whether it is a symbol, an object or an error they made themselves.
-/

namespace Llrt.StreamWeb

/-- `Symbol.for(key)` is one symbol for each key; `Symbol()` is a new symbol at
each call. -/
inductive Symbol where
  | registered (key : String)
  | unique (id : Nat)
  deriving DecidableEq

/-- A JavaScript value. A number is its IEEE-754 bit pattern and an object its
identity; the errors the streams construct carry their message, and the arrays of two
values that they construct carry the values. -/
inductive Value where
  | undefined
  | null
  | bool (b : Bool)
  | number (bits : UInt64)
  | string (s : String)
  | symbol (s : Symbol)
  | object (id : Nat)
  | typeError (message : String)
  | rangeError (message : String)
  | internalError (message : String)
  | pair (first second : Value)
  deriving DecidableEq

end Llrt.StreamWeb

namespace Llrt.StreamWeb

/-- How a promise was settled. -/
inductive Settlement where
  | fulfilled
  | rejected (e : Value)
  deriving DecidableEq

/-- A promise as its holder sees it. -/
inductive PromiseState where
  | pending
  | fulfilled
  | rejected (e : Value)
  deriving DecidableEq

namespace PromiseState

/-- `ResolveablePromise::resolve_undefined`: a settled promise stays as it is. -/
def resolve : PromiseState → PromiseState
  | pending => fulfilled
  | p => p

def reject (e : Value) : PromiseState → PromiseState
  | pending => rejected e
  | p => p

def settle (p : PromiseState) : Settlement → PromiseState
  | .fulfilled => p.resolve
  | .rejected e => p.reject e

def of : Settlement → PromiseState
  | .fulfilled => fulfilled
  | .rejected e => rejected e

def settlement : PromiseState → Option Settlement
  | pending => none
  | fulfilled => some .fulfilled
  | rejected e => some (.rejected e)

def isRejected : PromiseState → Bool
  | rejected _ => true
  | _ => false

end PromiseState

end Llrt.StreamWeb
