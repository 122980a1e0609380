import DecimalRounding.Argument
import DecimalRounding.Binary64.Whole
import DecimalRounding.CallError
import DecimalRounding.Emit.RuntimeNames
import DecimalRounding.Number

/-!
# Built-in functions

A built-in function has a name, a range of argument counts, a documentation text, a value on
numbers known at compile time, and a text in every target language. The checks that functions
share stand beside it.
-/

namespace DecimalRounding

-- powers of numbers are those of the core library, also where algebra is in scope
attribute [local instance (high)] instPowNat

/-- A range of argument counts; empty when `most < least`. -/
structure ArgumentCounts where
  least : Nat
  most : Nat
deriving DecidableEq

/-- A function that templates can call. -/
structure Builtin where
  /-- The name it is called by. -/
  name : String
  /-- How many arguments it takes. -/
  counts : ArgumentCounts
  /-- What it does, for authors of templates. -/
  doc : String
  /-- Its value on numbers known at compile time. -/
  evaluate : List Number → Except CallError Number
  /-- A call of it in a target language. -/
  emit : Target → List Argument → Except CallError Fragment

/-! ### Checks -/

/-- The error of a call with a wrong number of arguments. -/
def ArgumentCounts.error (counts : ArgumentCounts) (function : String) (found : Nat) :
    CallError :=
  .ofCause (.arity function found counts.least counts.most)

/-- Is the number of arguments in the range? -/
def ArgumentCounts.check (counts : ArgumentCounts) (function : String) (found : Nat) :
    Except CallError Unit :=
  if counts.least ≤ found ∧ found ≤ counts.most then .ok ()
  else .error (counts.error function found)

/-- May the argument at an index be a number? -/
def StaticType.requireNumeric (type : StaticType) (function : String) (index : Nat) :
    Except CallError Unit :=
  if type.isNumeric then .ok ()
  else .error ((ArgumentFault.notNumber index type).toCallError function)

/-- May the argument at an index be an integer? -/
def StaticType.requireInteger (type : StaticType) (function : String) (index : Nat) :
    Except CallError Unit :=
  if type.isInteger then .ok ()
  else .error ((ArgumentFault.notInt index type).toCallError function)

/-- The value of an argument that has to be an integer. A binary64 number passes if it is whole
and below `2⁶³` in magnitude. -/
def Number.integerValue (number : Number) (function : String) (index : Nat) :
    Except CallError Int :=
  match number with
  | .int n => .ok n
  | .float x =>
    match x.truncate? with
    | some n =>
      if x.isWhole ∧ x.magnitudeLt (2 ^ (63 : Nat)) then .ok n
      else .error ((ArgumentFault.notWhole index x).toCallError function)
    | none => .error ((ArgumentFault.notWhole index x).toCallError function)

end DecimalRounding
