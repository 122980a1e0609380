import DecimalRounding.Decimal.Shortest
import DecimalRounding.StaticType

/-!
# Errors in calls of built-in functions

A call that cannot be compiled is reported with a cause and, where it is known, the place of the
call. A place once recorded is kept: `CallError.withSite` fills it in only where there is none,
so an error keeps the innermost place on its way out.
-/

namespace DecimalRounding

/-- A place in the text of a template. -/
structure SourcePosition where
  line : Nat
  column : Nat
  /-- Bytes before the place. -/
  offset : Nat
deriving DecidableEq

/-- The place in words, by line and column. -/
def SourcePosition.text (position : SourcePosition) : String :=
  "line " ++ toString position.line ++ ", column " ++ toString position.column

/-- What is wrong with a call. -/
inductive CallError.Cause where
  /-- The number of arguments is outside `least … most`. -/
  | arity (function : String) (found least most : Nat)
  /-- An argument is of the wrong type. -/
  | type (function detail : String)
  /-- The arguments are of the right types, but the function has no value there. -/
  | domain (function detail : String)
  /-- There is no function of that name. -/
  | unknownFunction (name : String)
deriving DecidableEq

/-- An error in a call, with the place of the call if it is known. -/
structure CallError where
  cause : CallError.Cause
  site : Option SourcePosition
deriving DecidableEq

namespace CallError

/-- The cause in words. -/
def Cause.message : Cause → String
  | .arity function found least most =>
    let expected := if least = most then toString least
      else toString least ++ "-" ++ toString most
    "Function '" ++ function ++ "' called with " ++ toString found ++
      " arguments (expected " ++ expected ++ ")"
  | .type function detail => "Type error in '" ++ function ++ "': " ++ detail
  | .domain function detail => "Domain error in '" ++ function ++ "': " ++ detail
  | .unknownFunction name => "Unknown function: " ++ name

/-- The error in words, after the place of the call if it is known. -/
def message (error : CallError) : String :=
  match error.site with
  | some position => position.text ++ ": " ++ error.cause.message
  | none => error.cause.message

/-- An error whose place is not known yet. -/
def ofCause (cause : Cause) : CallError := ⟨cause, none⟩

/-- Records the place of the call, unless a place is recorded already. -/
def withSite (error : CallError) (site : Option SourcePosition) : CallError :=
  { error with site := error.site <|> site }

end CallError

/-! ### Unsuitable arguments -/

/-- What is wrong with the argument at an index, counted from zero. -/
inductive ArgumentFault where
  /-- A number was needed. -/
  | notNumber (index : Nat) (found : StaticType)
  /-- An integer was needed. -/
  | notInt (index : Nat) (found : StaticType)
  /-- A binary64 number with an integer value was needed. -/
  | notWhole (index : Nat) (found : Binary64)
deriving DecidableEq

/-- The fault in words, which count arguments from one. -/
def ArgumentFault.message : ArgumentFault → String
  | .notNumber index found =>
    "argument " ++ toString (index + 1) ++ " must be a number, found " ++ found.name
  | .notInt index found =>
    "argument " ++ toString (index + 1) ++ " must be an int, found " ++ found.name
  | .notWhole index found =>
    "argument " ++ toString (index + 1) ++ " must be an integer value, found " ++ found.text

/-- The type error of a function that reports a fault. -/
def ArgumentFault.toCallError (fault : ArgumentFault) (function : String) : CallError :=
  .ofCause (.type function fault.message)

end DecimalRounding
