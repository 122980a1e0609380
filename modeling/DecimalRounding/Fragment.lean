import DecimalRounding.Operator

/-!
# Fragments of generated text

A fragment is the text of an expression together with the precedence of its outermost operator.
Composed fragments put parentheses around an operand exactly when it binds looser than its place
demands (`Fragment.guarded`): on the left of a binary operator the operator's own precedence, on
the right one more, since equal precedences group from the left.
-/

namespace DecimalRounding

-- powers of numbers are those of the core library, also where algebra is in scope
attribute [local instance (high)] instPowNat

/-- The text of an expression and how tightly its outermost operator binds. -/
structure Fragment where
  text : String
  precedence : Int
deriving DecidableEq

namespace Fragment

/-- The precedence of what needs no parentheses anywhere: names, literals, calls. It is the
largest integer of 32 bits. -/
def atomicPrecedence : Int := 2 ^ (31 : Nat) - 1

/-- A fragment that needs no parentheses anywhere. -/
def atom (text : String) : Fragment := ⟨text, atomicPrecedence⟩

/-- Does it need no parentheses anywhere? -/
def isAtomic (fragment : Fragment) : Bool := fragment.precedence == atomicPrecedence

/-- An integer literal; a negative one binds like its minus sign. -/
def intLiteral (n : Int) : Fragment :=
  if n < 0 then ⟨toString n, Operator.negative.precedence⟩ else atom (toString n)

/-- The text for a place that demands the precedence `least`. -/
def guarded (fragment : Fragment) (least : Int) : String :=
  if fragment.precedence < least then "(" ++ fragment.text ++ ")" else fragment.text

/-- A call. The texts of the arguments stand between commas, which bind looser than everything
else, and are never wrapped. -/
def call (callee : String) (arguments : List String) : Fragment :=
  atom (callee ++ "(" ++ ", ".intercalate arguments ++ ")")

/-- Two operands joined by a binary operator. -/
def binary (operator : Operator) (left right : Fragment) : Fragment :=
  let precedence := operator.precedence
  ⟨left.guarded precedence ++ " " ++ operator.token ++ " " ++ right.guarded (precedence + 1),
    precedence⟩

end Fragment

end DecimalRounding
