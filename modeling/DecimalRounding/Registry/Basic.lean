import DecimalRounding.Builtin.Round

/-!
# The registry of built-in functions

A registry holds built-in functions by name, in ascending order of names by code point; a
function registered under a name already taken replaces the one there.

A call is looked up, its argument count is checked, and only then the function runs
(`Registry.dispatch`). Whichever of the three fails, the error gets the place of the call unless
it has one already.
-/

namespace DecimalRounding

/-- Built-in functions by name. -/
structure Registry where
  /-- The functions, in ascending order of their names. -/
  functions : List Builtin

namespace Registry

/-- No functions. -/
def empty : Registry := ⟨[]⟩

/-- Puts a function in the place of its name, replacing one of the same name. -/
def place (function : Builtin) : List Builtin → List Builtin
  | [] => [function]
  | head :: rest =>
    if function.name < head.name then function :: head :: rest
    else if head.name < function.name then head :: place function rest
    else function :: rest

/-- Registers a function under its name. -/
def register (registry : Registry) (function : Builtin) : Registry :=
  ⟨place function registry.functions⟩

/-- The function of a name. -/
def lookup (registry : Registry) (name : String) : Option Builtin :=
  registry.functions.find? (·.name == name)

/-- The documentation of the function of a name. -/
def doc (registry : Registry) (name : String) : Option String :=
  (registry.lookup name).map (·.doc)

/-- The names of all functions, ascending. -/
def names (registry : Registry) : List String := registry.functions.map (·.name)

/-- Registers the built-in functions of the library, with the names that generated code
calls. -/
def registerBuiltins (registry : Registry) (names : RuntimeNames) : Registry :=
  registry.register (Round.builtin names)

/-- The registry of the library's built-in functions. -/
def builtins : Registry := empty.registerBuiltins {}

/-! ### Dispatch -/

/-- The function that a call means, if it takes so many arguments. -/
def resolve (registry : Registry) (name : String) (found : Nat) : Except CallError Builtin :=
  match registry.lookup name with
  | none => .error (.ofCause (.unknownFunction name))
  | some function =>
    match function.counts.check function.name found with
    | .ok () => .ok function
    | .error error => .error error

/-- Runs an operation of the function that a call means, and gives errors the place of the
call. -/
def dispatch {α : Type} (registry : Registry) (name : String) (found : Nat)
    (site : Option SourcePosition) (run : Builtin → Except CallError α) : Except CallError α :=
  ((registry.resolve name found).bind run).mapError (·.withSite site)

/-- The value of a call on known numbers. -/
def evaluate (registry : Registry) (name : String) (args : List Number)
    (site : Option SourcePosition) : Except CallError Number :=
  registry.dispatch name args.length site (·.evaluate args)

/-- The text of a call in a target language. -/
def emit (registry : Registry) (target : Target) (name : String) (args : List Argument)
    (site : Option SourcePosition) : Except CallError Fragment :=
  registry.dispatch name args.length site (·.emit target args)

end Registry

end DecimalRounding
