import DecimalRounding.Fragment
import DecimalRounding.Proofs.SourceTokens
import Mathlib.Data.Int.Order.Basic

/-!
# The grammar of generated text

The operator table is a grammar: an operator with a higher precedence binds tighter, binary
operators group from the left, the conditional from the right, and signs in front of an operand
bind tighter than all of them. Names, numerals, calls and parentheses are atomic, and arguments of
a call are unrestricted. `Derives` says which tokens are an expression of which level, and `Reads`
which text.

The grammar is unambiguous (`Reads.unique`): from left to right, a stack of what still lacks its
last part decides at each operator how much of it is complete (`settle`), and whatever derivation
there is, this reader ends up with its tree (`Derives.walks`).
-/

namespace DecimalRounding

/-- Does it stand in front of its operand? -/
def Operator.isUnary : Operator → Bool
  | .negative | .not => true
  | _ => false

/-- An expression, as it is read from text. -/
inductive SourceTree where
  | name (text : String)
  | numeral (value : Decimal)
  | unary (operator : Operator) (operand : SourceTree)
  | binary (operator : Operator) (left right : SourceTree)
  | conditional (condition first second : SourceTree)
  | call (callee : String) (arguments : List SourceTree)

namespace SourceTree

/-- The precedence of the outermost operator. -/
def precedence : SourceTree → ℤ
  | .unary operator _ | .binary operator _ _ => operator.precedence
  | .conditional .. => Operator.conditional.precedence
  | .name _ | .numeral _ | .call .. => Fragment.atomicPrecedence

end SourceTree

/-- The level of the conditional, which binds loosest. -/
def loosest : ℤ := Operator.conditional.precedence

/-! ### Derivations -/

/-- What tokens can be derived as. -/
inductive Phrase where
  /-- An expression of a level: an operand of whatever demands no more than that. -/
  | expression (level : ℤ) (tree : SourceTree)
  /-- What stands between the brackets of a call. -/
  | arguments (trees : List SourceTree)

/-- The grammar of the operator table. -/
inductive Derives : List Token → Phrase → Prop
  | name (text : String) : Derives [.name text] (.expression Fragment.atomicPrecedence (.name text))
  | numeral (value : Decimal) :
    Derives [.numeral value] (.expression Fragment.atomicPrecedence (.numeral value))
  | parenthesized {ts level tree} (inner : Derives ts (.expression level tree)) :
    Derives (.opening :: ts ++ [.closing]) (.expression Fragment.atomicPrecedence tree)
  | call {ts trees} (callee : String) (inner : Derives ts (.arguments trees)) :
    Derives (.name callee :: .opening :: ts ++ [.closing])
      (.expression Fragment.atomicPrecedence (.call callee trees))
  | unary {operator : Operator} {ts level tree} (unary : operator.isUnary)
    (operand : Derives ts (.expression level tree)) (le : operator.precedence ≤ level) :
    Derives (.sign operator.token :: ts)
      (.expression operator.precedence (.unary operator tree))
  | binary {operator : Operator} {ts us l r left right} (binary : operator.isBinary)
    (first : Derives ts (.expression l left)) (second : Derives us (.expression r right))
    (le : operator.precedence ≤ l) (lt : operator.precedence + 1 ≤ r) :
    Derives (ts ++ .sign operator.token :: us)
      (.expression operator.precedence (.binary operator left right))
  | conditional {ts us vs l m r condition first second}
    (test : Derives ts (.expression l condition)) (yes : Derives us (.expression m first))
    (no : Derives vs (.expression r second)) (lt : loosest + 1 ≤ l)
    (le : loosest ≤ r) :
    Derives (ts ++ .question :: (us ++ .colon :: vs))
      (.expression loosest (.conditional condition first second))
  | none : Derives [] (.arguments [])
  | single {ts level tree} (first : Derives ts (.expression level tree)) :
    Derives ts (.arguments [tree])
  | more {ts us level tree next trees} (first : Derives ts (.expression level tree))
    (others : Derives us (.arguments (next :: trees))) :
    Derives (ts ++ .comma :: us) (.arguments (tree :: next :: trees))

/-- A text is an expression of a level. -/
def Reads (text : String) (level : ℤ) (tree : SourceTree) : Prop :=
  ∃ ts, Token.ofText text = some ts ∧ Derives ts (.expression level tree)

/-! ### Reading from left to right -/

/-- An expression that lacks its last part. -/
inductive Frame where
  | parenthesis
  | call (callee : String) (before : List SourceTree)
  | unary (operator : Operator)
  | binary (operator : Operator) (left : SourceTree)
  | question (condition : SourceTree)
  | colon (condition first : SourceTree)

namespace Frame

/-- The expression and its level, if an operand is all that the frame lacks. -/
def fill : Frame → SourceTree → Option (ℤ × SourceTree)
  | .unary operator, tree => some (operator.precedence, .unary operator tree)
  | .binary operator left, tree => some (operator.precedence, .binary operator left tree)
  | .colon condition first, tree =>
    some (loosest, .conditional condition first tree)
  | .parenthesis, _ | .call .., _ | .question _, _ => none

/-- May an operand of this level stand in the frame? -/
def Admits (level : ℤ) : Frame → Prop
  | .unary operator => operator.isUnary ∧ operator.precedence ≤ level
  | .binary operator _ => operator.precedence + 1 ≤ level
  | .colon .. => loosest ≤ level
  | .parenthesis | .call .. | .question _ => True

end Frame

/-- An operand that has been read, and the frames around it, the innermost first. -/
structure Operand where
  frames : List Frame
  level : ℤ
  tree : SourceTree

/-- Completes the frames of level `least` or more. -/
def settle (least : ℤ) : List Frame → ℤ → SourceTree → Operand
  | [], level, tree => ⟨[], level, tree⟩
  | frame :: frames, level, tree => match frame.fill tree with
    | some (outer, filled) =>
      if least ≤ outer then settle least frames outer filled else ⟨frame :: frames, level, tree⟩
    | none => ⟨frame :: frames, level, tree⟩

/-- Completes an operand to an expression of level `least` or more. -/
def Operand.settle (least : ℤ) (operand : Operand) : Operand :=
  DecimalRounding.settle least operand.frames operand.level operand.tree

/-- The operator in front of an operand, by its token. -/
def unary? (token : String) : Option Operator :=
  [Operator.negative, .not].find? (·.token = token)

/-- The operator between two operands, by its token. -/
def binary? (token : String) : Option Operator :=
  [Operator.times, .divideBy, .mod, .plus, .minus, .lessThan, .greaterThan, .lessThanOrEqual,
    .greaterThanOrEqual, .equal, .notEqual, .and, .or].find? (·.token = token)

/-- Where the reader stands. -/
inductive Position where
  /-- In front of an operand. -/
  | before (frames : List Frame)
  /-- Behind an operand. -/
  | behind (operand : Operand)

/-- Reads a token where an operand is due. -/
def enter (frames : List Frame) : Token → Option Position
  | .name text => some (.behind ⟨frames, Fragment.atomicPrecedence, .name text⟩)
  | .numeral value => some (.behind ⟨frames, Fragment.atomicPrecedence, .numeral value⟩)
  | .opening => some (.before (.parenthesis :: frames))
  | .sign text => (unary? text).map fun operator => .before (.unary operator :: frames)
  | .closing => match frames with
    | .call callee [] :: frames =>
      some (.behind ⟨frames, Fragment.atomicPrecedence, .call callee []⟩)
    | _ => none
  | .comma | .question | .colon => none

/-- Reads a token behind an operand. -/
def leave (operand : Operand) : Token → Option Position
  | .sign text => (binary? text).map fun operator =>
    let left := operand.settle operator.precedence
    .before (.binary operator left.tree :: left.frames)
  | .question =>
    let condition := operand.settle (loosest + 1)
    some (.before (.question condition.tree :: condition.frames))
  | .colon => match operand.settle loosest with
    | ⟨.question condition :: frames, _, tree⟩ => some (.before (.colon condition tree :: frames))
    | _ => none
  | .opening => match operand with
    | ⟨frames, _, .name callee⟩ => some (.before (.call callee [] :: frames))
    | _ => none
  | .comma => match operand.settle loosest with
    | ⟨.call callee before :: frames, _, tree⟩ =>
      some (.before (.call callee (before ++ [tree]) :: frames))
    | _ => none
  | .closing => match operand.settle loosest with
    | ⟨.parenthesis :: frames, _, tree⟩ => some (.behind ⟨frames, Fragment.atomicPrecedence, tree⟩)
    | ⟨.call callee before :: frames, _, tree⟩ =>
      some (.behind ⟨frames, Fragment.atomicPrecedence, .call callee (before ++ [tree])⟩)
    | _ => none
  | .name _ | .numeral _ => none

/-- Reads a token. -/
def advance : Position → Token → Option Position
  | .before frames => enter frames
  | .behind operand => leave operand

variable {ts : List Token} {frame : Frame} {frames : List Frame} {operand : Operand}
  {operator : Operator} {level least outer : ℤ} {tree filled : SourceTree} {phrase : Phrase}

/-! ### What is complete -/

/-- Nothing is completed where the innermost frame stays open, or where none is left. -/
theorem settle_of_fill_lt
    (h : ∀ frame ∈ frames.head?, ∀ p ∈ frame.fill tree, p.1 < least) :
    settle least frames level tree = ⟨frames, level, tree⟩ := by
  cases frames with
  | nil => rfl
  | cons frame frames =>
    cases hfill : frame.fill tree with
    | none => simp [settle, hfill]
    | some p => simp [settle, hfill, not_le.mpr (h frame rfl p hfill)]

/-- A frame of level `least` or more becomes the operand of the next one. -/
theorem settle_cons_of_le (hfill : frame.fill tree = some (outer, filled)) (hle : least ≤ outer) :
    settle least (frame :: frames) level tree = settle least frames outer filled := by
  simp [settle, hfill, hle]

theorem settle_cons_of_fill_eq_none (hfill : frame.fill tree = none) :
    settle least (frame :: frames) level tree = ⟨frame :: frames, level, tree⟩ := by
  simp [settle, hfill]

/-- The signs have one precedence. -/
theorem Operator.precedence_of_isUnary (hop : operator.isUnary) :
    operator.precedence = Operator.negative.precedence := by
  cases operator <;> first | rfl | cases hop

/-- Binary operators bind tighter than the conditional and looser than the signs. -/
theorem Operator.precedence_of_isBinary (hop : operator.isBinary) :
    loosest < operator.precedence ∧ operator.precedence < Operator.negative.precedence := by
  revert hop
  cases operator <;> decide

/-- A frame around an expression of a level below that of the signs stays open behind the first
operand of that expression, which is complete from `least` on. -/
theorem Frame.fill_lt (hadmits : frame.Admits level) (hlevel : level < Operator.negative.precedence)
    (hle : level ≤ least) (hleast : loosest < least) : ∀ p ∈ frame.fill tree, p.1 < least := by
  intro p hp
  cases frame with
  | parenthesis | call | question => cases hp
  | unary outer =>
    have hunary := hadmits.2
    rw [Operator.precedence_of_isUnary hadmits.1] at hunary
    exact absurd hlevel (not_lt.mpr hunary)
  | binary outer left =>
    cases hp
    exact (Int.lt_of_add_one_le hadmits).trans_le hle
  | colon condition first =>
    cases hp
    exact hleast

theorem Frame.Admits.mono (h : frame.Admits least) (hle : least ≤ level) : frame.Admits level := by
  cases frame with
  | parenthesis | call | question => trivial
  | unary outer => exact ⟨h.1, h.2.trans hle⟩
  | binary outer left => exact le_trans h hle
  | colon condition first => exact le_trans h hle

theorem unary?_token (hop : operator.isUnary) : unary? operator.token = some operator := by
  cases operator <;> first | rfl | cases hop

/-- No two binary operators have one token. -/
theorem binary?_token (hop : operator.isBinary) : binary? operator.token = some operator := by
  cases operator <;> first | rfl | cases hop

/-! ### Derivations are walked through -/

/-- All expressions have a level from the operator table. -/
theorem Derives.loosest_le (h : Derives ts (.expression level tree)) : loosest ≤ level := by
  cases h with
  | name | numeral | parenthesized | call => decide
  | unary hop =>
    rw [Operator.precedence_of_isUnary hop]
    decide
  | binary hop => exact (Operator.precedence_of_isBinary hop).1.le
  | conditional => exact le_rfl

/-- What the reader does with the tokens of a phrase. Behind those of an expression it may have
frames of its own left, but none that a looser operator would not complete; so it stands where it
would stand behind the expression as a whole. -/
def Walks (ts : List Token) : Phrase → Prop
  | .expression level tree => ∀ frames : List Frame, (∀ frame ∈ frames.head?, frame.Admits level) →
    ∃ operand, walk advance (.before frames) ts = some (.behind operand) ∧
      ∀ least ≤ level, operand.settle least = settle least frames level tree
  | .arguments trees => ∀ callee before frames, (trees = [] → before = []) →
    walk advance (.before (.call callee before :: frames)) (ts ++ [.closing]) =
      some (.behind ⟨frames, Fragment.atomicPrecedence, .call callee (before ++ trees)⟩)

/-- Behind an expression in brackets, or between a question mark and its colon, all but the frame
around it is complete. -/
theorem Walks.inside (h : Walks ts (.expression level tree)) (frame : Frame) (frames : List Frame)
    (hlevel : loosest ≤ level) (hadmits : frame.Admits level) (hfill : frame.fill tree = none) :
    ∃ operand, walk advance (.before (frame :: frames)) ts = some (.behind operand) ∧
      operand.settle loosest = ⟨frame :: frames, level, tree⟩ := by
  obtain ⟨operand, hwalk, hsettle⟩ := h (frame :: frames) (by rintro _ ⟨⟩; exact hadmits)
  exact ⟨operand, hwalk,
    (hsettle loosest hlevel).trans (settle_cons_of_fill_eq_none hfill)⟩

/-- In front of an operator, the operand to its left is complete, and no frame around that. -/
theorem Walks.left {l : ℤ} (h : Walks ts (.expression l tree))
    (hframes : ∀ frame ∈ frames.head?, frame.Admits level)
    (hlevel : level < Operator.negative.precedence) (hle : level ≤ least)
    (hleast : loosest < least) (hl : least ≤ l) :
    ∃ operand, walk advance (.before frames) ts = some (.behind operand) ∧
      operand.settle least = ⟨frames, l, tree⟩ := by
  obtain ⟨operand, hwalk, hsettle⟩ := h frames fun frame hframe =>
    (hframes frame hframe).mono (hle.trans hl)
  refine ⟨operand, hwalk, (hsettle least hl).trans (settle_of_fill_lt fun frame hframe => ?_)⟩
  exact Frame.fill_lt (hframes frame hframe) hlevel hle hleast

/-- Behind all that a frame lacks, the reader stands as behind the completed expression. -/
theorem Walks.completes (h : Walks ts (.expression level tree)) (frame : Frame)
    (frames : List Frame) (hadmits : frame.Admits level)
    (hfill : frame.fill tree = some (outer, filled)) (hle : outer ≤ level) :
    ∃ operand, walk advance (.before (frame :: frames)) ts = some (.behind operand) ∧
      ∀ least ≤ outer, operand.settle least = settle least frames outer filled := by
  obtain ⟨operand, hwalk, hsettle⟩ := h (frame :: frames) (by rintro _ ⟨⟩; exact hadmits)
  refine ⟨operand, hwalk, fun least hleast => ?_⟩
  rw [hsettle least (hleast.trans hle)]
  exact settle_cons_of_le hfill hleast

/-- By induction on the derivation: from every place where the phrase may stand, the reader comes to
the tree of the derivation. -/
theorem Derives.walks (h : Derives ts phrase) : Walks ts phrase := by
  induction h with
  | name text => exact fun frames _ => ⟨_, rfl, fun _ _ => rfl⟩
  | numeral value => exact fun frames _ => ⟨_, rfl, fun _ _ => rfl⟩
  | parenthesized inner ih =>
    intro frames _
    obtain ⟨operand, hwalk, hsettle⟩ :=
      ih.inside .parenthesis frames inner.loosest_le trivial rfl
    refine ⟨⟨frames, Fragment.atomicPrecedence, _⟩, ?_, fun _ _ => rfl⟩
    simp [advance, enter, walk_append hwalk, leave, hsettle]
  | call callee inner ih =>
    intro frames _
    refine ⟨⟨frames, Fragment.atomicPrecedence, _⟩, ?_, fun _ _ => rfl⟩
    have hwalk := ih callee [] frames fun _ => rfl
    simpa [advance, enter, leave] using hwalk
  | @unary operator ts level tree hop inner hle ih =>
    intro frames _
    obtain ⟨operand, hwalk, hsettle⟩ := ih.completes (.unary operator) frames ⟨hop, hle⟩ rfl hle
    refine ⟨operand, ?_, hsettle⟩
    simp [advance, enter, unary?_token hop, hwalk]
  | @binary operator ts us l r left right hop first second hle hlt ih₁ ih₂ =>
    intro frames hframes
    have hprec := Operator.precedence_of_isBinary hop
    obtain ⟨operand₁, hwalk₁, hsettle₁⟩ := ih₁.left hframes hprec.2 le_rfl hprec.1 hle
    obtain ⟨operand₂, hwalk₂, hsettle₂⟩ :=
      ih₂.completes (.binary operator left) frames hlt rfl (by omega)
    refine ⟨operand₂, ?_, hsettle₂⟩
    simp [walk_append hwalk₁, advance, leave, binary?_token hop, hsettle₁, hwalk₂]
  | @conditional ts us vs l m r condition first second test yes no hlt hle ih₁ ih₂ ih₃ =>
    intro frames hframes
    obtain ⟨operand₁, hwalk₁, hsettle₁⟩ :=
      ih₁.left hframes (by decide) (by omega) (Int.lt_succ loosest) hlt
    obtain ⟨operand₂, hwalk₂, hsettle₂⟩ :=
      ih₂.inside (.question condition) frames yes.loosest_le trivial rfl
    obtain ⟨operand₃, hwalk₃, hsettle₃⟩ := ih₃.completes (.colon condition first) frames hle rfl hle
    refine ⟨operand₃, ?_, hsettle₃⟩
    simp [walk_append hwalk₁, walk_append hwalk₂, advance, leave, hsettle₁, hsettle₂, hwalk₃]
  | none =>
    intro callee before frames hbefore
    simp [hbefore rfl, advance, enter]
  | single first ih =>
    intro callee before frames _
    obtain ⟨operand, hwalk, hsettle⟩ :=
      ih.inside (.call callee before) frames first.loosest_le trivial rfl
    simp [walk_append hwalk, advance, leave, hsettle]
  | @more ts us level tree next trees first others ih₁ ih₂ =>
    intro callee before frames _
    obtain ⟨operand, hwalk, hsettle⟩ :=
      ih₁.inside (.call callee before) frames first.loosest_le trivial rfl
    have hothers := ih₂ callee (before ++ [tree]) frames (by simp)
    simp [walk_append hwalk, advance, leave, hsettle, hothers]

/-- The level and the tree of tokens that make up a whole text. -/
def readTokens (ts : List Token) : Option (ℤ × SourceTree) :=
  match walk advance (.before []) ts with
  | some (.behind operand) => match operand.settle loosest with
    | ⟨[], level, tree⟩ => some (level, tree)
    | _ => none
  | _ => none

theorem Derives.readTokens_eq (h : Derives ts (.expression level tree)) :
    readTokens ts = some (level, tree) := by
  obtain ⟨operand, hwalk, hsettle⟩ := h.walks [] (by rintro _ ⟨⟩)
  have hall := hsettle loosest h.loosest_le
  simp [readTokens, hwalk, hall, settle]

/-- **No ambiguity.** A text is an expression of at most one level, and with one tree. -/
theorem Reads.unique {text : String} {level' : ℤ} {tree' : SourceTree} (h : Reads text level tree)
    (h' : Reads text level' tree') : level' = level ∧ tree' = tree := by
  obtain ⟨ts, hts, hderives⟩ := h
  obtain ⟨us, hus, hderives'⟩ := h'
  obtain rfl := Option.some.inj (hts.symm.trans hus)
  have heq := hderives'.readTokens_eq.symm.trans hderives.readTokens_eq
  simpa using heq

end DecimalRounding
