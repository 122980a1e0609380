import DecimalRounding.Emit.Python
import DecimalRounding.Proofs.SourceTokens

/-!
# Reading Python expressions

The expressions that generated Python text is made of: names, numerals, calls, items in square
brackets, parentheses, signs, the operators of the operator table between two numbers, and powers.
A power binds tighter than a sign in front of its base and groups from the right, and its exponent
may have a sign of its own; the other operators are read as the table says.

The reader goes through the text once, from left to right, with a stack of what still lacks its
last part. What it does inside brackets does not depend on what is around them (`walk_within`), so
an expression that is read by itself is read the same as the argument of a call (`walk_call`).
Hence the outward nudge is read as the tree `nudgedTree`, whatever text the number is
(`read_nudgedText`).
-/

namespace DecimalRounding.Python

/-! ### Parts -/

/-- A part of the text of an expression. -/
inductive Part where
  /-- A name, possibly qualified as in `math.frexp`. -/
  | name (text : String)
  /-- A numeral without a point. -/
  | integer (n : ℕ)
  /-- A numeral with a point. -/
  | decimal (value : Decimal)
  /-- A bracket, a comma, or an operator of one character. -/
  | symbol (c : Char)
  /-- The operator of powers. -/
  | power
deriving DecidableEq

/-- The symbols of one character. -/
def symbols : List Char := ['(', ')', '[', ']', ',', '*', '/', '%', '+', '-']

/-- What a word stands for. -/
def ofWord (word : List Char) : Option Part :=
  if Token.isName word then some (.name (String.ofList word))
  else if word.all Char.isDigit then some (.integer (Nat.ofDigitChars 10 word 0))
  else (Token.numeral? word).map .decimal

/-- The part of a word that has ended. Without a word there is none. -/
def finish : List Char → Option (List Part)
  | [] => some []
  | word => (ofWord word).map ([·])

/-- What a character that belongs to no word stands for by itself: a blank for nothing. -/
def separator? (c : Char) : Option (List Part) :=
  if c.isWhitespace then some [] else if c ∈ symbols then some [.symbol c] else none

/-- The parts of a word that has ended, of what ended it, and of the rest. -/
def endWord (word : List Char) (ending : List Part) (rest : Option (List Part)) :
    Option (List Part) := do
  return (← finish word) ++ ending ++ (← rest)

/-- The parts of a text of which a first word is already begun. -/
def scan (word : List Char) : List Char → Option (List Part)
  | [] => finish word
  | '*' :: '*' :: cs => endWord word [.power] (scan [] cs)
  | c :: cs =>
    if Token.isWordChar c then scan (word ++ [c]) cs
    else (separator? c).bind fun ending => endWord word ending (scan [] cs)

section

variable {word cs rest : List Char} {ending ts us : List Part}
  {scanned scanned' : Option (List Part)} {c : Char}

/-- What follows the scanned text is appended to its parts. -/
theorem endWord_append (hts : endWord word ending scanned = some ts)
    (h : ∀ vs, scanned = some vs → scanned' = some (vs ++ us)) :
    endWord word ending scanned' = some (ts ++ us) := by
  obtain ⟨first, hfirst, hrest⟩ := Option.bind_eq_some_iff.mp hts
  obtain ⟨second, hsecond, hall⟩ := Option.bind_eq_some_iff.mp hrest
  cases hall
  simp [endWord, hfirst, h second hsecond]

theorem scan_cons_of_ne (h : ∀ rest, c = '*' → cs ≠ '*' :: rest) :
    scan word (c :: cs) =
      if Token.isWordChar c then scan (word ++ [c]) cs
      else (separator? c).bind fun ending => endWord word ending (scan [] cs) := by
  rw [scan]
  exact h

theorem separator?_of_bracket (hc : c ∈ ['(', ')', '[', ']']) :
    c ≠ '*' ∧ Token.isWordChar c = false ∧ separator? c = some [.symbol c] := by
  have hall : ['(', ')', '[', ']'].all fun d =>
      d ≠ '*' ∧ Token.isWordChar d = false ∧ separator? d = some [.symbol d] := by decide
  simpa using List.all_eq_true.mp hall c hc

/-- Text can be scanned piece by piece where its pieces meet at a bracket. -/
theorem scan_append_bracket (hc : c ∈ ['(', ')', '[', ']']) (hts : scan word cs = some ts)
    (hus : scan [] rest = some us) :
    scan word (cs ++ c :: rest) = some (ts ++ .symbol c :: us) := by
  obtain ⟨hstar, hword, hseparator⟩ := separator?_of_bracket hc
  fun_induction scan word cs generalizing ts with
  | case1 word =>
    rw [List.nil_append, scan_cons_of_ne (by simp [hstar]), if_neg (by simp [hword]), hseparator]
    simp [endWord, hts, hus]
  | case2 word cs ih => exact endWord_append hts fun vs hvs => ih hvs
  | case3 word d cs hne hd ih =>
    rw [List.cons_append, scan_cons_of_ne, if_pos hd]
    · exact ih hts
    · cases cs <;> simp_all
  | case4 word d cs hne hd ih =>
    obtain ⟨ending, hending, hscan⟩ := Option.bind_eq_some_iff.mp hts
    rw [List.cons_append, scan_cons_of_ne, if_neg hd, hending]
    · exact endWord_append hscan fun vs hvs => ih hvs
    · cases cs <;> simp_all

theorem scan_parenthesized {left inner right : List Char} {vs : List Part}
    (hleft : scan [] left = some ts) (hinner : scan [] inner = some us)
    (hright : scan [] right = some vs) :
    scan [] (left ++ '(' :: (inner ++ ')' :: right)) =
      some (ts ++ .symbol '(' :: (us ++ .symbol ')' :: vs)) :=
  scan_append_bracket (by simp) hleft (scan_append_bracket (by simp) hinner hright)

end

/-! ### Trees -/

/-- An expression, as it is read from text. -/
inductive Tree where
  | name (text : String)
  | integer (n : ℕ)
  | decimal (value : Decimal)
  | negative (operand : Tree)
  | power (base exponent : Tree)
  | binary (operator : Operator) (left right : Tree)
  | call (callee : String) (arguments : List Tree)
  | item (tuple index : Tree)

/-- The function that is called where the expression stands in front of an opening bracket. -/
def Tree.callee? : Tree → Option String
  | .name text => some text
  | _ => none

/-- The operator between two operands, by its symbol. -/
def binary? : Char → Option Operator
  | '*' => some .times
  | '/' => some .divideBy
  | '%' => some .mod
  | '+' => some .plus
  | '-' => some .minus
  | _ => none

/-- The level of the operators that bind loosest. -/
def loosest : ℤ := Operator.plus.precedence

/-! ### Reading from left to right -/

/-- An expression that lacks its last part. -/
inductive Frame where
  | parenthesis
  | call (callee : String) (before : List Tree)
  | item (tuple : Tree)
  | negative
  | power (base : Tree)
  | binary (operator : Operator) (left : Tree)

namespace Frame

/-- The expression and its level, if an operand is all that the frame lacks. -/
def fill : Frame → Tree → Option (ℤ × Tree)
  | .negative, tree => some (Operator.negative.precedence, .negative tree)
  | .power base, tree => some (Operator.negative.precedence, .power base tree)
  | .binary operator left, tree => some (operator.precedence, .binary operator left tree)
  | .parenthesis, _ | .call .., _ | .item _, _ => none

/-- Does the frame end with a bracket? -/
def IsBracket (frame : Frame) : Prop := ∀ tree, frame.fill tree = none

end Frame

/-- Completes the frames of level `least` or more around an operand. What is left is the frames
that are not complete and the expression inside them. -/
def settle (least : ℤ) : List Frame → Tree → List Frame × Tree
  | [], tree => ([], tree)
  | frame :: frames, tree => match frame.fill tree with
    | some (level, filled) =>
      if least ≤ level then settle least frames filled else (frame :: frames, tree)
    | none => (frame :: frames, tree)

/-- Where the reader stands; the innermost frame comes first. -/
inductive Position where
  /-- In front of an operand. -/
  | before (frames : List Frame)
  /-- Behind an operand. -/
  | behind (frames : List Frame) (operand : Tree)

/-- Reads a part where an operand is due. -/
def enter (frames : List Frame) : Part → Option Position
  | .name text => some (.behind frames (.name text))
  | .integer n => some (.behind frames (.integer n))
  | .decimal value => some (.behind frames (.decimal value))
  | .symbol '(' => some (.before (.parenthesis :: frames))
  | .symbol '-' => some (.before (.negative :: frames))
  | .symbol ')' => match frames with
    | .call callee [] :: frames => some (.behind frames (.call callee []))
    | _ => none
  | .symbol _ | .power => none

/-- Reads a closing bracket or a comma behind what stands in the brackets. -/
def close (c : Char) : List Frame × Tree → Option Position
  | (.parenthesis :: frames, tree) => if c = ')' then some (.behind frames tree) else none
  | (.call callee before :: frames, tree) =>
    if c = ')' then some (.behind frames (.call callee (before ++ [tree])))
    else if c = ',' then some (.before (.call callee (before ++ [tree]) :: frames))
    else none
  | (.item tuple :: frames, tree) =>
    if c = ']' then some (.behind frames (.item tuple tree)) else none
  | _ => none

/-- Reads a part behind an operand. -/
def leave (frames : List Frame) (operand : Tree) : Part → Option Position
  | .symbol c =>
    if c = '[' then some (.before (.item operand :: frames))
    else if c = '(' then operand.callee?.map fun callee => .before (.call callee [] :: frames)
    else match binary? c with
      | some operator =>
        let left := settle operator.precedence frames operand
        some (.before (.binary operator left.2 :: left.1))
      | none => close c (settle loosest frames operand)
  | .power => some (.before (.power operand :: frames))
  | .name _ | .integer _ | .decimal _ => none

/-- Reads a part. -/
def advance : Position → Part → Option Position
  | .before frames => enter frames
  | .behind frames operand => leave frames operand

/-- The tree of parts that make up a whole text. -/
def readParts (ts : List Part) : Option Tree :=
  match walk advance (.before []) ts with
  | some (.behind frames operand) => match settle loosest frames operand with
    | ([], tree) => some tree
    | _ => none
  | _ => none

/-- The tree of a text. -/
def read (text : String) : Option Tree := (scan [] text.toList).bind readParts

/-- A sign in front of a power and one in front of its exponent. -/
example : read "-x**-2*3" = some (.binary .times
    (.negative (.power (.name "x") (.negative (.integer 2)))) (.integer 3)) := rfl

variable {ts us : List Part} {part : Part} {position next : Position} {bottom : List Frame}
  {tree : Tree}

/-! ### Reading inside brackets -/

/-- The same place, with more frames around it. -/
def Position.within (bottom : List Frame) : Position → Position
  | .before frames => .before (frames ++ bottom)
  | .behind frames operand => .behind (frames ++ bottom) operand

/-- A bracket keeps the frames outside from being completed. -/
theorem settle_append (hbottom : ∀ frame ∈ bottom.head?, frame.IsBracket) (least : ℤ)
    (frames : List Frame) (tree : Tree) :
    settle least (frames ++ bottom) tree =
      ((settle least frames tree).1 ++ bottom, (settle least frames tree).2) := by
  induction frames generalizing tree with
  | nil =>
    cases bottom with
    | nil => rfl
    | cons frame bottom => simp [settle, hbottom frame rfl tree]
  | cons frame frames ih =>
    cases hfill : frame.fill tree with
    | none => simp [settle, hfill]
    | some filled =>
      by_cases hle : least ≤ filled.1
      · simp [settle, hfill, hle, ih]
      · simp [settle, hfill, hle]

/-- A bracket that is closed inside was opened inside. -/
theorem close_within {c : Char} {settled : List Frame × Tree} (h : close c settled = some next) :
    close c (settled.1 ++ bottom, settled.2) = some (next.within bottom) := by
  obtain ⟨_ | ⟨frame, frames⟩, tree⟩ := settled
  · cases h
  · cases frame with
    | negative | power | binary => cases h
    | parenthesis | item =>
      simp only [close] at h
      split_ifs at h with hc
      cases h
      simp [close, hc, Position.within]
    | call callee before =>
      simp only [close] at h
      split_ifs at h with hc hc' <;> cases h
      · simp [close, hc, Position.within]
      · simp [close, hc', Position.within]

theorem enter_within {frames : List Frame} (h : enter frames part = some next) :
    enter (frames ++ bottom) part = some (next.within bottom) := by
  fun_cases enter frames part with
  | case1 | case2 | case3 | case4 | case5 | case6 =>
    cases h
    rfl
  -- nothing else is read where an operand is due
  | case7 | case8 => simp [enter] at h
  | case9 => cases h

/-- Behind an operand, no frame outside the brackets is completed. -/
theorem leave_within (hbottom : ∀ frame ∈ bottom.head?, frame.IsBracket) {frames : List Frame}
    {operand : Tree} (h : leave frames operand part = some next) :
    leave (frames ++ bottom) operand part = some (next.within bottom) := by
  cases part with
  | name | integer | decimal => cases h
  | power =>
    cases h
    rfl
  | symbol c =>
    simp only [leave] at h ⊢
    split_ifs at h ⊢
    · cases h
      rfl
    · obtain ⟨callee, hcallee, rfl⟩ := Option.map_eq_some_iff.mp h
      rw [hcallee]
      rfl
    · simp only [settle_append hbottom]
      cases hop : binary? c with
      | some operator =>
        rw [hop] at h
        cases h
        rfl
      | none =>
        rw [hop] at h
        exact close_within h

/-- What is read depends on the frames outside the brackets as little as these depend on it. -/
theorem walk_within (hbottom : ∀ frame ∈ bottom.head?, frame.IsBracket)
    (h : walk advance position ts = some next) :
    walk advance (position.within bottom) ts = some (next.within bottom) := by
  induction ts generalizing position with
  | nil =>
    cases h
    rfl
  | cons part ts ih =>
    obtain ⟨middle, hpart, hrest⟩ := Option.bind_eq_some_iff.mp h
    have hmiddle : advance (position.within bottom) part = some (middle.within bottom) := by
      cases position with
      | before frames => exact enter_within hpart
      | behind frames operand => exact leave_within hbottom hpart
    rw [walk_cons, hmiddle]
    exact ih hrest

/-- A call of a function on an expression that is read by itself. -/
theorem walk_call (h : readParts ts = some tree) (callee : String) (frames : List Frame) :
    walk advance (.behind frames (.name callee)) (.symbol '(' :: (ts ++ .symbol ')' :: us)) =
      walk advance (.behind frames (.call callee [tree])) us := by
  obtain ⟨inner, operand, hwalk, hsettle⟩ : ∃ inner operand,
      walk advance (.before []) ts = some (.behind inner operand) ∧
        settle loosest inner operand = ([], tree) := by
    unfold readParts at h
    split at h
    next inner operand hwalk =>
      refine ⟨inner, operand, hwalk, ?_⟩
      split at h
      next hsettle =>
        cases h
        exact hsettle
      · cases h
    · cases h
  have hbottom : ∀ frame ∈ (Frame.call callee [] :: frames).head?, frame.IsBracket := by
    rintro _ ⟨⟩ tree
    rfl
  have hinside := walk_within hbottom hwalk
  rw [Position.within, Position.within, List.nil_append] at hinside
  have hopen : advance (.behind frames (.name callee)) (.symbol '(') =
      some (.before (.call callee [] :: frames)) := rfl
  have hclose : advance (.behind (inner ++ .call callee [] :: frames) operand) (.symbol ')') =
      some (.behind frames (.call callee [tree])) := by
    simp [advance, leave, binary?, settle_append hbottom, hsettle, close]
  rw [walk_cons, hopen, Option.bind_some, walk_append hinside, walk_cons, hclose, Option.bind_some]

/-! ### The outward nudge -/

/-- The nudge of a number: significand plus epsilon, times two to the exponent. -/
def nudgedTree (number : Tree) : Tree :=
  let parts := Tree.call "math.frexp" [number]
  .binary .times (.binary .plus (.item parts (.integer 0)) (.name "sys.float_info.epsilon"))
    (.power (.integer 2) (.item parts (.integer 1)))

/-- Whatever expression the number is, its nudge is read as a product of a sum and a power. -/
theorem read_nudgedText {number : Fragment} (h : read number.text = some tree) :
    read (nudgedText {} number) = some (nudgedTree tree) := by
  obtain ⟨ts, hscan, hparts⟩ := Option.bind_eq_some_iff.mp h
  -- the fixed parts of the text, around the two places of the number
  let first : List Part := [.symbol '(', .name "math.frexp"]
  let second : List Part := [.symbol '[', .integer 0, .symbol ']', .symbol '+',
    .name "sys.float_info.epsilon", .symbol ')', .symbol '*', .integer 2, .power,
    .name "math.frexp"]
  let last : List Part := [.symbol '[', .integer 1, .symbol ']']
  have hfirst : scan [] "(math.frexp".toList = some first := by decide
  have hsecond : scan [] "[0] + sys.float_info.epsilon)*2**math.frexp".toList = some second := by
    decide
  have hlast : scan [] "[1]".toList = some last := by decide
  have htext : (nudgedText {} number).toList = "(math.frexp".toList ++ '(' ::
      (number.text.toList ++ ')' :: ("[0] + sys.float_info.epsilon)*2**math.frexp".toList ++ '(' ::
        (number.text.toList ++ ')' :: "[1]".toList))) := by
    simp [nudgedText, String.toList_append]
  have hall := scan_parenthesized hfirst hscan (scan_parenthesized hsecond hscan hlast)
  -- where the reader stands in front of and behind each call
  let split := Tree.call "math.frexp" [tree]
  let sum := Tree.binary .plus (.item split (.integer 0)) (.name "sys.float_info.epsilon")
  let frames : List Frame := [.power (.integer 2), .binary .times sum]
  have hwalk₁ : walk advance (.before []) first =
      some (.behind [.parenthesis] (.name "math.frexp")) := rfl
  have hwalk₂ : walk advance (.behind [.parenthesis] split) second =
      some (.behind frames (.name "math.frexp")) := rfl
  have hwalk₃ : walk advance (.behind frames split) last =
      some (.behind frames (.item split (.integer 1))) := rfl
  rw [read, htext, hall, Option.bind_some, readParts, walk_append hwalk₁, walk_call hparts,
    walk_append hwalk₂, walk_call hparts, hwalk₃]
  rfl

end DecimalRounding.Python
