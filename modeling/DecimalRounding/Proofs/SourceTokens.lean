import DecimalRounding.Decimal.Basic
import DecimalRounding.Operator
import Mathlib.Data.Int.Notation
import Mathlib.Data.List.TakeWhile
import Mathlib.Tactic.Common

/-!
# Tokens of generated text

Text is cut into names, numerals, operators, brackets and commas by the longest match: a scanner
carries the lexeme begun so far and ends it at the first character that does not continue it
(`Token.scan`). Blanks end a lexeme and begin none.

A blank, a bracket and a comma continue no lexeme, whatever stands before them (`IsBoundary`).
Hence text can be scanned piece by piece where its pieces meet at one of these
(`Token.scan_append`), and the tokens of composed text are those of its parts
(`ofText_parenthesized`, `ofText_binary`, `ofText_comma`, `ofText_call`).

A reader takes tokens one at a time, and stops at the first one that has no place where it stands
(`walk`).
-/

namespace DecimalRounding

/-- A token of generated text. -/
inductive Token where
  /-- A name, possibly qualified as in `Math.round`. -/
  | name (text : String)
  /-- A numeral without a sign. -/
  | numeral (value : Decimal)
  | opening
  | closing
  | comma
  | question
  | colon
  /-- The token of an operator with one or two operands. -/
  | sign (text : String)
deriving DecidableEq

namespace Token

/-! ### Lexemes -/

/-- The spellings of operators with one or two operands. -/
def signs : List (List Char) :=
  [Operator.negative, .not, .times, .divideBy, .mod, .plus, .lessThan, .greaterThan,
    .lessThanOrEqual, .greaterThanOrEqual, .equal, .notEqual, .and, .or].map
    fun operator => operator.token.toList

/-- Letters, digits, and what else names and numerals are made of. -/
def isWordChar (c : Char) : Bool :=
  c.isAlphanum || c == '_' || c == '$' || c == '.' || 128 ≤ c.toNat

/-- Is it a name: an identifier, or several joined by points? -/
def isName : List Char → Bool
  | [] => false
  | c :: cs => !c.isDigit && c != '.' && (c :: cs).all isWordChar

/-- Digits with at most one point among them. -/
def numeral? (word : List Char) : Option Decimal :=
  let digits := word.filter (· != '.')
  if digits ≠ [] ∧ digits.all Char.isDigit ∧ word.count '.' ≤ 1 then
    some ⟨Nat.ofDigitChars 10 digits 0, (word.dropWhile (· != '.')).length - 1⟩
  else none

/-- The token that a lexeme stands for. -/
def ofLexeme : List Char → Option Token
  | ['('] => some .opening
  | [')'] => some .closing
  | [','] => some .comma
  | ['?'] => some .question
  | [':'] => some .colon
  | lexeme =>
    if lexeme ∈ signs then some (.sign (String.ofList lexeme))
    else if isName lexeme then some (.name (String.ofList lexeme))
    else (numeral? lexeme).map .numeral

/-! ### The scanner -/

/-- Does the character belong to the lexeme before it? -/
def continues (lexeme : List Char) (c : Char) : Bool :=
  lexeme ≠ [] && ((lexeme.all isWordChar && isWordChar c) || lexeme ++ [c] ∈ signs)

/-- The token of a lexeme that has ended. Without a lexeme there is none. -/
def finish : List Char → Option (List Token)
  | [] => some []
  | lexeme => (ofLexeme lexeme).map ([·])

/-- The lexeme that begins with a character. -/
def start (c : Char) : List Char := if c.isWhitespace then [] else [c]

/-- The tokens of a text of which a first lexeme is already begun. -/
def scan (lexeme : List Char) : List Char → Option (List Token)
  | [] => finish lexeme
  | c :: cs =>
    if continues lexeme c then scan (lexeme ++ [c]) cs
    else do return (← finish lexeme) ++ (← scan (start c) cs)

/-- The tokens of a text, if it has no other parts than tokens and blanks. -/
def ofText (text : String) : Option (List Token) := scan [] text.toList

variable {w cs rest : List Char} {ts us : List Token} {c : Char} {token : Token}
  {text left right : String}

/-! ### Scanning piece by piece -/

@[simp] theorem continues_nil : continues [] c = false := rfl

/-- A lexeme that ends gives its token, and the rest is scanned by itself. -/
theorem scan_cons_of_not_continues (hc : continues w c = false) :
    scan w (c :: cs) = some ts ↔
      ∃ us, finish w = some us ∧ ∃ vs, scan (start c) cs = some vs ∧ us ++ vs = ts := by
  simp [scan, hc, Option.bind_eq_some_iff]

theorem not_isWordChar_of_mem (hc : c ∈ [' ', '(', ')', ',', '-']) : isWordChar c = false := by
  have hall : [' ', '(', ')', ',', '-'].all (!isWordChar ·) := by decide
  simpa using List.all_eq_true.mp hall c hc

/-- A character that continues no lexeme. -/
def IsBoundary (c : Char) : Prop := ∀ w, continues w c = false

theorem isBoundary_of_mem (hc : c ∈ [' ', '(', ')', ',']) : IsBoundary c := by
  intro w
  have hword := not_isWordChar_of_mem (List.mem_append_left ['-'] hc)
  have hsign : w ++ [c] ∉ signs := by
    intro hmem
    have hlast : signs.all fun s => [' ', '(', ')', ','].all (s.getLast? != some ·) := by decide
    have hne := List.all_eq_true.mp (List.all_eq_true.mp hlast _ hmem) c hc
    simp at hne
  simp [continues, hword, hsign]

/-- Before a boundary, text is scanned as if it ended there. -/
theorem scan_append (hc : IsBoundary c) (hts : scan w cs = some ts)
    (hus : scan [] (c :: rest) = some us) : scan w (cs ++ c :: rest) = some (ts ++ us) := by
  induction cs generalizing w ts with
  | nil =>
    obtain ⟨_, hnil, vs, hvs, rfl⟩ := (scan_cons_of_not_continues (hc [])).mp hus
    cases hnil
    exact (scan_cons_of_not_continues (hc w)).mpr ⟨ts, hts, vs, hvs, rfl⟩
  | cons d cs ih =>
    rcases hd : continues w d with _ | _
    · obtain ⟨us₁, hfinish, us₂, hscan, rfl⟩ := (scan_cons_of_not_continues hd).mp hts
      exact (scan_cons_of_not_continues hd).mpr
        ⟨us₁, hfinish, us₂ ++ us, ih hscan, (List.append_assoc ..).symm⟩
    · rw [scan, if_pos hd] at hts
      rw [List.cons_append, scan, if_pos hd]
      exact ih hts

/-- A token of one character that the next one does not continue. -/
theorem scan_cons (hc : c.isWhitespace = false) (hnext : ∀ d ∈ cs.head?, continues [c] d = false)
    (htoken : ofLexeme [c] = some token) (hts : scan [] cs = some ts) :
    scan [] (c :: cs) = some (token :: ts) := by
  refine (scan_cons_of_not_continues continues_nil).mpr ⟨[], rfl, token :: ts, ?_, rfl⟩
  have hfinish : finish [c] = some [token] := by simp [finish, htoken]
  rw [start, hc, if_neg Bool.false_ne_true]
  cases cs with
  | nil =>
    cases hts
    exact hfinish
  | cons d cs =>
    obtain ⟨_, hnil, vs, hvs, rfl⟩ := (scan_cons_of_not_continues continues_nil).mp hts
    cases hnil
    exact (scan_cons_of_not_continues (hnext d rfl)).mpr ⟨_, hfinish, vs, hvs, rfl⟩

/-- A blank in front of a text is not part of any token. -/
theorem scan_blank_cons (hts : scan [] cs = some ts) : scan [] (' ' :: cs) = some ts := by
  rw [scan, if_neg (by decide), show start ' ' = [] from rfl, hts]
  rfl

/-- Brackets, commas and the minus sign are continued by nothing. -/
theorem continues_singleton (hc : c ∈ ['(', ')', ',', '-']) (d : Char) :
    continues [c] d = false := by
  have hword := not_isWordChar_of_mem (List.mem_cons_of_mem ' ' hc)
  have hsign : [c, d] ∉ signs := by
    intro hmem
    have hhead : signs.all fun s =>
        ['(', ')', ',', '-'].all fun a => s.head? != some a || s = [a] := by
      decide
    have hne := List.all_eq_true.mp (List.all_eq_true.mp hhead _ hmem) c hc
    simp at hne
  simp [continues, hword, hsign]

/-! ### Words -/

theorem not_isWhitespace_of_isWordChar (hc : isWordChar c) : c.isWhitespace = false := by
  rw [Bool.eq_false_iff]
  intro hblank
  simp only [Char.isWhitespace, Bool.or_eq_true, decide_eq_true_eq] at hblank
  rcases hblank with ((rfl | rfl) | rfl) | rfl <;> exact absurd hc (by decide)

theorem not_mem_signs_of_word (hw : w.all isWordChar) : w ∉ signs := by
  intro hmem
  have hsigns : ∀ s ∈ signs, s.all isWordChar = false := by decide
  exact Bool.false_ne_true ((hsigns w hmem).symm.trans hw)

/-- A word is a single token, however much of it has been read. -/
theorem scan_word (hw : w ≠ []) (hword : (w ++ cs).all isWordChar) :
    scan w cs = finish (w ++ cs) := by
  induction cs generalizing w with
  | nil => rw [scan, List.append_nil]
  | cons c cs ih =>
    have hc : continues w c = true := by simp_all [continues]
    rw [scan, if_pos hc, ih (by simp) (by simpa using hword), List.append_assoc,
      List.singleton_append]

/-- A word is a single lexeme. -/
theorem scan_nil_word (hne : w ≠ []) (hword : w.all isWordChar) : scan [] w = finish w := by
  cases w with
  | nil => exact absurd rfl hne
  | cons c cs =>
    have hblank := not_isWhitespace_of_isWordChar (List.all_eq_true.mp hword c (by simp))
    rw [scan, if_neg (by simp), start, hblank, if_neg Bool.false_ne_true,
      scan_word (by simp) hword, List.singleton_append]
    simp [finish]

/-- A word stands for a name or a numeral. -/
theorem finish_word (hne : w ≠ []) (hword : w.all isWordChar) :
    finish w =
      (if isName w then some (.name (String.ofList w)) else (numeral? w).map .numeral).map
        ([·]) := by
  have hsign := not_mem_signs_of_word hword
  have hlexeme : ofLexeme w =
      if isName w then some (.name (String.ofList w)) else (numeral? w).map .numeral := by
    unfold ofLexeme
    split
    · cases hword
    · cases hword
    · cases hword
    · cases hword
    · cases hword
    · rw [if_neg hsign]
  cases w with
  | nil => exact absurd rfl hne
  | cons c cs => rw [finish, hlexeme]; simp

theorem all_isWordChar_of_isName (hw : isName w) : w.all isWordChar := by
  cases w with
  | nil => cases hw
  | cons c cs => simp_all [isName]

/-! ### Texts -/

/-- Names are single tokens. -/
theorem ofText_name (hname : isName text.toList) : ofText text = some [.name text] := by
  have hword := all_isWordChar_of_isName hname
  have hne : text.toList ≠ [] := by
    rintro h
    rw [h] at hname
    cases hname
  rw [ofText, scan_nil_word hne hword, finish_word hne hword, if_pos hname, String.ofList_toList]
  rfl

theorem all_isWordChar_toDigits (n : ℕ) : (Nat.toDigits 10 n).all isWordChar := by
  rw [List.all_eq_true]
  intro c hc
  have hdigit := Nat.isDigit_of_mem_toDigits (by decide) (by decide) hc
  simp [isWordChar, Char.isAlphanum, hdigit]

/-- Decimal digits are a numeral, and no name. -/
theorem finish_toDigits (n : ℕ) : finish (Nat.toDigits 10 n) = some [.numeral ⟨n, 0⟩] := by
  have hdigit : ∀ c ∈ Nat.toDigits 10 n, c.isDigit := fun c hc =>
    Nat.isDigit_of_mem_toDigits (by decide) (by decide) hc
  have hpoint : ∀ c ∈ Nat.toDigits 10 n, (c != '.') = true := by
    intro c hc
    rw [bne_iff_ne]
    rintro rfl
    exact absurd (hdigit _ hc) (by decide)
  have hname : isName (Nat.toDigits 10 n) = false := by
    cases hw : Nat.toDigits 10 n with
    | nil => rfl
    | cons c cs => simp [isName, hdigit c (by simp [hw])]
  have hcount : (Nat.toDigits 10 n).count '.' = 0 := by
    rw [List.count_eq_zero]
    intro hmem
    exact absurd (hpoint _ hmem) (by decide)
  have hnumeral : numeral? (Nat.toDigits 10 n) = some ⟨n, 0⟩ := by
    rw [numeral?, List.filter_eq_self.mpr hpoint, List.dropWhile_eq_nil_iff.mpr hpoint, hcount,
      if_pos ⟨Nat.toDigits_ne_nil, List.all_eq_true.mpr hdigit, Nat.zero_le _⟩,
      Nat.ofDigitChars_ten_toDigits]
    rfl
  rw [finish_word Nat.toDigits_ne_nil (all_isWordChar_toDigits n), hname, hnumeral]
  rfl

/-- Numerals are single tokens. -/
theorem ofText_toString (n : ℕ) : ofText (toString n) = some [.numeral ⟨n, 0⟩] := by
  rw [ofText, Nat.toString_eq_ofList_toDigits, String.toList_ofList,
    scan_nil_word Nat.toDigits_ne_nil (all_isWordChar_toDigits n), finish_toDigits]

/-- A negative number begins with its sign. -/
theorem ofText_toString_neg {n : ℤ} (hn : n < 0) :
    ofText (toString n) = some [.sign "-", .numeral ⟨n.natAbs, 0⟩] := by
  obtain ⟨m, rfl⟩ : ∃ m : ℕ, n = Int.negSucc m := Int.eq_negSucc_of_lt_zero hn
  have htext : (toString (Int.negSucc m)).toList = '-' :: (toString (m + 1)).toList := by
    rw [show toString (Int.negSucc m) = "-" ++ toString (m + 1) from rfl, String.toList_append]
    rfl
  rw [ofText, htext]
  exact scan_cons rfl (fun d _ => continues_singleton (by simp) d) rfl (ofText_toString (m + 1))

theorem toList_parenthesized (text : String) :
    ("(" ++ text ++ ")").toList = '(' :: (text.toList ++ [')']) := by
  rw [String.toList_append, String.toList_append]
  rfl

/-- A text in parentheses has its own tokens between them. -/
theorem ofText_parenthesized (h : ofText text = some ts) :
    ofText ("(" ++ text ++ ")") = some (.opening :: ts ++ [.closing]) := by
  have hclosing : scan [] [')'] = some [.closing] := by decide
  have hrest := scan_append (isBoundary_of_mem (by simp)) h hclosing
  rw [ofText, toList_parenthesized]
  exact scan_cons rfl (fun d _ => continues_singleton (by simp) d) rfl hrest

theorem ofText_comma (hleft : ofText left = some ts) (hright : ofText right = some us) :
    ofText (left ++ ", " ++ right) = some (ts ++ .comma :: us) := by
  have htext : (left ++ ", " ++ right).toList = left.toList ++ ',' :: ' ' :: right.toList := by
    rw [String.toList_append, String.toList_append, List.append_assoc]
    rfl
  have hrest := scan_cons rfl (fun d _ => continues_singleton (by simp) d)
    (show ofLexeme [','] = some .comma from rfl) (scan_blank_cons hright)
  rw [ofText, htext]
  exact scan_append (isBoundary_of_mem (by simp)) hleft hrest

/-- The binary operators are single tokens. -/
theorem ofText_token {operator : Operator} (hop : operator.isBinary) :
    ofText operator.token = some [.sign operator.token] := by
  cases operator <;> first | rfl | cases hop

/-- Between blanks an operator is a token by itself, whatever stands on its sides. -/
theorem ofText_binary {operator : Operator} (hop : operator.isBinary)
    (hleft : ofText left = some ts) (hright : ofText right = some us) :
    ofText (left ++ " " ++ operator.token ++ " " ++ right) =
      some (ts ++ .sign operator.token :: us) := by
  have htext : (left ++ " " ++ operator.token ++ " " ++ right).toList =
      left.toList ++ ' ' :: (operator.token.toList ++ ' ' :: right.toList) := by
    simp only [String.toList_append, List.append_assoc]
    rfl
  have hblank : IsBoundary ' ' := isBoundary_of_mem (by simp)
  have hrest := scan_append hblank (ofText_token hop) (scan_blank_cons hright)
  rw [ofText, htext]
  exact scan_append hblank hleft (scan_blank_cons hrest)

/-- The tokens of a call, from those between its brackets. -/
theorem ofText_call {callee : String} (hname : isName callee.toList) (h : ofText text = some ts) :
    ofText (callee ++ "(" ++ text ++ ")") =
      some (.name callee :: .opening :: ts ++ [.closing]) := by
  have hrest := ofText_parenthesized h
  rw [ofText, toList_parenthesized] at hrest
  rw [String.append_assoc, String.append_assoc, ← @String.append_assoc "(", ofText,
    String.toList_append, toList_parenthesized]
  have hall := scan_append (isBoundary_of_mem (by simp)) (ofText_name hname) hrest
  exact hall

end Token

/-! ### Reading from left to right -/

section

variable {σ τ : Type} {step : σ → τ → Option σ} {position next : σ} {t : τ} {ts us : List τ}

/-- Reads tokens of any kind, one after the other, where `step` reads a single one. -/
def walk (step : σ → τ → Option σ) (position : σ) (ts : List τ) : Option σ :=
  ts.foldlM step position

@[simp] theorem walk_nil : walk step position [] = some position := rfl

@[simp] theorem walk_cons :
    walk step position (t :: ts) = (step position t).bind (walk step · ts) := rfl

/-- Behind tokens that can be read, the rest is read as from there. -/
theorem walk_append (h : walk step position ts = some next) :
    walk step position (ts ++ us) = walk step next us := by
  rw [walk, List.foldlM_append]
  rw [walk] at h
  rw [h]
  rfl

end

end DecimalRounding
