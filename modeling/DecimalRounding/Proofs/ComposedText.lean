import DecimalRounding.Proofs.SourceGrammar

/-!
# Composed text reads as it was composed

A fragment whose text is an expression of its precedence keeps that property under every way of
composing fragments, however its own text is written: an operand gets parentheses exactly where its
level is too low for its place (`Reads.guarded`), and arguments of calls need none. So a fragment
that is composed bottom-up from names and integers reads as the tree of its composition, and, the
grammar being unambiguous, as no other (`Expression.denotes_fragment`).
-/

namespace DecimalRounding

/-- The text of a fragment is an expression of its precedence, with this tree and no other one. -/
def Fragment.Denotes (fragment : Fragment) (tree : SourceTree) : Prop :=
  ∀ level other, Reads fragment.text level other ↔ level = fragment.precedence ∧ other = tree

/-- An integer, as it is read from text: its sign is an operator. -/
def SourceTree.ofInt (n : ℤ) : SourceTree :=
  if n < 0 then .unary .negative (.numeral ⟨n.natAbs, 0⟩) else .numeral ⟨n.natAbs, 0⟩

section

theorem SourceTree.ofInt_injective : Function.Injective SourceTree.ofInt := by
  intro n m h
  unfold SourceTree.ofInt at h
  split_ifs at h <;> simp at h <;> omega

variable {fragment left right : Fragment} {operator : Operator} {level l r least : ℤ}
  {tree a b : SourceTree} {text callee : String} {texts : List String} {trees : List SourceTree}

theorem Fragment.denotes_iff :
    fragment.Denotes tree ↔ Reads fragment.text fragment.precedence tree := by
  constructor
  · intro h
    exact (h _ _).mpr ⟨rfl, rfl⟩
  · intro h level other
    constructor
    · exact h.unique
    · rintro ⟨rfl, rfl⟩
      exact h

/-! ### The parts -/

theorem reads_name (hname : Token.isName text.toList) :
    Reads text Fragment.atomicPrecedence (.name text) :=
  ⟨_, Token.ofText_name hname, .name text⟩

theorem reads_toString (n : ℕ) :
    Reads (toString n) Fragment.atomicPrecedence (.numeral ⟨n, 0⟩) :=
  ⟨_, Token.ofText_toString n, .numeral _⟩

/-- A negative literal is read as a sign in front of a numeral, and has its precedence. -/
theorem reads_intLiteral (n : ℤ) :
    Reads (Fragment.intLiteral n).text (Fragment.intLiteral n).precedence (.ofInt n) := by
  rw [Fragment.intLiteral, SourceTree.ofInt]
  split_ifs with hn
  · refine ⟨_, Token.ofText_toString_neg hn, ?_⟩
    exact @Derives.unary .negative _ _ _ rfl (.numeral ⟨n.natAbs, 0⟩) (by decide)
  · obtain ⟨m, rfl⟩ := Int.eq_ofNat_of_zero_le (not_lt.mp hn)
    exact reads_toString m

/-! ### Composition -/

/-- Parentheses lift an operand to every level that a place can demand. -/
theorem Reads.guarded (h : Reads fragment.text level tree) (hle : fragment.precedence ≤ level)
    (hleast : least ≤ Fragment.atomicPrecedence) :
    ∃ l, least ≤ l ∧ Reads (fragment.guarded least) l tree := by
  rw [Fragment.guarded]
  split_ifs with hlt
  · obtain ⟨ts, hts, hderives⟩ := h
    exact ⟨_, hleast, _, Token.ofText_parenthesized hts, .parenthesized hderives⟩
  · exact ⟨level, (not_lt.mp hlt).trans hle, h⟩

/-- Operands are put in parentheses where the grammar demands a higher level than they have. -/
theorem reads_binary (hop : operator.isBinary) (ha : Reads left.text l a)
    (hl : left.precedence ≤ l) (hb : Reads right.text r b) (hr : right.precedence ≤ r) :
    Reads (Fragment.binary operator left right).text operator.precedence
      (.binary operator a b) := by
  have hlt : operator.precedence + 1 ≤ Fragment.atomicPrecedence :=
    (Int.add_one_le_of_lt (Operator.precedence_of_isBinary hop).2).trans (by decide)
  obtain ⟨l', hl', ts, hts, hleft⟩ := ha.guarded hl ((Int.le_add_one le_rfl).trans hlt)
  obtain ⟨r', hr', us, hus, hright⟩ := hb.guarded hr hlt
  exact ⟨_, Token.ofText_binary hop hts hus, .binary hop hleft hright hl' hr'⟩

/-- Arguments stand between commas whatever their level. -/
theorem exists_derives_arguments
    (h : List.Forall₂ (fun text tree => ∃ level, Reads text level tree) texts trees) :
    ∃ ts, Token.ofText (", ".intercalate texts) = some ts ∧ Derives ts (.arguments trees) := by
  induction h with
  | nil => exact ⟨[], rfl, .none⟩
  | cons hfirst hothers ih =>
    obtain ⟨level, ts, hts, hderives⟩ := hfirst
    cases hothers with
    | nil =>
      rw [String.intercalate_singleton]
      exact ⟨ts, hts, .single hderives⟩
    | cons =>
      obtain ⟨us, hus, hothers⟩ := ih
      rw [String.intercalate_cons_cons]
      exact ⟨_, Token.ofText_comma hts hus, .more hderives hothers⟩

theorem reads_call (hname : Token.isName callee.toList)
    (h : List.Forall₂ (fun text tree => ∃ level, Reads text level tree) texts trees) :
    Reads (Fragment.call callee texts).text Fragment.atomicPrecedence (.call callee trees) := by
  obtain ⟨ts, hts, hderives⟩ := exists_derives_arguments h
  exact ⟨_, Token.ofText_call hname hts, .call callee hderives⟩

end

/-! ### Compositions -/

/-- A name of a variable or a function. -/
abbrev Name := {text : String // Token.isName text.toList}

/-- An operator that stands between two operands. -/
abbrev BinaryOperator := {operator : Operator // operator.isBinary}

/-- What fragments are composed from. -/
inductive Expression where
  | name (text : Name)
  | literal (n : ℤ)
  | call (callee : Name) (arguments : List Expression)
  | binary (operator : BinaryOperator) (left right : Expression)

namespace Expression

mutual

/-- The fragment that is composed bottom-up. -/
def fragment : Expression → Fragment
  | .name text => .atom text
  | .literal n => .intLiteral n
  | .call callee arguments => .call callee (texts arguments)
  | .binary operator left right => .binary operator left.fragment right.fragment

/-- The texts of arguments. -/
def texts : List Expression → List String
  | [] => []
  | first :: others => first.fragment.text :: texts others

end

mutual

/-- The tree that is composed. -/
def tree : Expression → SourceTree
  | .name text => .name text
  | .literal n => .ofInt n
  | .call callee arguments => .call callee (trees arguments)
  | .binary operator left right => .binary operator left.tree right.tree

/-- The trees of arguments. -/
def trees : List Expression → List SourceTree
  | [] => []
  | first :: others => first.tree :: trees others

end

mutual

/-- The text reads as the tree. -/
theorem reads_fragment : ∀ e : Expression, Reads e.fragment.text e.fragment.precedence e.tree
  | .name text => reads_name text.2
  | .literal n => reads_intLiteral n
  | .call callee arguments => reads_call callee.2 (reads_texts arguments)
  | .binary operator left right =>
    reads_binary operator.2 (reads_fragment left) le_rfl (reads_fragment right) le_rfl

/-- The texts of arguments read as their trees. -/
theorem reads_texts : ∀ es : List Expression,
    List.Forall₂ (fun text tree => ∃ level, Reads text level tree) (texts es) (trees es)
  | [] => .nil
  | first :: others => .cons ⟨_, reads_fragment first⟩ (reads_texts others)

end

/-- No composition but a literal has the tree of one. -/
theorem eq_literal_of_tree_eq {e : Expression} {n : ℤ} (h : e.tree = .ofInt n) :
    e = .literal n := by
  cases e with
  | literal m => rw [SourceTree.ofInt_injective h]
  | name | call | binary =>
    unfold tree SourceTree.ofInt at h
    split at h <;> cases h

mutual

/-- Different expressions have different trees. -/
theorem eq_of_tree_eq : ∀ e e' : Expression, e.tree = e'.tree → e = e'
  | .literal n, e', h => (eq_literal_of_tree_eq h.symm).symm
  | .name text, e', h => by
    cases e' with
    | name text' => rw [Subtype.ext (SourceTree.name.inj h)]
    | literal n => exact eq_literal_of_tree_eq h
    | call | binary => cases h
  | .call callee arguments, e', h => by
    cases e' with
    | call callee' arguments' =>
      obtain ⟨hcallee, htrees⟩ := SourceTree.call.inj h
      rw [Subtype.ext hcallee, eq_of_trees_eq arguments arguments' htrees]
    | literal n => exact eq_literal_of_tree_eq h
    | name | binary => cases h
  | .binary operator left right, e', h => by
    cases e' with
    | binary operator' left' right' =>
      obtain ⟨hop, hleft, hright⟩ := SourceTree.binary.inj h
      rw [Subtype.ext hop, eq_of_tree_eq left left' hleft, eq_of_tree_eq right right' hright]
    | literal n => exact eq_literal_of_tree_eq h
    | name | call => cases h

theorem eq_of_trees_eq : ∀ es es' : List Expression, trees es = trees es' → es = es'
  | [], [], _ => rfl
  | [], _ :: _, h => by cases h
  | _ :: _, [], h => by cases h
  | e :: es, e' :: es', h => by
    obtain ⟨hfirst, hothers⟩ := List.cons.inj h
    rw [eq_of_tree_eq e e' hfirst, eq_of_trees_eq es es' hothers]

end

/-- The recorded precedence is that of the outermost operator; names, numbers that are not negative
and calls have none and are atomic. -/
theorem precedence_fragment (e : Expression) : e.fragment.precedence = e.tree.precedence := by
  cases e with
  | name | call | binary => rfl
  | literal n =>
    unfold fragment tree Fragment.intLiteral SourceTree.ofInt
    split_ifs <;> rfl

/-- **Composed text means what it was composed from.** The text of a fragment that is composed from
names, integers, calls and binary operators is an expression of the recorded precedence, with the
tree of the composition and no other; the precedence is that of its outermost operator; and no
other composition has that tree. -/
theorem denotes_fragment (e : Expression) :
    e.fragment.Denotes e.tree ∧ e.fragment.precedence = e.tree.precedence ∧
      ∀ level e', Reads e.fragment.text level e'.tree → e' = e := by
  refine ⟨Fragment.denotes_iff.mpr (reads_fragment e), precedence_fragment e, ?_⟩
  intro level e' h
  exact eq_of_tree_eq e' e ((reads_fragment e).unique h).2

example : (binary ⟨.minus, rfl⟩ (.literal (-5)) (.binary ⟨.plus, rfl⟩ (.name ⟨"a", by decide⟩)
    (.call ⟨"f", by decide⟩ [.literal (-1), .literal 2]))).fragment =
      ⟨"-5 - (a + f(-1, 2))", 6⟩ := by decide

end Expression

end DecimalRounding
