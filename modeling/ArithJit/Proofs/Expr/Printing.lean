import ArithJit.Proofs.Expr.Phrase

/-!
# Printing with as few parentheses as the precedences allow

A tree of operations over plain decimals is printed without needless parentheses. A left operand
stands between parentheses only if it binds looser than the operator, a right operand also if it
binds as tight, and what is negated only if it is an operation on two operands. Blanks may stand
around the operators.

The printed text is read as the tree that was printed: a tree that binds as tight as a nonterminal
is a phrase of it, and an operand that would not be is made one by its parentheses. So the text has
the value of the tree.
-/

namespace ArithJit

/-- A number as it is written. -/
structure Numeral.Plain where
  chars : List Char
  isPlain : IsPlain chars

/-- The value of a number as it is written. -/
def Numeral.Plain.value (n : Plain) : Binary64 :=
  (read? (String.ofList n.chars)).get (Option.isSome_iff_exists.2 n.isPlain.exists_read?)

/-- A tree of operations on numbers as they are written. -/
inductive Operation where
  | literal (n : Numeral.Plain)
  | negate (operand : Operation)
  | group (inner : Operation)
  | binary (op : BinaryOp) (left right : Operation)

namespace Operation

/-- How tight the text of a tree binds: an operation on two operands as its operator does, and
    everything else tighter. -/
def binding : Operation → Nat
  | .binary op _ _ => op.precedence
  | .literal _ | .negate _ | .group _ => 3

/-- A text, between parentheses if they are needed. -/
def wrap (needed : Bool) (cs : List Char) : List Char :=
  if needed then '(' :: (cs ++ [')']) else cs

/-- The characters of a tree with the same blanks before and after each operator. -/
def chars (gap : List Char) : Operation → List Char
  | .literal n => n.chars
  | .negate o => '-' :: wrap (o.binding < 3) (o.chars gap)
  | .group o => wrap true (o.chars gap)
  | .binary op l r =>
      wrap (l.binding < op.precedence) (l.chars gap) ++
        (gap ++ (op.symbol.toList ++ (gap ++ wrap (r.binding ≤ op.precedence) (r.chars gap))))

/-- The text of a tree. -/
def text (gap : List Char) (o : Operation) : String := String.ofList (o.chars gap)

/-- The expression of a tree, which knows no places. -/
def expr : Operation → Expr
  | .literal n => .number n.value none
  | .negate o => .negate o.expr none
  | .group o => .group o.expr none
  | .binary op l r => .binary op l.expr r.expr none

/-- The value of a tree, from the leaves up. -/
def value : Operation → Binary64
  | .literal n => n.value
  | .negate o => o.value.neg
  | .group o => o.value
  | .binary op l r => op.apply l.value r.value

theorem value?_expr (o : Operation) : o.expr.value? = some o.value := by
  induction o with
  | literal n => rfl
  | negate o ih => simp [expr, value, ih]
  | group o ih => exact ih
  | binary op l r ihl ihr =>
    exact Expr.value?_binary_eq_some_iff.2 ⟨l.value, r.value, ihl, ihr, rfl⟩

variable {n : Nonterminal} {cs gap : List Char} {e : Expr} {bound : Nat} {needed : Bool}

/-- A text that binds as tight as `bound` is a phrase of any nonterminal, once it stands between
    parentheses where it must. -/
theorem spells_wrap (h : ∀ m : Nonterminal, m.level ≤ bound → Spells m cs e)
    (hbound : 1 ≤ bound) (hneeded : needed = false → n.level ≤ bound) :
    Spells n (wrap needed cs) e := by
  cases needed with
  | false => exact h n (hneeded rfl)
  | true => exact (h .expr hbound).parens.loosen n.level_le_level_factor

theorem one_le_binding (o : Operation) : 1 ≤ o.binding := by
  cases o with
  | literal | negate | group => simp [binding]
  | binary op => exact op.one_le_precedence

/-- A printed tree is a phrase of every nonterminal that binds no tighter than it does. -/
theorem spells (hgap : IsGap gap) (o : Operation) :
    ∀ m : Nonterminal, m.level ≤ o.binding → Spells m (o.chars gap) o.expr := by
  induction o with
  | literal n =>
    intro m hm
    have hread : Numeral.read? (String.ofList n.chars) = some n.value := (Option.some_get _).symm
    exact (Spells.number n.isPlain hread).loosen hm
  | negate o ih =>
    intro m hm
    have hoperand : Spells .factor (wrap (o.binding < 3) (o.chars gap)) o.expr := by
      refine spells_wrap ih o.one_le_binding fun h => ?_
      simpa [Nonterminal.level] using h
    exact hoperand.negate.loosen hm
  | group o ih =>
    intro m hm
    exact Spells.loosen (ih .expr o.one_le_binding).parens hm
  | binary op l r ihl ihr =>
    intro m hm
    have hleft : Spells op.chain (wrap (l.binding < op.precedence) (l.chars gap)) l.expr := by
      refine spells_wrap ihl l.one_le_binding fun h => ?_
      simpa using h
    have hright : Spells op.link (wrap (r.binding ≤ op.precedence) (r.chars gap)) r.expr := by
      refine spells_wrap ihr r.one_le_binding fun h => ?_
      have htighter : op.precedence < r.binding := by simpa using h
      rw [op.level_link]
      exact htighter
    refine (hleft.binary hgap hright).loosen ?_
    rwa [op.level_chain]

/-- A printed tree is read as itself, up to parentheses and places, and evaluated to its value. -/
theorem parse_evaluate_text (o : Operation) {gap : List Char} (hgap : IsGap gap)
    {settings : Settings} (hsettings : settings.IsAccepted) :
    ∃ e, (parseText (o.text gap)).result = .ok e ∧ e.skeleton = o.expr.skeleton ∧
      (evaluate (o.text gap) settings).result = .ok o.value := by
  obtain ⟨e, hwrites, hskeleton⟩ := (spells hgap o .expr o.one_le_binding).exists_writes
  have hvalue : e.value? = some o.value := by
    calc e.value? = e.skeleton.value? := e.value?_skeleton.symm
      _ = o.expr.skeleton.value? := by rw [hskeleton]
      _ = some o.value := by rw [Expr.value?_skeleton, value?_expr]
  exact ⟨e, parseText_eq_ok_iff.2 hwrites, hskeleton, evaluate_of_writes hsettings hwrites hvalue⟩

/-- A difference on the right needs its parentheses, and so does a product that is negated. -/
theorem parse_evaluate_differences :
    let digit (c : Char) (h : c.isDigit = true) : Operation :=
      .literal ⟨[c], .whole (by simpa using h) (by simp)⟩
    let o : Operation := .binary .sub (digit '7' (by decide)) (.binary .sub (digit '2' (by decide))
      (.negate (.binary .mul (digit '3' (by decide)) (digit '4' (by decide)))))
    IsGap [' '] ∧ Settings.default.IsAccepted ∧ o.text [' '] = "7 - (2 - -(3 * 4))" ∧
      ∃ e, (parseText "7 - (2 - -(3 * 4))").result = .ok e ∧ e.skeleton = o.expr.skeleton ∧
        (evaluate "7 - (2 - -(3 * 4))" .default).result = .ok ⟨0xc01c000000000000⟩ := by
  intro digit o
  have hgap : IsGap [' '] := by simp [IsGap, blanks]
  have haccepted : Settings.default.IsAccepted := ⟨by decide, by decide⟩
  have htext : o.text [' '] = "7 - (2 - -(3 * 4))" := by decide +kernel
  have hvalue : o.value = ⟨0xc01c000000000000⟩ := by decide +kernel
  have hparse := parse_evaluate_text o hgap haccepted
  rw [htext, hvalue] at hparse
  exact ⟨hgap, haccepted, htext, hparse⟩

end Operation

end ArithJit
