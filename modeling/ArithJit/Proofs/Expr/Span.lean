import ArithJit.Proofs.Parser.Acceptance

/-!
# The tokens of a node

A tree is written by as many tokens as its yield is long, so where each of its nodes begins and ends
among the tokens follows from the shape of the tree alone. `Span.parts` goes from a node to its
operands, and `Span.Within` from a whole tree to all its nodes.

Whatever is derived from a stretch of tokens has parts that are derived from stretches inside it.
Every node of a derived tree therefore has tokens of its own, and its place is that of the first of
them, which `Derives.place_eq` shows for the whole tree.
-/

namespace ArithJit

/-- A node of a tree with the positions of its tokens, from `start` up to `stop` and without it. -/
structure Span where
  node : Expr
  start : Nat
  stop : Nat
  deriving DecidableEq, Repr

namespace Expr

/-- How many tokens write a tree. -/
def width (e : Expr) : Nat := e.yield.length

/-- The span of a tree whose tokens begin at a position. -/
def span (e : Expr) (start : Nat) : Span := ⟨e, start, start + e.width⟩

@[simp] theorem width_negate (e : Expr) (place : Option Location) :
    (negate e place).width = e.width + 1 := rfl

@[simp] theorem width_group (e : Expr) (place : Option Location) :
    (group e place).width = e.width + 2 := by
  simp [width, yield]

@[simp] theorem width_binary (op : BinaryOp) (l r : Expr) (place : Option Location) :
    (binary op l r place).width = l.width + r.width + 1 := by
  simp [width, yield, Nat.add_assoc]

/-- The kind of the token that a tree begins with: the number, the minus or the parenthesis, and for
    an operation on two operands what its left operand begins with. -/
def opener? : Expr → Option TokenKind
  | .bare _ => none
  | .number _ _ => some .number
  | .negate _ _ => some .minus
  | .group _ _ => some .openParen
  | .binary _ l _ _ => l.opener?

end Expr

namespace Span

/-- The operands of a node from left to right: behind the minus or the parenthesis that opens it, or
    on both sides of its operator. -/
def parts (s : Span) : List Span :=
  match s.node with
  | .bare _ | .number _ _ => []
  | .negate e _ | .group e _ => [e.span (s.start + 1)]
  | .binary _ l r _ => [l.span s.start, r.span (s.start + l.width + 1)]

/-- The nodes of a tree with their spans: the tree itself, and the parts of its nodes. -/
inductive Within (root : Span) : Span → Prop
  | root : Within root root
  | part {s s' : Span} (node : Within root s) (mem : s' ∈ s.parts) : Within root s'

/-- The tokens of a span. -/
def tokens (s : Span) (ts : List Token) : List Token := (ts.drop s.start).take (s.stop - s.start)

/-- The node of a span is derived from a stretch of tokens at its positions. -/
def IsDerived (s : Span) (ts : List Token) : Prop :=
  ∃ n before us after, ts = before ++ us ++ after ∧ before.length = s.start ∧
    s.stop = s.start + us.length ∧ Derives n us s.node

end Span

variable {n : Nonterminal} {ts before us after : List Token} {e : Expr} {s s' root : Span}

theorem Derives.length_eq (h : Derives n ts e) : ts.length = e.width := by
  rw [Expr.width, h.yield_eq, List.length_map]

/-- A derived tree has the place of its first token. -/
theorem Derives.place_eq (h : Derives n ts e) :
    ∃ t rest, ts = t :: rest ∧ e.place = some t.place ∧ e.opener? = some t.kind := by
  induction h with
  | @number t x kind => exact ⟨t, [], rfl, rfl, by rw [Expr.opener?, kind]⟩
  | @negation t ts e kind => exact ⟨t, ts, rfl, rfl, by rw [Expr.opener?, kind]⟩
  | @group t u ts e opening => exact ⟨t, ts ++ [u], rfl, rfl, by rw [Expr.opener?, opening]⟩
  | factor _ ih | term _ ih => exact ih
  | product _ _ _ _ ih | sum _ _ _ _ ih =>
    obtain ⟨t, rest, rfl, hplace, hopener⟩ := ih
    exact ⟨t, _, rfl, hplace, hopener⟩

namespace Span

theorem IsDerived.tokens_eq (h : s.IsDerived ts) :
    ∃ n, Derives n (s.tokens ts) s.node ∧ (s.tokens ts).length = s.stop - s.start := by
  obtain ⟨n, before, us, after, rfl, hstart, hstop, hderives⟩ := h
  have htokens : s.tokens (before ++ us ++ after) = us := by
    rw [tokens, ← hstart, hstop, ← hstart, List.append_assoc, List.drop_left,
      Nat.add_sub_cancel_left, List.take_left]
  exact ⟨n, htokens.symm ▸ hderives, by rw [htokens, hstop, Nat.add_sub_cancel_left]⟩

theorem isDerived_span (h : Derives n us e) (before after : List Token) :
    (e.span before.length).IsDerived (before ++ us ++ after) :=
  ⟨n, before, us, after, rfl, rfl, by rw [Expr.span, h.length_eq], h⟩

/-- The parts of a derived node are derived. -/
theorem IsDerived.part (h : s.IsDerived ts) (hpart : s' ∈ s.parts) : s'.IsDerived ts := by
  obtain ⟨node, start, stop⟩ := s
  obtain ⟨n, before, us, after, rfl, rfl, -, hderives⟩ := h
  simp only at hderives
  induction hderives with
  | number => simp [parts] at hpart
  | @negation t us e _ operand =>
    obtain rfl : s' = e.span (before.length + 1) := by simpa [parts] using hpart
    have hpart := isDerived_span operand (before ++ [t]) after
    simpa using hpart
  | @group t u us e _ inner =>
    obtain rfl : s' = e.span (before.length + 1) := by simpa [parts] using hpart
    have hpart := isDerived_span inner (before ++ [t]) (u :: after)
    simpa using hpart
  | factor _ ih | term _ ih => exact ih hpart
  | @product t op us vs l r left _ _ right | @sum t op us vs l r left _ _ right =>
    have hcases : s' = l.span before.length ∨ s' = r.span (before.length + l.width + 1) := by
      simpa [parts] using hpart
    rcases hcases with rfl | rfl
    · have hpart := isDerived_span left before (t :: vs ++ after)
      simpa using hpart
    · have hpart := isDerived_span right (before ++ us ++ [t]) after
      rw [← left.length_eq]
      simpa [Nat.add_assoc] using hpart

/-- Every node of a derived tree is derived. -/
theorem IsDerived.within (h : root.IsDerived ts) (hs : root.Within s) : s.IsDerived ts := by
  induction hs with
  | root => exact h
  | part _ mem ih => exact ih.part mem

theorem IsDerived.stop_eq (h : s.IsDerived ts) : s.stop = s.start + s.node.width := by
  obtain ⟨n, before, us, after, -, -, hstop, hderives⟩ := h
  rw [hstop, hderives.length_eq]

theorem IsDerived.start_lt_stop (h : s.IsDerived ts) : s.start < s.stop := by
  obtain ⟨n, before, us, after, -, -, hstop, hderives⟩ := h
  have := List.length_pos_iff.2 hderives.ne_nil
  omega

/-- The parts of a node stand one after the other among its tokens. -/
theorem IsDerived.parts_ordered (h : s.IsDerived ts) :
    s.parts.Pairwise (fun a b => a.stop < b.start) ∧
      ∀ a ∈ s.parts, s.start ≤ a.start ∧ a.stop ≤ s.stop := by
  have hstop := h.stop_eq
  obtain ⟨node, start, stop⟩ := s
  simp only at hstop
  subst hstop
  cases node with
  | bare | number => simp [parts]
  | negate e place | group e place =>
    refine ⟨List.pairwise_singleton _ _, fun a ha => ?_⟩
    obtain rfl : a = e.span (start + 1) := by simpa [parts] using ha
    simp only [Expr.span, Expr.width_negate, Expr.width_group]
    omega
  | binary op l r place =>
    refine ⟨List.pairwise_pair.2 (Nat.lt_succ_self _), fun a ha => ?_⟩
    have hcases : a = l.span start ∨ a = r.span (start + l.width + 1) := by
      simpa [parts] using ha
    rcases hcases with rfl | rfl
    all_goals
      simp only [Expr.span, Expr.width_binary]
      omega

end Span

/-- Every node of the tree that a first call gives is located at its first token. The tree is
    written by the tokens before the first end mark; each of its nodes is derived from a stretch of
    them, and has the place of the first token of this stretch, which is the minus of an opposite,
    the parenthesis of a group and otherwise the first token of the left operand; and the stretches
    of the operands of a node lie inside its own, one after the other without touching. -/
theorem parse_places_of_nodes {ts : List Token} {e : Expr}
    (h : (TokenSource.given ts).firstParse = .ok e) :
    (∃ mark, ts[e.width]? = some mark ∧ mark.kind = .endMark ∧
      ∀ t ∈ ts.take e.width, t.kind ≠ .endMark) ∧
    ∀ s, (e.span 0).Within s →
      (∃ n, Derives n (s.tokens ts) s.node) ∧ (s.tokens ts).length = s.stop - s.start ∧
      (∃ t, (s.tokens ts).head? = some t ∧ s.node.place = some t.place ∧
        s.node.opener? = some t.kind) ∧
      s.parts.Pairwise (fun a b => a.stop < b.start) ∧
      ∀ a ∈ s.parts, s.start ≤ a.start ∧ a.start < a.stop ∧ a.stop ≤ s.stop := by
  obtain ⟨p, p', hp, hparse⟩ := firstParse_eq_ok h
  obtain ⟨before, after, rfl, -, hmark, hderives⟩ := derives_of_parse hp hparse
  refine ⟨⟨p'.current, ?_, hmark, ?_⟩, fun s hs => ?_⟩
  · simp [← hderives.length_eq]
  · rw [← hderives.length_eq, List.take_left]
    exact hderives.kind_ne_endMark
  · have hroot : (e.span 0).IsDerived (before ++ p'.current :: after) :=
      Span.isDerived_span hderives [] (p'.current :: after)
    have hs := hroot.within hs
    obtain ⟨n, hnode, hlength⟩ := hs.tokens_eq
    obtain ⟨t, rest, htokens, hplace, hopener⟩ := hnode.place_eq
    obtain ⟨hordered, hinside⟩ := hs.parts_ordered
    refine ⟨⟨n, hnode⟩, hlength, ⟨t, by rw [htokens]; rfl, hplace, hopener⟩, hordered, ?_⟩
    intro a ha
    exact ⟨(hinside a ha).1, (hs.part ha).start_lt_stop, (hinside a ha).2⟩

/-- The case of `-(0)*0`: the group has the tokens from the second to the fourth and the place of
    the second, while the product has the place of the minus. -/
theorem parse_places_of_product :
    let number (offset : Int) : Token := ⟨.number, "0", ⟨offset, 1, offset + 1⟩⟩
    let mark (kind : TokenKind) (lexeme : String) (offset : Int) : Token :=
      ⟨kind, lexeme, ⟨offset, 1, offset + 1⟩⟩
    let ts := [mark .minus "-" 0, mark .openParen "(" 1, number 2, mark .closeParen ")" 3,
      mark .star "*" 4, number 5, mark .endMark "" 6]
    let group := Expr.group (.number (.zero false) (some ⟨2, 1, 3⟩)) (some ⟨1, 1, 2⟩)
    let e := Expr.binary .mul (.negate group (some ⟨0, 1, 1⟩))
      (.number (.zero false) (some ⟨5, 1, 6⟩)) (some ⟨0, 1, 1⟩)
    (TokenSource.given ts).firstParse = .ok e ∧ (e.span 0).Within ⟨group, 1, 4⟩ ∧
      Span.tokens ⟨group, 1, 4⟩ ts = [mark .openParen "(" 1, number 2, mark .closeParen ")" 3] ∧
      ∃ t, (Span.tokens ⟨group, 1, 4⟩ ts).head? = some t ∧ group.place = some t.place ∧
        group.opener? = some t.kind := by
  intro number mark ts group e
  have hread : Numeral.read? "0" = some (.zero false) := by decide +kernel
  have hnumber (offset : Int) : (number offset).number = .ok (.zero false) := by
    simp only [Token.number, number, hread]
    rfl
  have hgroup : Derives .factor [mark .openParen "(" 1, number 2, mark .closeParen ")" 3] group :=
    .group rfl (.term (.factor (.number rfl (hnumber 2)))) rfl
  have hderives : Derives .expr (ts.take 6) e :=
    .term (.product (.factor (.negation rfl hgroup)) rfl rfl (.number rfl (hnumber 5)))
  have hparse : (TokenSource.given ts).firstParse = .ok e :=
    @firstParse_given_of_derives (mark .endMark "" 6) (ts.take 6) [] e hderives rfl
  have hwithin : (e.span 0).Within ⟨group, 1, 4⟩ :=
    .part (.part .root (List.mem_cons_self ..)) (List.mem_cons_self ..)
  exact ⟨hparse, hwithin, rfl, ((parse_places_of_nodes hparse).2 _ hwithin).2.2.1⟩

end ArithJit
