import ArithJit.Proofs.Code.Decoding
import ArithJit.Proofs.Expr.Span

/-!
# Parentheses around what is already grouped

Parentheses may be put around any nodes of a parsed tree, as many as one likes around each: opening
ones before the first token of a node, closing ones behind its last. Where several nodes begin or
end at one place, those of the outer nodes stand outside. The tokens are parsed again, and their tree
is the old one with groups at those nodes.

The insertion is told by positions alone, without the grammar, while the new tree is told by
recursion on the old one. `Derives.insert` joins them. Every node is derived from its own stretch of
tokens, and what is inserted into this stretch comes from the nodes inside it; so the new stretch is
made of the new stretches of its parts. A stretch in parentheses is a factor, which may stand
wherever the node may.
-/

namespace ArithJit

/-- A pair of parentheses. -/
structure Parens where
  opening : Token
  closing : Token
  opening_kind : opening.kind = .openParen
  closing_kind : closing.kind = .closeParen

/-- The parentheses to put around each node, the outermost first. -/
abbrev Plan := Span → List Parens

namespace Expr

/-- The nodes of a tree whose tokens begin at a position, with their spans: every node before its
    parts, and these from left to right. -/
def spans : Expr → Nat → List Span
  | .bare place, i => [(bare place).span i]
  | .number x place, i => [(number x place).span i]
  | .negate e place, i => (negate e place).span i :: e.spans (i + 1)
  | .group e place, i => (group e place).span i :: e.spans (i + 1)
  | .binary op l r place, i =>
      (binary op l r place).span i :: (l.spans i ++ r.spans (i + l.width + 1))

/-- A tree in parentheses. -/
def wrap (ps : List Parens) (e : Expr) : Expr :=
  ps.foldr (fun p e => .group e (some p.opening.place)) e

/-- The tree with groups around its nodes. An operation on two operands begins where its left
    operand does, which may now be at a parenthesis. -/
def enclosed (plan : Plan) : Expr → Nat → Expr
  | .bare place, i => wrap (plan ((bare place).span i)) (.bare place)
  | .number x place, i => wrap (plan ((number x place).span i)) (.number x place)
  | .negate e place, i =>
      wrap (plan ((negate e place).span i)) (.negate (e.enclosed plan (i + 1)) place)
  | .group e place, i =>
      wrap (plan ((group e place).span i)) (.group (e.enclosed plan (i + 1)) place)
  | .binary op l r place, i =>
      wrap (plan ((binary op l r place).span i))
        (.binary op (l.enclosed plan i) (r.enclosed plan (i + l.width + 1))
          (l.enclosed plan i).place)

end Expr

namespace Plan

/-- What is opened before a position: the parentheses of the nodes that begin there. -/
def openings (plan : Plan) (ss : List Span) (i : Nat) : List Token :=
  (ss.filter fun s => s.start = i).flatMap fun s => (plan s).map Parens.opening

/-- What is closed before a position: the parentheses of the nodes that end there. -/
def closings (plan : Plan) (ss : List Span) (i : Nat) : List Token :=
  (ss.filter fun s => s.stop = i).reverse.flatMap fun s => (plan s).reverse.map Parens.closing

/-- The tokens from a position on, with the parentheses of the given nodes between them. -/
def insert (plan : Plan) (ss : List Span) : Nat → List Token → List Token
  | _, [] => []
  | i, t :: ts => plan.openings ss i ++ t :: plan.closings ss (i + 1) ++ plan.insert ss (i + 1) ts

end Plan

/-! ## The nodes of a tree -/

namespace Span

theorem Within.trans {s₁ s₂ s₃ : Span} (h : s₁.Within s₂) (h' : s₂.Within s₃) : s₁.Within s₃ := by
  induction h' with
  | root => exact h
  | part _ mem ih => exact .part ih mem

end Span

namespace Expr

variable {e : Expr} {i : Nat} {s : Span}

theorem span_mem_spans (e : Expr) (i : Nat) : e.span i ∈ e.spans i := by
  cases e <;> simp [spans]

theorem part_mem_spans {s' : Span} (h : s ∈ e.spans i) (hpart : s' ∈ s.parts) :
    s' ∈ e.spans i := by
  induction e generalizing i with
  | bare | number =>
    obtain rfl := List.mem_singleton.1 h
    simp [Span.parts, span] at hpart
  | negate e place ih | group e place ih =>
    rcases List.mem_cons.1 h with rfl | h
    · obtain rfl : s' = e.span (i + 1) := by simpa [Span.parts, span] using hpart
      exact List.mem_cons_of_mem _ (e.span_mem_spans _)
    · exact List.mem_cons_of_mem _ (ih h)
  | binary op l r place ihl ihr =>
    simp only [spans, List.mem_cons, List.mem_append] at h ⊢
    rcases h with rfl | h | h
    · have hcases : s' = l.span i ∨ s' = r.span (i + l.width + 1) := by
        simpa [Span.parts, span] using hpart
      rcases hcases with rfl | rfl
      · exact .inr (.inl (l.span_mem_spans i))
      · exact .inr (.inr (r.span_mem_spans _))
    · exact .inr (.inl (ihl h))
    · exact .inr (.inr (ihr h))

/-- The list holds all nodes and nothing else. -/
theorem mem_spans_iff : s ∈ e.spans i ↔ (e.span i).Within s := by
  constructor
  · intro h
    induction e generalizing i with
    | bare | number =>
      obtain rfl := List.mem_singleton.1 h
      exact .root
    | negate e place ih | group e place ih =>
      rcases List.mem_cons.1 h with rfl | h
      · exact .root
      · exact (Span.Within.part .root (by simp [Span.parts, span])).trans (ih h)
    | binary op l r place ihl ihr =>
      simp only [spans, List.mem_cons, List.mem_append] at h
      rcases h with rfl | h | h
      · exact .root
      · exact (Span.Within.part .root (by simp [Span.parts, span])).trans (ihl h)
      · exact (Span.Within.part .root (by simp [Span.parts, span])).trans (ihr h)
  · intro h
    induction h with
    | root => exact e.span_mem_spans i
    | part _ mem ih => exact part_mem_spans ih mem

theorem width_pos (h : e.isWhole = true) : 0 < e.width := by
  cases e with
  | bare => simp [isWhole] at h
  | number => exact Nat.one_pos
  | negate e place | group e place | binary op l r place => simp

/-- No node reaches out of the tokens of the tree. -/
theorem bounds_of_mem_spans (h : e.isWhole = true) (hs : s ∈ e.spans i) :
    i ≤ s.start ∧ s.start < s.stop ∧ s.stop ≤ i + e.width := by
  have hpos := width_pos h
  induction e generalizing i with
  | bare => simp [isWhole] at h
  | number =>
    obtain rfl := List.mem_singleton.1 hs
    simp only [span]
    omega
  | negate e place ih | group e place ih =>
    rcases List.mem_cons.1 hs with rfl | hs
    · simp only [span]
      omega
    · have hinner := ih h hs (width_pos h)
      simp only [width_negate, width_group]
      omega
  | binary op l r place ihl ihr =>
    simp only [isWhole, Bool.and_eq_true] at h
    simp only [spans, List.mem_cons, List.mem_append] at hs
    rcases hs with rfl | hs | hs
    · simp only [span]
      omega
    · have hleft := ihl h.1 hs (width_pos h.1)
      simp only [width_binary]
      omega
    · have hright := ihr h.2 hs (width_pos h.2)
      simp only [width_binary]
      omega

/-! ## Groups make no difference -/

@[simp] theorem skeleton_wrap (ps : List Parens) (e : Expr) : (wrap ps e).skeleton = e.skeleton := by
  induction ps with
  | nil => rfl
  | cons p ps ih => exact ih

@[simp] theorem skeleton_enclosed (plan : Plan) (e : Expr) (i : Nat) :
    (e.enclosed plan i).skeleton = e.skeleton := by
  induction e generalizing i with
  | bare | number => simp [enclosed, skeleton]
  | negate e place ih | group e place ih => simp [enclosed, skeleton, ih]
  | binary op l r place ihl ihr => simp [enclosed, skeleton, ihl, ihr]

end Expr

/-! ## Insertion -/

/-- The node neither begins nor ends among the tokens from one position to another. -/
def Span.Avoids (s : Span) (i j : Nat) : Prop :=
  (s.start < i ∨ j ≤ s.start) ∧ (s.stop ≤ i ∨ j < s.stop)

namespace Plan

variable {plan : Plan} {s : Span} {ss ss' : List Span} {i j k : Nat} {ts : List Token}

theorem openings_append (plan : Plan) (ss ss' : List Span) (i : Nat) :
    plan.openings (ss ++ ss') i = plan.openings ss i ++ plan.openings ss' i := by
  simp [openings]

/-- What was opened later is closed earlier. -/
theorem closings_append (plan : Plan) (ss ss' : List Span) (i : Nat) :
    plan.closings (ss ++ ss') i = plan.closings ss' i ++ plan.closings ss i := by
  simp [closings]

/-- Nodes that do not begin or end among the tokens put nothing between them. -/
theorem openings_of_avoids (h : ∀ s ∈ ss, s.Avoids i k) (hle : i ≤ j) (hlt : j < k) :
    plan.openings ss j = [] := by
  have hnone : ss.filter (fun s => s.start = j) = [] := by
    rw [List.filter_eq_nil_iff]
    intro s hs
    have := (h s hs).1
    simp only [decide_eq_true_eq]
    omega
  rw [openings, hnone, List.flatMap_nil]

theorem closings_of_avoids (h : ∀ s ∈ ss, s.Avoids i k) (hlt : i < j) (hle : j ≤ k) :
    plan.closings ss j = [] := by
  have hnone : ss.filter (fun s => s.stop = j) = [] := by
    rw [List.filter_eq_nil_iff]
    intro s hs
    have := (h s hs).2
    simp only [decide_eq_true_eq]
    omega
  rw [closings, hnone, List.reverse_nil, List.flatMap_nil]

@[simp] theorem insert_nil_spans (plan : Plan) (i : Nat) (ts : List Token) :
    plan.insert [] i ts = ts := by
  induction ts generalizing i with
  | nil => rfl
  | cons t ts ih => simp [insert, openings, closings, ih]

theorem insert_append (plan : Plan) (ss : List Span) (i : Nat) (ts us : List Token) :
    plan.insert ss i (ts ++ us) = plan.insert ss i ts ++ plan.insert ss (i + ts.length) us := by
  induction ts generalizing i with
  | nil => rfl
  | cons t ts ih =>
    have hnext : i + 1 + ts.length = i + (ts.length + 1) := by omega
    simp [insert, ih, hnext]

theorem insert_congr
    (hopenings : ∀ j, i ≤ j → j < i + ts.length → plan.openings ss j = plan.openings ss' j)
    (hclosings : ∀ j, i < j → j ≤ i + ts.length → plan.closings ss j = plan.closings ss' j) :
    plan.insert ss i ts = plan.insert ss' i ts := by
  induction ts generalizing i with
  | nil => rfl
  | cons t ts ih =>
    simp only [List.length_cons] at hopenings hclosings
    have hrest : plan.insert ss (i + 1) ts = plan.insert ss' (i + 1) ts := by
      apply ih
      · intro j hle hlt
        exact hopenings j (by omega) (by omega)
      · intro j hlt hle
        exact hclosings j (by omega) (by omega)
    simp only [insert, hrest, hopenings i (by omega) (by omega),
      hclosings (i + 1) (by omega) (by omega)]

theorem insert_append_left (h : ∀ s ∈ ss', s.Avoids i (i + ts.length)) :
    plan.insert (ss ++ ss') i ts = plan.insert ss i ts := by
  apply insert_congr
  · intro j hle hlt
    rw [openings_append, openings_of_avoids h hle hlt, List.append_nil]
  · intro j hlt hle
    rw [closings_append, closings_of_avoids h hlt hle, List.nil_append]

theorem insert_append_right (h : ∀ s ∈ ss, s.Avoids i (i + ts.length)) :
    plan.insert (ss ++ ss') i ts = plan.insert ss' i ts := by
  apply insert_congr
  · intro j hle hlt
    rw [openings_append, openings_of_avoids h hle hlt, List.nil_append]
  · intro j hlt hle
    rw [closings_append, closings_of_avoids h hlt hle, List.append_nil]

theorem insert_of_avoids (h : ∀ s ∈ ss, s.Avoids i (i + ts.length)) :
    plan.insert ss i ts = ts := by
  have hnone : plan.insert ([] ++ ss) i ts = plan.insert [] i ts := insert_append_left h
  rwa [List.nil_append, insert_nil_spans] at hnone

theorem openings_cons (plan : Plan) (s : Span) (ss : List Span) (i : Nat) :
    plan.openings (s :: ss) i =
      (if s.start = i then (plan s).map Parens.opening else []) ++ plan.openings ss i := by
  by_cases h : s.start = i <;> simp [openings, h]

theorem closings_cons (plan : Plan) (s : Span) (ss : List Span) (i : Nat) :
    plan.closings (s :: ss) i =
      plan.closings ss i ++ if s.stop = i then (plan s).reverse.map Parens.closing else [] := by
  by_cases h : s.stop = i <;> simp [closings, h]

/-- A node that ends with the tokens puts its closing parentheses behind whatever the nodes inside
    it insert, and its opening ones before it, if it also begins with the tokens. -/
theorem insert_cons_of_stop (hstart : s.start ≤ i) (hstop : s.stop = i + ts.length)
    (hts : ts ≠ []) :
    plan.insert (s :: ss) i ts =
      (if s.start = i then (plan s).map Parens.opening else []) ++ plan.insert ss i ts ++
        (plan s).reverse.map Parens.closing := by
  induction ts generalizing i with
  | nil => exact absurd rfl hts
  | cons t ts ih =>
    rw [List.length_cons] at hstop
    by_cases hlast : ts = []
    · subst hlast
      have hend : s.stop = i + 1 := hstop
      simp [insert, openings_cons, closings_cons, hend]
    · have hpos := List.length_pos_iff.2 hlast
      have hrest := ih (i := i + 1) (by omega) (by omega) hlast
      have hbegun : s.start ≠ i + 1 := by omega
      have hlater : s.stop ≠ i + 1 := by omega
      simp [insert, openings_cons, closings_cons, hrest, hbegun, hlater]

end Plan

/-! ## Derivations -/

namespace Derives

variable {n : Nonterminal} {ts : List Token} {e : Expr}

/-- What is derived may be put in parentheses wherever it stands. -/
theorem wrap (h : Derives n ts e) (ps : List Parens) :
    Derives n (ps.map Parens.opening ++ ts ++ ps.reverse.map Parens.closing) (e.wrap ps) := by
  induction ps with
  | nil => simpa [Expr.wrap] using h
  | cons p ps ih =>
    have hgroup : Derives .factor _ ((e.wrap ps).group (some p.opening.place)) :=
      .group p.opening_kind ih.isExpr p.closing_kind
    have hloose : Derives n _ ((e.wrap ps).group (some p.opening.place)) :=
      hgroup.loosen n.level_le_level_factor
    simpa [Expr.wrap] using hloose

/-- The parentheses of a node stand around what the nodes inside it insert. -/
theorem insert_span (h : Derives n ts e) (plan : Plan) (ss : List Span) (i : Nat) :
    plan.insert (e.span i :: ss) i ts =
      (plan (e.span i)).map Parens.opening ++ plan.insert ss i ts ++
        (plan (e.span i)).reverse.map Parens.closing := by
  have hstart : (e.span i).start = i := rfl
  have hstop : (e.span i).stop = i + ts.length := by rw [h.length_eq]; rfl
  rw [Plan.insert_cons_of_stop (Nat.le_of_eq hstart) hstop h.ne_nil, if_pos hstart]

section Avoids

variable {i j k : Nat} {s : Span}

theorem bounds_of_mem_spans (h : Derives n ts e) (hs : s ∈ e.spans i) :
    i ≤ s.start ∧ s.start < s.stop ∧ s.stop ≤ i + ts.length := by
  rw [h.length_eq]
  exact Expr.bounds_of_mem_spans h.isWhole hs

/-- No node of a tree touches tokens before it. -/
theorem avoids_before (h : Derives n ts e) (hs : s ∈ e.spans i) (hle : k ≤ i) : s.Avoids j k := by
  have := h.bounds_of_mem_spans hs
  simp only [Span.Avoids]
  omega

/-- No node of a tree touches tokens behind it. -/
theorem avoids_behind (h : Derives n ts e) (hs : s ∈ e.spans i) (hle : i + ts.length ≤ j) :
    s.Avoids j k := by
  have := h.bounds_of_mem_spans hs
  simp only [Span.Avoids]
  omega

end Avoids

/-- The nodes on both sides of an operator insert among their own tokens. -/
theorem insert_operands {m : Nonterminal} {t : Token} {us : List Token} {l r : Expr}
    (left : Derives m ts l) (right : Derives n us r) (plan : Plan) (i : Nat) :
    plan.insert (l.spans i ++ r.spans (i + l.width + 1)) i (ts ++ t :: us) =
      plan.insert (l.spans i) i ts ++
        t :: plan.insert (r.spans (i + l.width + 1)) (i + l.width + 1) us := by
  have hwidth := left.length_eq
  have hleft : plan.insert (l.spans i ++ r.spans (i + l.width + 1)) i ts =
      plan.insert (l.spans i) i ts := by
    apply Plan.insert_append_left
    exact fun s hs => right.avoids_before hs (by omega)
  have hoperator :
      plan.insert (l.spans i ++ r.spans (i + l.width + 1)) (i + l.width) [t] = [t] := by
    apply Plan.insert_of_avoids
    intro s hs
    rcases List.mem_append.1 hs with hs | hs
    · exact left.avoids_behind hs (by omega)
    · exact right.avoids_before hs (by simp)
  have hright : plan.insert (l.spans i ++ r.spans (i + l.width + 1)) (i + l.width + 1) us =
      plan.insert (r.spans (i + l.width + 1)) (i + l.width + 1) us := by
    apply Plan.insert_append_right
    exact fun s hs => left.avoids_behind hs (by omega)
  rw [← List.singleton_append, Plan.insert_append, Plan.insert_append, hwidth,
    List.length_singleton, hleft, hoperator, hright, List.singleton_append]

/-- Tokens with parentheses around nodes derive the tree with groups around these nodes. -/
theorem insert (h : Derives n ts e) (plan : Plan) (i : Nat) :
    Derives n (plan.insert (e.spans i) i ts) (e.enclosed plan i) := by
  induction h generalizing i with
  | number kind value =>
    have hnode := number kind value
    rw [Expr.spans, hnode.insert_span, Plan.insert_nil_spans]
    exact hnode.wrap _
  | @negation t ts e kind operand ih =>
    have hminus : plan.insert (e.spans (i + 1)) i [t] = [t] := by
      apply Plan.insert_of_avoids
      exact fun s hs => operand.avoids_before hs (Nat.le_refl _)
    rw [Expr.spans, (negation kind operand).insert_span, ← List.singleton_append,
      Plan.insert_append, hminus]
    exact (negation kind (ih (i + 1))).wrap _
  | @group t u ts e opening inner closing ih =>
    have hopen : plan.insert (e.spans (i + 1)) i [t] = [t] := by
      apply Plan.insert_of_avoids
      exact fun s hs => inner.avoids_before hs (Nat.le_refl _)
    have hclose : plan.insert (e.spans (i + 1)) (i + 1 + ts.length) [u] = [u] := by
      apply Plan.insert_of_avoids
      exact fun s hs => inner.avoids_behind hs (Nat.le_refl _)
    rw [Expr.spans, (group opening inner closing).insert_span, List.cons_append,
      ← List.singleton_append, Plan.insert_append, Plan.insert_append, hopen,
      List.length_singleton, hclose]
    exact (group opening (ih (i + 1)) closing).wrap _
  | factor _ ih => exact factor (ih i)
  | term _ ih => exact term (ih i)
  | product left kind tight right ihl ihr =>
    rw [Expr.spans, (product left kind tight right).insert_span, left.insert_operands right]
    exact (product (ihl i) kind tight (ihr _)).wrap _
  | sum left kind loose right ihl ihr =>
    rw [Expr.spans, (sum left kind loose right).insert_span, left.insert_operands right]
    exact (sum (ihl i) kind loose (ihr _)).wrap _

end Derives

/-- Parentheses around what is already grouped change no program. If a first call on given tokens
    succeeds, then however many parentheses are put around whichever nodes of its tree, a first call
    on the new tokens succeeds, too. Its tree is the old one with groups around those nodes, and is
    lowered to the same routine. -/
theorem firstParse_enclosed {ts : List Token} {e : Expr}
    (h : (TokenSource.given ts).firstParse = .ok e) (plan : Plan) :
    (∀ s, s ∈ e.spans 0 ↔ (e.span 0).Within s) ∧
    (TokenSource.given (plan.insert (e.spans 0) 0 ts)).firstParse = .ok (e.enclosed plan 0) ∧
    (e.enclosed plan 0).skeleton = e.skeleton ∧
    ∀ name, ∃ r, e.lower name = .ok r ∧ (e.enclosed plan 0).lower name = .ok r := by
  obtain ⟨p, p', hp, hparse⟩ := firstParse_eq_ok h
  obtain ⟨before, after, rfl, -, hmark, hderives⟩ := derives_of_parse hp hparse
  have henclosed := hderives.insert plan 0
  -- Nothing is inserted at the end mark or behind it.
  have hrest : plan.insert (e.spans 0) (0 + before.length) (p'.current :: after) =
      p'.current :: after := by
    apply Plan.insert_of_avoids
    exact fun s hs => hderives.avoids_behind hs (Nat.le_refl _)
  refine ⟨fun s => Expr.mem_spans_iff, ?_, e.skeleton_enclosed plan 0, fun name => ?_⟩
  · rw [Plan.insert_append, hrest]
    exact firstParse_given_of_derives henclosed hmark
  · refine ⟨_, Expr.lower_eq hderives.isWhole name, ?_⟩
    rw [Expr.lower_of_skeleton_eq henclosed.isWhole hderives.isWhole (e.skeleton_enclosed plan 0),
      Expr.lower_eq hderives.isWhole]

/-- In `0-0-0` the first difference gets two pairs of parentheses and the last number one, which
    gives `((0-0))-(0)`. -/
theorem firstParse_enclosed_differences :
    let place (offset : Int) : Location := ⟨offset, 1, offset + 1⟩
    let token (kind : TokenKind) (lexeme : String) (offset : Int) : Token :=
      ⟨kind, lexeme, place offset⟩
    let zero (offset : Int) : Expr := .number (.zero false) (some (place offset))
    let ts := [token .number "0" 0, token .minus "-" 1, token .number "0" 2, token .minus "-" 3,
      token .number "0" 4, token .endMark "" 5]
    let difference := Expr.binary .sub (zero 0) (zero 2) (some (place 0))
    let e := Expr.binary .sub difference (zero 4) (some (place 0))
    let parens (offset : Int) : Parens :=
      ⟨token .openParen "(" offset, token .closeParen ")" offset, rfl, rfl⟩
    let plan : Plan := fun s =>
      if s = ⟨difference, 0, 3⟩ then [parens 6, parens 7]
      else if s = ⟨zero 4, 4, 5⟩ then [parens 8] else []
    let groups := Expr.binary .sub
      (.group (.group difference (some (place 7))) (some (place 6)))
      (.group (zero 4) (some (place 8))) (some (place 6))
    (TokenSource.given ts).firstParse = .ok e ∧
      plan.insert (e.spans 0) 0 ts =
        [token .openParen "(" 6, token .openParen "(" 7, token .number "0" 0, token .minus "-" 1,
          token .number "0" 2, token .closeParen ")" 7, token .closeParen ")" 6,
          token .minus "-" 3, token .openParen "(" 8, token .number "0" 4,
          token .closeParen ")" 8, token .endMark "" 5] ∧
      (TokenSource.given (plan.insert (e.spans 0) 0 ts)).firstParse = .ok groups ∧
      ∃ r, e.lower "f" = .ok r ∧ groups.lower "f" = .ok r := by
  intro place token zero ts difference e parens plan groups
  have hread : Numeral.read? "0" = some (.zero false) := by decide +kernel
  have hzero (offset : Int) : Derives .term [token .number "0" offset] (zero offset) := by
    refine .factor (.number rfl ?_)
    simp only [Token.number, token, hread]
    rfl
  have hderives : Derives .expr (ts.take 5) e :=
    .sum (.sum (.term (hzero 0)) rfl rfl (hzero 2)) rfl rfl (hzero 4)
  have hparse : (TokenSource.given ts).firstParse = .ok e :=
    @firstParse_given_of_derives (token .endMark "" 5) (ts.take 5) [] e hderives rfl
  obtain ⟨-, henclosed, -, hlower⟩ := firstParse_enclosed hparse plan
  have hgroups : e.enclosed plan 0 = groups := by decide
  rw [hgroups] at henclosed hlower
  exact ⟨hparse, by decide, henclosed, hlower "f"⟩

end ArithJit
