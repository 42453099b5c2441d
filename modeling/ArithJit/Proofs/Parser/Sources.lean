import ArithJit.Proofs.Parser.Step

/-!
# Runs over related sources

What a parser does depends on the tokens that its source delivers, and not on where they come
from. Two sources that keep delivering the same tokens, up to an end mark, lead to the same
outcome; where they stop delivering, each run fails for the reason of its own source.
-/

namespace ArithJit.Parser

/-- Two sources deliver the same token and stay related, unless it is the end mark, or both
    deliver none, for related reasons. -/
def InStep (R : TokenSource → TokenSource → Prop) (F : ParseFailure → ParseFailure → Prop)
    (s s' : TokenSource) : Prop :=
  (∃ t rest rest', s.next = (.ok t, rest) ∧ s'.next = (.ok t, rest') ∧
    (t.kind = .endMark ∨ R rest rest')) ∨
  ∃ e e' rest rest', s.next = (.error e, rest) ∧ s'.next = (.error e', rest') ∧ F e e'

/-- Whether a failure comes from the source, which has no next token. -/
def isFetch : ParseFailure → Bool
  | .lexical _ | .unended => true
  | .grammar _ | .numeral _ | .underflow => false

/-- Two outcomes are the same and not the source's, or failures to fetch for related reasons. -/
def SameOutcome (F : ParseFailure → ParseFailure → Prop) (r r' : Except ParseFailure Expr) :
    Prop :=
  (r = r' ∧ ∀ f, r = .error f → isFetch f = false) ∨
    ∃ e e', F e e' ∧ r = .error e ∧ r' = .error e'

theorem SameOutcome.ok {F : ParseFailure → ParseFailure → Prop} (e : Expr) :
    SameOutcome F (.ok e) (.ok e) := .inl ⟨rfl, by simp⟩

theorem SameOutcome.error {F : ParseFailure → ParseFailure → Prop} {f : ParseFailure}
    (h : isFetch f = false) : SameOutcome F (.error f) (.error f) := .inl ⟨rfl, by simp [h]⟩

variable {R : TokenSource → TokenSource → Prop} {F : ParseFailure → ParseFailure → Prop}
  {p : Parser} {m : Mode} {s s' : TokenSource} {ps : List Pending} {os : List Expr}
  {stuck : List Pending × List Expr} {f : ParseFailure}

/-- A failure that follows the fetching of a token is the same, unless there is no token. -/
theorem Takes.sameOutcome (takes : Takes p m (.failed f) ps os stuck) (hf : isFetch f = false)
    (h : InStep R F s s') :
    SameOutcome F (run { p with source := s } m).1 (run { p with source := s' } m).1 := by
  rcases h with ⟨t, rest, rest', hnext, hnext', -⟩ | ⟨e, e', rest, rest', hnext, hnext', hF⟩
  · rw [run_of_failed (takes.fetched hnext), run_of_failed (takes.fetched hnext')]
    exact .error hf
  · rw [run_of_failed (takes.unfetched hnext), run_of_failed (takes.unfetched hnext')]
    exact .inr ⟨e, e', hF, rfl, rfl⟩

/-- Sources in step lead to the same outcome. At an end mark they need not even be related. -/
theorem run_sameOutcome (hR : ∀ s s', R s s' → InStep R F s s')
    (h : p.current.kind = .endMark ∨ R s s') :
    SameOutcome F (run { p with source := s } m).1 (run { p with source := s' } m).1 := by
  induction hn : s.remaining using Nat.strongRecOn generalizing p m s s' with
  | _ n ih =>
    subst hn
    have hstep (kind : p.current.kind ≠ .endMark) : InStep R F s s' :=
      hR s s' (h.resolve_left kind)
    cases step_effect p m with
    | shift stuck shifts takes =>
      rcases hstep shifts.kind_ne_endMark with
        ⟨t, rest, rest', hnext, hnext', hrest⟩ | ⟨e, e', rest, rest', hnext, hnext', hF⟩
      · rw [run_of_more (takes.fetched hnext), run_of_more (takes.fetched hnext')]
        exact ih rest.remaining (TokenSource.remaining_next hnext) (p := ⟨rest, t, _, _⟩) hrest rfl
      · rw [run_of_failed (takes.unfetched hnext), run_of_failed (takes.unfetched hnext')]
        exact .inr ⟨e, e', hF, rfl, rfl⟩
    | reject ps os _ stops =>
      rw [run_of_failed (stops s), run_of_failed (stops s')]
      exact .error rfl
    | accept _ _ _ _ stops =>
      rw [run_of_done (stops s), run_of_done (stops s')]
      exact .ok _
    | unreadable kind _ takes => exact takes.sameOutcome rfl (hstep (by simp [kind]))
    | shortStop _ _ stops =>
      rw [run_of_failed (stops s), run_of_failed (stops s')]
      exact .error rfl
    | shortTake _ _ _ _ kind _ takes => exact takes.sameOutcome rfl (hstep kind)

end ArithJit.Parser

namespace ArithJit

open ArithJit.Parser

/-- The outcome of the first call of a parser on a source. -/
def TokenSource.firstParse (s : TokenSource) : Except ParseFailure Expr :=
  match Parser.ofSource s with
  | .ok p => p.parse.1
  | .error e => .error e

variable {R : TokenSource → TokenSource → Prop} {F : ParseFailure → ParseFailure → Prop}
  {s s' : TokenSource}

theorem TokenSource.firstParse_sameOutcome (hR : ∀ s s', R s s' → InStep R F s s')
    (h : R s s') : SameOutcome F s.firstParse s'.firstParse := by
  rcases hR s s' h with
    ⟨t, rest, rest', hnext, hnext', hrest⟩ | ⟨e, e', rest, rest', hnext, hnext', hF⟩
  · simp only [firstParse, ofSource, hnext, hnext', parse]
    split
    · exact .error rfl
    · exact run_sameOutcome (p := ⟨rest, t, [], []⟩) hR hrest
  · simp only [firstParse, ofSource, hnext, hnext']
    exact .inr ⟨e, e', hF, rfl, rfl⟩

theorem firstParse_given_append_endMark {mark : Token} (hmark : mark.kind = .endMark)
    (before after after' : List Token) :
    (TokenSource.given (before ++ mark :: after)).firstParse =
      (TokenSource.given (before ++ mark :: after')).firstParse := by
  let R : TokenSource → TokenSource → Prop := fun s s' =>
    ∃ ts, s = .given (ts ++ mark :: after) ∧ s' = .given (ts ++ mark :: after')
  have hR : ∀ s s', R s s' → InStep R (fun _ _ => False) s s' := by
    rintro s s' ⟨ts, rfl, rfl⟩
    cases ts with
    | nil => exact .inl ⟨mark, _, _, rfl, rfl, .inl hmark⟩
    | cons t ts => exact .inl ⟨t, _, _, rfl, rfl, .inr ⟨ts, rfl, rfl⟩⟩
  rcases TokenSource.firstParse_sameOutcome hR ⟨before, rfl, rfl⟩ with h | ⟨_, _, hF, -⟩
  · exact h.1
  · exact hF.elim

end ArithJit
