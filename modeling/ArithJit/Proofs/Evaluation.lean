import ArithJit.Proofs.Code.Lowering
import ArithJit.Proofs.Engine
import ArithJit.Proofs.Expr.Rendering
import ArithJit.Proofs.Parser.Acceptance
import ArithJit.Proofs.Token.Delivery

/-!
# Evaluation

A text writes an expression if it is lexed to the end and its tokens derive that expression. The
stages are joined here: a text that writes an expression is evaluated to the value of that
expression, whatever the settings, and any other text fails in the lexer or in the grammar.
-/

namespace ArithJit

namespace Logged

variable {ε δ α β : Type}

/-- Apart from the log, stages are done one after another as plain results are. -/
@[simp] theorem result_bind (x : Logged ε α) (f : α → Logged ε β) :
    (x >>= f).result = x.result.bind fun a => (f a).result := by
  cases h : x.result with
  | ok a => rw [bind_of_ok h]; rfl
  | error e => rw [bind_of_error h]; rfl

@[simp] theorem result_pure (a : α) : (pure a : Logged ε α).result = .ok a := rfl

@[simp] theorem result_tell (event : Event) : (tell event : Logged ε Unit).result = .ok () := rfl

@[simp] theorem result_ofExcept (r : Except ε α) : (ofExcept r).result = r := rfl

@[simp] theorem result_mapError (f : ε → δ) (x : Logged ε α) :
    (x.mapError f).result = x.result.mapError f := rfl

end Logged

variable {source : String} {settings : Settings} {e : Expr} {v : Binary64} {f : ParseFailure}

/-- The text is lexed without error, and its tokens before the end mark derive the expression. -/
def Writes (source : String) (e : Expr) : Prop :=
  ∃ ts mark, tokens source = .ok (ts ++ [mark]) ∧ mark.kind = .endMark ∧ Derives .expr ts e

theorem Derives.isWhole {n : Nonterminal} {ts : List Token} (h : Derives n ts e) :
    e.isWhole = true := by
  induction h with
  | number => rfl
  | negation _ _ ih => exact ih
  | group _ _ _ ih => exact ih
  | factor _ ih => exact ih
  | product _ _ _ _ ihl ihr => simp [Expr.isWhole, ihl, ihr]
  | term _ ih => exact ih
  | sum _ _ _ _ ihl ihr => simp [Expr.isWhole, ihl, ihr]

theorem Writes.isWhole (h : Writes source e) : e.isWhole = true := by
  obtain ⟨_, _, -, -, hderives⟩ := h
  exact hderives.isWhole

theorem exists_number_of_tokens {ts : List Token} (h : tokens source = .ok ts) :
    ∀ t ∈ ts, t.kind = .number → ∃ x, t.number = .ok x := by
  obtain ⟨us, r, hdelivers⟩ := (Cursor.ofText source).exists_delivers
  rw [tokens, hdelivers.tokens_eq] at h
  cases r with
  | none =>
    obtain rfl := Except.ok.inj h
    exact fun t ht hkind => hdelivers.exists_number ht hkind
  | some err => simp at h

theorem readExpr_result (source : String) :
    (readExpr source).result = (TokenSource.lexer (.reading source)).firstParse := by
  unfold readExpr TokenSource.firstParse
  split <;> simp_all

/-- Reading from the stream of a text is reading from the list of the tokens that it delivers. -/
theorem exists_delivers_sameOutcome (source : String) :
    ∃ ts r, (Cursor.ofText source).Delivers ts r ∧
      Parser.SameOutcome (fun f f' => ∃ err, r = some err ∧ f = .lexical err ∧ f' = .unended)
        (readExpr source).result (TokenSource.given ts).firstParse := by
  obtain ⟨ts, r, h⟩ := (Cursor.ofText source).exists_delivers
  exact ⟨ts, r, h, readExpr_result source ▸ Cursor.Delivers.sameOutcome h rfl⟩

/-- A text is read as an expression exactly if it writes it. -/
theorem readExpr_eq_ok_iff : (readExpr source).result = .ok e ↔ Writes source e := by
  obtain ⟨ts, r, hdelivers, hsame⟩ := exists_delivers_sameOutcome source
  have htokens : tokens source = r.elim (.ok ts) .error := hdelivers.tokens_eq
  constructor
  · intro hread
    rcases hsame with ⟨heq, -⟩ | ⟨_, _, -, herror, -⟩
    · obtain ⟨p, p', hp, hparse⟩ := firstParse_eq_ok (heq.symm.trans hread)
      obtain ⟨before, after, rfl, -, hmark, hderives⟩ := derives_of_parse hp hparse
      obtain ⟨rfl, rfl⟩ := hdelivers.eq_of_endMark hmark
      exact ⟨before, p'.current, htokens, hmark, hderives⟩
    · simp [hread] at herror
  · rintro ⟨before, mark, hlexed, hmark, hderives⟩
    obtain ⟨rfl, rfl⟩ : r = none ∧ ts = before ++ [mark] := by
      cases r <;> simp_all
    have hparse : (TokenSource.given (before ++ [mark])).firstParse = .ok e :=
      firstParse_given_of_derives hderives hmark
    rcases hsame with ⟨heq, -⟩ | ⟨_, _, -, -, herror⟩
    · rw [heq, hparse]
    · simp [hparse] at herror

/-- A text that is not read fails in the lexer, with the error of lexing it as a whole, or in the
    grammar: numbers that were lexed have values, and a stream without error ends with its mark. -/
theorem readExpr_eq_error (h : (readExpr source).result = .error f) :
    (∃ err, f = .lexical err ∧ tokens source = .error err) ∨ ∃ err, f = .grammar err := by
  obtain ⟨ts, r, hdelivers, hsame⟩ := exists_delivers_sameOutcome source
  have htokens : tokens source = r.elim (.ok ts) .error := hdelivers.tokens_eq
  rcases hsame with ⟨heq, hfetch⟩ | ⟨_, _, ⟨err, rfl, rfl, -⟩, herror, -⟩
  · rcases firstParse_given_eq_error (heq.symm.trans h) with
      hgrammar | rfl | ⟨t, ht, err, -, hkind, hnumber⟩
    · exact .inr hgrammar
    · exact absurd (hfetch _ h) (by decide)
    · obtain ⟨x, hx⟩ := hdelivers.exists_number ht hkind
      simp [hx] at hnumber
  · obtain rfl : f = .lexical err := by simpa [h] using herror
    exact .inl ⟨err, rfl, htokens⟩

/-- The rendering of an expression that was read never fails. -/
theorem parseText_result (source : String) :
    (parseText source).result = (readExpr source).result.mapError .ofParse := by
  cases hread : (readExpr source).result with
  | error f => simp [parseText, hread, Except.mapError, Except.bind]
  | ok tree =>
    have hwhole := (readExpr_eq_ok_iff.1 hread).isWhole
    simp [parseText, hread, Expr.render_eq hwhole, Except.mapError, Except.bind]

/-- A text is parsed as an expression exactly if it writes it. -/
theorem parseText_eq_ok_iff : (parseText source).result = .ok e ↔ Writes source e := by
  rw [← readExpr_eq_ok_iff, parseText_result]
  cases (readExpr source).result with
  | ok tree => simp [Except.mapError]
  | error f => simp [Except.mapError]

/-- A text that writes an expression is evaluated by running the code of that expression. -/
theorem evaluate_result_of_writes (settings : Settings) (h : Writes source e) :
    (evaluate source settings).result =
      (runRoutine ⟨settings.entryName, e.code 0 ++ [e.returnNode]⟩ settings).result.mapError
        .engine := by
  have hwhole := h.isWhole
  have hcompile : (compileText source settings.entryName).result =
      .ok ⟨settings.entryName, e.code 0 ++ [e.returnNode]⟩ := by
    simp [compileText, parseText, lowerExpr, readExpr_eq_ok_iff.2 h, Expr.render_eq hwhole,
      Expr.lower_eq hwhole, Except.mapError, Except.bind]
  cases hrun : (runRoutine ⟨settings.entryName, e.code 0 ++ [e.returnNode]⟩ settings).result with
  | ok v => simp [evaluate, hcompile, hrun, Except.mapError, Except.bind]
  | error err => simp [evaluate, hcompile, hrun, Except.mapError, Except.bind]

/-- A text that writes an expression has its value, whatever the settings. -/
theorem evaluate_of_writes (hsettings : settings.IsAccepted) (h : Writes source e)
    (hv : e.value? = some v) : (evaluate source settings).result = .ok v := by
  rw [evaluate_result_of_writes settings h,
    runRoutine_eq_ok hsettings rfl (Expr.returns_code hv settings.entryName)]
  rfl

/-- A text that is not read as an expression fails as its reading does. -/
theorem evaluate_of_error (settings : Settings) (h : (readExpr source).result = .error f) :
    (evaluate source settings).result = .error (.ofParse f) := by
  simp [evaluate, compileText, parseText, h, Except.mapError, Except.bind]

/-- A text is evaluated exactly if it writes an expression, and then to the value of that
    expression. Every other text fails in the lexer, with the error of lexing it as a whole, or in
    the grammar; no number of a text that is lexed is without a value. The settings make no
    difference, as long as the back end has nothing against them. -/
theorem evaluate_iff_writes (source : String) (settings : Settings) (h : settings.IsAccepted) :
    ((∃ v, (evaluate source settings).result = .ok v) ↔ ∃ e, Writes source e) ∧
    (∀ e, Writes source e → ∃ v, e.value? = some v ∧ (evaluate source settings).result = .ok v) ∧
    ((¬∃ e, Writes source e) →
      (∃ err, tokens source = .error err ∧
        (evaluate source settings).result = .error (.lexical err)) ∨
      ∃ err, (evaluate source settings).result = .error (.grammar err)) ∧
    (∀ ts, tokens source = .ok ts → ∀ t ∈ ts, t.kind = .number → ∃ x, t.number = .ok x) ∧
    ∀ other : Settings, other.IsAccepted →
      (evaluate source other).result = (evaluate source settings).result := by
  have hvalue {other : Settings} (hother : other.IsAccepted) (e : Expr) (he : Writes source e) :
      ∃ v, e.value? = some v ∧ (evaluate source other).result = .ok v := by
    obtain ⟨v, hv⟩ := Expr.exists_value_of_isWhole he.isWhole
    exact ⟨v, hv, evaluate_of_writes hother he hv⟩
  cases hread : (readExpr source).result with
  | ok e =>
    have he : Writes source e := readExpr_eq_ok_iff.1 hread
    obtain ⟨v, hv, hresult⟩ := hvalue h e he
    refine ⟨⟨fun _ => ⟨e, he⟩, fun _ => ⟨v, hresult⟩⟩, hvalue h, fun hnone => (hnone ⟨e, he⟩).elim,
      fun _ => exists_number_of_tokens, fun other hother => ?_⟩
    rw [hresult, evaluate_of_writes hother he hv]
  | error f =>
    have hnone : ¬∃ e, Writes source e := by
      rintro ⟨e, he⟩
      simp [readExpr_eq_ok_iff.2 he] at hread
    have hresult := evaluate_of_error settings hread
    refine ⟨⟨?_, fun he => (hnone he).elim⟩, hvalue h, fun _ => ?_,
      fun _ => exists_number_of_tokens, fun other _ => ?_⟩
    · rintro ⟨v, hv⟩
      simp [hresult] at hv
    · rcases readExpr_eq_error hread with ⟨err, rfl, htokens⟩ | ⟨err, rfl⟩
      · exact .inl ⟨err, htokens, hresult⟩
      · exact .inr ⟨err, hresult⟩
    · rw [hresult, evaluate_of_error other hread]

/-- A text with a value, under the settings where none are given. -/
theorem evaluate_difference_of_quotient :
    Settings.default.IsAccepted ∧ ∃ e, Writes "7-.5/-(2)" e ∧
      e.value? = some ⟨0x401d000000000000⟩ ∧
      (evaluate "7-.5/-(2)" .default).result = .ok ⟨0x401d000000000000⟩ := by
  have haccepted : Settings.default.IsAccepted := ⟨by decide, by decide⟩
  have hresult : (evaluate "7-.5/-(2)" .default).result = .ok ⟨0x401d000000000000⟩ := by
    decide +kernel
  obtain ⟨hiff, hfold, -⟩ := evaluate_iff_writes "7-.5/-(2)" .default haccepted
  obtain ⟨e, he⟩ := hiff.1 ⟨_, hresult⟩
  obtain ⟨v, hv, hok⟩ := hfold e he
  rw [Except.ok.inj (hok.symm.trans hresult)] at hv
  exact ⟨haccepted, e, he, hv, hresult⟩

end ArithJit
