import ArithJit.Proofs.Token.Lexeme

/-!
# Using a stream of tokens

A stream is started and asked for tokens, in any order and as often as one likes. Once it is started
it owes its user the tokens of the rest of the text, and then the lexical error if there is one.
`Owes` says so. A further start is refused and changes nothing, and a request for a token is
answered with the first thing that is owed, or with the end of the stream if nothing is. So the
answers are those of lexing the text as a whole, one at a time, whatever the requests are.

Of the places it is enough to know that a scan moves over characters of the text: the offset and the
number of characters that are left have a constant sum.
-/

namespace ArithJit

namespace Cursor

/-- The second cursor stands in the same text as the first, not before it. -/
structure Leads (c c' : Cursor) : Prop where
  sum_eq : c'.place.offset + c'.rest.length = c.place.offset + c.rest.length
  length_le : c'.rest.length ≤ c.rest.length

variable {c c' c'' : Cursor} {t : Token}

theorem Leads.refl (c : Cursor) : c.Leads c := ⟨rfl, Nat.le_refl _⟩

theorem Leads.trans (h : c.Leads c') (h' : c'.Leads c'') : c.Leads c'' :=
  ⟨h'.sum_eq.trans h.sum_eq, Nat.le_trans h'.length_le h.length_le⟩

theorem leads_advance (c : Cursor) (count : Nat) : c.Leads (c.advance count) := by
  refine ⟨?_, length_rest_advance_le c count⟩
  simp only [advance, Location.offset_after, List.length_take, List.length_drop]
  omega

theorem leads_scan (c : Cursor) : c.Leads c.scan.2 := by
  apply (leads_advance c _).trans
  show c.skipBlanks.Leads c.skipBlanks.scanToken.2
  generalize c.skipBlanks = s
  unfold scanToken
  split
  · exact .refl s
  · split
    · simp only [scanNumber, take]
      split
      · exact leads_advance s _
      · split
        all_goals exact leads_advance s _
    · split
      · exact leads_advance s _
      · exact .refl s

theorem Leads.offset_le (h : c.Leads c') : c.place.offset ≤ c'.place.offset := by
  have hsum := h.sum_eq
  have hle := h.length_le
  omega

/-- Every token but the end mark moves the place on. -/
theorem offset_lt_of_scan (h : c.scan = (.ok t, c')) (ht : t.kind ≠ .endMark) :
    c.place.offset < c'.place.offset := by
  have hlt := length_rest_scan h ht
  have hsum : c'.place.offset + c'.rest.length = c.place.offset + c.rest.length := by
    simpa [h] using (leads_scan c).sum_eq
  omega

end Cursor

namespace Lexer

/-- What can be asked of a stream. -/
inductive Request where
  | start
  | next
  deriving DecidableEq, Repr

/-- What a stream answers. -/
inductive Answer where
  | started
  | refused
  | token (t : Token)
  | failed (e : LexError)
  | ended
  deriving DecidableEq, Repr

/-- The answer to a request, and the stream after it. A stream that is not started anew stays as it
    is. -/
def answer (l : Lexer) : Request → Answer × Lexer
  | .start =>
      match l.start? with
      | some l' => (.started, l')
      | none => (.refused, l)
  | .next =>
      match l.next with
      | (.ok (some t), l') => (.token t, l')
      | (.ok none, l') => (.ended, l')
      | (.error e, l') => (.failed e, l')

/-- A request with its answer, and the stream before and after it. -/
structure Exchange where
  request : Request
  answer : Answer
  before : Lexer
  after : Lexer

/-- Makes requests one after the other, whatever is answered. -/
def exchanges (l : Lexer) : List Request → List Exchange
  | [] => []
  | r :: rs => ⟨r, (l.answer r).1, l, (l.answer r).2⟩ :: (l.answer r).2.exchanges rs

/-- Whether an answer delivers something: a token or the error. -/
def Answer.isDelivery : Answer → Bool
  | .token _ | .failed _ => true
  | .started | .refused | .ended => false

/-- Whether an answer is the end mark. -/
def Answer.isEndMark : Answer → Bool
  | .token t => t.kind = .endMark
  | _ => false

/-- Whether nothing is delivered after an answer: it is the end mark or the error. -/
def Answer.isLast : Answer → Bool
  | .failed _ => true
  | a => a.isEndMark

/-- Tokens and then an error, if there is one, as answers. -/
def deliveries (ts : List Token) (r : Option LexError) : List Answer :=
  ts.map .token ++ r.toList.map .failed

/-- What a stream that was started still has to deliver. -/
inductive Owes (l : Lexer) : List Answer → Prop
  | reading {ts : List Token} {r : Option LexError} (phase : l.phase = .reading)
      (delivers : l.cursor.Delivers ts r) : Owes l (deliveries ts r)
  | exhausted (phase : l.phase = .finished ∨ l.phase = .failed) : Owes l []

variable {l : Lexer} {as : List Answer} {a : Answer} {x : Exchange} {rs : List Request}

/-! ## One request -/

theorem Owes.answer_start (h : l.Owes as) : l.answer .start = (.refused, l) := by
  have hphase : l.phase ≠ .fresh := by
    cases h with
    | reading phase => simp [phase]
    | exhausted phase => rcases phase with phase | phase <;> simp [phase]
  simp [answer, start?, hphase]

/-- A request for a token is answered with the first thing that is owed. -/
theorem Owes.answer_next (h : l.Owes as) :
    (l.answer .next).1 = as.headD .ended ∧ (l.answer .next).2.Owes as.tail := by
  cases h with
  | exhausted phase =>
    have hphase : l.phase ≠ .reading := by rcases phase with phase | phase <;> simp [phase]
    simp only [answer, next, hphase, if_false]
    exact ⟨rfl, .exhausted phase⟩
  | reading phase delivers =>
    cases delivers with
    | failed scan =>
      simp only [answer, next, phase, scan, if_true]
      exact ⟨rfl, .exhausted (.inr rfl)⟩
    | ended scan kind =>
      simp only [answer, next, phase, scan, kind, if_true]
      exact ⟨rfl, .exhausted (.inl rfl)⟩
    | token scan kind rest =>
      simp only [answer, next, phase, scan, kind, if_true, if_false]
      exact ⟨rfl, .reading rfl rest⟩

/-- What is owed is delivered, and an end mark or an error is the last of it. -/
theorem Owes.of_cons (h : l.Owes (a :: as)) :
    a.isDelivery = true ∧ (a.isLast = true → as = []) := by
  generalize hall : a :: as = all at h
  cases h with
  | exhausted => simp at hall
  | reading phase delivers =>
    cases delivers with
    | failed scan | ended scan kind =>
      obtain ⟨rfl, rfl⟩ := List.cons.inj hall
      exact ⟨rfl, fun _ => rfl⟩
    | token scan kind rest =>
      obtain ⟨rfl, rfl⟩ := List.cons.inj hall
      exact ⟨rfl, fun hlast => absurd (of_decide_eq_true hlast) kind⟩

theorem Owes.countP_isEndMark (h : l.Owes as) : as.countP Answer.isEndMark ≤ 1 := by
  induction as generalizing l with
  | nil => simp
  | cons a as ih =>
    have hrest := ih h.answer_next.2
    rw [List.countP_cons]
    split
    · next hmark =>
      -- An end mark is the last delivery.
      have hlast : a.isLast = true := by
        cases a <;> simp_all [Answer.isLast, Answer.isEndMark]
      simp [h.of_cons.2 hlast]
    · omega

/-- No request moves a stream back, and every token but the end mark moves it on. -/
theorem offset_answer (l : Lexer) (r : Request) :
    l.cursor.place.offset ≤ (l.answer r).2.cursor.place.offset ∧
      ∀ t, (l.answer r).1 = .token t → t.kind ≠ .endMark →
        l.cursor.place.offset < (l.answer r).2.cursor.place.offset := by
  cases r with
  | start =>
    by_cases hphase : l.phase = .fresh
    all_goals
      simp only [answer, start?, hphase, if_true, if_false]
      exact ⟨Int.le_refl _, by simp⟩
  | next =>
    have hle := (Cursor.leads_scan l.cursor).offset_le
    simp only [answer, next]
    by_cases hphase : l.phase = .reading
    · rcases hscan : l.cursor.scan with ⟨e | t, c⟩
      · rw [hscan] at hle
        simp only [hphase, if_true]
        exact ⟨hle, by simp⟩
      · rw [hscan] at hle
        by_cases hkind : t.kind = .endMark
        · simp only [hphase, hkind, if_true]
          refine ⟨hle, fun u hu hne => ?_⟩
          obtain rfl := Answer.token.inj hu
          exact absurd hkind hne
        · simp only [hphase, hkind, if_true, if_false]
          exact ⟨hle, fun u hu hne => Cursor.offset_lt_of_scan hscan hkind⟩
    · simp only [hphase, if_false]
      exact ⟨Int.le_refl _, by simp⟩

/-! ## Many requests -/

theorem Owes.exists_owes (h : l.Owes as) (r : Request) : ∃ as', (l.answer r).2.Owes as' := by
  cases r with
  | start => exact ⟨as, h.answer_start ▸ h⟩
  | next => exact ⟨as.tail, h.answer_next.2⟩

theorem Owes.refused_of_start (h : l.Owes as) (hx : x ∈ l.exchanges rs)
    (hstart : x.request = .start) : x.answer = .refused ∧ x.after = x.before := by
  induction rs generalizing l as with
  | nil => simp [exchanges] at hx
  | cons r rs ih =>
    rcases List.mem_cons.1 hx with rfl | hx
    · simp only at hstart
      subst hstart
      simp only [h.answer_start, and_self]
    · obtain ⟨as', howes⟩ := h.exists_owes r
      exact ih howes hx

/-- The requests for tokens are answered with what is owed, in order, and then with the end. -/
theorem Owes.answers_next (h : l.Owes as) (rs : List Request) :
    ((l.exchanges rs).filter fun x => x.request = .next).map Exchange.answer =
      (List.range (rs.count .next)).map fun n => as[n]?.getD .ended := by
  induction rs generalizing l as with
  | nil => rfl
  | cons r rs ih =>
    cases r with
    | start =>
      simpa [exchanges, h.answer_start] using ih h
    | next =>
      obtain ⟨hanswer, howes⟩ := h.answer_next
      have hrest := ih howes
      have hhead : as.headD .ended = as[0]?.getD .ended := by cases as <;> rfl
      have htail (n : Nat) : as.tail[n]?.getD .ended = as[n + 1]?.getD .ended := by
        rw [List.getElem?_tail]
      simp only [exchanges, List.filter_cons, decide_true, if_true, List.map_cons, hrest,
        List.count_cons_self, List.range_succ_eq_map, List.map_map, hanswer, hhead, htail]
      rfl

/-- All that is delivered was owed, and is delivered in order. -/
theorem Owes.deliveries_prefix (h : l.Owes as) (rs : List Request) :
    ((l.exchanges rs).map Exchange.answer).filter Answer.isDelivery <+: as := by
  induction rs generalizing l as with
  | nil => exact List.nil_prefix
  | cons r rs ih =>
    cases r with
    | start =>
      simpa [exchanges, h.answer_start, Answer.isDelivery] using ih h
    | next =>
      obtain ⟨hanswer, howes⟩ := h.answer_next
      have hrest := ih howes
      cases as with
      | nil => simpa [exchanges, hanswer, Answer.isDelivery] using hrest
      | cons a as => simpa [exchanges, hanswer, h.of_cons.1] using hrest

theorem Owes.ended_of_nil (h : l.Owes []) (hx : x ∈ l.exchanges rs) (hnext : x.request = .next) :
    x.answer = .ended := by
  induction rs generalizing l with
  | nil => simp [exchanges] at hx
  | cons r rs ih =>
    rcases List.mem_cons.1 hx with rfl | hx
    · simp only at hnext
      subst hnext
      exact h.answer_next.1
    · cases r with
      | start => exact ih h (by rwa [h.answer_start] at hx)
      | next => exact ih h.answer_next.2 hx

/-- All end marks among the answers are delivered, so there is at most one. -/
theorem Owes.countP_answers (h : l.Owes as) (rs : List Request) :
    ((l.exchanges rs).map Exchange.answer).countP Answer.isEndMark ≤ 1 := by
  have hmark : (fun a : Answer => a.isEndMark && a.isDelivery) = Answer.isEndMark := by
    funext a
    cases a <;> simp [Answer.isEndMark, Answer.isDelivery]
  calc ((l.exchanges rs).map Exchange.answer).countP Answer.isEndMark
      = (((l.exchanges rs).map Exchange.answer).filter Answer.isDelivery).countP
          Answer.isEndMark := by rw [List.countP_filter, hmark]
    _ ≤ as.countP Answer.isEndMark := (h.deliveries_prefix rs).sublist.countP_le
    _ ≤ 1 := h.countP_isEndMark

/-- After the end mark or the error only the end of the stream is left. -/
theorem Owes.ended_of_isLast {before after : List Exchange} {y : Exchange} (h : l.Owes as)
    (hsplit : l.exchanges rs = before ++ x :: after) (hlast : x.answer.isLast = true)
    (hy : y ∈ after) (hnext : y.request = .next) : y.answer = .ended := by
  induction rs generalizing l as before with
  | nil => simp [exchanges] at hsplit
  | cons r rs ih =>
    cases before with
    | cons z before =>
      obtain ⟨as', howes⟩ := h.exists_owes r
      exact ih howes (List.cons.inj hsplit).2
    | nil =>
      obtain ⟨rfl, rfl⟩ := List.cons.inj hsplit
      cases r with
      | start => simp [h.answer_start, Answer.isLast, Answer.isEndMark] at hlast
      | next =>
        obtain ⟨hanswer, howes⟩ := h.answer_next
        have hnil : as.tail = [] := by
          cases as with
          | nil => rfl
          | cons a as => exact h.of_cons.2 (by simpa [hanswer] using hlast)
        rw [hnil] at howes
        exact howes.ended_of_nil hy hnext

theorem offset_of_mem_exchanges (hx : x ∈ l.exchanges rs) :
    x.before.cursor.place.offset ≤ x.after.cursor.place.offset ∧
      ∀ t, x.answer = .token t → t.kind ≠ .endMark →
        x.before.cursor.place.offset < x.after.cursor.place.offset := by
  induction rs generalizing l with
  | nil => simp [exchanges] at hx
  | cons r rs ih =>
    rcases List.mem_cons.1 hx with rfl | hx
    · exact offset_answer l r
    · exact ih hx

/-- A stream of the tokens of a text is started once and delivers what lexing the text as a whole
    meets. Whatever requests follow the first start, every further start is refused and changes
    nothing. The requests for tokens are answered, in order, with the tokens and the error that
    lexing as a whole comes to, and then with the end of the stream; so what is delivered is a
    prefix of those. The place never goes back, and goes on with every token but the end mark. At
    most one end mark is delivered, and after it or after an error only the end of the stream is
    answered. -/
theorem stream_delivers_tokens (source : String) (rs : List Request) :
    ∃ ts r rest, (Cursor.ofText source).Delivers ts r ∧
      tokens source = r.elim (.ok ts) .error ∧
      (ofText source).exchanges (.start :: rs) =
        ⟨.start, .started, ofText source, reading source⟩ :: rest ∧
      (∀ x ∈ rest, x.request = .start → x.answer = .refused ∧ x.after = x.before) ∧
      ((rest.filter fun x => x.request = .next).map Exchange.answer =
        (List.range (rs.count .next)).map fun n => (deliveries ts r)[n]?.getD .ended) ∧
      (rest.map Exchange.answer).filter Answer.isDelivery <+: deliveries ts r ∧
      (∀ x ∈ rest, x.before.cursor.place.offset ≤ x.after.cursor.place.offset ∧
        ∀ t, x.answer = .token t → t.kind ≠ .endMark →
          x.before.cursor.place.offset < x.after.cursor.place.offset) ∧
      (rest.map Exchange.answer).countP Answer.isEndMark ≤ 1 ∧
      ∀ before x after, rest = before ++ x :: after → x.answer.isLast = true →
        ∀ y ∈ after, y.request = .next → y.answer = .ended := by
  obtain ⟨ts, r, hdelivers⟩ := (Cursor.ofText source).exists_delivers
  have howes : (reading source).Owes (deliveries ts r) := .reading rfl hdelivers
  refine ⟨ts, r, (reading source).exchanges rs, hdelivers, hdelivers.tokens_eq, rfl,
    fun x => howes.refused_of_start, howes.answers_next rs, howes.deliveries_prefix rs,
    fun x => offset_of_mem_exchanges, howes.countP_answers rs, ?_⟩
  intro before x after hsplit hlast y hy hnext
  exact howes.ended_of_isLast hsplit hlast hy hnext

end Lexer

end ArithJit
