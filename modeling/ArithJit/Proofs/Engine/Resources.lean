import ArithJit.Proofs.Engine.Calls
import ArithJit.Proofs.Evaluation

/-!
# Engines give back what they take

Bringing the machine of an engine up and giving it back are the only calls on it that leave a
record of the one or the other kind in the log. Their numbers differ by one as long as the machine
is up, and nothing comes up again once it was given back, for then the engine is closed. A closed
engine refuses every call but another closing, and no call changes it.

An evaluation opens an engine of its own and closes it in any case. Its log is that of a run from
entering the scope of a new engine to leaving it, so a text that is read takes one machine and gives
it back, and a text that is not read takes none.
-/

namespace ArithJit

namespace Event

/-- Whether a machine came up. -/
def isOpening : Event → Bool
  | .opened _ => true
  | _ => false

/-- Whether a machine was given back. -/
def isClosing : Event → Bool
  | .closed => true
  | _ => false

end Event

namespace Engine

/-- How often a machine came up. -/
def creations (past : List Record) : Nat := (past.flatMap Record.log).countP Event.isOpening

/-- How often a machine was given back. -/
def disposals (past : List Record) : Nat := (past.flatMap Record.log).countP Event.isClosing

variable {e : Engine} {c : Call} {reply : Reply (Option Binary64)} {past : List Record}

/-! ## One call -/

theorem countP_opening (e : Engine) :
    e.opening.countP Event.isOpening = (if e.isOpen then 0 else 1) ∧
      e.opening.countP Event.isClosing = 0 := by
  cases hopen : e.isOpen <;> simp [opening, hopen, Event.isOpening, Event.isClosing]

/-- The log tells of a machine that came up or was given back exactly if it was. -/
theorem Effect.countP_log (h : Effect e c reply) :
    reply.log.countP Event.isOpening =
        (if e.isOpen = false ∧ reply.engine.isOpen = true then 1 else 0) ∧
      reply.log.countP Event.isClosing =
        if e.isOpen = true ∧ reply.engine.isOpen = false then 1 else 0 := by
  obtain ⟨hopening, hclosing⟩ := countP_opening e
  cases h with
  | refused | invoked => cases e.isOpen <;> simp
  | started => cases hopen : e.isOpen <;> simp_all
  | failed _ only =>
    rcases only with rfl | rfl <;> cases hopen : e.isOpen <;>
      simp_all [List.countP_append, Event.isOpening, Event.isClosing]
  | compiled =>
    cases hopen : e.isOpen <;> simp_all [List.countP_append, Event.isOpening, Event.isClosing]
  | closed => cases hopen : e.isOpen <;> simp [Event.isOpening, Event.isClosing]

/-- No machine comes up in an engine that is closed. -/
theorem Effect.unclosed_of_opens (h : Effect e c reply) (hdown : e.isOpen = false)
    (hup : reply.engine.isOpen = true) : e.isClosed = false := by
  cases h with
  | refused | invoked => simp [hdown] at hup
  | started _ unclosed | failed unclosed | compiled unclosed => exact unclosed
  | closed => simp at hup

/-- Only the calls that close an engine give its machine back. -/
theorem Effect.isOpen_of_keeps (h : Effect e c reply) (hkeeps : c.isClosing = false)
    (hup : e.isOpen = true) : reply.engine.isOpen = true := by
  cases h with
  | refused | invoked => exact hup
  | started | failed | compiled => rfl
  | closed closing => simp [hkeeps] at closing

/-- A closed engine refuses every call but another closing, and is not changed by it. -/
theorem Effect.refused_of_closed (h : Effect e c reply) (hclosed : e.isClosed = true)
    (hkeeps : c.isClosing = false) :
    ∃ error d, reply = ⟨e, [], .error error⟩ ∧ error.diagnostic? = some d ∧
      d.kind = .internalError := by
  cases h with
  | refused _ internal =>
    obtain ⟨d, hd, hkind⟩ := internal
    exact ⟨_, d, rfl, hd, hkind⟩
  | started _ unclosed | failed unclosed | compiled unclosed | invoked unclosed =>
    simp [hclosed] at unclosed
  | closed closing => simp [hkeeps] at closing

/-- To close an engine again does nothing. -/
theorem Effect.eq_of_closing (h : Effect e c reply) (hcoherent : e.Coherent)
    (hclosed : e.isClosed = true) (hcloses : c.isClosing = true) :
    reply = ⟨e, [], .ok none⟩ := by
  obtain ⟨hdown, hempty⟩ := hcoherent.closed hclosed
  cases h with
  | refused unfit => simp [isClosing_of_unfit unfit] at hcloses
  | started _ unclosed | failed unclosed | compiled unclosed | invoked unclosed =>
    simp [hclosed] at unclosed
  | closed =>
    obtain ⟨settings, compiled, isOpen, entry, isInvoked, isClosed⟩ := e
    simp_all

/-! ## Runs -/

/-- No run changes a closed engine. -/
theorem run_of_closed (h : e.Coherent) (hclosed : e.isClosed = true) (cs : List Call) :
    (e.run cs).1 = e := by
  induction cs with
  | nil => rfl
  | cons c cs ih =>
    have hkept : (e.perform c).engine = e := by
      cases hcloses : c.isClosing with
      | true => rw [(perform_effect e c).eq_of_closing h hclosed hcloses]
      | false =>
        obtain ⟨error, d, hrefused, -⟩ := (perform_effect e c).refused_of_closed hclosed hcloses
        rw [hrefused]
    simp only [run, hkept, ih]

/-- How the records of all calls on an engine and its state balance. -/
structure Balanced (past : List Record) (e : Engine) : Prop where
  balance : creations past = disposals past + if e.isOpen then 1 else 0
  once : creations past ≤ 1
  unclosed : e.isClosed = false → disposals past = 0

theorem balanced_ofSettings (settings : Settings) : Balanced [] (ofSettings settings) where
  balance := rfl
  once := by simp [creations]
  unclosed _ := rfl

theorem Balanced.perform (h : Balanced past e) (c : Call) :
    Balanced (past ++ [e.record c]) (e.perform c).engine := by
  have heffect := perform_effect e c
  obtain ⟨hopening, hclosing⟩ := heffect.countP_log
  have hcreations : creations (past ++ [e.record c]) =
      creations past + (e.perform c).log.countP Event.isOpening := by
    simp [creations, record]
  have hdisposals : disposals (past ++ [e.record c]) =
      disposals past + (e.perform c).log.countP Event.isClosing := by
    simp [disposals, record]
  have hbalance := h.balance
  have honce := h.once
  constructor
  · rw [hcreations, hdisposals, hopening, hclosing, hbalance]
    cases e.isOpen <;> cases (e.perform c).engine.isOpen <;> simp
  · -- A machine comes up only in an engine that has none and was not closed.
    rw [hcreations, hopening]
    split
    · next hup =>
      have hnone := h.unclosed (heffect.unclosed_of_opens hup.1 hup.2)
      simp only [hup.1, Bool.false_eq_true, if_false] at hbalance
      omega
    · exact honce
  · intro hunclosed
    rw [heffect.isClosed_eq, Bool.or_eq_false_iff] at hunclosed
    rw [hdisposals, hclosing, h.unclosed hunclosed.1, if_neg]
    rintro ⟨hup, hdown⟩
    simp [heffect.isOpen_of_keeps hunclosed.2 hup] at hdown

theorem balanced_run (settings : Settings) (cs : List Call) :
    Balanced ((ofSettings settings).run cs).2 ((ofSettings settings).run cs).1 :=
  run_induction (fun _ _ c h => h.perform c) (balanced_ofSettings settings) cs

theorem disposals_le_one (settings : Settings) (cs : List Call) :
    disposals ((ofSettings settings).run cs).2 ≤ 1 := by
  have h := balanced_run settings cs
  have hbalance := h.balance
  have honce := h.once
  omega

/-- After a closing everything was given back. -/
theorem creations_eq_disposals {settings : Settings} {cs : List Call}
    (h : ∃ x ∈ ((ofSettings settings).run cs).2, x.call.isClosing = true) :
    creations ((ofSettings settings).run cs).2 = disposals ((ofSettings settings).run cs).2 := by
  have hclosed : ((ofSettings settings).run cs).1.isClosed = true := by
    rw [isClosed_run, List.any_eq_true]
    exact h
  have hdown := (((coherent_ofSettings settings).run cs).closed hclosed).1
  simpa [hdown] using (balanced_run settings cs).balance

end Engine

/-! ## Evaluation -/

open ArithJit.Engine

variable {ε α β : Type}

/-- The log of running a routine is that of a run from entering the scope of a new engine to leaving
    it. -/
theorem exists_calls_runRoutine (r : Routine) (settings : Settings) :
    ∃ cs, (runRoutine r settings).log =
      ((ofSettings settings).run (.enter :: cs ++ [.exit])).2.flatMap Record.log := by
  have hstart : (ofSettings settings).start.result = .ok () := rfl
  cases hcompile : ((ofSettings settings).start.engine.compile r).result with
  | error error =>
    refine ⟨[.compile r], ?_⟩
    simp [runRoutine, hstart, hcompile, Engine.run, record, Engine.perform, Reply.map]
  | ok =>
    refine ⟨[.compile r, .invoke], ?_⟩
    simp [runRoutine, hstart, hcompile, Engine.run, record, Engine.perform, Reply.map]

/-- Running a routine takes one machine and gives it back. -/
theorem countP_log_runRoutine (r : Routine) (settings : Settings) :
    (runRoutine r settings).log.countP Event.isOpening = 1 ∧
      (runRoutine r settings).log.countP Event.isClosing = 1 := by
  obtain ⟨cs, hlog⟩ := exists_calls_runRoutine r settings
  have hexit : Call.exit ∈ .enter :: cs ++ [.exit] := by simp
  obtain ⟨x, hx, hcall⟩ := exists_record_of_mem (ofSettings settings) hexit
  have hequal := creations_eq_disposals ⟨x, hx, hcall ▸ rfl⟩
  have honce := (balanced_run settings (.enter :: cs ++ [.exit])).once
  have hone : 1 ≤ creations ((ofSettings settings).run (.enter :: cs ++ [.exit])).2 := by
    simp [creations, Engine.run, record, Engine.perform, start, ofSettings, Reply.map,
      Event.isOpening]
  unfold creations at hequal honce hone
  unfold disposals at hequal
  rw [hlog]
  omega

/-- No machine comes up or is given back in the log. -/
def IsIdle (log : List Event) : Prop :=
  ∀ event ∈ log, event.isOpening = false ∧ event.isClosing = false

theorem IsIdle.countP_eq_zero {log : List Event} (h : IsIdle log) :
    log.countP Event.isOpening = 0 ∧ log.countP Event.isClosing = 0 := by
  constructor
  · exact List.countP_eq_zero.2 fun event hevent => by simp [(h event hevent).1]
  · exact List.countP_eq_zero.2 fun event hevent => by simp [(h event hevent).2]

theorem Logged.isIdle_bind {x : Logged ε α} {f : α → Logged ε β} (hx : IsIdle x.log)
    (hf : ∀ a, IsIdle (f a).log) : IsIdle (x >>= f).log := by
  cases hresult : x.result with
  | error err => rwa [bind_of_error hresult]
  | ok a =>
    rw [bind_of_ok hresult]
    intro event hevent
    rcases List.mem_append.1 hevent with hevent | hevent
    · exact hx event hevent
    · exact hf a event hevent

theorem isIdle_readExpr (source : String) : IsIdle (readExpr source).log := by
  have hevents (s : TokenSource) : IsIdle s.events := by
    cases s with
    | given ts => simp [TokenSource.events, IsIdle]
    | lexer l =>
      unfold TokenSource.events Lexer.events
      split <;> simp [IsIdle, Event.isOpening, Event.isClosing]
  unfold readExpr
  split
  · simp [IsIdle]
  · exact hevents _

theorem isIdle_nil : IsIdle [] := by simp [IsIdle]

/-- Reading and lowering a text needs no machine. -/
theorem isIdle_compileText (source name : String) : IsIdle (compileText source name).log := by
  have htell {event : Event} (h : event.isOpening = false ∧ event.isClosing = false) :
      IsIdle (Logged.tell event : Logged Failure Unit).log := by
    simpa [IsIdle, Logged.tell] using h
  refine Logged.isIdle_bind (Logged.isIdle_bind (isIdle_readExpr source) fun e => ?_) fun e => ?_
  · exact Logged.isIdle_bind isIdle_nil fun _ =>
      Logged.isIdle_bind (htell ⟨rfl, rfl⟩) fun _ => isIdle_nil
  · exact Logged.isIdle_bind isIdle_nil fun _ =>
      Logged.isIdle_bind (htell ⟨rfl, rfl⟩) fun _ => isIdle_nil

/-- A text that is parsed is lowered. -/
theorem isOk_compileText (source name : String) :
    (compileText source name).result.isOk = (parseText source).result.isOk := by
  cases hparse : (parseText source).result with
  | error f => simp [compileText, hparse, Except.bind, Except.isOk, Except.toBool]
  | ok tree =>
    have hread : (readExpr source).result = .ok tree := by
      rw [parseText_result] at hparse
      cases hread : (readExpr source).result with
      | error f => simp [hread, Except.mapError] at hparse
      | ok e => simpa [hread, Except.mapError] using hparse
    have hwhole := (readExpr_eq_ok_iff.1 hread).isWhole
    simp [compileText, lowerExpr, hparse, Expr.lower_eq hwhole, Except.mapError, Except.bind,
      Except.isOk, Except.toBool]

/-- An evaluation takes one machine and gives it back if the text is parsed, and takes none if it is
    not. -/
theorem countP_log_evaluate (source : String) (settings : Settings) :
    (evaluate source settings).log.countP Event.isOpening =
        (if (parseText source).result.isOk then 1 else 0) ∧
      (evaluate source settings).log.countP Event.isClosing =
        if (parseText source).result.isOk then 1 else 0 := by
  obtain ⟨hopening, hclosing⟩ := (isIdle_compileText source settings.entryName).countP_eq_zero
  rw [← isOk_compileText source settings.entryName]
  cases hcompile : (compileText source settings.entryName).result with
  | error f =>
    rw [evaluate, Logged.bind_of_error hcompile]
    exact ⟨hopening, hclosing⟩
  | ok r =>
    obtain ⟨hrunOpening, hrunClosing⟩ := countP_log_runRoutine r settings
    rw [evaluate, Logged.bind_of_ok hcompile]
    simp only [List.countP_append, hopening, hclosing, Nat.zero_add]
    cases hrun : ((runRoutine r settings).mapError Failure.engine).result with
    | error f =>
      rw [Logged.bind_of_error hrun]
      exact ⟨hrunOpening, hrunClosing⟩
    | ok value =>
      rw [Logged.bind_of_ok hrun]
      simp only [List.countP_append]
      exact ⟨congrArg (· + 0) hrunOpening, congrArg (· + 0) hrunClosing⟩

/-- After any calls on a new engine: a closed engine holds neither a machine nor compiled code;
    compiled code is held only with the machine up, in an engine neither closed nor invoked; a
    closed engine stays as it is, refuses every call but another closing, and says nothing more. The
    log tells of a machine exactly where one comes up or is given back. At most one comes up, at
    most one is given back, and after a closing these numbers are equal. So every evaluation gives
    back what it takes: one machine if the text is parsed, and none if it is not. -/
theorem engine_gives_back (settings : Settings) (calls : List Call) :
    let e := ((ofSettings settings).run calls).1
    let records := ((ofSettings settings).run calls).2
    (e.isClosed = true → e.isOpen = false ∧ e.entry = none) ∧
    (∀ code, e.entry = some code →
      e.isOpen = true ∧ e.isClosed = false ∧ e.isInvoked = false) ∧
    (e.isClosed = true →
      (∀ more, (e.run more).1 = e) ∧
      ∀ c : Call, if c.isClosing then e.perform c = ⟨e, [], .ok none⟩
        else ∃ error d, e.perform c = ⟨e, [], .error error⟩ ∧ error.diagnostic? = some d ∧
          d.kind = .internalError) ∧
    (∀ c, let next := e.perform c
      next.log.countP Event.isOpening =
          (if e.isOpen = false ∧ next.engine.isOpen = true then 1 else 0) ∧
        next.log.countP Event.isClosing =
          if e.isOpen = true ∧ next.engine.isOpen = false then 1 else 0) ∧
    creations records ≤ 1 ∧ disposals records ≤ 1 ∧
    ((∃ x ∈ records, x.call.isClosing = true) → creations records = disposals records) ∧
    ∀ source, let log := (evaluate source settings).log
      log.countP Event.isOpening = log.countP Event.isClosing ∧
        log.countP Event.isOpening = if (parseText source).result.isOk then 1 else 0 := by
  intro e records
  have hcoherent : e.Coherent := (coherent_ofSettings settings).run calls
  refine ⟨hcoherent.closed, hcoherent.held, fun hclosed => ⟨run_of_closed hcoherent hclosed, ?_⟩,
    fun c => (perform_effect e c).countP_log, (balanced_run settings calls).once,
    disposals_le_one settings calls, creations_eq_disposals, fun source => ?_⟩
  · intro c
    split
    · next hcloses => exact (perform_effect e c).eq_of_closing hcoherent hclosed hcloses
    · next hkeeps =>
      exact (perform_effect e c).refused_of_closed hclosed (Bool.not_eq_true _ ▸ hkeeps)
  · obtain ⟨hopening, hclosing⟩ := countP_log_evaluate source settings
    exact ⟨hopening.trans hclosing.symm, hopening⟩

end ArithJit
