import ArithJit.Event

/-!
# Computations that keep a log

A stage either gives a result or fails, and in both cases it has said something. Doing one stage
after another joins what they said; a failure ends the sequence and keeps the log.
-/

namespace ArithJit

/-- A result or a reason for failing, and the records made on the way. -/
structure Logged (ε α : Type) where
  log : List Event
  result : Except ε α

namespace Logged

variable {ε δ α β : Type}

/-- A result without records. -/
def ok (a : α) : Logged ε α := ⟨[], .ok a⟩

/-- Goes on with the result, unless there is none. -/
def bind (x : Logged ε α) (f : α → Logged ε β) : Logged ε β :=
  match x.result with
  | .ok a => ⟨x.log ++ (f a).log, (f a).result⟩
  | .error e => ⟨x.log, .error e⟩

instance : Monad (Logged ε) where
  pure := ok
  bind := bind

/-- After a result the records of the rest follow. -/
theorem bind_of_ok {x : Logged ε α} {a : α} (h : x.result = .ok a) (f : α → Logged ε β) :
    x >>= f = ⟨x.log ++ (f a).log, (f a).result⟩ := by
  show bind x f = _
  simp only [bind, h]

/-- After a failure nothing is added to the log. -/
theorem bind_of_error {x : Logged ε α} {e : ε} (h : x.result = .error e) (f : α → Logged ε β) :
    x >>= f = ⟨x.log, .error e⟩ := by
  show bind x f = _
  simp only [bind, h]

/-- Makes a record. -/
def tell (event : Event) : Logged ε Unit := ⟨[event], .ok ()⟩

/-- A plain result as a computation that says nothing. -/
def ofExcept (r : Except ε α) : Logged ε α := ⟨[], r⟩

/-- Changes the reason for failing. -/
def mapError (f : ε → δ) (x : Logged ε α) : Logged δ α := ⟨x.log, x.result.mapError f⟩

end Logged

end ArithJit
