import Mathlib.Control.Monad.Basic
import ArithJit.Proofs.Engine.Calls

/-!
# Compiling again after a failure

A compilation that fails leaves everything on the engine as it was, except that the machine below it
may now be up. This one field decides what a later call says, but not what it gives: two engines
that are alike in all else answer every call alike, and stay alike. So failed compilations leave no
trace in whatever comes after them.
-/

namespace ArithJit.Engine

/-- Two engines that differ at most in whether their machines are up. -/
structure Alike (e e' : Engine) : Prop where
  settings : e'.settings = e.settings
  compiled : e'.compiled = e.compiled
  entry : e'.entry = e.entry
  isInvoked : e'.isInvoked = e.isInvoked
  isClosed : e'.isClosed = e.isClosed

/-- Two replies that give the same and leave engines behind that are alike. -/
structure Reply.Alike {α : Type} (x x' : Reply α) : Prop where
  result : x'.result = x.result
  engine : x.engine.Alike x'.engine

theorem Reply.Alike.map {α β : Type} {x x' : Reply α} (h : x.Alike x') (f : α → β) :
    (x.map f).Alike (x'.map f) where
  result := by simp only [Reply.map, h.result]
  engine := h.engine

namespace Alike

variable {e e' e'' : Engine}

theorem refl (e : Engine) : e.Alike e := ⟨rfl, rfl, rfl, rfl, rfl⟩

theorem trans (h : e.Alike e') (h' : e'.Alike e'') : e.Alike e'' where
  settings := h'.settings.trans h.settings
  compiled := h'.compiled.trans h.compiled
  entry := h'.entry.trans h.entry
  isInvoked := h'.isInvoked.trans h.isInvoked
  isClosed := h'.isClosed.trans h.isClosed

/-! ## One call -/

theorem start (h : e.Alike e') : e.start.Alike e'.start := by
  have hsame := h.isClosed
  cases hclosed : e.isClosed with
  | true =>
    rw [hclosed] at hsame
    simp only [Engine.start, hclosed, hsame, if_true]
    exact ⟨rfl, h⟩
  | false =>
    rw [hclosed] at hsame
    rw [start_of_unclosed hclosed, start_of_unclosed hsame]
    exact ⟨rfl, h.settings, h.compiled, h.entry, h.isInvoked, h.isClosed⟩

theorem compileOpen (h : e.Alike e') (r : Routine) :
    (e.compileOpen r).Alike (e'.compileOpen r) := by
  unfold Engine.compileOpen
  -- Of the engine only the settings are read, so both fail at the same point or not at all.
  rw [h.settings]
  cases r.emit e.settings.moduleName with
  | error error => exact ⟨rfl, h⟩
  | ok m =>
    cases hload : m.load? e.settings.verify with
    | none =>
      simp only [hload]
      exact ⟨rfl, h⟩
    | some entry =>
      simp only [hload]
      cases Text.asciiError? r.name with
      | some error => exact ⟨rfl, h⟩
      | none =>
        by_cases hexported : m.isExported = true
        · simp only [hexported, if_true]
          exact ⟨rfl, rfl, rfl, rfl, h.isInvoked, h.isClosed⟩
        · simp only [hexported]
          exact ⟨rfl, h⟩

theorem compile (h : e.Alike e') (r : Routine) : (e.compile r).Alike (e'.compile r) := by
  unfold Engine.compile
  rw [h.entry, h.isInvoked]
  split
  · exact ⟨rfl, h⟩
  · have hstart := h.start
    cases hresult : e.start.result with
    | error error =>
      simp only [hstart.result, hresult]
      exact ⟨rfl, hstart.engine⟩
    | ok =>
      have hopen := hstart.engine.compileOpen r
      simp only [hstart.result, hresult]
      exact ⟨hopen.result, hopen.engine⟩

theorem invoke (h : e.Alike e') : e.invoke.Alike e'.invoke := by
  unfold Engine.invoke
  rw [h.isClosed, h.isInvoked, h.entry]
  split
  · exact ⟨rfl, h⟩
  · split
    · exact ⟨rfl, h⟩
    · split
      · exact ⟨rfl, h⟩
      · exact ⟨rfl, h.settings, h.compiled, rfl, rfl, rfl⟩

theorem close (h : e.Alike e') : e.close.Alike e'.close :=
  ⟨rfl, h.settings, h.compiled, rfl, h.isInvoked, rfl⟩

/-- Engines that are alike answer a call alike, and stay alike. -/
theorem perform (h : e.Alike e') (c : Call) : (e.perform c).Alike (e'.perform c) := by
  cases c with
  | start | enter => exact h.start.map _
  | compile r => exact (h.compile r).map _
  | invoke => exact h.invoke.map _
  | exit | close => exact h.close.map _

/-! ## Runs -/

theorem run (h : e.Alike e') (cs : List Call) :
    (e'.run cs).2.map Record.result = (e.run cs).2.map Record.result ∧
      (e.run cs).1.Alike (e'.run cs).1 := by
  induction cs generalizing e e' with
  | nil => exact ⟨rfl, h⟩
  | cons c cs ih =>
    have hreply := h.perform c
    obtain ⟨hresults, hfinal⟩ := ih hreply.engine
    refine ⟨?_, hfinal⟩
    simp only [Engine.run, List.map_cons, record, hreply.result, hresults]

end Alike

variable {e : Engine} {r : Routine} {error : EngineError}

/-- A compilation that fails does nothing, or brings the machine up and does nothing else. -/
theorem compile_of_error (h : (e.compile r).result = .error error) :
    (e.compile r).engine = e ∨ (e.compile r).engine = { e with isOpen := true } := by
  have heffect := compile_effect (e := e) r
  generalize hreply : (e.compile r).map (fun _ => none) = reply at heffect
  have hengine : (e.compile r).engine = reply.engine := by rw [← hreply]; rfl
  have herror : reply.result = .error error := by
    rw [← hreply]
    simp only [Reply.map, h]
    rfl
  rw [hengine]
  cases heffect with
  | refused => exact .inl rfl
  | started call => simp at call
  | failed => exact .inr rfl
  | compiled => simp at herror
  | closed => simp at herror

theorem alike_compile (h : (e.compile r).result = .error error) :
    e.Alike (e.compile r).engine := by
  rcases compile_of_error h with hsame | hup
  · rw [hsame]
    exact .refl e
  · rw [hup]
    exact ⟨rfl, rfl, rfl, rfl, rfl⟩

/-- After compilations of which none succeeds, an engine is like the one before them. -/
theorem alike_run_compile {rs : List Routine}
    (h : ∀ x ∈ (e.run (rs.map .compile)).2, ∃ error, x.result = .error error) :
    e.Alike (e.run (rs.map .compile)).1 := by
  induction rs generalizing e with
  | nil => exact .refl e
  | cons r rs ih =>
    simp only [List.map_cons, Engine.run, List.forall_mem_cons] at h
    obtain ⟨⟨error, herror⟩, hrest⟩ := h
    have hfailed : (e.compile r).result = .error error := by
      cases hresult : (e.compile r).result with
      | ok u => simp [record, Engine.perform, Reply.map, hresult, Except.map] at herror
      | error err => simpa [record, Engine.perform, Reply.map, hresult, Except.map] using herror
    exact (alike_compile hfailed).trans (ih hrest)

/-- Failed compilations leave an engine as it was. Whatever calls came before, a compilation that
    fails changes nothing, or nothing but that the machine is up. After any number of them every run
    of calls gives what it gives without them, a compilation and an invocation among others, and
    leads to an engine with the same module, the same compiled code and the same flags. -/
theorem failed_compile_leaves_no_trace (settings : Settings) (calls : List Call) :
    let e := ((ofSettings settings).run calls).1
    (∀ r error, (e.compile r).result = .error error →
      (e.compile r).engine = e ∨ (e.compile r).engine = { e with isOpen := true }) ∧
    ∀ rs : List Routine,
      (∀ x ∈ (e.run (rs.map .compile)).2, ∃ error, x.result = .error error) →
      ∀ more, let tried := ((e.run (rs.map .compile)).1.run more)
        tried.2.map Record.result = (e.run more).2.map Record.result ∧
          tried.1.compiled = (e.run more).1.compiled ∧ tried.1.entry = (e.run more).1.entry ∧
          tried.1.isInvoked = (e.run more).1.isInvoked ∧
          tried.1.isClosed = (e.run more).1.isClosed := by
  intro e
  refine ⟨fun r error => compile_of_error, ?_⟩
  intro rs hfailed more tried
  obtain ⟨hresults, halike⟩ := (alike_run_compile hfailed).run more
  exact ⟨hresults, halike.compiled, halike.entry, halike.isInvoked, halike.isClosed⟩

/-- A new engine on which three compilations fail, for want of a return, of a symbol that is seen and
    of a name, compiles and calls a fourth routine as if nothing had happened. -/
theorem failed_compile_leaves_no_trace_thrice :
    let one : Binary64 := ⟨0x3ff0000000000000⟩
    let nodes : List Node := [⟨0, .const, [], some one⟩, ⟨1, .ret, [0], none⟩]
    let rs : List Routine := [⟨"f", nodes.take 1⟩, ⟨".Lf", nodes⟩, ⟨"", nodes⟩]
    let e := ofSettings .default
    (e.run (rs.map .compile)).2.map Record.result =
        [.error (.emission (.noReturn "f")), .error (.notFound ".Lf"),
          .error (.emission .namelessFunction)] ∧
      (((e.run (rs.map .compile)).1.run [.compile ⟨"f", nodes⟩, .invoke]).2.map Record.result =
        [.ok none, .ok (some one)]) := by
  intro one nodes rs e
  have hresults : (e.run (rs.map .compile)).2.map Record.result =
      [.error (.emission (.noReturn "f")), .error (.notFound ".Lf"),
        .error (.emission .namelessFunction)] := by
    decide
  have hfailed : ∀ x ∈ (e.run (rs.map .compile)).2, ∃ error, x.result = .error error := by
    intro x hx
    have hmem := List.mem_map_of_mem (f := Record.result) hx
    rw [hresults] at hmem
    simp only [List.mem_cons, List.not_mem_nil, or_false] at hmem
    rcases hmem with h | h | h
    all_goals exact ⟨_, h⟩
  have hfresh : (e.run [.compile ⟨"f", nodes⟩, .invoke]).2.map Record.result =
      [.ok none, .ok (some one)] := by
    decide
  have htrace := (failed_compile_leaves_no_trace .default []).2 rs hfailed
  exact ⟨hresults, (htrace [.compile ⟨"f", nodes⟩, .invoke]).1.trans hfresh⟩

end ArithJit.Engine
