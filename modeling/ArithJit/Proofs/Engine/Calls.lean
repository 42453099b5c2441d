import ArithJit.Engine

/-!
# Calls on an engine

An engine is used by calls, one after the other, in any order. `Effect` lists everything that a
call can do to the engine, with what it says and gives, and `perform_effect` says that the list is
complete; what holds of all runs is read off it. `run_induction` packs the induction over a run.

`Coherent` is what the fields of an engine have to do with each other: nothing is held once the
engine is closed, compiled code is held only by an engine that is up and was not invoked, and a
module that was compiled leaves no way back to an engine that could compile another one.
-/

namespace ArithJit

/-- What can be asked of an engine. To enter its scope starts it, and to leave its scope closes
    it. -/
inductive Call where
  | start
  | enter
  | compile (r : Routine)
  | invoke
  | exit
  | close
  deriving DecidableEq, Repr

/-- Whether a call closes the engine. -/
def Call.isClosing : Call → Bool
  | .exit | .close => true
  | _ => false

namespace Engine

/-- Changes the result of a reply. -/
def Reply.map {α β : Type} (f : α → β) (x : Reply α) : Reply β :=
  ⟨x.engine, x.log, x.result.map f⟩

/-- Makes a call; only the compiled code gives a value. -/
def perform (e : Engine) : Call → Reply (Option Binary64)
  | .start | .enter => e.start.map fun _ => none
  | .compile r => (e.compile r).map fun _ => none
  | .invoke => e.invoke.map some
  | .exit | .close => e.close.map fun _ => none

/-- A call that was made, what it said and what it gave. -/
structure Record where
  call : Call
  log : List Event
  result : Except EngineError (Option Binary64)

/-- What is recorded of a call. -/
def record (e : Engine) (c : Call) : Record := ⟨c, (e.perform c).log, (e.perform c).result⟩

/-- Makes calls one after the other, whatever they give, and records them. -/
def run (e : Engine) : List Call → Engine × List Record
  | [] => (e, [])
  | c :: cs =>
      let (final, records) := (e.perform c).engine.run cs
      (final, e.record c :: records)

/-- Whether an engine is in a state to carry a call out. -/
def admits (e : Engine) : Call → Bool
  | .start | .enter => !e.isClosed
  | .compile _ => !e.isClosed && e.entry.isNone && !e.isInvoked
  | .invoke => !e.isClosed && e.entry.isSome && !e.isInvoked
  | .exit | .close => true

/-- The back end takes the routine: its module is emitted and loaded, and the compiled code is found
    by its name. -/
def Loads (settings : Settings) (r : Routine) (m : Ssa.Module) (code : Ssa.EntryPoint) : Prop :=
  r.emit settings.moduleName = .ok m ∧ m.load? settings.verify = some code ∧
    Text.asciiError? r.name = none ∧ m.isExported = true

/-- What bringing the machine up says. -/
def opening (e : Engine) : List Event := if e.isOpen then [] else [.opened e.settings.optLevel]

/-- Everything that a call can do. -/
inductive Effect (e : Engine) : Call → Reply (Option Binary64) → Prop
  | refused {c : Call} {error : EngineError} (unfit : e.admits c = false)
      (internal : ∃ d, error.diagnostic? = some d ∧ d.kind = .internalError) :
      Effect e c ⟨e, [], .error error⟩
  | started {c : Call} (call : c = .start ∨ c = .enter) (unclosed : e.isClosed = false) :
      Effect e c ⟨{ e with isOpen := true }, e.opening, .ok none⟩
  | failed {r : Routine} {log : List Event} {error : EngineError} (unclosed : e.isClosed = false)
      (only : log = [] ∨ log = [.emitted r.name])
      (unloaded : ∀ m code, ¬Loads e.settings r m code) :
      Effect e (.compile r) ⟨{ e with isOpen := true }, e.opening ++ log, .error error⟩
  | compiled {r : Routine} {m : Ssa.Module} {code : Ssa.EntryPoint} (unclosed : e.isClosed = false)
      (empty : e.entry = none) (uninvoked : e.isInvoked = false)
      (loads : Loads e.settings r m code) :
      Effect e (.compile r)
        ⟨{ e with isOpen := true, compiled := some m, entry := some code },
          e.opening ++ [.emitted r.name, .compiled r.name], .ok none⟩
  | invoked {code : Ssa.EntryPoint} (unclosed : e.isClosed = false)
      (uninvoked : e.isInvoked = false) (held : e.entry = some code) :
      Effect e .invoke ⟨{ e with entry := none, isInvoked := true }, [], .ok (some code.value)⟩
  | closed {c : Call} (closing : c.isClosing = true) :
      Effect e c
        ⟨{ e with entry := none, isOpen := false, isClosed := true },
          if e.isOpen then [.closed] else [], .ok none⟩

variable {e : Engine} {c : Call} {past : List Record}

theorem start_of_unclosed (h : e.isClosed = false) :
    e.start = ⟨{ e with isOpen := true }, e.opening, .ok ()⟩ := by
  obtain ⟨settings, compiled, isOpen, entry, isInvoked, isClosed⟩ := e
  cases isOpen <;> simp_all [start, opening]

theorem isClosing_of_unfit (h : e.admits c = false) : c.isClosing = false := by
  cases c with
  | exit | close => simp [admits] at h
  | start | enter | compile | invoke => rfl

theorem start_effect (hc : c = .start ∨ c = .enter) : Effect e c (e.start.map fun _ => none) := by
  cases hclosed : e.isClosed with
  | true =>
    have hunfit : e.admits c = false := by
      rcases hc with rfl | rfl
      all_goals simp [admits, hclosed]
    simp only [start, hclosed, if_true]
    exact .refused hunfit ⟨_, rfl, rfl⟩
  | false =>
    rw [start_of_unclosed hclosed]
    exact .started hc hclosed

theorem compile_effect (r : Routine) :
    Effect e (.compile r) ((e.compile r).map fun _ => none) := by
  unfold compile
  split
  · next hspent =>
    have hunfit : e.admits (.compile r) = false := by
      rcases Bool.or_eq_true_iff.1 hspent with hheld | hinvoked
      · simp [admits, Option.isSome_iff_ne_none.1 hheld]
      · simp [admits, hinvoked]
    exact .refused hunfit ⟨_, rfl, rfl⟩
  · next hfree =>
    obtain ⟨hentry, hinvoked⟩ : e.entry = none ∧ e.isInvoked = false := by simpa using hfree
    cases hclosed : e.isClosed with
    | true =>
      simp only [start, hclosed, if_true, refuse]
      exact .refused (by simp [admits, hclosed]) ⟨_, rfl, rfl⟩
    | false =>
      rw [start_of_unclosed hclosed]
      simp only [compileOpen]
      -- The faults in the order in which they are found: each leaves the machine up.
      cases hemit : r.emit e.settings.moduleName with
      | error error => exact .failed hclosed (.inl rfl) (by simp [Loads, hemit])
      | ok m =>
        have hmodule {m' : Ssa.Module} {code : Ssa.EntryPoint} (h : Loads e.settings r m' code) :
            m' = m := Except.ok.inj (h.1.symm.trans hemit)
        cases hload : m.load? e.settings.verify with
        | none =>
          simp only [hload]
          refine .failed hclosed (.inr rfl) fun m' code hloads => ?_
          simp [← hmodule hloads, hloads.2.1] at hload
        | some code =>
          simp only [hload]
          cases hascii : Text.asciiError? r.name with
          | some error => exact .failed hclosed (.inr rfl) (by simp [Loads, hascii])
          | none =>
            cases hexported : m.isExported with
            | true =>
              simp only [if_true]
              exact .compiled hclosed hentry hinvoked ⟨hemit, hload, hascii, hexported⟩
            | false =>
              refine .failed hclosed (.inr rfl) fun m' code hloads => ?_
              simp [← hmodule hloads, hloads.2.2.2] at hexported

theorem invoke_effect : Effect e .invoke (e.invoke.map some) := by
  unfold invoke
  split
  · next hclosed => exact .refused (by simp [admits, hclosed]) ⟨_, rfl, rfl⟩
  · next hclosed =>
    split
    · next hinvoked => exact .refused (by simp [admits, hinvoked]) ⟨_, rfl, rfl⟩
    · next hinvoked =>
      cases hentry : e.entry with
      | none => exact .refused (by simp [admits, hentry]) ⟨_, rfl, rfl⟩
      | some code =>
        exact .invoked (Bool.not_eq_true _ ▸ hclosed) (Bool.not_eq_true _ ▸ hinvoked) hentry

theorem perform_effect (e : Engine) (c : Call) : Effect e c (e.perform c) := by
  cases c with
  | start => exact start_effect (.inl rfl)
  | enter => exact start_effect (.inr rfl)
  | compile r => exact compile_effect r
  | invoke => exact invoke_effect
  | exit => exact .closed rfl
  | close => exact .closed rfl

/-- An engine is closed by the calls that close it, and stays so. -/
theorem Effect.isClosed_eq {reply : Reply (Option Binary64)} (h : Effect e c reply) :
    reply.engine.isClosed = (e.isClosed || c.isClosing) := by
  cases h with
  | refused unfit => simp [isClosing_of_unfit unfit]
  | started call => rcases call with rfl | rfl <;> simp [Call.isClosing]
  | failed | compiled | invoked => simp [Call.isClosing]
  | closed closing => simp [closing]

/-! ## Runs -/

/-- What holds of the records so far and the engine, and is kept by every call, holds after a
    run. -/
theorem run_induction {P : List Record → Engine → Prop}
    (hstep : ∀ past e c, P past e → P (past ++ [e.record c]) (e.perform c).engine)
    (h : P past e) (cs : List Call) : P (past ++ (e.run cs).2) (e.run cs).1 := by
  induction cs generalizing past e with
  | nil => simpa [run] using h
  | cons c cs ih =>
    have hrest := ih (hstep past e c h)
    rwa [List.append_assoc, List.singleton_append] at hrest

/-- Every call of a run is recorded, in its place. -/
theorem map_call_run (e : Engine) (cs : List Call) : (e.run cs).2.map Record.call = cs := by
  induction cs generalizing e with
  | nil => rfl
  | cons c cs ih => simp [run, record, ih]

theorem exists_record_of_mem (e : Engine) {cs : List Call} (h : c ∈ cs) :
    ∃ x ∈ (e.run cs).2, x.call = c := by
  rw [← map_call_run e cs] at h
  exact List.mem_map.1 h

/-- A record in a run is that of a call on the engine that the calls before it lead to. -/
theorem exists_of_run_eq {cs : List Call} {x : Record} {future : List Record}
    (h : (e.run cs).2 = past ++ x :: future) :
    ∃ before e', e.run before = (e', past) ∧ x = e'.record x.call := by
  induction past generalizing e cs with
  | nil =>
    cases cs with
    | nil => simp [run] at h
    | cons c cs =>
      simp only [run, List.nil_append, List.cons.injEq] at h
      exact ⟨[], e, rfl, by rw [← h.1]; rfl⟩
  | cons y past ih =>
    cases cs with
    | nil => simp [run] at h
    | cons c cs =>
      simp only [run, List.cons_append, List.cons.injEq] at h
      obtain ⟨before, e', hrun, hx⟩ := ih h.2
      exact ⟨c :: before, e', by simp [run, hrun, h.1], hx⟩

/-- An engine is closed exactly if some call closed it. -/
theorem isClosed_run (settings : Settings) (cs : List Call) :
    ((ofSettings settings).run cs).1.isClosed =
      ((ofSettings settings).run cs).2.any fun x => x.call.isClosing := by
  let P : List Record → Engine → Prop := fun past e => e.isClosed = past.any (·.call.isClosing)
  have hstart : P [] (ofSettings settings) := rfl
  refine run_induction (fun past e c h => ?_) hstart cs
  change _ = (past ++ [e.record c]).any _
  rw [(perform_effect e c).isClosed_eq, List.any_append, ← h]
  simp [record]

/-! ## The fields of an engine -/

/-- What the fields of an engine have to do with each other. -/
structure Coherent (e : Engine) : Prop where
  closed : e.isClosed = true → e.isOpen = false ∧ e.entry = none
  held : ∀ code, e.entry = some code →
    e.isOpen = true ∧ e.isClosed = false ∧ e.isInvoked = false
  spent : e.compiled ≠ none → e.entry ≠ none ∨ e.isInvoked = true ∨ e.isClosed = true
  made : e.compiled = none → e.entry = none ∧ e.isInvoked = false

theorem coherent_ofSettings (settings : Settings) : (ofSettings settings).Coherent where
  closed h := by simp [ofSettings] at h
  held code h := by simp [ofSettings] at h
  spent h := by simp [ofSettings] at h
  made _ := ⟨rfl, rfl⟩

theorem Coherent.perform (h : e.Coherent) (c : Call) : (e.perform c).engine.Coherent := by
  have heffect := perform_effect e c
  generalize e.perform c = reply at heffect
  cases heffect with
  | refused => exact h
  | started _ unclosed | failed unclosed _ =>
    exact ⟨by simp [unclosed], fun code hcode => ⟨rfl, (h.held code hcode).2⟩, h.spent, h.made⟩
  | compiled unclosed _ uninvoked =>
    exact ⟨by simp [unclosed], fun _ _ => ⟨rfl, unclosed, uninvoked⟩, by simp, by simp⟩
  | invoked unclosed _ held =>
    refine ⟨by simp [unclosed], by simp, by simp, fun hnone => ?_⟩
    exact absurd (h.made hnone).1 (by simp [held])
  | closed _ => exact ⟨by simp, by simp, by simp, fun hnone => ⟨rfl, (h.made hnone).2⟩⟩

/-- An engine that is not closed can compile exactly if it has not compiled before. -/
theorem Coherent.admits_compile (h : e.Coherent) (r : Routine) :
    e.admits (.compile r) = true ↔ e.isClosed = false ∧ e.compiled = none := by
  constructor
  · intro hadmits
    simp only [admits, Bool.and_eq_true, Bool.not_eq_true', Option.isNone_iff_eq_none] at hadmits
    obtain ⟨⟨hclosed, hentry⟩, hinvoked⟩ := hadmits
    refine ⟨hclosed, ?_⟩
    cases hcompiled : e.compiled with
    | none => rfl
    | some m =>
      rcases h.spent (by simp [hcompiled]) with hheld | hspent | hspent
      · exact absurd hentry hheld
      · simp [hinvoked] at hspent
      · simp [hclosed] at hspent
  · rintro ⟨hclosed, hnone⟩
    obtain ⟨hentry, hinvoked⟩ := h.made hnone
    simp [admits, hclosed, hentry, hinvoked]

theorem Coherent.run (h : e.Coherent) (cs : List Call) : (e.run cs).1.Coherent := by
  let P : List Record → Engine → Prop := fun _ e => e.Coherent
  have hstart : P [] e := h
  exact run_induction (fun _ _ c hc => hc.perform c) hstart cs

end Engine

end ArithJit
