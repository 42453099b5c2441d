import ArithJit.Proofs.Engine.Calls
import ArithJit.Proofs.Ssa.Simulation
import Mathlib.Logic.Function.Basic

/-!
# What the records of an engine tell

From the records of all calls on an engine one can tell what it holds. `Follows` says how: at most
one compilation and one invocation succeeded, the module at hand is that of the routine that was
compiled, and there is compiled code exactly as long as a routine waits, which is from its
compilation to the next closing or successful invocation. So the records tell whether a compilation
or an invocation succeeds, and with what value.

Engines do not touch each other. In a run over many engines, where calls on one are interleaved
with calls on others, each engine goes through the run of its own calls.
-/

namespace ArithJit.Engine

namespace Record

/-- The call compiled a routine. -/
def Compiles (x : Record) (r : Routine) : Prop := x.call = .compile r ∧ x.result.isOk = true

/-- Whether the call was a compilation that succeeded. -/
def isCompilation (x : Record) : Bool :=
  match x.call with
  | .compile _ => x.result.isOk
  | _ => false

/-- Whether the call was an invocation that succeeded. -/
def isInvocation (x : Record) : Bool := x.call = .invoke && x.result.isOk

/-- Whether a routine that waited does so no longer after the call. -/
def isRelease (x : Record) : Bool := x.call.isClosing || x.isInvocation

variable {x : Record} {r : Routine}

theorem isCompilation_iff : x.isCompilation = true ↔ ∃ r, x.Compiles r := by
  cases hcall : x.call <;> simp [isCompilation, Compiles, hcall]

theorem Compiles.isRelease_eq_false (h : x.Compiles r) : x.isRelease = false := by
  simp [isRelease, isInvocation, h.1, Call.isClosing]

theorem not_compiles (h : x.isCompilation = false) (r : Routine) : ¬x.Compiles r := by
  intro hr
  simp [isCompilation_iff.2 ⟨r, hr⟩] at h

end Record

/-- A routine was compiled, and since then no call closed the engine and no invocation
    succeeded. -/
def Waits (past : List Record) (r : Routine) : Prop :=
  ∃ before x after, past = before ++ x :: after ∧ x.Compiles r ∧
    ∀ y ∈ after, y.isRelease = false

variable {settings : Settings} {past : List Record} {e : Engine} {r : Routine} {x : Record}
  {m : Ssa.Module} {compiled : Option Ssa.Module} {entry : Option Ssa.EntryPoint}
  {code : Ssa.EntryPoint}

theorem waits_concat :
    Waits (past ++ [x]) r ↔ x.Compiles r ∨ (Waits past r ∧ x.isRelease = false) := by
  constructor
  · rintro ⟨before, y, after, heq, hy, hafter⟩
    rcases List.eq_nil_or_concat after with rfl | ⟨after, z, rfl⟩
    · obtain ⟨-, hxy⟩ := List.append_inj' heq rfl
      obtain rfl : x = y := by simpa using hxy
      exact .inl hy
    · rw [List.concat_eq_append, ← List.cons_append, ← List.append_assoc] at heq
      obtain ⟨rfl, hxz⟩ := List.append_inj' heq rfl
      obtain rfl : x = z := by simpa using hxz
      simp only [List.concat_eq_append, List.mem_append, List.mem_singleton] at hafter
      exact .inr ⟨⟨before, y, after, rfl, hy, fun z hz => hafter z (.inl hz)⟩, hafter x (.inr rfl)⟩
  · rintro (hx | ⟨⟨before, y, after, rfl, hy, hafter⟩, hx⟩)
    · exact ⟨past, x, [], rfl, hx, by simp⟩
    · refine ⟨before, y, after ++ [x], by simp, hy, ?_⟩
      intro z hz
      rcases List.mem_append.1 hz with hz | hz
      · exact hafter z hz
      · rw [List.mem_singleton.1 hz, hx]

/-! ## The module at hand -/

/-- At most one compilation succeeded, and the module at hand is that of its routine. -/
structure TellsModule (settings : Settings) (past : List Record) (compiled : Option Ssa.Module) :
    Prop where
  count : past.countP Record.isCompilation = if compiled.isSome then 1 else 0
  emitted : ∀ x ∈ past, ∀ r, x.Compiles r →
    ∃ m, r.emit settings.moduleName = .ok m ∧ compiled = some m

theorem TellsModule.keep (h : TellsModule settings past compiled) (hx : x.isCompilation = false) :
    TellsModule settings (past ++ [x]) compiled := by
  refine ⟨by simp [List.countP_append, hx, h.count], ?_⟩
  intro y hy r hr
  rcases List.mem_append.1 hy with hy | hy
  · exact h.emitted y hy r hr
  · rw [List.mem_singleton.1 hy] at hr
    exact absurd hr (Record.not_compiles hx r)

theorem TellsModule.compile (h : TellsModule settings past none) (hx : x.Compiles r)
    (hm : r.emit settings.moduleName = .ok m) : TellsModule settings (past ++ [x]) (some m) := by
  have hcount : past.countP Record.isCompilation = 0 := h.count
  refine ⟨by simp [List.countP_append, hcount, Record.isCompilation_iff.2 ⟨r, hx⟩], ?_⟩
  intro y hy r' hr'
  rcases List.mem_append.1 hy with hy | hy
  · obtain ⟨_, -, hnone⟩ := h.emitted y hy r' hr'
    simp at hnone
  · rw [List.mem_singleton.1 hy] at hr'
    obtain rfl : r = r' := by simpa using hx.1.symm.trans hr'.1
    exact ⟨m, hm, rfl⟩

/-! ## The compiled code -/

/-- There is compiled code exactly if a routine waits, and it returns what that routine does. -/
structure TellsCode (past : List Record) (entry : Option Ssa.EntryPoint) : Prop where
  waiting : ∀ r, Waits past r → ∃ code, entry = some code ∧ r.execute = some code.value
  held : ∀ code, entry = some code → ∃ r, Waits past r

theorem TellsCode.keep (h : TellsCode past entry) (hx : x.isCompilation = false)
    (hkept : x.isRelease = false) : TellsCode (past ++ [x]) entry := by
  constructor
  · intro r hr
    exact h.waiting r ((waits_concat.1 hr).resolve_left (Record.not_compiles hx r)).1
  · intro code hcode
    obtain ⟨r, hr⟩ := h.held code hcode
    exact ⟨r, waits_concat.2 (.inr ⟨hr, hkept⟩)⟩

theorem TellsCode.release (past : List Record) (hx : x.isRelease = true) :
    TellsCode (past ++ [x]) none := by
  constructor
  · intro r hr
    rcases waits_concat.1 hr with hr | ⟨-, hkept⟩
    · simp [hr.isRelease_eq_false] at hx
    · simp [hx] at hkept
  · simp

theorem TellsCode.compile (h : TellsCode past none) (hx : x.Compiles r)
    (hvalue : r.execute = some code.value) : TellsCode (past ++ [x]) (some code) := by
  constructor
  · intro r' hr'
    rcases waits_concat.1 hr' with hr' | ⟨hr', -⟩
    · obtain rfl : r = r' := by simpa using hx.1.symm.trans hr'.1
      exact ⟨code, rfl, hvalue⟩
    · obtain ⟨_, hnone, -⟩ := h.waiting r' hr'
      simp at hnone
  · intro _ _
    exact ⟨r, waits_concat.2 (.inl hx)⟩

/-! ## Runs -/

/-- What the records of all calls on an engine tell about it. -/
structure Follows (settings : Settings) (past : List Record) (e : Engine) : Prop where
  coherent : e.Coherent
  settings_eq : e.settings = settings
  tellsModule : TellsModule settings past e.compiled
  invocations : past.countP Record.isInvocation = if e.isInvoked then 1 else 0
  tellsCode : TellsCode past e.entry

theorem follows_ofSettings (settings : Settings) : Follows settings [] (ofSettings settings) where
  coherent := coherent_ofSettings settings
  settings_eq := rfl
  tellsModule := ⟨rfl, by simp⟩
  invocations := rfl
  tellsCode := ⟨by rintro r ⟨before, x, after, heq, -⟩; simp at heq, by simp [ofSettings]⟩

/-- The compiled code returns what the routine does. -/
theorem Loads.execute_eq (h : Loads settings r m code) : r.execute = some code.value := by
  obtain ⟨hemit, hload, -⟩ := h
  unfold Ssa.Module.load? at hload
  split at hload
  · split at hload
    · next value hrun =>
      obtain rfl := Option.some.inj hload
      exact (Routine.run_eq_execute hemit).symm.trans hrun
    · simp at hload
  · simp at hload

/-- Whatever neither compiles nor lets go of a routine, and keeps what the engine holds, is told by
    the records as before. -/
theorem Follows.keep {e' : Engine} (h : Follows settings past e) (hcoherent : e'.Coherent)
    (hkeeps : e'.settings = e.settings ∧ e'.compiled = e.compiled ∧ e'.entry = e.entry ∧
      e'.isInvoked = e.isInvoked)
    (hx : x.isCompilation = false) (hkept : x.isRelease = false) :
    Follows settings (past ++ [x]) e' := by
  obtain ⟨hsettings, hmodule, hentry, hinvoked⟩ := hkeeps
  have hinvocation : x.isInvocation = false := (Bool.or_eq_false_iff.1 hkept).2
  refine ⟨hcoherent, hsettings.trans h.settings_eq, hmodule ▸ h.tellsModule.keep hx, ?_,
    hentry ▸ h.tellsCode.keep hx hkept⟩
  simp [List.countP_append, hinvocation, h.invocations, hinvoked]

theorem Follows.perform (h : Follows settings past e) (c : Call) :
    Follows settings (past ++ [e.record c]) (e.perform c).engine := by
  have hcoherent := h.coherent.perform c
  have heffect := perform_effect e c
  unfold record
  generalize e.perform c = reply at hcoherent heffect ⊢
  cases heffect with
  | refused unfit =>
    refine h.keep hcoherent ⟨rfl, rfl, rfl, rfl⟩ ?_ ?_
    · cases c <;> rfl
    · simp [Record.isRelease, isClosing_of_unfit unfit, Record.isInvocation, Except.isOk,
        Except.toBool]
  | started call =>
    refine h.keep hcoherent ⟨rfl, rfl, rfl, rfl⟩ ?_ ?_
    · rcases call with rfl | rfl <;> rfl
    · rcases call with rfl | rfl <;> rfl
  | failed => exact h.keep hcoherent ⟨rfl, rfl, rfl, rfl⟩ rfl rfl
  | @compiled r m code unclosed empty uninvoked loads =>
    have hadmits : e.admits (.compile r) = true := by simp [admits, unclosed, empty, uninvoked]
    have hnone := ((h.coherent.admits_compile r).1 hadmits).2
    rw [h.settings_eq] at loads
    refine ⟨hcoherent, h.settings_eq, (hnone ▸ h.tellsModule).compile ⟨rfl, rfl⟩ loads.1, ?_,
      (empty ▸ h.tellsCode).compile ⟨rfl, rfl⟩ loads.execute_eq⟩
    simp [List.countP_append, h.invocations, Record.isInvocation]
  | invoked unclosed uninvoked held =>
    refine ⟨hcoherent, h.settings_eq, h.tellsModule.keep rfl, ?_, .release past rfl⟩
    simp [List.countP_append, h.invocations, uninvoked, Record.isInvocation, Except.isOk,
      Except.toBool]
  | closed closing =>
    have hcall : c = .exit ∨ c = .close := by cases c <;> simp_all [Call.isClosing]
    refine ⟨hcoherent, h.settings_eq, h.tellsModule.keep ?_, ?_, .release past ?_⟩
    · rcases hcall with rfl | rfl <;> rfl
    · rcases hcall with rfl | rfl <;> simp [List.countP_append, h.invocations, Record.isInvocation]
    · simp [Record.isRelease, closing]

theorem follows_run (settings : Settings) (cs : List Call) :
    Follows settings ((ofSettings settings).run cs).2 ((ofSettings settings).run cs).1 :=
  run_induction (fun _ _ c h => h.perform c) (follows_ofSettings settings) cs

/-- Every record of a run is that of a call on an engine that the records before it tell about. -/
theorem exists_follows {cs : List Call} {future : List Record}
    (h : ((ofSettings settings).run cs).2 = past ++ x :: future) :
    ∃ e, Follows settings past e ∧ (e.isClosed = past.any fun y => y.call.isClosing) ∧
      x = e.record x.call := by
  obtain ⟨before, e, hrun, hx⟩ := exists_of_run_eq h
  have hfollows := follows_run settings before
  have hclosed := isClosed_run settings before
  rw [hrun] at hfollows hclosed
  exact ⟨e, hfollows, hclosed, hx⟩

/-- A compilation succeeds exactly if the engine was not closed, none succeeded before, and the back
    end takes the routine. -/
theorem Follows.compile_result (h : Follows settings past e)
    (hclosed : e.isClosed = past.any fun x => x.call.isClosing) (r : Routine) :
    (∃ v, (e.record (.compile r)).result = .ok v) ↔
      (∀ x ∈ past, x.call.isClosing = false ∧ x.isCompilation = false) ∧
        ∃ m code, Loads settings r m code := by
  have hadmits : e.admits (.compile r) = true ↔
      ∀ x ∈ past, x.call.isClosing = false ∧ x.isCompilation = false := by
    have hcount := h.tellsModule.count
    have hcompiled : e.compiled = none ↔ ∀ x ∈ past, x.isCompilation = false := by
      cases hmodule : e.compiled with
      | none => simpa [hmodule] using hcount
      | some m =>
        simp only [hmodule, Option.isSome_some, if_true] at hcount
        have hsome : ¬past.countP Record.isCompilation = 0 := by omega
        simpa using hsome
    rw [h.coherent.admits_compile, hclosed, hcompiled, List.any_eq_false, ← forall₂_and]
    simp
  have heffect := perform_effect e (.compile r)
  unfold record
  generalize e.perform (.compile r) = reply at heffect
  rw [← hadmits, ← h.settings_eq]
  cases heffect with
  | refused unfit => simp [unfit]
  | started call => simp at call
  | failed _ _ unloaded => simp [unloaded]
  | compiled unclosed empty uninvoked loads =>
    exact iff_of_true ⟨_, rfl⟩ ⟨by simp [admits, unclosed, empty, uninvoked], _, _, loads⟩
  | closed closing => simp [Call.isClosing] at closing

/-- An invocation calls the compiled code, or is refused. -/
theorem Effect.invoke_cases {reply : Reply (Option Binary64)} (h : Effect e .invoke reply) :
    (∃ code, e.entry = some code ∧ reply.result = .ok (some code.value)) ∨
      (e.admits .invoke = false ∧ ∃ error, reply.result = .error error) := by
  cases h with
  | refused unfit => exact .inr ⟨unfit, _, rfl⟩
  | started call => simp at call
  | invoked _ _ held => exact .inl ⟨_, held, rfl⟩
  | closed closing => simp [Call.isClosing] at closing

/-- An invocation succeeds exactly if a routine waits, and then with the value of that routine. -/
theorem Follows.invoke_result (h : Follows settings past e) :
    ((∃ v, (e.record .invoke).result = .ok v) ↔ ∃ r, Waits past r) ∧
      ∀ r, Waits past r →
        ∃ v, r.execute = some v ∧ (e.record .invoke).result = .ok (some v) := by
  rcases (perform_effect e .invoke).invoke_cases with ⟨code, hcode, hresult⟩ | ⟨hunfit, _, herror⟩
  · obtain ⟨r, hr⟩ := h.tellsCode.held code hcode
    refine ⟨⟨fun _ => ⟨r, hr⟩, fun _ => ⟨_, hresult⟩⟩, fun r' hr' => ?_⟩
    obtain ⟨code', hcode', hvalue⟩ := h.tellsCode.waiting r' hr'
    obtain rfl := Option.some.inj (hcode.symm.trans hcode')
    exact ⟨code.value, hvalue, hresult⟩
  · -- Nothing is held by an engine that refuses.
    have hnone (r : Routine) : ¬Waits past r := by
      intro hr
      obtain ⟨code, hcode, -⟩ := h.tellsCode.waiting r hr
      obtain ⟨-, hclosed, hinvoked⟩ := h.coherent.held code hcode
      simp [admits, hclosed, hinvoked, hcode] at hunfit
    refine ⟨⟨?_, ?_⟩, fun r hr => absurd hr (hnone r)⟩
    · rintro ⟨v, hv⟩
      simpa using herror.symm.trans hv
    · rintro ⟨r, hr⟩
      exact absurd hr (hnone r)

end ArithJit.Engine

namespace ArithJit

open ArithJit.Engine

variable {ι α : Type} [DecidableEq ι]

/-- Engines, each under a name. -/
abbrev Engines (ι : Type) := ι → Engine

/-- Makes calls on engines one after the other, and records them. -/
def Engines.run (w : Engines ι) : List (ι × Call) → Engines ι × List (ι × Record)
  | [] => (w, [])
  | (i, c) :: calls =>
      let (final, records) := run (Function.update w i ((w i).perform c).engine) calls
      (final, (i, (w i).record c) :: records)

/-- What belongs to one of the names. -/
def ownOf (i : ι) (xs : List (ι × α)) : List α :=
  xs.filterMap fun x => if x.1 = i then some x.2 else none

@[simp] theorem ownOf_cons_self (i : ι) (a : α) (xs : List (ι × α)) :
    ownOf i ((i, a) :: xs) = a :: ownOf i xs := by
  simp [ownOf]

@[simp] theorem ownOf_cons_of_ne {i j : ι} (h : j ≠ i) (a : α) (xs : List (ι × α)) :
    ownOf i ((j, a) :: xs) = ownOf i xs := by
  simp [ownOf, h]

/-- In a run over many engines each engine goes through the run of its own calls. -/
theorem Engines.run_own (w : Engines ι) (calls : List (ι × Call)) (i : ι) :
    ((w.run calls).1 i, ownOf i (w.run calls).2) = (w i).run (ownOf i calls) := by
  induction calls generalizing w with
  | nil => rfl
  | cons call calls ih =>
    obtain ⟨j, c⟩ := call
    have hrest := ih (Function.update w j ((w j).perform c).engine)
    by_cases hj : j = i
    · subst hj
      rw [Function.update_self] at hrest
      simp only [Engines.run, ownOf_cons_self, Engine.run, ← hrest]
    · rw [Function.update_of_ne (Ne.symm hj)] at hrest
      simp only [Engines.run, ownOf_cons_of_ne hj, ← hrest]

/-- In a run over any engines, made from their settings, of every engine and its own records this is
    true. At most one compilation and at most one invocation succeeded. A compilation succeeded
    exactly if the engine was not closed, none succeeded before, and the back end takes the routine.
    An invocation succeeded exactly if a routine waited, and its value is that of carrying out this
    routine. There is no module before a compilation succeeds, and ever after it is the module of
    the routine that was compiled. -/
theorem Engines.run_follows (settings : ι → Settings) (calls : List (ι × Call)) (i : ι) :
    let final := Engines.run (fun j => .ofSettings (settings j)) calls
    let records := ownOf i final.2
    records.countP Record.isCompilation ≤ 1 ∧ records.countP Record.isInvocation ≤ 1 ∧
    (∀ past x future r, records = past ++ x :: future → x.call = .compile r →
      ((∃ v, x.result = .ok v) ↔
        (∀ y ∈ past, y.call.isClosing = false ∧ y.isCompilation = false) ∧
          ∃ m code, Loads (settings i) r m code)) ∧
    (∀ past x future, records = past ++ x :: future → x.call = .invoke →
      ((∃ v, x.result = .ok v) ↔ ∃ r, Waits past r) ∧
      ∀ r, Waits past r → ∃ v, r.execute = some v ∧ x.result = .ok (some v)) ∧
    ((∀ x ∈ records, ∀ r, ¬x.Compiles r) → (final.1 i).compiled = none) ∧
    ∀ x ∈ records, ∀ r, x.Compiles r →
      ∃ m, r.emit (settings i).moduleName = .ok m ∧ (final.1 i).compiled = some m := by
  intro final records
  obtain ⟨hengine, hrecords⟩ :=
    Prod.mk.inj (Engines.run_own (fun j => .ofSettings (settings j)) calls i)
  have hfollows : Follows (settings i) records (final.1 i) := by
    rw [show records = _ from hrecords, show final.1 i = _ from hengine]
    exact follows_run (settings i) (ownOf i calls)
  refine ⟨?_, ?_, ?_, ?_, ?_, hfollows.tellsModule.emitted⟩
  · rw [hfollows.tellsModule.count]
    split <;> simp
  · rw [hfollows.invocations]
    split <;> simp
  · intro past x future r hsplit hcompile
    obtain ⟨e, hpast, hclosed, hx⟩ := exists_follows (hrecords.symm.trans hsplit)
    rw [hx, hcompile]
    exact hpast.compile_result hclosed r
  · intro past x future hsplit hinvoke
    obtain ⟨e, hpast, -, hx⟩ := exists_follows (hrecords.symm.trans hsplit)
    rw [hx, hinvoke]
    exact hpast.invoke_result
  · intro hnone
    have hcount : records.countP Record.isCompilation = 0 := by
      rw [List.countP_eq_zero]
      intro x hx hcompilation
      obtain ⟨r, hr⟩ := Record.isCompilation_iff.1 hcompilation
      exact hnone x hx r hr
    rw [hfollows.tellsModule.count] at hcount
    simpa using hcount

end ArithJit
