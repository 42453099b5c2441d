import ArithJit.Proofs.Evaluation

/-!
# Settings that the back end refuses

Checked settings name the function and the module by symbols. This rules out most names that the
back end has something against, but not all of them: a symbol may begin as a reserved name does, and
it may end in a line feed. With a module that is verified, a text that is parsed has a value unless
the name of the function is reserved or the name of the module ends in a line feed; there the module
is rejected. Nothing else goes wrong between the parser and the value; in particular, the compiled
function is always found.
-/

namespace ArithJit

variable {s : String} {settings : Settings} {r : Routine} {v : Binary64}

/-- In a symbol a line feed stands at the end or nowhere. -/
theorem newline_mem_iff_of_isSymbol (h : isSymbol s = true) :
    '\n' ∈ s.toList ↔ s.toList.getLast? = some '\n' := by
  refine ⟨fun hmem => ?_, List.mem_of_getLast?⟩
  unfold isSymbol at h
  split at h
  · simp at h
  · next c cs hs =>
    simp only [Bool.and_eq_true, Bool.or_eq_true, decide_eq_true_eq, List.all_eq_true] at h
    obtain ⟨hc, hall | ⟨hlast, -⟩⟩ := h
    · have hpart : isSymbolPart '\n' = true := by
        rcases List.mem_cons.1 (hs ▸ hmem) with hhead | htail
        · rw [hhead]
          exact isSymbolPart_of_isSymbolStart hc
        · exact hall _ htail
      exact absurd hpart (by decide)
    · rw [hs, List.getLast?_cons, hlast]
      rfl

namespace Settings

/-- Settings that are valid and that the back end refuses nevertheless, if it verifies: the name of
    the function is reserved, or the name of the module ends in a line feed. -/
def IsRejected (s : Settings) : Prop :=
  "llvm.".toList <+: s.entryName.toList ∨ s.moduleName.toList.getLast? = some '\n'

theorem isAccepted_iff : settings.IsAccepted ↔ ¬settings.IsRejected := by
  rw [IsRejected, ← newline_mem_iff_of_isSymbol settings.moduleName_isSymbol, not_or]
  exact ⟨fun h => ⟨h.entryName, h.moduleName⟩, fun h => ⟨h.1, h.2⟩⟩

end Settings

/-- An engine that verifies rejects the module of every routine that can be carried out. -/
theorem Engine.compileOpen_eq_rejected {e : Engine} (hverify : e.settings.verify = true)
    (h : e.settings.IsRejected) (hname : r.name = e.settings.entryName) (hr : r.Returns v) :
    e.compileOpen r = ⟨e, [.emitted r.name], .error .rejected⟩ := by
  have hsymbol : isSymbol r.name = true := hname ▸ e.settings.entryName_isSymbol
  obtain ⟨m, hemit, -, -, hwell⟩ := Routine.emit_of_isSymbol hsymbol hr e.settings.moduleName
  have hill : ¬m.isWellFormed e.settings.verify = true := by
    rw [hwell, hname]
    rintro ⟨hmodule, hentry⟩
    exact Settings.isAccepted_iff.1 ⟨fun hprefix => hentry ⟨hverify, hprefix⟩, hmodule⟩ h
  simp only [compileOpen, hemit, Ssa.Module.load?, if_neg hill]

theorem runRoutine_eq_rejected (hverify : settings.verify = true) (h : settings.IsRejected)
    (hname : r.name = settings.entryName) (hr : r.Returns v) :
    (runRoutine r settings).result = .error .rejected := by
  have hcompile := Engine.compileOpen_eq_rejected
    (e := { Engine.ofSettings settings with isOpen := true }) hverify h hname hr
  simp only [Engine.ofSettings] at hcompile
  simp [runRoutine, Engine.ofSettings, Engine.start, Engine.compile, hcompile]

/-- With valid settings that verify, a text that is parsed as an expression has the value of that
    expression, unless the name of the function is reserved or the name of the module ends in a line
    feed. In these two cases, and for no other reason, the back end rejects the module. -/
theorem evaluate_of_parseText (source : String) (settings : Settings) (e : Expr)
    (hverify : settings.verify = true) (h : (parseText source).result = .ok e) :
    (settings.IsRejected → (evaluate source settings).result = .error (.engine .rejected)) ∧
    (¬settings.IsRejected →
      ∃ v, e.value? = some v ∧ (evaluate source settings).result = .ok v) := by
  have hwrites := parseText_eq_ok_iff.1 h
  obtain ⟨v, hv⟩ := Expr.exists_value_of_isWhole hwrites.isWhole
  constructor
  · intro hrejected
    rw [evaluate_result_of_writes settings hwrites,
      runRoutine_eq_rejected hverify hrejected rfl (Expr.returns_code hv settings.entryName)]
    rfl
  · intro haccepted
    exact ⟨v, hv, evaluate_of_writes (Settings.isAccepted_iff.2 haccepted) hwrites hv⟩

/-- A line feed after the name of the function and a reserved name for the module do no harm. -/
theorem evaluate_of_parseText_unreserved :
    let settings : Settings :=
      ⟨3, "abc\n", "llvm.m", true, by decide, by decide, by decide⟩
    settings.verify = true ∧ ¬settings.IsRejected ∧
      ∃ e, (parseText "(10 - 4) / 4 * 3").result = .ok e ∧
        e.value? = some ⟨0x4012000000000000⟩ ∧
        (evaluate "(10 - 4) / 4 * 3" settings).result = .ok ⟨0x4012000000000000⟩ := by
  intro settings
  have hrejected : ¬settings.IsRejected := by
    simp [Settings.IsRejected, settings]
  have hresult : (evaluate "(10 - 4) / 4 * 3" settings).result = .ok ⟨0x4012000000000000⟩ := by
    decide +kernel
  have hparsed : (parseText "(10 - 4) / 4 * 3").result.toOption.isSome = true := by
    decide +kernel
  cases hparse : (parseText "(10 - 4) / 4 * 3").result with
  | error f => simp [hparse, Except.toOption] at hparsed
  | ok e =>
    obtain ⟨-, hvalue⟩ := evaluate_of_parseText "(10 - 4) / 4 * 3" settings e rfl hparse
    obtain ⟨v, hv, hok⟩ := hvalue hrejected
    rw [Except.ok.inj (hok.symm.trans hresult)] at hv
    exact ⟨rfl, hrejected, e, rfl, hv, hresult⟩

/-- A line feed after the name of the module passes the checks, and so does a reserved name for the
    function. Either is rejected, although the text is parsed. -/
theorem evaluate_rejected_names :
    (parseText "6 * 7").result.toOption.isSome = true ∧
    (∃ settings, Settings.check [("module_name", .str "m\n")] = .ok settings ∧
      settings.verify = true ∧
      (evaluate "6 * 7" settings).result = .error (.engine .rejected)) ∧
    ∃ settings, Settings.check [("entry_name", .str "llvm.foo")] = .ok settings ∧
      settings.verify = true ∧
      (evaluate "6 * 7" settings).result = .error (.engine .rejected) := by
  refine ⟨by decide +kernel, ?_, ?_⟩
  · refine ⟨⟨0, "calcjit_expr", "m\n", true, by decide, by decide, by decide⟩, ?_, rfl, ?_⟩
    · decide +kernel
    · decide +kernel
  · refine ⟨⟨0, "llvm.foo", "calcjit", true, by decide, by decide, by decide⟩, ?_, rfl, ?_⟩
    · decide +kernel
    · decide +kernel

end ArithJit
