import ArithJit.Evaluation
import ArithJit.Proofs.Ssa.Simulation

/-!
# Running a routine

Settings that were checked name the compiled function by a symbol. Such a name is in ASCII, holds
no null character and does not begin as a local label does, so of the back end's refusals only two
are left: a reserved name for the function, and a name for the module that breaks its comment. With
settings that avoid both, an engine compiles every routine that can be carried out and returns what
the routine does.
-/

namespace ArithJit

variable {c : Char} {s : String}

theorem toNat_of_isAlpha (h : c.isAlpha = true) : 65 ≤ c.toNat ∧ c.toNat ≤ 122 := by
  rcases Bool.or_eq_true_iff.1 h with hupper | hlower
  · obtain ⟨hlow, hhigh⟩ := of_decide_eq_true hupper
    exact ⟨UInt32.le_iff_toNat_le.1 hlow,
      Nat.le_trans (UInt32.le_iff_toNat_le.1 hhigh) (by decide)⟩
  · obtain ⟨hlow, hhigh⟩ := Bool.and_eq_true_iff.1 hlower
    exact ⟨Nat.le_trans (by decide) (UInt32.le_iff_toNat_le.1 (of_decide_eq_true hlow)),
      UInt32.le_iff_toNat_le.1 (of_decide_eq_true hhigh)⟩

theorem toNat_of_isSymbolStart (h : isSymbolStart c = true) : 65 ≤ c.toNat := by
  simp only [isSymbolStart, Bool.or_eq_true, decide_eq_true_eq] at h
  rcases h with halpha | rfl
  · exact (toNat_of_isAlpha halpha).1
  · decide

theorem toNat_of_isSymbolPart (h : isSymbolPart c = true) : 46 ≤ c.toNat ∧ c.toNat ≤ 122 := by
  simp only [isSymbolPart, Char.isAlphanum, Bool.or_eq_true, decide_eq_true_eq] at h
  rcases h with ((halpha | hdigit) | rfl) | rfl
  · have := toNat_of_isAlpha halpha
    omega
  · obtain ⟨hlow, hhigh⟩ := Char.isDigit_iff_toNat.1 hdigit
    exact ⟨Nat.le_trans (by decide) hlow, Nat.le_trans hhigh (by decide)⟩
  · decide
  · decide

theorem isSymbolPart_of_isSymbolStart (h : isSymbolStart c = true) : isSymbolPart c = true := by
  simp only [isSymbolStart, Bool.or_eq_true] at h
  rcases h with h | h
  · simp [isSymbolPart, Char.isAlphanum, h]
  · simp [isSymbolPart, h]

/-- A symbol is not empty, and a line feed is the only character in it that is not a symbol part. -/
theorem exists_cons_of_isSymbol (h : isSymbol s = true) :
    ∃ c cs, s.toList = c :: cs ∧ isSymbolStart c = true ∧
      ∀ d ∈ c :: cs, isSymbolPart d = true ∨ d = '\n' := by
  unfold isSymbol at h
  split at h
  · simp at h
  · next c cs hs =>
    simp only [Bool.and_eq_true, Bool.or_eq_true, decide_eq_true_eq, List.all_eq_true] at h
    obtain ⟨hc, hcs⟩ := h
    refine ⟨c, cs, hs, hc, fun d hd => ?_⟩
    rcases List.mem_cons.1 hd with rfl | hd
    · exact .inl (isSymbolPart_of_isSymbolStart hc)
    · rcases hcs with hcs | ⟨hlast, hcs⟩
      · exact .inl (hcs d hd)
      · obtain ⟨ds, rfl⟩ := List.getLast?_eq_some_iff.1 hlast
        rw [List.dropLast_concat] at hcs
        rcases List.mem_append.1 hd with hd | hd
        · exact .inl (hcs d hd)
        · exact .inr (List.mem_singleton.1 hd)

theorem toNat_of_mem_symbol (h : isSymbol s = true) (hc : c ∈ s.toList) :
    0 < c.toNat ∧ c.toNat < 0x80 := by
  obtain ⟨d, cs, hs, -, hall⟩ := exists_cons_of_isSymbol h
  rcases hall c (hs ▸ hc) with hpart | rfl
  · have := toNat_of_isSymbolPart hpart
    omega
  · decide

theorem asciiError?_of_isSymbol (h : isSymbol s = true) : Text.asciiError? s = none := by
  rw [Text.asciiError?_eq_none_iff]
  intro c hc
  simp [Text.isAscii, (toNat_of_mem_symbol h hc).2]

namespace Ssa.Module

variable {m : Module} {v : Binary64} {verify : Bool}

theorem isExported_of_isSymbol (h : isSymbol m.entry = true) : m.isExported = true := by
  obtain ⟨c, cs, hs, hc, -⟩ := exists_cons_of_isSymbol h
  have hlow := toNat_of_isSymbolStart hc
  have hmark : c ≠ '\x01' := by
    rintro rfl
    exact absurd hlow (by decide)
  have hpoint : '.' ≠ c := by
    rintro rfl
    exact absurd hlow (by decide)
  simp [isExported, symbol, hs, hmark, List.isPrefixOf, hpoint]

theorem load?_of_run (hwell : m.isWellFormed verify = true) (hrun : m.run = some v) :
    ∃ entry, m.load? verify = some entry ∧ entry.value = v := by
  refine ⟨⟨m, v, hrun⟩, ?_, rfl⟩
  simp only [load?, hwell, if_true]
  split
  · next w hw =>
    obtain rfl : w = v := Option.some.inj (hw.symm.trans hrun)
    rfl
  · next hnone => simp [hnone] at hrun

end Ssa.Module

/-- Settings that the back end has nothing against: the name of the function is not reserved, and
    the name of the module stands in one line. -/
structure Settings.IsAccepted (s : Settings) : Prop where
  entryName : ¬"llvm.".toList <+: s.entryName.toList
  moduleName : '\n' ∉ s.moduleName.toList

variable {settings : Settings} {r : Routine} {v : Binary64}

/-- The module of a routine that has a symbol for a name does what the routine does. The back end
    can only have two things against it: the name of the module breaks its comment, or the name of
    the function is reserved. -/
theorem Routine.emit_of_isSymbol (hsymbol : isSymbol r.name = true) (hr : r.Returns v)
    (moduleName : String) :
    ∃ m, r.emit moduleName = .ok m ∧ m.entry = r.name ∧ m.run = some v ∧
      ∀ verify, m.isWellFormed verify = true ↔
        '\n' ∉ moduleName.toList ∧ ¬(verify = true ∧ "llvm.".toList <+: r.name.toList) := by
  have hne : r.name ≠ "" := by
    intro hempty
    simp [hempty, isSymbol] at hsymbol
  obtain ⟨m, hemit, hmname, hentry, hends⟩ := Routine.emit_eq_ok hne hr moduleName
  have hrun : m.run = some v := (Routine.run_eq_execute hemit).trans hr.execute_eq
  have hnull : '\x00' ∉ r.name.toList := fun hmem =>
    absurd (toNat_of_mem_symbol hsymbol hmem).1 (by decide)
  have hreserved : m.isReserved = true ↔ "llvm.".toList <+: r.name.toList := by
    rw [Ssa.Module.isReserved, hentry, List.isPrefixOf_iff_prefix]
  refine ⟨m, hemit, hentry, hrun, fun verify => ?_⟩
  rw [← hreserved]
  cases verify <;> simp [Ssa.Module.isWellFormed, hmname, hentry, hnull, hends]

/-- With such settings an engine that is open compiles every routine that can be carried out. -/
theorem Engine.compileOpen_eq_ok {e : Engine} (h : e.settings.IsAccepted)
    (hname : r.name = e.settings.entryName) (hr : r.Returns v) :
    ∃ m entry, entry.value = v ∧
      e.compileOpen r = ⟨{ e with compiled := some m, entry := some entry },
        [.emitted r.name, .compiled r.name], .ok ()⟩ := by
  have hsymbol : isSymbol r.name = true := hname ▸ e.settings.entryName_isSymbol
  obtain ⟨m, hemit, hentry, hrun, hwell⟩ := Routine.emit_of_isSymbol hsymbol hr e.settings.moduleName
  have haccepted := (hwell e.settings.verify).2
    ⟨h.moduleName, fun hreserved => h.entryName (hname ▸ hreserved.2)⟩
  obtain ⟨entry, hload, hvalue⟩ := Ssa.Module.load?_of_run haccepted hrun
  refine ⟨m, entry, hvalue, ?_⟩
  simp only [compileOpen, hemit, hload, asciiError?_of_isSymbol hsymbol,
    Ssa.Module.isExported_of_isSymbol (hentry ▸ hsymbol), if_true]

/-- A new engine returns what the routine does. -/
theorem runRoutine_eq_ok (h : settings.IsAccepted) (hname : r.name = settings.entryName)
    (hr : r.Returns v) : (runRoutine r settings).result = .ok v := by
  obtain ⟨m, entry, rfl, hcompile⟩ :=
    Engine.compileOpen_eq_ok (e := { Engine.ofSettings settings with isOpen := true }) h hname hr
  simp only [Engine.ofSettings] at hcompile
  simp [runRoutine, Engine.ofSettings, Engine.start, Engine.compile, Engine.invoke, hcompile]

end ArithJit
