import ArithJit.Settings.Basic

/-!
# Which settings are refused

Every setting admits some JSON values and no others. The checks refuse an object exactly if it gives
some setting a value that it does not admit, and the error holds that setting and that value. The
three kinds of check differ in what they admit only, so that `Decides` is said of each of them and
the rest is about checks done one after the other.
-/

namespace ArithJit

/-- The settings. -/
inductive Setting where
  | optLevel
  | entryName
  | moduleName
  | verify
  deriving DecidableEq, Repr

namespace Setting

/-- The key of a setting. -/
def key : Setting → String
  | .optLevel => "opt_level"
  | .entryName => "entry_name"
  | .moduleName => "module_name"
  | .verify => "verify"

/-- The values that a setting admits: an integer from zero to three, a symbol, or a truth value. -/
def Admits : Setting → Json → Prop
  | .optLevel, v => ∃ n : Int, v = .int n ∧ 0 ≤ n ∧ n ≤ 3
  | .entryName, v | .moduleName, v => ∃ s : String, v = .str s ∧ isSymbol s = true
  | .verify, v => ∃ b, v = .bool b

/-- An object gives the setting a value that it does not admit. -/
def IsInvalid (k : Setting) (members : Json.Members) : Prop :=
  ∃ v, Json.member? k.key members = some v ∧ ¬k.Admits v

end Setting

namespace SettingError

/-- The setting that is refused. -/
def setting : SettingError → Setting
  | .optLevel _ => .optLevel
  | .entryName _ => .entryName
  | .moduleName _ => .moduleName
  | .verify _ => .verify

/-- The value that is refused. -/
def got : SettingError → Json
  | .optLevel v | .entryName v | .moduleName v | .verify v => v

/-- The error is about a value that the object gives its setting and that the setting does not
    admit. -/
def IsAbout (e : SettingError) (members : Json.Members) : Prop :=
  Json.member? e.setting.key members = some e.got ∧ ¬e.setting.Admits e.got

end SettingError

/-- A string that holds a text is that text. -/
theorem UnicodeString.eq_ofString {s : UnicodeString} {name : String}
    (h : s.toString? = some name) : s = .ofString name := by
  have hchars : ∀ (ps : List CodePoint) (cs : List Char),
      ps.mapM CodePoint.char? = some cs → ps = cs.map .char := by
    intro ps
    induction ps with
    | nil => simp
    | cons p ps ih =>
      intro cs hcs
      cases p with
      | surrogate offset => simp [CodePoint.char?] at hcs
      | char c =>
        simp only [List.mapM_cons, CodePoint.char?, Option.pure_def, Option.bind_eq_bind,
          Option.bind_some, Option.bind_eq_some_iff, Option.some.injEq] at hcs
        obtain ⟨ds, hds, rfl⟩ := hcs
        rw [ih ds hds, List.map_cons]
  obtain ⟨points⟩ := s
  obtain ⟨cs, hcs, rfl⟩ := Option.map_eq_some_iff.1 h
  rw [ofString, String.toList_ofList, hchars points cs hcs]

namespace Settings

/-- Everything that the check of a setting can do with the value that is given, if one is. -/
inductive Decides {α : Type} (k : Setting) : Option Json → Except SettingError α → Prop
  | absent (a : α) : Decides k none (.ok a)
  | admitted (a : α) {v : Json} (admits : k.Admits v) : Decides k (some v) (.ok a)
  | refused {e : SettingError} (setting : e.setting = k) (unfit : ¬k.Admits e.got) :
      Decides k (some e.got) (.error e)

variable {α : Type} {k : Setting} {given : Option Json} {result : Except SettingError α}
  {members : Json.Members} {e : SettingError}

/-- A check refuses what is given to its setting, or there is nothing wrong with that. -/
theorem Decides.result_cases (h : Decides k (Json.member? k.key members) result) :
    (∃ e, result = .error e ∧ e.setting = k ∧ e.IsAbout members) ∨
      ∃ a, result = .ok a ∧ ¬k.IsInvalid members := by
  generalize hgiven : Json.member? k.key members = given at h
  cases h with
  | absent a =>
    refine .inr ⟨a, rfl, ?_⟩
    rintro ⟨v, hv, -⟩
    simp [hgiven] at hv
  | admitted a admits =>
    refine .inr ⟨a, rfl, ?_⟩
    rintro ⟨v, hv, hunfit⟩
    obtain rfl := Option.some.inj (hgiven.symm.trans hv)
    exact hunfit admits
  | refused setting unfit =>
    subst setting
    exact .inl ⟨_, rfl, rfl, hgiven, unfit⟩

/-- A check that is followed by others refuses its setting, or finds nothing wrong with it and lets
    them go on. -/
theorem Decides.bind_cases {β : Type} (h : Decides k (Json.member? k.key members) result)
    (f : α → Except SettingError β) :
    (∃ e, result >>= f = .error e ∧ e.IsAbout members) ∨
      ∃ a, result >>= f = f a ∧ ¬k.IsInvalid members := by
  rcases h.result_cases with ⟨e, rfl, -, habout⟩ | ⟨a, rfl, hvalid⟩
  · exact .inl ⟨e, rfl, habout⟩
  · exact .inr ⟨a, rfl, hvalid⟩

theorem decides_checkOptLevel (given : Option Json) :
    Decides .optLevel given (checkOptLevel given) := by
  match given with
  | none => exact .absent _
  | some (.int n) =>
    by_cases h : 0 ≤ n ∧ n ≤ 3
    · simp only [checkOptLevel, dif_pos h]
      exact .admitted _ ⟨n, rfl, h⟩
    · simp only [checkOptLevel, dif_neg h]
      refine .refused (e := .optLevel (.int n)) rfl ?_
      rintro ⟨m, hm, hrange⟩
      obtain rfl := Json.int.inj hm
      exact h hrange
  | some .null | some (.bool _) | some (.float _) | some (.str _) | some (.arr _) | some (.obj _) =>
    refine .refused (e := .optLevel _) rfl ?_
    rintro ⟨m, hm, -⟩
    simp [SettingError.got] at hm

/-- The check of either name. -/
theorem decides_checkName (refuse : Json → SettingError) (hsetting : ∀ v, (refuse v).setting = k)
    (hgot : ∀ v, (refuse v).got = v)
    (hadmits : ∀ v, k.Admits v ↔ ∃ s : String, v = .str s ∧ isSymbol s = true)
    (standard : { s : String // isSymbol s = true }) (given : Option Json) :
    Decides k given (checkName refuse standard given) := by
  have hrefused {v : Json} (hv : ∀ s : String, v = .str s → isSymbol s ≠ true) :
      Decides k (some v) (.error (refuse v) : Except SettingError { s // isSymbol s = true }) := by
    have hunfit : ¬k.Admits (refuse v).got := by
      rw [hgot, hadmits]
      rintro ⟨s, hs, hsymbol⟩
      exact hv s hs hsymbol
    simpa only [hgot] using Decides.refused (hsetting v) hunfit
  match given with
  | none => exact .absent _
  | some (.str s) =>
    cases hname : s.toString? with
    | none =>
      simp only [checkName, hname]
      apply hrefused
      intro name hs
      rw [Json.str.inj hs, UnicodeString.toString?_ofString] at hname
      simp at hname
    | some name =>
      obtain rfl := UnicodeString.eq_ofString hname
      by_cases hsymbol : isSymbol name = true
      · simp only [checkName, hname, dif_pos hsymbol]
        exact .admitted _ ((hadmits _).2 ⟨name, rfl, hsymbol⟩)
      · simp only [checkName, hname, dif_neg hsymbol]
        apply hrefused
        intro other hs
        rw [Json.str.inj hs, UnicodeString.toString?_ofString, Option.some.injEq] at hname
        rwa [hname]
  | some .null | some (.bool _) | some (.int _) | some (.float _) | some (.arr _) | some (.obj _) =>
    exact hrefused (by simp)

theorem decides_entryName (given : Option Json) :
    Decides .entryName given
      (checkName .entryName ⟨_, default.entryName_isSymbol⟩ given) :=
  decides_checkName .entryName (fun _ => rfl) (fun _ => rfl) (fun _ => .rfl) _ given

theorem decides_moduleName (given : Option Json) :
    Decides .moduleName given
      (checkName .moduleName ⟨_, default.moduleName_isSymbol⟩ given) :=
  decides_checkName .moduleName (fun _ => rfl) (fun _ => rfl) (fun _ => .rfl) _ given

theorem decides_checkVerify (given : Option Json) :
    Decides .verify given (checkVerify given) := by
  match given with
  | none => exact .absent _
  | some (.bool b) => exact .admitted b ⟨b, rfl⟩
  | some .null | some (.int _) | some (.float _) | some (.str _) | some (.arr _) | some (.obj _) =>
    refine .refused (e := .verify _) rfl ?_
    rintro ⟨b, hb⟩
    simp [SettingError.got] at hb

/-- An object is refused for a value that one of the settings does not admit, and otherwise no
    setting has such a value. -/
theorem check_cases (members : Json.Members) :
    (∃ e, check members = .error e ∧ e.IsAbout members) ∨
      ∃ s, check members = .ok s ∧ ∀ k : Setting, ¬k.IsInvalid members := by
  have hlevel := decides_checkOptLevel (Json.member? "opt_level" members)
  have hentry := decides_entryName (Json.member? "entry_name" members)
  have hmodule := decides_moduleName (Json.member? "module_name" members)
  have hverify := decides_checkVerify (Json.member? "verify" members)
  rw [check]
  rcases hlevel.bind_cases _ with hrefused | ⟨level, hgo, hlevel⟩
  · exact .inl hrefused
  rw [hgo]
  rcases hentry.bind_cases _ with hrefused | ⟨entry, hgo, hentry⟩
  · exact .inl hrefused
  rw [hgo]
  rcases hmodule.bind_cases _ with hrefused | ⟨moduleName, hgo, hmodule⟩
  · exact .inl hrefused
  rw [hgo]
  rcases hverify.bind_cases _ with hrefused | ⟨verify, hgo, hverify⟩
  · exact .inl hrefused
  rw [hgo]
  refine .inr ⟨_, rfl, fun k => ?_⟩
  cases k with
  | optLevel => exact hlevel
  | entryName => exact hentry
  | moduleName => exact hmodule
  | verify => exact hverify

/-- An object is refused exactly if it gives a setting a value that it does not admit. -/
theorem exists_check_eq_error_iff :
    (∃ e, check members = .error e) ↔ ∃ k : Setting, k.IsInvalid members := by
  rcases check_cases members with ⟨e, herror, habout⟩ | ⟨s, hok, hnone⟩
  · exact ⟨fun _ => ⟨e.setting, e.got, habout⟩, fun _ => ⟨e, herror⟩⟩
  · constructor
    · rintro ⟨e, he⟩
      simp [hok] at he
    · rintro ⟨k, hk⟩
      exact absurd hk (hnone k)

end Settings

end ArithJit
