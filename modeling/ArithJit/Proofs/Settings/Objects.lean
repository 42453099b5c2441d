import ArithJit.Proofs.Settings.Checking
import Mathlib.Data.List.Basic
import Mathlib.Data.List.Induction
import Mathlib.Tactic.SplitIfs
import Mathlib.Tactic.Tauto

/-!
# Settings from an object

An object is made from members that are given one after the other, and the last value of a key is
the one that counts. The settings depend on the last values of their four keys and on nothing else.
They hold what is given and the standard values otherwise. If a value is refused, the error is about
the first setting with such a value, in the order of the settings and not of the members.

The other keys are named in one warning, whether or not an error follows, each of them once and in
the order of their code points.
-/

namespace ArithJit

/-! ## Members given one after the other -/

namespace Json

/-- The object made from members that are given one after the other. -/
def object (given : Members) : Members :=
  given.foldl (fun members m => setMember m.1 m.2 members) []

/-- The value that is given to a key last. -/
def lastValue? (key : String) (given : Members) : Option Json :=
  given.reverse.lookup (.ofString key)

variable {key : UnicodeString}

theorem lookup_setMember (k : UnicodeString) (v : Json) (members : Members) :
    (setMember k v members).lookup key = if key = k then some v else members.lookup key := by
  induction members with
  | nil =>
    by_cases h : key = k
    · simp [setMember, h]
    · simp [setMember, List.lookup_cons, h, beq_false_of_ne h]
  | cons m members ih =>
    obtain ⟨k', v'⟩ := m
    by_cases hk : k' = k
    · subst hk
      by_cases h : key = k'
      · simp [setMember, h]
      · simp [setMember, List.lookup_cons, h, beq_false_of_ne h]
    · by_cases h : key = k'
      · subst h
        simp [setMember, hk]
      · simp [setMember, hk, List.lookup_cons, beq_false_of_ne h, ih]

theorem mem_keys_setMember (k : UnicodeString) (v : Json) (members : Members) :
    key ∈ (setMember k v members).map Prod.fst ↔ key = k ∨ key ∈ members.map Prod.fst := by
  induction members with
  | nil => simp [setMember]
  | cons m members ih =>
    obtain ⟨k', v'⟩ := m
    by_cases hk : k' = k
    · simp [setMember, hk]
    · rw [setMember, if_neg hk, List.map_cons, List.mem_cons, ih, List.map_cons, List.mem_cons]
      exact or_left_comm

theorem object_concat (given : Members) (k : UnicodeString) (v : Json) :
    object (given ++ [(k, v)]) = setMember k v (object given) := by
  simp [object]

theorem member?_object (key : String) (given : Members) :
    member? key (object given) = lastValue? key given := by
  induction given using List.reverseRecOn with
  | nil => rfl
  | append_singleton given m ih =>
    obtain ⟨k, v⟩ := m
    rw [member?] at ih
    rw [member?, object_concat, lookup_setMember, ih, lastValue?, lastValue?, List.reverse_concat,
      List.lookup_cons]
    by_cases h : UnicodeString.ofString key = k
    · simp [h]
    · simp [h, beq_false_of_ne h]

theorem mem_keys_object (given : Members) :
    key ∈ (object given).map Prod.fst ↔ key ∈ given.map Prod.fst := by
  induction given using List.reverseRecOn with
  | nil => rfl
  | append_singleton given m ih =>
    obtain ⟨k, v⟩ := m
    rw [object_concat, mem_keys_setMember, ih, List.map_append, List.mem_append, or_comm]
    simp

end Json

/-! ## The order of code points -/

theorem CodePoint.toNat_inj {p q : CodePoint} : p.toNat = q.toNat ↔ p = q := by
  constructor
  · intro h
    rw [← ofNat_toNat p, h, ofNat_toNat]
  · intro h
    rw [h]

namespace UnicodeString

/-- The numbers of the code points. -/
def numbers (s : UnicodeString) : List Nat := s.points.map CodePoint.toNat

theorem pointsLE_total (ps qs : List CodePoint) : (pointsLE ps qs || pointsLE qs ps) = true := by
  induction ps generalizing qs with
  | nil => simp [pointsLE]
  | cons p ps ih =>
    cases qs with
    | nil => simp [pointsLE]
    | cons q qs =>
      by_cases h : p = q
      · subst h
        simpa [pointsLE] using ih qs
      · have hne : p.toNat ≠ q.toNat := fun heq => h (CodePoint.toNat_inj.1 heq)
        simp [pointsLE, h, Ne.symm h]
        omega

theorem pointsLE_trans {ps qs rs : List CodePoint} (h : pointsLE ps qs = true)
    (h' : pointsLE qs rs = true) : pointsLE ps rs = true := by
  induction ps generalizing qs rs with
  | nil => rfl
  | cons p ps ih =>
    cases qs with
    | nil => simp [pointsLE] at h
    | cons q qs =>
      cases rs with
      | nil => simp [pointsLE] at h'
      | cons r rs =>
        simp only [pointsLE] at h h' ⊢
        split_ifs at h h' ⊢ with hpq hqr hpr
        all_goals grind

theorem lex_of_pointsLE {ps qs : List CodePoint} (h : pointsLE ps qs = true) (hne : ps ≠ qs) :
    List.Lex (· < ·) (ps.map CodePoint.toNat) (qs.map CodePoint.toNat) := by
  induction ps generalizing qs with
  | nil =>
    cases qs with
    | nil => exact absurd rfl hne
    | cons q qs => exact .nil
  | cons p ps ih =>
    cases qs with
    | nil => simp [pointsLE] at h
    | cons q qs =>
      by_cases hpq : p = q
      · subst hpq
        rw [pointsLE, if_pos rfl] at h
        exact .cons (ih h (by simpa using hne))
      · rw [pointsLE, if_neg hpq, decide_eq_true_eq] at h
        exact .rel h

end UnicodeString

theorem nodup_eraseDups {α : Type} [BEq α] [LawfulBEq α] (l : List α) : l.eraseDups.Nodup := by
  match l with
  | [] => simp
  | a :: l =>
    rw [List.eraseDups_cons, List.nodup_cons]
    refine ⟨?_, nodup_eraseDups _⟩
    rw [List.mem_eraseDups, List.mem_filter]
    simp
termination_by l.length
decreasing_by
  have := List.length_filter_le (fun b => !b == a) l
  simp only [List.length_cons]
  omega

/-! ## Names of functions and modules -/

namespace Symbol

/-- A letter or an underscore. -/
def IsStart (c : Char) : Prop := 'A' ≤ c ∧ c ≤ 'Z' ∨ 'a' ≤ c ∧ c ≤ 'z' ∨ c = '_'

/-- A letter, a digit, an underscore or a point. -/
def IsPart (c : Char) : Prop := IsStart c ∨ '0' ≤ c ∧ c ≤ '9' ∨ c = '.'

/-- A first character and then any number of others, with at most one line feed behind them. -/
def IsWritten (cs : List Char) : Prop :=
  ∃ c body, IsStart c ∧ (∀ d ∈ body, IsPart d) ∧ (cs = c :: body ∨ cs = c :: body ++ ['\n'])

theorem isStart_iff {c : Char} : IsStart c ↔ isSymbolStart c = true := by
  have hupper : c.isUpper = true ↔ 'A' ≤ c ∧ c ≤ 'Z' := decide_eq_true_iff
  have hlower : c.isLower = true ↔ 'a' ≤ c ∧ c ≤ 'z' :=
    Bool.and_eq_true_iff.trans (and_congr decide_eq_true_iff decide_eq_true_iff)
  have halpha : c.isAlpha = true ↔ c.isUpper = true ∨ c.isLower = true := Bool.or_eq_true_iff
  simp only [IsStart, isSymbolStart, Bool.or_eq_true, decide_eq_true_eq]
  rw [halpha, hupper, hlower, or_assoc]

theorem isPart_iff {c : Char} : IsPart c ↔ isSymbolPart c = true := by
  have hdigit : c.isDigit = true ↔ '0' ≤ c ∧ c ≤ '9' :=
    Bool.and_eq_true_iff.trans (and_congr decide_eq_true_iff decide_eq_true_iff)
  have halphanum : c.isAlphanum = true ↔ c.isAlpha = true ∨ c.isDigit = true := Bool.or_eq_true_iff
  simp only [IsPart, isStart_iff, isSymbolStart, isSymbolPart, Bool.or_eq_true, decide_eq_true_eq]
  rw [halphanum, hdigit]
  tauto

theorem isWritten_iff {s : String} : isSymbol s = true ↔ IsWritten s.toList := by
  unfold isSymbol
  cases s.toList with
  | nil => simp [IsWritten]
  | cons c cs =>
    simp only [Bool.and_eq_true, Bool.or_eq_true, decide_eq_true_eq, List.all_eq_true,
      ← isStart_iff, ← isPart_iff]
    constructor
    · rintro ⟨hc, hall | ⟨hlast, hall⟩⟩
      · exact ⟨c, cs, hc, hall, .inl rfl⟩
      · refine ⟨c, cs.dropLast, hc, hall, .inr ?_⟩
        rw [List.cons_append, List.dropLast_append_getLast? '\n' hlast]
    · rintro ⟨c', body, hc, hall, h | h⟩
      · obtain ⟨rfl, rfl⟩ := List.cons.inj h
        exact ⟨hc, .inl hall⟩
      · obtain ⟨rfl, rfl⟩ := List.cons.inj h
        exact ⟨hc, .inr ⟨List.getLast?_concat, by simpa using hall⟩⟩

end Symbol

/-! ## Checking an object -/

/-- The settings in the order in which they are checked. -/
def Setting.all : List Setting := [.optLevel, .entryName, .moduleName, .verify]

namespace Settings

/-- What settings hold, as a value that could have been given. -/
def value (s : Settings) : Setting → Json
  | .optLevel => .int s.optLevel
  | .entryName => .str s.entryName
  | .moduleName => .str s.moduleName
  | .verify => .bool s.verify

variable {α β : Type} {k : Setting} {given : Option Json} {result : Except SettingError α}
  {members : Json.Members} {e : SettingError} {s : Settings}

theorem exists_of_bind_eq_ok {f : α → Except SettingError β} {b : β} (h : result >>= f = .ok b) :
    ∃ a, result = .ok a ∧ f a = .ok b := by
  cases result with
  | error e => simp [bind, Except.bind] at h
  | ok a => exact ⟨a, rfl, h⟩

theorem value_of_checkOptLevel {n : { n : Nat // n ≤ 3 }} (h : checkOptLevel given = .ok n) :
    Json.int (n : Nat) = given.getD (.int 0) := by
  unfold checkOptLevel at h
  split at h
  · obtain rfl := Except.ok.inj h
    rfl
  · split_ifs at h with hrange
    obtain rfl := Except.ok.inj h
    simp [Int.toNat_of_nonneg hrange.1]
  · simp at h

theorem value_of_checkName {refuse : Json → SettingError}
    {standard name : { s : String // isSymbol s = true }}
    (h : checkName refuse standard given = .ok name) :
    Json.str (.ofString name) = given.getD (.str (.ofString standard)) := by
  unfold checkName at h
  split at h
  · obtain rfl := Except.ok.inj h
    rfl
  · split at h
    · next hname =>
      split_ifs at h
      obtain rfl := Except.ok.inj h
      rw [Option.getD_some, UnicodeString.eq_ofString hname]
    · simp at h
  · simp at h

theorem value_of_checkVerify {b : Bool} (h : checkVerify given = .ok b) :
    Json.bool b = given.getD (.bool true) := by
  unfold checkVerify at h
  split at h
  · obtain rfl := Except.ok.inj h
    rfl
  · obtain rfl := Except.ok.inj h
    rfl
  · simp at h

/-- Settings that pass hold what is given, and the standard values otherwise. -/
theorem value_of_check (h : check members = .ok s) (k : Setting) :
    s.value k = (Json.member? k.key members).getD (default.value k) := by
  obtain ⟨level, hlevel, h⟩ := exists_of_bind_eq_ok h
  obtain ⟨entry, hentry, h⟩ := exists_of_bind_eq_ok h
  obtain ⟨moduleName, hmodule, h⟩ := exists_of_bind_eq_ok h
  obtain ⟨verify, hverify, h⟩ := exists_of_bind_eq_ok h
  obtain rfl := Except.ok.inj h
  cases k with
  | optLevel => exact value_of_checkOptLevel hlevel
  | entryName => exact value_of_checkName hentry
  | moduleName => exact value_of_checkName hmodule
  | verify => exact value_of_checkVerify hverify

/-- An error of a check that is followed by others is about its setting, or it comes from the others
    and there is nothing wrong with its setting. -/
theorem Decides.bind_eq_error (h : Decides k (Json.member? k.key members) result)
    {f : α → Except SettingError β} (herror : result >>= f = .error e) :
    (e.setting = k ∧ e.IsAbout members) ∨ ∃ a, f a = .error e ∧ ¬k.IsInvalid members := by
  rcases h.result_cases with ⟨e', rfl, hsetting, habout⟩ | ⟨a, rfl, hvalid⟩
  · obtain rfl := Except.error.inj herror
    exact .inl ⟨hsetting, habout⟩
  · exact .inr ⟨a, herror, hvalid⟩

/-- The error is about the first setting with a value that it does not admit. -/
theorem check_eq_error (h : check members = .error e) :
    e.IsAbout members ∧ ∃ before after, Setting.all = before ++ e.setting :: after ∧
      ∀ k ∈ before, ¬k.IsInvalid members := by
  have hlevel := decides_checkOptLevel (Json.member? "opt_level" members)
  have hentry := decides_entryName (Json.member? "entry_name" members)
  have hmodule := decides_moduleName (Json.member? "module_name" members)
  have hverify := decides_checkVerify (Json.member? "verify" members)
  rcases hlevel.bind_eq_error h with ⟨hsetting, habout⟩ | ⟨level, h, hlevel⟩
  · refine ⟨habout, [], [.entryName, .moduleName, .verify], ?_, by simp⟩
    rw [hsetting]
    rfl
  rcases hentry.bind_eq_error h with ⟨hsetting, habout⟩ | ⟨entry, h, hentry⟩
  · refine ⟨habout, [.optLevel], [.moduleName, .verify], ?_, by simpa using hlevel⟩
    rw [hsetting]
    rfl
  rcases hmodule.bind_eq_error h with ⟨hsetting, habout⟩ | ⟨moduleName, h, hmodule⟩
  · refine ⟨habout, [.optLevel, .entryName], [.verify], ?_, by simp [hlevel, hentry]⟩
    rw [hsetting]
    rfl
  rcases hverify.bind_eq_error h with ⟨hsetting, habout⟩ | ⟨verify, h, hverify⟩
  · refine ⟨habout, [.optLevel, .entryName, .moduleName], [], ?_, by simp [hlevel, hentry, hmodule]⟩
    rw [hsetting]
    rfl
  · simp [pure, Except.pure] at h

/-- The values of the four keys decide what the checks come to. -/
theorem check_congr {members' : Json.Members}
    (h : ∀ k : Setting, Json.member? k.key members' = Json.member? k.key members) :
    check members' = check members := by
  have hlevel := h .optLevel
  have hentry := h .entryName
  have hmodule := h .moduleName
  have hverify := h .verify
  simp only [Setting.key] at hlevel hentry hmodule hverify
  simp only [check, hlevel, hentry, hmodule, hverify]

/-! ## The other keys -/

theorem mem_unknownKeys {key : UnicodeString} :
    key ∈ unknownKeys members ↔
      key ∈ members.map Prod.fst ∧ ∀ k : Setting, key ≠ .ofString k.key := by
  have hkeys : keys.contains key = false ↔ ∀ k : Setting, key ≠ .ofString k.key := by
    simp only [keys, List.contains_eq_mem, decide_eq_false_iff_not, List.mem_cons,
      List.not_mem_nil, or_false, not_or]
    constructor
    · rintro ⟨hlevel, hentry, hmodule, hverify⟩ k
      cases k with
      | optLevel => exact hlevel
      | entryName => exact hentry
      | moduleName => exact hmodule
      | verify => exact hverify
    · intro h
      exact ⟨h .optLevel, h .entryName, h .moduleName, h .verify⟩
  rw [unknownKeys, List.mem_mergeSort, List.mem_eraseDups, List.mem_filter, Bool.not_eq_true', hkeys]

/-- The other keys are named in increasing order, so each of them once. -/
theorem pairwise_unknownKeys (members : Json.Members) :
    (unknownKeys members).Pairwise fun a b => List.Lex (· < ·) a.numbers b.numbers := by
  have hsorted : (unknownKeys members).Pairwise fun a b => a.le b = true := by
    apply List.pairwise_mergeSort
    · intro a b c
      exact UnicodeString.pointsLE_trans
    · intro a b
      exact UnicodeString.pointsLE_total a.points b.points
  have hnodup : (unknownKeys members).Nodup :=
    (List.mergeSort_perm _ _).nodup_iff.2 (nodup_eraseDups _)
  refine (hsorted.and hnodup).imp ?_
  rintro a b ⟨hle, hne⟩
  apply UnicodeString.lex_of_pointsLE hle
  intro hpoints
  cases a
  cases b
  exact hne (congrArg UnicodeString.mk hpoints)

/-! ## What an object comes to -/

/-- Settings are made exactly if each of the four keys is absent or has a last value that its setting
    admits; they hold these values, and the standard ones for absent keys. Otherwise the error is
    about the first setting that does not admit its value, and its diagnostic names that key. No
    order of the members and no other key changes this. The other keys are the subject of one
    warning, with or without an error, and are named in increasing order. -/
theorem ofMembers_outcome (given : Json.Members) :
    let outcome := ofMembers (Json.object given)
    (∀ s : String, isSymbol s = true ↔ Symbol.IsWritten s.toList) ∧
    ((∃ s, outcome.result = .ok s) ↔
      ∀ k : Setting, ∀ v, Json.lastValue? k.key given = some v → k.Admits v) ∧
    (∀ s, outcome.result = .ok s →
      ∀ k, s.value k = (Json.lastValue? k.key given).getD (default.value k)) ∧
    (∀ e, outcome.result = .error e →
      e.diagnostic.kind = .configError ∧
      e.diagnostic.details = [(.ofString "key", .str e.setting.key)] ∧
      Json.lastValue? e.setting.key given = some e.got ∧ ¬e.setting.Admits e.got ∧
      ∃ before after, Setting.all = before ++ e.setting :: after ∧
        ∀ k ∈ before, ∀ v, Json.lastValue? k.key given = some v → k.Admits v) ∧
    (∀ given', (∀ k : Setting, Json.lastValue? k.key given' = Json.lastValue? k.key given) →
      (ofMembers (Json.object given')).result = outcome.result) ∧
    ∃ unknown : List UnicodeString,
      (∀ key, key ∈ unknown ↔
        key ∈ given.map Prod.fst ∧ ∀ k : Setting, key ≠ .ofString k.key) ∧
      (unknown.Pairwise fun a b => List.Lex (· < ·) a.numbers b.numbers) ∧
      outcome.log = if unknown = [] then [] else [.unknownKeys unknown] := by
  intro outcome
  have hvalid {k : Setting} : ¬k.IsInvalid (Json.object given) ↔
      ∀ v, Json.lastValue? k.key given = some v → k.Admits v := by
    simp [Setting.IsInvalid, Json.member?_object]
  refine ⟨fun s => Symbol.isWritten_iff, ?_, ?_, ?_, ?_, ?_⟩
  · constructor
    · rintro ⟨s, hs⟩ k
      rw [← hvalid]
      intro hinvalid
      obtain ⟨e, he⟩ := exists_check_eq_error_iff.2 ⟨k, hinvalid⟩
      simp [outcome, ofMembers, he] at hs
    · intro hall
      rcases check_cases (Json.object given) with ⟨e, -, habout⟩ | ⟨s, hs, -⟩
      · exact absurd ⟨e.got, habout⟩ (hvalid.2 (hall e.setting))
      · exact ⟨s, hs⟩
  · intro s hs k
    rw [← Json.member?_object]
    exact value_of_check hs k
  · intro e he
    obtain ⟨⟨hgot, hunfit⟩, before, after, hall, hbefore⟩ := check_eq_error he
    rw [Json.member?_object] at hgot
    refine ⟨?_, ?_, hgot, hunfit, before, after, hall, fun k hk => hvalid.1 (hbefore k hk)⟩
    · cases e <;> rfl
    · cases e <;> rfl
  · intro given' hsame
    apply check_congr
    intro k
    rw [Json.member?_object, Json.member?_object, hsame k]
  · refine ⟨unknownKeys (Json.object given), ?_, pairwise_unknownKeys _, ?_⟩
    · intro key
      rw [mem_unknownKeys, Json.mem_keys_object]
    · simp [outcome, ofMembers, List.isEmpty_iff]

end Settings

end ArithJit
