import ArithJit.Proofs.Settings.Checking
import ArithJit.Proofs.Text.Utf8
import ArithJit.Settings.Loading

/-!
# What loading settings comes to

A file that can be opened holds a text if its bytes encode one. Given a text, loading falls back to
the standard settings unless the text is a JSON object, and then it is up to the values in the
object. So loading gives settings or an error about a setting, as long as the file that is named
holds a text without an integer that is too long. Bytes that encode no text, such an integer, and a
null character in the name of the file are failures of their own: there the standard settings do not
stand in.

`Loads` lists everything that loading can come to, and `loads_load` says that the list is complete.
-/

namespace ArithJit

/-- A file can be opened and its bytes encode a text, the lines of which end in line feeds here. -/
def FileTree.HoldsText (t : FileTree) (cwd : Path) (name : String) (text : List Char) : Prop :=
  '\x00' ∉ name.toList ∧
    ∃ cs, t.openFile cwd name = .ok (Text.encodeUtf8 cs) ∧ text = normalizeLines cs

/-- The file has no null character in its name, and if it can be opened it holds a text in which no
    integer is too long. -/
def FileTree.IsUnspoiled (t : FileTree) (cwd : Path) (name : String) : Prop :=
  '\x00' ∉ name.toList ∧
    ∀ bytes, t.openFile cwd name = .ok bytes →
      ∃ text, t.HoldsText cwd name text ∧ ∀ n, Json.read text ≠ .error (.longInteger n)

theorem FileTree.HoldsText.eq {t : FileTree} {cwd : Path} {name : String} {text text' : List Char}
    (h : t.HoldsText cwd name text) (h' : t.HoldsText cwd name text') : text = text' := by
  obtain ⟨-, cs, hopen, rfl⟩ := h
  obtain ⟨-, cs', hopen', rfl⟩ := h'
  have hbytes := Except.ok.inj (hopen.symm.trans hopen')
  have hdecode := Text.decodeUtf8_eq_ok_iff.2 (Eq.refl (Text.encodeUtf8 cs))
  have hdecode' := Text.decodeUtf8_eq_ok_iff.2 hbytes
  rw [Except.ok.inj (hdecode.symm.trans hdecode')]

namespace Settings

/-- The file that settings are loaded from: the one that is given, or else the nearest one. -/
def file? (t : FileTree) (cwd : Path) (path : Option String) (startDir : String) : Option String :=
  path.or (nearestFile? t cwd startDir)

/-- Everything that loading can come to, with the file that is named, if one is. -/
inductive Loads (t : FileTree) (cwd : Path) : Option String → Except LoadError Settings → Prop
  | unnamed : Loads t cwd none (.ok default)
  | unopened {name : String} {e : OpenError} (null : '\x00' ∉ name.toList)
      (opened : t.openFile cwd name = .error e) : Loads t cwd (some name) (.ok default)
  | malformed {name : String} {text : List Char} {f : Json.Fault} {p : Nat}
      (holds : t.HoldsText cwd name text) (read : Json.read text = .error (.malformed f p)) :
      Loads t cwd (some name) (.ok default)
  | notObject {name : String} {text : List Char} {v : Json} (holds : t.HoldsText cwd name text)
      (read : Json.read text = .ok v) (other : ∀ members, v ≠ .obj members) :
      Loads t cwd (some name) (.ok default)
  | accepted {name : String} {text : List Char} {members : Json.Members} {s : Settings}
      (holds : t.HoldsText cwd name text) (read : Json.read text = .ok (.obj members))
      (checked : check members = .ok s) : Loads t cwd (some name) (.ok s)
  | refused {name : String} {text : List Char} {members : Json.Members} {e : SettingError}
      (holds : t.HoldsText cwd name text) (read : Json.read text = .ok (.obj members))
      (checked : check members = .error e) : Loads t cwd (some name) (.error (.setting e))
  | nullInPath {name : String} (null : '\x00' ∈ name.toList) :
      Loads t cwd (some name) (.error .nullInPath)
  | undecodable {name : String} {bytes : List UInt8} {e : Text.Utf8Error}
      (null : '\x00' ∉ name.toList) (opened : t.openFile cwd name = .ok bytes)
      (decoded : Text.decodeUtf8 bytes = .error e) :
      Loads t cwd (some name) (.error (.undecodable e))
  | longInteger {name : String} {text : List Char} {n : Nat} (holds : t.HoldsText cwd name text)
      (read : Json.read text = .error (.longInteger n)) :
      Loads t cwd (some name) (.error (.longInteger n))

variable {t : FileTree} {cwd : Path} {path : Option String} {startDir name : String}
  {text : List Char} {members : Json.Members}

theorem ofFile_of_null_notMem (h : '\x00' ∉ name.toList) :
    ofFile t cwd name =
      match t.openFile cwd name with
      | .error e => ⟨[.unreadable name (e.message name)], .ok default⟩
      | .ok bytes =>
        match Text.decodeUtf8 bytes with
        | .error e => ⟨[], .error (.undecodable e)⟩
        | .ok text => ofFileText name (normalizeLines text) :=
  if_neg (by simpa using h)

theorem result_ofFileText_of_object (h : Json.read text = .ok (.obj members)) :
    (ofFileText name text).result = (check members).mapError .setting := by
  simp only [ofFileText, h]
  rfl

theorem loads_ofFileText (h : t.HoldsText cwd name text) :
    Loads t cwd (some name) (ofFileText name text).result := by
  cases hread : Json.read text with
  | error reason =>
    cases reason with
    | malformed f p =>
      simp only [ofFileText, hread]
      exact .malformed h hread
    | longInteger n =>
      simp only [ofFileText, hread]
      exact .longInteger h hread
  | ok v =>
    cases v with
    | obj members =>
      rw [result_ofFileText_of_object hread]
      cases hchecked : check members with
      | ok s => exact .accepted h hread hchecked
      | error e => exact .refused h hread hchecked
    | null | bool | int | float | str | arr =>
      simp only [ofFileText, hread]
      exact .notObject h hread (by simp)

theorem loads_ofFile (t : FileTree) (cwd : Path) (name : String) :
    Loads t cwd (some name) (ofFile t cwd name).result := by
  by_cases hnull : '\x00' ∈ name.toList
  · simp only [ofFile, List.contains_iff_mem.2 hnull, if_true]
    exact .nullInPath hnull
  · rw [ofFile_of_null_notMem hnull]
    cases hopen : t.openFile cwd name with
    | error e => exact .unopened hnull hopen
    | ok bytes =>
      cases hdecode : Text.decodeUtf8 bytes with
      | error e =>
        simp only [hdecode]
        exact .undecodable hnull hopen hdecode
      | ok cs =>
        simp only [hdecode]
        rw [Text.decodeUtf8_eq_ok_iff.1 hdecode] at hopen
        exact loads_ofFileText ⟨hnull, cs, hopen, rfl⟩

theorem loads_load (t : FileTree) (cwd : Path) (path : Option String) (startDir : String) :
    Loads t cwd (file? t cwd path startDir) (load t cwd path startDir).result := by
  unfold load file?
  split
  · next hnone =>
    rw [hnone]
    exact .unnamed
  · next name hname =>
    rw [hname]
    exact loads_ofFile t cwd name

/-! ## What a file holds decides what loading comes to -/

theorem result_ofFile_of_holdsText (h : t.HoldsText cwd name text) :
    (ofFile t cwd name).result = (ofFileText name text).result := by
  obtain ⟨hnull, cs, hopen, rfl⟩ := h
  have hdecode := Text.decodeUtf8_eq_ok_iff.2 (Eq.refl (Text.encodeUtf8 cs))
  simp only [ofFile_of_null_notMem hnull, hopen, hdecode]

theorem Loads.result_ofFile {result : Except LoadError Settings}
    (h : Loads t cwd (some name) result) : (ofFile t cwd name).result = result := by
  cases h with
  | unopened null opened =>
    simp only [ofFile_of_null_notMem null, opened]
  | malformed holds read =>
    rw [result_ofFile_of_holdsText holds, ofFileText, read]
  | @notObject _ _ v holds read other =>
    rw [result_ofFile_of_holdsText holds, ofFileText, read]
    cases v with
    | obj members => exact absurd rfl (other members)
    | null | bool | int | float | str | arr => rfl
  | accepted holds read checked =>
    rw [result_ofFile_of_holdsText holds, result_ofFileText_of_object read, checked]
    rfl
  | refused holds read checked =>
    rw [result_ofFile_of_holdsText holds, result_ofFileText_of_object read, checked]
    rfl
  | nullInPath null => simp only [ofFile, List.contains_iff_mem.2 null, if_true]
  | undecodable null opened decoded =>
    simp only [ofFile_of_null_notMem null, opened, decoded]
  | longInteger holds read =>
    rw [result_ofFile_of_holdsText holds, ofFileText, read]

/-- Loading comes to what `Loads` lists and to nothing else. -/
theorem result_load_eq_iff {result : Except LoadError Settings} :
    (load t cwd path startDir).result = result ↔
      Loads t cwd (file? t cwd path startDir) result := by
  constructor
  · rintro rfl
    exact loads_load t cwd path startDir
  · intro h
    unfold file? at h
    unfold load
    split
    · next hnone =>
      rw [hnone] at h
      cases h
      rfl
    · next name hname =>
      rw [hname] at h
      exact h.result_ofFile

/-- Loading gives settings or an error about a setting exactly if the file that is named is
    unspoiled. -/
theorem Loads.isUnspoiled_iff {file : Option String} {result : Except LoadError Settings}
    (h : Loads t cwd file result) :
    ((∃ s, result = .ok s) ∨ ∃ e, result = .error (.setting e)) ↔
      ∀ name, file = some name → t.IsUnspoiled cwd name := by
  -- Whatever is made of it, a text that is read without a long integer shows its file unspoiled.
  have hread {name : String} {text : List Char} (holds : t.HoldsText cwd name text)
      (hint : ∀ n, Json.read text ≠ .error (.longInteger n)) :
      ∀ name', some name = some name' → t.IsUnspoiled cwd name' := by
    rintro _ ⟨⟩
    exact ⟨holds.1, fun _ _ => ⟨text, holds, hint⟩⟩
  cases h with
  | unnamed => simp
  | unopened null opened =>
    have hunspoiled : t.IsUnspoiled cwd _ := ⟨null, by simp [opened]⟩
    simp [hunspoiled]
  | malformed holds read => exact iff_of_true (.inl ⟨_, rfl⟩) (hread holds (by simp [read]))
  | notObject holds read => exact iff_of_true (.inl ⟨_, rfl⟩) (hread holds (by simp [read]))
  | accepted holds read => exact iff_of_true (.inl ⟨_, rfl⟩) (hread holds (by simp [read]))
  | refused holds read => exact iff_of_true (.inr ⟨_, rfl⟩) (hread holds (by simp [read]))
  | nullInPath null =>
    refine iff_of_false (by simp) fun hall => ?_
    exact (hall _ rfl).1 null
  | undecodable null opened decoded =>
    refine iff_of_false (by simp) fun hall => ?_
    obtain ⟨_, ⟨-, cs, hopen, -⟩, -⟩ := (hall _ rfl).2 _ opened
    have hbytes := Except.ok.inj (opened.symm.trans hopen)
    rw [Text.decodeUtf8_eq_ok_iff.2 hbytes] at decoded
    simp at decoded
  | longInteger holds read =>
    refine iff_of_false (by simp) fun hall => ?_
    obtain ⟨cs, hopen, -⟩ := holds.2
    obtain ⟨text', holds', hint⟩ := (hall _ rfl).2 _ hopen
    exact hint _ (holds.eq holds' ▸ read)

/-- An error about a setting comes from an object that gives a setting a value that it does not
    admit. -/
theorem Loads.exists_setting_iff {file : Option String} {result : Except LoadError Settings}
    (h : Loads t cwd file result) :
    (∃ e, result = .error (.setting e)) ↔
      ∃ name text members, file = some name ∧ t.HoldsText cwd name text ∧
        Json.read text = .ok (.obj members) ∧ ∃ k : Setting, k.IsInvalid members := by
  constructor
  · rintro ⟨e, rfl⟩
    cases h with
    | refused holds read checked =>
      exact ⟨_, _, _, rfl, holds, read, exists_check_eq_error_iff.1 ⟨e, checked⟩⟩
  · rintro ⟨name, text, members, rfl, holds, read, hinvalid⟩
    obtain ⟨e, checked⟩ := exists_check_eq_error_iff.2 hinvalid
    exact ⟨e, h.result_ofFile.symm.trans (Loads.refused holds read checked).result_ofFile⟩

/-- Loading gives settings or an error about a setting exactly if the file that is named is
    unspoiled. The standard settings stand in if no file is named, or if the one that is named
    cannot be opened, is not JSON or holds something else than an object. The error is about a
    setting exactly if the file holds an object with an invalid value for a known key. Bytes that
    encode no text are an error of their own. -/
theorem load_outcome (t : FileTree) (cwd : Path) (path : Option String) (startDir : String) :
    let file := file? t cwd path startDir
    let result := (load t cwd path startDir).result
    (((∃ s, result = .ok s) ∨ ∃ e, result = .error (.setting e)) ↔
      ∀ name, file = some name → t.IsUnspoiled cwd name) ∧
    (file = none → result = .ok default) ∧
    (∀ name, file = some name →
      ('\x00' ∉ name.toList → (∃ e, t.openFile cwd name = .error e) → result = .ok default) ∧
      (∀ text, t.HoldsText cwd name text →
        (∃ f p, Json.read text = .error (.malformed f p)) → result = .ok default) ∧
      (∀ text v, t.HoldsText cwd name text → Json.read text = .ok v →
        (∀ members, v ≠ .obj members) → result = .ok default) ∧
      (∀ bytes, '\x00' ∉ name.toList → t.openFile cwd name = .ok bytes →
        (∀ cs, bytes ≠ Text.encodeUtf8 cs) → ∃ e, result = .error (.undecodable e))) ∧
    ((∃ e, result = .error (.setting e)) ↔
      ∃ name text members, file = some name ∧ t.HoldsText cwd name text ∧
        Json.read text = .ok (.obj members) ∧ ∃ k : Setting, k.IsInvalid members) := by
  intro file result
  have hloads : Loads t cwd file result := loads_load t cwd path startDir
  have heq {r : Except LoadError Settings} (h : Loads t cwd file r) : result = r :=
    result_load_eq_iff.2 h
  refine ⟨hloads.isUnspoiled_iff, ?_, ?_, hloads.exists_setting_iff⟩
  · intro hfile
    exact heq (hfile ▸ .unnamed)
  · intro name hfile
    rw [hfile] at heq
    refine ⟨?_, ?_, ?_, ?_⟩
    · rintro hnull ⟨e, hopen⟩
      exact heq (.unopened hnull hopen)
    · rintro text holds ⟨f, p, hread⟩
      exact heq (.malformed holds hread)
    · intro text v holds hread hother
      exact heq (.notObject holds hread hother)
    · intro bytes hnull hopen hspoiled
      cases hdecode : Text.decodeUtf8 bytes with
      | error e => exact ⟨e, heq (.undecodable hnull hopen hdecode)⟩
      | ok cs => exact absurd (Text.decodeUtf8_eq_ok_iff.1 hdecode) (hspoiled cs)

/-- A file with a byte that begins no character gives neither settings nor an error about one. -/
theorem load_spoiled :
    let result := (load ⟨[([".calcjitrc.json"], [0xff])], []⟩ [] none ".").result
    ¬((∃ s, result = .ok s) ∨ ∃ e, result = .error (.setting e)) := by
  intro result
  have hresult : result = .error (.undecodable ⟨.invalidStart, 0, [0xff]⟩) := by rfl
  simp [hresult]

end Settings

end ArithJit
