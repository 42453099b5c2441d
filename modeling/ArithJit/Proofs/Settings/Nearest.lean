import ArithJit.Proofs.Settings.Path
import ArithJit.Settings.Loading
import Mathlib.Logic.Function.Iterate

/-!
# The nearest settings file

The search looks in a directory and then in the one above it, and it ends where the directory above
has the same text. `Climbs` is this search as a relation between texts, so that it has a result only
if it ends. It always does, since a path is shorter than the one below it. The result is what the
first directory on the way to the root offers, the preferred name before the other; what is not a
file is passed over.
-/

namespace ArithJit

open ArithJit.Path

/-- A text names a file from the root. -/
def FileTree.IsFile (t : FileTree) (name : String) : Prop :=
  (t.file? (ofText [] name)).isSome = true

namespace Settings

/-- There is no settings file in a directory. -/
def HoldsNone (t : FileTree) (directory : String) : Prop :=
  ∀ name ∈ fileNames, ¬t.IsFile (joinText directory name)

/-- The settings file of a directory; the second name counts only where the first is no file. -/
def Offers (t : FileTree) (directory path : String) : Prop :=
  t.IsFile path ∧
    (path = joinText directory ".calcjitrc.json" ∨
      path = joinText directory "calcjit.config.json" ∧
        ¬t.IsFile (joinText directory ".calcjitrc.json"))

/-- The search from a directory upwards, with its result. -/
inductive Climbs (t : FileTree) : String → Option String → Prop
  | found {directory path : String} (offers : Offers t directory path) :
      Climbs t directory (some path)
  | top {directory : String} (empty : HoldsNone t directory)
      (root : parentText directory = directory) : Climbs t directory none
  | up {directory : String} {result : Option String} (empty : HoldsNone t directory)
      (inner : parentText directory ≠ directory) (above : Climbs t (parentText directory) result) :
      Climbs t directory result

/-- The result is what the first directory offers that has anything to offer, on the way up. -/
def IsNearest (t : FileTree) (directory : String) : Option String → Prop
  | some path =>
      ∃ i, Offers t (parentText^[i] directory) path ∧
        ∀ j < i, HoldsNone t (parentText^[j] directory)
  | none => ∀ i, HoldsNone t (parentText^[i] directory)

variable {t : FileTree} {p : Path} {slash directory path path' : String}
  {result result' : Option String}

/-! ## One directory -/

theorem Offers.not_holdsNone (h : Offers t directory path) : ¬HoldsNone t directory := by
  intro hnone
  obtain ⟨hfile, rfl | ⟨rfl, -⟩⟩ := h
  · exact hnone ".calcjitrc.json" (by decide) hfile
  · exact hnone "calcjit.config.json" (by decide) hfile

theorem Offers.unique (h : Offers t directory path) (h' : Offers t directory path') :
    path = path' := by
  obtain ⟨hfile, rfl | ⟨rfl, hother⟩⟩ := h
  · obtain ⟨-, rfl | ⟨-, hother⟩⟩ := h'
    · rfl
    · exact absurd hfile hother
  · obtain ⟨hfile', rfl | ⟨rfl, -⟩⟩ := h'
    · exact absurd hfile' hother
    · rfl

theorem isFile_joinText (h : p.IsProper) (hslash : slash = "" ∨ slash = "/") {name : String}
    (hname : name ∈ fileNames) :
    t.IsFile (joinText (slash ++ p.text) name) ↔ (t.file? (p ++ [name])).isSome = true := by
  have hproper : IsProper (p ++ [name]) := by
    intro c hc
    rcases List.mem_append.1 hc with hc | hc
    · exact h c hc
    · obtain rfl := List.mem_singleton.1 hc
      rcases List.mem_pair.1 hname with rfl | rfl
      · exact ⟨by simp [IsName], by decide⟩
      · exact ⟨by simp [IsName], by decide⟩
  rw [joinText_text h, FileTree.IsFile, ofText_text hproper [] hslash]

theorem holdsNone_of_fileIn? (h : p.IsProper) (hslash : slash = "" ∨ slash = "/")
    (hnone : fileIn? t p = none) : HoldsNone t (slash ++ p.text) := by
  intro name hname hfile
  rw [isFile_joinText h hslash hname] at hfile
  have hall := List.find?_eq_none.1 hnone (p ++ [name]) (List.mem_map.2 ⟨name, hname, rfl⟩)
  exact hall hfile

theorem offers_of_fileIn? (h : p.IsProper) (hslash : slash = "" ∨ slash = "/") {q : Path}
    (hsome : fileIn? t p = some q) : Offers t (slash ++ p.text) (slash ++ q.text) := by
  have hfirst : t.IsFile (joinText (slash ++ p.text) ".calcjitrc.json") ↔ _ :=
    isFile_joinText h hslash (by decide)
  have hsecond : t.IsFile (joinText (slash ++ p.text) "calcjit.config.json") ↔ _ :=
    isFile_joinText h hslash (by decide)
  simp only [fileIn?, fileNames, List.map_cons, List.map_nil, List.find?_cons, List.find?_nil]
    at hsome
  split at hsome
  · next hfile =>
    obtain rfl := Option.some.inj hsome
    rw [← joinText_text h]
    exact ⟨hfirst.2 hfile, .inl rfl⟩
  · next hnofile =>
    split at hsome
    · next hfile =>
      obtain rfl := Option.some.inj hsome
      rw [← joinText_text h]
      exact ⟨hsecond.2 hfile, .inr ⟨rfl, fun hfile => by simp [hfirst.1 hfile] at hnofile⟩⟩
    · simp at hsome

/-! ## The way up -/

theorem ancestors_concat (p : Path) (c : String) :
    ancestors (p ++ [c]) = (p ++ [c]) :: p.ancestors := by
  have htake : ∀ k ∈ (List.range (p.length + 1)).reverse, (p ++ [c]).take k = p.take k := by
    intro k hk
    rw [List.mem_reverse, List.mem_range] at hk
    exact List.take_append_of_le_length (by omega)
  rw [ancestors, List.length_append, List.length_singleton, List.range_succ, List.reverse_append,
    List.reverse_singleton, List.singleton_append, List.map_cons, List.map_congr_left htake,
    List.take_of_length_le (by simp)]
  rfl

/-- The search ends, with the result that the paths give. -/
theorem climbs_ancestors (h : p.IsProper) (hslash : slash = "" ∨ slash = "/") :
    Climbs t (slash ++ p.text)
      ((p.ancestors.findSome? (fileIn? t)).map fun q => slash ++ q.text) := by
  induction p using List.reverseRecOn with
  | nil =>
    have hroot : parentText (slash ++ text []) = slash ++ text [] :=
      (parentText_eq_self_iff h hslash).2 rfl
    have hancestors : ancestors [] = [[]] := rfl
    cases hfile : fileIn? t [] with
    | none =>
      simp only [hancestors, List.findSome?_cons, hfile]
      exact .top (holdsNone_of_fileIn? h hslash hfile) hroot
    | some q =>
      simp only [hancestors, List.findSome?_cons, hfile]
      exact .found (offers_of_fileIn? h hslash hfile)
  | append_singleton p c ih =>
    have hp : IsProper p := fun d hd => h d (List.mem_append_left _ hd)
    rw [ancestors_concat]
    cases hfile : fileIn? t (p ++ [c]) with
    | none =>
      have habove := ih hp
      have hparent : parentText (slash ++ text (p ++ [c])) = slash ++ text p := by
        rw [parentText_text h hslash, List.dropLast_concat]
      rw [← hparent] at habove
      simp only [List.findSome?_cons, hfile]
      apply Climbs.up (holdsNone_of_fileIn? h hslash hfile) _ habove
      intro hroot
      have hnil := (parentText_eq_self_iff h hslash).1 hroot
      simp at hnil
    | some q =>
      simp only [List.findSome?_cons, hfile]
      exact .found (offers_of_fileIn? h hslash hfile)

theorem Climbs.isNearest (h : Climbs t directory result) : IsNearest t directory result := by
  induction h with
  | found offers => exact ⟨0, offers, by simp⟩
  | top empty root =>
    intro i
    rw [Function.iterate_fixed root]
    exact empty
  | @up directory result empty inner above ih =>
    cases result with
    | none =>
      intro i
      cases i with
      | zero => exact empty
      | succ i => exact ih i
    | some path =>
      obtain ⟨i, hoffers, hbefore⟩ := ih
      refine ⟨i + 1, hoffers, ?_⟩
      intro j hj
      cases j with
      | zero => exact empty
      | succ j => exact hbefore j (by omega)

theorem IsNearest.unique (h : IsNearest t directory result) (h' : IsNearest t directory result') :
    result = result' := by
  cases result with
  | none =>
    cases result' with
    | none => rfl
    | some path =>
      obtain ⟨i, hoffers, -⟩ := h'
      exact absurd (h i) hoffers.not_holdsNone
  | some path =>
    obtain ⟨i, hoffers, hbefore⟩ := h
    cases result' with
    | none => exact absurd (h' i) hoffers.not_holdsNone
    | some path' =>
      obtain ⟨i', hoffers', hbefore'⟩ := h'
      rcases Nat.lt_trichotomy i i' with hlt | rfl | hlt
      · exact absurd (hbefore' i hlt) hoffers.not_holdsNone
      · rw [hoffers.unique hoffers']
      · exact absurd (hbefore i' hlt) hoffers'.not_holdsNone

/-- As many steps up as there are components lead to the root. -/
theorem iterate_parentText_length (h : p.IsProper) (hslash : slash = "" ∨ slash = "/") :
    parentText^[p.length] (slash ++ p.text) = slash ++ "/" := by
  induction p using List.reverseRecOn with
  | nil => rfl
  | append_singleton p c ih =>
    have hp : IsProper p := fun d hd => h d (List.mem_append_left _ hd)
    rw [List.length_append, List.length_singleton, Function.iterate_succ_apply,
      parentText_text h hslash, List.dropLast_concat, ih hp]

/-- The search starts at the normal form of what is written, and it ends. Its result is the settings
    file of the first directory that has one on the way to the root, and there is no result exactly
    if no directory on this way has one. -/
theorem nearestFile?_outcome (t : FileTree) (cwd : Path) (startDir : String)
    (hcwd : cwd.IsProper) :
    ∃ d : Path, (∀ p : Path, p.IsNormalFormOf (writtenFrom cwd startDir) ↔ p = d) ∧
      let start := extraSlash startDir ++ d.text
      parentText^[d.length] start = extraSlash startDir ++ "/" ∧
      (∀ result, Climbs t start result ↔ nearestFile? t cwd startDir = result) ∧
      (∀ path, nearestFile? t cwd startDir = some path ↔
        ∃ i, Offers t (parentText^[i] start) path ∧
          ∀ j < i, HoldsNone t (parentText^[j] start)) ∧
      (nearestFile? t cwd startDir = none ↔ ∀ i, HoldsNone t (parentText^[i] start)) := by
  have hproper := isProper_ofText hcwd startDir
  have hslash := extraSlash_cases startDir
  refine ⟨ofText cwd startDir, fun p => isNormalFormOf_writtenFrom_iff hcwd, ?_⟩
  intro start
  have hclimbs : Climbs t start (nearestFile? t cwd startDir) := climbs_ancestors hproper hslash
  have hnearest {result : Option String} :
      nearestFile? t cwd startDir = result ↔ IsNearest t start result := by
    constructor
    · intro heq
      exact heq ▸ hclimbs.isNearest
    · exact hclimbs.isNearest.unique
  refine ⟨iterate_parentText_length hproper hslash, ?_, fun path => hnearest, hnearest⟩
  intro result
  constructor
  · intro h
    exact hclimbs.isNearest.unique h.isNearest
  · intro heq
    exact heq ▸ hclimbs

/-- A directory with the name of a settings file is passed over, and so is the file further up. -/
theorem nearestFile?_outcome_above :
    let t : FileTree := ⟨[(["a", "calcjit.config.json"], []), ([".calcjitrc.json"], [])],
      [["a", ".calcjitrc.json"]]⟩
    IsProper ["a", "b"] ∧
    nearestFile? t ["a", "b"] "../x//.././b/c" = some "/a/calcjit.config.json" ∧
    ∃ d : Path, (∀ p : Path, p.IsNormalFormOf (writtenFrom ["a", "b"] "../x//.././b/c") ↔ p = d) ∧
      ∃ i, Offers t (parentText^[i] (extraSlash "../x//.././b/c" ++ d.text))
        "/a/calcjit.config.json" := by
  intro t
  have hproper : IsProper ["a", "b"] := by
    intro c hc
    rcases List.mem_pair.1 hc with rfl | rfl
    · exact ⟨by simp [IsName], by decide⟩
    · exact ⟨by simp [IsName], by decide⟩
  have hfile : nearestFile? t ["a", "b"] "../x//.././b/c" = some "/a/calcjit.config.json" := by
    decide +kernel
  obtain ⟨d, hnormal, -, -, hsome, -⟩ := nearestFile?_outcome t ["a", "b"] "../x//.././b/c" hproper
  obtain ⟨i, hoffers, -⟩ := (hsome _).1 hfile
  exact ⟨hproper, hfile, d, hnormal, i, hoffers⟩

end Settings

end ArithJit
