import ArithJit.Settings.FileTree
import Mathlib.Data.List.DropRight
import Mathlib.Data.List.Induction
import Mathlib.Logic.Relation

/-!
# Normal forms of paths

Components can be taken away from a path by their letters alone: empty ones, single points, two
points together with the name before them, and two points at the root. What is left when nothing of
this kind is to be found does not depend on the order, and it is the path that a text names.

A path without such components has a text, and the text names the path. The directory above it has
the text up to the last slash; only at the root this is the same text, so that going up from text to
text ends there.
-/

namespace ArithJit.Path

/-- A component that is not dropped: it is not empty and made of other things than points alone. -/
def IsName (component : String) : Prop :=
  component ≠ "" ∧ component ≠ "." ∧ component ≠ ".."

/-- A path made of names, none of which has a slash in it. -/
def IsProper (p : Path) : Prop := ∀ c ∈ p, IsName c ∧ '/' ∉ c.toList

/-- Takes components away: an empty one, a single point, a name and the two points after it, or two
    points at the root. -/
inductive Shortens : List String → List String → Prop
  | blank (a b : List String) : Shortens (a ++ "" :: b) (a ++ b)
  | point (a b : List String) : Shortens (a ++ "." :: b) (a ++ b)
  | back (a : List String) {name : String} (isName : IsName name) (b : List String) :
      Shortens (a ++ name :: ".." :: b) (a ++ b)
  | top (b : List String) : Shortens (".." :: b) b

/-- What is left of some components when nothing more can be taken away. -/
def IsNormalFormOf (p : Path) (components : List String) : Prop :=
  Relation.ReflTransGen Shortens components p ∧ ∀ c ∈ p, IsName c

/-- The components that a text names from a working directory, as they are written. -/
def writtenFrom (cwd : Path) (s : String) : List String :=
  if isAbsolute s then components s else cwd ++ components s

variable {p : Path} {c s : String} {cs : List Char}

/-! ## Adding components -/

@[simp] theorem push_blank (p : Path) : p.push "" = p := rfl

@[simp] theorem push_point (p : Path) : p.push "." = p := rfl

@[simp] theorem push_back (p : Path) : p.push ".." = p.dropLast := rfl

theorem push_of_isName (h : IsName c) (p : Path) : p.push c = p ++ [c] := by
  obtain ⟨hblank, hpoint, hback⟩ := h
  simp [push, hblank, hpoint, hback]

theorem foldl_push_of_isName {names : List String} (h : ∀ c ∈ names, IsName c) (p : Path) :
    names.foldl push p = p ++ names := by
  induction names generalizing p with
  | nil => simp
  | cons c names ih =>
    have hc : IsName c := h c List.mem_cons_self
    have hrest : ∀ d ∈ names, IsName d := fun d hd => h d (List.mem_cons_of_mem c hd)
    rw [List.foldl_cons, push_of_isName hc, ih hrest, List.append_assoc, List.singleton_append]

/-- Taking components away does not change where they lead. -/
theorem Shortens.foldl_push {a b : List String} (h : Shortens a b) :
    a.foldl push [] = b.foldl push [] := by
  cases h with
  | blank a b => simp [List.foldl_append]
  | point a b => simp [List.foldl_append]
  | back a isName b => simp [List.foldl_append, push_of_isName isName]
  | top b => simp

/-- Adding components one after the other takes away what can be taken away. -/
theorem shortens_foldl_push (components : List String) (h : ∀ c ∈ p, IsName c) :
    IsNormalFormOf (components.foldl push p) (p ++ components) := by
  induction components generalizing p with
  | nil => exact ⟨by simpa using Relation.ReflTransGen.refl, h⟩
  | cons c components ih =>
    rw [List.foldl_cons]
    by_cases hblank : c = ""
    · subst hblank
      obtain ⟨hrest, hnames⟩ := ih h
      exact ⟨.head (.blank p components) hrest, hnames⟩
    by_cases hpoint : c = "."
    · subst hpoint
      obtain ⟨hrest, hnames⟩ := ih h
      exact ⟨.head (.point p components) hrest, hnames⟩
    by_cases hback : c = ".."
    · subst hback
      rcases List.eq_nil_or_concat' p with rfl | ⟨q, name, rfl⟩
      · obtain ⟨hrest, hnames⟩ := ih h
        exact ⟨.head (.top components) hrest, hnames⟩
      · have hq : ∀ c ∈ q, IsName c := fun c hc => h c (List.mem_append_left _ hc)
        have hname : IsName name := h name (by simp)
        obtain ⟨hrest, hnames⟩ := ih hq
        rw [push_back, List.dropLast_concat, List.append_assoc, List.singleton_append]
        exact ⟨.head (.back q hname components) hrest, hnames⟩
    · have hname : IsName c := ⟨hblank, hpoint, hback⟩
      have hadded : ∀ d ∈ p ++ [c], IsName d := by
        intro d hd
        rcases List.mem_append.1 hd with hd | hd
        · exact h d hd
        · rw [List.mem_singleton.1 hd]
          exact hname
      have hnormal := ih hadded
      rwa [List.append_assoc, List.singleton_append, ← push_of_isName hname] at hnormal

/-- There is one normal form, whatever is taken away first. -/
theorem isNormalFormOf_iff {components : List String} :
    p.IsNormalFormOf components ↔ p = components.foldl push [] := by
  constructor
  · intro h
    have hkept : components.foldl push [] = p.foldl push [] := by
      obtain ⟨hshortens, -⟩ := h
      induction hshortens with
      | refl => rfl
      | tail _ hstep ih => exact ih.trans hstep.foldl_push
    rw [hkept, foldl_push_of_isName h.2, List.nil_append]
  · intro h
    subst h
    exact shortens_foldl_push components (by simp)

/-- The path that a text names is the normal form of what is written. -/
theorem isNormalFormOf_writtenFrom_iff {cwd : Path} (h : cwd.IsProper) :
    p.IsNormalFormOf (writtenFrom cwd s) ↔ p = ofText cwd s := by
  rw [isNormalFormOf_iff, writtenFrom, ofText]
  split_ifs with habsolute
  · rfl
  · rw [List.foldl_append, foldl_push_of_isName (fun c hc => (h c hc).1), List.nil_append]

/-! ## Cutting at slashes -/

theorem cut_of_not_mem (h : '/' ∉ cs) : cut cs = [cs] := by
  induction cs with
  | nil => rfl
  | cons c cs ih =>
    rw [List.mem_cons, not_or] at h
    rw [cut, if_neg (Ne.symm h.1), ih h.2]

theorem cut_ne_nil (cs : List Char) : cut cs ≠ [] := by
  induction cs with
  | nil => simp [cut]
  | cons c cs ih =>
    rw [cut]
    split_ifs
    · simp
    · split <;> simp

theorem cut_append_slash (cs ds : List Char) : cut (cs ++ '/' :: ds) = cut cs ++ cut ds := by
  induction cs with
  | nil => simp [cut]
  | cons c cs ih =>
    rw [List.cons_append, cut, cut, ih]
    split_ifs
    · rfl
    · cases hcut : cut cs with
      | nil => exact absurd hcut (cut_ne_nil cs)
      | cons part parts => rfl

theorem slash_not_mem_of_mem_cut {part : List Char} (h : part ∈ cut cs) : '/' ∉ part := by
  induction cs generalizing part with
  | nil =>
    rw [cut, List.mem_singleton] at h
    simp [h]
  | cons c cs ih =>
    rw [cut] at h
    split_ifs at h with hc
    · rcases List.mem_cons.1 h with rfl | h
      · simp
      · exact ih h
    · cases hcut : cut cs with
      | nil => exact absurd hcut (cut_ne_nil cs)
      | cons first parts =>
        rw [hcut] at h ih
        rcases List.mem_cons.1 h with rfl | h
        · simpa [Ne.symm hc] using ih List.mem_cons_self
        · exact ih (List.mem_cons_of_mem first h)

theorem slash_not_mem_of_mem_components (h : c ∈ components s) : '/' ∉ c.toList := by
  obtain ⟨part, hpart, rfl⟩ := List.mem_map.1 h
  rw [String.toList_ofList]
  exact slash_not_mem_of_mem_cut hpart

theorem isProper_push (h : p.IsProper) (hc : '/' ∉ c.toList) : (p.push c).IsProper := by
  unfold push
  split_ifs with hskip hback
  · exact h
  · intro d hd
    exact h d (List.dropLast_subset p hd)
  · intro d hd
    rcases List.mem_append.1 hd with hd | hd
    · exact h d hd
    · obtain rfl := List.mem_singleton.1 hd
      simp only [Bool.or_eq_true, decide_eq_true_eq, not_or] at hskip
      exact ⟨⟨hskip.1, hskip.2, hback⟩, hc⟩

/-- A text names a proper path. -/
theorem isProper_ofText {cwd : Path} (h : cwd.IsProper) (s : String) : (ofText cwd s).IsProper := by
  have hfold : ∀ (names : List String) (p : Path), (∀ c ∈ names, '/' ∉ c.toList) → p.IsProper →
      (names.foldl push p).IsProper := by
    intro names
    induction names with
    | nil => intro p _ hp; exact hp
    | cons c names ih =>
      intro p hnames hp
      apply ih
      · intro d hd
        exact hnames d (List.mem_cons_of_mem c hd)
      · exact isProper_push hp (hnames c List.mem_cons_self)
  apply hfold
  · intro c hc
    exact slash_not_mem_of_mem_components hc
  · split_ifs
    · intro c hc
      simp at hc
    · exact h

/-! ## The text of a path -/

/-- Each component after a slash. -/
def slashed (p : Path) : List Char := p.flatMap fun c => '/' :: c.toList

theorem toList_text_concat (p : Path) (c : String) :
    (p ++ [c] : Path).text.toList = p.slashed ++ '/' :: c.toList := by
  have hslashed : ∀ (p : Path) (c : String),
      '/' :: ['/'].intercalate ((p ++ [c]).map String.toList) = p.slashed ++ '/' :: c.toList := by
    intro p
    induction p with
    | nil =>
      intro c
      simp [slashed]
    | cons d p ih =>
      intro c
      cases p with
      | nil => simp [slashed]
      | cons e p =>
        have hrest := ih c
        simp only [List.cons_append, List.map_cons, slashed, List.flatMap_cons] at hrest ⊢
        rw [List.intercalate_cons_cons, List.append_assoc, List.singleton_append, hrest]
        simp
  rw [text, String.toList_append, String.toList_intercalate]
  exact hslashed p c

theorem toList_text_nil : (text []).toList = ['/'] := by
  simp [text]

theorem cut_append_slashed (hcs : '/' ∉ cs) (h : p.IsProper) :
    cut (cs ++ p.slashed) = cs :: p.map String.toList := by
  induction p generalizing cs with
  | nil => simp [slashed, cut_of_not_mem hcs]
  | cons c p ih =>
    have hc : '/' ∉ c.toList := (h c List.mem_cons_self).2
    have hp : IsProper p := fun d hd => h d (List.mem_cons_of_mem c hd)
    have hsplit : slashed (c :: p) = '/' :: (c.toList ++ slashed p) := by simp [slashed]
    rw [hsplit, cut_append_slash, cut_of_not_mem hcs, ih hc hp]
    rfl

theorem exists_cut_text (h : p.IsProper) :
    ∃ blanks : List (List Char), (∀ b ∈ blanks, b = []) ∧
      cut p.text.toList = blanks ++ p.map String.toList := by
  rcases List.eq_nil_or_concat' p with rfl | ⟨q, c, rfl⟩
  · exact ⟨[[], []], by simp, by simp [toList_text_nil, cut]⟩
  · have hslashed : slashed q ++ '/' :: c.toList = slashed (q ++ [c]) := by simp [slashed]
    refine ⟨[[]], by simp, ?_⟩
    rw [toList_text_concat, hslashed]
    exact cut_append_slashed (List.not_mem_nil : '/' ∉ []) h

theorem foldl_push_blanks {blanks : List (List Char)} (h : ∀ b ∈ blanks, b = []) (p : Path) :
    (blanks.map String.ofList).foldl push p = p := by
  induction blanks with
  | nil => rfl
  | cons b blanks ih =>
    rw [h b List.mem_cons_self]
    exact ih fun d hd => h d (List.mem_cons_of_mem b hd)

/-- The text of a proper path names it, also with a second slash before it. -/
theorem ofText_text (h : p.IsProper) (cwd : Path) {slash : String}
    (hslash : slash = "" ∨ slash = "/") : ofText cwd (slash ++ p.text) = p := by
  have hhead : p.text.toList.head? = some '/' := by simp [text]
  have hnames : (p.map String.toList).map String.ofList = p := by simp
  have hfold : (p : List String).foldl push [] = p := by
    rw [foldl_push_of_isName (fun c hc => (h c hc).1), List.nil_append]
  obtain ⟨blanks, hblanks, hcut⟩ := exists_cut_text h
  rcases hslash with rfl | rfl
  · rw [String.empty_append, ofText, if_pos (by simp [isAbsolute, hhead]), components, hcut,
      List.map_append, List.foldl_append, foldl_push_blanks hblanks, hnames, hfold]
  · have hcons : ("/" ++ p.text).toList = [] ++ '/' :: p.text.toList := by simp
    have hmore : ∀ b ∈ cut [] ++ blanks, b = [] := by simpa [cut] using hblanks
    rw [ofText, if_pos (by simp [isAbsolute]), components, hcons, cut_append_slash, hcut,
      ← List.append_assoc, List.map_append, List.foldl_append,
      foldl_push_blanks hmore, hnames, hfold]

/-! ## Going up -/

/-- The text up to the last slash, without slashes at its end unless it has nothing else. -/
def parentText (s : String) : String :=
  let head := s.toList.rdropWhile (· ≠ '/')
  String.ofList (if head.all (· = '/') then head else head.rdropWhile (· = '/'))

/-- A name after the text of a directory, with one slash between them. -/
def joinText (directory name : String) : String :=
  if directory.toList.getLast? = some '/' then directory ++ name else directory ++ "/" ++ name

theorem rdropWhile_of_not_mem (hcs : '/' ∉ cs) (ds : List Char) :
    (ds ++ '/' :: cs).rdropWhile (· ≠ '/') = ds ++ ['/'] := by
  induction cs using List.reverseRecOn with
  | nil => exact List.rdropWhile_concat_neg _ _ _ (by simp)
  | append_singleton cs c ih =>
    rw [List.mem_append, not_or, List.mem_singleton] at hcs
    rw [← List.cons_append, ← List.append_assoc, List.rdropWhile_concat_pos _ _ _
      (by simpa using Ne.symm hcs.2), ih hcs.1]

theorem exists_last_of_isProper (h : p.IsProper) (hp : p ≠ []) :
    ∃ cs c, p.text.toList = p.slashed ∧ p.slashed = cs ++ [c] ∧ c ≠ '/' := by
  rcases List.eq_nil_or_concat' p with rfl | ⟨q, name, rfl⟩
  · exact absurd rfl hp
  · obtain ⟨hname, hslash⟩ := h name (by simp)
    have hne : name.toList ≠ [] := by
      intro hnil
      exact hname.1 (String.toList_eq_nil_iff.1 hnil)
    refine ⟨slashed q ++ '/' :: name.toList.dropLast, name.toList.getLast hne, ?_, ?_, ?_⟩
    · rw [toList_text_concat]
      simp [slashed]
    · rw [List.append_assoc, List.cons_append, List.dropLast_concat_getLast hne]
      simp [slashed]
    · intro hlast
      exact hslash (hlast ▸ List.getLast_mem hne)

/-- The directory above a path has the text up to the last slash. -/
theorem parentText_text (h : p.IsProper) {slash : String} (hslash : slash = "" ∨ slash = "/") :
    parentText (slash ++ p.text) = slash ++ text p.dropLast := by
  have hall : slash.toList.all (· = '/') = true := by
    rcases hslash with rfl | rfl
    · rfl
    · rfl
  rw [← String.toList_inj, parentText, String.toList_ofList]
  rcases List.eq_nil_or_concat' p with rfl | ⟨q, name, rfl⟩
  · have hhead : (slash ++ text []).toList.rdropWhile (· ≠ '/') = slash.toList ++ ['/'] := by
      rw [String.toList_append, toList_text_nil]
      exact rdropWhile_of_not_mem (List.not_mem_nil : '/' ∉ []) _
    rw [hhead, if_pos (by simpa using hall)]
    simp [toList_text_nil]
  · have hq : IsProper q := fun c hc => h c (List.mem_append_left _ hc)
    have hhead : (slash ++ text (q ++ [name])).toList.rdropWhile (· ≠ '/') =
        slash.toList ++ slashed q ++ ['/'] := by
      rw [String.toList_append, toList_text_concat, ← List.append_assoc]
      exact rdropWhile_of_not_mem (h name (by simp)).2 _
    rw [hhead, List.dropLast_concat]
    by_cases hnil : q = []
    · subst hnil
      simp [slashed, hall, toList_text_nil]
    · obtain ⟨cs, c, htext, hlast, hc⟩ := exists_last_of_isProper hq hnil
      have hother : ¬(slash.toList ++ slashed q ++ ['/']).all (· = '/') = true := by
        simp [hlast, hc]
      rw [if_neg hother, List.rdropWhile_concat_pos _ _ _ (by simp), String.toList_append, htext,
        hlast, ← List.append_assoc, List.rdropWhile_concat_neg _ _ _ (by simpa using hc)]

theorem joinText_text (h : p.IsProper) (slash name : String) :
    joinText (slash ++ p.text) name = slash ++ text (p ++ [name]) := by
  rw [← String.toList_inj, joinText]
  by_cases hnil : p = []
  · subst hnil
    have hlast : (slash ++ text []).toList.getLast? = some '/' := by
      rw [String.toList_append, toList_text_nil, List.getLast?_concat]
    rw [if_pos hlast, String.toList_append, String.toList_append, String.toList_append,
      toList_text_nil, toList_text_concat]
    simp [slashed]
  · obtain ⟨cs, c, htext, hslashed, hc⟩ := exists_last_of_isProper h hnil
    have hlast : (slash ++ p.text).toList.getLast? = some c := by
      rw [String.toList_append, htext, hslashed, ← List.append_assoc, List.getLast?_concat]
    have hother : ¬(slash ++ p.text).toList.getLast? = some '/' := by
      rw [hlast, Option.some.injEq]
      exact hc
    rw [if_neg hother]
    simp [htext, toList_text_concat]

/-- Going up by the text ends at the root and nowhere else. -/
theorem parentText_eq_self_iff (h : p.IsProper) {slash : String}
    (hslash : slash = "" ∨ slash = "/") :
    parentText (slash ++ p.text) = slash ++ p.text ↔ p = [] := by
  rw [parentText_text h hslash]
  constructor
  · intro heq
    have hdrop : IsProper p.dropLast := fun c hc => h c (List.dropLast_subset p hc)
    have hpath := congrArg (ofText []) heq
    rw [ofText_text hdrop [] hslash, ofText_text h [] hslash] at hpath
    have hlength := congrArg List.length hpath
    rw [List.length_dropLast] at hlength
    exact List.length_eq_zero_iff.1 (by omega)
  · intro hnil
    rw [hnil]
    rfl

theorem extraSlash_cases (s : String) : extraSlash s = "" ∨ extraSlash s = "/" := by
  unfold extraSlash
  split
  · exact .inl rfl
  · exact .inr rfl
  · exact .inl rfl

end ArithJit.Path
