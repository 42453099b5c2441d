import ArithJit.Proofs.Ssa.Naming

/-!
# Reading the text of a module

Here the text of a module is read without any knowledge of the module that it was written from. The
body of the function stands between the last label and the closing brace; a line of it is a few
words, and its operands are constants in base sixteen or names. The lines are carried out over the
values of names, and the return must be the last of them.

A line reads back as its instruction with names for registers. As registers have different names,
carrying out the lines is carrying out the instructions, which do what the routine does.
-/

namespace ArithJit.Ssa.Listing

/-- What a line reads: a constant or the name of another line. -/
inductive Atom where
  | const (value : Binary64)
  | named (name : String)
  deriving DecidableEq, Repr

/-- A line of a body. -/
inductive Line where
  | arith (name : String) (op : BinaryOp) (left right : Atom)
  | negate (name : String) (operand : Atom)
  | ret (operand : Atom)
  deriving DecidableEq, Repr

/-- The name that a line defines. -/
def Line.defined? : Line → Option String
  | .arith name _ _ _ | .negate name _ => some name
  | .ret _ => none

/-- What a line reads, from left to right. -/
def Line.operands : Line → List Atom
  | .arith _ _ l r => [l, r]
  | .negate _ x | .ret x => [x]

/-- The names that lines define. -/
def names (lines : List Line) : List String := lines.filterMap Line.defined?

/-! ## Reading -/

/-- The digit of base sixteen that a character is. -/
def hexDigit? (c : Char) : Option Nat := (List.range 16).find? fun d => Nat.digitChar d = c

/-- The number that digits of base sixteen write behind a number. -/
def hexValue? (n : Nat) : List Char → Option Nat
  | [] => some n
  | c :: cs => (hexDigit? c).bind fun d => hexValue? (16 * n + d) cs

/-- A constant: zero, or the bits of a double in base sixteen. -/
def readConst? (s : String) : Option Binary64 :=
  if s = "0.0" then some (.zero false)
  else
    match s.toList with
    | '0' :: 'x' :: d :: ds =>
        (hexValue? 0 (d :: ds)).bind fun n =>
          if n < UInt64.size then some ⟨UInt64.ofNat n⟩ else none
    | _ => none

/-- A name between its quotes. -/
def readName? (s : String) : Option String :=
  match s.toList with
  | '%' :: '"' :: rest =>
      if rest.getLast? = some '"' then some (String.ofList rest.dropLast) else none
  | _ => none

/-- A name or a constant. -/
def Atom.read? (s : String) : Option Atom :=
  match readName? s with
  | some name => some (.named name)
  | none => (readConst? s).map .const

/-- The words of a line, which blanks and commas keep apart. -/
def words (cs : List Char) : List (List Char) :=
  (cs.splitOnP fun c => c = ' ' || c = ',').filter (· ≠ [])

/-- A line of a body. -/
def Line.read? (cs : List Char) : Option Line :=
  match (words cs).map String.ofList with
  | ["ret", "double", x] => do
      let x ← Atom.read? x
      return .ret x
  | [dest, "=", "fneg", "double", x] => do
      let name ← readName? dest
      let x ← Atom.read? x
      return .negate name x
  | [dest, "=", f, "double", l, r] => do
      let name ← readName? dest
      let op ← BinaryOp.all.find? fun op => mnemonic op = f
      let l ← Atom.read? l
      let r ← Atom.read? r
      return .arith name op l r
  | _ => none

/-- The lines of the body in the text of a module. -/
def read? (text : String) : Option (List Line) :=
  match (text.toList.splitOn '\n').reverse with
  | [] :: ['\x7d'] :: above => (above.takeWhile (· ≠ "entry:".toList)).reverse.mapM Line.read?
  | _ => none

/-! ## Carrying out -/

/-- The values of names, the latest first. -/
abbrev Values := List (String × Binary64)

/-- The value of a constant or a name. -/
def Atom.value? (env : Values) : Atom → Option Binary64
  | .const x => some x
  | .named name => env.lookup name

/-- Carries out lines. There is no value if a name is not defined, or if the return is missing or
    not the last line. -/
def run (env : Values) : List Line → Option Binary64
  | .arith name op l r :: rest => do
      let x ← l.value? env
      let y ← r.value? env
      run ((name, op.apply x y) :: env) rest
  | .negate name x :: rest => do
      let x ← x.value? env
      run ((name, x.neg) :: env) rest
  | [.ret x] => x.value? env
  | _ => none

/-! ## Instructions as lines -/

/-- An operand with the name of its register. -/
def Atom.ofOperand : Operand → Atom
  | .const value => .const (value.getD (.zero false))
  | .register r => .named r.name

/-- An instruction with the names of its registers. -/
def Line.ofInstr : Instr → Line
  | .arith dest op l r => .arith dest.name op (.ofOperand l) (.ofOperand r)
  | .negate dest x => .negate dest.name (.ofOperand x)
  | .ret x => .ret (.ofOperand x)

/-! ## Words -/

/-- Whether a character is neither a blank, a comma nor a line feed. -/
def isSolid (c : Char) : Bool := c ≠ ' ' && c ≠ ',' && c ≠ '\n'

/-- Characters that neither blanks, commas nor line feeds interrupt. -/
structure IsWord (cs : List Char) : Prop where
  ne_nil : cs ≠ []
  solid : ∀ c ∈ cs, isSolid c = true

variable {c : Char} {cs w : List Char} {n : Nat}

theorem isWord_of_all (hne : cs ≠ []) (h : cs.all isSolid = true) : IsWord cs :=
  ⟨hne, List.all_eq_true.1 h⟩

theorem IsWord.newline_not_mem (h : IsWord w) : '\n' ∉ w := fun hmem =>
  absurd (h.solid _ hmem) (by decide)

theorem IsWord.isSep_eq_false (h : IsWord w) : ∀ c ∈ w, (c = ' ' || c = ',') = false := by
  intro c hc
  have hsolid := h.solid c hc
  simp only [isSolid, Bool.and_eq_true, decide_eq_true_eq] at hsolid
  simp [hsolid]

theorem words_cons_sep (h : (c = ' ' || c = ',') = true) : words (c :: cs) = words cs := by
  have hsplit := List.splitOnP_append_cons (p := fun c => c = ' ' || c = ',') [] cs h
  rw [List.nil_append, List.splitOnP_nil] at hsplit
  simp [words, hsplit]

theorem words_append (hw : IsWord w) (h : (c = ' ' || c = ',') = true) :
    words (w ++ c :: cs) = w :: words cs := by
  have hsplit := List.splitOnP_append_cons_of_forall_mem hw.isSep_eq_false c h cs
  simp [words, hsplit, hw.ne_nil]

theorem words_self (hw : IsWord w) : words w = [w] := by
  simp [words, List.splitOnP_eq_singleton hw.isSep_eq_false, hw.ne_nil]

theorem words_replicate (k : Nat) : words (List.replicate k ' ' ++ cs) = words cs := by
  induction k with
  | zero => rfl
  | succ k ih => rw [List.replicate_succ, List.cons_append, words_cons_sep rfl, ih]

/-! ## Constants -/

theorem exists_of_mem_toDigits (h : c ∈ Nat.toDigits 16 n) : ∃ d < 16, c = Nat.digitChar d := by
  induction n using Nat.strongRecOn with
  | _ n ih =>
    rw [Nat.toDigits_eq_if (by decide)] at h
    split at h
    · next hn => exact ⟨n, hn, by simpa using h⟩
    · rcases List.mem_append.1 h with h | h
      · exact ih (n / 16) (by omega) h
      · exact ⟨n % 16, Nat.mod_lt n (by decide), by simpa using h⟩

theorem hexDigit?_digitChar {d : Nat} (h : d < 16) : hexDigit? (Nat.digitChar d) = some d := by
  have hall : ∀ d < 16, hexDigit? (Nat.digitChar d) = some d := by decide
  exact hall d h

theorem hexValue?_append (n : Nat) (cs ds : List Char) :
    hexValue? n (cs ++ ds) = (hexValue? n cs).bind fun m => hexValue? m ds := by
  induction cs generalizing n with
  | nil => rfl
  | cons c cs ih =>
    cases hdigit : hexDigit? c with
    | none => simp [hexValue?, hdigit]
    | some d => simp [hexValue?, hdigit, ih]

theorem hexValue?_toDigits (n : Nat) : hexValue? 0 (Nat.toDigits 16 n) = some n := by
  induction n using Nat.strongRecOn with
  | _ n ih =>
    rw [Nat.toDigits_eq_if (by decide)]
    split
    · next hn => simp [hexValue?, hexDigit?_digitChar hn]
    · have hmod : n % 16 < 16 := Nat.mod_lt n (by decide)
      have hvalue : 16 * (n / 16) + n % 16 = n := Nat.div_add_mod n 16
      rw [hexValue?_append, ih (n / 16) (by omega)]
      simp [hexValue?, hexDigit?_digitChar hmod, hvalue]

theorem readConst?_hex (x : Binary64) :
    readConst? (String.ofList ('0' :: 'x' :: Nat.toDigits 16 x.word)) = some x := by
  obtain ⟨d, ds, hdigits⟩ := List.exists_cons_of_ne_nil (Nat.toDigits_ne_nil (n := x.word) (b := 16))
  have hvalue := hexValue?_toDigits x.word
  have hne : String.ofList ('0' :: 'x' :: Nat.toDigits 16 x.word) ≠ "0.0" := by
    intro heq
    simpa using congrArg String.toList heq
  have hsize : x.word < UInt64.size := x.bits.toNat_lt_size
  rw [hdigits] at hvalue hne ⊢
  simp only [readConst?, hne, if_false, String.toList_ofList, hvalue, Option.bind_some, hsize,
    if_true]
  simp [Binary64.word]

/-! ## Operands and lines -/

theorem isSolid_of_isDigit (h : c.isDigit = true) : isSolid c = true := by
  simp only [isSolid, Bool.and_eq_true, decide_eq_true_eq]
  refine ⟨⟨?_, ?_⟩, ?_⟩
  all_goals
    rintro rfl
    exact absurd h (by decide)

theorem isWord_text (r : Register) : IsWord r.text.toList := by
  have hfamily : r.family.name.toList.all isSolid = true := by
    cases r.family <;> decide
  refine ⟨by simp [Register.text], fun c hc => ?_⟩
  simp only [Register.text, String.toList_append, Register.toList_name, List.mem_append,
    List.mem_cons] at hc
  rcases hc with (hc | hc | rfl | hc | hc) | hc
  · exact List.all_eq_true.1 (by decide) c hc
  · exact List.all_eq_true.1 hfamily c hc
  · decide
  · rcases isDigit_or_of_mem_repr hc with hc | rfl
    · exact isSolid_of_isDigit hc
    · decide
  · split at hc
    · simp at hc
    · rcases List.mem_cons.1 hc with rfl | hc
      · decide
      · exact isSolid_of_isDigit (isDigit_of_mem_toDigits hc)
  · exact List.all_eq_true.1 (by decide) c hc

theorem isWord_hex (n : Nat) : IsWord ('0' :: 'x' :: Nat.toDigits 16 n) := by
  have hall : ∀ d < 16, isSolid (Nat.digitChar d) = true := by decide
  refine ⟨by simp, fun c hc => ?_⟩
  simp only [List.mem_cons] at hc
  rcases hc with rfl | rfl | hc
  · decide
  · decide
  · obtain ⟨d, hd, rfl⟩ := exists_of_mem_toDigits hc
    exact hall d hd

theorem readName?_text (r : Register) : readName? r.text = some r.name := by
  simp [readName?, Register.text]

/-- The text of an operand is a word behind blanks, and reads back as the operand. -/
theorem exists_word_of_operand (x : Operand) :
    ∃ k w, x.text.toList = List.replicate k ' ' ++ w ∧ IsWord w ∧
      Atom.read? (String.ofList w) = some (.ofOperand x) := by
  cases x with
  | const value =>
    cases value with
    | none => exact ⟨0, "0.0".toList, rfl, isWord_of_all (by decide) (by decide), rfl⟩
    | some x =>
      refine ⟨_, _, String.toList_ofList, isWord_hex x.word, ?_⟩
      have hname : readName? (String.ofList ('0' :: 'x' :: Nat.toDigits 16 x.word)) = none := by
        simp [readName?]
      have hread : Atom.read? (String.ofList ('0' :: 'x' :: Nat.toDigits 16 x.word)) =
          some (.const x) := by
        simp only [Atom.read?, hname, readConst?_hex, Option.map_some]
      exact hread
  | register r =>
    refine ⟨0, r.text.toList, rfl, isWord_text r, ?_⟩
    rw [String.ofList_toList, Atom.read?, readName?_text]
    rfl

theorem find?_mnemonic (op : BinaryOp) :
    BinaryOp.all.find? (fun op' => mnemonic op' = mnemonic op) = some op := by
  cases op <;> decide

theorem isWord_mnemonic (op : BinaryOp) : IsWord (mnemonic op).toList := by
  cases op <;> exact isWord_of_all (by decide) (by decide)

theorem isWord_double : IsWord "double".toList := isWord_of_all (by decide) (by decide)

theorem isWord_equals : IsWord "=".toList := isWord_of_all (by decide) (by decide)

/-- A line reads back as its instruction. -/
theorem read?_text (i : Instr) : Line.read? i.text.toList = some (.ofInstr i) := by
  cases i with
  | arith dest op l r =>
    obtain ⟨k, v, hl, hv, hlread⟩ := exists_word_of_operand l
    obtain ⟨j, w, hr, hw, hrread⟩ := exists_word_of_operand r
    have htext : (Instr.arith dest op l r).text.toList =
        ' ' :: ' ' :: (dest.text.toList ++ ' ' :: ("=".toList ++ ' ' :: ((mnemonic op).toList ++
          ' ' :: ("double".toList ++ ' ' :: (List.replicate k ' ' ++ (v ++
            ',' :: ' ' :: (List.replicate j ' ' ++ w))))))) := by
      simp [Instr.text, hl, hr]
    have hwords : words (Instr.arith dest op l r).text.toList =
        [dest.text.toList, "=".toList, (mnemonic op).toList, "double".toList, v, w] := by
      rw [htext, words_cons_sep rfl, words_cons_sep rfl, words_append (isWord_text dest) rfl,
        words_append isWord_equals rfl, words_append (isWord_mnemonic op) rfl,
        words_append isWord_double rfl, words_replicate, words_append hv rfl, words_cons_sep rfl,
        words_replicate, words_self hw]
    simp [Line.read?, hwords, readName?_text, find?_mnemonic, hlread, hrread, Line.ofInstr]
  | negate dest x =>
    obtain ⟨k, w, hx, hw, hread⟩ := exists_word_of_operand x
    have htext : (Instr.negate dest x).text.toList =
        ' ' :: ' ' :: (dest.text.toList ++ ' ' :: ("=".toList ++ ' ' :: ("fneg".toList ++
          ' ' :: ("double".toList ++ ' ' :: (List.replicate k ' ' ++ w))))) := by
      simp [Instr.text, hx]
    have hwords : words (Instr.negate dest x).text.toList =
        [dest.text.toList, "=".toList, "fneg".toList, "double".toList, w] := by
      have hfneg : IsWord "fneg".toList := isWord_of_all (by decide) (by decide)
      rw [htext, words_cons_sep rfl, words_cons_sep rfl, words_append (isWord_text dest) rfl,
        words_append isWord_equals rfl, words_append hfneg rfl, words_append isWord_double rfl,
        words_replicate, words_self hw]
    simp [Line.read?, hwords, readName?_text, hread, Line.ofInstr]
  | ret x =>
    obtain ⟨k, w, hx, hw, hread⟩ := exists_word_of_operand x
    have htext : (Instr.ret x).text.toList =
        ' ' :: ' ' :: ("ret".toList ++ ' ' :: ("double".toList ++
          ' ' :: (List.replicate k ' ' ++ w))) := by
      simp [Instr.text, hx]
    have hwords : words (Instr.ret x).text.toList = ["ret".toList, "double".toList, w] := by
      have hret : IsWord "ret".toList := isWord_of_all (by decide) (by decide)
      rw [htext, words_cons_sep rfl, words_cons_sep rfl, words_append hret rfl,
        words_append isWord_double rfl, words_replicate, words_self hw]
    simp [Line.read?, hwords, hread, Line.ofInstr]

theorem newline_not_mem_operand (x : Operand) : '\n' ∉ x.text.toList := by
  obtain ⟨k, w, hx, hw, -⟩ := exists_word_of_operand x
  rw [hx, List.mem_append, List.mem_replicate]
  rintro (⟨-, h⟩ | h)
  · exact absurd h (by decide)
  · exact hw.newline_not_mem h

/-- An instruction takes one line. -/
theorem newline_not_mem_text (i : Instr) : '\n' ∉ i.text.toList := by
  have hdest (r : Register) : '\n' ∉ r.text.toList := (isWord_text r).newline_not_mem
  cases i with
  | arith dest op l r =>
    have hop : '\n' ∉ (mnemonic op).toList := (isWord_mnemonic op).newline_not_mem
    simp [Instr.text, hdest, hop, newline_not_mem_operand]
  | negate dest x => simp [Instr.text, hdest, newline_not_mem_operand]
  | ret x => simp [Instr.text, newline_not_mem_operand]

/-! ## The text of a module -/

theorem splitOn_lines {ls : List (List Char)} (h : ∀ l ∈ ls, '\n' ∉ l) (rest : List Char) :
    (ls.flatMap (· ++ ['\n']) ++ rest).splitOn '\n' = ls ++ rest.splitOn '\n' := by
  induction ls with
  | nil => rfl
  | cons l ls ih =>
    have hl : ∀ c ∈ l, (c == '\n') = false := by
      intro c hc
      simpa using ne_of_mem_of_not_mem hc (h l (by simp))
    have hrest := ih fun l hl => h l (List.mem_cons_of_mem _ hl)
    rw [List.splitOn_eq_splitOnP] at hrest ⊢
    simp only [List.flatMap_cons, List.append_assoc, List.cons_append, List.nil_append]
    rw [List.splitOnP_append_cons_of_forall_mem hl '\n' rfl, hrest]

/-- The lines that end the text of a module, whatever names and target stand before them. -/
theorem exists_text_eq (m : Module) (triple : String) :
    ∃ head, (m.text triple).toList = head ++ '\n' ::
      ("entry:".toList :: (m.body.map (·.text.toList) ++ [['\x7d']])).flatMap (· ++ ['\n']) := by
  refine ⟨(["; ModuleID = \"" ++ m.name ++ "\"", "target triple = \"" ++ triple ++ "\"",
    "target datalayout = \"\"", "", "define double @\"" ++ escapedName m.entry ++ "\"()"].flatMap
      fun l => l.toList ++ ['\n']) ++ ['\x7b'], ?_⟩
  simp [Module.text, Module.lines, String.toList_join, List.flatMap_map]

theorem mapM_read? (is : List Instr) :
    (is.map (·.text.toList)).mapM Line.read? = some (is.map Line.ofInstr) := by
  induction is with
  | nil => rfl
  | cons i is ih => simp [List.mapM_cons, read?_text, ih]

/-- The body read from the text of a module is its body. -/
theorem read?_module (m : Module) (triple : String) :
    read? (m.text triple) = some (m.body.map Line.ofInstr) := by
  obtain ⟨head, htext⟩ := exists_text_eq m triple
  have hlines : ∀ l ∈ "entry:".toList :: (m.body.map (·.text.toList) ++ [['\x7d']]), '\n' ∉ l := by
    intro l hl
    simp only [List.mem_cons, List.mem_append, List.mem_map, List.not_mem_nil, or_false] at hl
    rcases hl with rfl | ⟨i, -, rfl⟩ | rfl
    · decide
    · exact newline_not_mem_text i
    · decide
  have hsplit : ((m.text triple).toList.splitOn '\n').reverse =
      [] :: ['\x7d'] :: ((m.body.map (·.text.toList)).reverse ++
        "entry:".toList :: (head.splitOn '\n').reverse) := by
    have htail := splitOn_lines hlines []
    rw [List.append_nil] at htail
    rw [htext, List.splitOn_eq_splitOnP, List.splitOnP_append_cons _ _ (by rfl),
      ← List.splitOn_eq_splitOnP, ← List.splitOn_eq_splitOnP, htail]
    simp
  have hlabel : ∀ l ∈ (m.body.map (·.text.toList)).reverse, decide (l ≠ "entry:".toList) = true := by
    intro l hl
    obtain ⟨i, -, rfl⟩ := List.mem_map.1 (List.mem_reverse.1 hl)
    cases i <;> simp [Instr.text]
  simp only [read?, hsplit]
  rw [List.takeWhile_append_of_pos hlabel, List.takeWhile_cons_of_neg (by simp), List.append_nil,
    List.reverse_reverse, mapM_read?]

/-! ## Lines do what their instructions do -/

/-- The values of registers under their names. -/
def Values.ofRegisters (regs : Registers) : Values := regs.map fun p => (p.1.name, p.2)

theorem lookup_ofRegisters (regs : Registers) (r : Register) :
    (Values.ofRegisters regs).lookup r.name = regs.lookup r := by
  induction regs with
  | nil => rfl
  | cons p regs ih =>
    obtain ⟨s, v⟩ := p
    simp only [Values.ofRegisters, List.map_cons, List.lookup_cons]
    by_cases h : r = s
    · simp [h]
    · have hname : r.name ≠ s.name := fun heq => h (Register.name_injective heq)
      simp only [beq_false_of_ne h, beq_false_of_ne hname]
      exact ih

theorem value?_ofOperand (regs : Registers) (x : Operand) :
    (Atom.ofOperand x).value? (Values.ofRegisters regs) = x.value? regs := by
  cases x with
  | const value => cases value <;> rfl
  | register r => exact lookup_ofRegisters regs r

/-- Instructions that end with their only return do the same as their lines. -/
theorem run_map_ofInstr {is : List Instr} (h : ∀ i ∈ is, i.dest?.isSome = true) (x : Operand)
    (regs : Registers) :
    run (Values.ofRegisters regs) ((is ++ [Instr.ret x]).map Line.ofInstr) =
      runFrom regs (is ++ [Instr.ret x]) := by
  induction is generalizing regs with
  | nil => exact value?_ofOperand regs x
  | cons i is ih =>
    have hrest := ih fun i hi => h i (List.mem_cons_of_mem _ hi)
    cases i with
    | ret y => simp [Instr.dest?] at h
    | arith dest op l r =>
      simp only [List.cons_append, List.map_cons, Line.ofInstr, run, runFrom, value?_ofOperand]
      cases l.value? regs with
      | none => rfl
      | some a =>
        cases r.value? regs with
        | none => rfl
        | some b => exact hrest ((dest, op.apply a b) :: regs)
    | negate dest y =>
      simp only [List.cons_append, List.map_cons, Line.ofInstr, run, runFrom, value?_ofOperand]
      cases y.value? regs with
      | none => rfl
      | some a => exact hrest ((dest, a.neg) :: regs)

theorem Atom.defined_of_value? {env : Values} {a : Atom} {x : Binary64}
    (h : a.value? env = some x) :
    (∃ y, a = .const y) ∨ ∃ name ∈ env.map Prod.fst, a = .named name := by
  cases a with
  | const y => exact .inl ⟨y, rfl⟩
  | named name =>
    refine .inr ⟨name, ?_, rfl⟩
    obtain ⟨before, after, rfl, -⟩ := List.lookup_eq_some_iff.1 h
    simp

/-- A line that is carried out has values for its operands, and the lines behind it are carried out
    with the value of its name; without a name it is the last. -/
theorem operands_of_run_cons {env : Values} {line : Line} {rest : List Line} {v : Binary64}
    (h : run env (line :: rest) = some v) :
    (∀ a ∈ line.operands, ∃ x, a.value? env = some x) ∧
      (rest = [] ∨ ∃ name x, line.defined? = some name ∧ run ((name, x) :: env) rest = some v) := by
  cases line with
  | arith name op l r =>
    obtain ⟨x, hl, h⟩ := Option.bind_eq_some_iff.1 h
    obtain ⟨y, hr, h⟩ := Option.bind_eq_some_iff.1 h
    exact ⟨by simp [Line.operands, hl, hr], .inr ⟨name, op.apply x y, rfl, h⟩⟩
  | negate name a =>
    obtain ⟨x, ha, h⟩ := Option.bind_eq_some_iff.1 h
    exact ⟨by simp [Line.operands, ha], .inr ⟨name, x.neg, rfl, h⟩⟩
  | ret a =>
    cases rest with
    | nil => exact ⟨by simpa [Line.operands] using ⟨v, h⟩, .inl rfl⟩
    | cons line rest => simp [run] at h

/-- What is carried out reads constants and names that are defined before. -/
theorem defined_of_run {env : Values} {before after : List Line} {line : Line} {v : Binary64}
    (h : run env (before ++ line :: after) = some v) :
    ∀ a ∈ line.operands, (∃ x, a = .const x) ∨
      ∃ name ∈ env.map Prod.fst ++ names before, a = .named name := by
  induction before generalizing env with
  | nil =>
    intro a ha
    obtain ⟨x, hx⟩ := (operands_of_run_cons h).1 a ha
    simpa [names] using a.defined_of_value? hx
  | cons first before ih =>
    rcases (operands_of_run_cons h).2 with hnil | ⟨name, x, hname, hrest⟩
    · simp at hnil
    · intro a ha
      refine (ih hrest a ha).imp_right fun ⟨other, hother, heq⟩ => ⟨other, ?_, heq⟩
      have hnames : names (first :: before) = name :: names before :=
        List.filterMap_cons_some hname
      simp only [List.map_cons, List.cons_append, List.mem_cons, List.mem_append] at hother
      rw [hnames]
      rcases hother with rfl | hother | hother
      all_goals simp [*]

end ArithJit.Ssa.Listing

namespace ArithJit.Routine

open Ssa Ssa.Listing

theorem names_map_ofInstr (is : List Instr) :
    names (is.map Line.ofInstr) = (dests is).map Register.name := by
  rw [names, dests, List.filterMap_map, List.map_filterMap]
  congr 1
  funext i
  cases i <;> rfl

/-- A body written in order has names that are all different. -/
theorem nodup_names {body : List Instr} (h : Counted body) :
    (names (body.reverse.map Line.ofInstr)).Nodup := by
  have hnodup : (dests body.reverse).Nodup := by
    rw [dests, List.filterMap_reverse]
    exact List.pairwise_reverse.2 (h.nodup_dests.imp Ne.symm)
  rw [names_map_ofInstr]
  exact List.pairwise_map.2 (hnodup.imp fun hne heq => hne (Register.name_injective heq))

/-- In a body written in order each line has the first free name for its register. -/
theorem firstUnused_of_split {body : List Instr} {before after : List Line} {line : Line}
    {name : String} (h : Counted body)
    (hlines : body.reverse.map Line.ofInstr = before ++ line :: after)
    (hname : line.defined? = some name) :
    ∃ family id, FirstUnused (names before) (Register.base family id) name := by
  obtain ⟨is, rest, hsplit, rfl, hrest⟩ := List.map_eq_append_iff.1 hlines
  obtain ⟨i, js, rfl, rfl, -⟩ := List.map_eq_cons_iff.1 hrest
  obtain ⟨r, hdest, rfl⟩ : ∃ r, i.dest? = some r ∧ r.name = name := by
    cases i with
    | arith dest | negate dest => exact ⟨dest, rfl, Option.some.inj hname⟩
    | ret => simp [Line.ofInstr, Line.defined?] at hname
  have hbody : body = js.reverse ++ i :: is.reverse := by
    rw [← body.reverse_reverse, hsplit]
    simp
  obtain ⟨copy, hcopy, hfree, hused⟩ := (hbody ▸ h).of_append.firstUnused_name hdest
  refine ⟨r.family, r.id, copy, hcopy, ?_, fun k hk => ?_⟩
  · simpa [names_map_ofInstr, dests] using hfree
  · simpa [names_map_ofInstr, dests] using hused k hk

/-- The module of a routine in which no operation follows a return has a text that can be read. Its
    lines define different names, each the first free one for its register; they read only constants
    and names that are defined before; and they return what the routine does. -/
theorem emit_text_run {r : Routine} {moduleName : String} {m : Module}
    (h : r.emit moduleName = .ok m) (hends : EndsAtReturn r.nodes) (triple : String) :
    ∃ lines v, read? (m.text triple) = some lines ∧ (names lines).Nodup ∧
      (∀ before line after, lines = before ++ line :: after →
        (∀ a ∈ line.operands, (∃ x, a = .const x) ∨ ∃ name ∈ names before, a = .named name) ∧
        ∀ name, line.defined? = some name →
          ∃ family id, FirstUnused (names before) (Register.base family id) name) ∧
      Listing.run [] lines = some v ∧ r.execute = some v := by
  have hmodule := run_eq_execute h
  obtain ⟨σ, hnodes, hterminated, rfl⟩ := exists_nodes_of_emit h
  obtain ⟨is, x, v, hbody, hdests, hexecute⟩ :=
    Agrees.start.exists_return rfl hnodes hterminated hends
  have hcounted : Counted σ.body := Counted.nil.nodes (σ := ⟨[], []⟩) hnodes
  have hinstrs : σ.body.reverse = is ++ [.ret x] := by simp [hbody]
  have hrun : Listing.run [] (σ.body.reverse.map Line.ofInstr) = some v := by
    calc Listing.run [] (σ.body.reverse.map Line.ofInstr)
        = runFrom [] (is ++ [.ret x]) := by rw [hinstrs]; exact run_map_ofInstr hdests x []
      _ = r.execute := by rw [← hinstrs]; exact hmodule
      _ = some v := hexecute
  refine ⟨_, v, read?_module _ triple, nodup_names hcounted, ?_, hrun, hexecute⟩
  intro before line after hlines
  refine ⟨fun a ha => ?_, fun name => firstUnused_of_split hcounted hlines⟩
  rw [hlines] at hrun
  simpa using defined_of_run hrun a ha

/-- One is negated twice under one identifier, which is negative and defined three times. -/
theorem emit_text_run_redefined :
    let r : Routine := ⟨"f", [⟨-3, .const, [], some ⟨0x3ff0000000000000⟩⟩, ⟨-3, .neg, [-3], none⟩,
      ⟨-3, .neg, [-3], none⟩, ⟨0, .ret, [-3], none⟩, ⟨7, .const, [], none⟩]⟩
    ∃ m, r.emit "calcjit" = .ok m ∧ EndsAtReturn r.nodes ∧
      ∃ lines, read? (m.text "") = some lines ∧ names lines = ["neg.-3", "neg.-3.1"] ∧
        Listing.run [] lines = some ⟨0x3ff0000000000000⟩ ∧
        r.execute = some ⟨0x3ff0000000000000⟩ := by
  intro r
  have hends : EndsAtReturn r.nodes := by decide
  have hexecute : r.execute = some ⟨0x3ff0000000000000⟩ := by decide +kernel
  obtain ⟨lines, v, hread, -, -, hrun, hvalue⟩ :=
    emit_text_run (rfl : r.emit "calcjit" = .ok _) hends ""
  obtain rfl := Option.some.inj (hvalue.symm.trans hexecute)
  refine ⟨_, rfl, hends, lines, hread, ?_, hrun, hexecute⟩
  obtain rfl := Option.some.inj (hread.symm.trans (read?_module _ ""))
  decide +kernel

end ArithJit.Routine
