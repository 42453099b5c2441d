import ArithJit.Proofs.Json.Number
import ArithJit.Proofs.Json.Strings

/-!
# JSON values are read back

What is written of a value is read back as that value, at every depth and with every indentation,
in front of any rest that cannot continue a number. The signs and payloads of NaNs are not written,
so all of them come back as one NaN. The values meant are those that can be written at all: the keys
of an object are distinct, strings hold no surrogate, and integers are not too long.

The bound on what is left to read never runs out, because each value has at least one character of
its own beside those of its parts.
-/

namespace ArithJit

/-- A double with all NaNs made one. -/
def Binary64.quiet (x : Binary64) : Binary64 := if x.isNaN then .nan false else x

theorem Binary64.quiet_of_magnitude_ne {x : Binary64} (h : x.magnitude ≠ .nan) : x.quiet = x :=
  if_neg (by simp [isNaN, h])

namespace Json

mutual

/-- A value with all NaNs in it made one. -/
def quiet : Json → Json
  | .null => .null
  | .bool b => .bool b
  | .int n => .int n
  | .float x => .float x.quiet
  | .str s => .str s
  | .arr vs => .arr (quietItems vs)
  | .obj ms => .obj (quietMembers ms)

/-- Items with all NaNs in them made one. -/
def quietItems : List Json → List Json
  | [] => []
  | v :: vs => v.quiet :: quietItems vs

/-- Members with all NaNs in them made one. -/
def quietMembers : Members → Members
  | [] => []
  | (k, v) :: ms => (k, v.quiet) :: quietMembers ms

end

/-- The values that can be written and read back. -/
inductive IsWritable : Json → Prop
  | null : IsWritable .null
  | bool (b : Bool) : IsWritable (.bool b)
  | int {n : Int} (short : IsShort n) : IsWritable (.int n)
  | float (x : Binary64) : IsWritable (.float x)
  | str (s : String) : IsWritable (.str s)
  | arr {vs : List Json} (items : ∀ v ∈ vs, IsWritable v) : IsWritable (.arr vs)
  | obj {ms : Members} (distinct : (ms.map Prod.fst).Nodup)
      (keys : ∀ m ∈ ms, ∃ s : String, m.1 = .ofString s) (values : ∀ m ∈ ms, IsWritable m.2) :
      IsWritable (.obj ms)

/-- The reader answers a value and leaves a rest. -/
def Takes (r : Except ReadError (Json × Input)) (v : Json) (rest : List Char) : Prop :=
  ∃ position, r = .ok (v, ⟨position, rest⟩)

variable {c : Char} {gap rest cs : List Char} {indent : Option Nat} {depth : Nat} {v : Json}

/-! ## Blanks -/

theorem isSpace_of_mem_lineStart (h : c ∈ lineStart indent depth) : isSpace c = true := by
  cases indent with
  | none => exact absurd h List.not_mem_nil
  | some width =>
    rcases List.mem_cons.1 h with rfl | h
    · decide
    · rw [(List.mem_replicate.1 h).2]
      decide

theorem exists_separator_eq (indent : Option Nat) (depth : Nat) :
    ∃ gap, separator indent depth = ',' :: gap ∧ ∀ c ∈ gap, isSpace c = true := by
  cases indent with
  | none => exact ⟨[' '], rfl, List.forall_mem_singleton.2 rfl⟩
  | some width => exact ⟨_, rfl, fun c hc => isSpace_of_mem_lineStart hc⟩

theorem Input.skipSpaces_append (position : Nat) (hgap : ∀ c ∈ gap, isSpace c = true)
    (hc : isSpace c = false) :
    Input.skipSpaces ⟨position, gap ++ c :: rest⟩ = ⟨position + gap.length, c :: rest⟩ := by
  have hhead : ∀ d ∈ (c :: rest).head?, isSpace d = false := by
    intro d hd
    rwa [← Option.mem_some_iff.1 hd]
  rw [Input.skipSpaces, (takeWhile_of_boundary hgap hhead).1, Input.advance_append]

theorem Input.skipSpaces_cons (position : Nat) (hc : isSpace c = false) :
    Input.skipSpaces ⟨position, c :: rest⟩ = ⟨position, c :: rest⟩ :=
  skipSpaces_append position (List.forall_mem_nil _) hc

theorem endsNumber_cons (hc : c ∈ [' ', '\t', '\n', '\r', ',', ']', '}']) :
    EndsNumber (c :: rest) := by
  intro d hd
  obtain rfl := Option.mem_some_iff.1 hd
  simp only [List.mem_cons, List.not_mem_nil, or_false] at hc
  rcases hc with rfl | rfl | rfl | rfl | rfl | rfl | rfl
  all_goals decide

theorem endsNumber_append (hgap : ∀ c ∈ gap, isSpace c = true) (hrest : EndsNumber rest) :
    EndsNumber (gap ++ rest) := by
  cases gap with
  | nil => exact hrest
  | cons c gap =>
    have hc := hgap c List.mem_cons_self
    simp only [isSpace, Bool.or_eq_true, decide_eq_true_eq] at hc
    apply endsNumber_cons
    rcases hc with ((rfl | rfl) | rfl) | rfl
    all_goals decide

/-! ## Words and numbers -/

/-- The characters that begin a word or a number. -/
def startsScalar (c : Char) : Bool := c.isDigit || c ∈ ['-', 'n', 't', 'f', 'N', 'I']

/-- The characters that begin a value. -/
def startsValue (c : Char) : Bool := startsScalar c || c ∈ ['"', '[', '{']

/-- What is written of the value begins as a value does, and is read back as the value. -/
structure ReadsBack (v : Json) : Prop where
  head (indent : Option Nat) (depth : Nat) :
    ∃ c cs, write indent depth v = c :: cs ∧ startsValue c = true
  takes (indent : Option Nat) (depth bound position : Nat) (rest : List Char)
    (hbound : (write indent depth v).length ≤ bound) (hrest : EndsNumber rest) :
    Takes (readValue bound ⟨position, write indent depth v ++ rest⟩) v.quiet rest

theorem isSpace_of_startsValue (h : startsValue c = true) : isSpace c = false := by
  rw [← Bool.not_eq_true]
  intro hspace
  simp only [isSpace, Bool.or_eq_true, decide_eq_true_eq] at hspace
  rcases hspace with ((rfl | rfl) | rfl) | rfl
  all_goals exact absurd h (by decide)

/-- The text begins as a word or a number does, and is read as a given value. -/
structure IsScalarText (cs : List Char) (v : Json) : Prop where
  head : ∃ c ds, cs = c :: ds ∧ startsScalar c = true
  takes (position : Nat) (rest : List Char) (hrest : EndsNumber rest) :
    Takes (readScalar ⟨position, cs ++ rest⟩) v rest

/-- A word is found as itself. -/
theorem isScalarText_word {w : String} (hw : (w, v) ∈ words) : IsScalarText w.toList v := by
  simp only [words, List.mem_cons, Prod.mk.injEq, List.not_mem_nil, or_false] at hw
  rcases hw with ⟨rfl, rfl⟩ | ⟨rfl, rfl⟩ | ⟨rfl, rfl⟩ | ⟨rfl, rfl⟩ | ⟨rfl, rfl⟩ | ⟨rfl, rfl⟩
  all_goals exact ⟨⟨_, _, rfl, by decide⟩, fun _ _ _ => ⟨_, rfl⟩⟩

/-- No word begins like a number. -/
theorem readScalar_number (n : Number) (negative : Bool) (position : Nat) (rest : List Char) :
    readScalar ⟨position, signText negative ++ n.text ++ rest⟩ =
      readNumber ⟨position, signText negative ++ n.text ++ rest⟩ := by
  obtain ⟨c, cs, hdigit, hcs⟩ := n.exists_text_eq_cons
  have hne {d : Char} (hd : d.isDigit = false) : (d == c) = false := by
    rw [beq_eq_false_iff_ne]
    rintro rfl
    simp [hdigit] at hd
  have hnone : (words.find? fun w =>
      w.1.toList.isPrefixOf (signText negative ++ n.text ++ rest)) = none := by
    have hn := hne (d := 'n') rfl
    have ht := hne (d := 't') rfl
    have hf := hne (d := 'f') rfl
    have hN := hne (d := 'N') rfl
    have hI := hne (d := 'I') rfl
    have hminus := hne (d := '-') rfl
    cases negative <;>
      simp [words, signText, hcs, List.isPrefixOf_cons_cons, hn, ht, hf, hN, hI, hminus]
  rw [readScalar, hnone]

theorem isScalarText_number (h : IsNumberText cs v) : IsScalarText cs v := by
  obtain ⟨negative, n, rfl, rfl, hlength⟩ := h
  refine ⟨?_, fun position rest hrest => ?_⟩
  · obtain ⟨c, ds, hdigit, hcs⟩ := n.exists_text_eq_cons
    cases negative with
    | false => exact ⟨c, ds, hcs, by simp [startsScalar, hdigit]⟩
    | true => exact ⟨'-', n.text, rfl, by decide⟩
  · rw [readScalar_number]
    exact ⟨_, n.readNumber_text negative position hrest hlength⟩

theorem isScalarText_double (x : Binary64) : IsScalarText (x.text .json) (.float x.quiet) := by
  cases h : x.magnitude with
  | nan =>
    have hquiet : x.quiet = .nan false := if_pos (decide_eq_true h)
    have htext : x.text .json = "NaN".toList := by
      rw [Binary64.text, h]
      rfl
    rw [hquiet, htext]
    exact isScalarText_word (by decide)
  | infinite =>
    have hquiet : x.quiet = .infinity x.isNegative :=
      (Binary64.quiet_of_magnitude_ne (by simp [h])).trans (Binary64.eq_infinity_of_magnitude h)
    have htext : x.text .json = (if x.isNegative then "-Infinity" else "Infinity").toList := by
      rw [Binary64.text, h]
      cases x.isNegative <;> rfl
    rw [hquiet, htext]
    cases x.isNegative <;> exact isScalarText_word (by decide)
  | finite m s =>
    rw [Binary64.quiet_of_magnitude_ne (by simp [h])]
    exact isScalarText_number (isNumberText_of_finite h)

/-- Words and numbers go to the reader of scalars. -/
theorem readsBack_of_isScalarText (htext : ∀ indent depth, write indent depth v = cs)
    (h : IsScalarText cs v.quiet) : ReadsBack v := by
  obtain ⟨c, ds, rfl, hc⟩ := h.head
  refine ⟨fun indent depth => ⟨c, ds, htext indent depth, by simp [startsValue, hc]⟩, ?_⟩
  intro indent depth bound position rest hbound hrest
  obtain ⟨bound, rfl⟩ : ∃ b, bound = b + 1 := by
    rw [htext, List.length_cons] at hbound
    exact ⟨bound - 1, by omega⟩
  have hscalar : readValue (bound + 1) ⟨position, c :: ds ++ rest⟩ =
      readScalar ⟨position, c :: ds ++ rest⟩ := by
    have hne {d : Char} (hd : startsScalar d = false) : c ≠ d := by
      rintro rfl
      simp [hc] at hd
    simp [readValue, hne (d := '"') rfl, hne (d := '[') rfl, hne (d := '{') rfl]
  rw [htext, hscalar]
  exact h.takes position rest hrest

/-! ## Strings -/

theorem readValue_quote (bound position : Nat) (rest : List Char) :
    readValue (bound + 1) ⟨position, '"' :: rest⟩ = (do
      let (s, i) ← readString position (position + 1) [] rest
      return (.str s, i)) := by
  rw [readValue]
  rfl

theorem Input.skipSpaces_writeString (position : Nat) (hgap : ∀ c ∈ gap, isSpace c = true)
    (s : String) :
    Input.skipSpaces ⟨position, gap ++ (writeString s ++ rest)⟩ =
      ⟨position + gap.length, writeString s ++ rest⟩ := by
  rw [writeString_ofString]
  exact Input.skipSpaces_append position hgap (by decide)

theorem readsBack_str (s : String) : ReadsBack (.str s) := by
  have hwrite (indent : Option Nat) (depth : Nat) :
      write indent depth (.str s) = writeString s := by
    rw [write]
  constructor
  · intro indent depth
    exact ⟨'"', _, (hwrite indent depth).trans (writeString_ofString s), rfl⟩
  · intro indent depth bound position rest hbound _
    obtain ⟨body, hbody, hread⟩ := readString_writeString s rest position (position + 1)
    rw [hwrite, hbody, List.length_cons] at hbound
    obtain ⟨bound, rfl⟩ : ∃ b, bound = b + 1 := ⟨bound - 1, by omega⟩
    rw [hwrite, hbody, List.cons_append, readValue_quote, hread]
    exact ⟨_, rfl⟩

/-! ## Arrays -/

theorem quietItems_eq_map (vs : List Json) : quietItems vs = vs.map quiet := by
  induction vs with
  | nil => rfl
  | cons v vs ih => rw [quietItems, ih, List.map_cons]

theorem ReadsBack.skipSpaces_write (h : ReadsBack v) (indent : Option Nat) (depth position : Nat)
    (hgap : ∀ c ∈ gap, isSpace c = true) :
    Input.skipSpaces ⟨position, gap ++ (write indent depth v ++ rest)⟩ =
      ⟨position + gap.length, write indent depth v ++ rest⟩ := by
  obtain ⟨c, cs, hwrite, hc⟩ := h.head indent depth
  rw [hwrite]
  exact Input.skipSpaces_append position hgap (isSpace_of_startsValue hc)

theorem ReadsBack.head?_write_ne (h : ReadsBack v) (indent : Option Nat) (depth : Nat)
    (hc : startsValue c = false) : (write indent depth v ++ rest).head? ≠ some c := by
  obtain ⟨d, cs, hwrite, hd⟩ := h.head indent depth
  rw [hwrite, List.cons_append, List.head?_cons, ne_eq, Option.some_inj]
  rintro rfl
  simp [hd] at hc

theorem endsNumber_writeItems (vs : List Json) (hrest : EndsNumber rest) :
    EndsNumber (writeItems indent depth vs ++ rest) := by
  cases vs with
  | nil => exact hrest
  | cons v vs =>
    obtain ⟨gap, hgap, -⟩ := exists_separator_eq indent depth
    rw [writeItems, hgap]
    exact endsNumber_cons (by decide)

theorem readItems_close (hgap : ∀ c ∈ gap, isSpace c = true) (bound : Nat) (acc : List Json)
    (position : Nat) :
    Takes (readItems (bound + 1) acc ⟨position, gap ++ ']' :: rest⟩) (.arr acc.reverse) rest := by
  rw [readItems, Input.skipSpaces_append position hgap (by decide)]
  exact ⟨_, rfl⟩

theorem readItems_comma (bound : Nat) (acc : List Json) (position : Nat) :
    readItems (bound + 1) acc ⟨position, ',' :: rest⟩ = (do
      let (v, i) ← readValue bound (Input.skipSpaces ⟨position + 1, rest⟩)
      readItems bound (v :: acc) i) := by
  rw [readItems, Input.skipSpaces_cons position (by decide)]
  rfl

/-- The reader takes the items of an array after those that it has. -/
theorem takes_readItems {vs : List Json} (hvs : ∀ v ∈ vs, ReadsBack v)
    (hgap : ∀ c ∈ gap, isSpace c = true) (acc : List Json) (bound position : Nat)
    (hbound : (writeItems indent depth vs).length < bound) :
    Takes (readItems bound acc ⟨position, writeItems indent depth vs ++ (gap ++ ']' :: rest)⟩)
      (.arr (acc.reverse ++ quietItems vs)) rest := by
  induction vs generalizing acc bound position with
  | nil =>
    obtain ⟨bound, rfl⟩ : ∃ b, bound = b + 1 := ⟨bound - 1, by omega⟩
    rw [writeItems, List.nil_append, quietItems, List.append_nil]
    exact readItems_close hgap bound acc position
  | cons v vs ih =>
    obtain ⟨bound, rfl⟩ : ∃ b, bound = b + 1 := ⟨bound - 1, by omega⟩
    obtain ⟨blanks, hseparator, hblanks⟩ := exists_separator_eq indent depth
    have hv := hvs v List.mem_cons_self
    rw [writeItems, hseparator] at hbound
    simp only [List.cons_append, List.length_cons, List.length_append] at hbound
    have hends : EndsNumber (writeItems indent depth vs ++ (gap ++ ']' :: rest)) :=
      endsNumber_writeItems vs (endsNumber_append hgap (endsNumber_cons (by decide)))
    obtain ⟨next, htake⟩ := hv.takes indent depth bound (position + 1 + blanks.length) _
      (by omega) hends
    -- The comma pays for this step, so what is left of the bound is enough for the other items.
    have hrest := ih (fun w hw => hvs w (List.mem_cons_of_mem v hw)) (v.quiet :: acc) bound next
      (by omega)
    have htext : writeItems indent depth (v :: vs) ++ (gap ++ ']' :: rest) =
        ',' :: (blanks ++ (write indent depth v ++
          (writeItems indent depth vs ++ (gap ++ ']' :: rest)))) := by
      simp [writeItems, hseparator]
    rw [htext, readItems_comma, hv.skipSpaces_write indent depth _ hblanks, htake]
    rw [List.reverse_cons, List.append_assoc, List.singleton_append] at hrest
    exact hrest

theorem readValue_bracket (bound position : Nat) (rest : List Char) :
    readValue (bound + 1) ⟨position, '[' :: rest⟩ =
      (let i := Input.skipSpaces ⟨position + 1, rest⟩
      if i.rest.head? = some ']' then .ok (.arr [], i.advance 1)
      else do
        let (v, i) ← readValue bound i
        readItems bound [v] i) := by
  rw [readValue]
  rfl

theorem readsBack_arr {vs : List Json} (hvs : ∀ v ∈ vs, ReadsBack v) : ReadsBack (.arr vs) := by
  cases vs with
  | nil =>
    refine ⟨fun indent depth => ⟨'[', [']'], by rw [write], rfl⟩, ?_⟩
    intro indent depth bound position rest hbound _
    rw [write, List.length_cons] at hbound
    obtain ⟨bound, rfl⟩ : ∃ b, bound = b + 1 := ⟨bound - 1, by omega⟩
    rw [write, List.cons_append, readValue_bracket]
    exact ⟨_, rfl⟩
  | cons v vs =>
    refine ⟨fun indent depth => ⟨'[', _, by rw [write]; rfl, rfl⟩, ?_⟩
    intro indent depth bound position rest hbound _
    have hv := hvs v List.mem_cons_self
    have hstart : ∀ c ∈ lineStart indent (depth + 1), isSpace c = true :=
      fun c hc => isSpace_of_mem_lineStart hc
    have hgap : ∀ c ∈ lineStart indent depth, isSpace c = true :=
      fun c hc => isSpace_of_mem_lineStart hc
    rw [write] at hbound
    simp only [List.cons_append, List.length_cons, List.length_append, List.length_nil] at hbound
    obtain ⟨bound, rfl⟩ : ∃ b, bound = b + 1 := ⟨bound - 1, by omega⟩
    have htext : write indent depth (.arr (v :: vs)) ++ rest =
        '[' :: (lineStart indent (depth + 1) ++ (write indent (depth + 1) v ++
          (writeItems indent (depth + 1) vs ++ (lineStart indent depth ++ ']' :: rest)))) := by
      simp [write]
    have hends : EndsNumber (writeItems indent (depth + 1) vs ++
        (lineStart indent depth ++ ']' :: rest)) :=
      endsNumber_writeItems vs (endsNumber_append hgap (endsNumber_cons (by decide)))
    obtain ⟨next, htake⟩ := hv.takes indent (depth + 1) bound
      (position + 1 + (lineStart indent (depth + 1)).length) _ (by omega) hends
    rw [htext, readValue_bracket, hv.skipSpaces_write indent (depth + 1) _ hstart]
    simp only [hv.head?_write_ne indent (depth + 1) (c := ']') (by decide), if_false, htake]
    exact takes_readItems (fun w hw => hvs w (List.mem_cons_of_mem v hw)) hgap [v.quiet] bound next
      (by omega)

/-! ## Objects -/

theorem setMember_of_not_mem {key : UnicodeString} {members : Members}
    (h : key ∉ members.map Prod.fst) : setMember key v members = members ++ [(key, v)] := by
  induction members with
  | nil => rfl
  | cons m members ih =>
    obtain ⟨k, w⟩ := m
    rw [List.map_cons, List.mem_cons, not_or] at h
    rw [setMember, if_neg (Ne.symm h.1), ih h.2, List.cons_append]

/-- The reader takes a key and its value, and then looks at what follows them. -/
theorem readMembers_member (k : String) (hv : ReadsBack v) (acc : Members) (bound position : Nat)
    (hbound : (write indent depth v).length ≤ bound) (hrest : EndsNumber rest) :
    ∃ next, readMembers (bound + 1) acc
        ⟨position, writeString k ++ ':' :: ' ' :: (write indent depth v ++ rest)⟩ =
      (let i := Input.skipSpaces ⟨next, rest⟩
      let acc := setMember k v.quiet acc
      if i.rest.head? = some '}' then .ok (.obj acc, i.advance 1)
      else if i.rest.head? = some ',' then readMembers bound acc (i.advance 1).skipSpaces
      else i.fault .comma) := by
  obtain ⟨body, hbody, hread⟩ := readString_writeString k
    (':' :: ' ' :: (write indent depth v ++ rest)) position (position + 1)
  have hcolon (position : Nat) (rest : List Char) :
      Input.skipSpaces ⟨position, ':' :: rest⟩ = ⟨position, ':' :: rest⟩ :=
    Input.skipSpaces_cons position (by decide)
  have hblank (position : Nat) :
      Input.skipSpaces ⟨position, ' ' :: (write indent depth v ++ rest)⟩ =
        ⟨position + 1, write indent depth v ++ rest⟩ :=
    hv.skipSpaces_write indent depth position (List.forall_mem_singleton.2 rfl)
  obtain ⟨next, htake⟩ := hv.takes indent depth bound (position + 1 + body.length + 1 + 1) rest
    hbound hrest
  refine ⟨next, ?_⟩
  rw [hbody, List.cons_append, readMembers]
  simp only [hread, bind, Except.bind, hcolon, List.head?_cons, if_true, Input.advance,
    List.drop_one, List.tail_cons, hblank, htake]
  rfl

theorem takes_lastMember {k : String} {acc : Members} {bound : Nat} (hv : ReadsBack v)
    (hgap : ∀ c ∈ gap, isSpace c = true) (hfresh : .ofString k ∉ acc.map Prod.fst)
    (position : Nat) (hbound : (write indent depth v).length ≤ bound) :
    Takes (readMembers (bound + 1) acc ⟨position, writeString k ++ ':' :: ' ' ::
        (write indent depth v ++ (gap ++ '}' :: rest))⟩)
      (.obj (acc ++ [(.ofString k, v.quiet)])) rest := by
  have hends : EndsNumber (gap ++ '}' :: rest) :=
    endsNumber_append hgap (endsNumber_cons (by decide))
  obtain ⟨next, hmember⟩ := readMembers_member k hv acc bound position hbound hends
  rw [hmember, setMember_of_not_mem hfresh, Input.skipSpaces_append next hgap (by decide)]
  exact ⟨_, rfl⟩

theorem readMembers_comma {k : String} {acc : Members} {bound : Nat} (hv : ReadsBack v)
    (hfresh : .ofString k ∉ acc.map Prod.fst) (position : Nat)
    (hbound : (write indent depth v).length ≤ bound) :
    ∃ next, readMembers (bound + 1) acc
        ⟨position, writeString k ++ ':' :: ' ' :: (write indent depth v ++ ',' :: rest)⟩ =
      readMembers bound (acc ++ [(.ofString k, v.quiet)]) (Input.skipSpaces ⟨next, rest⟩) := by
  have hends : EndsNumber (',' :: rest) := endsNumber_cons (by decide)
  obtain ⟨next, hmember⟩ := readMembers_member k hv acc bound position hbound hends
  refine ⟨next + 1, ?_⟩
  rw [hmember, setMember_of_not_mem hfresh, Input.skipSpaces_cons next (by decide)]
  rfl

theorem not_mem_of_distinct {key : UnicodeString} {acc : Members} {keys : List UnicodeString}
    (h : (acc.map Prod.fst ++ key :: keys).Nodup) : key ∉ acc.map Prod.fst := by
  intro hmem
  exact (List.nodup_append.1 h).2.2 key hmem key List.mem_cons_self rfl

/-- The reader takes the members of an object after those that it has. -/
theorem takes_readMembers {k : String} {ms : Members}
    (keys : ∀ m ∈ ms, ∃ s : String, m.1 = .ofString s) (hv : ReadsBack v)
    (values : ∀ m ∈ ms, ReadsBack m.2) (hgap : ∀ c ∈ gap, isSpace c = true) (acc : Members)
    (bound position : Nat) (distinct : (acc.map Prod.fst ++ .ofString k :: ms.map Prod.fst).Nodup)
    (hbound : (write indent depth v).length + (writeMembers indent depth ms).length < bound) :
    Takes (readMembers bound acc ⟨position, writeString k ++ ':' :: ' ' ::
        (write indent depth v ++ (writeMembers indent depth ms ++ (gap ++ '}' :: rest)))⟩)
      (.obj (acc ++ (.ofString k, v.quiet) :: quietMembers ms)) rest := by
  -- The first member is apart from the others, since a separator stands before each of these.
  induction ms generalizing k v acc bound position with
  | nil =>
    obtain ⟨bound, rfl⟩ : ∃ b, bound = b + 1 := ⟨bound - 1, by omega⟩
    exact takes_lastMember hv hgap (not_mem_of_distinct distinct) position (by omega)
  | cons m ms ih =>
    obtain ⟨bound, rfl⟩ : ∃ b, bound = b + 1 := ⟨bound - 1, by omega⟩
    obtain ⟨key, w⟩ := m
    obtain ⟨l, rfl⟩ := keys (key, w) List.mem_cons_self
    obtain ⟨blanks, hseparator, hblanks⟩ := exists_separator_eq indent depth
    have htext : writeMembers indent depth ((.ofString l, w) :: ms) ++ (gap ++ '}' :: rest) =
        ',' :: (blanks ++ (writeString l ++ ':' :: ' ' :: (write indent depth w ++
          (writeMembers indent depth ms ++ (gap ++ '}' :: rest))))) := by
      simp [writeMembers, hseparator]
    rw [writeMembers, hseparator] at hbound
    simp only [List.cons_append, List.length_cons, List.length_append] at hbound
    have hlength : (write indent depth v).length ≤ bound := by omega
    obtain ⟨next, hcomma⟩ := readMembers_comma hv (not_mem_of_distinct distinct) position hlength
    rw [htext, hcomma, Input.skipSpaces_writeString next hblanks]
    have hw : ReadsBack w := values (.ofString l, w) List.mem_cons_self
    have hrest := ih (fun m hm => keys m (List.mem_cons_of_mem _ hm)) hw
      (fun m hm => values m (List.mem_cons_of_mem _ hm)) (acc ++ [(.ofString k, v.quiet)]) bound
      (next + blanks.length) (by simpa using distinct) (by omega)
    rw [List.append_assoc, List.singleton_append] at hrest
    exact hrest

theorem readValue_brace (bound position : Nat) (rest : List Char) :
    readValue (bound + 1) ⟨position, '{' :: rest⟩ =
      (let i := Input.skipSpaces ⟨position + 1, rest⟩
      if i.rest.head? = some '}' then .ok (.obj [], i.advance 1)
      else readMembers bound [] i) := by
  rw [readValue]
  rfl

theorem readsBack_obj {ms : Members} (distinct : (ms.map Prod.fst).Nodup)
    (keys : ∀ m ∈ ms, ∃ s : String, m.1 = .ofString s) (values : ∀ m ∈ ms, ReadsBack m.2) :
    ReadsBack (.obj ms) := by
  cases ms with
  | nil =>
    refine ⟨fun indent depth => ⟨'{', ['}'], by rw [write], rfl⟩, ?_⟩
    intro indent depth bound position rest hbound _
    rw [write, List.length_cons] at hbound
    obtain ⟨bound, rfl⟩ : ∃ b, bound = b + 1 := ⟨bound - 1, by omega⟩
    rw [write, List.cons_append, readValue_brace]
    exact ⟨_, rfl⟩
  | cons m ms =>
    obtain ⟨key, v⟩ := m
    obtain ⟨k, rfl⟩ := keys (key, v) List.mem_cons_self
    have hv : ReadsBack v := values (.ofString k, v) List.mem_cons_self
    refine ⟨fun indent depth => ⟨'{', _, by rw [write]; rfl, rfl⟩, ?_⟩
    intro indent depth bound position rest hbound _
    rw [write] at hbound
    simp only [List.cons_append, List.length_cons, List.length_append, List.length_nil] at hbound
    obtain ⟨bound, rfl⟩ : ∃ b, bound = b + 1 := ⟨bound - 1, by omega⟩
    have htext : write indent depth (.obj ((.ofString k, v) :: ms)) ++ rest =
        '{' :: (lineStart indent (depth + 1) ++ (writeString k ++ ':' :: ' ' ::
          (write indent (depth + 1) v ++ (writeMembers indent (depth + 1) ms ++
            (lineStart indent depth ++ '}' :: rest))))) := by
      simp [write]
    have hstart : ∀ c ∈ lineStart indent (depth + 1), isSpace c = true :=
      fun c hc => isSpace_of_mem_lineStart hc
    have hopen (more : List Char) : (writeString k ++ more).head? ≠ some '}' := by
      rw [writeString_ofString]
      simp
    rw [htext, readValue_brace, Input.skipSpaces_writeString _ hstart]
    simp only [hopen, if_false]
    exact takes_readMembers (fun m hm => keys m (List.mem_cons_of_mem _ hm)) hv
      (fun m hm => values m (List.mem_cons_of_mem _ hm))
      (fun c hc => isSpace_of_mem_lineStart hc) [] bound _ distinct (by omega)

/-! ## Whole texts -/

/-- Every value that can be written is read back. -/
theorem IsWritable.readsBack (h : IsWritable v) : ReadsBack v := by
  induction h with
  | null =>
    exact readsBack_of_isScalarText (fun _ _ => by rw [write]) (isScalarText_word (by decide))
  | bool b =>
    cases b <;>
      exact readsBack_of_isScalarText (fun _ _ => by rw [write]) (isScalarText_word (by decide))
  | int short =>
    exact readsBack_of_isScalarText (fun _ _ => by rw [write])
      (isScalarText_number (isNumberText_writeInt short))
  | float x => exact readsBack_of_isScalarText (fun _ _ => by rw [write]) (isScalarText_double x)
  | str s => exact readsBack_str s
  | arr _ items => exact readsBack_arr items
  | obj distinct keys _ values => exact readsBack_obj distinct keys values

/-- The text of a value is read as the value, whatever its indentation. -/
theorem read_text (h : IsWritable v) (indent : Option Int) :
    read (text indent v).toList = .ok v.quiet := by
  have hback := h.readsBack
  obtain ⟨c, cs, hwrite, hc⟩ := hback.head (indent.map Int.toNat) 0
  obtain ⟨next, htake⟩ := hback.takes (indent.map Int.toNat) 0
    (write (indent.map Int.toNat) 0 v).length 0 [] (Nat.le_refl _) nofun
  have hmark : (write (indent.map Int.toNat) 0 v).head? ≠ some '\ufeff' := by
    rw [← List.append_nil (write _ _ _)]
    exact hback.head?_write_ne _ _ (by decide)
  have hskip : Input.skipSpaces ⟨0, write (indent.map Int.toNat) 0 v⟩ =
      ⟨0, write (indent.map Int.toNat) 0 v⟩ := by
    rw [hwrite]
    exact Input.skipSpaces_cons 0 (isSpace_of_startsValue hc)
  rw [List.append_nil] at htake
  rw [text, String.toList_ofList, read, if_neg hmark, hskip, htake]
  rfl

end Json

end ArithJit
