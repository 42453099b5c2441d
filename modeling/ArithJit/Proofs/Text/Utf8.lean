import ArithJit.Text.Utf8

/-!
# Bytes that are text

The reader of UTF-8 accepts exactly the bytes that encode a text, and gives that text. A character
is encoded in one of four forms: a byte of its own, or a head with one, two or three continuation
bytes, each of which holds six bits. `Utf8Form` lists the forms with the ranges that keep out
overlong encodings, surrogates and code points past the last. Over each form the reader comes to the
next character, and bytes that it accepts begin with one of the forms.
-/

namespace ArithJit.Text

/-- The bytes of a text in UTF-8. -/
def encodeUtf8 (cs : List Char) : List UInt8 := cs.flatMap String.utf8EncodeChar

/-- A continuation byte with six bits. -/
def continuation (n : Nat) : UInt8 := .ofNat (n + 0x80)

/-- The four forms of an encoded character, with its bits from the head on. -/
inductive Utf8Form : Char → List UInt8 → Prop
  | one {n : Nat} (hn : n < 0x80) : Utf8Form (.ofNat n) [.ofNat n]
  | two {x y : Nat} (least : 2 ≤ x) (hx : x < 32) (hy : y < 64) :
      Utf8Form (.ofNat (x * 64 + y)) [.ofNat (x + 0xc0), continuation y]
  | three {x y z : Nat} (hx : x < 16) (hy : y < 64) (hz : z < 64) (long : x = 0 → 32 ≤ y)
      (surrogate : x = 13 → y < 32) :
      Utf8Form (.ofNat ((x * 64 + y) * 64 + z))
        [.ofNat (x + 0xe0), continuation y, continuation z]
  | four {x y z w : Nat} (hx : x < 5) (hy : y < 64) (hz : z < 64) (hw : w < 64)
      (long : x = 0 → 16 ≤ y) (last : x = 4 → y < 16) :
      Utf8Form (.ofNat (((x * 64 + y) * 64 + z) * 64 + w))
        [.ofNat (x + 0xf0), continuation y, continuation z, continuation w]

variable {c : Char} {cs acc : List Char} {b : UInt8} {bs bytes rest : List UInt8} {pos n : Nat}

/-! ## Forms and encodings -/

theorem toNat_ofNat_of_valid (h : n.isValidChar) : (Char.ofNat n).toNat = n := by
  rw [Char.ofNat, dif_pos h]
  rfl

/-- The bytes of a character are one of its forms. -/
theorem utf8Form_encode (c : Char) : Utf8Form c (String.utf8EncodeChar c) := by
  have hvalid : c.toNat < 0xd800 ∨ 0xdfff < c.toNat ∧ c.toNat < 0x110000 := c.valid
  generalize hv : c.toNat = v at hvalid
  obtain rfl : Char.ofNat v = c := hv ▸ Char.ofNat_toNat c
  simp only [String.utf8EncodeChar]
  rw [show (Char.ofNat v).val.toNat = v from hv]
  split
  · exact .one (by omega)
  · split
    · have hform := Utf8Form.two (x := v / 64) (y := v % 64) (by omega) (by omega) (by omega)
      rw [show v / 64 * 64 + v % 64 = v by omega] at hform
      rwa [Nat.mod_eq_of_lt (show v / 64 < 32 by omega)]
    · split
      · have hform := Utf8Form.three (x := v / 4096) (y := v / 64 % 64) (z := v % 64)
          (by omega) (by omega) (by omega) (by omega) (by omega)
        rw [show (v / 4096 * 64 + v / 64 % 64) * 64 + v % 64 = v by omega] at hform
        rwa [Nat.mod_eq_of_lt (show v / 4096 < 16 by omega)]
      · have hform := Utf8Form.four (x := v / 262144) (y := v / 4096 % 64) (z := v / 64 % 64)
          (w := v % 64) (by omega) (by omega) (by omega) (by omega) (by omega) (by omega)
        rw [show ((v / 262144 * 64 + v / 4096 % 64) * 64 + v / 64 % 64) * 64 + v % 64 = v by omega]
          at hform
        rwa [Nat.mod_eq_of_lt (show v / 262144 < 8 by omega)]

/-- A form of a character is its bytes. -/
theorem Utf8Form.eq_encode (h : Utf8Form c bs) : bs = String.utf8EncodeChar c := by
  have hval {n : Nat} (h : n.isValidChar) : (Char.ofNat n).val.toNat = n := toNat_ofNat_of_valid h
  cases h with
  | @one n hn =>
    rw [String.utf8EncodeChar, hval (.inl (by omega))]
    simp only [if_pos (show n ≤ 127 by omega)]
  | @two x y least hx hy =>
    rw [String.utf8EncodeChar, hval (.inl (by omega))]
    simp only [if_neg (show ¬x * 64 + y ≤ 127 by omega), if_pos (show x * 64 + y ≤ 2047 by omega)]
    rw [show (x * 64 + y) / 64 % 32 = x by omega, show (x * 64 + y) % 64 = y by omega]
    rfl
  | @three x y z hx hy hz long surrogate =>
    generalize hv : (x * 64 + y) * 64 + z = v
    rw [String.utf8EncodeChar, hval (by simp only [Nat.isValidChar]; omega)]
    simp only [if_neg (show ¬v ≤ 127 by omega), if_neg (show ¬v ≤ 2047 by omega),
      if_pos (show v ≤ 65535 by omega)]
    rw [show v / 4096 % 16 = x by omega, show v / 64 % 64 = y by omega,
      show v % 64 = z by omega]
    rfl
  | @four x y z w hx hy hz hw long last =>
    generalize hv : ((x * 64 + y) * 64 + z) * 64 + w = v
    rw [String.utf8EncodeChar, hval (by simp only [Nat.isValidChar]; omega)]
    simp only [if_neg (show ¬v ≤ 127 by omega), if_neg (show ¬v ≤ 2047 by omega),
      if_neg (show ¬v ≤ 65535 by omega)]
    rw [show v / 262144 % 8 = x by omega, show v / 4096 % 64 = y by omega,
      show v / 64 % 64 = z by omega, show v % 64 = w by omega]
    rfl

/-! ## Reading one character -/

theorem utf8Start?_one (h : n < 0x80) :
    utf8Start? (UInt8.ofNat n).toNat = some (n, 0, 0, 0) := by
  rw [UInt8.toNat_ofNat_of_lt' (show n < 256 by omega), utf8Start?, if_pos h]

theorem utf8Start?_two (least : 2 ≤ n) (h : n < 32) :
    utf8Start? (UInt8.ofNat (n + 0xc0)).toNat = some (n, 1, 0x80, 0xbf) := by
  rw [UInt8.toNat_ofNat_of_lt' (show n + 0xc0 < 256 by omega), utf8Start?, if_neg (by omega),
    if_neg (by omega), if_pos (by omega), Nat.add_sub_cancel]

theorem utf8Start?_three : ∀ x < 16, utf8Start? (UInt8.ofNat (x + 0xe0)).toNat =
    some (x, 2, if x = 0 then 0xa0 else 0x80, if x = 13 then 0x9f else 0xbf) := by
  decide

theorem utf8Start?_four : ∀ x < 5, utf8Start? (UInt8.ofNat (x + 0xf0)).toNat =
    some (x, 3, if x = 0 then 0x90 else 0x80, if x = 4 then 0x8f else 0xbf) := by
  decide

theorem toNat_continuation (h : n < 64) : (continuation n).toNat = n + 0x80 := by
  rw [continuation, UInt8.toNat_ofNat_of_lt']
  show n + 0x80 < 256
  omega

/-- A byte that begins a character is the head of one of the forms. -/
theorem exists_head (h : utf8Start? b.toNat ≠ none) :
    (∃ n, n < 0x80 ∧ b = .ofNat n) ∨ (∃ x, 2 ≤ x ∧ x < 32 ∧ b = .ofNat (x + 0xc0)) ∨
      (∃ x, x < 16 ∧ b = .ofNat (x + 0xe0)) ∨ ∃ x, x < 5 ∧ b = .ofNat (x + 0xf0) := by
  have hb : b = .ofNat b.toNat := UInt8.ofNat_toNat.symm
  generalize b.toNat = n at h hb
  subst hb
  have hsub {k : Nat} (hk : k ≤ n) : UInt8.ofNat n = .ofNat (n - k + k) := by
    rw [Nat.sub_add_cancel hk]
  by_cases hone : n < 0x80
  · exact .inl ⟨n, hone, rfl⟩
  have hleast : ¬n < 0xc2 := fun hless => by simp [utf8Start?, hone, hless] at h
  by_cases htwo : n < 0xe0
  · exact .inr (.inl ⟨n - 0xc0, by omega, by omega, hsub (by omega)⟩)
  by_cases hthree : n < 0xf0
  · exact .inr (.inr (.inl ⟨n - 0xe0, by omega, hsub (by omega)⟩))
  have hmost : n < 0xf5 := by
    simp only [utf8Start?] at h
    grind
  exact .inr (.inr (.inr ⟨n - 0xf0, by omega, hsub (by omega)⟩))

/-- A head that owes continuation bytes begins a character. -/
theorem decode_head {code owed least most : Nat}
    (h : utf8Start? b.toNat = some (code, owed + 1, least, most)) :
    decodeUtf8From pos none acc (b :: rest) =
      decodeUtf8From (pos + 1) (some ⟨pos, [b], code, owed + 1, least, most⟩) acc rest := by
  simp only [decodeUtf8From, h]

section Continuation

variable {start code owed least most : Nat}

/-- The last continuation byte owed completes the character. -/
theorem decode_last (hn : n < 64) (hleast : least ≤ n + 0x80) (hmost : n + 0x80 ≤ most) :
    decodeUtf8From pos (some ⟨start, bs, code, 1, least, most⟩) acc (continuation n :: rest) =
      decodeUtf8From (pos + 1) none (.ofNat (code * 64 + n) :: acc) rest := by
  simp [decodeUtf8From, toNat_continuation hn, hleast, hmost]

/-- Any other continuation byte adds its six bits. -/
theorem decode_more (hn : n < 64) (hleast : least ≤ n + 0x80) (hmost : n + 0x80 ≤ most) :
    decodeUtf8From pos (some ⟨start, bs, code, owed + 2, least, most⟩) acc
        (continuation n :: rest) =
      decodeUtf8From (pos + 1)
        (some ⟨start, continuation n :: bs, code * 64 + n, owed + 1, 0x80, 0xbf⟩) acc rest := by
  simp [decodeUtf8From, toNat_continuation hn, hleast, hmost]

/-- Inside a character only a continuation byte in its range is accepted. -/
theorem exists_continuation
    (h : decodeUtf8From pos (some ⟨start, bs, code, owed, least, most⟩) acc bytes = .ok cs)
    (hleast : 0x80 ≤ least) (hmost : most ≤ 0xbf) :
    ∃ n rest, bytes = continuation n :: rest ∧ n < 64 ∧ least ≤ n + 0x80 ∧ n + 0x80 ≤ most := by
  cases bytes with
  | nil => simp [decodeUtf8From] at h
  | cons b rest =>
    by_cases hb : least ≤ b.toNat ∧ b.toNat ≤ most
    · refine ⟨b.toNat - 0x80, rest, ?_, by omega, by omega, by omega⟩
      rw [continuation, Nat.sub_add_cancel (by omega), UInt8.ofNat_toNat]
    · simp [decodeUtf8From, hb] at h

end Continuation

/-- Over the bytes of a character the reader comes to the next one. -/
theorem Utf8Form.decode (h : Utf8Form c bs) :
    decodeUtf8From pos none acc (bs ++ rest) =
      decodeUtf8From (pos + bs.length) none (c :: acc) rest := by
  cases h with
  | @one n hn =>
    simp only [List.cons_append, List.nil_append, decodeUtf8From, utf8Start?_one hn,
      List.length_singleton]
  | @two x y least hx hy =>
    simp only [List.cons_append, List.nil_append]
    rw [decode_head (utf8Start?_two least hx), decode_last hy (by omega) (by omega)]
    rfl
  | @three x y z hx hy hz long surrogate =>
    simp only [List.cons_append, List.nil_append]
    rw [decode_head (utf8Start?_three x hx), decode_more hy (by grind) (by grind),
      decode_last hz (by omega) (by omega)]
    rfl
  | @four x y z w hx hy hz hw long last =>
    simp only [List.cons_append, List.nil_append]
    rw [decode_head (utf8Start?_four x hx), decode_more hy (by grind) (by grind),
      decode_more hz (by omega) (by omega), decode_last hw (by omega) (by omega)]
    rfl

/-- Bytes that are accepted begin with those of a character. -/
theorem exists_form (h : decodeUtf8From pos none acc (b :: rest) = .ok cs) :
    ∃ c bs rest', Utf8Form c bs ∧ b :: rest = bs ++ rest' := by
  have hhead : utf8Start? b.toNat ≠ none := fun hnone => by simp [decodeUtf8From, hnone] at h
  rcases exists_head hhead with ⟨n, hn, rfl⟩ | ⟨x, least, hx, rfl⟩ | ⟨x, hx, rfl⟩ | ⟨x, hx, rfl⟩
  · exact ⟨_, _, rest, .one hn, rfl⟩
  · rw [decode_head (utf8Start?_two least hx)] at h
    obtain ⟨y, rest, rfl, hy, -⟩ := exists_continuation h (by omega) (by omega)
    exact ⟨_, _, rest, .two least hx hy, rfl⟩
  · rw [decode_head (utf8Start?_three x hx)] at h
    obtain ⟨y, rest, rfl, hy, hleast, hmost⟩ := exists_continuation h (by grind) (by grind)
    rw [decode_more hy hleast hmost] at h
    obtain ⟨z, rest, rfl, hz, -⟩ := exists_continuation h (by omega) (by omega)
    exact ⟨_, _, rest, .three hx hy hz (by grind) (by grind), rfl⟩
  · rw [decode_head (utf8Start?_four x hx)] at h
    obtain ⟨y, rest, rfl, hy, hleast, hmost⟩ := exists_continuation h (by grind) (by grind)
    rw [decode_more hy hleast hmost] at h
    obtain ⟨z, rest, rfl, hz, hleast', hmost'⟩ := exists_continuation h (by omega) (by omega)
    rw [decode_more hz hleast' hmost'] at h
    obtain ⟨w, rest, rfl, hw, -⟩ := exists_continuation h (by omega) (by omega)
    exact ⟨_, _, rest, .four hx hy hz hw (by grind) (by grind), rfl⟩

/-! ## Reading a text -/

theorem decode_encodeUtf8 (pos : Nat) (acc cs : List Char) :
    decodeUtf8From pos none acc (encodeUtf8 cs) = .ok (acc.reverse ++ cs) := by
  induction cs generalizing pos acc with
  | nil => simp [encodeUtf8, decodeUtf8From]
  | cons c cs ih =>
    rw [encodeUtf8, List.flatMap_cons, (utf8Form_encode c).decode]
    exact (ih _ _).trans (by simp)

theorem eq_encodeUtf8_of_decode (h : decodeUtf8From pos none acc bytes = .ok cs) :
    ∃ ds, cs = acc.reverse ++ ds ∧ bytes = encodeUtf8 ds := by
  induction hn : bytes.length using Nat.strongRecOn generalizing pos acc bytes with
  | _ n ih =>
    subst hn
    cases bytes with
    | nil =>
      simp only [decodeUtf8From, Except.ok.injEq] at h
      exact ⟨[], by simp [h], rfl⟩
    | cons b rest =>
      obtain ⟨c, bs, rest', hform, hsplit⟩ := exists_form h
      rw [hsplit, hform.decode] at h
      have hne : bs ≠ [] := by cases hform <;> simp
      have hlt : rest'.length < (b :: rest).length := by
        rw [hsplit, List.length_append]
        have := List.length_pos_iff.2 hne
        omega
      obtain ⟨ds, rfl, rfl⟩ := ih _ hlt h rfl
      refine ⟨c :: ds, by simp, ?_⟩
      rw [hsplit, hform.eq_encode, encodeUtf8, encodeUtf8, List.flatMap_cons]

/-- Bytes are read as a text exactly if they encode it. -/
theorem decodeUtf8_eq_ok_iff : decodeUtf8 bytes = .ok cs ↔ bytes = encodeUtf8 cs := by
  constructor
  · intro h
    obtain ⟨ds, rfl, rfl⟩ := eq_encodeUtf8_of_decode h
    rfl
  · rintro rfl
    exact decode_encodeUtf8 0 [] cs

end ArithJit.Text
