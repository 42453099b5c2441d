import ArithJit.Token.Basic
import ArithJit.Diagnostic
import ArithJit.Logged

/-!
# Lexing

A lexer delivers the tokens of a text one at a time, from left to right, and passes over blanks.
A number is a run of digits with at most one point and at least one digit. The first character
that fits no token ends the stream with an error; otherwise the end mark ends it.

`scan` finds the next token of a text. `Lexer` is the stream, which can be started only once, and
`tokens` takes the whole text at a time. `length_rest_scan` says that every token but the end
mark uses up at least one character.
-/

namespace ArithJit

/-- Why a text has no next token. A number is spoiled by its second point, or by being nothing
    but a point. -/
inductive LexError where
  | unexpectedCharacter (character : Char) (place : Location)
  | malformedNumber (lexeme : String) (place : Location)
  deriving DecidableEq, Repr

namespace LexError

/-- Where the offending character stands. -/
def place : LexError → Location
  | .unexpectedCharacter _ place => place
  | .malformedNumber _ place => place

/-- The offending character. -/
def character : LexError → Char
  | .unexpectedCharacter c _ => c
  | .malformedNumber _ _ => '.'

/-- The diagnostic of a lexical error. -/
def diagnostic : LexError → Diagnostic
  | .unexpectedCharacter c place => .unexpectedCharacter (String.singleton c) place
  | .malformedNumber lexeme place => .malformedNumber lexeme "." place

end LexError

/-- The longest run of digits with at most one point that a text begins with. -/
def numberLexeme (cs : List Char) : List Char :=
  cs.takeWhile Char.isDigit ++
    match cs.dropWhile Char.isDigit with
    | '.' :: more => '.' :: more.takeWhile Char.isDigit
    | _ => []

/-- A text that begins with a digit or a point begins with a run that is not empty. -/
theorem numberLexeme_ne_nil {x : Char} {xs : List Char}
    (hx : (Char.isDigit x || x = '.') = true) : numberLexeme (x :: xs) ≠ [] := by
  cases hd : Char.isDigit x with
  | true => simp [numberLexeme, hd]
  | false =>
    have hpoint : x = '.' := by simpa [hd] using hx
    simp [numberLexeme, hpoint, Char.isDigit]

/-- What is left of a text, and the place where it begins. -/
structure Cursor where
  rest : List Char
  place : Location
  deriving DecidableEq, Repr

namespace Cursor

/-- The start of a text. -/
def ofText (s : String) : Cursor := ⟨s.toList, .start⟩

/-- Passes over some characters. -/
def advance (c : Cursor) (count : Nat) : Cursor :=
  ⟨c.rest.drop count, c.place.after (c.rest.take count)⟩

/-- Passes over blanks. -/
def skipBlanks (c : Cursor) : Cursor := c.advance (c.rest.takeWhile Text.isBlank).length

/-- Passes over a lexeme and makes it a token of a kind. -/
def take (c : Cursor) (kind : TokenKind) (lexeme : List Char) : Except LexError Token × Cursor :=
  (.ok ⟨kind, String.ofList lexeme, c.place⟩, c.advance lexeme.length)

/-- Reads a number. A second point is an error where it stands, and a point alone is an error
    where it begins; the cursor stops before the second point and after the lone one. -/
def scanNumber (c : Cursor) : Except LexError Token × Cursor :=
  let lexeme := numberLexeme c.rest
  let after := c.advance lexeme.length
  if after.rest.head? = some '.' then
    (.error (.malformedNumber (String.ofList lexeme) after.place), after)
  else if lexeme = ['.'] then (.error (.malformedNumber (String.ofList lexeme) c.place), after)
  else c.take .number lexeme

/-- Reads the token that begins where the cursor stands. -/
def scanToken (c : Cursor) : Except LexError Token × Cursor :=
  match c.rest with
  | [] => (.ok ⟨.endMark, "", c.place⟩, c)
  | x :: _ =>
      if Char.isDigit x || x = '.' then c.scanNumber
      else
        match TokenKind.ofChar? x with
        | some kind => c.take kind [x]
        | none => (.error (.unexpectedCharacter x c.place), c)

/-- Passes over blanks and reads a token, the end mark at the end of the text. -/
def scan (c : Cursor) : Except LexError Token × Cursor := c.skipBlanks.scanToken

theorem length_rest_advance_le (c : Cursor) (count : Nat) :
    (c.advance count).rest.length ≤ c.rest.length := by
  simp [advance]

theorem length_rest_advance_lt {c : Cursor} {count : Nat} (pos : 0 < count)
    (more : c.rest ≠ []) : (c.advance count).rest.length < c.rest.length := by
  have := List.length_pos_iff.2 more
  simp only [advance, List.length_drop]
  omega

/-- A lexeme that is not empty uses up a character. -/
theorem length_rest_take {c c' : Cursor} {kind : TokenKind} {lexeme : List Char} {t : Token}
    (h : c.take kind lexeme = (.ok t, c')) (hne : lexeme ≠ []) (more : c.rest ≠ []) :
    c'.rest.length < c.rest.length := by
  simp only [take, Prod.mk.injEq] at h
  rw [← h.2]
  exact length_rest_advance_lt (List.length_pos_iff.2 hne) more

theorem length_rest_scanToken {c c' : Cursor} {t : Token} (h : c.scanToken = (.ok t, c'))
    (ht : t.kind ≠ .endMark) : c'.rest.length < c.rest.length := by
  unfold scanToken at h
  split at h
  · simp only [Prod.mk.injEq, Except.ok.injEq] at h
    exact absurd (by rw [← h.1]) ht
  · next x xs hrest =>
    have more : c.rest ≠ [] := by simp [hrest]
    split at h
    · next hx =>
      simp only [scanNumber] at h
      split at h
      · simp at h
      · split at h
        · simp at h
        · exact length_rest_take h (hrest ▸ numberLexeme_ne_nil hx) more
    · split at h
      · exact length_rest_take h (by simp) more
      · simp at h

/-- Every token but the end mark uses up a character. -/
theorem length_rest_scan {c c' : Cursor} {t : Token} (h : c.scan = (.ok t, c'))
    (ht : t.kind ≠ .endMark) : c'.rest.length < c.rest.length :=
  Nat.lt_of_lt_of_le (length_rest_scanToken h ht) (length_rest_advance_le c _)

end Cursor

/-- The tokens of a text from the cursor on, with the end mark last. -/
def Cursor.tokens (c : Cursor) : Except LexError (List Token) :=
  match _h : c.scan with
  | (.error e, _) => .error e
  | (.ok t, c') =>
      if _ht : t.kind = .endMark then .ok [t]
      else c'.tokens.map (t :: ·)
termination_by c.rest.length
decreasing_by exact Cursor.length_rest_scan _h _ht

/-- The tokens of a text, with the end mark last. -/
def tokens (s : String) : Except LexError (List Token) := (Cursor.ofText s).tokens

/-- Lexes a text as a whole, and says how many tokens it has, the end mark not counted. -/
def lexText (s : String) : Logged LexError (List Token) := do
  let ts ← Logged.ofExcept (tokens s)
  Logged.tell (.lexed (ts.length - 1) s.toList.length)
  return ts

/-- Where a stream of tokens is in its life. -/
inductive Lexer.Phase where
  | fresh
  | reading
  | finished
  | failed
  deriving DecidableEq, Repr

/-- A stream of the tokens of a text. It remembers how many characters the text has and how many
    tokens it delivered, the end mark not counted. -/
structure Lexer where
  characters : Nat
  cursor : Cursor
  delivered : Nat
  phase : Lexer.Phase
  deriving DecidableEq, Repr

namespace Lexer

/-- A stream that was not started. -/
def ofText (s : String) : Lexer := ⟨s.toList.length, .ofText s, 0, .fresh⟩

/-- Starts the stream, which is possible once. -/
def start? (l : Lexer) : Option Lexer :=
  if l.phase = .fresh then some { l with phase := .reading } else none

/-- A stream that is started. -/
def reading (s : String) : Lexer := { ofText s with phase := .reading }

/-- The next token, or nothing at the end of the stream, which comes after the end mark and after
    an error. -/
def next (l : Lexer) : Except LexError (Option Token) × Lexer :=
  if l.phase = .reading then
    match l.cursor.scan with
    | (.ok t, cursor) =>
        if t.kind = .endMark then
          (.ok (some t), { l with cursor := cursor, phase := .finished })
        else (.ok (some t), { l with cursor := cursor, delivered := l.delivered + 1 })
    | (.error e, cursor) => (.error e, { l with cursor := cursor, phase := .failed })
  else (.ok none, l)

/-- What the stream has said: one record, once it has delivered the end mark. -/
def events (l : Lexer) : List Event :=
  if l.phase = .finished then [.lexed l.delivered l.characters] else []

/-- How much is left to do: the characters, and one for the end mark or the error. -/
def remaining (l : Lexer) : Nat :=
  if l.phase = .reading then l.cursor.rest.length + 1 else 0

/-- Every delivery leaves less to do. -/
theorem remaining_next {l l' : Lexer} {t : Token} (h : l.next = (.ok (some t), l')) :
    l'.remaining < l.remaining := by
  unfold next at h
  split at h
  · next hphase =>
    split at h
    · next u cursor hscan =>
      split at h
      · simp only [Prod.mk.injEq] at h
        simp [← h.2, remaining, hphase]
      · next hu =>
        simp only [Prod.mk.injEq] at h
        have := Cursor.length_rest_scan hscan hu
        simp [← h.2, remaining, hphase, this]
    · simp at h
  · simp at h

end Lexer

end ArithJit
