/-!
# Strict UTF-8

Bytes are read as UTF-8 one at a time. Inside a character the reader knows how many
continuation bytes it is owed and the range of the next one, which excludes overlong forms,
surrogates and code points past the last. The first fault is reported with the bytes that
it spoils: the character begun so far, without the byte that cannot continue it.
-/

namespace ArithJit.Text

/-- Why bytes are not UTF-8. -/
inductive Utf8Fault where
  | invalidStart
  | invalidContinuation
  | unexpectedEnd
  deriving DecidableEq, Repr

/-- The wording of a fault. -/
def Utf8Fault.message : Utf8Fault → String
  | .invalidStart => "invalid start byte"
  | .invalidContinuation => "invalid continuation byte"
  | .unexpectedEnd => "unexpected end of data"

/-- A fault with the place and the bytes that it spoils. -/
structure Utf8Error where
  fault : Utf8Fault
  position : Nat
  spoiled : List UInt8
  deriving DecidableEq, Repr

/-- A character begun: where, its bytes so far in reverse, its bits so far, how many
    continuation bytes are owed, and the range of the next one. -/
structure Utf8Partial where
  position : Nat
  bytes : List UInt8
  code : Nat
  owed : Nat
  least : Nat
  most : Nat

/-- What a byte between characters begins: the bits that it holds, the continuation bytes owed,
    and the range of the first of them. -/
def utf8Start? (b : Nat) : Option (Nat × Nat × Nat × Nat) :=
  if b < 0x80 then some (b, 0, 0, 0)
  else if b < 0xc2 then none
  else if b < 0xe0 then some (b - 0xc0, 1, 0x80, 0xbf)
  else if b = 0xe0 then some (0, 2, 0xa0, 0xbf)
  else if b = 0xed then some (0xd, 2, 0x80, 0x9f)
  else if b < 0xf0 then some (b - 0xe0, 2, 0x80, 0xbf)
  else if b = 0xf0 then some (0, 3, 0x90, 0xbf)
  else if b < 0xf4 then some (b - 0xf0, 3, 0x80, 0xbf)
  else if b = 0xf4 then some (4, 3, 0x80, 0x8f)
  else none

/-- Reads bytes from a position on; `acc` holds the characters so far in reverse. -/
def decodeUtf8From (position : Nat) (begun : Option Utf8Partial) (acc : List Char) :
    List UInt8 → Except Utf8Error (List Char)
  | [] =>
      match begun with
      | none => .ok acc.reverse
      | some p => .error ⟨.unexpectedEnd, p.position, p.bytes.reverse⟩
  | b :: rest =>
      match begun with
      | none =>
          match utf8Start? b.toNat with
          | none => .error ⟨.invalidStart, position, [b]⟩
          | some (code, 0, _, _) =>
              decodeUtf8From (position + 1) none (Char.ofNat code :: acc) rest
          | some (code, owed, least, most) =>
              decodeUtf8From (position + 1) (some ⟨position, [b], code, owed, least, most⟩) acc rest
      | some p =>
          if p.least ≤ b.toNat && b.toNat ≤ p.most then
            let code := p.code * 64 + (b.toNat - 0x80)
            if p.owed = 1 then
              decodeUtf8From (position + 1) none (Char.ofNat code :: acc) rest
            else
              decodeUtf8From (position + 1)
                (some ⟨p.position, b :: p.bytes, code, p.owed - 1, 0x80, 0xbf⟩) acc rest
          else .error ⟨.invalidContinuation, p.position, p.bytes.reverse⟩

/-- The text that bytes encode, or the first fault. -/
def decodeUtf8 (bytes : List UInt8) : Except Utf8Error (List Char) :=
  decodeUtf8From 0 none [] bytes

end ArithJit.Text
