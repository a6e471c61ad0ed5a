import TidyTrig.Trig.Token

/-!
# Numbers

A sign, digits, a dot with digits and an exponent, all of them optional, though not all at once.
A token keeps the text of its number as written.
-/

namespace TidyTrig.Trig

open Utf8 (byte)

def isDigitByte (b : UInt8) : Bool := byte '0' ≤ b && b ≤ byte '9'

def isSignByte (b : UInt8) : Bool := b = byte '+' || b = byte '-'

/-- How many bytes the sign in front takes, if there is one. -/
def signWidth : Bytes → Nat
  | b :: _ => if isSignByte b then 1 else 0
  | [] => 0

/-- How many digits stand in front. -/
def digitCount (bytes : Bytes) : Nat := (bytes.takeWhile isDigitByte).length

/-- The parts of a number. -/
structure NumberParts where
  sign : Nat
  /-- Digits before the dot. -/
  whole : Nat
  /-- Digits after the dot, if there is a dot. -/
  fraction : Option Nat

namespace NumberParts

/-- Bytes up to the exponent. -/
def size (p : NumberParts) : Nat := p.sign + p.whole + p.fraction.elim 0 (· + 1)

/-- Whether the number has a digit before its exponent. -/
def hasDigits (p : NumberParts) : Bool := p.whole ≠ 0 || p.fraction.getD 0 ≠ 0

end NumberParts

/-- A number with an exponent, of which `bytes` are those after the `e`. -/
def closeDouble (ended : Bool) (number : Bytes) (p : NumberParts) (bytes : Bytes) : Scan Token :=
  let sign := signWidth bytes
  let digits := digitCount (bytes.drop sign)
  let size := p.size + 1 + sign + digits
  if !ended && (bytes.drop (sign + digits)).isEmpty then .wait
  else if digits = 0 then .fault .emptyExponent 0 size
  else if !p.hasDigits then .fault .emptyDouble 0 size
  else .found (.double (Utf8.decodeLossy (number.take size))) size

/-- A number without an exponent. A dot that no digit follows is not part of it. -/
def closePlain (number : Bytes) (p : NumberParts) : Scan Token :=
  if p.fraction.getD 0 ≠ 0 then
    .found (.decimal (Utf8.decodeLossy (number.take p.size))) p.size
  else
    let size := p.sign + p.whole
    if p.whole = 0 then .fault .emptyInteger 0 size
    else .found (.integer (Utf8.decodeLossy (number.take size))) size

/-- A number up to its exponent. Each part may go on as long as the document has not ended. -/
def scanNumber (ended : Bool) (number : Bytes) : Scan Token :=
  let sign := signWidth number
  let afterSign := number.drop sign
  let whole := digitCount afterSign
  match afterSign.drop whole with
  | [] => if ended then closePlain number ⟨sign, whole, none⟩ else .wait
  | b :: rest =>
    let parts : NumberParts :=
      ⟨sign, whole, if b = byte '.' then some (digitCount rest) else none⟩
    match number.drop parts.size with
    | [] => if ended then closePlain number parts else .wait
    | e :: rest =>
      if e = byte 'e' || e = byte 'E' then closeDouble ended number parts rest
      else closePlain number parts

end TidyTrig.Trig
