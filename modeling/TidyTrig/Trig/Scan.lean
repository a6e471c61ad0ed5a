import TidyTrig.Trig.Name
import TidyTrig.Trig.Number
import TidyTrig.Trig.Quoted

/-!
# Scanning a token

`scan` reads the token at the start of some bytes, after blanks and comments. The first byte tells
what kind of token it is, except for marks of one or two bytes.
-/

namespace TidyTrig.Trig

open Utf8 (byte)

/-- The mark that a byte is by itself, whatever follows it. -/
def singleMark? (b : UInt8) : Option Mark :=
  if b = byte '(' then some .openParen
  else if b = byte ')' then some .closeParen
  else if b = byte '[' then some .openBracket
  else if b = byte ']' then some .closeBracket
  else if b = byte '\x7d' then some .closeBrace
  else if b = byte ',' then some .comma
  else if b = byte ';' then some .semicolon
  else if b = byte '!' then some .bang
  else none

/-- The byte that makes a longer mark of the one before it, with both marks. -/
def doubleMark? (b : UInt8) : Option (UInt8 × Mark × Mark) :=
  if b = byte '>' then some (byte '>', .greater2, .greater)
  else if b = byte '^' then some (byte '^', .caret2, .caret)
  else if b = byte '\x7b' then some (byte '|', .openBraceBar, .openBrace)
  else if b = byte '|' then some (byte '\x7d', .closeBraceBar, .bar)
  else if b = byte '=' then some (byte '>', .arrow, .equal)
  else none

/-- A mark of one byte or two. -/
def scanMark (second : UInt8) (long short : Mark) : Bytes → Scan Token
  | [] => .wait
  | b :: _ => if b = second then .found (.mark long) 2 else .found (.mark short) 1

/-- The end of a language tag: letters in blocks between hyphens, of which the last is left out if
nothing follows it. -/
def tagLength? (inEmptyBlock : Bool) (count : Nat) : Bytes → Option Nat
  | [] => none
  | b :: rest =>
    if (Char.ofNat b.toNat).isAlpha then tagLength? false (count + 1) rest
    else if inEmptyBlock then some (count - 1)
    else if b = byte '-' then tagLength? true (count + 1) rest
    else some count

/-- A language tag, or the keyword of a directive, after its `@`. -/
def scanLanguage : Bytes → Scan Token
  | [] => .wait
  | b :: rest =>
    if !(Char.ofNat b.toNat).isAlpha then .fault .languageStart 1 1
    else
      match tagLength? false 0 (b :: rest) with
      | none => .wait
      | some length =>
        let tag := Utf8.decodeLossy ((b :: rest).take length)
        match LanguageTag.check tag with
        | .ok () => .found (.language tag) (1 + length)
        | .error fault => .fault (.language fault) 1 (1 + length)

/-- A dot, which may start a number. -/
def scanDot (ended : Bool) (rest : Bytes) : Scan Token :=
  match rest with
  | [] => if ended then .found (.mark .dot) 1 else .wait
  | b :: _ =>
    if isDigitByte b then scanNumber ended (byte '.' :: rest) else .found (.mark .dot) 1

/-- What starts with an underscore. -/
def scanUnderscore : Bytes → Scan Token
  | [] => .wait
  | b :: rest =>
    if b = byte ':' then scanLabel [] 2 rest else .fault (.unexpectedCharacter b) 0 1

/-- What starts with an opening angle bracket. -/
def scanAngle (base : Option Iri) : Bytes → Scan Token
  | [] => .wait
  | b :: rest =>
    if b = byte '<' then .found (.mark .less2) 2 else scanIri base (b :: rest)

/-- Reads the token that starts with the byte `b`. IRIs are resolved against `base`. -/
def scan (base : Option Iri) (ended : Bool) (b : UInt8) (rest : Bytes) : Scan Token :=
  match singleMark? b with
  | some mark => .found (.mark mark) 1
  | none =>
    match doubleMark? b with
    | some (second, long, short) => scanMark second long short rest
    | none =>
      if b = byte '<' then scanAngle base rest
      else if b = byte '_' then scanUnderscore rest
      else if b = byte '\x22' || b = byte '\x27' then scanString b rest
      else if b = byte '@' then scanLanguage rest
      else if b = byte '.' then scanDot ended rest
      else if isDigitByte b || isSignByte b then scanNumber ended (b :: rest)
      else if b = byte '?' then scanVariable ended rest
      else scanName ended [] 0 (b :: rest)

end TidyTrig.Trig
