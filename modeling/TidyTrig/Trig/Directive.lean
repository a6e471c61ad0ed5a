import TidyTrig.Text.Utf8

/-!
# Prefix directives in the raw text

`Directive.scan` finds the places where a document declares a prefix, without parsing it: comments,
strings and IRIs are stepped over, and at each other place where a token may start, the text is
compared with the form of a directive.
-/

namespace TidyTrig.Trig

open Utf8 (byte)

/-- A declaration of a prefix in the text of a document. -/
structure Directive where
  name : String
  /-- What stands between the angle brackets. -/
  iri : String
  /-- The offset of the keyword. -/
  start : Nat
  /-- The offset after the directive and the blanks that follow it. -/
  stop : Nat
deriving DecidableEq

namespace Directive

/-! ## What is stepped over -/

/-- The bytes up to the first of this kind and with it, or all of them. -/
def lengthThrough (p : UInt8 → Bool) (bytes : Bytes) : Nat :=
  match bytes.findIdx? p with
  | some n => n + 1
  | none => bytes.length

/-- The length of a comment with its line end. -/
def commentLength (bytes : Bytes) : Nat := lengthThrough (· = byte '\n') bytes

/-- The length of an IRI, which ends with its line at the latest. -/
def iriLength : Bytes → Nat
  | [] => 0
  | _ :: rest => 1 + lengthThrough (fun b => b = byte '>' || b = byte '\n') rest

/-- The bytes up to the end of a string. A short string ends with its line at the latest. -/
def lengthToQuote (quote : UInt8) (isLong : Bool) : Bytes → Nat
  | [] => 0
  | b :: rest =>
    if b = byte '\\' then
      match rest with
      | [] => 1
      | _ :: rest => 2 + lengthToQuote quote isLong rest
    else if isLong then
      if b = quote && rest.take 2 = [quote, quote] then 3
      else 1 + lengthToQuote quote isLong rest
    else if b = quote || b = byte '\n' then 1
    else 1 + lengthToQuote quote isLong rest

/-- The length of a string with its quotes. -/
def stringLength : Bytes → Nat
  | [] => 0
  | quote :: rest =>
    if rest.take 2 = [quote, quote] then 3 + lengthToQuote quote true (rest.drop 2)
    else 1 + lengthToQuote quote false rest

/-! ## The form of a directive -/

def isBlank (b : UInt8) : Bool :=
  b = byte ' ' || b = byte '\t' || b = byte '\r' || b = byte '\n'

/-- A byte with a capital letter made small. -/
def lowerByte (b : UInt8) : UInt8 := if byte 'A' ≤ b && b ≤ byte 'Z' then b + 32 else b

/-- What follows the keyword, which is in lower case after an `@` and in any case without. -/
def afterKeyword? (bytes : Bytes) : Option Bytes :=
  let word := Utf8.encode "prefix"
  if bytes.take 7 = byte '@' :: word then some (bytes.drop 7)
  else if (bytes.take 6).map lowerByte = word then some (bytes.drop 6)
  else none

/-- What follows blanks, of which there must be some. -/
def afterBlanks? (bytes : Bytes) : Option Bytes :=
  if (bytes.takeWhile isBlank).isEmpty then none else some (bytes.dropWhile isBlank)

/-- Whether a byte may stand in the name of a directive. -/
def isNameByte (b : UInt8) : Bool :=
  !(isBlank b || b = byte ':' || b = byte '<' || b = byte '>')

/-- What lies before the closing byte, none of it of the kind that ends the search, and what
follows that byte. -/
def partBefore? (close : UInt8) (isInside : UInt8 → Bool) (bytes : Bytes) :
    Option (Bytes × Bytes) :=
  match bytes.dropWhile isInside with
  | b :: rest => if b = close then some (bytes.takeWhile isInside, rest) else none
  | [] => none

/-- What follows a dot after blanks, or all if there is none. -/
def afterDot (bytes : Bytes) : Bytes :=
  match bytes.dropWhile isBlank with
  | b :: rest => if b = byte '.' then rest else bytes
  | [] => bytes

/-- The name and the IRI of the directive in front, and what follows it. -/
def parts? (bytes : Bytes) : Option (Bytes × Bytes × Bytes) := do
  let rest ← afterBlanks? (← afterKeyword? bytes)
  let (name, rest) ← partBefore? (byte ':') isNameByte rest
  let (_, rest) ← partBefore? (byte '<') isBlank rest
  let (iri, rest) ← partBefore? (byte '>') (fun b => !(b = byte '>' || b = byte '\n')) rest
  some (name, iri, (afterDot rest).dropWhile isBlank)

/-! ## Scanning -/

/-- Whether a token may start after this byte, `none` standing for the start of the text. -/
def mayPrecede : Option UInt8 → Bool
  | none => true
  | some b => isBlank b || b = byte '.' || b = byte '\x7d'

/-- The directive in front, if a token may start here. -/
def ofFront? (before : Option UInt8) (offset : Nat) (bytes : Bytes) : Option Directive :=
  if mayPrecede before then
    match parts? bytes with
    | some (name, iri, rest) =>
      some ⟨Utf8.decodeLossy name, Utf8.decodeLossy iri, offset,
        offset + (bytes.length - rest.length)⟩
    | none => none
  else none

/-- How far the scan steps over what starts with `b`. -/
def stride (b : UInt8) (rest : Bytes) : Nat :=
  if b = byte '#' then commentLength (b :: rest)
  else if b = byte '\x22' || b = byte '\x27' then stringLength (b :: rest)
  else if b = byte '<' then iriLength (b :: rest)
  else 1

/-- The directives of a text from an offset on, given the byte before it. -/
def scanFrom (before : Option UInt8) (offset : Nat) : Bytes → List Directive
  | [] => []
  | b :: rest =>
    match ofFront? before offset (b :: rest) with
    | some d =>
      let n := d.stop - d.start
      d :: scanFrom ((b :: rest).take n).getLast? (offset + n) (rest.drop (n - 1))
    | none =>
      let n := stride b rest
      scanFrom ((b :: rest).take n).getLast? (offset + n) (rest.drop (n - 1))
  termination_by bytes => bytes.length
  decreasing_by all_goals simp only [List.length_drop, List.length_cons]; omega

/-- The directives of a text in order. -/
def scan (bytes : Bytes) : List Directive := scanFrom none 0 bytes

end Directive
end TidyTrig.Trig
