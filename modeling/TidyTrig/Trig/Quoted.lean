import TidyTrig.Iri.Resolve
import TidyTrig.Trig.Token

/-!
# Words in quotes and angle brackets

Strings and IRIs run up to their closing mark, and hold characters that are written as escapes.
Between escapes their bytes must be text; they are checked a stretch at a time.
-/

namespace TidyTrig.Trig

open Utf8 (byte)

/-! ## Escapes -/

/-- The character that a letter after a backslash stands for in a string. -/
def shortEscape? (b : UInt8) : Option Char :=
  if b = byte 't' then some '\t'
  else if b = byte 'b' then some '\x08'
  else if b = byte 'n' then some '\n'
  else if b = byte 'r' then some '\r'
  else if b = byte 'f' then some '\x0c'
  else if b = byte '\x22' then some '\x22'
  else if b = byte '\x27' then some '\x27'
  else if b = byte '\\' then some '\\'
  else none

/-- A character by its code point in `width` hexadecimal digits, after a backslash and a letter,
which are counted in. -/
def scanCodePoint (letter : Char) (width : Nat) (bytes : Bytes) : Scan Char :=
  let digits := bytes.take width
  let chars := digits.map fun b => Char.ofNat b.toNat
  let text := (Utf8.decode? digits).getD ""
  if digits.length < width then .wait
  else
    match Hex.value? chars with
    | none => .fault (.escapeDigits letter text) (2 + chars.findIdx fun c => !Hex.isDigit c) (2 + width)
    | some value =>
      if value.isValidChar then .found (.ofNat value) (2 + width)
      else .fault (.escapeValue letter text value) 0 (2 + width)

/-- An escape after its backslash, which is counted in. -/
def scanEscape (inString : Bool) : Bytes → Scan Char
  | [] => .wait
  | b :: rest =>
    if b = byte 'u' then scanCodePoint 'u' 4 rest
    else if b = byte 'U' then scanCodePoint 'U' 8 rest
    else
      match if inString then shortEscape? b else none with
      | some c => .found c 2
      | none => .fault (.escape b) 0 2

/-! ## IRIs -/

/-- The bytes of an IRI up to its closing bracket, with escapes replaced. `read` holds those read
so far, the latest first; `size` counts all bytes of the token so far. -/
def scanIriText (read : Bytes) (size : Nat) : Bytes → Scan Bytes
  | [] => .wait
  | b :: rest =>
    if b = byte '>' then .found read.reverse (size + 1)
    else if b = byte '\\' then
      match scanEscape false rest with
      | .wait => .wait
      | .found c width =>
        scanIriText ((Utf8.encodeChar c).reverse ++ read) (size + width) (rest.drop (width - 1))
      | .fault cause offset width => .fault cause (size + offset) (size + width)
    else scanIriText (b :: read) (size + 1) rest
  termination_by bytes => bytes.length
  decreasing_by all_goals simp only [List.length_drop, List.length_cons]; omega

/-- An IRI after its opening bracket. -/
def scanIri (base : Option Iri) (bytes : Bytes) : Scan Token :=
  match scanIriText [] 1 bytes with
  | .wait => .wait
  | .fault cause offset size => .fault cause offset size
  | .found content size =>
    match Utf8.fault? content with
    | some fault => .fault (.text fault) fault.offset size
    | none =>
      let text := Utf8.decodeLossy content
      match base.elim (Iri.parse text) (·.resolve text) with
      | .ok iri => .found (.iri iri) size
      | .error e => .fault (.iri e) 0 size

/-! ## Strings -/

/-- The offset of the first such byte. -/
def indexOf? (b : UInt8) (bytes : Bytes) : Option Nat := bytes.findIdx? (· = b)

def isLineEnd (b : UInt8) : Bool := b = byte '\n' || b = byte '\r'

/-- A fault in a string, which is passed over up to the next quote after `bytes`. -/
def faultToQuote {α : Type} (quote : UInt8) (cause : Token.Fault) (offset size : Nat)
    (bytes : Bytes) : Scan α :=
  match indexOf? quote bytes with
  | some n => .fault cause offset (size + n + 1)
  | none => .wait

theorem length_lt_of_dropWhile {p : UInt8 → Bool} {bytes rest : Bytes} {b : UInt8}
    (h : bytes.dropWhile p = b :: rest) : rest.length < bytes.length := by
  have := (List.dropWhile_suffix p (l := bytes)).length_le
  rw [h, List.length_cons] at this
  omega

/-- A string that ends on its line. `read` is its value so far, and `size` counts the bytes of the
token so far. A stretch that is no text is passed over alone, as if the token started with it. -/
def scanShort (quote : UInt8) (read : List Char) (size : Nat) (bytes : Bytes) : Scan Token :=
  let isPlain := fun b => !(b = quote || b = byte '\\' || isLineEnd b)
  let stretch := bytes.takeWhile isPlain
  match _h : bytes.dropWhile isPlain with
  | [] => .wait
  | b :: rest =>
    -- A line end is judged only once a quote or a backslash shows how far the string goes.
    if isLineEnd b && !rest.any fun b => b = quote || b = byte '\\' then .wait
    else
      match Utf8.fault? stretch with
      | some fault => .fault (.text fault) (size + fault.offset) stretch.length
      | none =>
        let read := read ++ (Utf8.decodeLossy stretch).toList
        let size := size + stretch.length
        if b = quote then .found (.string (.ofList read)) (size + 1)
        else if b = byte '\\' then
          match scanEscape true rest with
          | .wait => .wait
          | .found c width => scanShort quote (read ++ [c]) (size + width) (rest.drop (width - 1))
          | .fault cause offset width =>
            faultToQuote quote cause (size + offset) (size + width) (rest.drop (width - 1))
        else faultToQuote quote .lineEndInString size (size + 1) rest
  termination_by bytes.length
  decreasing_by
    have := length_lt_of_dropWhile _h
    simp only [List.length_drop]; omega

/-- A string between triple quotes. -/
def scanLong (quote : UInt8) (read : List Char) (size : Nat) (bytes : Bytes) : Scan Token :=
  let isPlain := fun b => !(b = quote || b = byte '\\')
  let stretch := bytes.takeWhile isPlain
  match _h : bytes.dropWhile isPlain with
  | [] => .wait
  | b :: rest =>
    match Utf8.fault? stretch with
    | some fault => .fault (.text fault) (size + fault.offset) stretch.length
    | none =>
      let read := read ++ (Utf8.decodeLossy stretch).toList
      let size := size + stretch.length
      if b = byte '\\' then
        match scanEscape true rest with
        | .wait => .wait
        | .found c width => scanLong quote (read ++ [c]) (size + width) (rest.drop (width - 1))
        | .fault cause offset width => .fault cause (size + offset) (size + width)
      else
        -- Fewer than three quotes in a row belong to the string.
        if (rest.take 2).length < 2 then .wait
        else if rest.take 2 = [quote, quote] then .found (.string (.ofList read)) (size + 3)
        else scanLong quote (read ++ [Char.ofNat quote.toNat]) (size + 1) rest
  termination_by bytes.length
  decreasing_by
    · have := length_lt_of_dropWhile _h
      simp only [List.length_drop]; omega
    · exact length_lt_of_dropWhile _h

/-- A string after its opening quote. Two more quotes make it a long one. -/
def scanString (quote : UInt8) : Bytes → Scan Token
  | [] => .wait
  | b :: rest =>
    if b = quote then
      match rest with
      | [] => .wait
      | b' :: rest' =>
        if b' = quote then scanLong quote [] 3 rest' else scanShort quote [] 1 (b :: rest)
    else scanShort quote [] 1 (b :: rest)

end TidyTrig.Trig
