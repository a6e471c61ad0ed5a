/-!
# UTF-8

Text enters as bytes and leaves as bytes. This file reads and writes the encoding by plain
arithmetic on the bytes, one character at a time:

* `encodeChar` and `encode`, the bytes of a character and of a text;
* `decodeNext`, which reads the character in front, or says what is wrong there;
* `readings`, the whole of a byte string as characters and undecodable parts, through which
  `decode?`, `decodeLossy` and `column` are defined;
* `fault?`, where and how a byte string first fails to be text.
-/

namespace TidyTrig

/-- Raw content: a file, a buffer, a piece of either. -/
abbrev Bytes := List UInt8

namespace Utf8

/-! ## Writing -/

/-- The one to four bytes of a character. -/
def encodeChar (c : Char) : Bytes :=
  let n := c.toNat
  if n < 0x80 then
    [.ofNat n]
  else if n < 0x800 then
    [.ofNat (0xC0 + n / 64), .ofNat (0x80 + n % 64)]
  else if n < 0x10000 then
    [.ofNat (0xE0 + n / 4096), .ofNat (0x80 + n / 64 % 64), .ofNat (0x80 + n % 64)]
  else
    [.ofNat (0xF0 + n / 262144), .ofNat (0x80 + n / 4096 % 64), .ofNat (0x80 + n / 64 % 64),
      .ofNat (0x80 + n % 64)]

/-- The byte of an ASCII character. -/
def byte (c : Char) : UInt8 := .ofNat c.toNat

/-- The bytes of a text. -/
def encode (text : String) : Bytes := text.toList.flatMap encodeChar

/-! ## Reading one character -/

/-- What stands in front of a byte string. -/
inductive Next where
  /-- A character, and how many bytes it takes. -/
  | char (c : Char) (width : Nat)
  /-- No character: the byte at this index cannot stand there. -/
  | invalid (index : Nat)
  /-- The bytes end before the character does. -/
  | incomplete
deriving DecidableEq

/-- Whether a byte may stand at the second place or later of any character. -/
def isContinuation (b : UInt8) : Bool := 0x80 ≤ b && b ≤ 0xBF

/-- Six bits of a byte at the second place or later. -/
def low (b : UInt8) : Nat := b.toNat % 64

/-- Two bytes, the first of them `lead`. -/
def decodeTwo (lead : UInt8) : Bytes → Next
  | [] => .incomplete
  | b₁ :: _ =>
    if isContinuation b₁ then .char (.ofNat (lead.toNat % 32 * 64 + low b₁)) 2 else .invalid 1

/-- Three bytes, the first of them `lead`, the second between `least` and `greatest`. -/
def decodeThree (lead least greatest : UInt8) : Bytes → Next
  | [] => .incomplete
  | b₁ :: rest =>
    if least ≤ b₁ && b₁ ≤ greatest then
      match rest with
      | [] => .incomplete
      | b₂ :: _ =>
        if isContinuation b₂ then
          .char (.ofNat (lead.toNat % 16 * 4096 + low b₁ * 64 + low b₂)) 3
        else .invalid 2
    else .invalid 1

/-- Four bytes, the first of them `lead`, the second between `least` and `greatest`. -/
def decodeFour (lead least greatest : UInt8) : Bytes → Next
  | [] => .incomplete
  | b₁ :: rest =>
    if least ≤ b₁ && b₁ ≤ greatest then
      match rest with
      | [] => .incomplete
      | b₂ :: rest =>
        if isContinuation b₂ then
          match rest with
          | [] => .incomplete
          | b₃ :: _ =>
            if isContinuation b₃ then
              .char (.ofNat (lead.toNat % 8 * 262144 + low b₁ * 4096 + low b₂ * 64 + low b₃)) 4
            else .invalid 3
        else .invalid 2
    else .invalid 1

/-- Reads the character in front. The bounds on the second byte keep out overlong forms,
surrogates and numbers past the last code point. -/
def decodeNext : Bytes → Next
  | [] => .incomplete
  | b :: rest =>
    if b < 0x80 then .char (.ofNat b.toNat) 1
    else if b < 0xC2 then .invalid 0
    else if b < 0xE0 then decodeTwo b rest
    else if b = 0xE0 then decodeThree b 0xA0 0xBF rest
    else if b = 0xED then decodeThree b 0x80 0x9F rest
    else if b < 0xF0 then decodeThree b 0x80 0xBF rest
    else if b = 0xF0 then decodeFour b 0x90 0xBF rest
    else if b < 0xF4 then decodeFour b 0x80 0xBF rest
    else if b = 0xF4 then decodeFour b 0x80 0x8F rest
    else .invalid 0

/-! ## Reading all -/

/-- The characters of a byte string in order, `none` for each maximal part that is none. -/
def readings : Bytes → List (Option Char)
  | [] => []
  | b :: rest =>
    match decodeNext (b :: rest) with
    | .char c width => some c :: readings (rest.drop (width - 1))
    | .invalid index => none :: readings (rest.drop (index - 1))
    | .incomplete => [none]
  termination_by bytes => bytes.length
  decreasing_by all_goals simp only [List.length_drop, List.length_cons]; omega

/-- The text that the bytes encode, if they encode one. -/
def decode? (bytes : Bytes) : Option String := ((readings bytes).mapM id).map String.ofList

/-- The text of the bytes, with U+FFFD for each undecodable part. -/
def decodeLossy (bytes : Bytes) : String :=
  .ofList ((readings bytes).map (·.getD '\uFFFD'))

/-- How many characters stand before the first undecodable part. -/
def column (bytes : Bytes) : Nat := ((readings bytes).takeWhile Option.isSome).length

/-! ## Where reading fails -/

/-- The first undecodable part of a byte string: its offset, and its length unless the bytes end
inside a character. -/
structure Fault where
  offset : Nat
  length : Option Nat
deriving DecidableEq

namespace Fault

/-- The fault of bytes that stand further back by `n`. -/
def shift (fault : Fault) (n : Nat) : Fault := { fault with offset := fault.offset + n }

def message (fault : Fault) : String :=
  match fault.length with
  | some length => s!"invalid utf-8 sequence of {length} bytes from index {fault.offset}"
  | none => s!"incomplete utf-8 byte sequence from index {fault.offset}"

end Fault

/-- The first undecodable part, if there is one. -/
def fault? : Bytes → Option Fault
  | [] => none
  | b :: rest =>
    match decodeNext (b :: rest) with
    | .char _ width => (fault? (rest.drop (width - 1))).map (·.shift width)
    | .invalid index => some ⟨0, some (max 1 index)⟩
    | .incomplete => some ⟨0, none⟩
  termination_by bytes => bytes.length
  decreasing_by simp only [List.length_drop, List.length_cons]; omega

end Utf8
end TidyTrig
