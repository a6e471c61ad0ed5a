import TidyTrig.Trig.Token

/-!
# Names and labels

Prefixed names, keywords, variables and blank node labels. They have no closing mark: each ends
before the first character that cannot be part of it. A dot may stand inside a name but not at
its end, so the dots at the end are given back.
-/

namespace TidyTrig.Trig

open Utf8 (byte)

/-- The dots at the end of a name that is given from its end. -/
def trailingDots (reversed : List Char) : Nat := (reversed.takeWhile (· = '.')).length

/-! ## Characters

Which characters may stand in prefix names, local names and blank node labels, by their code
points. `isNameStart` ⊆ `isLabelStart` ⊆ `isNameChar`.
-/

/-- What may start a prefix name. -/
def isNameStart (c : Char) : Bool :=
  let n := c.toNat
  c.isAlpha || (0xC0 ≤ n && n ≤ 0xD6) || (0xD8 ≤ n && n ≤ 0xF6) || (0xF8 ≤ n && n ≤ 0x2FF)
    || (0x370 ≤ n && n ≤ 0x37D) || (0x37F ≤ n && n ≤ 0x1FFF) || (0x200C ≤ n && n ≤ 0x200D)
    || (0x2070 ≤ n && n ≤ 0x218F) || (0x2C00 ≤ n && n ≤ 0x2FEF) || (0x3001 ≤ n && n ≤ 0xD7FF)
    || (0xF900 ≤ n && n ≤ 0xFDCF) || (0xFDF0 ≤ n && n ≤ 0xFFFD) || (0x10000 ≤ n && n ≤ 0xEFFFF)

/-- What may start a local name or a label, digits apart. -/
def isLabelStart (c : Char) : Bool := isNameStart c || c = '_'

/-- What may stand in a name after its start, dots apart. -/
def isNameChar (c : Char) : Bool :=
  let n := c.toNat
  isLabelStart c || c = '-' || c.isDigit || n = 0xB7 || (0x300 ≤ n && n ≤ 0x36F)
    || (0x203F ≤ n && n ≤ 0x2040)

/-- A character of names that an IRI may not hold as it is. -/
def isDoubtfulInIri (c : Char) : Bool :=
  let n := c.toNat
  (0xFFF0 ≤ n && n ≤ 0xFFFD) || n % 0xFFFE = 0 || n % 0xFFFF = 0

/-! ## Blank node labels -/

/-- A blank node label after `_:`. `read` is the label so far, the latest first; `size` counts the
bytes of the token so far. Two dots in a row end a label before them. -/
def scanLabel (read : List Char) (size : Nat) : Bytes → Scan Token
  | [] => .wait
  | b :: rest =>
    let withoutDot := if read.head? = some '.' then 1 else 0
    let ended := Scan.found (.blank (.ofList (read.drop withoutDot).reverse)) (size - withoutDot)
    match Utf8.decodeNext (b :: rest) with
    | .incomplete => .wait
    | .invalid index => .fault .character size (size + index + 1)
    | .char c width =>
      if read.isEmpty then
        if isLabelStart c || c.isDigit then scanLabel [c] (size + width) (rest.drop (width - 1))
        else .fault .emptyLabel 0 size
      else if isNameChar c || (c = '.' && withoutDot = 0) then
        scanLabel (c :: read) (size + width) (rest.drop (width - 1))
      else ended
  termination_by bytes => bytes.length
  decreasing_by all_goals simp only [List.length_drop, List.length_cons]; omega

/-! ## Local names -/

/-- What follows the colon of a prefixed name. -/
structure LocalName where
  text : String
  /-- Whether a prefix with this name may stand for something that is no IRI. -/
  isDoubtful : Bool

/-- A local name while it is read. -/
structure LocalName.Draft where
  /-- The name so far, the latest first, with escapes replaced. -/
  read : List Char
  /-- The name up to its last escape, if it has one. -/
  escapedPart : Option (List Char)
  /-- How many of the latest are dots without a backslash. -/
  dots : Nat
  isDoubtful : Bool
  size : Nat

namespace LocalName.Draft

def empty : Draft := ⟨[], none, 0, false, 0⟩

/-- Adds characters that take `width` bytes. -/
def add (d : Draft) (chars : List Char) (isDoubtful : Bool) (width : Nat) : Draft :=
  { d with
    read := chars.reverse ++ d.read, dots := 0, isDoubtful := d.isDoubtful || isDoubtful,
    size := d.size + width }

/-- Adds the character that an escape of two bytes stands for. -/
def addEscape (d : Draft) (c : Char) (isDoubtful : Bool) : Draft :=
  { d.add [c] isDoubtful 2 with escapedPart := some (c :: d.read) }

def addDot (d : Draft) : Draft :=
  { d with read := '.' :: d.read, dots := d.dots + 1, size := d.size + 1 }

/-- The name, of which a character follows that cannot be part of it. Dots at its end are given
back. -/
def close (d : Draft) : Scan LocalName :=
  .found ⟨.ofList (d.read.drop d.dots).reverse, d.isDoubtful⟩ (d.size - d.dots)

/-- The name at the end of the document. If it has escapes, it ends with the last of them: what
follows is passed over. Dots at its end go, even those of escapes, and a byte is given back for
each. -/
def closeAtEnd (d : Draft) : Scan LocalName :=
  let name := d.escapedPart.getD d.read
  let dots := trailingDots name
  .found ⟨.ofList (name.drop dots).reverse, d.isDoubtful⟩ (d.size - dots)

end LocalName.Draft

/-- What a backslash may stand before in a local name. -/
def isEscapable (c : Char) : Bool :=
  c ∈ ['_', '~', '.', '-', '!', '$', '&', '\x27', '(', ')', '*', '+', ',', ';', '=']

/-- What a backslash may stand before though it may spoil an IRI. -/
def isDoubtfulEscape (c : Char) : Bool := c ∈ ['/', '?', '#', '@', '%']

/-- A local name. -/
def scanLocal (ended : Bool) (draft : LocalName.Draft) : Bytes → Scan LocalName
  | [] => if ended then draft.closeAtEnd else .wait
  | b :: rest =>
    if b = byte '%' then
      match rest with
      | h :: l :: rest =>
        let digits := [Char.ofNat h.toNat, Char.ofNat l.toNat]
        if digits.all Hex.isDigit then scanLocal ended (draft.add ('%' :: digits) false 3) rest
        else .fault (.namePercent h l) draft.size (draft.size + 3)
      | _ => .wait
    else if b = byte '\\' then
      match rest with
      | e :: rest =>
        let c := Char.ofNat e.toNat
        if isEscapable c then scanLocal ended (draft.addEscape c false) rest
        else if isDoubtfulEscape c then scanLocal ended (draft.addEscape c true) rest
        else .fault (.nameEscape e) (draft.size + 1) (draft.size + 2)
      | [] => .wait
    else
      match Utf8.decodeNext (b :: rest) with
      | .incomplete => if ended then draft.closeAtEnd else .wait
      | .invalid index => .fault .character draft.size (draft.size + index + 1)
      | .char c width =>
        -- Hyphens, dots and combining marks stand only after the first character.
        if c = ':' || (if draft.size = 0 then isLabelStart c || c.isDigit else isNameChar c) then
          scanLocal ended (draft.add [c] (c = ':' || isDoubtfulInIri c) width)
            (rest.drop (width - 1))
        else if c = '.' && draft.size ≠ 0 then scanLocal ended draft.addDot (rest.drop (width - 1))
        else draft.close
  termination_by bytes => bytes.length
  decreasing_by all_goals simp only [List.length_drop, List.length_cons]; omega

/-- A variable after its question mark. A fault in its name is located as if the name stood
alone. -/
def scanVariable (ended : Bool) (bytes : Bytes) : Scan Token :=
  match scanLocal ended .empty bytes with
  | .wait => .wait
  | .fault cause offset size => .fault cause offset (1 + size)
  | .found name size =>
    if name.text.isEmpty then .fault .emptyVariable 0 (1 + size)
    else .found (.variable name.text) (1 + size)

/-! ## Prefixed names and keywords -/

/-- What was read is a keyword. -/
def closeKeyword (read : List Char) (size : Nat) : Scan Token :=
  let dots := trailingDots read
  .found (.keyword (.ofList (read.drop dots).reverse)) (size - dots)

/-- What follows the colon of a prefix name. A fault in the local part is located as if that part
stood alone. -/
def scanAfterColon (ended : Bool) (space : List Char) (size : Nat) (bytes : Bytes) : Scan Token :=
  if space.getLast? = some '.' then .fault (.nameEnd (.ofList space)) 0 size
  else
    match scanLocal ended .empty bytes with
    | .wait => .wait
    | .fault cause offset more => .fault cause offset (size + more)
    | .found name more => .found (.name (.ofList space) name.text name.isDoubtful) (size + more)

/-- A prefixed name, or a keyword if no colon comes. `read` is what was read so far, the latest
first, and `size` its bytes. -/
def scanName (ended : Bool) (read : List Char) (size : Nat) : Bytes → Scan Token
  | [] => if ended then closeKeyword read size else .wait
  | b :: rest =>
    match Utf8.decodeNext (b :: rest) with
    | .incomplete =>
      if !ended then .wait
      else if read.isEmpty then .fault (.unexpectedByte b) 0 1
      else closeKeyword read size
    | .invalid index => .fault .character size (size + index + 1)
    | .char c width =>
      if c = ':' then scanAfterColon ended read.reverse (size + 1) rest
      else if read.isEmpty then
        if isNameStart c then scanName ended [c] width (rest.drop (width - 1))
        else .fault (.nameStart c) 0 width
      else if isNameChar c || c = '.' then
        scanName ended (c :: read) (size + width) (rest.drop (width - 1))
      else closeKeyword read size
  termination_by bytes => bytes.length
  decreasing_by all_goals simp only [List.length_drop, List.length_cons]; omega

end TidyTrig.Trig
