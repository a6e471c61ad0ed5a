import TidyTrig.Iri.Address
import TidyTrig.Iri.Basic

/-!
# Reading IRIs

`Iri.parse` reads an absolute IRI. Components are read from left to right, so of two faults in a
text the one further left is reported. A text without a scheme is read as a relative reference
first, and reported as lacking a scheme only if nothing else is wrong with it.
-/

namespace TidyTrig.Iri

/-- What was read and what follows it. -/
abbrev Reading := Except IriError (List Char × List Char)

/-- Reads up to a character that ends the component, or to the end of the text. -/
def readUntil (ends allowed : Char → Bool) : List Char → Reading
  | [] => .ok ([], [])
  | c :: rest =>
    if ends c then .ok ([], c :: rest)
    else if allowed c then (readUntil ends allowed rest).map fun (read, rest) => (c :: read, rest)
    else if c = '%' then
      match rest with
      | h :: l :: rest =>
        if Hex.isDigit h && Hex.isDigit l then
          (readUntil ends allowed rest).map fun (read, rest) => ('%' :: h :: l :: read, rest)
        else .error (.percentEncoding ['%', h, l])
      | short => .error (.percentEncoding ('%' :: short))
    else .error (.codePoint c)

/-! ## The authority -/

/-- A version of future addresses: `v`, hexadecimal digits, a dot, and at least one character. -/
def checkFutureAddress (content : List Char) : Except IriError Unit :=
  let rest := content.drop 1
  let after := rest.dropWhile Hex.isDigit
  match after with
  | '.' :: address =>
    if rest.head? = some '.' then .error (.hostCharacter (address.headD ']'))
    else if address.isEmpty then .error (.hostCharacter ']')
    else
      match address.find? fun c => !(isPlain c || c = ':') with
      | some c => .error (.hostCharacter c)
      | none => .ok ()
  | c :: _ => .error (.hostCharacter c)
  | [] => .error (.hostCharacter ']')

/-- The address between brackets. -/
def checkAddress (content : List Char) : Except IriError Unit :=
  match content.head? with
  | some 'v' | some 'V' => checkFutureAddress content
  | _ => if isV6Address content then .ok () else .error .hostAddress

/-- Digits up to the end of the authority. -/
def readPort : List Char → Reading
  | [] => .ok ([], [])
  | c :: rest =>
    if endsSegment c then .ok ([], c :: rest)
    else if c.isDigit then (readPort rest).map fun (read, rest) => (c :: read, rest)
    else .error (.portCharacter c)

/-- The digits after the host, if a colon introduces them. -/
def readPort? (host : List Char) : List Char → Reading
  | ':' :: rest => (readPort rest).map fun (port, rest) => (host ++ ':' :: port, rest)
  | rest => .ok (host, rest)

/-- A host that is an address in brackets; `cs` starts after the opening one. -/
def readBracketed (cs : List Char) : Reading := do
  let content := cs.takeWhile (· ≠ ']')
  match cs.dropWhile (· ≠ ']') with
  | [] => .error (.hostCharacter '[')
  | close :: rest =>
    checkAddress content
    let host := '[' :: content ++ [close]
    match rest with
    | [] => .ok (host, [])
    | c :: _ =>
      if c = ':' || endsSegment c then readPort? host rest else .error (.hostCharacter c)

/-- A host, with the digits that may follow it after a colon. -/
def readHost : List Char → Reading
  | '[' :: rest => readBracketed rest
  | cs => do
    let (name, rest) ← readUntil (fun c => c = ':' || endsSegment c) isHostChar cs
    readPort? name rest

/-- The authority after its two slashes. Up to an `@` it names a user; without one, what was read
so far is read again as a host. -/
def readAuthority (cs : List Char) : Reading := do
  let (user, rest) ← readUntil (fun c => c = '@' || c = '[' || endsSegment c) isUserChar cs
  match rest with
  | '@' :: rest => (readHost rest).map fun (host, rest) => (user ++ '@' :: host, rest)
  | _ => readHost cs

/-! ## Path, query and fragment -/

def readPath (cs : List Char) : Reading := readUntil endsPath isPathChar cs

def readFragment (cs : List Char) : Except IriError (List Char) :=
  (readUntil (fun _ => false) isFragmentChar cs).map (·.1)

/-- The query and the fragment, as far as the text has them. -/
def readSuffix : List Char → Except IriError (Option (List Char) × Option (List Char))
  | '?' :: cs => do
    let (query, rest) ← readUntil (· = '#') isQueryChar cs
    match rest with
    | '#' :: cs => (readFragment cs).map fun fragment => (some query, some fragment)
    | _ => .ok (some query, none)
  | '#' :: cs => (readFragment cs).map fun fragment => (none, some fragment)
  | _ => .ok (none, none)

/-- The path and all after it, given what comes before. -/
def readAfterAuthority (scheme : List Char) (authority : Option (List Char)) (cs : List Char) :
    Except IriError Iri := do
  let (path, rest) ← readPath cs
  let (query, fragment) ← readSuffix rest
  .ok { scheme, authority, path, query, fragment }

/-- All after the colon of the scheme. -/
def readAfterScheme (scheme : List Char) : List Char → Except IriError Iri
  | '/' :: '/' :: cs => do
    let (authority, rest) ← readAuthority cs
    readAfterAuthority scheme (some authority) rest
  | cs => readAfterAuthority scheme none cs

/-! ## Absolute IRIs -/

/-- The scheme, if the text starts with one, and what follows its colon. -/
def scheme? (cs : List Char) : Option (List Char × List Char) :=
  match cs with
  | [] => none
  | first :: _ =>
    if first.isAlpha then
      match cs.dropWhile isSchemeChar with
      | ':' :: rest => some (cs.takeWhile isSchemeChar, rest)
      | _ => none
    else none

/-- Reads a relative reference for its faults alone. -/
def checkRelative : List Char → Except IriError Unit
  | '/' :: '/' :: cs => do
    let (_, rest) ← readAuthority cs
    checkPath rest
  | '/' :: cs => checkPath ('/' :: cs)
  | cs => do
    let (_, rest) ← readUntil endsSegment isFirstSegmentChar cs
    checkPath rest
where
  checkPath (cs : List Char) : Except IriError Unit := do
    let (_, rest) ← readPath cs
    let _ ← readSuffix rest

/-- Reads an absolute IRI. -/
def ofChars (cs : List Char) : Except IriError Iri :=
  match scheme? cs with
  | some (scheme, rest) => readAfterScheme scheme rest
  | none =>
    match cs with
    | ':' :: _ => .error .noScheme
    | _ => do
      checkRelative cs
      .error .noScheme

def parse (text : String) : Except IriError Iri := ofChars text.toList

end TidyTrig.Iri
