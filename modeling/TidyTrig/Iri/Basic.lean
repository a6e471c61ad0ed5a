import TidyTrig.Text.Basic

/-!
# IRIs

An absolute IRI is held by its components; `Iri.text` writes it. The components are lists of
characters, since reading and resolving take them apart.

The causes for which a text is no IRI are those of `IriError`.
-/

namespace TidyTrig

/-- An absolute IRI. -/
structure Iri where
  scheme : List Char
  authority : Option (List Char)
  path : List Char
  query : Option (List Char)
  fragment : Option (List Char)
deriving DecidableEq

namespace Iri

/-- A component with the mark that introduces it, or nothing. -/
def marked (mark : List Char) : Option (List Char) → List Char
  | some component => mark ++ component
  | none => []

def chars (i : Iri) : List Char :=
  i.scheme ++ ':' :: (marked ['/', '/'] i.authority ++ i.path ++ marked ['?'] i.query
    ++ marked ['#'] i.fragment)

/-- The IRI as it is written. -/
def text (i : Iri) : String := .ofList i.chars

/-! ## Character classes -/

/-- The ASCII characters that stand for themselves in every component. -/
def isPlain (c : Char) : Bool :=
  c.isAlphanum || c ∈ ['!', '$', '&', '\x27', '(', ')', '*', '+', ',', '-', '.', ';', '=', '_', '~']

/-- The characters past ASCII that stand for themselves in every component: all that are no
noncharacters, no private use and no specials. -/
def isInternational (c : Char) : Bool :=
  let n := c.toNat
  (0xA0 ≤ n && n ≤ 0xD7FF) || (0xF900 ≤ n && n ≤ 0xFDCF) || (0xFDF0 ≤ n && n ≤ 0xFFEF)
    || (0x10000 ≤ n && n ≤ 0xDFFFD && n % 0x10000 ≤ 0xFFFD) || (0xE1000 ≤ n && n ≤ 0xEFFFD)

/-- Private use, which a query alone may hold. -/
def isPrivate (c : Char) : Bool :=
  let n := c.toNat
  (0xE000 ≤ n && n ≤ 0xF8FF) || (0xF0000 ≤ n && n ≤ 0xFFFFD) || (0x100000 ≤ n && n ≤ 0x10FFFD)

/-- What stands for itself in a host. -/
def isHostChar (c : Char) : Bool := isPlain c || isInternational c

/-- What stands for itself before the `@` of an authority. -/
def isUserChar (c : Char) : Bool := isHostChar c || c = ':'

/-- What stands for itself in a first segment that could be taken for a scheme. -/
def isFirstSegmentChar (c : Char) : Bool := isHostChar c || c = '@'

/-- What stands for itself in a segment of a path. -/
def isSegmentChar (c : Char) : Bool := isHostChar c || c = ':' || c = '@'

def isPathChar (c : Char) : Bool := isSegmentChar c || c = '/'

def isFragmentChar (c : Char) : Bool := isPathChar c || c = '?'

def isQueryChar (c : Char) : Bool := isFragmentChar c || isPrivate c

def isSchemeChar (c : Char) : Bool := c.isAlphanum || c = '+' || c = '-' || c = '.'

/-- What ends an authority or a first segment. -/
def endsSegment (c : Char) : Bool := c = '/' || c = '?' || c = '#'

/-- What ends a path. -/
def endsPath (c : Char) : Bool := c = '?' || c = '#'

end Iri

/-! ## Errors -/

/-- Why a text is no IRI. -/
inductive IriError where
  | noScheme
  | hostCharacter (c : Char)
  | hostAddress
  | portCharacter (c : Char)
  | codePoint (c : Char)
  /-- The percent sign and the one or two characters found after it, or none. -/
  | percentEncoding (found : List Char)
  /-- Without an authority, two slashes would be read as the start of one. -/
  | doubleSlashPath
deriving DecidableEq

namespace IriError

def message : IriError → String
  | .noScheme => "No scheme found in an absolute IRI"
  | .hostCharacter c => s!"Invalid character '{c}' in host"
  | .hostAddress => "Invalid host IP (invalid IPv6 address syntax)"
  | .portCharacter c => s!"Invalid character '{c}'"
  | .codePoint c => s!"Invalid IRI code point '{c}'"
  | .percentEncoding found => "Invalid IRI percent encoding '" ++ String.ofList found ++ "'"
  | .doubleSlashPath => "An IRI path is not allowed to start with //"

end IriError
end TidyTrig
