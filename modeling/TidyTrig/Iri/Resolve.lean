import TidyTrig.Iri.Reading

/-!
# Resolving references

A reference is read against a base IRI: `base.resolve text` takes from the base what the text
leaves out. Where a path is taken over or continued, the segments `.` and `..` are removed while
it is read; the path of a text that brings its own scheme or authority stays as written.
-/

namespace TidyTrig.Iri

/-- Cuts a path after its last slash. A path without one is emptied, or is a single slash after
an authority. The path is given from its end. -/
def parentPath (hasAuthority : Bool) (reversed : List Char) : List Char :=
  match reversed.dropWhile (· ≠ '/') with
  | [] => if hasAuthority then ['/'] else []
  | cut => cut

/-- Removes the last segment if it is `.`, and with it the one before if it is `..`. The path is
given from its end. -/
def removeDotSegment? (hasAuthority : Bool) : List Char → Option (List Char)
  | '.' :: '.' :: '/' :: path => some (parentPath hasAuthority path)
  | '.' :: '/' :: path => some ('/' :: path)
  | ['.'] => some []
  | ['.', '.'] => some []
  | _ => none

/-- Without an authority, a path must not start with two slashes. -/
def checkSlashes (hasAuthority : Bool) (reversed : List Char) : Except IriError (List Char) :=
  if !hasAuthority && reversed.reverse.take 2 = ['/', '/'] then .error .doubleSlashPath
  else .ok reversed

/-- Closes a segment of a path: dot segments go with the slash that ended them, others keep it.
Two slashes at the start are let be while a segment is kept, since `..` may still remove one. -/
def closeSegment (hasAuthority atSlash : Bool) (reversed : List Char) :
    Except IriError (List Char) :=
  match removeDotSegment? hasAuthority reversed with
  | some path => checkSlashes hasAuthority path
  | none => if atSlash then .ok ('/' :: reversed) else checkSlashes hasAuthority reversed

/-- Continues the path `reversed`, given from its end, without dot segments. The result is given
from its end too. -/
def readDotPath (hasAuthority : Bool) (reversed : List Char) : List Char → Reading
  | [] => (closeSegment hasAuthority false reversed).map fun path => (path, [])
  | c :: rest =>
    if c = '/' then
      match closeSegment hasAuthority true reversed with
      | .ok path => readDotPath hasAuthority path rest
      | .error e => .error e
    else if endsPath c then
      (closeSegment hasAuthority false reversed).map fun path => (path, c :: rest)
    else if isSegmentChar c then readDotPath hasAuthority (c :: reversed) rest
    else if c = '%' then
      match rest with
      | h :: l :: rest =>
        if Hex.isDigit h && Hex.isDigit l then
          readDotPath hasAuthority (l :: h :: '%' :: reversed) rest
        else .error (.percentEncoding ['%', h, l])
      | short => .error (.percentEncoding ('%' :: short))
    else .error (.codePoint c)

/-- Takes scheme and authority from the base and goes on from the path `reversed`. -/
def continuePath (base : Iri) (reversed cs : List Char) : Except IriError Iri := do
  let (path, rest) ← readDotPath base.authority.isSome reversed cs
  let (query, fragment) ← readSuffix rest
  .ok { base with path := path.reverse, query, fragment }

/-- Reads a reference without a scheme. -/
def resolveRelative (base : Iri) : List Char → Except IriError Iri
  | [] => .ok { base with fragment := none }
  | '/' :: '/' :: cs => readAfterScheme base.scheme ('/' :: '/' :: cs)
  | '/' :: cs => continuePath base ['/'] cs
  | '?' :: cs => do
    let (query, fragment) ← readSuffix ('?' :: cs)
    .ok { base with query, fragment }
  | '#' :: cs => do
    let (_, fragment) ← readSuffix ('#' :: cs)
    .ok { base with fragment }
  | cs => do
    let (segment, rest) ← readUntil endsSegment isFirstSegmentChar cs
    let directory := parentPath base.authority.isSome base.path.reverse
    continuePath base (segment.reverse ++ directory) rest

/-- Reads an absolute IRI, or a reference relative to `base`. -/
def resolveChars (base : Iri) (cs : List Char) : Except IriError Iri :=
  match scheme? cs with
  | some (scheme, rest) => readAfterScheme scheme rest
  | none =>
    match cs with
    | ':' :: _ => .error .noScheme
    | _ => resolveRelative base cs

def resolve (base : Iri) (text : String) : Except IriError Iri := resolveChars base text.toList

end TidyTrig.Iri
