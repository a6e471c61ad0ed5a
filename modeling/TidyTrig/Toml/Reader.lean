import TidyTrig.Toml.Scalar

/-!
# Reading TOML

`read?` reads a configuration file line by line: headers open tables, and keys with values add to
the table opened last.
-/

namespace TidyTrig.Toml

/-! ## Blanks and keys -/

def dropBlanks (cs : List Char) : List Char := cs.dropWhile isBlank

/-- What follows blanks, comments and line ends, which an array may have between its parts. -/
def dropLines (inComment : Bool) : List Char → Option (List Char)
  | [] => some []
  | c :: rest =>
    if c = '\n' then dropLines false rest
    else if c = '\r' then if rest.head? = some '\n' then dropLines inComment rest else none
    else if inComment then if isTextChar c then dropLines true rest else none
    else if isBlank c then dropLines false rest
    else if c = '#' then dropLines true rest
    else some (c :: rest)

/-- What follows the end of a line, with a comment before it or without. -/
def afterLine? (cs : List Char) : Option (List Char) :=
  let rest := match dropBlanks cs with
    | '#' :: rest => rest.dropWhile isTextChar
    | rest => rest
  if rest.isEmpty then some [] else afterNewline? rest

def isKeyChar (c : Char) : Bool := c.isAlphanum || c = '_' || c = '-'

/-- One part of a key. -/
def simpleKey (cs : List Char) : Option (String × List Char) :=
  match cs with
  | '\x22' :: rest => (basicText rest).map fun (key, rest) => (.ofList key, rest)
  | '\x27' :: rest => (literalText rest).map fun (key, rest) => (.ofList key, rest)
  | cs =>
    let key := cs.takeWhile isKeyChar
    if key.isEmpty then none else some (.ofList key, cs.dropWhile isKeyChar)

/-- How many parts a key may have. -/
def mostKeyParts : Nat := 79

/-- A key of up to `room` parts with dots between them. -/
def dottedKey (room : Nat) (cs : List Char) : Option (List String × List Char) :=
  match room with
  | 0 => none
  | room + 1 => do
    let (key, rest) ← simpleKey (dropBlanks cs)
    match dropBlanks rest with
    | '.' :: rest =>
      let (keys, rest) ← dottedKey room rest
      some (key :: keys, rest)
    | rest => some ([key], rest)

/-- The path to a key and the key. -/
def key (cs : List Char) : Option ((List String × String) × List Char) := do
  let (keys, rest) ← dottedKey mostKeyParts cs
  some ((keys.dropLast, ← keys.getLast?), rest)

/-! ## Values -/

/-- How deep arrays and tables in braces may stand inside one another. -/
def mostNesting : Nat := 79

mutual

/-- A value of up to `room` parts, which may nest `nesting` deep. -/
def value (room nesting : Nat) (cs : List Char) : Option (Value × List Char) :=
  match room with
  | 0 => none
  | room + 1 =>
    match cs, nesting with
    | '\x22' :: _, _ | '\x27' :: _, _ =>
      (string cs).map fun (text, rest) => (.string (.ofList text), rest)
    | '[' :: _, 0 | '\x7b' :: _, 0 => none
    | '[' :: rest, nesting + 1 =>
      (arrayItems room nesting rest).map fun (items, rest) => (.array items, rest)
    | '\x7b' :: rest, nesting + 1 =>
      match dropBlanks rest with
      | '\x7d' :: rest => some (.table .braces [], rest)
      | rest =>
        (pairs room nesting [] rest).map fun (entries, rest) => (.table .braces entries, rest)
    | cs, _ => scalar cs

/-- The rest of an array after its bracket or a comma. -/
def arrayItems (room nesting : Nat) (cs : List Char) : Option (List Value × List Char) :=
  match room with
  | 0 => none
  | room + 1 => do
    match ← dropLines false cs with
    | ']' :: rest => some ([], rest)
    | cs =>
      let (item, rest) ← value room nesting cs
      match ← dropLines false rest with
      | ',' :: rest =>
        let (items, rest) ← arrayItems room nesting rest
        some (item :: items, rest)
      | ']' :: rest => some ([item], rest)
      | _ => none

/-- The rest of a table in braces after its brace or a comma. -/
def pairs (room nesting : Nat) (entries : Entries) (cs : List Char) :
    Option (Entries × List Char) :=
  match room with
  | 0 => none
  | room + 1 => do
    let ((path, name), rest) ← key cs
    match rest with
    | '=' :: rest =>
      let (v, rest) ← value room nesting (dropBlanks rest)
      let entries ← entries.addKey path name v .header
      match dropBlanks rest with
      | ',' :: rest => pairs room nesting entries rest
      | '\x7d' :: rest => some (entries, rest)
      | _ => none
    | _ => none

end

/-! ## Lines -/

/-- A file while it is read: its entries, and the table opened last. -/
structure Draft where
  entries : Entries
  path : List String

/-- Adds a key to the table opened last. -/
def Draft.addKey (d : Draft) (path : List String) (name : String) (v : Value) : Option Draft := do
  let entries ← d.entries.modifyAt (fun origin inner => inner.addKey path name v origin)
    false .header d.path
  some { d with entries }

/-- The line with a header, after its first bracket. -/
def header (d : Draft) (cs : List Char) : Option (Draft × List Char) :=
  match cs with
  | '[' :: rest => do
    let ((path, name), rest) ← key rest
    match rest with
    | ']' :: ']' :: rest => some (⟨← d.entries.openItem path name, path ++ [name]⟩, rest)
    | _ => none
  | rest => do
    let ((path, name), rest) ← key rest
    match rest with
    | ']' :: rest => some (⟨← d.entries.openTable path name, path ++ [name]⟩, rest)
    | _ => none

/-- The line with a key and its value. -/
def pair (d : Draft) (cs : List Char) : Option (Draft × List Char) := do
  let ((path, name), rest) ← key cs
  match rest with
  | '=' :: rest =>
    let rest := dropBlanks rest
    let (v, rest) ← value (2 * rest.length + 2) mostNesting rest
    some (← d.addKey path name v, rest)
  | _ => none

/-- Up to `room` lines. -/
def lines (room : Nat) (d : Draft) (cs : List Char) : Option Draft :=
  match room with
  | 0 => none
  | room + 1 =>
    match dropBlanks cs with
    | [] => some d
    | '#' :: rest => do lines room d (← afterLine? ('#' :: rest))
    | '\n' :: rest => lines room d rest
    | '\r' :: rest => do lines room d (← afterNewline? ('\r' :: rest))
    | '[' :: rest => do
      let (d, rest) ← header d rest
      lines room d (← afterLine? rest)
    | cs => do
      let (d, rest) ← pair d cs
      lines room d (← afterLine? rest)

/-- The table of a whole file, unless the file breaks the rules. -/
def read? (text : String) : Option Entries :=
  let cs := match text.toList with
    | '\uFEFF' :: rest => rest
    | cs => cs
  (lines (cs.length + 1) ⟨[], []⟩ cs).map (·.entries)

end TidyTrig.Toml
