import TidyTrig.Text.Basic

/-!
# JSON

Reports for other programs, laid out with two spaces a level.
-/

namespace TidyTrig

inductive Json where
  | null
  | bool (value : Bool)
  | number (value : Nat)
  | string (text : String)
  | array (items : List Json)
  | object (fields : List (String × Json))

namespace Json

/-- A character between quotes. -/
def escaped (c : Char) : List Char :=
  if c = '\x22' then ['\\', '\x22']
  else if c = '\\' then ['\\', '\\']
  else if c = '\x08' then ['\\', 'b']
  else if c = '\x0c' then ['\\', 'f']
  else if c = '\n' then ['\\', 'n']
  else if c = '\r' then ['\\', 'r']
  else if c = '\t' then ['\\', 't']
  else if c.toNat < 0x20 then '\\' :: 'u' :: Hex.pad 4 (Hex.lower c.toNat)
  else [c]

def quoted (text : String) : String :=
  .ofList ('\x22' :: text.toList.flatMap escaped ++ ['\x22'])

/-- A line break and the indentation of a level. -/
def newLine (level : Nat) : String := .ofList ('\n' :: List.replicate (2 * level) ' ')

/-- Parts on lines of their own between brackets. -/
def enclosed (left right : String) (level : Nat) (parts : List String) : String :=
  if parts.isEmpty then left ++ right
  else
    left ++ newLine (level + 1) ++ String.intercalate ("," ++ newLine (level + 1)) parts
      ++ newLine level ++ right

mutual

/-- A value at a level of indentation. -/
def render (level : Nat) : Json → String
  | .null => "null"
  | .bool true => "true"
  | .bool false => "false"
  | .number n => toString n
  | .string text => quoted text
  | .array items => enclosed "[" "]" level (renderItems (level + 1) items)
  | .object fields => enclosed "\x7b" "\x7d" level (renderFields (level + 1) fields)

def renderItems (level : Nat) : List Json → List String
  | [] => []
  | item :: rest => item.render level :: renderItems level rest

def renderFields (level : Nat) : List (String × Json) → List String
  | [] => []
  | (name, value) :: rest =>
    (quoted name ++ ": " ++ value.render level) :: renderFields level rest

end

end Json
end TidyTrig
