import TidyTrig.Text.Utf8

/-!
# Positions in a document

A `Cursor` knows how many lines lie behind it and the bytes since the start of its line. Its
column counts characters, up to the first bytes that are none.

Line feed, carriage return and the two together end a line. Between tokens the reader sees each
line end and says so; a token is passed as a whole by `Cursor.through`.
-/

namespace TidyTrig.Trig

structure Cursor where
  /-- Lines that end before this place. -/
  line : Nat
  /-- The bytes since the start of the line, the latest first. -/
  behind : Bytes
deriving DecidableEq

namespace Cursor

def start : Cursor := ⟨0, []⟩

/-- Passes a byte that ends no line. -/
def pass (c : Cursor) (b : UInt8) : Cursor := { c with behind := b :: c.behind }

/-- Passes a line end. -/
def newLine (c : Cursor) : Cursor := ⟨c.line + 1, []⟩

/-- How many characters of the line lie behind. -/
def column (c : Cursor) : Nat := Utf8.column c.behind.reverse

/-- The line ends of a token and the bytes after the last of them, the latest first. A line feed
right after a carriage return ends no line of its own. -/
def lineEnds (afterReturn : Bool) (count : Nat) (tail : Bytes) : Bytes → Nat × Bytes
  | [] => (count, tail)
  | b :: rest =>
    if b = Utf8.byte '\r' then lineEnds true (count + 1) [] rest
    else if b = Utf8.byte '\n' then
      lineEnds false (if afterReturn then count else count + 1) [] rest
    else lineEnds false count (b :: tail) rest

/-- Passes a token. A line feed as its second byte ends no line, as if its first byte were a
carriage return; and where no line ends, the column goes on. -/
def through (c : Cursor) (token : Bytes) : Cursor :=
  match lineEnds true 0 (token.take 1) (token.drop 1) with
  | (0, _) => { c with behind := token.reverse ++ c.behind }
  | (count + 1, tail) => ⟨c.line + (count + 1), tail⟩

/-- Skips blanks, line ends and comments up to the next token. There is no answer while it is
open whether a carriage return is followed by a line feed or where a comment ends. -/
def skipBlank (ended inComment : Bool) (c : Cursor) : Bytes → Option (Cursor × Bytes)
  | [] => if inComment && !ended then none else some (c, [])
  | b :: rest =>
    if b = Utf8.byte '\n' then skipBlank ended false c.newLine rest
    else if b = Utf8.byte '\r' then
      match rest with
      | [] => if ended then some (c.newLine, []) else none
      | b' :: rest' =>
        if b' = Utf8.byte '\n' then skipBlank ended false c.newLine rest'
        else skipBlank ended false c.newLine (b' :: rest')
    else if inComment || b = Utf8.byte ' ' || b = Utf8.byte '\t' then
      skipBlank ended inComment (c.pass b) rest
    else if b = Utf8.byte '#' then skipBlank ended true (c.pass b) rest
    else some (c, b :: rest)

theorem length_le_of_skipBlank {ended inComment : Bool} {c c' : Cursor} {bytes rest : Bytes}
    (h : skipBlank ended inComment c bytes = some (c', rest)) : rest.length ≤ bytes.length := by
  fun_induction skipBlank ended inComment c bytes <;> simp_all <;> omega

end Cursor
end TidyTrig.Trig
