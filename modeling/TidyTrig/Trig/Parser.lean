import TidyTrig.Trig.Cursor
import TidyTrig.Trig.Recognition
import TidyTrig.Trig.Scan

/-!
# The parser

A `Parser` is given the document in pieces. After each piece `drain` yields all that follows from
the bytes so far: statements, and problems with their places. A token that later bytes could
change is left for the next piece; `close` says that there is none.

Of one token, problems come before statements, and of each the latest first.
-/

namespace TidyTrig.Trig

structure Parser where
  /-- The bytes that were given and not read. -/
  unread : Bytes
  cursor : Cursor
  recognition : Recognition
deriving DecidableEq

namespace Parser

def start (base : Option Iri) : Parser := ⟨[], .start, .start base⟩

/-- Gives the next piece of the document. -/
def feed (p : Parser) (bytes : Bytes) : Parser := { p with unread := p.unread ++ bytes }

/-- The namespace that a prefix name stands for. -/
def space? (p : Parser) (name : String) : Option Iri := p.recognition.space? name

/-- An error at a place. -/
def problemAt (cursor : Cursor) (message : String) : Event :=
  .problem ⟨.error, message, cursor.line + 1, cursor.column⟩

/-- What the recognition reports and completes, located at `cursor` and about `token`. -/
def report (cursor : Cursor) (token : Bytes) (r : Recognition) : List Event :=
  r.faults.map (fun fault => problemAt cursor (fault.message (Utf8.decodeLossy token)))
    ++ r.statements.map .statement

/-- Reads the token that starts with the byte `b`. -/
def readToken (labels : Nat → String) (ended : Bool) (p : Parser) (b : UInt8) (rest : Bytes) :
    Option (List Event × Parser) :=
  match scan p.recognition.base ended b rest with
  | .wait =>
    if ended then
      let event := problemAt p.cursor Token.Fault.unexpectedEnd.message
      some ([event], ⟨[], p.cursor.through (b :: rest), p.recognition.abandon⟩)
    else none
  | .fault cause offset size =>
    let token := (b :: rest).take size
    let event := problemAt (p.cursor.through ((b :: rest).take offset)) cause.message
    some ([event], ⟨rest.drop (size - 1), p.cursor.through token, p.recognition.abandon⟩)
  | .found t size =>
    let token := (b :: rest).take size
    let r := p.recognition.accept labels t
    some (report p.cursor token r, ⟨rest.drop (size - 1), p.cursor.through token, r.cleared⟩)

/-- Reads one token, if the bytes so far hold one. -/
def next? (labels : Nat → String) (ended : Bool) (p : Parser) : Option (List Event × Parser) :=
  match p.cursor.skipBlank ended false p.unread with
  | some (cursor, b :: rest) => { p with cursor }.readToken labels ended b rest
  | _ => none

theorem length_lt_of_readToken {labels : Nat → String} {ended : Bool} {p p' : Parser} {b : UInt8}
    {rest : Bytes} {events : List Event}
    (h : p.readToken labels ended b rest = some (events, p')) :
    p'.unread.length < rest.length + 1 := by
  unfold readToken at h
  split at h
  · split at h
    · simp only [Option.some.injEq, Prod.mk.injEq] at h
      simp [← h.2]
    · cases h
  all_goals
    simp only [Option.some.injEq, Prod.mk.injEq] at h
    simp only [← h.2, List.length_drop]
    omega

theorem length_lt_of_next? {labels : Nat → String} {ended : Bool} {p p' : Parser}
    {events : List Event} (h : p.next? labels ended = some (events, p')) :
    p'.unread.length < p.unread.length := by
  unfold next? at h
  split at h
  · next cursor b rest hskip =>
    have := Cursor.length_le_of_skipBlank hskip
    have := length_lt_of_readToken h
    simp only [List.length_cons] at *
    omega
  · cases h

/-- Reads all tokens that the bytes so far hold. -/
def drain (labels : Nat → String) (ended : Bool) (p : Parser) : List Event × Parser :=
  match _h : p.next? labels ended with
  | none => ([], p)
  | some (events, p') =>
    let (later, p'') := drain labels ended p'
    (events ++ later, p'')
  termination_by p.unread.length
  decreasing_by exact length_lt_of_next? _h

/-- Reads what is left when the document has ended. -/
def close (labels : Nat → String) (p : Parser) : List Event :=
  let (events, p) := p.drain labels true
  -- Only blanks are left, and what is wrong with the whole lies behind them.
  match p.cursor.skipBlank true false p.unread with
  | some (cursor, _) => events ++ report cursor [] p.recognition.close
  | none => events

end Parser
end TidyTrig.Trig
