import TidyTrig.Text.Basic

/-!
# Addresses in brackets

The host of an IRI may be an IP address in brackets. `isV6Address` is the text form of an IPv6
address: eight groups of one to four hexadecimal digits, of which `::` may stand for one or more
zero groups once, and of which the last two may be written as an IPv4 address.
-/

namespace TidyTrig.Iri

/-- A part of an address after a separator; the first part of all has none. -/
def afterSeparator (separator : Char) (isFirst : Bool) (cs : List Char) : Option (List Char) :=
  if isFirst then some cs
  else
    match cs with
    | c :: rest => if c = separator then some rest else none
    | [] => none

/-- What follows a group of one to four hexadecimal digits. -/
def afterGroup? (cs : List Char) : Option (List Char) :=
  let digits := cs.takeWhile Hex.isDigit
  if 1 ≤ digits.length && digits.length ≤ 4 then some (cs.dropWhile Hex.isDigit) else none

/-- What follows a number up to 255 that has no leading zero. -/
def afterOctet? (cs : List Char) : Option (List Char) :=
  let digits := cs.takeWhile Char.isDigit
  let value := digits.foldl (fun n d => n * 10 + (d.toNat - 48)) 0
  if 1 ≤ digits.length && digits.length ≤ 3 && value ≤ 255
      && (digits.length = 1 || digits.head? ≠ some '0') then
    some (cs.dropWhile Char.isDigit)
  else none

/-- What follows an IPv4 address. -/
def afterV4Address? (cs : List Char) : Option (List Char) := do
  let cs ← afterOctet? cs
  let cs ← afterOctet? (← afterSeparator '.' false cs)
  let cs ← afterOctet? (← afterSeparator '.' false cs)
  afterOctet? (← afterSeparator '.' false cs)

/-- The groups in front of an address: how many, whether they end in an IPv4 address, and what
follows them. An IPv4 address takes the place of two groups. -/
def groups (isFirst : Bool) : Nat → List Char → Nat × Bool × List Char
  | 0, cs => (0, false, cs)
  | room + 1, cs =>
    -- An IPv4 address needs room for two groups.
    let embedded :=
      if 1 ≤ room then (afterSeparator ':' isFirst cs).bind afterV4Address? else none
    match embedded with
    | some rest => (2, true, rest)
    | none =>
      match (afterSeparator ':' isFirst cs).bind afterGroup? with
      | some rest =>
        let (count, hasV4, rest) := groups false room rest
        (count + 1, hasV4, rest)
      | none => (0, false, cs)

/-- Whether a text is an IPv6 address. -/
def isV6Address (cs : List Char) : Bool :=
  match groups true 8 cs with
  | (count, hasV4, rest) =>
    if count = 8 then rest.isEmpty
    else if hasV4 then false
    else
      match rest with
      | ':' :: ':' :: rest => (groups true (7 - count) rest).2.2.isEmpty
      | _ => false

end TidyTrig.Iri
