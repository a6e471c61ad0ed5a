/-!
# Words and digits

What is read from and written into texts character by character:

* `lowercase`, which changes ASCII letters alone;
* `splitAt` and `replaceWord`, which cut a list at each separator and put one word for another;
* numbers in base sixteen, as escapes and diagnostics spell them.
-/

namespace TidyTrig

/-- A text with its ASCII letters in lower case. -/
def lowercase (text : String) : String := .ofList (text.toList.map Char.toLower)

/-! ## Splitting and replacing -/

/-- The parts between separators, one more than there are separators. -/
def splitAt {α : Type} [DecidableEq α] (separator : α) : List α → List (List α)
  | [] => [[]]
  | a :: rest =>
    if a = separator then [] :: splitAt separator rest
    else
      match splitAt separator rest with
      | [] => [[a]]
      | part :: parts => (a :: part) :: parts

/-- Replaces each occurrence of `word`, from left to right and none within what was put in. -/
def replaceWord (word replacement : List Char) : List Char → List Char
  | [] => []
  | c :: rest =>
    match dropWord? word (c :: rest) with
    | some after =>
      if after.length < (c :: rest).length then replacement ++ replaceWord word replacement after
      else c :: replaceWord word replacement rest
    | none => c :: replaceWord word replacement rest
  termination_by cs => cs.length
  decreasing_by all_goals simp only [List.length_cons] at *; omega
where
  /-- What follows `word` at the start of a text. -/
  dropWord? : List Char → List Char → Option (List Char)
    | [], rest => some rest
    | _ :: _, [] => none
    | w :: word, c :: rest => if w = c then dropWord? word rest else none

/-! ## Hexadecimal digits -/

namespace Hex

/-- The value of a digit in either case. -/
def digit? (c : Char) : Option Nat :=
  if '0' ≤ c && c ≤ '9' then some (c.toNat - 48)
  else if 'a' ≤ c && c ≤ 'f' then some (c.toNat - 87)
  else if 'A' ≤ c && c ≤ 'F' then some (c.toNat - 55)
  else none

def isDigit (c : Char) : Bool := (digit? c).isSome

/-- The value of a row of digits, if all of them are digits. -/
def value? (digits : List Char) : Option Nat :=
  (digits.mapM digit?).map fun values => values.foldl (fun n d => n * 16 + d) 0

/-- A number in lower case without leading zeros. -/
def lower (n : Nat) : List Char := Nat.toDigits 16 n

/-- A number in upper case without leading zeros. -/
def upper (n : Nat) : List Char := (lower n).map Char.toUpper

/-- Puts zeros in front up to `width` digits. -/
def pad (width : Nat) (digits : List Char) : List Char :=
  List.replicate (width - digits.length) '0' ++ digits

end Hex
end TidyTrig
