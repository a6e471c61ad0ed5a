import TidyTrig.Text.Basic
import TidyTrig.Toml.Value

/-!
# TOML scalars

Strings of the four kinds, numbers, times and truth values. A reader takes the characters from its
place on and gives back those that it leaves.
-/

namespace TidyTrig.Toml

def isBlank (c : Char) : Bool := c = ' ' || c = '\t'

/-- What may stand on a line as it is: no control characters but the tab. -/
def isTextChar (c : Char) : Bool := c = '\t' || (0x20 ≤ c.toNat && c.toNat ≠ 0x7F)

/-- What follows a line end. -/
def afterNewline? : List Char → Option (List Char)
  | '\n' :: rest => some rest
  | '\r' :: '\n' :: rest => some rest
  | _ => none

/-! ## Strings -/

/-- The character of an escape after its backslash, and how many characters it takes. -/
def escape? : List Char → Option (Char × Nat)
  | 'b' :: _ => some ('\x08', 1)
  | 't' :: _ => some ('\t', 1)
  | 'n' :: _ => some ('\n', 1)
  | 'f' :: _ => some ('\x0c', 1)
  | 'r' :: _ => some ('\r', 1)
  | '\x22' :: _ => some ('\x22', 1)
  | '\\' :: _ => some ('\\', 1)
  | 'u' :: rest => codePoint? 4 rest
  | 'U' :: rest => codePoint? 8 rest
  | _ => none
where
  codePoint? (width : Nat) (cs : List Char) : Option (Char × Nat) := do
    let digits := cs.take width
    let value ← Hex.value? digits
    if digits.length = width && value.isValidChar then some (.ofNat value, width + 1) else none

/-- The rest of a string in double quotes. -/
def basicText : List Char → Option (List Char × List Char)
  | [] => none
  | c :: rest =>
    if c = '\x22' then some ([], rest)
    else if c = '\\' then do
      let (e, width) ← escape? rest
      let (text, after) ← basicText (rest.drop width)
      some (e :: text, after)
    else if isTextChar c then do
      let (text, after) ← basicText rest
      some (c :: text, after)
    else none
  termination_by cs => cs.length
  decreasing_by all_goals simp only [List.length_drop, List.length_cons]; omega

/-- The rest of a string in single quotes. -/
def literalText : List Char → Option (List Char × List Char)
  | [] => none
  | c :: rest =>
    if c = '\x27' then some ([], rest)
    else if isTextChar c then do
      let (text, after) ← literalText rest
      some (c :: text, after)
    else none

/-- The quotes at the end of a string of several lines: three of them close it, and up to two more
before those belong to the text. -/
def closing? (quote : Char) (cs : List Char) : Option (List Char × List Char) :=
  let run := (cs.takeWhile (· = quote)).length
  if run < 3 then none
  else
    let width := min run 5
    some (List.replicate (width - 3) quote, cs.drop width)

/-- Blanks and line ends that follow a backslash at the end of a line. -/
def dropBlankLines : List Char → List Char
  | '\n' :: rest => dropBlankLines rest
  | '\r' :: '\n' :: rest => dropBlankLines rest
  | c :: rest => if isBlank c then dropBlankLines rest else c :: rest
  | [] => []

theorem length_dropBlankLines_le (cs : List Char) : (dropBlankLines cs).length ≤ cs.length := by
  fun_induction dropBlankLines cs <;> simp_all <;> omega

/-- Whether only blanks follow on a line. -/
def endsLine (cs : List Char) : Bool := (afterNewline? (cs.dropWhile isBlank)).isSome

/-- The rest of a string between triple quotes. A line end is a line feed however it is written. -/
def longText (quote : Char) (hasEscapes : Bool) : List Char → Option (List Char × List Char)
  | [] => none
  | c :: rest =>
    match closing? quote (c :: rest) with
    | some (text, after) => some (text, after)
    | none =>
      if c = '\\' && hasEscapes then
        if endsLine rest then longText quote hasEscapes (dropBlankLines rest)
        else do
          let (e, width) ← escape? rest
          let (text, after) ← longText quote hasEscapes (rest.drop width)
          some (e :: text, after)
      -- A carriage return stands only before a line feed, which alone is kept.
      else if c = '\r' then
        if rest.head? = some '\n' then longText quote hasEscapes rest else none
      else if isTextChar c || c = '\n' then do
        let (text, after) ← longText quote hasEscapes rest
        some (c :: text, after)
      else none
  termination_by cs => cs.length
  decreasing_by
    all_goals
      have := length_dropBlankLines_le rest
      simp only [List.length_drop, List.length_cons]
      omega

/-- A string of any kind. A line end right after triple quotes is not part of it. -/
def string : List Char → Option (List Char × List Char)
  | '\x22' :: '\x22' :: '\x22' :: rest => longText '\x22' true ((afterNewline? rest).getD rest)
  | '\x27' :: '\x27' :: '\x27' :: rest => longText '\x27' false ((afterNewline? rest).getD rest)
  | '\x22' :: rest => basicText rest
  | '\x27' :: rest => literalText rest
  | _ => none

/-! ## Numbers -/

/-- The value of a digit in a radix up to sixteen. -/
def digitIn? (radix : Nat) (c : Char) : Option Nat := (Hex.digit? c).filter (· < radix)

/-- Digits with single underscores between them. -/
def digits? (radix : Nat) (cs : List Char) : Option Nat :=
  let groups := splitAt '_' cs
  if groups.any List.isEmpty then none
  else (groups.flatten.mapM (digitIn? radix)).map fun ds => ds.foldl (fun n d => n * radix + d) 0

/-- A number without sign and without leading zeros. -/
def natural? (cs : List Char) : Option Nat :=
  if cs.head? = some '0' && cs.length ≠ 1 then none else digits? 10 cs

/-- Splits off a sign. -/
def signed (cs : List Char) : Bool × List Char :=
  match cs with
  | '-' :: rest => (true, rest)
  | '+' :: rest => (false, rest)
  | rest => (false, rest)

/-- An integer of 64 bits. Other radixes than ten have no sign. -/
def integer? (cs : List Char) : Option Int := do
  let value : Int ← match cs with
    | '0' :: 'x' :: rest => (digits? 16 rest).map Int.ofNat
    | '0' :: 'o' :: rest => (digits? 8 rest).map Int.ofNat
    | '0' :: 'b' :: rest => (digits? 2 rest).map Int.ofNat
    | cs =>
      let (isNegative, cs) := signed cs
      (natural? cs).map fun n => if isNegative then -Int.ofNat n else Int.ofNat n
  if Int64.minValue.toInt ≤ value && value ≤ Int64.maxValue.toInt then some value else none

/-- The power of ten that an exponent stands for, if it is one or empty. -/
def exponent? : List Char → Option Int
  | [] => some 0
  | _ :: cs =>
    let (isNegative, cs) := signed cs
    (digits? 10 cs).map fun n => if isNegative then -Int.ofNat n else Int.ofNat n

/-- A number without sign that has a fraction or an exponent, as a whole number and the power of
ten that it is multiplied by. -/
def decimal? (cs : List Char) : Option (Nat × Int) := do
  let isExponentMark := fun c => c = 'e' || c = 'E'
  let mantissa := cs.takeWhile (!isExponentMark ·)
  let exponent := cs.dropWhile (!isExponentMark ·)
  let whole := mantissa.takeWhile (· ≠ '.')
  let fraction := mantissa.dropWhile (· ≠ '.')
  if fraction.isEmpty && exponent.isEmpty then none
  else
    let n ← natural? whole
    let f ← if fraction.isEmpty then some 0 else digits? 10 (fraction.drop 1)
    let places := (fraction.drop 1).countP (· ≠ '_')
    some (n * Nat.pow 10 places + f, (← exponent? exponent) - Int.ofNat places)

/-- The least number that no longer rounds to a finite one of 64 bits. -/
def infinityBound : Nat := 0x3FFFFFFFFFFFFF <<< 970

/-- Whether a whole number times a power of ten is too large for 64 bits. Numbers far from the
bound are told by their number of digits. -/
def isInfinite (n : Nat) (power : Int) : Bool :=
  let digits := power + Int.ofNat (Nat.toDigits 10 n).length
  if n = 0 || digits < 300 then false
  else if 320 < digits then true
  else
    match power with
    | .ofNat k => infinityBound ≤ n * Nat.pow 10 k
    | .negSucc k => infinityBound * Nat.pow 10 (k + 1) ≤ n

/-- Whether a text is a number with a fraction or an exponent, or one of the special ones. Of the
numbers that 64 bits cannot hold, those below zero are minus infinity and the others are refused. -/
def isFloat (cs : List Char) : Bool :=
  let (isNegative, cs) := signed cs
  cs = "inf".toList || cs = "nan".toList ||
    match decimal? cs with
    | some (n, power) => isNegative || !isInfinite n power
    | none => false

/-! ## Times -/

/-- A number of exactly this many digits within bounds. -/
def isField (width least greatest : Nat) (cs : List Char) : Bool :=
  cs.length = width && cs.all Char.isDigit &&
    match digits? 10 cs with
    | some n => least ≤ n && n ≤ greatest
    | none => false

/-- The days of a month. -/
def daysIn (year month : Nat) : Nat :=
  if month = 2 then
    if year % 4 = 0 && (year % 100 ≠ 0 || year % 400 = 0) then 29 else 28
  else if month ∈ [4, 6, 9, 11] then 30
  else 31

def isDate (cs : List Char) : Bool :=
  match splitAt '-' cs with
  | [year, month, day] =>
    isField 4 0 9999 year && isField 2 1 12 month
      && isField 2 1 (daysIn ((digits? 10 year).getD 0) ((digits? 10 month).getD 0)) day
  | _ => false

def isTime (cs : List Char) : Bool :=
  let whole := cs.takeWhile (· ≠ '.')
  let fraction := cs.dropWhile (· ≠ '.')
  (fraction.isEmpty || (fraction.length ≠ 1 && (fraction.drop 1).all Char.isDigit)) &&
    match splitAt ':' whole with
    | [hour, minute, second] => isField 2 0 23 hour && isField 2 0 59 minute && isField 2 0 60 second
    | _ => false

/-- A time that may be followed by its distance from universal time. -/
def isTimeWithOffset (cs : List Char) : Bool :=
  let isMark := fun c => c = 'Z' || c = 'z' || c = '+' || c = '-'
  isTime (cs.takeWhile (!isMark ·)) &&
    match cs.dropWhile (!isMark ·) with
    | [] => true
    | mark :: rest =>
      if mark = 'Z' || mark = 'z' then rest.isEmpty
      else
        match splitAt ':' rest with
        | [hour, minute] => isField 2 0 23 hour && isField 2 0 59 minute
        | _ => false

def isDateTime (cs : List Char) : Bool :=
  isDate cs || isTime cs ||
    (isDate (cs.take 10) && (cs.drop 10).head?.any (fun c => c = 'T' || c = 't' || c = ' ')
      && isTimeWithOffset (cs.drop 11))

/-! ## All together -/

def isScalarChar (c : Char) : Bool :=
  c.isAlphanum || c = '+' || c = '-' || c = '.' || c = ':' || c = '_'

/-- The value of a text without quotes. -/
def scalar? (cs : List Char) : Option Value :=
  if cs = "true".toList then some (.boolean true)
  else if cs = "false".toList then some (.boolean false)
  else
    match integer? cs with
    | some n => some (.integer n)
    | none => if isFloat cs || isDateTime cs then some (.other (.ofList cs)) else none

/-- A value without quotes. A date and a time may have a space between them. -/
def scalar (cs : List Char) : Option (Value × List Char) := do
  let word := cs.takeWhile isScalarChar
  let rest := cs.dropWhile isScalarChar
  let time := (rest.drop 1).takeWhile isScalarChar
  if rest.head? = some ' ' && isDate word && isTimeWithOffset time then
    some (.other (.ofList (word ++ ' ' :: time)), (rest.drop 1).dropWhile isScalarChar)
  else
    some (← scalar? word, rest)

end TidyTrig.Toml
