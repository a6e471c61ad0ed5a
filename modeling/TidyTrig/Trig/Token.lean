import TidyTrig.Iri.Basic
import TidyTrig.LanguageTag
import TidyTrig.Text.Basic
import TidyTrig.Text.Utf8

/-!
# Tokens

The words of a document, the reasons why some bytes are no word, and the answer `Scan` of a
scanner that looks at bytes of which more may follow.
-/

namespace TidyTrig.Trig

/-- Marks that stand for themselves. The grammar has no use for some of them, but they are no part
of any other word. -/
inductive Mark where
  | dot | comma | semicolon | bang
  | openParen | closeParen | openBracket | closeBracket | openBrace | closeBrace
  | openBraceBar | closeBraceBar | bar
  | less2 | greater | greater2 | caret | caret2 | equal | arrow
deriving DecidableEq

inductive Token where
  /-- An IRI in angle brackets, resolved against the base. -/
  | iri (iri : Iri)
  /-- A prefix name and what follows its colon. The last field tells whether the IRI that it
  stands for may turn out to be none. -/
  | name (space localPart : String) (isDoubtful : Bool)
  | blank (label : String)
  | string (value : String)
  | language (tag : String)
  | integer (text : String)
  | decimal (text : String)
  | double (text : String)
  | variable (name : String)
  | keyword (word : String)
  | mark (mark : Mark)
deriving DecidableEq

namespace Token

/-- Why some bytes are no token. -/
inductive Fault where
  | unexpectedEnd
  | unexpectedCharacter (byte : UInt8)
  | unexpectedByte (byte : UInt8)
  | character
  | text (fault : Utf8.Fault)
  | iri (error : IriError)
  | escape (byte : UInt8)
  | escapeDigits (letter : Char) (digits : String)
  | escapeValue (letter : Char) (digits : String) (value : Nat)
  | lineEndInString
  | languageStart
  | language (fault : LanguageTag.Fault)
  | emptyExponent
  | emptyDouble
  | emptyInteger
  | emptyLabel
  | emptyVariable
  | nameStart (c : Char)
  | nameEnd (space : String)
  | namePercent (first second : UInt8)
  | nameEscape (byte : UInt8)
deriving DecidableEq

/-- A byte as a character of the first 256 code points. -/
def latin (b : UInt8) : String := String.singleton (Char.ofNat b.toNat)

namespace Fault

def message : Fault → String
  | .unexpectedEnd => "Unexpected end of file"
  | .unexpectedCharacter b => "Unexpected character '" ++ latin b ++ "'"
  | .unexpectedByte b => s!"Unexpected byte {b.toNat}"
  | .character => "Invalid UTF-8 character encoding"
  | .text fault => "Invalid UTF-8: " ++ fault.message
  | .iri error => error.message
  | .escape b => "Unexpected escape character '\\" ++ latin b ++ "'"
  | .escapeDigits letter digits =>
    "The escape sequence '\\" ++ letter.toString ++ digits
      ++ "' is not a valid hexadecimal string"
  | .escapeValue letter digits value =>
    "The escape sequence '\\" ++ letter.toString ++ digits ++ "' is encoding "
      ++ String.ofList (Hex.upper value) ++ " that is not a valid unicode character"
  | .lineEndInString => "Line jumps are not allowed in string literals, use \\n"
  | .languageStart => "A language code should always start with a letter"
  | .language fault => fault.message
  | .emptyExponent => "A double exponent cannot be empty"
  | .emptyDouble => "A double should not be empty"
  | .emptyInteger => "An integer should not be empty"
  | .emptyLabel => "A blank node ID should not be empty"
  | .emptyVariable => "A variable name is not allowed to be empty"
  | .nameStart c => s!"'{c}' is not allowed at the beginning of a prefix name"
  | .nameEnd space =>
    "'" ++ space ++ "' is not a valid prefix: prefixes are not allowed to end with '.'"
  | .namePercent first second =>
    "escapes in IRIs should be % followed by two hexadecimal characters, found '%"
      ++ latin first ++ latin second ++ "'"
  | .nameEscape b =>
    "The character that are allowed to be escaped in IRIs are _~.-!$&'()*+,;=/?#@%, found '"
      ++ latin b ++ "'"

end Fault
end Token

/-- What a scanner says of the bytes in front of it. -/
inductive Scan (α : Type) where
  /-- It depends on bytes that are not there yet. -/
  | wait
  /-- A value, and how many bytes it takes. -/
  | found (value : α) (size : Nat)
  /-- None: why, where the fault lies, and how many bytes to pass over. -/
  | fault (cause : Token.Fault) (offset size : Nat)

end TidyTrig.Trig
