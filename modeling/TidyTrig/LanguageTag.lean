import TidyTrig.Text.Basic

/-!
# Language tags

A language tag is a row of subtags between hyphens: a language, then extended languages, a script,
a region and variants, then extensions, each after a single letter or digit, and last private use
after an `x`. `LanguageTag.check` says whether a tag is well formed, and if not, why.
-/

namespace TidyTrig.LanguageTag

/-- Why a tag is not well formed. -/
inductive Fault where
  | emptyExtension
  | emptyPrivateUse
  | emptySubtag
  | invalidSubtag
  | invalidLanguage
  | longSubtag
  | tooManyExtendedLanguages
deriving DecidableEq

namespace Fault

def message : Fault → String
  | .emptyExtension => "If an extension subtag is present, it must not be empty"
  | .emptyPrivateUse => "If the `x` subtag is present, it must not be empty"
  | .emptySubtag => "A subtag should not be empty"
  | .invalidSubtag => "A subtag fails to parse, it does not match any other subtags"
  | .invalidLanguage => "The given language subtag is invalid"
  | .longSubtag => "A subtag may be eight characters in length at maximum"
  | .tooManyExtendedLanguages => "At maximum three extlangs are allowed"

end Fault

/-- What the subtags read so far were. -/
inductive Stage where
  | start
  /-- A language of two or three letters and this many extended languages. -/
  | shortLanguage (extended : Nat)
  | longLanguage
  | script
  /-- A region or a variant. -/
  | region
  | extension (isEmpty : Bool)
  | privateUse (isEmpty : Bool)

/-- Tags registered whole, before there was a form for them. -/
def registered : List String :=
  ["art-lojban", "cel-gaulish", "en-gb-oed", "i-ami", "i-bnn", "i-default", "i-enochian", "i-hak",
    "i-klingon", "i-lux", "i-mingo", "i-navajo", "i-pwn", "i-tao", "i-tay", "i-tsu", "no-bok",
    "no-nyn", "sgn-be-fr", "sgn-be-nl", "sgn-ch-de", "zh-guoyu", "zh-hakka", "zh-min",
    "zh-min-nan", "zh-xiang"]

/-- Five letters or digits, or four of which the first is a digit. -/
def isVariant (subtag : List Char) : Bool :=
  subtag.all Char.isAlphanum &&
    match subtag.head? with
    | some first => (first.isAlpha && 5 ≤ subtag.length) || (first.isDigit && 4 ≤ subtag.length)
    | none => false

def isExtendedLanguage (subtag : List Char) : Bool := subtag.length = 3 && subtag.all Char.isAlpha

def isScript (subtag : List Char) : Bool := subtag.length = 4 && subtag.all Char.isAlpha

def isRegion (subtag : List Char) : Bool :=
  (subtag.length = 2 && subtag.all Char.isAlpha) || (subtag.length = 3 && subtag.all Char.isDigit)

/-- The parts of a tag between language and extensions: a script, then a region, then variants. -/
def afterLanguage (mayScript mayRegion : Bool) (subtag : List Char) : Except Fault Stage :=
  if mayScript && isScript subtag then .ok .script
  else if mayRegion && isRegion subtag then .ok .region
  else if isVariant subtag then .ok .region
  else .error .invalidSubtag

/-- A part of an extension or of private use. -/
def filler (next : Stage) (subtag : List Char) : Except Fault Stage :=
  if subtag.all Char.isAlphanum then .ok next else .error .invalidSubtag

/-- Whether an extension was begun and has nothing in it yet. -/
def Stage.isEmptyExtension : Stage → Bool
  | .extension isEmpty => isEmpty
  | _ => false

/-- Reads one subtag. -/
def Stage.read (stage : Stage) (subtag : List Char) : Except Fault Stage :=
  if subtag.isEmpty then .error .emptySubtag
  else if 8 < subtag.length then .error .longSubtag
  else
    match stage with
    | .start =>
      if subtag.length < 2 || !subtag.all Char.isAlpha then .error .invalidLanguage
      else if subtag.length < 4 then .ok (.shortLanguage 0)
      else .ok .longLanguage
    | .privateUse _ => filler (.privateUse false) subtag
    | stage =>
      if subtag = ['x'] || subtag = ['X'] then
        if stage.isEmptyExtension then .error .emptyExtension else .ok (.privateUse true)
      else if subtag.length = 1 && subtag.all Char.isAlphanum then
        if stage.isEmptyExtension then .error .emptyExtension else .ok (.extension true)
      else
        match stage with
        | .extension _ => filler (.extension false) subtag
        | .shortLanguage extended =>
          if isExtendedLanguage subtag then
            if 3 ≤ extended then .error .tooManyExtendedLanguages
            else .ok (.shortLanguage (extended + 1))
          else afterLanguage true true subtag
        | .longLanguage => afterLanguage true true subtag
        | .script => afterLanguage false true subtag
        | _ => afterLanguage false false subtag

/-- Reads the subtags from left to right. -/
def readSubtags (stage : Stage) : List (List Char) → Except Fault Stage
  | [] => .ok stage
  | subtag :: rest =>
    match stage.read subtag with
    | .ok stage => readSubtags stage rest
    | .error fault => .error fault

/-- A tag must not end with an extension or private use that has nothing in it. -/
def Stage.close : Stage → Except Fault Unit
  | .extension true => .error .emptyExtension
  | .privateUse true => .error .emptyPrivateUse
  | _ => .ok ()

/-- Says whether a tag is well formed. -/
def check (tag : String) : Except Fault Unit :=
  let chars := tag.toList.map Char.toLower
  if String.ofList chars ∈ registered then .ok ()
  else
    match chars with
    | 'x' :: '-' :: [] => .error .emptyPrivateUse
    | 'x' :: '-' :: rest =>
      match readSubtags (.privateUse true) (splitAt '-' rest) with
      | .ok _ => .ok ()
      | .error fault => .error fault
    | chars =>
      match readSubtags .start (splitAt '-' chars) with
      | .ok stage => stage.close
      | .error fault => .error fault

end TidyTrig.LanguageTag
