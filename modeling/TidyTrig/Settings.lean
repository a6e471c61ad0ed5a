import TidyTrig.Trig.Reader

/-!
# Settings

What a user can choose of formatting and validation. Each setting has a default, so that no
settings at all are valid ones.
-/

namespace TidyTrig

/-- The settings of formatting. -/
structure FormatSettings where
  /-- One level of indentation. -/
  indent : String := "\t"
  /-- What relative IRIs are resolved against. -/
  baseIri : Option String := none
  /-- Whether the predicate for the class of a resource is written as a keyword. -/
  usesTypeKeyword : Bool := true
deriving DecidableEq

/-- Formatting asks only whether a document can be read, so it takes no warnings. -/
def FormatSettings.options (s : FormatSettings) : Trig.Options := ⟨s.baseIri, false, none⟩

/-- The settings of validation. -/
structure ValidateSettings where
  /-- The category of the markers. -/
  category : String := "trigfmt.syntax"
  /-- What relative IRIs are resolved against. -/
  baseIri : Option String := none
  /-- Whether to warn of prefixes that no statement uses. -/
  warnsUnused : Bool := true
  /-- How many problems to report at most; zero is no limit. -/
  maxProblems : Nat := 1000
deriving DecidableEq

def ValidateSettings.options (s : ValidateSettings) : Trig.Options :=
  ⟨s.baseIri, s.warnsUnused, if s.maxProblems = 0 then none else some s.maxProblems⟩

structure Settings where
  format : FormatSettings := {}
  validate : ValidateSettings := {}
deriving DecidableEq

end TidyTrig
