import TidyTrig.Canonical
import TidyTrig.Document
import TidyTrig.Settings
import TidyTrig.Trig.Writer
import TidyTrig.Validation

/-!
# Formatting and validating documents

What a host offers its users: `format` replaces the text of a document by its canonical form, and
`validate` replaces the markers of a document by its diagnostics. Formatting writes only a complete
text, and only if it differs, so that a document is never lost.
-/

namespace TidyTrig

/-- The canonical form of a text, or `none` if the text is malformed. -/
def canonicalText? (labels : Nat → String) (s : FormatSettings) (text : String) :
    Except Failure (Option String) := do
  let events ← Trig.read labels s.options (Utf8.encode text)
  let writer := Trig.Writer.start .unlimited ⟨s.indent, s.usesTypeKeyword⟩
  match canonicalize events writer with
  | .ok true writer => .ok (some (Utf8.decodeLossy writer.device.contents))
  | .ok false _ => .ok none
  | .error e _ => .error e

/-- What formatting did. -/
inductive FormatOutcome where
  | formatted (isChanged : Bool)
  | malformed
deriving DecidableEq

/-- The canonical form of some content, with whether it differs, or `none` if the content is no
text or malformed. -/
def reformat? (labels : Nat → String) (s : FormatSettings) (content : Bytes) :
    Except Failure (Option (String × Bool)) :=
  match Utf8.decode? content with
  | none => .ok none
  | some text => (canonicalText? labels s text).map (·.map fun canonical =>
      (canonical, decide (canonical ≠ text)))

variable {σ : Type}

/-- Replaces the text of a document by its canonical form. -/
def format (labels : Nat → String) (s : FormatSettings) (doc : Document σ) :
    EStateM Failure σ FormatOutcome := do
  let content ← doc.read.adaptExcept .document
  match reformat? labels s content with
  | .error e => throw e
  | .ok none => pure .malformed
  | .ok (some (canonical, isChanged)) =>
    if isChanged then (doc.write canonical).adaptExcept .document
    pure (.formatted isChanged)

/-- Replaces the markers of a document with this content. -/
def validate [MarkerStore σ] (labels : Nat → String) (s : ValidateSettings) (content : Bytes) :
    EStateM Failure σ Report :=
  match Trig.read labels s.options content with
  | .error e => throw e
  | .ok events => validateEvents s.category events

/-- Replaces the markers of a document on disk, as after it was saved. -/
def validateFile [MarkerStore σ] (labels : Nat → String) (s : ValidateSettings) (disk : Disk)
    (path : String) : EStateM Failure σ Report :=
  match disk.read path with
  | .error fault => throw (.document (.access path fault.message))
  | .ok content => validate labels s content

end TidyTrig
