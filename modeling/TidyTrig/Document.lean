import TidyTrig.Disk
import TidyTrig.Failure

/-!
# Documents

A document is something whose content can be read and whose text can be replaced: the buffer of an
editor, or a file on disk.
-/

namespace TidyTrig

/-- Access to a document that is part of a state `σ`. -/
structure Document (σ : Type) where
  read : EStateM DocumentError σ Bytes
  write : String → EStateM DocumentError σ Unit

/-- The buffer of an editor, which may not be at hand. -/
structure Buffer where
  text : String
  /-- Why the text cannot be read. -/
  readFault : Option String
  /-- Why the text cannot be replaced. -/
  writeFault : Option String
deriving DecidableEq

namespace Buffer

def ofText (text : String) : Buffer := ⟨text, none, none⟩

def document : Document Buffer where
  read := fun b =>
    match b.readFault with
    | some cause => .error (.unavailable cause) b
    | none => .ok (Utf8.encode b.text) b
  write text := fun b =>
    match b.writeFault with
    | some cause => .error (.unavailable cause) b
    | none => .ok () { b with text }

end Buffer

/-- A file on disk as a document. -/
def Disk.document (path : String) : Document Disk where
  read := fun disk =>
    match disk.read path with
    | .ok contents => .ok contents disk
    | .error fault => .error (.access path fault.message) disk
  write text := fun disk =>
    match disk.write path (Utf8.encode text) with
    | .ok disk' => .ok () disk'
    | .error fault => .error (.access path fault.message) disk

end TidyTrig
