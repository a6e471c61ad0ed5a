import TidyTrig.CommandLine.Run

/-!
# The program

Loads what the command line names into a `Disk`, runs the command on it, and writes back the files
that it changed.
-/

namespace TidyTrig.CommandLine

/-- Loads a file, or a directory with all below it. What cannot be read is left out. -/
partial def load (disk : Disk) (path : String) : IO Disk := do
  let file := System.mkFilePath [path]
  if ← file.isDir then
    let entries ← file.readDir
    entries.foldlM (fun disk entry => load disk (joinPath path [entry.fileName]))
      (disk.createDirectory path)
  else
    try
      return disk.create path (← IO.FS.readBinFile file).toList
    catch _ => return disk

/-- The labels for the documents of one run: a letter, digits drawn at random for the run, and the
numbers of document and label. -/
def drawLabels : IO (Nat → Nat → String) := do
  let drawn ← (List.range 19).mapM fun _ => IO.rand 0 15
  let letter ← IO.rand 10 15
  let digits := (letter :: drawn).flatMap Hex.lower
  return fun document n =>
    .ofList (digits ++ Hex.pad 6 (Hex.lower document) ++ Hex.pad 6 (Hex.lower n))

/-- Writes the files of `after` that differ from those of `before`. -/
def save (before after : Disk) : IO Unit :=
  for file in after.files do
    unless file ∈ before.files do
      let path := match file.place with
        | "/" :: names => System.mkFilePath ("" :: names)
        | names => System.mkFilePath names
      IO.FS.writeBinFile path ⟨file.contents.toArray⟩

end TidyTrig.CommandLine

open TidyTrig TidyTrig.CommandLine

def main (words : List String) : IO UInt32 := do
  match Invocation.read? words with
  | none =>
    IO.eprintln Invocation.usage
    return 2
  | some invocation =>
    let disk ← (invocation.config.toList ++ invocation.command.paths).foldlM load .empty
    let outcome := run (← drawLabels) words disk
    save disk outcome.disk
    IO.print outcome.stdout
    IO.eprint outcome.stderr
    return outcome.status.toUInt32
