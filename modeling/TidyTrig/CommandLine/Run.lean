import TidyTrig.CommandLine.Invocation
import TidyTrig.CommandLine.Json
import TidyTrig.Config
import TidyTrig.Editor

/-!
# Running a command

`run` carries out a command line on a disk and says what is printed, the exit status, and what the
disk holds afterwards. Directories stand for the documents below them.
-/

namespace TidyTrig.CommandLine

/-- What a run leaves behind. -/
structure Outcome where
  status : Nat
  stdout : String
  stderr : String
  disk : Disk
deriving DecidableEq

/-! ## The documents of a path -/

/-- The part of a file name after its last dot, unless nothing comes before that dot. -/
def extension? (name : String) : Option String :=
  let reversed := name.toList.reverse
  let stem := reversed.dropWhile (· ≠ '.')
  if stem.length ≤ 1 then none else some (.ofList (reversed.takeWhile (· ≠ '.')).reverse)

/-- Whether a file in a directory is taken for a document. -/
def isDocumentName (name : String) : Bool :=
  match extension? name with
  | some extension => extension ∈ ["trig", "ttl", "nt"]
  | none => false

/-- Compares paths name by name, each by its bytes. -/
def comparePaths : List String → List String → Ordering
  | [], [] => .eq
  | [], _ :: _ => .lt
  | _ :: _, [] => .gt
  | a :: as, b :: bs =>
    (Bytes.compare (Utf8.encode a) (Utf8.encode b)).then (comparePaths as bs)

/-- The files below a place as paths from there, directory by directory. -/
def filesBelow (disk : Disk) (place : List String) : List (List String) :=
  let below := disk.files.filterMap fun file => place.isPrefixOf? file.place
  below.mergeSort fun a b => (comparePaths a b).isLE

/-- A path that leads from a directory to a file below it. -/
def joinPath (directory : String) (names : List String) : String :=
  let rest := String.intercalate "/" names
  if directory.toList.getLast? = some '/' then directory ++ rest else directory ++ "/" ++ rest

/-- The documents that a path stands for: those below a directory, and itself otherwise. -/
def documentsAt (disk : Disk) (path : String) : List String :=
  match disk.locate path with
  | .ok place =>
    match disk.node place with
    | .directory =>
      ((filesBelow disk place).filter fun names => names.getLast?.any isDocumentName).map
        (joinPath path)
    | _ => [path]
  | .error _ => [path]

/-! ## Formatting -/

/-- What formatting has done so far. -/
structure Progress where
  disk : Disk
  stdout : String
  stderr : String
  /-- How many files were handled. -/
  handled : Nat
  changed : Nat
  malformed : Nat
deriving DecidableEq

/-- The error line of a run that stops. -/
def errorLine (message : String) : String := "Error: " ++ message ++ "\n"

/-- Formats one file, or only a copy of it. A run that stops gives its error line. -/
def formatFile (labels : Nat → String) (s : FormatSettings) (onlyCheck : Bool) (disk : Disk)
    (path : String) : Except String (FormatOutcome × Disk) :=
  let stopped := errorLine ("failed to format " ++ path)
  if onlyCheck then
    -- The copy takes the place of the file, which is never written.
    match disk.read path with
    | .error fault => .error (errorLine (DocumentError.access path fault.message).message)
    | .ok content =>
      match Utf8.decode? content with
      | none => .ok (.malformed, disk)
      | some text =>
        match format labels s Buffer.document (.ofText text) with
        | .ok outcome _ => .ok (outcome, disk)
        | .error _ _ => .error stopped
  else
    match format labels s (Disk.document path) disk with
    | .ok outcome disk => .ok (outcome, disk)
    | .error _ _ => .error stopped

/-- Reports what was done with a file. -/
def Progress.add (p : Progress) (onlyCheck : Bool) (path : String) (disk : Disk) :
    FormatOutcome → Progress
  | .formatted false => { p with disk, handled := p.handled + 1 }
  | .formatted true =>
    let verb := if onlyCheck then "would reformat " else "reformatted "
    { p with
      disk, handled := p.handled + 1, changed := p.changed + 1,
      stdout := p.stdout ++ verb ++ path ++ "\n" }
  | .malformed =>
    { p with
      disk, handled := p.handled + 1, malformed := p.malformed + 1,
      stderr := p.stderr ++ path ++ ": malformed, left unchanged\n" }

/-- Formats files one after the other, up to one that stops the run. Each gets its own supply of
labels. -/
def formatFiles (labels : Nat → Nat → String) (s : FormatSettings) (onlyCheck : Bool)
    (p : Progress) : List String → Progress × Option String
  | [] => (p, none)
  | path :: rest =>
    match formatFile (labels p.handled) s onlyCheck p.disk path with
    | .error line => (p, some line)
    | .ok (outcome, disk) =>
      formatFiles labels s onlyCheck (p.add onlyCheck path disk outcome) rest

def runFormat (labels : Nat → Nat → String) (s : FormatSettings) (onlyCheck : Bool) (disk : Disk)
    (paths : List String) : Outcome :=
  match formatFiles labels s onlyCheck ⟨disk, "", "", 0, 0, 0⟩ paths with
  | (p, some line) => ⟨1, p.stdout, p.stderr ++ line, p.disk⟩
  | (p, none) =>
    let verb := if onlyCheck then "would change" else "changed"
    let failed := p.malformed + if onlyCheck then p.changed else 0
    ⟨if failed = 0 then 0 else 1,
      p.stdout ++ s!"{p.handled} file(s) checked, {p.changed} {verb}\n", p.stderr, p.disk⟩

/-! ## Validating -/

/-- The reports of files, up to one that stops the run. -/
def reports (labels : Nat → Nat → String) (s : ValidateSettings) (disk : Disk) (number : Nat) :
    List String → Except String (List (String × Report))
  | [] => .ok []
  | path :: rest =>
    match validateFile (labels number) s disk path MarkerTable.empty with
    | .error _ _ => .error (errorLine ("failed to validate " ++ path))
    | .ok report _ =>
      (reports labels s disk (number + 1) rest).map ((path, report) :: ·)

def Diagnostic.toJson (d : Diagnostic) : Json :=
  .object [("severity", .string d.severity.text), ("message", .string d.message),
    ("line", .number d.line), ("column", d.column.elim .null .number)]

def reportJson (path : String) (r : Report) : Json :=
  .object [("path", .string path), ("diagnostics", .array (r.diagnostics.map Diagnostic.toJson)),
    ("failed_markers", .number r.failedMarkers), ("aborted", .bool r.isAborted)]

/-- The lines for one file. -/
def reportLines (path : String) (r : Report) : String :=
  String.join (r.diagnostics.map fun d => path ++ ":" ++ d.text ++ "\n")
    ++ if r.isAborted then path ++ ": too many problems, stopped\n" else ""

/-- The line with the totals. -/
def summary (all : List (String × Report)) : String :=
  let errors := all.foldl (fun n (_, r) => n + r.errors) 0
  let warnings := all.foldl (fun n (_, r) => n + r.warnings) 0
  s!"Summary: {all.length} file(s), {errors} error(s), {warnings} warning(s)\n"

def runValidate (labels : Nat → Nat → String) (s : ValidateSettings) (asJson : Bool) (disk : Disk)
    (paths : List String) : Outcome :=
  match reports labels s disk 0 paths with
  | .error line => ⟨1, "", line, disk⟩
  | .ok all =>
    let stdout :=
      if asJson then
        (Json.array (all.map fun (path, r) => reportJson path r)).render 0 ++ "\n"
      else String.join (all.map fun (path, r) => reportLines path r) ++ summary all
    ⟨if all.any fun (_, r) => r.hasErrors then 1 else 0, stdout, "", disk⟩

/-! ## All together -/

/-- The settings of an invocation, or the path of a file that gives none. -/
def settingsOf (disk : Disk) (config : Option String) : Except String Settings :=
  match config with
  | none => .ok {}
  | some path =>
    match Settings.load disk path with
    | .ok settings => .ok settings
    | .error _ => .error path

/-- Carries out a command line. The `n`-th document gets the labels `labels n`. -/
def run (labels : Nat → Nat → String) (words : List String) (disk : Disk) : Outcome :=
  match Invocation.read? words with
  | none => ⟨2, "", "", disk⟩
  | some ⟨config, command⟩ =>
    match settingsOf disk config with
    | .error path => ⟨1, "", errorLine ("failed to load config " ++ path), disk⟩
    | .ok settings =>
      match command with
      | .format onlyCheck paths =>
        runFormat labels settings.format onlyCheck disk (paths.flatMap (documentsAt disk))
      | .validate asJson paths =>
        runValidate labels settings.validate asJson disk (paths.flatMap (documentsAt disk))

end TidyTrig.CommandLine
