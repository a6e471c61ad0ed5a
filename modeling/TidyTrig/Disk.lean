import TidyTrig.Text.Basic
import TidyTrig.Text.Utf8

/-!
# Disks

Files and directories as a program sees them from its working directory. A path is a row of names
between slashes. A place is what a path leads to, as the names on the way there without detours.
Reading and writing can fail as they do on a real disk.
-/

namespace TidyTrig

/-- A file with the place where it is. -/
structure Disk.File where
  place : List String
  contents : Bytes
deriving DecidableEq

structure Disk where
  files : List Disk.File
  /-- Directories, of which those on the way to a file need not be named. -/
  directories : List (List String)
deriving DecidableEq

namespace Disk

/-- Why a file cannot be used. -/
inductive Fault where
  | notFound
  | notDirectory
  | isDirectory
  | nameTooLong
  | nulInName
  | notText
deriving DecidableEq

def Fault.message : Fault → String
  | .notFound => "No such file or directory (os error 2)"
  | .notDirectory => "Not a directory (os error 20)"
  | .isDirectory => "Is a directory (os error 21)"
  | .nameTooLong => "File name too long (os error 36)"
  | .nulInName => "file name contained an unexpected NUL byte"
  | .notText => "stream did not contain valid UTF-8"

/-- What is at a place. -/
inductive Node where
  | file (contents : Bytes)
  | directory
  | missing

def empty : Disk := ⟨[], []⟩

/-! ## Paths and places -/

/-- The name of the directory that absolute paths start from. -/
def root : String := "/"

/-- The names of a path. Slashes in a row are as good as one. -/
def names (path : String) : List String :=
  let names := ((splitAt '/' path.toList).filter (!·.isEmpty)).map String.ofList
  if path.toList.head? = some '/' then root :: names else names

/-- Whether a path names a directory in any case. -/
def endsWithSlash (path : String) : Bool := path.toList.getLast? = some '/'

/-- The place that a name leads to from a place. -/
def step (place : List String) (name : String) : List String :=
  if name = "." then place
  else if name = ".." then
    match place.getLast? with
    | none => [name]
    | some last =>
      if last = ".." then place ++ [name] else if last = root then place else place.dropLast
  else place ++ [name]

/-- Whether a place is the working directory or on the way up from it. -/
def isAbove (place : List String) : Bool := place = [root] || place.all (· = "..")

/-- What is at a place. -/
def node (disk : Disk) (place : List String) : Node :=
  match disk.files.find? (·.place = place) with
  | some file => .file file.contents
  | none =>
    if isAbove place || place ∈ disk.directories
        || disk.files.any (fun file => place.isPrefixOf file.place) then .directory
    else .missing

/-- How many bytes a name may have. -/
def longestName : Nat := 255

/-- How many bytes a path may have. -/
def longestPath : Nat := 4095

/-- Follows names from a place. A name can be followed from directories alone. -/
def follow (disk : Disk) (place : List String) : List String → Except Fault (List String)
  | [] => .ok place
  | name :: rest =>
    match disk.node place with
    | .file _ => .error .notDirectory
    | .missing => .error .notFound
    | .directory =>
      if longestName < (Utf8.encode name).length then .error .nameTooLong
      else follow disk (step place name) rest

/-- What no path can be, whatever is on the disk. -/
def checkPath (path : String) : Except Fault Unit :=
  if path.toList.contains '\x00' then .error .nulInName
  else if path.isEmpty then .error .notFound
  else if longestPath < (Utf8.encode path).length then .error .nameTooLong
  else .ok ()

/-- The place that a path leads to. There need be nothing at it, unless a slash ends the path. -/
def locate (disk : Disk) (path : String) : Except Fault (List String) := do
  checkPath path
  disk.follow [] (names path ++ if endsWithSlash path then ["."] else [])

/-! ## Reading and writing -/

def read (disk : Disk) (path : String) : Except Fault Bytes := do
  match disk.node (← disk.locate path) with
  | .file contents => .ok contents
  | .directory => .error .isDirectory
  | .missing => .error .notFound

def readText (disk : Disk) (path : String) : Except Fault String := do
  match Utf8.decode? (← disk.read path) with
  | some text => .ok text
  | none => .error .notText

/-- Puts contents at a place, instead of those of the file that is there. -/
def put (disk : Disk) (place : List String) (contents : Bytes) : Disk :=
  if disk.files.any (·.place = place) then
    { disk with
      files := disk.files.map fun file => if file.place = place then ⟨place, contents⟩ else file }
  else { disk with files := disk.files ++ [⟨place, contents⟩] }

/-- Writes a file, whose directory must be there. -/
def write (disk : Disk) (path : String) (contents : Bytes) : Except Fault Disk := do
  checkPath path
  if endsWithSlash path then
    -- What the last name leads to is not looked at, but the way there is.
    let _ ← disk.follow [] ((names path).dropLast ++ ["."])
    .error .isDirectory
  else
    let place ← disk.locate path
    match disk.node place with
    | .directory => .error .isDirectory
    | .file _ | .missing => .ok (disk.put place contents)

/-- Creates a file with the directories on the way to it. -/
def create (disk : Disk) (path : String) (contents : Bytes) : Disk :=
  disk.put ((names path).foldl step []) contents

/-- Creates a directory with those on the way to it. -/
def createDirectory (disk : Disk) (path : String) : Disk :=
  { disk with directories := (names path).foldl step [] :: disk.directories }

end Disk
end TidyTrig
