/-!
# Invocations

What the program is asked to do by the words of its command line: a command with its paths, and
where its settings are. Words that ask for nothing that it does are a usage error.
-/

namespace TidyTrig.CommandLine

/-- What to do with the documents at some paths. -/
inductive Command where
  /-- Put them into canonical form, or with `onlyCheck` report those that are not. -/
  | format (onlyCheck : Bool) (paths : List String)
  /-- Report their problems, as text or as JSON. -/
  | validate (asJson : Bool) (paths : List String)
deriving DecidableEq

def Command.paths : Command → List String
  | .format _ paths => paths
  | .validate _ paths => paths

structure Invocation where
  /-- The configuration file. -/
  config : Option String
  command : Command
deriving DecidableEq

namespace Invocation

/-- How to ask for what the program does. -/
def usage : String :=
  "usage: trigfmt [--config FILE] format [--check] PATH...\n"
    ++ "       trigfmt [--config FILE] validate [--json] PATH..."

/-- What the words of a command stand for while they are read. -/
structure Draft where
  config : Option String
  /-- Whether the flag of the command was given. -/
  hasFlag : Bool
  /-- The paths, the latest first. -/
  paths : List String

/-- A word that starts with a hyphen is an option, unless it is the hyphen alone. -/
def isOption (word : String) : Bool := word.toList.head? = some '-' && word ≠ "-"

/-- The value in a word that names the configuration file with an equals sign. -/
def configValue? (word : String) : Option String :=
  ("--config=".toList.isPrefixOf? word.toList).map .ofList

/-- Names the configuration file, which must have a name and be named once. -/
def Draft.setConfig (d : Draft) (path : String) : Option Draft :=
  if d.config.isSome || path.isEmpty then none else some { d with config := some path }

def Draft.addPath (d : Draft) (path : String) : Option Draft :=
  if path.isEmpty then none else some { d with paths := path :: d.paths }

/-- Reads words that are paths whatever they look like. -/
def readPaths (d : Draft) : List String → Option Draft
  | [] => some d
  | word :: rest => do readPaths (← d.addPath word) rest

/-- Reads the words after a command whose flag is `flag`. -/
def readWords (flag : String) (d : Draft) : List String → Option Draft
  | [] => some d
  | "--" :: rest => readPaths d rest
  | "--config" :: value :: rest => do
    if isOption value then none else readWords flag (← d.setConfig value) rest
  | word :: rest =>
    if word = flag then
      if d.hasFlag then none else readWords flag { d with hasFlag := true } rest
    else
      match configValue? word with
      | some value => do readWords flag (← d.setConfig value) rest
      | none => do
        if isOption word then none else readWords flag (← d.addPath word) rest

/-- A command with its paths, of which there must be some. A configuration file that is named
after the command goes before one that is named ahead of it. -/
def readCommand (config : Option String) (flag : String)
    (command : Bool → List String → Command) (words : List String) : Option Invocation := do
  let d ← readWords flag ⟨none, false, []⟩ words
  if d.paths.isEmpty then none
  else some ⟨d.config <|> config, command d.hasFlag d.paths.reverse⟩

/-- Reads the words ahead of the command. -/
def readAhead (config : Option String) : List String → Option Invocation
  | "format" :: rest => readCommand config "--check" .format rest
  | "validate" :: rest => readCommand config "--json" .validate rest
  | "--config" :: value :: rest =>
    if isOption value || value.isEmpty || config.isSome then none else readAhead (some value) rest
  | word :: rest =>
    match configValue? word with
    | some value =>
      if value.isEmpty || config.isSome then none else readAhead (some value) rest
    | none => none
  | [] => none

/-- Reads a command line. -/
def read? (words : List String) : Option Invocation := readAhead none words

end Invocation
end TidyTrig.CommandLine
