import DepScope.Cli.Run

/-!
# DepScope.Main

The program. Commands that look at files are given them on standard input, one path on each line:

    find . -type f | depscope scan

Everything else a command needs is read by name: the file with the settings, and the key of the
session. No request is made; the service counts as out of reach.
-/

namespace DepScope.Main

open Files Cli

/-- The lines of a stream. -/
partial def readLines (input : IO.FS.Stream) (lines : List String) : IO (List String) := do
  let line ← input.getLine
  if line.isEmpty then return lines.reverse
  readLines input (Text.trimmed line :: lines)

/-- The bytes of a file that can be read. -/
def readFile? (path : String) : IO (Option (List UInt8)) := do
  try return some (← IO.FS.readBinFile path).toList catch _ => return none

/-- Puts the files that can be read into a tree. -/
def readTree (cwd : String) (paths : List String) : IO Tree :=
  paths.foldlM (fun t path => do
    match ← readFile? path with
    | some bytes => return t.put (namesOf (join cwd path)) bytes
    | none => return t) {}

/-- Does a command look at files? -/
def looksAtFiles : Command → Bool
  | .scan .. | .check .. | .watch .. => true
  | _ => false

/-- Removes the folder a command has removed. -/
def removeFolder (path : String) : IO Unit := do
  try IO.FS.removeDirAll path catch _ => return ()

/-- The paths a command line is about, besides those that are listed. -/
def namedPaths (dataHome : String) (i : Invocation) : List String :=
  [i.overrides.config.getD Config.fileName, join (join dataHome "socket") "settings"]

/-- Runs a command line on this machine. -/
def run (args : List String) : IO UInt32 := do
  let home := (← IO.getEnv "HOME").getD "/"
  let dataHome := (← IO.getEnv "XDG_DATA_HOME").getD (join (join home ".local") "share")
  let cwd := toString (← IO.currentDir)
  let invocation := (read args).toOption
  let listed ← match invocation with
    | some i => if looksAtFiles i.command then readLines (← IO.getStdin) [] else pure []
    | none => pure []
  let named := (invocation.map (namedPaths dataHome)).getD []
  let machine : Machine := {
    files := ← readTree cwd (listed ++ named)
    cwd, home, dataHome
    key := ← IO.getEnv Service.keyVariable
    network := .down }
  let result := Cli.run machine args
  if result.exit = 0 then
    if let some ⟨o, .clearCache⟩ := invocation then
      if let .ok c := Config.load machine.files cwd o.config then
        removeFolder (cacheDirOf machine (o.apply c))
  IO.print result.stdout
  return UInt32.ofNat result.exit

end DepScope.Main

/-- Runs the program. -/
def main (args : List String) : IO UInt32 :=
  DepScope.Main.run args
