import DepScope.Error
import DepScope.Text.Chars
import DepScope.Text.Utf8

/-!
# DepScope.Toolchain.Process

Running a program for its output. What the program does is given as an `Outcome`; this module says
what the caller learns from it. Output is read leniently, and a program that does not end well is an
error with what it had to say.
-/

namespace DepScope.Toolchain

open Text

/-- How a program ended. -/
inductive Exit where
  | code (n : Nat)
  | signal (n : Nat) (name : String)
deriving DecidableEq

/-- Did the program end well? -/
def Exit.isSuccess : Exit → Bool
  | code n => n == 0
  | signal .. => false

/-- The description of an end. -/
def Exit.describe : Exit → String
  | code n => "exit status: " ++ toString n
  | signal n name => "signal: " ++ toString n ++ " (" ++ name ++ ")"

/-- What became of a program. -/
inductive Outcome where
  /-- There is no such program. -/
  | missing
  /-- It goes on for ever. -/
  | unending
  | finished (exit : Exit) (stdout stderr : List UInt8)

/-- The error of a program that cannot be started. -/
def notStarted (program : String) : Error :=
  .subprocess ("Failed to run " ++ program ++ ": No such file or directory (os error 2)")

/-- Runs a program with some input. `none` if the caller gave up on it first. -/
def runWithInput (program : String) (outcome : Outcome) (cancelled : Bool) :
    Except Error (Option String) :=
  match outcome with
  | .missing => .error (notStarted program)
  | .unending => .ok none
  | .finished exit stdout stderr =>
    if cancelled then .ok none
    else if exit.isSuccess then .ok (some (decodeLossy stdout))
    else .error (.subprocess (program ++ " exited with " ++ exit.describe ++ ": "
      ++ trimmed (decodeLossy stderr)))

/-- Runs a program to its end. -/
def runChecked (program : String) (args : List String) (outcome : Outcome) :
    Except Error String :=
  match outcome with
  | .missing => .error (notStarted program)
  | .unending => .ok ""
  | .finished exit stdout stderr =>
    if exit.isSuccess then .ok (decodeLossy stdout)
    else .error (.subprocess (program ++ " " ++ String.intercalate " " args ++ " failed: "
      ++ trimmed (decodeLossy stderr)))

/-- The answer of a helper program, if it gave one. -/
def answer? (program : String) (outcome : Outcome) (cancelled : Bool) : Option String :=
  (runWithInput program outcome cancelled).toOption.join

end DepScope.Toolchain
