import DepScope.Files.Tree
import DepScope.Toolchain.Process

/-!
# DepScope.Toolchain.Shell

The few programs that scripted tools are made of: `cat`, `sleep`, `true`, `false`, and a shell that
runs simple commands one after the other (`;`, a line break, `&&`, `||`), with quotes and with
output turned to the error stream or away.
-/

namespace DepScope.Toolchain

open Text Files

/-! ## Words of a script -/

/-- A word of a script. -/
inductive Lexeme where
  | word (cs : List Char)
  /-- Ends a command; the next one runs always, after success, or after failure. -/
  | stop (after : Option Bool)
  /-- Turns a stream (`1` or `2`) into another one. -/
  | duplicate (stream target : Nat)
  /-- Turns a stream into a file, or reads input from one. -/
  | redirect (stream : Nat)
deriving DecidableEq

/-- Where the reading of a script stands: the quote that is open, and the word being read in
reverse. -/
structure LexState where
  quote : Option Char
  word : Option (List Char)

/-- The word being read, if there is one. -/
def LexState.flush (st : LexState) : List Lexeme :=
  st.word.toList.map fun cs => .word cs.reverse

/-- Takes a character into the word. -/
def LexState.add (st : LexState) (c : Char) : LexState :=
  { st with word := some (c :: st.word.getD []) }

/-- The stream a redirection is about: the digit right before its sign, else the default. -/
def LexState.stream (st : LexState) (default : Nat) : List Lexeme × Nat :=
  match st.word with
  | some ['1'] => ([], 1)
  | some ['2'] => ([], 2)
  | _ => (st.flush, default)

/-- Between two words. -/
def LexState.between : LexState := ⟨none, none⟩

/-- Opens or closes a quote; a word with quotes is there even if it is empty. -/
def LexState.turn (st : LexState) (quote : Option Char) : LexState :=
  ⟨quote, some (st.word.getD [])⟩

/-- What reading one character gives: words that are complete, the next state, and how many of the
following characters it used. -/
structure LexStep where
  out : List Lexeme := []
  next : LexState
  used : Nat := 0

/-- A sign after a complete word. -/
def LexState.sign (st : LexState) (l : Lexeme) (used : Nat) : LexStep :=
  ⟨st.flush ++ [l], .between, used⟩

/-- A redirection of output. -/
def LexState.output (st : LexState) (turn : Nat → Lexeme) (used : Nat) : LexStep :=
  let (out, stream) := st.stream 1
  ⟨out ++ [turn stream], .between, used⟩

/-- Reads a character inside a quote. -/
def LexState.quoted (st : LexState) (q c : Char) (cs : List Char) : LexStep :=
  if c = q then { next := st.turn none }
  else match q, c, cs with
    | '"', '\\', d :: _ =>
      if d = '"' || d = '\\' || d = '$' then { next := st.add d, used := 1 }
      else { next := (st.add c).add d, used := 1 }
    | _, _, _ => { next := st.add c }

/-- Reads a character outside of quotes. -/
def LexState.plain (st : LexState) (c : Char) (cs : List Char) : LexStep :=
  match c, cs with
  | '\'', _ => { next := st.turn (some '\'') }
  | '"', _ => { next := st.turn (some '"') }
  | '\\', d :: _ => { next := st.add d, used := 1 }
  | '&', '&' :: _ => st.sign (.stop (some true)) 1
  | '|', '|' :: _ => st.sign (.stop (some false)) 1
  | '>', '&' :: d :: _ => st.output (.duplicate · (if d = '2' then 2 else 1)) 2
  | '>', '>' :: _ => st.output .redirect 1
  | '>', _ => st.output .redirect 0
  | '<', _ => st.sign (.redirect 0) 0
  | ';', _ | '\n', _ => st.sign (.stop none) 0
  | _, _ => if isBlank c then ⟨st.flush, .between, 0⟩ else { next := st.add c }

/-- The words of a script. -/
def lexScript (st : LexState) : List Char → List Lexeme
  | [] => st.flush
  | c :: cs =>
    let step := match st.quote with
      | some q => st.quoted q c cs
      | none => st.plain c cs
    step.out ++ lexScript step.next (cs.drop step.used)
termination_by cs => cs.length

/-! ## Commands -/

/-- A command: its words, where its two streams go (`0` for nowhere), the file it reads, and when
it runs. -/
structure Command where
  after : Option Bool
  words : List String := []
  out : Nat := 1
  err : Nat := 2
  input : Option String := none

/-- Turns a stream of a command. -/
def Command.turn (c : Command) (stream target : Nat) : Command :=
  if stream = 2 then { c with err := target } else { c with out := target }

/-- The commands of a script. -/
def commands (current : Command) : List Lexeme → List Command
  | [] => [current]
  | .stop after :: rest => current :: commands { after } rest
  | .duplicate stream target :: rest =>
    commands (current.turn stream (if target = 2 then current.err else current.out)) rest
  | .redirect stream :: .word file :: rest =>
    commands (if stream = 0 then { current with input := some (String.ofList file) }
      else current.turn stream 0) rest
  | .redirect _ :: rest => commands current rest
  | .word cs :: rest => commands { current with words := current.words ++ [String.ofList cs] } rest

/-- Bytes of a text with escapes, as `printf` and `echo` read them. -/
def escapedBytes (zeroMark : Bool) : Nat → List Char → List UInt8
  | 0, _ => []
  | _, [] => []
  | fuel + 1, c :: cs =>
    let plain := encode (String.singleton c) ++ escapedBytes zeroMark fuel cs
    if c ≠ '\\' then plain
    else
      let one (b : UInt8) (rest : List Char) := b :: escapedBytes zeroMark fuel rest
      match cs with
      | 'n' :: rest => one 10 rest
      | 't' :: rest => one 9 rest
      | 'r' :: rest => one 13 rest
      | 'a' :: rest => one 7 rest
      | 'b' :: rest => one 8 rest
      | 'f' :: rest => one 12 rest
      | 'v' :: rest => one 11 rest
      | '\\' :: rest => one 92 rest
      | d :: rest =>
        let digits := if zeroMark then (if d = '0' then rest.take 3 else []) else cs.take 3
        let octal := digits.takeWhile fun x => '0' ≤ x && x ≤ '7'
        if octal.isEmpty then plain
        else
          let value := (readDigits 8 0 octal).getD 0
          one (UInt8.ofNat value) (cs.drop (octal.length + if zeroMark then 1 else 0))
      | [] => plain

/-- A format with its `%s` and `%d` filled in, once. -/
def fillFormat : List Char → List String → List Char
  | '%' :: 's' :: cs, args => (args.headD "").toList ++ fillFormat cs (args.drop 1)
  | '%' :: 'd' :: cs, args => (args.headD "0").toList ++ fillFormat cs (args.drop 1)
  | '%' :: '%' :: cs, args => '%' :: fillFormat cs args
  | c :: cs, args => c :: fillFormat cs args
  | [], _ => []

/-- What a command leaves: its end, its two outputs and the input that is left. -/
structure Effect where
  exit : Exit
  out : List UInt8 := []
  err : List UInt8 := []
  input : List UInt8
  /-- Does the script end here? -/
  final : Bool := false

/-- Writes files one after the other; with none, the input. -/
def catenate (tree : Tree) (input : List UInt8) (files : List String) : Effect :=
  match files with
  | [] => { exit := .code 0, out := input, input := [] }
  | _ =>
    let out := files.flatMap fun f => (tree.bytes? (namesOf f)).getD []
    let missing := files.filter fun f => !tree.hasFile (namesOf f)
    let err := missing.flatMap fun f => encode ("cat: " ++ f ++ ": No such file or directory\n")
    { exit := .code (if missing.isEmpty then 0 else 1), out, err, input }

/-- Runs one command on some input. -/
def runCommand (tree : Tree) (input : List UInt8) (words : List String) : Effect :=
  match words with
  | [] => { exit := .code 0, input }
  | "echo" :: args =>
    let (newline, args) := match args with
      | "-n" :: more => ([], more)
      | _ => (['\n'], args)
    let text := (String.intercalate " " args).toList
    { exit := .code 0, out := escapedBytes true (text.length + 1) text ++ encode (String.ofList newline), input }
  | "printf" :: format :: args =>
    let text := fillFormat format.toList args
    { exit := .code 0, out := escapedBytes false (text.length + 1) text, input }
  | "cat" :: files => catenate tree input files
  | "true" :: _ | ":" :: _ | "sleep" :: _ => { exit := .code 0, input }
  | "false" :: _ => { exit := .code 1, input }
  | "exit" :: args =>
    let n := (args.head?.bind fun a => natIn? 10 a.toList).getD 0
    { exit := .code (n % 256), input, final := true }
  | "kill" :: "-9" :: _ => { exit := .signal 9 "SIGKILL", input, final := true }
  | "kill" :: _ => { exit := .signal 15 "SIGTERM", input, final := true }
  | name :: _ =>
    { exit := .code 127, err := encode ("sh: 1: " ++ name ++ ": not found\n"), input }

/-- Runs commands one after the other. -/
def runCommands (tree : Tree) (input out err : List UInt8) (last : Exit) :
    List Command → Exit × List UInt8 × List UInt8
  | [] => (last, out, err)
  | c :: cs =>
    let runs := match c.after with
      | none => true
      | some success => last.isSuccess == success
    if !runs then runCommands tree input out err last cs
    else
      let given := match c.input with
        | some f => (tree.bytes? (namesOf f)).getD []
        | none => input
      let e := if c.words = ["exit"] then { exit := last, input := given, final := true }
        else runCommand tree given c.words
      let going (stream : Nat) :=
        (if c.out = stream then e.out else []) ++ (if c.err = stream then e.err else [])
      let out := out ++ going 1
      let err := err ++ going 2
      let left := if c.input.isSome then input else e.input
      if e.final then (e.exit, out, err) else runCommands tree left out err e.exit cs

/-- Runs a script. -/
def runScript (tree : Tree) (input : List UInt8) (script : String) : Outcome :=
  let cs := commands { after := none } (lexScript .between script.toList)
  let (exit, out, err) := runCommands tree input [] [] (.code 0) cs
  .finished exit out err

/-- What a program does in a folder, with some input. A shell without a script reads one. -/
def runProgram (tree : Tree) (input : List UInt8) (program : String) (args : List String) :
    Outcome :=
  match program, args with
  | "sh", "-c" :: script :: _ => runScript tree input script
  | "sh", [] => runScript tree [] (decodeLossy input)
  | _, _ =>
    if ["cat", "sleep", "false", "true", "echo", "printf"].contains program then
      let e := runCommand tree input (program :: args)
      .finished e.exit e.out e.err
    else .missing

end DepScope.Toolchain
