import DepScope.Files.Path
import DepScope.Pattern.Braces

/-!
# DepScope.Pattern.Glob

Patterns of file names: `?` stands for one character, `*` for any number of them, `[…]` and `[!…]`
for one of a set, and `**` as a whole step for any number of steps. Only a slash in the pattern
stands for a slash. The letters `A`–`Z` are taken for their small ones.
-/

namespace DepScope.Pattern

open Text Files

/-- One character of a set, or all between two. -/
inductive CharRange where
  | one (c : Char)
  | between (low high : Char)
deriving DecidableEq

/-- A part of a pattern. -/
inductive Wild where
  | char (c : Char)
  | any
  | within (ranges : List CharRange)
  | except (ranges : List CharRange)
  | sequence
  | steps
deriving DecidableEq

/-! ## Reading -/

/-- The ranges of a set. -/
def charRanges : List Char → List CharRange
  | a :: '-' :: b :: cs => .between a b :: charRanges cs
  | c :: cs => .one c :: charRanges cs
  | [] => []

/-- A set after its opening bracket: the part it is, and the rest. The first character belongs to
the set even if it is a closing bracket. -/
def readSet? : List Char → Option (Wild × List Char)
  | '!' :: first :: cs =>
    (cutAt? ']' cs).map fun (inside, rest) => (.except (charRanges (first :: inside)), rest)
  | ['!'] => none
  | first :: cs =>
    (cutAt? ']' cs).map fun (inside, rest) => (.within (charRanges (first :: inside)), rest)
  | [] => none

/-- The parts of a pattern; `stepStart` tells whether a step starts here, and `before` holds the
parts already read, the last one first. Malformed patterns have none. -/
def readParts : Nat → Bool → List Wild → List Char → Option (List Wild)
  | _, _, before, [] => some before.reverse
  | 0, _, _, _ :: _ => none
  | fuel + 1, stepStart, before, c :: cs =>
    match c with
    | '?' => readParts fuel false (.any :: before) cs
    | '*' =>
      let stars := (cs.takeWhile (· == '*')).length + 1
      let rest := cs.drop (stars - 1)
      if stars = 1 then readParts fuel false (.sequence :: before) rest
      else if stars = 2 && stepStart then
        -- steps after steps add nothing
        let more := if before.head? == some .steps && 1 < before.length then before
          else .steps :: before
        match rest with
        | [] => some more.reverse
        | '/' :: rest => readParts fuel true more rest
        | _ => none
      else none
    | '[' => do
      let (set, rest) ← readSet? cs
      readParts fuel false (set :: before) rest
    | c => readParts fuel (c = '/') (.char c :: before) cs

/-- The parts of a pattern. -/
def parts? (pattern : List Char) : Option (List Wild) :=
  readParts pattern.length true [] pattern

/-! ## Matching -/

/-- Equal characters, the letters of ASCII in either case. -/
def sameChar (a b : Char) : Bool :=
  lowerAscii a == lowerAscii b

/-- Is a character in a range? Ranges between letters hold for either case. -/
def CharRange.holds (r : CharRange) (c : Char) : Bool :=
  match r with
  | one x => sameChar c x
  | between low high =>
    (low ≤ c && c ≤ high) ||
      (isAsciiLetter low && isAsciiLetter high && c.toNat < 0x80 &&
        lowerAscii low ≤ lowerAscii c && lowerAscii c ≤ lowerAscii high)

/-- Does a part that stands for one character stand for this one? -/
def Wild.holds (w : Wild) (c : Char) : Bool :=
  match w with
  | char x => sameChar c x
  | any => c != '/'
  | within ranges => c != '/' && ranges.any (·.holds c)
  | except ranges => c != '/' && !ranges.any (·.holds c)
  | sequence | steps => false

/-- How the comparison of a text with a pattern ends. -/
inductive Outcome where
  | matched
  | failed
  /-- The text ended first, so a shorter rest of it need not be tried. -/
  | tooShort
deriving DecidableEq

/-- The first outcome, unless another place may do better. -/
def Outcome.orElse (first : Outcome) (second : Unit → Outcome) : Outcome :=
  match first with
  | failed => second ()
  | matched => matched
  | tooShort => tooShort

/-- Tries a rest of the text after any number of characters other than a slash. -/
def afterSequence (compare : List Char → Outcome) : List Char → Outcome
  | [] => compare []
  | c :: cs =>
    (compare (c :: cs)).orElse fun _ => if c = '/' then .failed else afterSequence compare cs

/-- Tries a rest of the text after any number of steps, or at its end. -/
def afterSteps (compare : List Char → Outcome) (stepStart : Bool) : List Char → Outcome
  | [] => compare []
  | c :: cs =>
    (if stepStart then compare (c :: cs) else .failed).orElse fun _ =>
      afterSteps compare (c = '/') cs

/-- Compares a text with the parts of a pattern. -/
def outcome : List Wild → List Char → Outcome
  | [], cs => if cs.isEmpty then .matched else .failed
  | .sequence :: ws, cs => afterSequence (outcome ws) cs
  | .steps :: ws, cs => afterSteps (outcome ws) true cs
  | w :: ws, c :: cs => if w.holds c then outcome ws cs else .failed
  | _ :: _, [] => .tooShort

/-- Does a text match the parts of a pattern? -/
def accepts (ws : List Wild) (cs : List Char) : Bool :=
  decide (outcome ws cs = .matched)

/-! ## Manifest patterns -/

/-- One pattern without alternatives: how many steps it speaks of, and its parts. -/
structure Alternative where
  depth : Nat
  parts : List Wild
deriving DecidableEq

/-- A pattern with its alternatives; malformed ones are left out. -/
structure Glob where
  source : List Char
  alternatives : List Alternative

/-- Reads a pattern. -/
def Glob.ofSource (source : List Char) : Glob :=
  ⟨source, (expand source).filterMap fun p => (parts? p).map fun parts => ⟨p.count '/' + 1, parts⟩⟩

/-- Does the end of a path match? Each alternative looks at as many steps as it speaks of. -/
def Glob.matches (g : Glob) (path : List Char) : Bool :=
  let steps := (components path).map Component.text
  g.alternatives.any fun a =>
    a.depth ≤ steps.length &&
      accepts a.parts (joinWith ['/'] (steps.drop (steps.length - a.depth)))

end DepScope.Pattern
