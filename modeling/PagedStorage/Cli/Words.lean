/-!
# Reading a command line

The grammar of command lines, before any meaning. A line is a list of words. A word that starts
with a dash is an option, except for a single dash; options have a long name after two dashes and
may have a letter after one. Letters can be joined, and the last of them may take a value, which
follows in the same word or is the next one. Two dashes alone end the options. No option may be
given twice, and an option that takes a value cannot have a word with a dash for it unless it is
in the same word.

Everything is read from left to right, and the first mistake, or the first request for help,
ends the reading. A word that is no number where one belongs is a mistake at its place.
-/

namespace PagedStorage.Cli

/-! ## Numbers -/

/-- A number in decimal digits, at least one. -/
def digits? (text : List Char) : Option Nat :=
  if text ≠ [] ∧ text.all (fun c ↦ decide ('0' ≤ c) && decide (c ≤ '9')) then
    some (text.foldl (fun n c ↦ n * 10 + (c.toNat - '0'.toNat)) 0)
  else none

/-- A number that may have a plus sign. -/
def natural? (text : String) : Option Nat :=
  match text.toList with
  | '+' :: rest => digits? rest
  | rest => digits? rest

/-- A number that may have a sign. -/
def integer? (text : String) : Option Int :=
  match text.toList with
  | '-' :: rest => (digits? rest).map fun n ↦ -(n : Int)
  | '+' :: rest => (digits? rest).map Int.ofNat
  | rest => (digits? rest).map Int.ofNat

/-- A number from 0 that fits 64 bits. -/
def count? (text : String) : Option Nat := (natural? text).filter fun n ↦ decide (n < UInt64.size)

/-- A number from 0 to below `bound`, which may be written with a sign. -/
def below? (bound : Nat) (text : String) : Option Nat :=
  (integer? text).bind fun n ↦ if 0 ≤ n ∧ n < bound then some n.toNat else none

/-! ## Options -/

/-- What giving an option does. -/
inductive OptionEffect where
  | value
  | flag
  | help
  | version
deriving DecidableEq, Repr

structure OptionSpec where
  long : String
  letter? : Option Char := none
  effect : OptionEffect := .value
  /-- Whether a value can be read. -/
  accepts : String → Bool := fun _ ↦ true

/-- Why reading a line ended early. -/
inductive Stop where
  | misuse
  | help
  | version
deriving DecidableEq, Repr

/-- What was read so far. -/
structure Reading where
  /-- The options given, with their values; a flag has an empty one. -/
  options : List (String × String) := []
  /-- An option whose value is the next word. -/
  pending : Option OptionSpec := none
  words : List String := []

namespace Reading

/-- The value of an option. -/
def value? (r : Reading) (long : String) : Option String := r.options.lookup long

/-- Notes an option and its value. -/
def note (r : Reading) (spec : OptionSpec) (text : String) : Except Stop Reading :=
  if r.options.any (·.1 = spec.long) ∨ spec.accepts text = false then .error .misuse
  else .ok { r with options := (spec.long, text) :: r.options, pending := none }

/-- Reads an option given by its long name, with the value in the same word if there is one. -/
def readLong (r : Reading) (specs : List OptionSpec) (long : String) (text? : Option String) :
    Except Stop Reading :=
  match specs.find? (·.long = long) with
  | none => .error .misuse
  | some spec =>
    match spec.effect, text? with
    | .value, some text => r.note spec text
    | .value, none => .ok { r with pending := some spec }
    | .flag, none => r.note spec ""
    | .help, none => .error .help
    | .version, none => .error .version
    | _, some _ => .error .misuse

/-- Reads joined letters. -/
def readLetters (r : Reading) (specs : List OptionSpec) : List Char → Except Stop Reading
  | [] => .ok r
  | c :: rest =>
    match specs.find? (·.letter? = some c) with
    | none => .error .misuse
    | some spec =>
      match spec.effect with
      | .help => .error .help
      | .version => .error .version
      | .flag => do readLetters (← r.note spec "") specs rest
      | .value =>
        match rest with
        | [] => .ok { r with pending := some spec }
        | '=' :: text => r.note spec (String.ofList text)
        | text => r.note spec (String.ofList text)

/-- Whether a word is an option or a group of options. -/
def isDashed (word : String) : Bool := word.startsWith "-" && word != "-"

/-- Reads a word that starts with a dash. -/
def readDashed (r : Reading) (specs : List OptionSpec) (word : String) : Except Stop Reading :=
  match word.toList with
  | '-' :: '-' :: long =>
    let name := long.takeWhile (· != '=')
    let text? :=
      match long.drop name.length with
      | _ :: text => some (String.ofList text)
      | [] => none
    r.readLong specs (String.ofList name) text?
  | _ :: letters => r.readLetters specs letters
  | [] => .error .misuse

/-- Reads options up to the first word that is none, and leaves that word and the rest. -/
def readOptions (specs : List OptionSpec) : Reading → List String →
    Except Stop (Reading × List String)
  | r, [] => if r.pending.isSome then .error .misuse else .ok (r, [])
  | r, word :: rest =>
    match r.pending with
    | some spec =>
      if isDashed word then .error .misuse
      else do readOptions specs (← r.note spec word) rest
    | none =>
      if word = "--" then .error .misuse
      else if isDashed word then do readOptions specs (← r.readDashed specs word) rest
      else .ok (r, word :: rest)

/-- Takes a word for the next of the places in `accepts`, each of which says what it can read. -/
def take (r : Reading) (accepts : List (String → Bool)) (word : String) :
    Except Stop (Reading × List (String → Bool)) :=
  match accepts with
  | readable :: accepts =>
    if readable word then .ok ({ r with words := r.words ++ [word] }, accepts)
    else .error .misuse
  | [] => .error .misuse

/-- Reads words only, one for each place, to the end of the line. -/
def readWords : List (String → Bool) → Reading → List String → Except Stop Reading
  | accepts, r, [] => if accepts.isEmpty then .ok r else .error .misuse
  | accepts, r, word :: rest => do
    let (r, accepts) ← r.take accepts word
    readWords accepts r rest

/-- Reads options and other words, one for each place, to the end of the line. -/
def readAll (specs : List OptionSpec) :
    List (String → Bool) → Reading → List String → Except Stop Reading
  | accepts, r, [] => if r.pending.isSome then .error .misuse else readWords accepts r []
  | accepts, r, word :: rest =>
    match r.pending with
    | some spec =>
      if isDashed word then .error .misuse
      else do readAll specs accepts (← r.note spec word) rest
    | none =>
      if word = "--" then readWords accepts r rest
      else if isDashed word then do readAll specs accepts (← r.readDashed specs word) rest
      else do
        let (r, accepts) ← r.take accepts word
        readAll specs accepts r rest

end Reading

end PagedStorage.Cli
