import PagedStorage.Cli.Words
import PagedStorage.Layout
import PagedStorage.Pool.Config

/-!
# Commands

What can be asked for on the command line: options for all commands, then the command and what
belongs to it.
-/

namespace PagedStorage.Cli

/-- The options for all commands. -/
structure Settings where
  path : String := "./pagerdb.db"
  pool : PoolConfig := {}
deriving DecidableEq, Repr, Inhabited

inductive Command where
  /-- Store a record. -/
  | insert (text : String)
  /-- Show a record. -/
  | get (id : RecordId)
  | delete (id : RecordId)
  /-- Make a page empty. -/
  | dropPage (page : PageId)
  /-- Show every page with its records. -/
  | dump
  /-- Store records with made-up contents. -/
  | fill (count minSize maxSize : Nat)
deriving DecidableEq, Repr, Inhabited

/-! ## Options -/

def helpOption : OptionSpec := { long := "help", letter? := some 'h', effect := .help }

def generalOptions : List OptionSpec := [
  { long := "db", letter? := some 'D', accepts := (· != "") },
  { long := "pool-size", letter? := some 'p', accepts := fun text ↦ (count? text).isSome },
  { long := "replacer", letter? := some 'r', accepts := fun text ↦
      (ReplacerKind.ofName text).toBool },
  { long := "debug", letter? := some 'd', effect := .flag },
  helpOption,
  { long := "version", letter? := some 'V', effect := .version }]

def fillOptions : List OptionSpec := [
  { long := "count", letter? := some 'c', accepts := fun text ↦ (count? text).isSome },
  { long := "min-size", accepts := fun text ↦ (count? text).isSome },
  { long := "max-size", accepts := fun text ↦ (count? text).isSome }]

/-- The settings that the options ask for. -/
def Settings.ofReading (r : Reading) : Settings :=
  let standard : Settings := {}
  { path := (r.value? "db").getD standard.path
    pool := {
      frames := ((r.value? "pool-size").bind count?).getD standard.pool.frames
      replacer := ((r.value? "replacer").bind fun text ↦
        (ReplacerKind.ofName text).toOption).getD standard.pool.replacer } }

/-! ## Commands by name -/

/-- A command as it is written: its name, what the words after it can be, its options, its
meaning. -/
structure Verb where
  name : String
  accepts : List (String → Bool) := []
  options : List OptionSpec := []
  meaning : Reading → Option Command

def pageId? (text : String) : Option PageId := (below? UInt32.size text).map UInt32.ofNat

def recordId? : List String → Option RecordId
  | [page, slot] => do
    let page ← pageId? page
    let slot ← below? UInt16.size slot
    some ⟨page, .ofNat slot⟩
  | _ => none

def isPageId (text : String) : Bool := (pageId? text).isSome

def isSlotId (text : String) : Bool := (below? UInt16.size text).isSome

def verbs : List Verb := [
  { name := "insert", accepts := [fun _ ↦ true], meaning := fun r ↦
      r.words.head?.map .insert },
  { name := "get", accepts := [isPageId, isSlotId], meaning := fun r ↦
      (recordId? r.words).map .get },
  { name := "delete", accepts := [isPageId, isSlotId], meaning := fun r ↦
      (recordId? r.words).map .delete },
  { name := "drop-page", accepts := [isPageId], meaning := fun r ↦
      (r.words.head?.bind pageId?).map .dropPage },
  { name := "dump", meaning := fun _ ↦ some .dump },
  { name := "fill", options := fillOptions, meaning := fun r ↦
      let size name standard := ((r.value? name).bind count?).getD standard
      some (.fill (size "count" 100) (size "min-size" 8) (size "max-size" 256)) }]

/-- The settings and the command on a command line. -/
def parse (line : List String) : Except Stop (Settings × Command) := do
  match ← Reading.readOptions generalOptions {} line with
  | (_, []) => .error .misuse
  | (general, name :: rest) =>
    match verbs.find? (·.name = name) with
    | some verb =>
      let own ← Reading.readAll (helpOption :: verb.options) verb.accepts {} rest
      match verb.meaning own with
      | some command => .ok (.ofReading general, command)
      | none => .error .misuse
    | none =>
      let known := verbs.any fun verb ↦ decide (rest = [verb.name])
      .error (if name = "help" ∧ (rest = [] ∨ known) then .help else .misuse)

end PagedStorage.Cli
