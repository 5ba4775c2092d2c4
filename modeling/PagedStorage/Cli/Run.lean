import PagedStorage.Cli.Command
import PagedStorage.Heap.Basic
import PagedStorage.Page.Text
import PagedStorage.Store.Directory
import PagedStorage.Text.Utf8

/-!
# Running a command

A command opens the page file, works on it through a pool, and writes back what it changed. All
of it is a function: from the contents of the file to its new contents and to what is shown. A
command that fails does not write back, but pages that had to leave their frames before are in
the file already.

`Cli.run` is the whole program over a directory of files.
-/

namespace PagedStorage.Cli

/-! ## Failures as they are shown -/

/-- A failure: what was being done, then the causes, the last one innermost. -/
abbrev Failure := List String

/-- An error and the failure of the medium behind it. -/
def failureOf (e : Error) : Failure :=
  e.message :: (e.ioCause?.map (·.message)).toList

/-- The text of a failure. Several causes are numbered. -/
def Failure.report : Failure → String
  | [] => ""
  | [what] => "Error: " ++ what ++ "\n"
  | [what, cause] => "Error: " ++ what ++ "\n\nCaused by:\n    " ++ cause ++ "\n"
  | what :: causes =>
    "Error: " ++ what ++ "\n\nCaused by:\n" ++
      String.join (causes.zipIdx.map fun (cause, i) ↦
        "    " ++ toString i ++ ": " ++ cause ++ "\n")

/-- What a run leaves behind: the exit code and the two output texts. -/
structure Outcome where
  code : Nat
  out : String := ""
  err : String := ""
deriving DecidableEq, Repr, Inhabited

/-! ## Made-up records -/

/-- The next state of the source of made-up contents. -/
def nextSeed (seed : Nat) : Nat :=
  (seed * 6364136223846793005 + 1442695040888963407) % UInt64.size

/-- `count` small letters. -/
def letters (seed : Nat) : Nat → List UInt8
  | 0 => []
  | count + 1 => .ofNat (97 + seed / UInt32.size % 26) :: letters (nextSeed seed) count

/-- Stores `count` made-up records with sizes from `low` to `high`. -/
def storeLetters (h : Heap) (pool : Pool Policy) (low high seed : Nat) :
    Nat → Except Error Unit × Heap × Pool Policy
  | 0 => (.ok (), h, pool)
  | count + 1 =>
    let size := low + seed / UInt32.size % (high - low + 1)
    match h.insert pool (letters (nextSeed seed) size) with
    | (.error e, h, pool) => (.error e, h, pool)
    | (.ok _, h, pool) => storeLetters h pool low high (nextSeed (seed + size)) count

/-! ## The commands -/

/-- What a command shows, and whether and why it failed. -/
structure Shown where
  out : String := ""
  failure? : Option Failure := none

def shown (line : String) : Shown := { out := line ++ "\n" }

def failed (e : Error) : Shown := { failure? := some (failureOf e) }

/-- The pages with these ids and their records, until one cannot be shown. -/
def dumpPages (pool : Pool Policy) : List PageId → Shown × Pool Policy
  | [] => ({}, pool)
  | id :: rest =>
    match pool.guard id with
    | (.error e, pool) => (failed e, pool)
    | (.ok g, pool) =>
      let page := pool.page g.handle
      let pool := pool.release g
      let head := page.summary ++ "\n"
      match page.records with
      | .error e => ({ failed e with out := head }, pool)
      | .ok records =>
        let lines := records.map fun (id, record) ↦
          "  " ++ id.text ++ " " ++ Utf8.textOf record ++ "\n"
        let (more, pool) := dumpPages pool rest
        ({ more with out := head ++ String.join lines ++ more.out }, pool)

/-- Carries out a command. The seed decides on made-up contents and on nothing else. -/
def perform (seed : Nat) (pool : Pool Policy) : Command → Shown × Pool Policy
  | .insert text =>
    match (Heap.ofFile pool.file).insert pool (Utf8.bytesOf text) with
    | (.ok id, _, pool) => (shown ("inserted " ++ id.text), pool)
    | (.error e, _, pool) => (failed e, pool)
  | .get id =>
    match Heap.get pool id with
    | (.ok (some record), pool) => (shown (Utf8.textOf record), pool)
    | (.ok none, pool) => (shown ("record " ++ id.text ++ " not found"), pool)
    | (.error e, pool) => (failed e, pool)
  | .delete id =>
    match Heap.delete pool id with
    | (.ok (), pool) => (shown ("deleted " ++ id.text), pool)
    | (.error e, pool) => (failed e, pool)
  | .dropPage page =>
    match pool.delete page with
    | (.ok (), pool) => (shown ("dropped page " ++ toString page), pool)
    | (.error e, pool) => (failed e, pool)
  | .dump => dumpPages pool ((List.range pool.file.pageCount).map UInt32.ofNat)
  | .fill count minSize maxSize =>
    if maxSize < minSize then
      ({ failure? := some ["--min-size must not exceed --max-size"] }, pool)
    else
      match storeLetters (Heap.ofFile pool.file) pool minSize maxSize seed count with
      | (.ok (), h, pool) =>
        (shown ("inserted " ++ toString count ++ " records over " ++
          toString h.pages.length ++ " pages"), pool)
      | (.error e, _, pool) => (failed e, pool)

/-! ## Runs -/

/-- A failed run. -/
def failing (out : String) (failure : Failure) : Outcome :=
  { code := 1, out := out, err := failure.report }

/-- Carries out a command on the contents of a file, which may have a limit, or on the reason why it
could not be opened. Answers the new contents as well. -/
def runOn (limit? : Option Nat) (seed : Nat) (settings : Settings) (command : Command)
    (opened : Except IoFault Contents) : Outcome × Contents :=
  let unopened := "Failed to open page file " ++ settings.path
  match opened with
  | .error cause => (failing "" (unopened :: failureOf (.io cause)), {})
  | .ok contents =>
    match PageFile.load (.onFile limit? contents) with
    | (.error e, store) => (failing "" (unopened :: failureOf e), store.contents)
    | (.ok file, _) =>
      match Pool.ofConfig file settings.pool with
      | .error e =>
        (failing "" ("Invalid buffer pool configuration" :: failureOf e), file.store.contents)
      | .ok pool =>
        match perform seed pool command with
        | ({ out := out, failure? := some failure }, pool) =>
          (failing out failure, pool.file.store.contents)
        | ({ out := out, failure? := none }, pool) =>
          match pool.flushAll with
          | (.ok (), pool) => ({ code := 0, out := out }, pool.file.store.contents)
          | (.error e, pool) =>
            (failing out ("Failed to flush buffer pool" :: failureOf e), pool.file.store.contents)

/-- What a line that is no command leads to. -/
def stopped : Stop → Outcome
  | .misuse => { code := 2, err := "error: wrong usage, try '--help'\n" }
  | .help => { code := 0, out := "Usage: pagerdb [OPTIONS] <COMMAND>\n" }
  | .version => { code := 0, out := "pagerdb 0.1.0\n" }

/-- The program: carries out a command line on a directory of files. -/
def run (seed : Nat) (directory : Directory) (line : List String) : Outcome × Directory :=
  match parse line with
  | .error stop => (stopped stop, directory)
  | .ok (settings, command) =>
    match directory.openFile settings.path .openOrCreate with
    | (.error cause, directory) =>
      ((runOn directory.limit? seed settings command (.error cause)).1, directory)
    | (.ok (place, contents), directory) =>
      let (outcome, contents) := runOn directory.limit? seed settings command (.ok contents)
      (outcome, directory.put place (.file contents))

end PagedStorage.Cli
