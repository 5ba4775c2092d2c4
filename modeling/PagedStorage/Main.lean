import PagedStorage.Cli.Run

/-!
# The program

Reads the page file that a command line names, carries out the command, and writes the file.
All decisions are made by `Cli.parse` and `Cli.runOn`.
-/

namespace PagedStorage.Cli

/-- What kept the system from opening a file. -/
def ioFaultOf : IO.Error → IoFault
  | .noFileOrDirectory .. => .notFound
  | .alreadyExists .. => .alreadyExists
  | .inappropriateType _ code _ => if code = 20 then .notADirectory else .isDirectory
  | .invalidArgument _ 36 _ => .nameTooLong
  | e => .described (toString e)

/-- The contents of a file, which is made if it is missing, with the directories it lies in. -/
def openPath (path : String) : IO (Except IoFault Contents) := do
  try
    let outer := (Path.ofText path).parent.text
    unless outer.isEmpty do
      IO.FS.createDirAll outer
    let file ← IO.FS.Handle.mk path .append
    file.flush
    let bytes ← IO.FS.readBinFile path
    return .ok (.ofArray bytes.data)
  catch e => return .error (ioFaultOf e)

end PagedStorage.Cli

open PagedStorage in
/-- The command line, without the name of the program. -/
def main (line : List String) : IO UInt32 := do
  let outcome ← match Cli.parse line with
    | .error stop => pure (Cli.stopped stop)
    | .ok (settings, command) => do
      let seed ← IO.rand 0 UInt64.size
      let opened ← Cli.openPath settings.path
      -- The contents are written at the end, by the system, which knows of limits.
      let (outcome, contents) := Cli.runOn none seed settings command opened
      if opened.toBool then IO.FS.writeBinFile settings.path ⟨contents.toArray⟩
      pure outcome
  IO.print outcome.out
  IO.eprint outcome.err
  return .ofNat outcome.code
