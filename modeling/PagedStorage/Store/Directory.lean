import PagedStorage.Store.Basic
import PagedStorage.Store.Path

/-!
# Directories of files

Page files are found by path. A `Directory` holds files and further directories, each at its
place, which is the list of the names that lead there, and says what opening a path gives: the
place and contents of a file, or why there is none.

A path is followed name by name, and every name is looked for in a directory. So what a path goes
through must be there and must be a directory, even where two dots lead back at once, and only
then is the next name looked at. A path that ends with a slash, or with a dot, ends in a
directory. A file that is to be made cannot be named like that: such a path is refused as that of
a directory before its last name is looked for.
-/

namespace PagedStorage

inductive DirectoryEntry where
  | directory
  | file (contents : Contents)
deriving DecidableEq, Inhabited

structure Directory where
  entries : List (List String × DirectoryEntry) := []
  /-- The most bytes that a file in it can have, if there is a limit. -/
  limit? : Option Nat := none
deriving DecidableEq, Inhabited

/-- How a file is opened. -/
inductive OpenMode where
  /-- An existing file loses its contents, a missing one is made. -/
  | create
  /-- The file must exist. -/
  | existing
  /-- A missing file is made, and the directories it lies in. -/
  | openOrCreate
deriving DecidableEq, Repr, Inhabited

namespace Directory

/-! ## Places -/

/-- What lies at a place. The empty list is the place of the directory itself; two dots stand for
what holds it, and a slash for the root. -/
def find? (d : Directory) (place : List String) : Option DirectoryEntry :=
  if place.all fun name ↦ name = ".." || name = "/" then some .directory
  else d.entries.lookup place

def put (d : Directory) (place : List String) (entry : DirectoryEntry) : Directory :=
  { d with entries := (place, entry) :: d.entries.filter fun e ↦ e.1 != place }

/-- The place one step up. The root is its own. -/
def holder (place : List String) : List String :=
  match place.getLast? with
  | none => [".."]
  | some name =>
    if name = "/" then place
    else if name = ".." then place ++ [".."]
    else place.dropLast

/-! ## Following a path -/

/-- Where a name leads from a place. -/
def step (d : Directory) (place : List String) (name : String) : Except IoFault (List String) :=
  match d.find? place with
  | none => .error .notFound
  | some (.file _) => .error .notADirectory
  | some .directory =>
    if Path.staysPut name then .ok place
    else if name = ".." then .ok (holder place)
    else if Path.maxNameSize < name.utf8ByteSize then .error .nameTooLong
    else .ok (place ++ [name])

/-- Where names lead from a place, one after the other. -/
def follow (d : Directory) (place : List String) : List String → Except IoFault (List String)
  | [] => .ok place
  | name :: rest => do d.follow (← d.step place name) rest

/-- The place to which a path leads. There may be nothing at it, but it lies in a directory. -/
def resolve (d : Directory) (path : Path) : Except IoFault (List String) :=
  d.follow (if path.isRooted then ["/"] else []) path

/-- The place of a file, which may have to be made. -/
def locate (d : Directory) (path : Path) (making : Bool) : Except IoFault (List String) := do
  path.check
  match if making then path.beforeSlash? else none with
  | some outer =>
    let _ ← d.resolve outer
    .error .isDirectory
  | none => d.resolve path

/-! ## Making directories -/

/-- Makes one directory, unless it is there. -/
def makeDirectory (d : Directory) (path : Path) : Except IoFault Directory := do
  path.check
  let place ← d.resolve path
  match d.find? place with
  | none => .ok (d.put place .directory)
  | some .directory => .ok d
  | some (.file _) => .error .alreadyExists

/-- Makes a directory and those it lies in, as far as they are missing. The names come last one
first: the whole path is tried before what it lies in, so a file in the way is met where the
longest of the paths meets it. What was made before a failure stays. -/
def makeDirectories (d : Directory) : List String → Except IoFault Unit × Directory
  | [] => (.ok (), d)
  | name :: outer =>
    if Path.staysPut name then d.makeDirectories outer
    else
      let path : Path := (name :: outer).reverse
      match d.makeDirectory path with
      | .ok d => (.ok (), d)
      | .error .notFound =>
        match d.makeDirectories outer with
        | (.error cause, d) => (.error cause, d)
        | (.ok (), d) =>
          match d.makeDirectory path with
          | .ok d => (.ok (), d)
          | .error cause => (.error cause, d)
      | .error cause => (.error cause, d)

/-! ## Files -/

/-- Opens the file at a path and answers its place and contents. -/
def openAt (d : Directory) (path : Path) (mode : OpenMode) :
    Except IoFault (List String × Contents) × Directory :=
  match d.locate path (decide (mode ≠ .existing)) with
  | .error cause => (.error cause, d)
  | .ok place =>
    match d.find? place with
    | some .directory => (.error .isDirectory, d)
    | some (.file contents) =>
      if mode = .create then (.ok (place, {}), d.put place (.file {}))
      else (.ok (place, contents), d)
    | none =>
      if mode = .existing then (.error .notFound, d)
      else (.ok (place, {}), d.put place (.file {}))

/-- Opens a path, after making the directories on the way if the mode asks for it. They stay, also
if there is no file in the end. -/
def openFile (d : Directory) (text : String) (mode : OpenMode) :
    Except IoFault (List String × Contents) × Directory :=
  let path := Path.ofText text
  if mode = .openOrCreate then
    match d.makeDirectories path.parent.reverse with
    | (.error cause, d) => (.error cause, d)
    | (.ok (), d) => d.openAt path mode
  else d.openAt path mode

/-- The number of bytes that memory can hold at once. -/
def memorySize : Nat := UInt32.size * 256

/-- The contents of the file at a path, all of them at once. -/
def contents (d : Directory) (text : String) : Except IoFault Contents := do
  let place ← d.locate (Path.ofText text) false
  match d.find? place with
  | some (.file contents) =>
    if memorySize < contents.size then .error .outOfMemory else .ok contents
  | some .directory => .error .isDirectory
  | none => .error .notFound

end Directory

end PagedStorage
