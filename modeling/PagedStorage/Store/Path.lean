import PagedStorage.Error

/-!
# Paths

A path is written as names with slashes between them, and is kept as the list of these names. Not
every name is the name of an entry: two dots lead up, and one dot leads nowhere else. Neither does
an empty name, which stands where two slashes meet and before or after a slash at an end. A path
that starts with a slash is rooted, and a path that ends with one speaks of a directory.

Whether a path can be asked for at all does not depend on what lies there: it must not be too long
and must not have a NUL character in it.
-/

namespace PagedStorage

/-- The names between the slashes of a path. -/
abbrev Path := List String

namespace Path

def ofText (text : String) : Path := text.splitOn "/"

def text (path : Path) : String := "/".intercalate path

/-! ## Names -/

/-- The largest number of bytes in a name. -/
def maxNameSize : Nat := 255

/-- The largest number of bytes in a path. -/
def maxSize : Nat := 4095

/-- Whether a name leads nowhere else. -/
def staysPut (name : String) : Bool := name = "" || name = "."

/-- Whether a name is that of an entry of a directory. -/
def isEntryName (name : String) : Bool := !staysPut name && name != ".."

/-! ## Forms of a path -/

def isRooted : Path → Bool
  | "" :: _ :: _ => true
  | _ => false

/-- The path to what holds the end of a path: the names before the last one that leads anywhere. -/
def parent (path : Path) : Path := (path.reverse.dropWhile staysPut).tail.reverse

/-- For a path that ends with the name of an entry and a slash, the path to the directory in which
that entry is looked for. -/
def beforeSlash? (path : Path) : Option Path :=
  match path.reverse with
  | "" :: rest =>
    match rest.dropWhile (· = "") with
    | name :: before => if isEntryName name then some (before.reverse ++ ["."]) else none
    | [] => none
  | _ => none

/-- Whether a path can be asked for, whatever lies there. -/
def check (path : Path) : Except IoFault Unit :=
  if path.any fun name ↦ name.toList.contains '\x00' then .error .nulInPath
  else if maxSize < path.text.utf8ByteSize then .error .nameTooLong
  else .ok ()

end Path

end PagedStorage
