/-!
# A cache that drops what was used longest ago

A cache holds at most `capacity` pairs of a key and a value. The pairs are the entries of an
arena, in cells that never move, and an index tells the cell of a key. The order of uses runs
through the entries: each one names the cell of the entry used next after it and of the one used
next before it, and the cache knows both ends. A use takes an entry out of this order and puts it
in front, so nothing but links changes hands.

A cell whose entry is taken out is vacant, and vacant cells are taken again before the arena
grows. The arena is therefore never larger than the most pairs that the cache has held.
-/

namespace PagedStorage

/-- A pair in the cache and its neighbours in the order of uses. -/
structure CacheEntry (κ ν : Type) where
  key : κ
  value : ν
  /-- The cell of the entry used next after this one. -/
  prev : Option Nat := none
  /-- The cell of the entry used next before this one. -/
  next : Option Nat := none
deriving DecidableEq, Repr

structure LruCache (κ ν : Type) where
  capacity : Nat
  /-- The cells of the keys. -/
  index : List (κ × Nat) := []
  /-- The arena. A vacant cell has no entry. -/
  entries : Array (Option (CacheEntry κ ν)) := #[]
  /-- The vacant cells, the one to be taken next in front. -/
  vacant : List Nat := []
  /-- The cell of the entry used last. -/
  head : Option Nat := none
  /-- The cell of the entry used longest ago. -/
  tail : Option Nat := none
deriving DecidableEq, Repr

namespace LruCache

variable {κ ν : Type}

def size (c : LruCache κ ν) : Nat := c.index.length

def isEmpty (c : LruCache κ ν) : Bool := c.index.isEmpty

/-! ## Cells -/

/-- The entry in a cell. A vacant cell has none, and neither has a cell outside the arena. -/
def occupant? (c : LruCache κ ν) (i : Nat) : Option (CacheEntry κ ν) := c.entries.getD i none

/-- Changes what is in a cell of the arena. -/
def put (c : LruCache κ ν) (i : Nat) (e : Option (CacheEntry κ ν)) : LruCache κ ν :=
  { c with entries := c.entries.setIfInBounds i e }

/-- Changes the entry in a cell, if there is a cell and an entry in it. -/
def change? (c : LruCache κ ν) (cell : Option Nat) (f : CacheEntry κ ν → CacheEntry κ ν) :
    Option (LruCache κ ν) := do
  let i ← cell
  let e ← c.occupant? i
  some (c.put i (some (f e)))

/-- Puts an entry into a vacant cell, or into a new one if there is none, and answers the cell. -/
def place (c : LruCache κ ν) (e : CacheEntry κ ν) : Nat × LruCache κ ν :=
  match c.vacant with
  | i :: rest => (i, { c with vacant := rest }.put i (some e))
  | [] => (c.entries.size, { c with entries := c.entries.push (some e) })

/-! ## The order of uses -/

/-- Takes an entry out of the order. Its neighbours become neighbours of each other. -/
def unlink (c : LruCache κ ν) (i : Nat) : LruCache κ ν :=
  match c.occupant? i with
  | none => c
  | some e =>
    let c := c.put i (some { e with prev := none, next := none })
    let c := (c.change? e.prev ({ · with next := e.next })).getD { c with head := e.next }
    (c.change? e.next ({ · with prev := e.prev })).getD { c with tail := e.prev }

/-- Puts an entry that is not in the order in front of it. -/
def pushFront (c : LruCache κ ν) (i : Nat) : LruCache κ ν :=
  let front := c.head
  let c := (c.change? (some i) ({ · with prev := none, next := front })).getD c
  let c := (c.change? front ({ · with prev := some i })).getD { c with tail := some i }
  { c with head := some i }

/-- Makes an entry the one used last. -/
def bump (c : LruCache κ ν) (i : Nat) : LruCache κ ν :=
  if c.head = some i then c else (c.unlink i).pushFront i

/-- Takes the entry in a cell out of the cache, but for the index. -/
def vacate (c : LruCache κ ν) (i : Nat) : Option (CacheEntry κ ν) × LruCache κ ν :=
  let c := c.unlink i
  (c.occupant? i, { c with vacant := i :: c.vacant }.put i none)

/-- The entries in at most `n` cells, along the links from one on. -/
def follow (c : LruCache κ ν) : Nat → Option Nat → List (CacheEntry κ ν)
  | 0, _ => []
  | n + 1, cursor =>
    match cursor.bind c.occupant? with
    | some e => e :: follow c n e.next
    | none => []

/-- The keys from the one used last to the one used longest ago. -/
def keys (c : LruCache κ ν) : List κ := (c.follow c.entries.size c.head).map (·.key)

/-! ## Calls -/

variable [DecidableEq κ]

/-- The cell of a key. -/
def cell? (c : LruCache κ ν) (key : κ) : Option Nat := c.index.lookup key

/-- Takes a key out of the index. -/
def forget (c : LruCache κ ν) (key : κ) : LruCache κ ν :=
  { c with index := c.index.filter fun entry ↦ entry.1 != key }

def contains (c : LruCache κ ν) (key : κ) : Bool := (c.cell? key).isSome

/-- The value of a key. This is no use of the key. -/
def peek? (c : LruCache κ ν) (key : κ) : Option ν :=
  ((c.cell? key).bind c.occupant?).map (·.value)

/-- The value of a key, which counts as a use. -/
def get? (c : LruCache κ ν) (key : κ) : Option ν × LruCache κ ν :=
  match c.cell? key with
  | some i => (((c.bump i).occupant? i).map (·.value), c.bump i)
  | none => (none, c)

/-- Takes a key out and answers its value. -/
def remove (c : LruCache κ ν) (key : κ) : Option ν × LruCache κ ν :=
  match c.cell? key with
  | some i =>
    let (e?, c) := (c.forget key).vacate i
    (e?.map (·.value), c)
  | none => (none, c)

/-- Takes out the pair used longest ago. -/
def evict (c : LruCache κ ν) : Option (κ × ν) × LruCache κ ν :=
  match c.tail with
  | some i =>
    match c.vacate i with
    | (some e, c) => (some (e.key, e.value), c.forget e.key)
    | (none, c) => (none, c)
  | none => (none, c)

/-- Puts a pair with a new key in front. -/
def enter (c : LruCache κ ν) (key : κ) (value : ν) : LruCache κ ν :=
  let (i, c) := c.place { key := key, value := value }
  { c with index := (key, i) :: c.index }.pushFront i

/-- Puts a value under a key and answers the pair that had to make room. A cache without capacity
gives back what it was given. -/
def insert (c : LruCache κ ν) (key : κ) (value : ν) : Option (κ × ν) × LruCache κ ν :=
  match c.cell? key with
  | some i => (none, ((c.change? (some i) ({ · with value := value })).getD c).bump i)
  | none =>
    if c.capacity = 0 then (some (key, value), c)
    else
      let (dropped, c) := if c.capacity ≤ c.size then c.evict else (none, c)
      (dropped, c.enter key value)

end LruCache

end PagedStorage
