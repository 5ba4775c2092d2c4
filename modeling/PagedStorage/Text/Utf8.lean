/-!
# Bytes as text

Records are bytes, and are shown as the text they spell in UTF-8. Bytes that spell no text are
shown as well: each of them, together with those after it that could have continued it, becomes
one replacement character. So a character that was cut short counts once, however many of its
bytes are there.
-/

namespace PagedStorage.Utf8

/-- How many bytes follow a leading byte; `none` for a byte that cannot lead. -/
def followers? (lead : UInt8) : Option Nat :=
  if lead < 0x80 then some 0
  else if lead < 0xC2 then none
  else if lead < 0xE0 then some 1
  else if lead < 0xF0 then some 2
  else if lead < 0xF5 then some 3
  else none

/-- Whether a byte may be the second of a character. Some leading bytes leave out a part of the
range: what it would spell is longer than it need be, half of a surrogate pair, or too large. -/
def mayFollow (lead second : UInt8) : Bool :=
  let low : UInt8 := if lead = 0xE0 then 0xA0 else if lead = 0xF0 then 0x90 else 0x80
  let high : UInt8 := if lead = 0xED then 0x9F else if lead = 0xF4 then 0x8F else 0xBF
  decide (low ≤ second) && decide (second ≤ high)

/-- Whether a byte may be the third or fourth of a character. -/
def mayContinue (b : UInt8) : Bool := decide (0x80 ≤ b) && decide (b ≤ 0xBF)

/-- The bytes after a leading byte that go on with its character, at most `count` of them. -/
def continuation (lead : UInt8) (count : Nat) (rest : List UInt8) : List UInt8 :=
  match rest.take count with
  | [] => []
  | second :: more => if mayFollow lead second then second :: more.takeWhile mayContinue else []

/-- The number that a leading byte and the bytes after it spell. -/
def scalar (lead : UInt8) (following : List UInt8) : Nat :=
  let width := if following.length = 0 then 128 else 64 >>> following.length
  following.foldl (fun n b ↦ n * 64 + b.toNat % 64) (lead.toNat % width)

/-- The first character of a text that starts with `lead`, and the bytes it takes up behind it. -/
def first (lead : UInt8) (rest : List UInt8) : Char × Nat :=
  match followers? lead with
  | none => ('\uFFFD', 0)
  | some count =>
    let following := continuation lead count rest
    if following.length = count then (Char.ofNat (scalar lead following), count)
    else ('\uFFFD', following.length)

/-- The characters that bytes spell, with replacements for what spells none. -/
def decode : List UInt8 → List Char
  | [] => []
  | lead :: rest =>
    let (c, used) := first lead rest
    c :: decode (rest.drop used)
termination_by bytes => bytes.length
decreasing_by simp only [List.length_drop, List.length_cons]; omega

/-- The text that bytes spell, with replacements for what spells none. -/
def textOf (bytes : List UInt8) : String := String.ofList (decode bytes)

/-- The bytes that spell a text. -/
def bytesOf (text : String) : List UInt8 := text.toUTF8.toList

end PagedStorage.Utf8
