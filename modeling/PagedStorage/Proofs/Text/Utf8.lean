import PagedStorage.Text.Utf8
import Mathlib.Data.List.TakeWhile

/-!
# Text as bytes and back

The bytes that spell a text are shown as this text, `Utf8.textOf_bytesOf`.

A character is spelled by a leading byte and up to three more, and the leading byte tells how many
these are. So the characters are found one after the other, whatever follows: it is enough that the
bytes after a leading byte are in range, and that the number they spell together is that of the
character.

## Ranges

The byte after a leading one is in a range that depends on the leading byte, which keeps out
spellings that are longer than needed and numbers that are no characters. For a number that is a
character the byte is in range, and this is where the gap in the numbers of characters matters.
-/

namespace PagedStorage.Utf8

variable {lead second : UInt8} {following rest : List UInt8} {n : Nat}

/-! ## Bytes of a text -/

private theorem loop_toList (bytes : ByteArray) (i : Nat) (r : List UInt8) :
    ByteArray.toList.loop bytes i r = r.reverse ++ bytes.data.toList.drop i := by
  fun_induction ByteArray.toList.loop bytes i r with
  | case1 i r hi ih =>
    have hi' : i < bytes.data.toList.length := hi
    have hget : bytes.get! i = bytes.data.toList[i] := by
      rw [Array.getElem_toList]
      exact getElem!_pos bytes.data i hi
    rw [ih, List.drop_eq_getElem_cons hi', hget, List.reverse_cons, List.append_assoc]
    rfl
  | case2 i r hi => rw [List.drop_of_length_le (Nat.le_of_not_lt hi), List.append_nil]

private theorem bytesOf_eq (text : String) :
    bytesOf text = text.toList.flatMap String.utf8EncodeChar := by
  rw [bytesOf, String.toUTF8_eq_toByteArray, ← String.utf8Encode_toList, List.utf8Encode,
    ByteArray.toList, loop_toList, List.toList_data_toByteArray]
  rfl

/-! ## One character -/

private theorem followers?_eq_some_iff : followers? lead = some n ↔
    (lead.toNat < 0x80 ∧ n = 0) ∨ (0xC2 ≤ lead.toNat ∧ lead.toNat < 0xE0 ∧ n = 1) ∨
      (0xE0 ≤ lead.toNat ∧ lead.toNat < 0xF0 ∧ n = 2) ∨
      (0xF0 ≤ lead.toNat ∧ lead.toNat < 0xF5 ∧ n = 3) := by
  simp only [followers?, UInt8.lt_iff_toNat_lt, UInt8.reduceToNat]
  grind

private theorem mayFollow_iff : mayFollow lead second = true ↔
    0x80 ≤ second.toNat ∧ second.toNat ≤ 0xBF ∧ (lead.toNat = 0xE0 → 0xA0 ≤ second.toNat) ∧
      (lead.toNat = 0xF0 → 0x90 ≤ second.toNat) ∧ (lead.toNat = 0xED → second.toNat ≤ 0x9F) ∧
      (lead.toNat = 0xF4 → second.toNat ≤ 0x8F) := by
  simp only [mayFollow, Bool.and_eq_true, decide_eq_true_eq, UInt8.le_iff_toNat_le,
    ← UInt8.toNat_inj, apply_ite UInt8.toNat, UInt8.reduceToNat]
  grind

/-- A byte that goes on with a character, with six bits of a number. -/
def tailByte (n : Nat) : UInt8 := .ofNat (n % 64 + 128)

theorem toNat_tailByte : (tailByte n).toNat = n % 64 + 128 := by
  rw [tailByte, UInt8.toNat_ofNat']
  omega

private theorem mayContinue_tailByte : mayContinue (tailByte n) = true := by
  simp only [mayContinue, Bool.and_eq_true, decide_eq_true_eq, UInt8.le_iff_toNat_le,
    toNat_tailByte, UInt8.reduceToNat]
  omega

theorem scalar_map (l : List Nat) : scalar lead (l.map tailByte) =
    l.foldl (fun n b ↦ n * 64 + b % 64)
      (lead.toNat % if l.length = 0 then 128 else 64 >>> l.length) := by
  have hbits (b : Nat) : (b % 64 + 128) % 64 = b % 64 := by omega
  simp only [scalar, List.length_map, List.foldl_map, toNat_tailByte, hbits]

private theorem scalar_one (a : Nat) :
    scalar lead ([a].map tailByte) = lead.toNat % 32 * 64 + a % 64 := by
  rw [scalar_map]
  simp

private theorem scalar_two (a b : Nat) : scalar lead ([a, b].map tailByte) =
    (lead.toNat % 16 * 64 + a % 64) * 64 + b % 64 := by
  rw [scalar_map]
  simp

private theorem scalar_three (a b c : Nat) : scalar lead ([a, b, c].map tailByte) =
    ((lead.toNat % 8 * 64 + a % 64) * 64 + b % 64) * 64 + c % 64 := by
  rw [scalar_map]
  simp

private theorem decode_cons (hcount : followers? lead = some 0) :
    decode (lead :: rest) = .ofNat (scalar lead []) :: decode rest := by
  rw [decode, first, hcount]
  rfl

/-- A leading byte and the right number of bytes behind it are one character. -/
theorem decode_append {l : List Nat} (hcount : followers? lead = some (l.length + 1))
    (hsecond : mayFollow lead (tailByte n) = true) :
    decode (lead :: (n :: l).map tailByte ++ rest) =
      .ofNat (scalar lead ((n :: l).map tailByte)) :: decode rest := by
  have hcontinue : continuation lead (l.length + 1) ((n :: l).map tailByte ++ rest) =
      (n :: l).map tailByte := by
    rw [continuation, List.take_left' (by rw [List.length_map, List.length_cons]), List.map_cons]
    simp only
    rw [if_pos hsecond, List.takeWhile_eq_self_iff.2]
    simp only [List.forall_mem_map, mayContinue_tailByte, implies_true]
  rw [List.cons_append, decode, first, hcount]
  simp only [hcontinue, List.length_map, List.length_cons, if_true]
  rw [List.drop_left' (by rw [List.length_map, List.length_cons])]

private theorem decode_utf8EncodeChar (c : Char) :
    decode (String.utf8EncodeChar c ++ rest) = c :: decode rest := by
  have hvalid : c.toNat < 0xD800 ∨ 0xDFFF < c.toNat ∧ c.toNat < 0x110000 := c.valid
  have hlead (b : Nat) (hb : b < 256) : (UInt8.ofNat b).toNat = b := by
    rw [UInt8.toNat_ofNat', Nat.mod_eq_of_lt hb]
  -- A longer character is a lead byte and tail bytes; only the ranges differ with the length.
  have hlong {lead : UInt8} {n : Nat} {l : List Nat}
      (hcount : followers? lead = some (l.length + 1))
      (hsecond : mayFollow lead (tailByte n) = true)
      (hscalar : scalar lead ((n :: l).map tailByte) = c.toNat) :
      decode (lead :: (n :: l).map tailByte ++ rest) = c :: decode rest := by
    rw [decode_append hcount hsecond, hscalar, Char.ofNat_toNat]
  rw [String.utf8EncodeChar, Char.toNat_val]
  split
  next hle =>
    have hb := hlead c.toNat (by omega)
    rw [List.singleton_append, decode_cons (followers?_eq_some_iff.2 (by omega))]
    simp [scalar, hb, Nat.mod_eq_of_lt (show c.toNat < 128 by omega)]
  next hgt =>
    split
    next hle =>
      have hb := hlead (c.toNat / 64 % 32 + 192) (by omega)
      refine hlong (n := c.toNat) (l := []) (followers?_eq_some_iff.2 ?_) (mayFollow_iff.2 ?_) ?_
      · rw [hb, List.length_nil]
        omega
      · rw [hb, toNat_tailByte]
        omega
      · rw [scalar_one, hb]
        omega
    next hgt' =>
      split
      next hle =>
        have hb := hlead (c.toNat / 4096 % 16 + 224) (by omega)
        refine hlong (n := c.toNat / 64) (l := [c.toNat]) (followers?_eq_some_iff.2 ?_)
          (mayFollow_iff.2 ?_) ?_
        · rw [hb, List.length_singleton]
          omega
        · rw [hb, toNat_tailByte]
          omega
        · rw [scalar_two, hb]
          omega
      next hgt'' =>
        have hb := hlead (c.toNat / 262144 % 8 + 240) (by omega)
        refine hlong (n := c.toNat / 4096) (l := [c.toNat / 64, c.toNat])
          (followers?_eq_some_iff.2 ?_) (mayFollow_iff.2 ?_) ?_
        · rw [hb, List.length_cons, List.length_singleton]
          omega
        · rw [hb, toNat_tailByte]
          omega
        · rw [scalar_three, hb]
          omega

private theorem decode_flatMap (chars : List Char) :
    decode (chars.flatMap String.utf8EncodeChar) = chars := by
  induction chars with
  | nil => rw [List.flatMap_nil, decode]
  | cons c chars ih => rw [List.flatMap_cons, decode_utf8EncodeChar, ih]

theorem textOf_bytesOf (text : String) : textOf (bytesOf text) = text := by
  rw [textOf, bytesOf_eq, decode_flatMap, String.ofList_toList]

end PagedStorage.Utf8
