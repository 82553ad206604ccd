import UtxoLedger.Text.Hex
import Mathlib.Data.List.Basic

/-!
Text in bytes. A character below 128 is one byte, and every other character begins with a byte from 128
on, so that what is read digit by digit from the bytes of a text is read from its characters. With this
the hexadecimal form of a byte string is read back.
-/

namespace UtxoLedger

/-! ### The bytes of a text -/

theorem byteArray_toListLoop (bytes : ByteArray) (i : Nat) (done : List UInt8) :
    ByteArray.toList.loop bytes i done = done.reverse ++ bytes.data.toList.drop i := by
  fun_induction ByteArray.toList.loop bytes i done with
  | case1 i done hlt ih =>
    have hlength : i < bytes.data.toList.length := hlt
    have hget : bytes.get! i = bytes.data.toList[i] := getElem!_pos bytes.data i hlt
    rw [ih, List.drop_eq_getElem_cons hlength, hget, List.reverse_cons, List.append_assoc]
    rfl
  | case2 i done hle =>
    have hlength : bytes.data.toList.length ≤ i := Nat.le_of_not_lt hle
    rw [List.drop_eq_nil_of_le hlength, List.append_nil]

/-- A text is written character by character. -/
theorem toUTF8_toList (text : String) :
    text.toUTF8.toList = text.toList.flatMap String.utf8EncodeChar := by
  have hdata : text.toUTF8.toList = text.toUTF8.data.toList := byteArray_toListLoop _ 0 []
  rw [hdata, String.toUTF8_eq_toByteArray, ← String.utf8Encode_toList, List.utf8Encode,
    List.toList_data_toByteArray]

theorem utf8EncodeChar_of_lt {c : Char} (h : c.toNat < 128) :
    String.utf8EncodeChar c = [UInt8.ofNat c.toNat] :=
  if_pos (Nat.le_of_lt_succ h)

theorem exists_utf8EncodeChar_of_le {c : Char} (h : 128 ≤ c.toNat) :
    ∃ first more, String.utf8EncodeChar c = first :: more ∧ 0x80 ≤ first := by
  have hbyte : ∀ n, 128 ≤ n → n < 256 → 0x80 ≤ UInt8.ofNat n := by
    intro n hle hlt
    rw [UInt8.le_iff_toNat_le, UInt8.toNat_ofNat', Nat.mod_eq_of_lt hlt]
    exact hle
  have hwide : ¬c.val.toNat ≤ 0x7f := Nat.not_le.2 h
  unfold String.utf8EncodeChar
  simp only [if_neg hwide]
  split
  · exact ⟨_, _, rfl, hbyte _ (by omega) (by omega)⟩
  · split
    · exact ⟨_, _, rfl, hbyte _ (by omega) (by omega)⟩
    · exact ⟨_, _, rfl, hbyte _ (by omega) (by omega)⟩

/-- Text of characters below 128 has one byte for each. -/
theorem flatMap_utf8EncodeChar {chars : List Char} (h : ∀ c ∈ chars, c.toNat < 128) :
    chars.flatMap String.utf8EncodeChar = chars.map fun c => UInt8.ofNat c.toNat := by
  induction chars with
  | nil => rfl
  | cons c chars ih =>
    obtain ⟨hc, hchars⟩ := List.forall_mem_cons.1 h
    rw [List.flatMap_cons, utf8EncodeChar_of_lt hc, ih hchars, List.map_cons, List.singleton_append]

theorem toUTF8_ofList {chars : List Char} (h : ∀ c ∈ chars, c.toNat < 128) :
    (String.ofList chars).toUTF8.toList = chars.map fun c => UInt8.ofNat c.toNat := by
  rw [toUTF8_toList, String.toList_ofList, flatMap_utf8EncodeChar h]

/-! ### Hexadecimal -/

namespace Hex

/-- The sixteen digits that are written. -/
def alphabet : List Char :=
  "0123456789abcdef".toList

theorem digit_mem_alphabet : ∀ n < 16, digit n ∈ alphabet := by
  decide

theorem digit_lt : ∀ n < 16, (digit n).toNat < 128 := by
  decide

theorem digitValue?_digit : ∀ n < 16, digitValue? (UInt8.ofNat (digit n).toNat) = some n := by
  decide

theorem half_lt (b : UInt8) : b.toNat / 16 < 16 ∧ b.toNat % 16 < 16 := by
  have := b.toNat_lt
  omega

theorem length_digits (bytes : Bytes) : (digits bytes).length = 2 * bytes.length := by
  induction bytes with
  | nil => rfl
  | cons b bytes ih =>
    rw [digits, List.flatMap_cons, List.length_append, ← digits, ih, List.length_cons]
    simp only [List.length_cons, List.length_nil]
    omega

theorem mem_digits {bytes : Bytes} {c : Char} (h : c ∈ digits bytes) : ∃ n < 16, c = digit n := by
  obtain ⟨b, -, hc⟩ := List.mem_flatMap.1 h
  rcases List.mem_pair.1 hc with rfl | rfl
  · exact ⟨_, (half_lt b).1, rfl⟩
  · exact ⟨_, (half_lt b).2, rfl⟩

theorem decodeFrom_digits (position : Nat) (read bytes : Bytes) :
    decodeFrom position read ((digits bytes).map fun c => UInt8.ofNat c.toNat) =
      .ok (read.reverse ++ bytes) := by
  induction bytes generalizing position read with
  | nil => exact congrArg Except.ok (List.append_nil _).symm
  | cons b bytes ih =>
    obtain ⟨hhigh, hlow⟩ := half_lt b
    have hb : UInt8.ofNat (16 * (b.toNat / 16) + b.toNat % 16) = b := by
      rw [Nat.div_add_mod, UInt8.ofNat_toNat]
    rw [digits, List.flatMap_cons, ← digits]
    simp only [List.cons_append, List.nil_append, List.map_cons, decodeFrom, digitValue?_digit _ hhigh,
      digitValue?_digit _ hlow]
    rw [hb, ih, List.reverse_cons, List.append_assoc, List.singleton_append]

/-- **The hexadecimal form of a byte string is read back.** -/
theorem decode_encode (bytes : Bytes) : decode (encode bytes) = .ok bytes := by
  have hascii : ∀ c ∈ digits bytes, c.toNat < 128 := by
    intro c hc
    obtain ⟨n, hn, rfl⟩ := mem_digits hc
    exact digit_lt n hn
  have heven : ¬((digits bytes).map fun c => UInt8.ofNat c.toNat).length % 2 = 1 := by
    rw [List.length_map, length_digits]
    omega
  rw [decode, encode, toUTF8_ofList hascii, decodeBytes, if_neg heven, decodeFrom_digits]
  rfl

end Hex

end UtxoLedger
