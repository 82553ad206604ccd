import UtxoLedger.Proofs.Reading
import UtxoLedger.Proofs.Words
import UtxoLedger.Proofs.Writing
import UtxoLedger.Wire.VarintWords

/-!
Varints are a bijection between the words of 64 bits and the byte strings that can be read as one. The
bytes of a word are one to ten, and they are read back whatever follows; what is read are the bytes of a
word. Counting, writing and reading do in words what they do in numbers, and no bit of a word is lost.
-/

namespace UtxoLedger.Wire

/-- What a step does behind one that succeeds. -/
theorem Read.apply_bind_of_eq_ok {α β : Type} {step : Read α} {next : α → Read β} {r r' : Reader} {x : α}
    (h : step.apply r = (.ok x, r')) : (step >>= next).apply r = (next x).apply r' := by
  refine (bind_apply step next r).trans ?_
  rw [show step r = (.ok x, r') from h]
  rfl

theorem Read.apply_map {α β : Type} (f : α → β) (step : Read α) (r : Reader) :
    (f <$> step).apply r = (step.apply r).map (Except.map f) id := by
  rw [← bind_pure_comp]
  refine (bind_apply step _ r).trans ?_
  rw [Read.apply]
  rcases step r with ⟨e | x, r'⟩ <;> rfl

namespace Varint

open Read

/-! ### Sizes -/

theorem size_le_of_lt {n k : Nat} (h : n < 128 ^ (k + 1)) : size n ≤ k + 1 := by
  induction k generalizing n with
  | zero =>
    have hone : n < 128 := h
    rw [size, if_pos hone]
  | succ k ih =>
    rw [size]
    split
    · exact Nat.succ_le_succ (Nat.zero_le _)
    · refine Nat.succ_le_succ (ih ?_)
      rw [Nat.pow_succ] at h
      omega

/-- A word takes ten bytes at most. -/
theorem size_le_maxLength (v : UInt64) : size v.toNat ≤ maxLength :=
  size_le_of_lt (k := 9) (Nat.lt_of_lt_of_le v.toNat_lt (by decide))

/-! ### Counting and writing in words -/

namespace InWords

theorem sizeFrom_eq (counted : Nat) (v : UInt64) :
    sizeFrom counted v + 1 = counted + Varint.size v.toNat := by
  induction counted, v using sizeFrom.induct with
  | case1 counted v h ih =>
    have hmore : ¬v.toNat < 128 := Nat.not_lt.2 (UInt64.le_iff_toNat_le.1 h)
    rw [sizeFrom, if_pos h, ih, Words.toNat_shiftRight v 128 rfl, Varint.size.eq_def v.toNat,
      if_neg hmore, Nat.add_assoc, Nat.add_comm 1]
  | case2 counted v h =>
    have hlast : v.toNat < 128 := Nat.lt_of_not_le fun hle => h (UInt64.le_iff_toNat_le.2 hle)
    rw [sizeFrom, if_neg h, Varint.size, if_pos hlast]

theorem size_eq (v : UInt64) : size v = Varint.size v.toNat := by
  have h := sizeFrom_eq 1 v
  rw [size]
  omega

theorem toNat_group (v : UInt64) : (v &&& 0x7f).toUInt8.toNat = v.toNat % 128 := by
  have hlow : (v &&& 0x7f).toNat = v.toNat % 2 ^ 7 := Words.toNat_and_mask rfl
  rw [UInt64.toNat_toUInt8, hlow]
  omega

/-- As many bytes as a word takes are filled with its groups. -/
theorem fill_size (v : UInt64) : fill (Varint.size v.toNat) v = Varint.encode v.toNat := by
  induction hn : v.toNat using Varint.encode.induct generalizing v with
  | case1 n h =>
    subst hn
    have hgroup : (v &&& 0x7f).toUInt8 = UInt8.ofNat v.toNat := by
      rw [← UInt8.toNat_inj, toNat_group, UInt8.toNat_ofNat']
      omega
    rw [Varint.size, if_pos h, Varint.encode, if_pos h, fill, if_pos rfl, fill, hgroup]
  | case2 n h ih =>
    subst hn
    have hmore : Varint.size (v.toNat / 128) ≠ 0 := Nat.pos_iff_ne_zero.1 (size_pos _)
    have hgroup : (v &&& 0x7f).toUInt8 ||| 0x80 = UInt8.ofNat (v.toNat % 128 + 128) := by
      have hlt : (v &&& 0x7f).toUInt8.toNat < 128 := by
        rw [toNat_group]
        omega
      rw [← UInt8.toNat_inj, toNat_or_top_bit hlt, toNat_group, UInt8.toNat_ofNat']
      omega
    rw [Varint.size, if_neg h, Varint.encode, if_neg h, fill, if_neg hmore, hgroup,
      ih (v >>> 7) (Words.toNat_shiftRight v 128 rfl)]

theorem encode_eq (v : UInt64) : encode v = Varint.encode v.toNat := by
  rw [encode, size_eq, fill_size]

/-! ### Reading in words -/

/-- A group has room at its place: only the tenth reaches the top of the word, and it has one bit. -/
theorem group_mul_lt {b index : Nat} (hindex : index < maxLength)
    (hlast : ¬(index = maxLength - 1 ∧ 1 < b)) : b % 128 * 2 ^ (7 * index) < UInt64.size := by
  simp only [maxLength] at hindex hlast
  by_cases h : index = 9
  · subst h
    have hbit : b % 128 ≤ 1 := by omega
    have hgroup : b % 128 * 2 ^ 63 ≤ 1 * 2 ^ 63 := Nat.mul_le_mul_right _ hbit
    exact Nat.lt_of_le_of_lt hgroup (by decide)
  · have hpow : 2 ^ (7 * index) ≤ 2 ^ 56 := Nat.pow_le_pow_right (by decide) (by omega)
    have hgroup : b % 128 * 2 ^ (7 * index) ≤ 127 * 2 ^ 56 := Nat.mul_le_mul (by omega) hpow
    exact Nat.lt_of_le_of_lt hgroup (by decide)

/-- Reading in words never breaks off: it does what reading in numbers does, and gives the word of the
number. -/
theorem readFrom_eq (field : String) {index value left : Nat} {word : UInt64}
    (h : index + left = maxLength) (hword : word.toNat = value) (hlt : value < 2 ^ (7 * index)) :
    readFrom field index word left =
      (fun n => some (UInt64.ofNat n)) <$> Varint.readFrom field index value left := by
  induction left generalizing index value word with
  | zero => rfl
  | succ left ih =>
    rw [readFrom, Varint.readFrom, map_bind]
    refine bind_congr fun b => ?_
    have hbound : 1 < b ↔ 1 < b.toNat := UInt8.lt_iff_toNat_lt
    have hmore : b &&& 0x80 = 0 ↔ ¬128 ≤ b.toNat := (top_bit_eq_zero_iff b).trans Nat.not_le.symm
    have hzero : b = 0 ↔ b.toNat = 0 := UInt8.toNat_inj.symm
    simp only [hbound, hmore, hzero]
    split
    · rfl
    next hlast =>
    have hindex : index < maxLength := by omega
    have hgroup : (b &&& 0x7f).toUInt64.toNat = b.toNat % 128 := by
      rw [UInt8.toNat_toUInt64, toNat_low_bits]
    have hshift : 7 * index < 64 := by
      simp only [maxLength] at hindex
      omega
    obtain ⟨group, hmoved, htoNat⟩ := Words.exists_moveUp?_eq_some (b &&& 0x7f).toUInt64 hshift
      (by rw [hgroup]; exact group_mul_lt hindex hlast)
    rw [hgroup] at htoNat
    have hplace : Nat.pow 128 index = 2 ^ (7 * index) := (Nat.pow_mul 2 7 index).symm
    -- what has been read has no bit at the place of this group or above, so the two are added
    have hsum : (word ||| group).toNat = value + b.toNat % 128 * Nat.pow 128 index := by
      rw [Words.toNat_or_of_lt (hword ▸ hlt) htoNat, hword, hplace]
    rw [hmoved]
    dsimp only
    rw [← hsum]
    by_cases hgo : 128 ≤ b.toNat
    · rw [if_neg (not_not.2 hgo), if_pos hgo]
      refine ih (by omega) rfl ?_
      have hlow : b.toNat % 128 * 2 ^ (7 * index) ≤ 127 * 2 ^ (7 * index) :=
        Nat.mul_le_mul_right _ (Nat.le_of_lt_succ (Nat.mod_lt _ (by decide)))
      rw [hsum, hplace, Nat.mul_succ, Nat.pow_add]
      omega
    · rw [if_pos hgo, if_neg hgo]
      split
      · rfl
      · rw [map_pure, UInt64.ofNat_toNat]

theorem read_eq (field : String) :
    read field = (fun n => some (UInt64.ofNat n)) <$> Reader.varint field :=
  readFrom_eq field rfl rfl (by decide)

end InWords

/-! ### Bytes that are no varint -/

section Refused

variable {field : String} {position index value left : Nat} {front rest : Bytes} {b : UInt8}

theorem apply_readFrom_nil : (readFrom field index value (left + 1)).apply ⟨position, []⟩ =
    (.error (.truncated field 1 position 0), ⟨position, []⟩) :=
  rfl

/-- What is done with one byte. -/
theorem apply_readFrom_cons : (readFrom field index value (left + 1)).apply ⟨position, b :: rest⟩ =
    (if index = maxLength - 1 ∧ 1 < b.toNat then
      throw (.varintOverflow field)
    else if 128 ≤ b.toNat then
      readFrom field (index + 1) (value + b.toNat % 128 * Nat.pow 128 index) left
    else if b.toNat = 0 ∧ 0 < index then
      throw (.varintPadded field)
    else
      pure (value + b.toNat % 128 * Nat.pow 128 index) : Read Nat).apply ⟨position + 1, rest⟩ := by
  have hbyte : (Reader.u8 field).apply ⟨position, b :: rest⟩ = (.ok b, ⟨position + 1, rest⟩) :=
    (Reader.reads_u8 field ..).2 ⟨_, rfl, by rw [littleEndian_uint8]; rfl, by rw [length_littleEndian]⟩
  exact apply_bind_of_eq_ok hbyte

/-- Bytes with the top bit set are taken, as long as there is room behind them. -/
theorem apply_readFrom_append (value position : Nat) (rest : Bytes)
    (hfront : ∀ b ∈ front, 128 ≤ b.toNat) (h : index + left = maxLength)
    (hroom : index + front.length < maxLength) :
    ∃ more, (readFrom field index value left).apply ⟨position, front ++ rest⟩ =
      (readFrom field (index + front.length) more (left - front.length)).apply
        ⟨position + front.length, rest⟩ := by
  induction front generalizing index value left position with
  | nil => exact ⟨value, rfl⟩
  | cons b front ih =>
    obtain ⟨hb, hfront⟩ := List.forall_mem_cons.1 hfront
    rw [List.length_cons] at hroom
    obtain ⟨left, rfl⟩ : ∃ n, left = n + 1 := ⟨left - 1, by omega⟩
    have hplace : ¬(index = maxLength - 1 ∧ 1 < b.toNat) := by omega
    have hleft : index + 1 + left = maxLength := by omega
    obtain ⟨more, hmore⟩ := ih (value + b.toNat % 128 * Nat.pow 128 index) (position + 1) hfront hleft
      (by omega)
    refine ⟨more, ?_⟩
    rw [List.cons_append, apply_readFrom_cons, if_neg hplace, if_pos hb, hmore, List.length_cons]
    congr 2 <;> omega

theorem apply_varint_append (field : String) (position : Nat) (rest : Bytes)
    (hfront : ∀ b ∈ front, 128 ≤ b.toNat) (hlength : front.length < 10) :
    ∃ more left, (Reader.varint field).apply ⟨position, front ++ rest⟩ =
      (readFrom field front.length more (left + 1)).apply ⟨position + front.length, rest⟩ := by
  obtain ⟨more, hmore⟩ := apply_readFrom_append 0 position rest hfront (Nat.zero_add maxLength)
    ((Nat.zero_add _).trans_lt hlength)
  have hleft : maxLength - front.length = 9 - front.length + 1 := by
    simp only [maxLength]
    omega
  rw [hleft, Nat.zero_add] at hmore
  exact ⟨more, _, hmore⟩

end Refused

/-! ### A bijection -/

/-- What the varint of a word is. -/
structure Written (v : UInt64) : Prop where
  /-- It has as many bytes as are counted for it, one to ten. -/
  length : (encode v.toNat).length = size v.toNat ∧ 1 ≤ size v.toNat ∧ size v.toNat ≤ 10
  /-- These bytes are written where there is room for them, and no others. -/
  written : (Writer.varint v.toNat).Writes True (encode v.toNat)
  /-- They are read back whatever follows, and nothing of that is taken. -/
  read : ∀ field position rest, (Reader.varint field).apply ⟨position, encode v.toNat ++ rest⟩ =
    (.ok v.toNat, ⟨position + size v.toNat, rest⟩)
  /-- Counting and filling bytes in words comes to the same. -/
  inWords : InWords.size v = size v.toNat ∧ InWords.encode v = encode v.toNat

/-- What reading a varint comes to. -/
structure Reading (field : String) (r : Reader) : Prop where
  /-- What is read is a word, from its own bytes. -/
  canonical : ∀ n r', (Reader.varint field).apply r = (.ok n, r') → ∃ v : UInt64, n = v.toNat ∧
    r.rest = encode v.toNat ++ r'.rest ∧ r'.position = r.position + size v.toNat
  /-- Where there are no bytes of a word, it fails. -/
  refused : (∃ e r', (Reader.varint field).apply r = (.error e, r')) ↔
    ∀ v : UInt64, ¬encode v.toNat <+: r.rest
  /-- Reading into a word comes to the same: no bit is moved out of it. -/
  inWords : (InWords.read field).apply r =
    ((Reader.varint field).apply r).map (Except.map fun n => some (UInt64.ofNat n)) id

/-- How bytes are refused that go on with `front`, all of whose bytes say that there are more. -/
structure Refusal (field : String) (position : Nat) (front : Bytes) : Prop where
  /-- There is no more. -/
  truncated : front.length < 10 → (Reader.varint field).apply ⟨position, front⟩ =
    (.error (.truncated field 1 (position + front.length) 0), ⟨position + front.length, []⟩)
  /-- What follows is nothing but zeros. -/
  padded : ∀ rest, 0 < front.length → front.length < 10 →
    (Reader.varint field).apply ⟨position, front ++ 0 :: rest⟩ =
      (.error (.varintPadded field), ⟨position + front.length + 1, rest⟩)
  /-- What follows is too large for a word, or too long. -/
  overflow : ∀ b rest, front.length = 9 → 1 < b.toNat →
    (Reader.varint field).apply ⟨position, front ++ b :: rest⟩ =
      (.error (.varintOverflow field), ⟨position + front.length + 1, rest⟩)

theorem written (v : UInt64) : Written v where
  length := ⟨length_encode _, size_pos _, size_le_maxLength v⟩
  written := Writer.writes_put _ _
  read field position rest :=
    (Reader.reads_varint field ..).2 ⟨_, ⟨v.toNat_lt, rfl⟩, rfl, by rw [length_encode]⟩
  inWords := ⟨InWords.size_eq v, InWords.encode_eq v⟩

theorem exists_of_varint {field : String} {r r' : Reader} {n : Nat}
    (h : (Reader.varint field).apply r = (.ok n, r')) : ∃ v : UInt64, n = v.toNat ∧
      r.rest = encode v.toNat ++ r'.rest ∧ r'.position = r.position + size v.toNat := by
  obtain ⟨_, ⟨hn, rfl⟩, hrest, hposition⟩ := (Reader.reads_varint field ..).1 h
  have hto : (UInt64.ofNat n).toNat = n := UInt64.toNat_ofNat_of_lt' hn
  rw [length_encode] at hposition
  exact ⟨UInt64.ofNat n, hto.symm, by rw [hto, hrest], by rw [hto, hposition]⟩

theorem reading (field : String) (r : Reader) : Reading field r where
  canonical n r' := exists_of_varint
  refused := by
    constructor
    · rintro ⟨e, r', herror⟩ v ⟨rest, hrest⟩
      have hread := (written v).read field r.position rest
      rw [hrest] at hread
      cases herror.symm.trans hread
    · intro hnone
      cases hrun : (Reader.varint field).apply r with
      | mk result r' =>
        cases result with
        | error e => exact ⟨e, r', rfl⟩
        | ok n =>
          obtain ⟨v, -, hrest, -⟩ := exists_of_varint hrun
          exact absurd ⟨r'.rest, hrest.symm⟩ (hnone v)
  inWords := by
    rw [InWords.read_eq, Read.apply_map]

theorem refusal {field : String} {position : Nat} {front : Bytes} (hfront : ∀ b ∈ front, 128 ≤ b.toNat) :
    Refusal field position front where
  truncated hlength := by
    obtain ⟨more, left, hmore⟩ := apply_varint_append field position [] hfront hlength
    rw [List.append_nil] at hmore
    exact hmore.trans apply_readFrom_nil
  padded rest hpos hlength := by
    obtain ⟨more, left, hmore⟩ := apply_varint_append field position (0 :: rest) hfront hlength
    rw [hmore, apply_readFrom_cons, if_neg (by simp), if_neg (by decide), if_pos ⟨rfl, hpos⟩]
    rfl
  overflow b rest hlength hb := by
    obtain ⟨more, left, hmore⟩ := apply_varint_append field position (b :: rest) hfront (by omega)
    rw [hmore, apply_readFrom_cons, if_pos ⟨hlength, hb⟩]
    rfl

/-- **Varints are a bijection on words.** Every word has one varint, which is written and read back
whatever follows; everything else that might be read as one is refused, for the reason that there is. -/
theorem words_bijective (field : String) : (∀ v, Written v) ∧ (∀ r, Reading field r) ∧
    ∀ position front, (∀ b ∈ front, 128 ≤ b.toNat) → Refusal field position front :=
  ⟨written, reading field, fun _ _ => refusal⟩

theorem encode_greatest : encode (UInt64.size - 1) = List.replicate 9 0xff ++ [1] := by
  simp [encode, UInt64.size]

/-- The greatest word takes ten bytes, and one bit more has no word. -/
theorem greatest_word :
    (Reader.varint "count").apply ⟨0, List.replicate 9 0xff ++ [1, 7]⟩ =
      (.ok (UInt64.size - 1), ⟨10, [7]⟩) ∧
    (∀ b ∈ List.replicate 9 (0xff : UInt8), 128 ≤ b.toNat) ∧
    (Reader.varint "count").apply ⟨0, List.replicate 9 0xff ++ [2, 7]⟩ =
      (.error (.varintOverflow "count"), ⟨10, [7]⟩) := by
  have hfront : ∀ b ∈ List.replicate 9 (0xff : UInt8), 128 ≤ b.toNat := by
    intro b hb
    rw [List.eq_of_mem_replicate hb]
    decide
  obtain ⟨hwritten, -, hrefused⟩ := words_bijective "count"
  have hto : (UInt64.ofNat (UInt64.size - 1)).toNat = UInt64.size - 1 :=
    UInt64.toNat_ofNat_of_lt' (by decide)
  have hsize : size (UInt64.size - 1) = 10 := by
    rw [← length_encode, encode_greatest]
    rfl
  have hread := (hwritten (UInt64.ofNat (UInt64.size - 1))).read "count" 0 [7]
  rw [hto, hsize, encode_greatest] at hread
  exact ⟨hread, hfront, (hrefused 0 _ hfront).overflow 2 [7] rfl (by decide)⟩

end Varint

end UtxoLedger.Wire
