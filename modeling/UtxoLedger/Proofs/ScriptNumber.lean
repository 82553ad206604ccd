import UtxoLedger.Proofs.SignMagnitude
import UtxoLedger.Script.NumberWords

/-!
Reading the numbers of the script stack. At most eight bytes are read as the number that they denote,
without a bit being lost on the way; where padding is refused, a number is read from the bytes that it is
written as and from no others.
-/

namespace UtxoLedger.ScriptNumber

variable {bytes : Bytes} {k : Nat}

/-! ### Eight bytes in a word -/

/-- What the top bit of the last byte stands for. -/
theorem sign_weight (k : Nat) : 128 * 256 ^ k = 2 ^ (8 * k + 7) := by
  rw [Nat.pow_add, Nat.pow_mul, Nat.mul_comm]

/-- As a word, at most eight bytes are their magnitude with the sign bit above it. -/
theorem ofLittleEndian_eq_add (h : bytes.length = k + 1) :
    ofLittleEndian bytes = magnitude bytes + if isNegative bytes then 2 ^ (8 * k + 7) else 0 := by
  rw [ofLittleEndian_eq h, sign_weight]

theorem magnitude_lt_signBit (h : bytes.length = k + 1) : magnitude bytes < 2 ^ (8 * k + 7) :=
  sign_weight k ▸ magnitude_lt (Nat.le_of_eq h)

theorem toNat_word (h : bytes.length ≤ maxLength) : (word bytes).toNat = ofLittleEndian bytes := by
  induction bytes with
  | nil => rfl
  | cons b rest ih =>
    have hrest : rest.length ≤ 7 := Nat.le_of_succ_le_succ h
    have hpow : 256 ^ rest.length ≤ 256 ^ 7 := Nat.pow_le_pow_right (by decide) hrest
    have hword := ih (Nat.le_succ_of_le hrest)
    have hroom : (word rest).toNat * 2 ^ 8 < UInt64.size := by
      have hlt := ofLittleEndian_lt rest
      simp only [UInt64.size]
      omega
    have hb : b.toUInt64.toNat < 2 ^ 8 := by
      rw [UInt8.toNat_toUInt64]
      exact b.toNat_lt
    have hbits : 8 < 64 := by decide
    have hshift : (word rest <<< 8).toNat = (word rest).toNat * 2 ^ 8 :=
      Words.toNat_shiftLeft_of_lt hbits hroom
    change (word rest <<< 8 ||| b.toUInt64).toNat = _
    rw [UInt64.or_comm, Words.toNat_or_of_lt hb hshift, UInt8.toNat_toUInt64, hword, ofLittleEndian]
    omega

theorem signBit_room (h : k < maxLength) :
    8 * k < 64 ∧ (0x80 : UInt64).toNat * 2 ^ (8 * k) < UInt64.size := by
  have hpow : 2 ^ (8 * k) ≤ 2 ^ 56 :=
    Nat.pow_le_pow_right (by decide) (Nat.mul_le_mul_left 8 (Nat.le_of_lt_succ h))
  have hbit : (0x80 : UInt64).toNat = 128 := rfl
  simp only [maxLength] at h
  simp only [hbit, UInt64.size]
  omega

theorem signBit_mul (k : Nat) : (0x80 : UInt64).toNat * 2 ^ (8 * k) = 2 ^ (8 * k + 7) := by
  rw [Nat.pow_add, Nat.mul_comm]
  rfl

/-- **Eight bytes are read as what they denote.** -/
theorem ofWord_eq (h : bytes.length ≤ maxLength) : ofWord bytes = value bytes := by
  cases hlength : bytes.length with
  | zero =>
    rw [List.length_eq_zero_iff.1 hlength]
    rfl
  | succ k =>
    obtain ⟨hshift, hroom⟩ := signBit_room (k := k) (by omega)
    have hbit := (Words.toNat_shiftLeft_of_lt hshift hroom).trans (signBit_mul k)
    have hlow := magnitude_lt_signBit hlength
    have hw := (toNat_word h).trans (ofLittleEndian_eq_add hlength)
    rw [ofWord, hlength, Nat.add_sub_cancel, value]
    simp only [Words.and_bit_eq_zero_iff hbit hlow hw]
    cases hsign : isNegative bytes with
    | false =>
      rw [hsign] at hw
      exact congrArg Nat.cast hw
    | true =>
      rw [hsign] at hw
      exact congrArg (fun n : Nat => -(n : Int)) (Words.toNat_and_not_of_bit hbit hlow hw)

/-! ### Eight bytes in a signed word -/

namespace InWords

/-- Bytes are put above those before them, and no bit is lost. -/
theorem exists_joinFrom_eq {index : Nat} {w : UInt64} (h : index + bytes.length ≤ maxLength)
    (hw : w.toNat < 256 ^ index) :
    ∃ joined : UInt64, joinFrom index w.toInt64 bytes = some joined.toInt64 ∧
      joined.toNat = w.toNat + ofLittleEndian bytes * 256 ^ index := by
  induction bytes generalizing index w with
  | nil => exact ⟨w, rfl, by simp [ofLittleEndian]⟩
  | cons b rest ih =>
    have hb := b.toNat_lt
    have hplace : 256 ^ index = 2 ^ (8 * index) := (Nat.pow_mul 2 8 index).symm
    have hindex : index ≤ 7 := by
      simp only [maxLength, List.length_cons] at h
      omega
    have hpow : 2 ^ (8 * index) ≤ 2 ^ 56 :=
      Nat.pow_le_pow_right (by decide) (Nat.mul_le_mul_left 8 hindex)
    have hroom : b.toNat * 2 ^ (8 * index) < UInt64.size :=
      Nat.lt_of_le_of_lt (Nat.mul_le_mul (Nat.le_of_lt_succ hb) hpow) (by decide)
    have hshift : 8 * index < 64 := by omega
    obtain ⟨placed, hmoved, htoNat⟩ := Words.exists_moveUp?_eq_some b.toUInt64 hshift
      (by rwa [UInt8.toNat_toUInt64])
    rw [UInt8.toNat_toUInt64] at htoNat
    -- the word is below the place of this byte, and with it below the place of the next one
    have hsum := Words.toNat_or_of_lt (hplace ▸ hw) htoNat
    rw [← hplace] at hsum
    have hlow : b.toNat * 256 ^ index ≤ 255 * 256 ^ index :=
      Nat.mul_le_mul_right _ (Nat.le_of_lt_succ hb)
    have hrest : index + 1 + rest.length ≤ maxLength := by
      rw [List.length_cons] at h
      omega
    have hfilled : (w ||| placed).toNat < 256 ^ (index + 1) := by
      rw [hsum, Nat.pow_succ]
      omega
    obtain ⟨joined, hjoined, hvalue⟩ := ih hrest hfilled
    refine ⟨joined, ?_, ?_⟩
    · rw [joinFrom, hmoved, ← hjoined, UInt64.toInt64_or]
      rfl
    · rw [hvalue, hsum, ofLittleEndian, Nat.add_assoc, Nat.pow_succ, Nat.add_mul]
      congr 2
      ac_rfl

/-- The sign is the top bit of the last byte. -/
theorem top_bit_eq_zero_iff_not_isNegative {last : UInt8} (h : bytes.getLast? = some last) :
    last &&& 0x80 = 0 ↔ isNegative bytes = false := by
  rw [top_bit_eq_zero_iff]
  induction bytes using magnitude.induct with
  | case1 => cases h
  | case2 b =>
    obtain rfl := Option.some.inj h
    simp [isNegative]
  | case3 b next rest ih =>
    rw [isNegative]
    exact ih (List.getLast?_cons_cons ▸ h)

/-- Neither a shift nor the turning of the sign leaves the word. -/
theorem exists_ofBytes?_eq (h : bytes.length ≤ maxLength) :
    ∃ x, ofBytes? bytes = some x ∧ x.toInt = value bytes := by
  cases hlength : bytes.length with
  | zero =>
    rw [List.length_eq_zero_iff.1 hlength]
    exact ⟨0, rfl, rfl⟩
  | succ k =>
    obtain ⟨last, hlast⟩ : ∃ last, bytes.getLast? = some last :=
      ⟨_, List.getLast?_eq_some_getLast (List.ne_nil_of_length_eq_add_one hlength)⟩
    have hempty : (0 : UInt64).toNat < 256 ^ 0 := by decide
    obtain ⟨w, hjoined, hw⟩ := exists_joinFrom_eq ((Nat.zero_add _).trans_le h) hempty
    have hjoin : joinFrom 0 0 bytes = some w.toInt64 := hjoined
    have hlow := magnitude_lt_signBit hlength
    have hsmall : magnitude bytes < 2 ^ 63 :=
      Nat.lt_of_lt_of_le hlow (Nat.pow_le_pow_right (by decide) (by simp only [maxLength] at h; omega))
    have hzero : (0 : UInt64).toNat = 0 := rfl
    rw [hzero, Nat.zero_add, Nat.pow_zero, Nat.mul_one, ofLittleEndian_eq_add hlength] at hw
    simp only [ofBytes?, hlast, hjoin, Option.bind_some, Option.bind_eq_bind,
      top_bit_eq_zero_iff_not_isNegative hlast, value]
    cases hsign : isNegative bytes with
    | false =>
      rw [hsign] at hw
      have hword : w.toNat = magnitude bytes := hw
      exact ⟨w.toInt64, rfl, by rw [Words.toInt_toInt64_of_lt (hword ▸ hsmall), hword]; rfl⟩
    | true =>
      rw [hsign] at hw
      obtain ⟨hshift, hroom⟩ := signBit_room (k := k) (by omega)
      obtain ⟨bit, hmoved, hbit⟩ := Words.exists_moveUp?_eq_some 0x80 hshift hroom
      -- the sign bit stands above the magnitude, which is what is left without it
      have hword : (w &&& ~~~bit).toNat = magnitude bytes :=
        Words.toNat_and_not_of_bit (hbit.trans (signBit_mul k)) hlow hw
      have hint := Words.toInt_toInt64_of_lt (hword ▸ hsmall)
      obtain ⟨x, hx, hvalue⟩ := Words.exists_negate?_eq_some (hint ▸ Int.natCast_nonneg _)
      rw [hint, hword] at hvalue
      refine ⟨x, ?_, hvalue⟩
      rw [UInt64.toInt64_and, UInt64.toInt64_not] at hx
      rw [hlength, Nat.add_sub_cancel, hmoved]
      exact hx

/-- Reading into a signed word never breaks off: it refuses what reading a number refuses, and gives the
word of the number. -/
theorem exists_decode_eq (bytes : Bytes) (requireMinimal : Bool) (limit : Nat) :
    ∃ result, decode bytes requireMinimal limit = some result ∧
      result.map Int64.toInt = ScriptNumber.decode bytes requireMinimal limit := by
  dsimp only [decode, ScriptNumber.decode]
  split
  · exact ⟨_, rfl, rfl⟩
  next hlength =>
  split
  · exact ⟨_, rfl, rfl⟩
  · have hmax : bytes.length ≤ maxLength := (Nat.le_of_not_lt hlength).trans (Nat.min_le_right ..)
    obtain ⟨x, hx, hvalue⟩ := exists_ofBytes?_eq hmax
    rw [hx, ofWord_eq hmax]
    exact ⟨.ok x, rfl, congrArg Except.ok hvalue⟩

theorem magnitudeBytes_eq (w : UInt64) : magnitudeBytes w = ScriptNumber.magnitudeBytes w.toNat := by
  induction w using magnitudeBytes.induct with
  | case1 => rw [magnitudeBytes, if_pos rfl]; exact magnitudeBytes_zero.symm
  | case2 w h ih =>
    have hpos : w.toNat ≠ 0 := fun hzero => h (UInt64.toNat_inj.1 hzero)
    have hlow : (w &&& 0xff).toUInt8 = UInt8.ofNat w.toNat := by
      have hmask : (w &&& 0xff).toNat = w.toNat % 2 ^ 8 := Words.toNat_and_mask rfl
      rw [← UInt8.toNat_inj, UInt64.toNat_toUInt8, hmask, UInt8.toNat_ofNat']
      omega
    rw [magnitudeBytes, if_neg h, ih, Words.toNat_shiftRight w 256 rfl, hlow,
      ScriptNumber.magnitudeBytes.eq_def w.toNat, if_neg hpos]

/-- A signed word is written as its number. -/
theorem encode_eq (x : Int64) : encode x = ScriptNumber.encode x.toInt := by
  rw [encode, magnitudeBytes_eq, Words.toNat_toUInt64_abs, ScriptNumber.encode]
  congr 1
  exact decide_eq_decide.2 Int64.lt_iff_toInt_lt

end InWords

/-! ### One form of each word -/

variable {n : Int} {limit : Nat} {requireMinimal : Bool}

theorem decode_eq_ok_iff : decode bytes requireMinimal limit = .ok n ↔
    bytes.length ≤ min limit maxLength ∧ (requireMinimal = true → isPadded bytes = false) ∧
      value bytes = n := by
  dsimp only [decode]
  split
  next hlong => exact iff_of_false nofun fun h => absurd h.1 (Nat.not_le.2 hlong)
  next hlength =>
  have hfits := Nat.le_of_not_lt hlength
  rw [ofWord_eq (hfits.trans (Nat.min_le_right ..))]
  cases requireMinimal <;> cases isPadded bytes <;> simp [hfits]

/-- Where padding is refused, a number is read from the bytes that it is written as. -/
theorem decode_true_eq_ok_iff :
    decode bytes true limit = .ok n ↔ encode n = bytes ∧ bytes.length ≤ min limit maxLength := by
  rw [decode_eq_ok_iff, encode_eq_iff, and_comm, and_comm (a := value bytes = n)]
  simp only [true_imp_iff]

/-- All words but the least take eight bytes at most. -/
theorem length_encode_toInt_le_iff {v : Int64} :
    (encode v.toInt).length ≤ maxLength ↔ v ≠ Int64.minValue := by
  have hleast : Int64.minValue.toInt = -2 ^ 63 := rfl
  have hlower := v.le_toInt
  have hupper := v.toInt_lt
  rw [maxLength, length_encode_le_iff (k := 7), ne_eq, ← Int64.toInt_inj, hleast]
  omega

/-- How a signed word is written, and read back. -/
structure Written (v : Int64) : Prop where
  /-- All words but the least take eight bytes at most. -/
  length : v ≠ Int64.minValue → (encode v.toInt).length ≤ 8
  /-- They are read back where that many bytes are allowed, with padding refused. -/
  read : v ≠ Int64.minValue → ∀ limit, (encode v.toInt).length ≤ limit →
    decode (encode v.toInt) true limit = .ok v.toInt
  /-- The least word takes nine bytes, and these are always refused. -/
  refused : v = Int64.minValue → (encode v.toInt).length = 9 ∧ ∀ requireMinimal limit,
    decode (encode v.toInt) requireMinimal limit = .error (.numberTooLong 9 (min limit 8))
  /-- Writing the bytes of a word comes to the same. -/
  inWords : InWords.encode v = encode v.toInt

/-- What reading a byte string as a number comes to. -/
structure Reading (bytes : Bytes) : Prop where
  /-- With padding refused, what is read is the number that the bytes are written for. -/
  canonical : ∀ limit n, decode bytes true limit = .ok n ↔
    encode n = bytes ∧ bytes.length ≤ min limit 8
  /-- With padding, at most eight bytes are read as what they denote. -/
  denoted : bytes.length ≤ 8 → decode bytes false 8 = .ok (value bytes)
  /-- Reading into a signed word comes to the same: no bit is lost, and no sign turned in vain. -/
  inWords : ∀ requireMinimal limit, ∃ result, InWords.decode bytes requireMinimal limit = some result ∧
    result.map Int64.toInt = decode bytes requireMinimal limit

theorem written (v : Int64) : Written v where
  length := length_encode_toInt_le_iff.2
  read hne limit hlimit :=
    decode_true_eq_ok_iff.2 ⟨rfl, Nat.le_min.2 ⟨hlimit, length_encode_toInt_le_iff.2 hne⟩⟩
  refused := by
    rintro rfl
    have hnine : (encode Int64.minValue.toInt).length ≤ 9 := (length_encode_le_iff (k := 8)).2 (by decide)
    have hmore : ¬(encode Int64.minValue.toInt).length ≤ 8 := fun hle =>
      length_encode_toInt_le_iff.1 hle rfl
    have hlength : (encode Int64.minValue.toInt).length = 9 := by omega
    refine ⟨hlength, fun requireMinimal limit => ?_⟩
    have hlong : min limit maxLength < 9 := Nat.lt_of_le_of_lt (Nat.min_le_right ..) (by decide)
    rw [decode, hlength]
    exact if_pos hlong
  inWords := InWords.encode_eq v

theorem reading (bytes : Bytes) : Reading bytes where
  canonical _ _ := decode_true_eq_ok_iff
  denoted h := decode_eq_ok_iff.2 ⟨h, nofun, rfl⟩
  inWords := InWords.exists_decode_eq bytes

/-- **One form of each word.** Every signed word but the least is read back from the bytes that it is
written as, and where padding is refused, from no others; whatever is read is the number that the bytes
denote. -/
theorem words_one_form : (∀ v, Written v) ∧ ∀ bytes, Reading bytes :=
  ⟨written, reading⟩

/-- The sign of -128 takes a byte of its own, and a zero in two bytes is only read with padding. -/
theorem sign_of_its_own : (-128 : Int64) ≠ Int64.minValue ∧
    decode [0x80, 0x80] true 2 = .ok (-128) ∧
    decode [0x00, 0x80] false 8 = .ok 0 ∧ ∀ n, decode [0x00, 0x80] true 2 ≠ .ok n := by
  have hbytes : encode (-128 : Int64).toInt = [0x80, 0x80] := encode_eq_iff.2 (by decide)
  obtain ⟨hwritten, hreading⟩ := words_one_form
  have hread := (hwritten (-128)).read (by decide) 2
  rw [hbytes] at hread
  refine ⟨by decide, hread (by decide), (hreading _).denoted (by decide), fun n hn => ?_⟩
  have hvalue := encode_eq_iff.1 (((hreading _).canonical 2 n).1 hn).1
  exact absurd hvalue.2 (by decide)

end UtxoLedger.ScriptNumber
