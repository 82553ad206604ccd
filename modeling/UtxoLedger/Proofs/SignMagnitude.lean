import UtxoLedger.Proofs.Bytes
import UtxoLedger.Proofs.Words
import UtxoLedger.Script.Number

/-!
Numbers as byte strings with a sign bit. A byte string of any length denotes a number: all of its bits
but the top one of its last byte are the magnitude, and that one is the sign. Of the byte strings that
denote a number exactly one is not padded, and it is the one that the number is written as; its length
grows with the magnitude alone.
-/

namespace UtxoLedger.ScriptNumber

/-! ### What bytes denote -/

/-- The magnitude in a byte string: its bytes, least significant first, without the top bit of the last
one. -/
def magnitude : Bytes → Nat
  | [] => 0
  | [last] => last.toNat % 128
  | b :: next :: rest => b.toNat + 256 * magnitude (next :: rest)

/-- Whether the top bit of the last byte is set. -/
def isNegative : Bytes → Bool
  | [] => false
  | [last] => 128 ≤ last.toNat
  | _ :: next :: rest => isNegative (next :: rest)

/-- The number that a byte string denotes. -/
def value (bytes : Bytes) : Int :=
  if isNegative bytes then -(magnitude bytes : Int) else magnitude bytes

variable {bytes rest : Bytes} {b : UInt8} {n : Int} {k : Nat} {negative : Bool}

theorem magnitude_cons (h : rest ≠ []) : magnitude (b :: rest) = b.toNat + 256 * magnitude rest := by
  obtain ⟨next, rest, rfl⟩ := List.exists_cons_of_ne_nil h
  rfl

theorem isNegative_cons (h : rest ≠ []) : isNegative (b :: rest) = isNegative rest := by
  obtain ⟨next, rest, rfl⟩ := List.exists_cons_of_ne_nil h
  rfl

theorem natAbs_value (bytes : Bytes) : (value bytes).natAbs = magnitude bytes := by
  rw [value]
  split <;> simp

theorem magnitude_lt (h : bytes.length ≤ k + 1) : magnitude bytes < 128 * 256 ^ k := by
  induction bytes using magnitude.induct generalizing k with
  | case1 => exact Nat.mul_pos (by decide) (Nat.pow_pos (by decide))
  | case2 last =>
    have hlast : last.toNat % 128 < 128 := Nat.mod_lt _ (by decide)
    have hpow : 0 < 256 ^ k := Nat.pow_pos (by decide)
    rw [magnitude]
    omega
  | case3 b next rest ih =>
    have hb := b.toNat_lt
    obtain ⟨k, rfl⟩ : ∃ n, k = n + 1 := ⟨k - 1, by simp only [List.length_cons] at h; omega⟩
    have hrest := ih (Nat.le_of_succ_le_succ h)
    rw [magnitude, Nat.pow_succ]
    omega

/-- As a number without a sign, the top bit of the last byte counts as what it stands for there. -/
theorem ofLittleEndian_eq (h : bytes.length = k + 1) :
    ofLittleEndian bytes = magnitude bytes + if isNegative bytes then 128 * 256 ^ k else 0 := by
  induction bytes using magnitude.induct generalizing k with
  | case1 => cases h
  | case2 last =>
    have hlast := last.toNat_lt
    obtain rfl := Nat.succ.inj h
    simp only [ofLittleEndian, magnitude, isNegative, decide_eq_true_eq, List.length_nil, Nat.pow_zero]
    split <;> omega
  | case3 b next rest ih =>
    obtain ⟨k, rfl⟩ : ∃ n, k = n + 1 := ⟨rest.length, (Nat.succ.inj h).symm⟩
    rw [ofLittleEndian, ih (Nat.succ.inj h), magnitude, isNegative, Nat.pow_succ]
    split <;> omega

/-! ### Bytes that are there for nothing -/

theorem isPadded_singleton : isPadded [b] = true ↔ b.toNat % 128 = 0 := by
  rw [← low_bits_eq_zero_iff]
  exact beq_iff_eq

theorem isPadded_pair {last : UInt8} :
    isPadded [b, last] = true ↔ last.toNat % 128 = 0 ∧ b.toNat < 128 := by
  rw [← low_bits_eq_zero_iff, ← top_bit_eq_zero_iff]
  exact (Bool.and_eq_true_iff ..).trans (and_congr beq_iff_eq beq_iff_eq)

/-- Only the last two bytes matter. -/
theorem isPadded_cons {next after : UInt8} :
    isPadded (b :: next :: after :: rest) = isPadded (next :: after :: rest) := by
  rw [isPadded, isPadded, List.reverse_cons]
  rcases hreverse : (next :: after :: rest).reverse with _ | ⟨last, _ | ⟨before, more⟩⟩
  · simp at hreverse
  · have hlength := congrArg List.length hreverse
    simp at hlength
  · rfl

/-- A byte in front of bytes none of which is there for nothing. -/
theorem not_isPadded_cons (h : rest ≠ []) (hrest : isPadded rest = false) :
    isPadded (b :: rest) = false := by
  match rest, h with
  | [last], _ =>
    rw [Bool.eq_false_iff, ne_eq, isPadded_singleton] at hrest
    rw [Bool.eq_false_iff, ne_eq, isPadded_pair]
    exact fun hpad => hrest hpad.1
  | next :: after :: rest, _ =>
    rw [isPadded_cons]
    exact hrest

/-- The magnitude in bytes none of which is there for nothing reaches up to the last two of them. -/
theorem le_magnitude (hpad : isPadded bytes = false) (h : bytes.length = k + 2) :
    128 * 256 ^ k ≤ magnitude bytes := by
  induction bytes using magnitude.induct generalizing k with
  | case1 => cases h
  | case2 last => cases h
  | case3 b next rest ih =>
    cases rest with
    | nil =>
      obtain rfl : k = 0 := by simpa using h
      rw [Bool.eq_false_iff, ne_eq, isPadded_pair] at hpad
      simp only [magnitude, Nat.pow_zero]
      omega
    | cons after rest =>
      obtain ⟨k, rfl⟩ : ∃ n, k = n + 1 := ⟨rest.length, by simpa using h.symm⟩
      rw [isPadded_cons] at hpad
      have hrest := ih hpad (Nat.succ.inj h)
      rw [magnitude, Nat.pow_succ]
      omega

/-- Without padding, zero is denoted by no byte at all. -/
theorem magnitude_pos (hpad : isPadded bytes = false) (hne : bytes ≠ []) : 0 < magnitude bytes := by
  match bytes, hne with
  | [last], _ =>
    rw [Bool.eq_false_iff, ne_eq, isPadded_singleton] at hpad
    exact Nat.pos_of_ne_zero hpad
  | b :: next :: rest, _ =>
    have hpow : 0 < 256 ^ rest.length := Nat.pow_pos (by decide)
    have hle := le_magnitude (k := rest.length) hpad rfl
    omega

/-! ### The bytes of a number -/

theorem magnitudeBytes_zero : magnitudeBytes 0 = [] := by
  rw [magnitudeBytes, if_pos rfl]

theorem magnitudeBytes_add (b : UInt8) (k : Nat) (h : 0 < b.toNat + 256 * k) :
    magnitudeBytes (b.toNat + 256 * k) = b :: magnitudeBytes k := by
  have hb := b.toNat_lt
  have hlow : UInt8.ofNat (b.toNat + 256 * k) = b := by
    rw [← UInt8.toNat_inj, UInt8.toNat_ofNat']
    omega
  have hhigh : (b.toNat + 256 * k) / 256 = k := by omega
  rw [magnitudeBytes, if_neg (Nat.pos_iff_ne_zero.1 h), hlow, hhigh]

theorem magnitudeBytes_ne_nil (h : 0 < k) : magnitudeBytes k ≠ [] := by
  rw [magnitudeBytes, if_neg (Nat.pos_iff_ne_zero.1 h)]
  exact List.cons_ne_nil _ _

theorem withSign_cons (h : rest ≠ []) : withSign negative (b :: rest) = b :: withSign negative rest := by
  obtain ⟨next, rest, rfl⟩ := List.exists_cons_of_ne_nil h
  rfl

theorem withSign_ne_nil (h : rest ≠ []) : withSign negative rest ≠ [] := by
  match rest, h with
  | [last], _ =>
    rw [withSign]
    split <;> exact List.cons_ne_nil _ _
  | b :: next :: rest, _ => exact List.cons_ne_nil _ _

/-- The last byte of a magnitude with a sign: in the byte itself if its top bit is free, else in one of
its own. -/
theorem withSign_singleton : withSign negative [b] =
    if b.toNat < 128 then [if negative then b ||| 0x80 else b] else [b, if negative then 0x80 else 0] :=
  ite_congr (propext UInt8.lt_iff_toNat_lt) (fun _ => rfl) fun _ => rfl

theorem withSign_byte (h : 0 < b.toNat) : magnitude (withSign negative [b]) = b.toNat ∧
    isNegative (withSign negative [b]) = negative ∧ isPadded (withSign negative [b]) = false := by
  have hsign : (0x80 : UInt8).toNat = 128 := rfl
  have hnone : (0 : UInt8).toNat = 0 := rfl
  rw [withSign_singleton]
  split
  · next hfree =>
    have hor := toNat_or_top_bit hfree
    rw [Bool.eq_false_iff, ne_eq, isPadded_singleton]
    cases negative <;> simp [magnitude, isNegative, hor] <;> omega
  · next hfull =>
    rw [Bool.eq_false_iff, ne_eq, isPadded_pair]
    cases negative <;> simp [magnitude, isNegative, hsign, hnone] <;> omega

/-- What is written for a magnitude and a sign denotes them, and no byte of it is there for nothing. -/
theorem withSign_magnitudeBytes (negative : Bool) (h : 0 < k) :
    magnitude (withSign negative (magnitudeBytes k)) = k ∧
      isNegative (withSign negative (magnitudeBytes k)) = negative ∧
      isPadded (withSign negative (magnitudeBytes k)) = false := by
  induction k using Nat.strong_induction_on with
  | _ k ih =>
    obtain ⟨b, more, rfl⟩ : ∃ (b : UInt8) (more : Nat), k = b.toNat + 256 * more :=
      ⟨UInt8.ofNat k, k / 256, by rw [UInt8.toNat_ofNat']; omega⟩
    rw [magnitudeBytes_add b more h]
    rcases Nat.eq_zero_or_pos more with rfl | hmore
    · rw [magnitudeBytes_zero]
      exact withSign_byte h
    · have hne := magnitudeBytes_ne_nil hmore
      have hne' : withSign negative (magnitudeBytes more) ≠ [] := withSign_ne_nil hne
      obtain ⟨hmagnitude, hsign, hpad⟩ := ih more (by omega) hmore
      rw [withSign_cons hne, magnitude_cons hne', isNegative_cons hne', hmagnitude]
      exact ⟨rfl, hsign, not_isPadded_cons hne' hpad⟩

/-- Bytes none of which is there for nothing are those that are written for what they denote. -/
theorem withSign_magnitudeBytes_magnitude (hpad : isPadded bytes = false) :
    withSign (isNegative bytes) (magnitudeBytes (magnitude bytes)) = bytes := by
  induction bytes using magnitude.induct with
  | case1 => rw [magnitude, magnitudeBytes_zero, withSign]
  | case2 last =>
    have hlow := toNat_low_bits last
    have hfree : (last &&& 0x7f).toNat < 128 := hlow ▸ Nat.mod_lt _ (by decide)
    have hor := toNat_or_top_bit hfree
    rw [Bool.eq_false_iff, ne_eq, isPadded_singleton] at hpad
    have hbytes := magnitudeBytes_add (last &&& 0x7f) 0 (by omega)
    rw [Nat.mul_zero, Nat.add_zero, magnitudeBytes_zero, hlow] at hbytes
    have hlast := last.toNat_lt
    rw [magnitude, hbytes, withSign_singleton, if_pos hfree, List.singleton_inj, ← UInt8.toNat_inj,
      isNegative]
    simp only [decide_eq_true_eq]
    split
    · rw [hor]
      omega
    · omega
  | case3 b next rest ih =>
    have hpos := magnitude_pos hpad (List.cons_ne_nil _ _)
    rw [magnitude] at hpos
    rw [magnitude, magnitudeBytes_add _ _ hpos, isNegative]
    cases hrest : isPadded (next :: rest) with
    | false =>
      rw [withSign_cons (magnitudeBytes_ne_nil (magnitude_pos hrest (List.cons_ne_nil _ _))), ih hrest]
    | true =>
      -- only a last byte that holds the sign alone is there for nothing without the byte before it
      cases rest with
      | cons after rest => exact absurd (isPadded_cons.symm.trans hpad) (by rw [hrest]; decide)
      | nil =>
        rw [isPadded_singleton] at hrest
        rw [Bool.eq_false_iff, ne_eq, isPadded_pair] at hpad
        have hnext := next.toNat_lt
        have hfull : ¬b.toNat < 128 := fun hfree => hpad ⟨hrest, hfree⟩
        rw [magnitude, hrest, magnitudeBytes_zero, withSign_singleton, if_neg hfull, isNegative,
          List.cons_inj_right, List.singleton_inj, ← UInt8.toNat_inj]
        simp only [decide_eq_true_eq]
        split
        · change 128 = _
          omega
        · change 0 = _
          omega

/-! ### One form of each number -/

theorem value_encode (n : Int) : value (encode n) = n ∧ isPadded (encode n) = false := by
  rcases Nat.eq_zero_or_pos n.natAbs with hzero | hpos
  · rw [encode, hzero, magnitudeBytes_zero, Int.natAbs_eq_zero.1 hzero]
    exact ⟨rfl, rfl⟩
  · obtain ⟨hmagnitude, hsign, hpad⟩ := withSign_magnitudeBytes (decide (n < 0)) hpos
    refine ⟨?_, hpad⟩
    rw [encode, value, hmagnitude, hsign]
    simp only [decide_eq_true_eq]
    split <;> omega

theorem encode_value (hpad : isPadded bytes = false) : encode (value bytes) = bytes := by
  rcases List.eq_nil_or_concat bytes with rfl | ⟨_, _, hbytes⟩
  · exact (congrArg (withSign _) magnitudeBytes_zero)
  · have hpos := magnitude_pos hpad (by rw [hbytes]; simp)
    have hsign : decide (value bytes < 0) = isNegative bytes := by
      rw [value]
      cases isNegative bytes
      · simp
      · simp [hpos]
    rw [encode, natAbs_value, hsign, withSign_magnitudeBytes_magnitude hpad]

/-- **One form of each number**: of all the byte strings that denote a number, it is written as the one
none of whose bytes is there for nothing. -/
theorem encode_eq_iff : encode n = bytes ↔ value bytes = n ∧ isPadded bytes = false := by
  constructor
  · rintro rfl
    exact value_encode n
  · rintro ⟨rfl, hpad⟩
    exact encode_value hpad

/-- How many bytes a number takes. -/
theorem length_encode_le_iff : (encode n).length ≤ k + 1 ↔ n.natAbs < 128 * 256 ^ k := by
  obtain ⟨hvalue, hpad⟩ := value_encode n
  have habs : n.natAbs = magnitude (encode n) := by rw [← natAbs_value, hvalue]
  rw [habs]
  constructor
  · exact magnitude_lt
  · intro hlt
    by_contra hlong
    obtain ⟨more, hmore⟩ : ∃ more, (encode n).length = k + more + 2 :=
      ⟨(encode n).length - (k + 2), by omega⟩
    have hle := le_magnitude hpad hmore
    have hpow : 256 ^ k ≤ 256 ^ (k + more) := Nat.pow_le_pow_right (by decide) (Nat.le_add_right ..)
    omega

end UtxoLedger.ScriptNumber
