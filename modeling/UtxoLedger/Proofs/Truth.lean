import UtxoLedger.Proofs.ScriptNumber

/-!
Truth on the script stack. An element counts as false exactly if it denotes zero, with a sign or without
one and in any number of bytes; so it counts as the number that can be read from it.
-/

namespace UtxoLedger

variable {bytes before : Bytes} {last : UInt8}

/-! ### Elements that denote zero -/

namespace ScriptNumber

/-- Zero has the bytes of zero, of which the last one may hold a sign. -/
theorem magnitude_eq_zero_iff : magnitude bytes = 0 ↔
    (∀ b ∈ bytes.dropLast, b = 0) ∧ ∀ last ∈ bytes.getLast?, last = 0 ∨ last = 0x80 := by
  induction bytes using magnitude.induct with
  | case1 => simp [magnitude]
  | case2 last =>
    have hlast := last.toNat_lt
    have hzero : last = 0 ↔ last.toNat = 0 := UInt8.toNat_inj.symm
    have hsign : last = 0x80 ↔ last.toNat = 128 := UInt8.toNat_inj.symm
    simp only [magnitude, List.dropLast_singleton, List.getLast?_singleton, List.not_mem_nil,
      Option.mem_some_iff, false_imp_iff, implies_true, true_and, forall_eq', hzero, hsign]
    omega
  | case3 b next rest ih =>
    have hb : b = 0 ↔ b.toNat = 0 := UInt8.toNat_inj.symm
    rw [magnitude, List.dropLast_cons_cons, List.getLast?_cons_cons, List.forall_mem_cons, and_assoc,
      ← ih, hb]
    omega

theorem value_eq_zero_iff : value bytes = 0 ↔ magnitude bytes = 0 := by
  rw [← natAbs_value, Int.natAbs_eq_zero]

end ScriptNumber

/-! ### Elements that count as false -/

namespace ScriptBool

theorem decode_concat (before : Bytes) (last : UInt8) :
    decode (before ++ [last]) = (last != 0 && last != 0x80 || before.any (· != 0)) := by
  rw [decode, List.reverse_concat]
  exact congrArg (_ || ·) List.any_reverse

theorem decode_eq_false_iff_zeros : decode bytes = false ↔
    (∀ b ∈ bytes.dropLast, b = 0) ∧ ∀ last ∈ bytes.getLast?, last = 0 ∨ last = 0x80 := by
  rcases List.eq_nil_or_concat bytes with rfl | ⟨before, last, rfl⟩
  · exact iff_of_true rfl (by simp)
  · have hlast : (last != 0 && last != 0x80) = false ↔ last = 0 ∨ last = 0x80 := by
      simp [or_iff_not_imp_left]
    rw [List.concat_eq_append, decode_concat, List.dropLast_concat, List.getLast?_concat,
      Bool.or_eq_false_iff, and_comm, hlast, List.any_eq_false]
    simp

/-- An element counts as false exactly if it denotes zero. -/
theorem decode_eq_false_iff : decode bytes = false ↔ ScriptNumber.value bytes = 0 := by
  rw [decode_eq_false_iff_zeros, ScriptNumber.value_eq_zero_iff, ScriptNumber.magnitude_eq_zero_iff]

/-! ### The last byte that is not zero -/

theorem lastNonzero?_concat (before : Bytes) (last : UInt8) : lastNonzero? (before ++ [last]) =
    if last = 0 then lastNonzero? before else some before.length := by
  rw [lastNonzero?, List.reverse_concat, List.findIdx?_cons, List.length_append, List.length_singleton,
    Nat.add_sub_cancel]
  by_cases hlast : last = 0
  · rw [if_neg (by simp [hlast]), if_pos hlast, Option.map_map, lastNonzero?]
    refine congrArg (Option.map · _) (funext fun back => ?_)
    rw [Function.comp_apply, Nat.sub_sub, Nat.add_comm]
  · rw [if_pos (by simp [hlast]), if_neg hlast]
    rfl

theorem lastNonzero?_eq_none_iff : lastNonzero? bytes = none ↔ ∀ b ∈ bytes, b = 0 := by
  simp [lastNonzero?]

theorem lt_length_of_lastNonzero? {index : Nat} (h : lastNonzero? bytes = some index) :
    index < bytes.length := by
  obtain ⟨back, hback, rfl⟩ := Option.map_eq_some_iff.1 h
  obtain ⟨hlt, -, -⟩ := List.findIdx?_eq_some_iff_getElem.1 hback
  rw [List.length_reverse] at hlt
  omega

/-- Scanning for the last byte that is not zero tells the same. -/
theorem scan_eq_decode (bytes : Bytes) : scan bytes = decode bytes := by
  rcases List.eq_nil_or_concat bytes with rfl | ⟨before, last, rfl⟩
  · rfl
  rw [List.concat_eq_append, decode_concat, scan, lastNonzero?_concat]
  -- only a last byte that is found itself can be the sign of a zero
  by_cases hlast : last = 0
  · rw [if_pos hlast, hlast]
    cases hindex : lastNonzero? before with
    | none =>
      have hzeros := lastNonzero?_eq_none_iff.1 hindex
      simpa using hzeros
    | some index =>
      have hlt := lt_length_of_lastNonzero? hindex
      have hother : index ≠ before.length := Nat.ne_of_lt hlt
      have hany : before.any (· != 0) = true := by
        by_contra hnone
        rw [lastNonzero?_eq_none_iff.2 (by simpa using hnone)] at hindex
        cases hindex
      simp [hother, hany]
  · have hnonzero : (last != 0) = true := bne_iff_ne.2 hlast
    have hany : before.any (· != 0) = !before.all (· == 0) := List.not_all_eq_any_not.symm
    rw [if_neg hlast, hnonzero, hany]
    simp [bne]

/-! ### Truth and value -/

/-- What an element counts as. -/
structure Truth (bytes : Bytes) : Prop where
  /-- It counts as false exactly if it denotes zero. -/
  value : decode bytes = false ↔ ScriptNumber.value bytes = 0
  /-- These are the elements whose bytes are zero, but for a last one that may hold the sign alone. -/
  zeros : decode bytes = false ↔
    (∀ b ∈ bytes.dropLast, b = 0) ∧ ∀ last ∈ bytes.getLast?, last = 0 ∨ last = 0x80
  /-- Of eight bytes or fewer a number is read, and they count as true exactly if it is not zero. -/
  number : bytes.length ≤ 8 → ∃ n, ScriptNumber.decode bytes false 8 = .ok n ∧
    (decode bytes = true ↔ n ≠ 0)
  /-- Scanning for the last byte that is not zero comes to the same. -/
  scan : scan bytes = decode bytes

theorem truth (bytes : Bytes) : Truth bytes where
  value := decode_eq_false_iff
  zeros := decode_eq_false_iff_zeros
  number h := by
    refine ⟨_, ScriptNumber.decode_eq_ok_iff.2 ⟨h, nofun, rfl⟩, ?_⟩
    rw [← Bool.not_eq_false, ne_eq, decode_eq_false_iff]
  scan := scan_eq_decode bytes

/-- **Truth is to be other than zero**: of every element, and of every signed word in the bytes that it
is written as. -/
theorem truth_eq_nonzero : (∀ bytes, Truth bytes) ∧
    ∀ v : Int64, decode (ScriptNumber.encode v.toInt) = decide (v ≠ 0) := by
  refine ⟨truth, fun v => ?_⟩
  obtain ⟨hvalue, -⟩ := ScriptNumber.value_encode v.toInt
  have hzero : v = 0 ↔ v.toInt = 0 := Int64.toInt_inj.symm
  rw [Bool.eq_iff_iff, ← Bool.not_eq_false, decode_eq_false_iff, hvalue, decide_eq_true_iff, ne_eq,
    hzero]

/-- A zero with a sign is read as zero and counts as false, unlike its bytes the other way round. -/
theorem signed_zero : ([0x00, 0x80] : Bytes).length ≤ 8 ∧
    ScriptNumber.decode [0x00, 0x80] false 8 = .ok 0 ∧ decode [0x00, 0x80] = false ∧
    decode [0x80, 0x00] = true := by
  have hlength : ([0x00, 0x80] : Bytes).length ≤ 8 := by decide
  obtain ⟨htruth, -⟩ := truth_eq_nonzero
  have hfalse := (htruth [0x00, 0x80]).zeros.2 (by simp)
  obtain ⟨n, hread, htrue⟩ := (htruth [0x00, 0x80]).number hlength
  obtain rfl : n = 0 := by
    rw [hfalse] at htrue
    exact not_not.1 fun hne => Bool.false_ne_true (htrue.2 hne)
  have hreversed : ¬decode [0x80, 0x00] = false := fun h => absurd ((htruth _).value.1 h) (by decide)
  exact ⟨hlength, hread, hfalse, Bool.not_eq_false _ ▸ hreversed⟩

end ScriptBool

end UtxoLedger
