import UtxoLedger.Text.Base58
import UtxoLedger.Proofs.Lists
import UtxoLedger.Proofs.Text
import Mathlib.Data.List.GetD
import Mathlib.Data.List.TakeWhile
import Mathlib.Data.Nat.Digits.Lemmas

/-!
Base 58 in both directions. Digits of one base are written in another without loss, because leading
zeros are kept one for one and what follows them is the number in its digits. So every byte string has
one text, and every text in the alphabet stands for one byte string.
-/

namespace UtxoLedger.Base58

/-! ### Digits in a base -/

section Digits

variable {base source target : Nat}

theorem digitsOnto_eq (hbase : 1 < base) (n : Nat) (rest : List Nat) :
    digitsOnto base n rest = (Nat.digits base n).reverse ++ rest := by
  induction n using Nat.strong_induction_on generalizing rest with
  | _ n ih =>
    rw [digitsOnto]
    split
    · next h =>
      rw [ih _ (Nat.div_lt_self h.2 h.1), Nat.digits_def' h.1 h.2, List.reverse_cons,
        List.append_assoc, List.singleton_append]
    · next h =>
      obtain rfl : n = 0 := by omega
      rw [Nat.digits_zero, List.reverse_nil, List.nil_append]

theorem ofDigits_eq (base : Nat) (digits : List Nat) :
    ofDigits base digits = Nat.ofDigits base digits.reverse := by
  rw [Nat.ofDigits_eq_foldr, List.foldr_reverse, ofDigits]
  congr 1
  funext n d
  exact (Nat.add_comm _ _).trans (congrArg (d + ·) (Nat.mul_comm _ _))

theorem ofDigits_digitsOnto (hbase : 1 < base) (n : Nat) :
    ofDigits base (digitsOnto base n []) = n := by
  rw [digitsOnto_eq hbase, List.append_nil, ofDigits_eq, List.reverse_reverse, Nat.ofDigits_digits]

theorem eq_zero_of_mem_takeWhile {digits : List Nat} {d : Nat}
    (h : d ∈ digits.takeWhile (· == 0)) : d = 0 := by
  have hzero := List.mem_takeWhile_imp h
  exact beq_iff_eq.1 hzero

/-- Zeros in front do not count. -/
theorem ofDigits_append {zeros : List Nat} (hzeros : ∀ d ∈ zeros, d = 0) (digits : List Nat) :
    ofDigits base (zeros ++ digits) = ofDigits base digits := by
  obtain ⟨n, rfl⟩ : ∃ n, zeros = List.replicate n 0 :=
    ⟨zeros.length, List.eq_replicate_iff.2 ⟨rfl, hzeros⟩⟩
  induction n with
  | zero => rfl
  | succ n ih =>
    refine Eq.trans ?_ (ih fun d hd => (List.mem_replicate.1 hd).2)
    rw [List.replicate_succ, List.cons_append, ofDigits, List.foldl_cons, Nat.zero_mul, ofDigits]

/-- The number of digits is written in these digits but for the zeros in front. -/
theorem digitsOnto_ofDigits (hbase : 1 < base) {digits : List Nat} (hlt : ∀ d ∈ digits, d < base) :
    digitsOnto base (ofDigits base digits) [] = digits.dropWhile (· == 0) := by
  have hsplit : digits = digits.takeWhile (· == 0) ++ digits.dropWhile (· == 0) :=
    List.takeWhile_append_dropWhile.symm
  have hrest : ∀ d ∈ (digits.dropWhile (· == 0)).reverse, d < base := by
    intro d hd
    exact hlt d ((List.dropWhile_sublist _).subset (List.mem_reverse.1 hd))
  have hlead : ∀ h : (digits.dropWhile (· == 0)).reverse ≠ [],
      (digits.dropWhile (· == 0)).reverse.getLast h ≠ 0 := by
    intro h hzero
    rw [List.getLast_reverse] at hzero
    have hhead := List.head_dropWhile_not (· == 0) (List.reverse_ne_nil_iff.1 h)
    simp [hzero] at hhead
  have hvalue : ofDigits base digits = ofDigits base (digits.dropWhile (· == 0)) := by
    conv_lhs => rw [hsplit]
    exact ofDigits_append (fun _ => eq_zero_of_mem_takeWhile) _
  rw [hvalue, digitsOnto_eq hbase, List.append_nil, ofDigits_eq,
    Nat.digits_ofDigits base hbase _ hrest hlead, List.reverse_reverse]

theorem takeWhile_digitsOnto (hbase : 1 < base) (n : Nat) :
    (digitsOnto base n []).takeWhile (· == 0) = [] := by
  rw [digitsOnto_eq hbase, List.append_nil]
  rcases List.eq_nil_or_concat (Nat.digits base n) with hnil | ⟨front, last, hconcat⟩
  · rw [hnil, List.reverse_nil, List.takeWhile_nil]
  · have hne : n ≠ 0 := by
      rintro rfl
      simp at hconcat
    have hlast : last ≠ 0 := by
      have := Nat.getLast_digit_ne_zero base hne
      simpa [hconcat] using this
    rw [hconcat, List.concat_eq_append, List.reverse_concat, List.takeWhile_cons_of_neg]
    exact fun h => hlast (beq_iff_eq.1 h)

theorem lt_of_mem_rebase (htarget : 1 < target) {digits : List Nat} {d : Nat}
    (h : d ∈ rebase source target digits) : d < target := by
  rw [rebase, List.mem_append] at h
  rcases h with hzero | hdigit
  · have := eq_zero_of_mem_takeWhile hzero
    omega
  · rw [digitsOnto_eq htarget, List.append_nil, List.mem_reverse] at hdigit
    exact Nat.digits_lt_base htarget hdigit

/-- **Nothing is lost between two bases.** -/
theorem rebase_rebase (hsource : 1 < source) (htarget : 1 < target) {digits : List Nat}
    (hlt : ∀ d ∈ digits, d < source) : rebase target source (rebase source target digits) = digits := by
  have hkept : (rebase source target digits).takeWhile (· == 0) = digits.takeWhile (· == 0) := by
    rw [rebase, List.takeWhile_append_of_pos fun d hd => beq_iff_eq.2 (eq_zero_of_mem_takeWhile hd),
      takeWhile_digitsOnto htarget, List.append_nil]
  have hvalue : ofDigits target (rebase source target digits) = ofDigits source digits := by
    rw [rebase, ofDigits_append fun _ => eq_zero_of_mem_takeWhile, ofDigits_digitsOnto htarget]
  rw [rebase, hkept, hvalue, digitsOnto_ofDigits hsource hlt, List.takeWhile_append_dropWhile]

end Digits

/-! ### Digits as characters -/

theorem digit_lt : ∀ n < 58, (digit n).toNat < 128 := by
  decide

theorem digitValue?_digit : ∀ n < 58, digitValue? (UInt8.ofNat (digit n).toNat) = some n := by
  decide

theorem toNat_digit_of_digitValue? {code : UInt8} {n : Nat} (h : digitValue? code = some n) :
    n < 58 ∧ (digit n).toNat = code.toNat := by
  obtain ⟨hlt, hfound, -⟩ := List.findIdx?_eq_some_iff_getElem.1 h
  refine ⟨hlt, ?_⟩
  rw [digit, List.getD_eq_getElem _ _ hlt]
  exact beq_iff_eq.1 hfound

/-- What is read from a text are the values of its characters, all of which are digits. -/
theorem readDigits_eq_ok_iff {position : Nat} {done digits : List Nat} {chars : List Char} :
    readDigits position done (chars.flatMap String.utf8EncodeChar) = .ok digits ↔
      ∃ own, digits = done.reverse ++ own ∧ (∀ d ∈ own, d < 58) ∧ chars = own.map digit := by
  induction chars generalizing position done with
  | nil =>
    simp only [List.flatMap_nil, readDigits, Except.ok.injEq]
    constructor
    · rintro rfl
      exact ⟨[], by simp⟩
    · rintro ⟨own, rfl, -, hown⟩
      rw [List.map_eq_nil_iff.1 hown.symm, List.append_nil]
  | cons c chars ih =>
    rw [List.flatMap_cons]
    by_cases hc : c.toNat < 128
    · have hbyte : ¬0x80 ≤ UInt8.ofNat c.toNat := by
        rw [UInt8.le_iff_toNat_le, UInt8.toNat_ofNat', Nat.mod_eq_of_lt (by omega)]
        exact Nat.not_le.2 hc
      rw [utf8EncodeChar_of_lt hc, List.singleton_append, readDigits, if_neg hbyte]
      cases hvalue : digitValue? (UInt8.ofNat c.toNat) with
      | none =>
        simp only [reduceCtorEq, false_iff]
        rintro ⟨own, -, hown, hchars⟩
        obtain ⟨d, own, rfl, rfl, -⟩ := List.map_eq_cons_iff.1 hchars.symm
        rw [digitValue?_digit d (hown d List.mem_cons_self)] at hvalue
        cases hvalue
      | some d =>
        obtain ⟨hd, hdigit⟩ := toNat_digit_of_digitValue? hvalue
        have hchar : c = digit d := by
          rw [UInt8.toNat_ofNat', Nat.mod_eq_of_lt (by omega)] at hdigit
          exact Char.toNat_inj.1 hdigit.symm
        simp only [ih]
        constructor
        · rintro ⟨own, rfl, hown, rfl⟩
          exact ⟨d :: own, by simp, List.forall_mem_cons.2 ⟨hd, hown⟩, by rw [hchar, List.map_cons]⟩
        · rintro ⟨own, rfl, hown, hchars⟩
          obtain ⟨d', own, rfl, hd', rfl⟩ := List.map_eq_cons_iff.1 hchars.symm
          obtain ⟨hlt, hown⟩ := List.forall_mem_cons.1 hown
          have heq : digitValue? (UInt8.ofNat (digit d').toNat) = some d := hd'.symm ▸ hvalue
          obtain rfl : d' = d := Option.some.inj ((digitValue?_digit d' hlt).symm.trans heq)
          exact ⟨own, by simp, hown, rfl⟩
    · obtain ⟨first, more, hencoded, hfirst⟩ := exists_utf8EncodeChar_of_le (Nat.le_of_not_lt hc)
      rw [hencoded, List.cons_append, readDigits, if_pos hfirst]
      simp only [reduceCtorEq, false_iff]
      rintro ⟨own, -, hown, hchars⟩
      obtain ⟨d, own, rfl, rfl, -⟩ := List.map_eq_cons_iff.1 hchars.symm
      exact hc (digit_lt d (hown d List.mem_cons_self))

/-! ### Texts -/

theorem map_ofNat_toNat (bytes : Bytes) : (bytes.map UInt8.toNat).map UInt8.ofNat = bytes := by
  rw [List.map_map, List.map_congr_left fun b _ => ?_, List.map_id]
  exact UInt8.ofNat_toNat

theorem map_toNat_ofNat {digits : List Nat} (h : ∀ d ∈ digits, d < 256) :
    (digits.map UInt8.ofNat).map UInt8.toNat = digits := by
  rw [List.map_map, List.map_congr_left fun d hd => ?_, List.map_id]
  rw [Function.comp_apply, UInt8.toNat_ofNat', Nat.mod_eq_of_lt (h d hd), id]

/-- **Texts and byte strings correspond**: a text stands for a byte string exactly if it is what the
byte string is written as. -/
theorem decode_eq_ok_iff {text : String} {bytes : Bytes} :
    decode text = .ok bytes ↔ text = encode bytes := by
  have hread : decode text = .ok bytes ↔ ∃ digits : List Nat, (∀ d ∈ digits, d < 58) ∧
      text.toList = digits.map digit ∧ (rebase 58 256 digits).map UInt8.ofNat = bytes := by
    rw [decode, toUTF8_toList, except_bind_eq_ok_iff]
    simp only [readDigits_eq_ok_iff, List.reverse_nil, List.nil_append]
    constructor
    · rintro ⟨digits, ⟨_, rfl, hlt, htext⟩, hbytes⟩
      exact ⟨digits, hlt, htext, Except.ok.inj hbytes⟩
    · rintro ⟨digits, hlt, htext, rfl⟩
      exact ⟨digits, ⟨digits, rfl, hlt, htext⟩, rfl⟩
  rw [hread]
  constructor
  · rintro ⟨digits, hlt, htext, rfl⟩
    rw [encode, map_toNat_ofNat fun d hd => lt_of_mem_rebase (by decide) hd,
      rebase_rebase (by decide) (by decide) hlt, ← htext, String.ofList_toList]
  · rintro rfl
    have hbyte : ∀ d ∈ bytes.map UInt8.toNat, d < 256 := by
      intro d hd
      obtain ⟨b, -, rfl⟩ := List.mem_map.1 hd
      exact b.toNat_lt
    refine ⟨_, fun d hd => lt_of_mem_rebase (by decide) hd, String.toList_ofList, ?_⟩
    rw [rebase_rebase (by decide) (by decide) hbyte, map_ofNat_toNat]

end UtxoLedger.Base58
