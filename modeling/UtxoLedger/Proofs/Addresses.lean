import UtxoLedger.Address
import UtxoLedger.Proofs.Base58
import UtxoLedger.Proofs.Machine

/-!
The text form of addresses. A text is read as an address exactly if the address is written as that
text, because each of the three layers can be told from the next: the address from its bytes, these
from the bytes with their checksum, and those from their digits.
-/

namespace UtxoLedger

/-! ### Bytes -/

/-- The tags that networks have. -/
def AddressVersion.tags : List UInt8 :=
  [1, 2, 3]

theorem AddressVersion.ofTag?_eq_some_iff {tag : UInt8} {version : AddressVersion} :
    ofTag? tag = some version ↔ tag = version.tag := by
  constructor
  · intro h
    have hto : tag.toNat = version.tag.toNat := by
      unfold ofTag? at h
      split at h <;> cases h <;> assumption
    exact UInt8.toNat_inj.1 hto
  · rintro rfl
    cases version <;> rfl

namespace Address

theorem bytes_ne_nil (address : Address) : address.bytes ≠ [] :=
  List.cons_ne_nil _ _

/-- An address is read from its own bytes, and from no others. -/
theorem ofBytes_eq_ok_iff {bytes : Bytes} {address : Address} :
    ofBytes bytes = .ok address ↔ bytes = address.bytes := by
  constructor
  · intro h
    unfold ofBytes at h
    split at h
    · next tag witnessVersion reserved hash =>
      split at h
      · cases h
      · next fixed hfixed =>
        split at h
        · cases h
        · next version hversion =>
          split at h
          · cases h
          · next hwitness =>
            split at h
            · cases h
            · next hreserved =>
              cases h
              rw [FixedBytes.ofList?_eq_some_iff] at hfixed
              rw [Address.bytes, AddressVersion.ofTag?_eq_some_iff.1 hversion, hfixed,
                not_not.1 hwitness, not_not.1 hreserved]
    · cases h
  · rintro rfl
    have hhash : FixedBytes.ofList? address.hash.toList = some address.hash :=
      FixedBytes.ofList?_eq_some_iff.2 rfl
    have hversion : AddressVersion.ofTag? address.version.tag = some address.version :=
      AddressVersion.ofTag?_eq_some_iff.2 rfl
    simp [ofBytes, Address.bytes, hhash, hversion]

/-- The bytes of addresses: a known tag, two zeros, and twenty more. -/
theorem exists_eq_bytes_iff {bytes : Bytes} : (∃ address : Address, bytes = address.bytes) ↔
    bytes.length = 23 ∧ (∃ tag ∈ AddressVersion.tags, bytes[0]? = some tag) ∧ bytes[1]? = some 0 ∧
      bytes[2]? = some 0 := by
  constructor
  · rintro ⟨⟨version, hash⟩, rfl⟩
    refine ⟨by simp [Address.bytes], ⟨version.tag, ?_, rfl⟩, rfl, rfl⟩
    cases version <;> decide
  · rintro ⟨hlength, ⟨tag, htag, hfirst⟩, hsecond, hthird⟩
    obtain ⟨version, rfl⟩ : ∃ version : AddressVersion, tag = version.tag := by
      simp only [AddressVersion.tags, List.mem_cons, List.not_mem_nil, or_false] at htag
      rcases htag with rfl | rfl | rfl
      · exact ⟨.mainnet, rfl⟩
      · exact ⟨.goodnet, rfl⟩
      · exact ⟨.testnet, rfl⟩
    match bytes with
    | [] => cases hfirst
    | [_] => cases hsecond
    | [_, _] => cases hthird
    | _ :: _ :: _ :: hash =>
      cases hfirst
      cases hsecond
      cases hthird
      exact ⟨⟨version, hash, by simpa using hlength⟩, rfl⟩

end Address

/-! ### Texts -/

section

variable [CryptoSuite]

namespace Base58Check

theorem length_checksum (payload : Bytes) : (checksum payload).length = checksumSize := by
  rw [checksum, List.length_take, FixedBytes.length_toList]
  rfl

/-- A text stands for a payload exactly if there is one and it is written as that text. -/
theorem decode_eq_ok_iff {text : String} {payload : Bytes} :
    decode text = .ok payload ↔ payload ≠ [] ∧ text = encode payload := by
  rw [decode, except_bind_eq_ok_iff]
  simp only [Base58.decode_eq_ok_iff]
  constructor
  · rintro ⟨bytes, rfl, h⟩
    split at h
    · cases h
    · next hlong =>
      split at h
      · next hsum =>
        cases h
        have hsplit : bytes = bytes.take (bytes.length - checksumSize) ++
            checksum (bytes.take (bytes.length - checksumSize)) := by
          rw [← hsum, List.take_append_drop]
        refine ⟨fun hnil => hlong ?_, congrArg Base58.encode hsplit⟩
        have hzero := congrArg List.length hnil
        rw [List.length_take, List.length_nil] at hzero
        omega
      · cases h
  · rintro ⟨hne, rfl⟩
    have hpos := List.length_pos_iff.2 hne
    have hsum := length_checksum payload
    have hlength : (payload ++ checksum payload).length - checksumSize = payload.length := by
      rw [List.length_append]
      omega
    refine ⟨_, rfl, ?_⟩
    rw [if_neg (by rw [List.length_append]; omega)]
    simp only [hlength, List.take_left, List.drop_left]
    rfl

theorem encode_injective {payload payload' : Bytes} (h : encode payload = encode payload') :
    payload = payload' := by
  have hbytes : payload ++ checksum payload = payload' ++ checksum payload' :=
    Except.ok.inj ((Base58.decode_eq_ok_iff.2 rfl).symm.trans (Base58.decode_eq_ok_iff.2 h))
  exact (List.append_inj' hbytes (by rw [length_checksum, length_checksum])).1

end Base58Check

namespace Address

theorem parse_eq_ok_iff {text : String} {address : Address} :
    parse text = .ok address ↔ text = address.text := by
  rw [parse, except_bind_eq_ok_iff]
  simp only [Base58Check.decode_eq_ok_iff, ofBytes_eq_ok_iff]
  constructor
  · rintro ⟨_, ⟨-, rfl⟩, rfl⟩
    rfl
  · rintro rfl
    exact ⟨_, ⟨address.bytes_ne_nil, rfl⟩, rfl⟩

/-- A payload with its own checksum is refused exactly if it is not the bytes of an address. -/
theorem parse_encode_eq_error_iff {payload : Bytes} :
    (∃ e, parse (Base58Check.encode payload) = .error e) ↔
      ¬∃ address : Address, payload = address.bytes := by
  constructor
  · rintro ⟨e, herror⟩ ⟨address, rfl⟩
    cases herror.symm.trans (parse_eq_ok_iff.2 rfl)
  · intro hnone
    refine exists_error_of_ne_ok fun address hok => hnone ⟨address, ?_⟩
    exact Base58Check.encode_injective (parse_eq_ok_iff.1 hok)

/-- **An address has exactly one text.** Whatever is read as an address is the text that the address is
written as, every address is read back from its text, and a payload with a correct checksum is refused
if its length, its version or one of the two bytes behind the version is not that of an address. -/
theorem parse_exactly : (∀ text address, parse text = .ok address ↔ text = address.text) ∧
    (∀ version hash, parse (text ⟨version, hash⟩) = .ok ⟨version, hash⟩) ∧
    ∀ payload : Bytes, (∃ e, parse (Base58Check.encode payload) = .error e) ↔
      payload.length ≠ 23 ∨ (∀ tag ∈ AddressVersion.tags, payload[0]? ≠ some tag) ∨ payload[1]? ≠ some 0 ∨
        payload[2]? ≠ some 0 := by
  refine ⟨fun text address => parse_eq_ok_iff, fun version hash => parse_eq_ok_iff.2 rfl, ?_⟩
  intro payload
  rw [parse_encode_eq_error_iff, exists_eq_bytes_iff, not_and_or, not_and_or, not_and_or]
  simp only [not_exists, not_and, ne_eq]

end Address

end

end UtxoLedger
