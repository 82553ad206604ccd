import UtxoLedger.Address
import UtxoLedger.Transaction.Rules
import UtxoLedger.Proofs.Signing

/-!
What a standard output script looks like in bytes. There is one shape of twenty-two bytes for each
digest. The builders of such scripts make it, what reads them accepts it and nothing else, and the
script code for spending follows from it. So whether a transaction is standard can be told from the
bytes of its output scripts, as far as its unlocking scripts can be read at all.
-/

namespace UtxoLedger

namespace Script

/-- The bytes of a script that names a digest: zero, and the digest behind its length. -/
def outputShape (hash : KeyHash) : Bytes :=
  0x00 :: 0x14 :: hash.toList

/-- The bytes of what runs when an output that names a digest is spent. -/
def spendShape (hash : KeyHash) : Bytes :=
  [0x76, 0xa9, 0x14] ++ hash.toList ++ [0x88, 0xac]

/-! ### What is built -/

theorem bytes_payTo (hash : KeyHash) : (payTo hash).bytes = outputShape hash := by
  have hbytes : (payTo hash).bytes = outputShape hash ++ [] := rfl
  rw [hbytes, List.append_nil]

theorem bytes_spendCode (hash : KeyHash) : (spendCode hash).bytes = spendShape hash := by
  simp [spendCode, bytes, Instruction.bytes, Instruction.plain, Instruction.push, spendShape,
    Opcode.code]

theorem length_outputShape (hash : KeyHash) : (outputShape hash).length = 22 := by
  simp [outputShape]

theorem length_payTo (hash : KeyHash) : (payTo hash).bytes.length = 22 := by
  rw [bytes_payTo, length_outputShape]

/-! ### What is accepted -/

/-- A byte string names a digest exactly if it has the shape for that digest. -/
theorem program_of_parse_eq_ok_iff {bytes : Bytes} {hash : KeyHash} :
    (parse bytes >>= program) = .ok hash ↔ bytes = outputShape hash := by
  simp only [except_bind_eq_ok_iff, program_eq_ok_iff]
  constructor
  · rintro ⟨_, hparse, rfl⟩
    rw [← (parse_eq_ok_iff.1 hparse).2, bytes_payTo]
  · rintro rfl
    exact ⟨payTo hash, bytes_payTo hash ▸ parse_payTo hash, rfl⟩

theorem checkStandard_of_parse_eq_ok_iff {bytes : Bytes} :
    (parse bytes).bind checkStandard = .ok () ↔ ∃ hash, bytes = outputShape hash := by
  have hbind : (parse bytes).bind checkStandard = (parse bytes >>= checkStandard) := rfl
  simp only [hbind, except_bind_eq_ok_iff, checkStandard_eq_ok_iff, ← program_of_parse_eq_ok_iff,
    program_eq_ok_iff]
  exact ⟨fun ⟨s, hs, hash, h⟩ => ⟨hash, s, hs, h⟩, fun ⟨hash, s, hs, h⟩ => ⟨s, hs, hash, h⟩⟩

/-- The script code is the one for the digest that is named. -/
theorem scriptCodeFor_eq_ok_iff_shape {bytes code : Bytes} : scriptCodeFor bytes = .ok code ↔
    ∃ hash, bytes = outputShape hash ∧ code = spendShape hash := by
  simp only [scriptCodeFor_eq_ok_iff, bytes_payTo, bytes_spendCode]

theorem exists_scriptCodeFor_eq_error_iff {bytes : Bytes} :
    (∃ e, scriptCodeFor bytes = .error e) ↔ ∀ hash, bytes ≠ outputShape hash := by
  constructor
  · rintro ⟨e, herror⟩ hash hshape
    cases herror.symm.trans (scriptCodeFor_eq_ok_iff_shape.2 ⟨hash, hshape, rfl⟩)
  · intro hother
    refine exists_error_of_ne_ok fun code hok => ?_
    obtain ⟨hash, hshape, -⟩ := scriptCodeFor_eq_ok_iff_shape.1 hok
    exact hother hash hshape

end Script

/-! ### Transactions -/

namespace Transaction

theorem checkOutputs_eq_ok_iff (index : Nat) {outputs : List Output} :
    checkOutputs index outputs = .ok () ↔
      ∀ output ∈ outputs, ∃ hash, output.script = Script.outputShape hash := by
  induction outputs generalizing index with
  | nil => simp [checkOutputs]
  | cons output outputs ih =>
    rw [checkOutputs, List.forall_mem_cons, ← Script.checkStandard_of_parse_eq_ok_iff,
      ← ih (index + 1)]
    cases (Script.parse output.script).bind Script.checkStandard <;> simp

theorem checkInputs_eq_ok_iff (index : Nat) {inputs : List Input} :
    checkInputs index inputs = .ok () ↔
      ∀ input ∈ inputs, ∃ script, Script.parse input.scriptSig = .ok script := by
  induction inputs generalizing index with
  | nil => simp [checkInputs]
  | cons input inputs ih =>
    rw [checkInputs, List.forall_mem_cons, ← ih (index + 1)]
    cases Script.parse input.scriptSig <;> simp

theorem checkStandard_eq_ok_iff {tx : Transaction} : tx.checkStandard = .ok () ↔
    (∀ output ∈ tx.outputs, ∃ hash, output.script = Script.outputShape hash) ∧
      ∀ input ∈ tx.inputs, ∃ script, Script.parse input.scriptSig = .ok script := by
  rw [← checkOutputs_eq_ok_iff 0, ← checkInputs_eq_ok_iff 0, checkStandard]
  cases checkOutputs 0 tx.outputs <;> simp

end Transaction

/-! ### One shape -/

/-- What a byte string is as the script of an output. -/
structure Script.Judged (bytes : Bytes) : Prop where
  /-- It names a digest exactly if it has the shape for it. -/
  names : ∀ hash, (parse bytes >>= program) = .ok hash ↔ bytes = outputShape hash
  /-- Its script code is the one for that digest. -/
  code : ∀ code, scriptCodeFor bytes = .ok code ↔
    ∃ hash, bytes = outputShape hash ∧ code = spendShape hash
  /-- Without the shape it has none. -/
  fails : (∃ e, scriptCodeFor bytes = .error e) ↔ ∀ hash, bytes ≠ outputShape hash

/-- The scripts that are built for a digest have its shape. -/
structure Script.Built (hash : KeyHash) : Prop where
  length : (outputShape hash).length = 22
  script : (payTo hash).bytes = outputShape hash
  address : ∀ version, (Address.mk version hash).script = outputShape hash

/-- **Being standard is a matter of bytes.** Every byte string is judged by the one shape that the
builders of scripts and addresses make, and a transaction is standard exactly if each of its output
scripts has that shape for some digest and each of its unlocking scripts can be read. -/
theorem standard_iff_shape : (∀ bytes, Script.Judged bytes) ∧ (∀ hash, Script.Built hash) ∧
    ∀ tx : Transaction, tx.checkStandard = .ok () ↔
      (∀ output ∈ tx.outputs, ∃ hash, output.script = Script.outputShape hash) ∧
        ∀ input ∈ tx.inputs, ∃ script, Script.parse input.scriptSig = .ok script := by
  refine ⟨fun bytes => ⟨?_, ?_, ?_⟩, fun hash => ⟨?_, ?_, ?_⟩, ?_⟩
  · exact fun hash => Script.program_of_parse_eq_ok_iff
  · exact fun code => Script.scriptCodeFor_eq_ok_iff_shape
  · exact Script.exists_scriptCodeFor_eq_error_iff
  · exact Script.length_outputShape hash
  · exact Script.bytes_payTo hash
  · exact fun version => Script.bytes_payTo hash
  · exact fun tx => Transaction.checkStandard_eq_ok_iff

/-- The push of a digest alone, without the leading zero, is not standard. -/
example : (Script.parse (0x14 :: List.replicate 20 0x00) >>= Script.program) =
    .error (.instructionCount 1) := by
  decide +kernel

end UtxoLedger
