import UtxoLedger.Proofs.Machine
import Mathlib.Data.List.Basic

/-!
What authorises a spending: a standard output script, two witness items, and an unlocking script
that makes of them a public key with the digest that the output names and a valid signature by it,
with nothing else on the stack.
-/

namespace UtxoLedger

/-! ### The standard output script -/

/-- Only the standard output script has a program. -/
theorem Script.program_eq_ok_iff {script : Script} {hash : KeyHash} :
    script.program = .ok hash ↔ script = payTo hash := by
  constructor
  · intro h
    unfold program at h
    split at h
    · next version program hi =>
      obtain ⟨op, immediate⟩ := program
      split at h
      · cases h
      · next hv =>
        split at h
        · cases h
        · next hop =>
          obtain rfl : op = .data20 := not_not.1 hop
          split at h
          · next fixed hf =>
            cases h
            obtain ⟨bytes, rfl, hb⟩ := Option.bind_eq_some_iff.1 hf
            rw [FixedBytes.ofList?_eq_some_iff] at hb
            rw [payTo, Script.mk.injEq, hi, not_not.1 hv, hb]
            rfl
          · cases h
    · cases h
  · rintro rfl
    simp [program, payTo, Instruction.push, FixedBytes.ofList?]

theorem Script.checkStandard_eq_ok_iff {script : Script} :
    script.checkStandard = .ok () ↔ ∃ hash, script = payTo hash := by
  simp only [← program_eq_ok_iff, checkStandard]
  cases script.program <;> simp [Except.map]

/-- An instruction with as many bytes of its own as its operation takes is read back. -/
theorem Script.parseFrom_bytes_append {position : Nat} {done : List Instruction} {op : Opcode}
    {own rest : Bytes} (ho : own.length + 1 = op.length) :
    parseFrom position done ((op.code :: own) ++ rest) =
      parseFrom (position + op.length) (⟨op, if op.length = 1 then none else some own⟩ :: done)
        rest := by
  have htake : (own ++ rest).take (op.length - 1) = own := List.take_left' (by omega)
  have hdrop : (own ++ rest).drop (op.length - 1) = rest := List.drop_left' (by omega)
  rw [List.cons_append, parseFrom]
  simp only [Opcode.ofCode?_code, htake, hdrop]
  rw [if_neg (by omega)]

/-- The standard output script is read back. -/
theorem Script.parse_payTo (hash : KeyHash) : parse (payTo hash).bytes = .ok (payTo hash) := by
  have hbytes : (payTo hash).bytes =
      (Opcode.zero.code :: []) ++ ((Opcode.data20.code :: hash.toList) ++ []) := rfl
  have hpush : hash.toList.length + 1 = Opcode.data20.length := by simp [Opcode.length]
  rw [parse, hbytes, parseFrom_bytes_append rfl, parseFrom_bytes_append hpush, parseFrom]
  rfl

variable [CryptoSuite]

/-! ### A spending -/

/-- The two byte strings are a public key with the given digest and a valid signature by it of what
the spending asks to be signed. -/
def SpendContext.Signed (context : SpendContext) (hash : KeyHash) (key signature : Bytes) : Prop :=
  hash160 key = hash ∧ ∃ publicKey parsed digest,
    CryptoSuite.publicKey? key = some publicKey ∧ CryptoSuite.der? signature = some parsed ∧
      context.digest (Script.spendCode hash).bytes context.index context.amount = .ok digest ∧
      CryptoSuite.verify publicKey digest parsed = true

namespace Machine

open Run

variable {context : SpendContext} {hash : KeyHash} {unlocking : Script} {witness : Witness}
  {a b : Bytes}

theorem checkSignature_eq_ok_true_iff {code signature key : Bytes} :
    checkSignature (some context) code signature key = .ok true ↔
      ∃ publicKey parsed digest,
        CryptoSuite.publicKey? key = some publicKey ∧ CryptoSuite.der? signature = some parsed ∧
          context.digest code context.index context.amount = .ok digest ∧
          CryptoSuite.verify publicKey digest parsed = true := by
  rw [checkSignature]
  cases CryptoSuite.publicKey? key with
  | none => simp
  | some publicKey =>
    cases CryptoSuite.der? signature with
    | none => simp
    | some parsed =>
      cases context.digest code context.index context.amount with
      | error e => simp [bind, Except.bind]
      | ok digest => simp [bind, Except.bind, pure, Except.pure]

omit [CryptoSuite] in
theorem pushWitness_pair (hw : witness.items = [a, b]) :
    (pushWitness witness).apply initial = (.ok (), ⟨⟨[b, a]⟩, []⟩) := by
  rw [pushWitness, hw]
  rfl

/-- **What the scripts of a spending do.** On a standard output they succeed if and only if the
unlocking script leaves two elements of the witness's two, a key and a signature that is valid for
the digest. -/
theorem spend_eq_ok_iff (hw : witness.items = [a, b]) {after : Machine} :
    (spend context (.payTo hash) unlocking witness).apply initial = (.ok (), after) ↔
      after = ⟨.empty, (Script.spendCode hash).bytes⟩ ∧ ∃ m key signature,
        (execute (some context) unlocking).apply ⟨⟨[b, a]⟩, []⟩ = (.ok (), m) ∧
          m.stack.items = [key, signature] ∧ context.Signed hash key signature := by
  rw [spend, apply_bind_of_eq_ok (pushWitness_pair hw)]
  simp only [apply_seq_eq_ok_iff, execute_payTo_eq_ok_iff]
  constructor
  · rintro ⟨m, hunlock, _, ⟨-, rfl⟩, h⟩
    rw [apply_bind_of_eq_ok popProgram_eq_ok, apply_seq_eq_ok_iff] at h
    obtain ⟨m', hcode, hfinal⟩ := h
    obtain ⟨key, signature, rest, valid, hitems, -, hhash, hvalid, rfl⟩ :=
      execute_spendCode_eq_ok_iff.1 hcode
    -- the script code turns two elements into one, so one is left only if there were two
    obtain ⟨bytes, hlast, htrue, rfl⟩ := conclude_eq_ok_iff.1 hfinal
    obtain ⟨rfl, rfl⟩ := List.cons.inj hlast
    obtain rfl : valid = true := by simpa using htrue
    exact ⟨rfl, m, key, signature, hunlock, hitems, hhash, checkSignature_eq_ok_true_iff.1 hvalid⟩
  · rintro ⟨rfl, m, key, signature, hunlock, hitems, hhash, hsigned⟩
    have hsize : m.stack.size + 2 ≤ Stack.maxSize := by
      simp [Stack.size, hitems, Stack.maxSize]
    refine ⟨m, hunlock, _, ⟨hsize, rfl⟩, ?_⟩
    rw [apply_bind_of_eq_ok popProgram_eq_ok, apply_seq_eq_ok_iff]
    refine ⟨_, execute_spendCode_eq_ok_iff.2 ⟨key, signature, [], true, hitems, hsize, hhash,
      checkSignature_eq_ok_true_iff.2 hsigned, rfl⟩, ?_⟩
    exact conclude_eq_ok_iff.2 ⟨_, rfl, by simp, rfl⟩

end Machine

/-! ### Authorisation -/

variable {context : SpendContext} {locking unlocking : Script} {witness : Witness}

theorem authorize_eq_ok_iff : authorize locking unlocking witness context = .ok () ↔
    ∃ hash a b, locking = .payTo hash ∧ witness.items = [a, b] ∧ ∃ after,
      (Machine.spend context (.payTo hash) unlocking witness).apply .initial = (.ok (), after) := by
  rw [authorize]
  cases hc : locking.checkStandard with
  | error e =>
    simp only [reduceCtorEq, false_iff]
    rintro ⟨hash, a, b, hl, -⟩
    rw [Script.checkStandard_eq_ok_iff.2 ⟨hash, hl⟩] at hc
    cases hc
  | ok u =>
    obtain ⟨hash, rfl⟩ := Script.checkStandard_eq_ok_iff.1 hc
    simp only
    split
    · next hl =>
      simp only [reduceCtorEq, false_iff]
      rintro ⟨_, a, b, -, hw, -⟩
      exact hl (by rw [hw]; rfl)
    · next hl =>
      obtain ⟨a, b, hw⟩ := List.length_eq_two.1 (not_not.1 hl)
      constructor
      · intro h
        exact ⟨hash, a, b, rfl, hw, _, Prod.ext h rfl⟩
      · rintro ⟨_, _, _, he, -, after, hs⟩
        rw [he, hs]

/-- Who spends has a key with the digest that the output names. -/
theorem exists_signed_of_authorize (h : authorize locking unlocking witness context = .ok ()) :
    ∃ hash key signature, locking = .payTo hash ∧ context.Signed hash key signature := by
  obtain ⟨hash, a, b, hl, hw, after, hs⟩ := authorize_eq_ok_iff.1 h
  obtain ⟨-, -, key, signature, -, -, hsigned⟩ := (Machine.spend_eq_ok_iff hw).1 hs
  exact ⟨hash, key, signature, hl, hsigned⟩

/-- **The exact condition of a spending.** The locking script is standard, the witness has two
items, and the unlocking script leaves of them a public key with the digest that the output names
and a signature by it of what the spending asks to be signed. -/
theorem authorize_iff_signed : authorize locking unlocking witness context = .ok () ↔
    ∃ hash a b, locking = .payTo hash ∧ witness.items = [a, b] ∧ ∃ m key signature,
      (Machine.execute (some context) unlocking).apply ⟨⟨[b, a]⟩, []⟩ = (.ok (), m) ∧
        m.stack.items = [key, signature] ∧ context.Signed hash key signature := by
  rw [authorize_eq_ok_iff]
  constructor
  · rintro ⟨hash, a, b, hl, hw, after, hs⟩
    exact ⟨hash, a, b, hl, hw, ((Machine.spend_eq_ok_iff hw).1 hs).2⟩
  · rintro ⟨hash, a, b, hl, hw, hs⟩
    exact ⟨hash, a, b, hl, hw, _, (Machine.spend_eq_ok_iff hw).2 ⟨rfl, hs⟩⟩

end UtxoLedger
