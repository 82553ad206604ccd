import UtxoLedger.Proofs.Bytes
import UtxoLedger.Proofs.Lists
import UtxoLedger.Proofs.Ownership

/-!
What the digest to be signed commits to. The bytes that are hashed for it tell all that they are made
of: parts of a fixed width, lists of records that end by themselves, and one script code between
parts of a fixed width. So two digests agree exactly if everything they cover agrees, unless two of
the byte strings behind them collide.
-/

namespace UtxoLedger

/-! ### Compact numbers -/

/-- How many bytes a compact number takes, by the first of them. -/
def compactWidth (first : UInt8) : Nat :=
  if first = 0xfd then 3 else if first = 0xfe then 5 else if first = 0xff then 9 else 1

/-- The number that compact bytes stand for. -/
def compactValue : Bytes → Nat
  | [] => 0
  | first :: rest => if rest.length = 0 then first.toNat else ofLittleEndian rest

theorem exists_compactSize (n : Nat) :
    ∃ first rest, compactSize n = first :: rest ∧ rest.length + 1 = compactWidth first := by
  unfold compactSize
  split
  · next h =>
    have hbyte : (UInt8.ofNat n).toNat = n := by
      rw [UInt8.toNat_ofNat']
      omega
    refine ⟨UInt8.ofNat n, [], rfl, ?_⟩
    have hne : ∀ marker : UInt8, 0xfd ≤ marker.toNat → UInt8.ofNat n ≠ marker := by
      rintro _ hm rfl
      omega
    simp [compactWidth, hne 0xfd (by decide), hne 0xfe (by decide), hne 0xff (by decide)]
  · split
    · exact ⟨0xfd, _, rfl, by simp [compactWidth]⟩
    · split
      · exact ⟨0xfe, _, rfl, by simp [compactWidth]⟩
      · exact ⟨0xff, _, rfl, by simp [compactWidth]⟩

/-- Where a compact number ends can be told from its front. -/
theorem compactSize_append_inj {m n : Nat} {xs ys : Bytes}
    (h : compactSize m ++ xs = compactSize n ++ ys) : compactSize m = compactSize n ∧ xs = ys := by
  obtain ⟨first, rest, hm, hlm⟩ := exists_compactSize m
  obtain ⟨first', rest', hn, hln⟩ := exists_compactSize n
  rw [hm, hn] at h ⊢
  obtain ⟨rfl, -⟩ := List.cons.inj h
  refine List.append_inj h ?_
  simp only [List.length_cons, hlm, hln]

theorem compactValue_compactSize {n : Nat} (h : n < UInt64.size) :
    compactValue (compactSize n) = n := by
  unfold compactSize
  split
  · simp only [compactValue, List.length_nil, if_true, UInt8.toNat_ofNat']
    omega
  · split
    · next h16 => simp [compactValue, ofLittleEndian_littleEndian_of_lt (show n < 256 ^ 2 from h16)]
    · split
      · next h32 => simp [compactValue, ofLittleEndian_littleEndian_of_lt (show n < 256 ^ 4 from h32)]
      · simp [compactValue, ofLittleEndian_littleEndian_of_lt (show n < 256 ^ 8 from h)]

theorem compactSize_injOn {m n : Nat} (hm : m < UInt64.size) (hn : n < UInt64.size)
    (h : compactSize m = compactSize n) : m = n := by
  rw [← compactValue_compactSize hm, h, compactValue_compactSize hn]

/-! ### Records -/

namespace Sighash

@[simp]
theorem length_outpointBytes (o : Outpoint) : (outpointBytes o).length = 36 := by
  simp [outpointBytes]

theorem outpointBytes_injective {o o' : Outpoint} (h : outpointBytes o = outpointBytes o') :
    o = o' := by
  obtain ⟨hid, hindex⟩ := List.append_inj h (by simp)
  exact congrArg₂ Outpoint.mk (congrArg TxId.mk (FixedBytes.ext hid))
    (littleEndian_uint8_inj (by decide) hindex)

/-- An output can be told from the front, whatever comes behind it. -/
theorem outputBytes_append_inj {output output' : Output} {xs ys : Bytes}
    (hlen : output.script.length < UInt64.size) (hlen' : output'.script.length < UInt64.size)
    (h : outputBytes output ++ xs = outputBytes output' ++ ys) : output = output' := by
  simp only [outputBytes, List.append_assoc] at h
  obtain ⟨hvalue, h⟩ := List.append_inj h (by simp)
  obtain ⟨hsize, h⟩ := compactSize_append_inj h
  obtain ⟨hscript, -⟩ := List.append_inj h (compactSize_injOn hlen hlen' hsize)
  exact congrArg₂ Output.mk (littleEndian_uint32_inj (by decide) hvalue) hscript

theorem sequence_eq {input input' : Input} (h : sequenceBytes input = sequenceBytes input') :
    input.sequence = input'.sequence :=
  littleEndian_uint32_inj (by decide) h

end Sighash

/-! ### What is hashed -/

namespace Transfer

/-- What a digest to be signed covers: parts of the whole transfer, and what belongs to one input. -/
structure Covered where
  version : UInt8
  outpoints : List Outpoint
  sequences : List UInt32
  outputs : List Output
  lockTime : UInt32
  outpoint : Outpoint
  sequence : UInt32
  scriptCode : Bytes
  amount : UInt64
  deriving DecidableEq

/-- What the digest for an input of the transfer covers. No unlocking script and no witness is part
of it. -/
def covered (t : Transfer) (version : UInt8) (input : Input) (scriptCode : Bytes) (amount : UInt64) :
    Covered where
  version := version
  outpoints := t.inputs.map (·.outpoint)
  sequences := t.inputs.map (·.sequence)
  outputs := t.outputs
  lockTime := t.lockTime
  outpoint := input.outpoint
  sequence := input.sequence
  scriptCode := scriptCode
  amount := amount

def prevoutBytes (t : Transfer) : Bytes :=
  t.inputs.flatMap fun input => Sighash.outpointBytes input.outpoint

def sequencesBytes (t : Transfer) : Bytes :=
  t.inputs.flatMap Sighash.sequenceBytes

def outputsBytes (t : Transfer) : Bytes :=
  t.outputs.flatMap Sighash.outputBytes

variable {t t' : Transfer} {shared shared' : SharedDigests} {version version' : UInt8}
  {input input' : Input} {code code' : Bytes} {amount amount' : UInt64}

/-- The bytes that are signed tell everything in them. The script code, which alone has no fixed
width, stands between its length and parts of fixed width. -/
theorem sighashBytes_inj (h : t.sighashBytes shared version input code amount =
    t'.sighashBytes shared' version' input' code' amount') :
    version = version' ∧ shared = shared' ∧ input.outpoint = input'.outpoint ∧
      input.sequence = input'.sequence ∧ code = code' ∧ amount = amount' ∧
        t.lockTime = t'.lockTime := by
  simp only [sighashBytes, List.append_assoc] at h
  obtain ⟨hversion, h⟩ := List.append_inj h (by simp)
  obtain ⟨hprevouts, h⟩ := List.append_inj h (by simp)
  obtain ⟨hsequences, h⟩ := List.append_inj h (by simp)
  obtain ⟨houtpoint, h⟩ := List.append_inj h (by simp)
  obtain ⟨-, h⟩ := compactSize_append_inj h
  obtain ⟨hcode, h⟩ := List.append_inj' h (by simp [Sighash.sequenceBytes])
  obtain ⟨hamount, h⟩ := List.append_inj h (by simp)
  obtain ⟨hsequence, h⟩ := List.append_inj h (by simp [Sighash.sequenceBytes])
  obtain ⟨houtputs, h⟩ := List.append_inj h (by simp)
  obtain ⟨hlock, -⟩ := List.append_inj h (by simp)
  have hshared : shared = shared' := by
    obtain ⟨prevouts, sequences, outputs⟩ := shared
    obtain ⟨prevouts', sequences', outputs'⟩ := shared'
    exact congr (congrArg₂ SharedDigests.mk (FixedBytes.ext hprevouts) (FixedBytes.ext hsequences))
      (FixedBytes.ext houtputs)
  exact ⟨littleEndian_uint8_inj (by decide) hversion, hshared,
    Sighash.outpointBytes_injective houtpoint, Sighash.sequence_eq hsequence, hcode,
    littleEndian_uint64_inj (by decide) hamount, littleEndian_uint32_inj (by decide) hlock⟩

theorem prevoutBytes_eq (t : Transfer) :
    t.prevoutBytes = (t.inputs.map (·.outpoint)).flatMap Sighash.outpointBytes := by
  rw [prevoutBytes, List.flatMap_map]

theorem sequencesBytes_eq (t : Transfer) : t.sequencesBytes =
    (t.inputs.map (·.sequence)).flatMap fun sequence => littleEndian 4 sequence.toNat := by
  rw [sequencesBytes, List.flatMap_map]
  rfl

theorem outpoints_eq (h : t.prevoutBytes = t'.prevoutBytes) :
    t.inputs.map (·.outpoint) = t'.inputs.map (·.outpoint) := by
  rw [prevoutBytes_eq, prevoutBytes_eq] at h
  exact eq_of_flatMap_eq_of_length Sighash.length_outpointBytes (by decide)
    (fun _ _ => Sighash.outpointBytes_injective) h

theorem sequences_eq (h : t.sequencesBytes = t'.sequencesBytes) :
    t.inputs.map (·.sequence) = t'.inputs.map (·.sequence) := by
  rw [sequencesBytes_eq, sequencesBytes_eq] at h
  exact eq_of_flatMap_eq_of_length (fun sequence => length_littleEndian 4 sequence.toNat) (by decide)
    (fun _ _ => littleEndian_uint32_inj (by decide)) h

theorem outputs_eq (hlen : ∀ output ∈ t.outputs, output.script.length < UInt64.size)
    (hlen' : ∀ output ∈ t'.outputs, output.script.length < UInt64.size)
    (h : t.outputsBytes = t'.outputsBytes) : t.outputs = t'.outputs := by
  refine eq_of_flatMap_eq (fun output he => ?_) (fun output ho output' ho' xs ys he => ?_) h
  · have := congrArg List.length he
    simp [Sighash.outputBytes] at this
  · exact Sighash.outputBytes_append_inj (hlen output ho) (hlen' output' ho') he

variable [CryptoSuite]

theorem sharedDigests_eq (t : Transfer) : t.sharedDigests =
    ⟨hash256 t.prevoutBytes, hash256 t.sequencesBytes, hash256 t.outputsBytes⟩ := rfl

/-- The byte strings that are hashed for one digest to be signed: three for the whole transfer and
one for the input. -/
def hashed (t : Transfer) (version : UInt8) (input : Input) (scriptCode : Bytes) (amount : UInt64) :
    List Bytes :=
  [t.prevoutBytes, t.sequencesBytes, t.outputsBytes,
    t.sighashBytes t.sharedDigests version input scriptCode amount]

end Transfer

/-! ### Digests -/

section

variable [CryptoSuite]

/-- Two different ones of these byte strings have the same digest. -/
def Collide (strings : List Bytes) : Prop :=
  ∃ a ∈ strings, ∃ b ∈ strings, a ≠ b ∧ hash256 a = hash256 b

theorem eq_of_not_collide {strings : List Bytes} (hc : ¬Collide strings) {a b : Bytes}
    (ha : a ∈ strings) (hb : b ∈ strings) (h : hash256 a = hash256 b) : a = b := by
  by_contra hne
  exact hc ⟨a, ha, b, hb, hne, h⟩

namespace Transfer

variable {t t' : Transfer} {version version' : UInt8} {input input' : Input} {code code' : Bytes}
  {amount amount' : UInt64}

/-- The signed bytes are made of what is covered. -/
theorem sighashBytes_eq_of_covered_eq
    (h : t.covered version input code amount = t'.covered version' input' code' amount') :
    t.sighashBytes t.sharedDigests version input code amount =
      t'.sighashBytes t'.sharedDigests version' input' code' amount' := by
  simp only [covered, Covered.mk.injEq] at h
  obtain ⟨rfl, houtpoints, hsequences, houtputs, hlock, houtpoint, hsequence, rfl, rfl⟩ := h
  have hshared : t.sharedDigests = t'.sharedDigests := by
    rw [sharedDigests_eq, sharedDigests_eq, prevoutBytes_eq, prevoutBytes_eq, sequencesBytes_eq,
      sequencesBytes_eq, outputsBytes, outputsBytes, houtpoints, hsequences, houtputs]
  simp only [sighashBytes, Sighash.sequenceBytes, hshared, houtpoint, hsequence, hlock]

/-- **Equal digests cover the same**, or two of the byte strings behind them collide. -/
theorem covered_eq_or_collide (hlen : ∀ output ∈ t.outputs, output.script.length < UInt64.size)
    (hlen' : ∀ output ∈ t'.outputs, output.script.length < UInt64.size)
    (h : hash256 (t.sighashBytes t.sharedDigests version input code amount) =
      hash256 (t'.sighashBytes t'.sharedDigests version' input' code' amount')) :
    t.covered version input code amount = t'.covered version' input' code' amount' ∨
      Collide (t.hashed version input code amount ++ t'.hashed version' input' code' amount') := by
  refine or_iff_not_imp_right.2 fun hc => ?_
  have heq : ∀ a ∈ t.hashed version input code amount,
      ∀ b ∈ t'.hashed version' input' code' amount', hash256 a = hash256 b → a = b :=
    fun a ha b hb => eq_of_not_collide hc (List.mem_append_left _ ha) (List.mem_append_right _ hb)
  obtain ⟨hversion, hshared, houtpoint, hsequence, hcode, hamount, hlock⟩ :=
    sighashBytes_inj (heq _ (by simp [hashed]) _ (by simp [hashed]) h)
  -- the shared digests agree, so the strings behind them do
  rw [sharedDigests_eq, sharedDigests_eq, SharedDigests.mk.injEq] at hshared
  have houtpoints := outpoints_eq (heq _ (by simp [hashed]) _ (by simp [hashed]) hshared.1)
  have hsequences := sequences_eq (heq _ (by simp [hashed]) _ (by simp [hashed]) hshared.2.1)
  have houtputs := outputs_eq hlen hlen' (heq _ (by simp [hashed]) _ (by simp [hashed]) hshared.2.2)
  rw [covered, covered, Covered.mk.injEq]
  exact ⟨hversion, houtpoints, hsequences, houtputs, hlock, houtpoint, hsequence, hcode, hamount⟩

end Transfer

namespace Transaction

variable {tx tx' : Transaction} {t t' : Transfer} {i i' : Nat} {input input' : Input}

theorem sighash_eq_ok (hb : tx.body = .transfer t) (hi : t.inputs[i]? = some input) (code : Bytes)
    (amount : UInt64) : tx.sighash code i amount =
      .ok (hash256 (t.sighashBytes t.sharedDigests tx.version input code amount)) := by
  rw [sighash_eq hb]
  simp only [Hasher.digest, Transfer.hasher, hi]

/-- **What unlocks the inputs is not covered**: with other unlocking scripts and other witnesses every
request gives the same. -/
theorem sighash_eq_of_unlocking (hb : tx.body = .transfer t) (hb' : tx'.body = .transfer t')
    (hversion : tx.version = tx'.version)
    (houtpoints : t.inputs.map (·.outpoint) = t'.inputs.map (·.outpoint))
    (hsequences : t.inputs.map (·.sequence) = t'.inputs.map (·.sequence))
    (houtputs : t.outputs = t'.outputs) (hlock : t.lockTime = t'.lockTime) :
    tx.sighash = tx'.sighash := by
  funext code i amount
  have hlength : t.inputs.length = t'.inputs.length := by
    simpa using congrArg List.length houtpoints
  by_cases hi : i < t.inputs.length
  · have hi' : i < t'.inputs.length := hlength ▸ hi
    have houtpoint : t.inputs[i].outpoint = t'.inputs[i].outpoint := by
      simpa [hi, hi'] using congrArg (·[i]?) houtpoints
    have hsequence : t.inputs[i].sequence = t'.inputs[i].sequence := by
      simpa [hi, hi'] using congrArg (·[i]?) hsequences
    rw [sighash_eq_ok hb (List.getElem?_eq_getElem hi), sighash_eq_ok hb'
      (List.getElem?_eq_getElem hi')]
    refine congrArg (fun bytes => Except.ok (hash256 bytes)) (Transfer.sighashBytes_eq_of_covered_eq ?_)
    rw [Transfer.covered, Transfer.covered, Transfer.Covered.mk.injEq]
    exact ⟨hversion, houtpoints, hsequences, houtputs, hlock, houtpoint, hsequence, rfl, rfl⟩
  · have hi' : ¬i < t'.inputs.length := hlength ▸ hi
    rw [sighash_eq hb, sighash_eq hb']
    simp only [Hasher.digest, Transfer.hasher, List.getElem?_eq_none (Nat.not_lt.1 hi),
      List.getElem?_eq_none (Nat.not_lt.1 hi'), hlength]

/-- **A digest to be signed commits to exactly what it covers.** Two requests for inputs that are
there give digests; these are equal if the requests cover the same, and only then, unless two of the
byte strings that are hashed for them collide. Lengths of scripts are numbers of 64 bits. -/
theorem sighash_commits (hb : tx.body = .transfer t) (hb' : tx'.body = .transfer t')
    (hlen : ∀ output ∈ t.outputs, output.script.length < UInt64.size)
    (hlen' : ∀ output ∈ t'.outputs, output.script.length < UInt64.size)
    (hi : t.inputs[i]? = some input) (hi' : t'.inputs[i']? = some input') (code code' : Bytes)
    (amount amount' : UInt64) :
    ∃ d d', tx.sighash code i amount = .ok d ∧ tx'.sighash code' i' amount' = .ok d' ∧
      (t.covered tx.version input code amount = t'.covered tx'.version input' code' amount' →
        d = d') ∧
      (d = d' →
        t.covered tx.version input code amount = t'.covered tx'.version input' code' amount' ∨
          Collide (t.hashed tx.version input code amount ++
            t'.hashed tx'.version input' code' amount')) :=
  ⟨_, _, sighash_eq_ok hb hi code amount, sighash_eq_ok hb' hi' code' amount',
    fun h => congrArg hash256 (Transfer.sighashBytes_eq_of_covered_eq h),
    Transfer.covered_eq_or_collide hlen hlen'⟩

end Transaction

end

/-! ### A payment -/

/-- `spend` with something else in place of its signature. -/
def Payment.respend : Transaction :=
  .ofBody (.transfer
    { transfer with inputs := [⟨⟨mintingId, 0⟩, [0x00], finalSequence⟩], witnesses := [] })

open Payment in
/-- The digest to be signed for `spend` does not depend on what unlocks it. -/
theorem Transaction.sighash_commits_payment :
    ∃ d, spend.sighash [] 0 50 = .ok d ∧ respend.sighash [] 0 50 = .ok d := by
  have hlen : ∀ output ∈ transfer.outputs, output.script.length < UInt64.size := by
    decide +kernel
  have hb : spend.body = .transfer transfer := rfl
  have hb' : respend.body = .transfer { transfer with
    inputs := [⟨⟨mintingId, 0⟩, [0x00], finalSequence⟩], witnesses := [] } := rfl
  have hi : transfer.inputs[0]? = some ⟨⟨mintingId, 0⟩, [], finalSequence⟩ := rfl
  have hi' : [(⟨⟨mintingId, 0⟩, [0x00], finalSequence⟩ : Input)][0]? =
    some ⟨⟨mintingId, 0⟩, [0x00], finalSequence⟩ := rfl
  obtain ⟨d, d', hd, hd', hsame, -⟩ :=
    Transaction.sighash_commits hb hb' hlen hlen hi hi' [] [] 50 50
  have he : d = d' := hsame rfl
  exact ⟨d, hd, he ▸ hd'⟩

end UtxoLedger
