import UtxoLedger.Proofs.Authorization

/-!
The language of scripts. A byte string is a script exactly if it can be cut into pieces of one
instruction each. There is one way to do so, although the bytes of a push may look like operations,
because the first byte of a piece tells where it ends. What is read is written back byte by byte, and
what is written of well-formed instructions is read back.
-/

namespace UtxoLedger

/-! ### Instructions -/

theorem Opcode.ofCode?_eq_some_iff {code : UInt8} {op : Opcode} :
    ofCode? code = some op ↔ code = op.code := by
  constructor
  · intro h
    have hto : code.toNat = op.code.toNat := by
      unfold ofCode? at h
      split at h <;> cases h <;> assumption
    exact UInt8.toNat_inj.1 hto
  · rintro rfl
    exact ofCode?_code op

namespace Instruction

/-- A push carries twenty bytes, and no other operation carries any. -/
def WellFormed (instruction : Instruction) : Prop :=
  instruction.immediate.map List.length = if instruction.op = .data20 then some 20 else none

/-- The instruction that is read from the code of an operation and the bytes behind it. -/
def ofOwn (op : Opcode) (own : Bytes) : Instruction :=
  ⟨op, if op.length = 1 then none else some own⟩

theorem wellFormed_iff {instruction : Instruction} : instruction.WellFormed ↔
    ∃ op own, own.length + 1 = op.length ∧ instruction = ofOwn op own := by
  constructor
  · obtain ⟨op, immediate⟩ := instruction
    intro h
    refine ⟨op, immediate.getD [], ?_⟩
    cases op <;> cases immediate <;> simp_all [WellFormed, Opcode.length, ofOwn]
  · rintro ⟨op, own, hown, rfl⟩
    cases op <;> simp_all [WellFormed, Opcode.length, ofOwn]

theorem bytes_ofOwn {op : Opcode} {own : Bytes} (h : own.length + 1 = op.length) :
    (ofOwn op own).bytes = op.code :: own := by
  by_cases hop : op.length = 1
  · obtain rfl : own = [] := List.length_eq_zero_iff.1 (by omega)
    simp [ofOwn, hop, bytes]
  · simp [ofOwn, hop, bytes]

end Instruction

namespace Script

open Instruction

variable {position : Nat} {done : List Instruction} {bytes : Bytes} {script : Script}

/-- Each of the instructions is well-formed. -/
def WellFormed (script : Script) : Prop :=
  ∀ instruction ∈ script.instructions, instruction.WellFormed

/-! ### Reading and writing -/

/-- What is written of well-formed instructions is read back, behind any that have been read. -/
theorem parseFrom_bytes {instructions : List Instruction} (h : ∀ i ∈ instructions, i.WellFormed) :
    parseFrom position done (instructions.flatMap Instruction.bytes) =
      .ok ⟨done.reverse ++ instructions⟩ := by
  induction instructions generalizing position done with
  | nil => rw [List.flatMap_nil, parseFrom, List.append_nil]
  | cons instruction instructions ih =>
    obtain ⟨hfirst, hrest⟩ := List.forall_mem_cons.1 h
    obtain ⟨op, own, hown, rfl⟩ := wellFormed_iff.1 hfirst
    rw [List.flatMap_cons, bytes_ofOwn hown, parseFrom_bytes_append hown, ih hrest,
      List.reverse_cons, List.append_assoc, List.singleton_append]
    rfl

/-- What is read are well-formed instructions behind those read before, and they are written as the
bytes that they were read from. -/
theorem exists_of_parseFrom (h : parseFrom position done bytes = .ok script) :
    ∃ instructions : List Instruction, script = ⟨done.reverse ++ instructions⟩ ∧
      (∀ i ∈ instructions, i.WellFormed) ∧ instructions.flatMap Instruction.bytes = bytes := by
  fun_induction parseFrom position done bytes with
  | case1 position done =>
    cases h
    exact ⟨[], by simp⟩
  | case2 => cases h
  | case3 => cases h
  | case4 position done code rest op hop own hlength instruction ih =>
    obtain ⟨instructions, rfl, hwell, hbytes⟩ := ih h
    obtain rfl := Opcode.ofCode?_eq_some_iff.1 hop
    have hown : own.length + 1 = op.length := by
      have : 0 < op.length := by cases op <;> decide
      simp only [own, List.length_take] at hlength ⊢
      omega
    refine ⟨instruction :: instructions, by simp, ?_, ?_⟩
    · exact List.forall_mem_cons.2 ⟨wellFormed_iff.2 ⟨op, own, hown, rfl⟩, hwell⟩
    · have hfirst : instruction.bytes = op.code :: own := bytes_ofOwn hown
      rw [List.flatMap_cons, hfirst, hbytes, List.cons_append, List.take_append_drop]

/-- **A script is read from its own bytes, and from no others.** -/
theorem parse_eq_ok_iff : parse bytes = .ok script ↔ script.WellFormed ∧ script.bytes = bytes := by
  constructor
  · intro h
    obtain ⟨instructions, rfl, hwell, hbytes⟩ := exists_of_parseFrom h
    exact ⟨hwell, hbytes⟩
  · rintro ⟨hwell, rfl⟩
    exact parseFrom_bytes hwell

/-! ### Pieces -/

/-- The codes of the operations that stand alone. -/
def plainCodes : List UInt8 :=
  [0x00, 0x69, 0x76, 0x87, 0x88, 0xa9, 0xac]

/-- The bytes of one instruction: the code of an operation that stands alone, or the code of a push and
any twenty bytes. -/
inductive Piece : Bytes → Prop
  | plain {code : UInt8} : code ∈ plainCodes → Piece [code]
  | push {data : Bytes} : data.length = 20 → Piece (0x14 :: data)

/-- A byte string cut into pieces of one instruction each. -/
structure Cut (bytes : Bytes) (pieces : List Bytes) : Prop where
  piece : ∀ piece ∈ pieces, Piece piece
  flatten_eq : pieces.flatten = bytes

theorem piece_iff {piece : Bytes} :
    Piece piece ↔ ∃ i : Instruction, i.WellFormed ∧ i.bytes = piece := by
  constructor
  · rintro (hcode | hdata)
    · have hop : ∀ code ∈ plainCodes, ∃ op, (plain op).WellFormed ∧ (plain op).bytes = [code] := by
        simp only [plainCodes, List.forall_mem_cons]
        exact ⟨⟨.zero, rfl, rfl⟩, ⟨.verify, rfl, rfl⟩, ⟨.dup, rfl, rfl⟩, ⟨.equal, rfl, rfl⟩,
          ⟨.equalVerify, rfl, rfl⟩, ⟨.hash160, rfl, rfl⟩, ⟨.checkSig, rfl, rfl⟩, by simp⟩
      obtain ⟨op, hop⟩ := hop _ hcode
      exact ⟨plain op, hop⟩
    · exact ⟨⟨.data20, some _⟩, by simp [Instruction.WellFormed, hdata], rfl⟩
  · rintro ⟨i, hi, rfl⟩
    obtain ⟨op, own, hown, rfl⟩ := wellFormed_iff.1 hi
    rw [bytes_ofOwn hown]
    cases op with
    | data20 => exact .push (Nat.succ.inj hown)
    | _ =>
      obtain rfl := List.length_eq_zero_iff.1 (Nat.succ.inj hown)
      exact .plain (by decide)

/-- The cuts of a byte string are those that its reading makes. -/
theorem cut_iff {pieces : List Bytes} : Cut bytes pieces ↔
    ∃ script, parse bytes = .ok script ∧ script.instructions.map Instruction.bytes = pieces := by
  constructor
  · rintro ⟨hpieces, rfl⟩
    obtain ⟨instructions, hwell, rfl⟩ : ∃ instructions : List Instruction,
        (∀ i ∈ instructions, i.WellFormed) ∧ instructions.map Instruction.bytes = pieces := by
      induction pieces with
      | nil => exact ⟨[], by simp⟩
      | cons piece pieces ih =>
        obtain ⟨hfirst, hrest⟩ := List.forall_mem_cons.1 hpieces
        obtain ⟨i, hi, rfl⟩ := piece_iff.1 hfirst
        obtain ⟨instructions, hwell, rfl⟩ := ih hrest
        exact ⟨i :: instructions, List.forall_mem_cons.2 ⟨hi, hwell⟩, rfl⟩
    exact ⟨⟨instructions⟩, parse_eq_ok_iff.2 ⟨hwell, List.flatMap_def⟩, rfl⟩
  · rintro ⟨script, hparse, rfl⟩
    obtain ⟨hwell, rfl⟩ := parse_eq_ok_iff.1 hparse
    refine ⟨?_, List.flatMap_def.symm⟩
    rw [List.forall_mem_map]
    exact fun i hi => piece_iff.2 ⟨i, hwell i hi, rfl⟩

/-- What reading a byte string as a script comes to. -/
structure Reading (bytes : Bytes) : Prop where
  /-- It succeeds exactly if the bytes can be cut into pieces. -/
  accepted : (∃ script, parse bytes = .ok script) ↔ ∃ pieces, Cut bytes pieces
  /-- There is one way to cut them. -/
  unique : ∀ pieces pieces', Cut bytes pieces → Cut bytes pieces' → pieces = pieces'
  /-- The script has one instruction for each piece, and its bytes are those that were read. -/
  kept : ∀ script, parse bytes = .ok script →
    Cut bytes (script.instructions.map Instruction.bytes) ∧ script.bytes = bytes

/-- **Scripts are read exactly.** Of every byte string it is told whether it is a sequence of pieces,
which are unique, and none of it is lost; and a script is read back from its bytes exactly if its pushes
carry twenty bytes and nothing else carries any. -/
theorem parse_reads_exactly : (∀ bytes, Reading bytes) ∧
    ∀ script : Script, parse script.bytes = .ok script ↔ script.WellFormed := by
  refine ⟨fun bytes => ⟨?_, ?_, ?_⟩, fun script => ?_⟩
  · simp only [cut_iff]
    exact ⟨fun ⟨script, h⟩ => ⟨_, script, h, rfl⟩, fun ⟨_, script, h, _⟩ => ⟨script, h⟩⟩
  · intro pieces pieces' hcut hcut'
    obtain ⟨script, hparse, rfl⟩ := cut_iff.1 hcut
    obtain ⟨script', hparse', rfl⟩ := cut_iff.1 hcut'
    obtain rfl := Except.ok.inj (hparse.symm.trans hparse')
    rfl
  · exact fun script h => ⟨cut_iff.2 ⟨script, h, rfl⟩, (parse_eq_ok_iff.1 h).2⟩
  · exact parse_eq_ok_iff.trans (and_iff_left rfl)

/-- A push that ends one byte early is no piece, whatever its bytes look like. -/
example : parse (0x14 :: List.replicate 19 0x00) = .error (.truncated .data20 0 21 20) := by
  decide +kernel

end Script

end UtxoLedger
