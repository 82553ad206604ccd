import UtxoLedger.Proofs.Offers

/-!
What is assembled can be sent. A block under assembly limits the bytes of its transactions and the format
of blocks limits their number. Only two transactions take less than ten bytes, and each is accepted once,
so that the limit on the bytes keeps their number within the format.
-/

namespace UtxoLedger

/-! ### How many fit -/

/-- Different elements, of which all but `few` measure at least `least`, are not many. -/
theorem length_mul_le {α : Type} [DecidableEq α] {f : α → Nat} {least : Nat} {xs few : List α}
    (hnodup : xs.Nodup) (hleast : ∀ x ∈ xs, x ∉ few → least ≤ f x) :
    xs.length * least ≤ sumOf f xs + few.length * least := by
  induction xs generalizing few with
  | nil => simp
  | cons x xs ih =>
    obtain ⟨hx, hxs⟩ := List.nodup_cons.1 hnodup
    rw [List.length_cons, Nat.succ_mul, sumOf_cons]
    by_cases hfew : x ∈ few
    · -- it does not come again, and leaves one element less that may measure little
      have hrest : xs.length * least ≤ sumOf f xs + (few.erase x).length * least := by
        refine ih hxs fun y hy hyfew => hleast y (List.mem_cons_of_mem x hy) fun hmem => hyfew ?_
        have hne : y ≠ x := fun heq => hx (heq ▸ hy)
        exact (List.mem_erase_of_ne hne).2 hmem
      rw [List.length_erase_of_mem hfew, Nat.sub_one_mul] at hrest
      have hone : least ≤ few.length * least :=
        Nat.le_mul_of_pos_left _ (List.length_pos_of_mem hfew)
      omega
    · have hsize := hleast x List.mem_cons_self hfew
      have hrest := ih hxs fun y hy => hleast y (List.mem_cons_of_mem x hy)
      omega

theorem Codec.listSize_pos {α : Type} [Codec α] (xs : List α) : 0 < listSize xs :=
  Nat.add_pos_left (Wire.Varint.size_pos _) _

theorem Output.le_size (output : Output) : 5 ≤ Codec.size output := by
  have := Wire.Varint.size_pos output.script.length
  simp only [Codec.size]
  omega

namespace Transaction

/-- The transactions without anything in them but their kind. -/
def bare : List Transaction :=
  [.ofBody .escrowOpen, .minting []]

/-- All others take ten bytes. -/
theorem Fits.le_size {tx : Transaction} (h : tx.Fits) (hbare : tx ∉ bare) : 10 ≤ Codec.size tx := by
  obtain ⟨version, flags, body⟩ := tx
  obtain rfl : version = currentVersion := h.version
  obtain rfl : flags = 0 := h.flags
  suffices hbody : 6 ≤ body.size from Nat.add_le_add_left hbody 4
  cases body with
  | transfer t =>
    have hinputs := Codec.listSize_pos t.inputs
    have houtputs := Codec.listSize_pos t.outputs
    rw [Body.size, Transfer.size]
    omega
  | genesis outputs =>
    cases outputs with
    | nil => exact absurd (List.mem_cons_of_mem _ List.mem_cons_self) hbare
    | cons output outputs =>
      have hcount := Wire.Varint.size_pos (output :: outputs).length
      have houtput := output.le_size
      rw [Body.size, Codec.listSize, sumOf_cons]
      omega
  | escrowOpen => exact absurd List.mem_cons_self hbare

end Transaction

/-! ### On the wire -/

namespace Block

/-- The block with `signature` in its header. -/
def withSignature (block : Block) (signature : BlockSignature) : Block :=
  { block with header := { block.header with signature := signature } }

/-- **The block can be sent.** It can be written, each count and each length in its place, and is read
back from what has been written. -/
structure Sendable (block : Block) : Prop where
  count : block.transactions.length ≤ maxTransactions
  lengths : ∀ tx ∈ block.transactions, Codec.size tx < UInt32.size
  received : ∃ bytes, Codec.marshal block = .ok bytes ∧ Codec.unmarshal bytes = .ok block

theorem Fits.sendable {block : Block} (h : block.Fits) : block.Sendable where
  count := h.count
  lengths tx htx := (h.transactions tx htx).size_lt
  received := ⟨_, Format.marshal_eq_ok_iff.2 ⟨h, rfl⟩, Format.unmarshal_eq_ok_iff.2 ⟨h, rfl⟩⟩

end Block

/-! ### What has been assembled -/

section Assembled

variable [CryptoSuite]

namespace Pending.Consistent

variable {p : Pending}

theorem fits (h : p.Consistent) : ∀ tx ∈ p.accepted, tx.Fits := by
  intro tx htx
  have hmem : tx.txid ∈ p.acceptedIds.map .ok := h.ids ▸ List.mem_map_of_mem htx
  obtain ⟨id, -, hid⟩ := List.mem_map.1 hmem
  exact (Transaction.txid_eq_ok_iff.1 hid.symm).1

theorem nodup_accepted (h : p.Consistent) : p.accepted.Nodup := by
  have hnodup : (p.acceptedIds.map (Except.ok (ε := Error))).Nodup :=
    h.nodup_ids.map fun _ _ => Except.ok.inj
  rw [← h.ids] at hnodup
  exact hnodup.of_map _

/-- The limit on the bytes is one on the number. -/
theorem count_le (h : p.Consistent) : p.accepted.length * 10 ≤ p.limit + 20 := by
  have hcount := length_mul_le h.nodup_accepted fun tx htx => (h.fits tx htx).le_size
  rw [← h.size] at hcount
  exact Nat.le_trans hcount (Nat.add_le_add_right h.size_le _)

end Pending.Consistent

open Pending.InPlace (afterOffers)

/-- **Whatever is assembled can be sent**, under any signature. -/
theorem Pending.exists_sendable (offers : List Transaction)
    (hne : (afterOffers Block.sizeLimit offers).accepted ≠ []) (previous : BlockId)
    (timestamp : UInt32) (random : UInt64) (signature : BlockSignature) :
    ∃ block, Block.make previous (afterOffers Block.sizeLimit offers).accepted timestamp random =
        .ok block ∧
      block.transactions = (afterOffers Block.sizeLimit offers).accepted ∧
      (block.withSignature signature).Sendable := by
  have htook := Took.afterOffers Block.sizeLimit offers
  have hcount := htook.consistent.count_le
  rw [htook.limit] at hcount
  obtain ⟨block, hmade, htxs⟩ :=
    Block.exists_make_eq_ok hne htook.consistent.fits previous timestamp random
  have hfits : (block.withSignature signature).Fits := by
    refine ⟨?_, ?_, ?_⟩ <;> simp only [Block.withSignature, htxs]
    · exact hne
    · simp only [Block.maxTransactions, Block.sizeLimit] at *
      omega
    · exact htook.consistent.fits
  exact ⟨block, hmade, htxs, hfits.sendable⟩

end Assembled

namespace Twin

open Crypto Pending.InPlace

/-- Three small transactions are accepted, and the block over them can be sent. -/
theorem exists_sendable_transactions :
    (afterOffers Block.sizeLimit transactions).accepted ≠ [] ∧
    ∃ block, Block.make .zero (afterOffers Block.sizeLimit transactions).accepted 0 0 = .ok block ∧
      block.transactions = (afterOffers Block.sizeLimit transactions).accepted ∧
      (block.withSignature .zero).Sendable := by
  have hne : (afterOffers Block.sizeLimit transactions).accepted ≠ [] := by
    obtain ⟨id, after, hadd⟩ := Pending.exists_add_withLimit Block.sizeLimit
      (fits (.ofBody .escrowOpen) List.mem_cons_self) (by decide) (by decide +kernel)
    rw [(Pending.Took.afterOffers _ _).accepted, transactions, Pending.taken_cons_of_add hadd]
    exact List.cons_ne_nil _ _
  exact ⟨hne, Pending.exists_sendable transactions hne .zero 0 0 .zero⟩

end Twin

end UtxoLedger
