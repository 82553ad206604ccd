import UtxoLedger.Proofs.Merkle

/-!
Changes to the transactions of a block that keep their number. Two levels of one length that have the
same level above them are equal, or two different pairs of nodes have one digest; the repeated last node
of an odd level does not matter, since it is repeated in both. Level by level, the root tells lists of
one length apart.
-/

namespace UtxoLedger

section

variable [CryptoSuite]

namespace Merkle

/-- Two different pairs of nodes, one hashed for each of two trees, have the same digest. -/
def Clash (nodes nodes' : List Digest) : Prop :=
  ∃ p q : Digest × Digest, p ≠ q ∧ joined p ∈ hashed nodes ∧ joined q ∈ hashed nodes' ∧
    parent p.1 p.2 = parent q.1 q.2

/-- A clash is a collision between two of the strings that are hashed for the trees. -/
theorem Clash.collide {nodes nodes' : List Digest} (h : Clash nodes nodes') :
    Collide (hashed nodes ++ hashed nodes') := by
  obtain ⟨p, q, hne, hp, hq, heq⟩ := h
  exact ⟨joined p, List.mem_append_left _ hp, joined q, List.mem_append_right _ hq,
    fun hjoined => hne (joined_injective hjoined), heq⟩

section

variable {left right left' right' : Digest} {rest rest' : List Digest}

theorem Clash.of_level (h : Clash (level (left :: right :: rest)) (level (left' :: right' :: rest'))) :
    Clash (left :: right :: rest) (left' :: right' :: rest') := by
  obtain ⟨p, q, hne, hp, hq, heq⟩ := h
  exact ⟨p, q, hne, mem_hashed_of_level hp, mem_hashed_of_level hq, heq⟩

/-- One level down: what is above two levels of one length tells them apart. -/
theorem eq_or_clash_of_level_eq (hlength : rest.length = rest'.length)
    (h : level (left :: right :: rest) = level (left' :: right' :: rest')) :
    left :: right :: rest = left' :: right' :: rest' ∨
      Clash (left :: right :: rest) (left' :: right' :: rest') := by
  refine or_iff_not_imp_right.2 fun hclash => ?_
  have hinj : ∀ p ∈ pairs (left :: right :: rest), ∀ q ∈ pairs (left' :: right' :: rest'),
      hash256 (joined p) = hash256 (joined q) → p = q := by
    intro p hp q hq heq
    by_contra hne
    exact hclash ⟨p, q, hne, joined_mem_hashed hp, joined_mem_hashed hq, heq⟩
  rw [level_eq_map, level_eq_map] at h
  have hpairs : Agree (pairs (left :: right :: rest)) (pairs (left' :: right' :: rest')) :=
    .of_map hinj ⟨.inl (h ▸ List.prefix_rfl), fun d => by rw [h]⟩
  exact (agree_of_pairs hpairs).eq_of_length_eq (by simp [hlength])

end

/-- **Trees over as many leaves with one root** have the same leaves, or two pairs of nodes clash. -/
theorem eq_or_clash_of_rootOf_eq {x y : Digest} {xs ys : List Digest} (hlength : xs.length = ys.length)
    (h : rootOf x xs = rootOf y ys) : x :: xs = y :: ys ∨ Clash (x :: xs) (y :: ys) := by
  induction x, xs using rootOf.induct generalizing y ys with
  | case1 x =>
    obtain rfl := List.length_eq_zero_iff.1 hlength.symm
    rw [rootOf_nil, rootOf_nil] at h
    exact .inl (by rw [h])
  | case2 x x' xs ih =>
    obtain ⟨y', ys, rfl⟩ := List.exists_cons_of_length_eq_add_one hlength.symm
    have hrest : xs.length = ys.length := Nat.succ.inj hlength
    have hlevels : (level xs).length = (level ys).length := by
      rw [length_level, length_level, hrest]
    rw [rootOf_cons, rootOf_cons] at h
    rcases ih hlevels h with hlevel | hclash
    · exact eq_or_clash_of_level_eq hrest hlevel
    · exact .inr hclash.of_level

theorem eq_or_clash_of_root_eq {ids ids' : List TxId} (hlength : ids.length = ids'.length)
    (h : root ids = root ids') :
    ids = ids' ∨ Clash (ids.map TxId.bytes) (ids'.map TxId.bytes) := by
  cases ids with
  | nil => exact .inl (List.length_eq_zero_iff.1 hlength.symm).symm
  | cons id ids =>
    obtain ⟨id', ids', rfl⟩ := List.exists_cons_of_length_eq_add_one hlength.symm
    have hroots : rootOf id.bytes (ids.map TxId.bytes) = rootOf id'.bytes (ids'.map TxId.bytes) :=
      Except.ok.inj h
    have hbytes : Function.Injective TxId.bytes := fun _ _ heq => congrArg TxId.mk heq
    refine (eq_or_clash_of_rootOf_eq ?_ hroots).imp_left fun heq => hbytes.list_map heq
    rw [List.length_map, List.length_map, Nat.succ.inj hlength]

end Merkle

namespace Block

/-- The block with other transactions under the same header. -/
def withTransactions (b : Block) (txs : List Transaction) : Block :=
  { b with transactions := txs }

theorem checkMerkleRoot_withTransactions {b : Block} {txs : List Transaction}
    (h : b.checkMerkleRoot = .ok ()) (hlength : txs.length = b.transactions.length)
    (hids : (b.withTransactions txs).txids ≠ b.txids) :
    (∃ e, (b.withTransactions txs).checkMerkleRoot = .error e) ∨
      Merkle.Clash b.leaves (b.withTransactions txs).leaves := by
  refine or_iff_not_imp_right.2 fun hclash => exists_error_of_ne_ok fun _ h' => hids ?_
  obtain ⟨hfits, first, rest, hleaves, hroot⟩ := checkMerkleRoot_eq_ok_iff.1 h
  obtain ⟨hfits', first', rest', hleaves', hroot'⟩ := checkMerkleRoot_eq_ok_iff.1 h'
  have hsame : Merkle.rootOf first rest = Merkle.rootOf first' rest' := hroot.trans hroot'.symm
  have hrest : rest.length = rest'.length := by
    have hcount : b.leaves.length = (b.withTransactions txs).leaves.length := by
      rw [leaves, leaves, List.length_map, List.length_map]
      exact hlength.symm
    rw [hleaves, hleaves'] at hcount
    exact Nat.succ.inj hcount
  rw [hleaves, hleaves'] at hclash
  have hequal : b.leaves = (b.withTransactions txs).leaves := by
    rw [hleaves, hleaves']
    exact (Merkle.eq_or_clash_of_rootOf_eq hrest hsame).resolve_right hclash
  rw [txids_eq_ok_iff.2 ⟨hfits, rfl⟩, txids_eq_ok_iff.2 ⟨hfits', rfl⟩, hequal]

end Block

/-- **Tampering in place shows in the Merkle root**: lists of as many identifiers have one root only if
they are equal, and a header that commits to the transactions of a block does not commit to as many
others with other identifiers; unless two different pairs of nodes that are hashed for the two roots
have the same digest. -/
theorem tampering_visible :
    (∀ ids ids' : List TxId, ids.length = ids'.length →
      (Merkle.root ids = Merkle.root ids' ↔ ids = ids') ∨
        Merkle.Clash (ids.map TxId.bytes) (ids'.map TxId.bytes)) ∧
    ∀ (b : Block) (txs : List Transaction), b.checkMerkleRoot = .ok () →
      txs.length = b.transactions.length → (b.withTransactions txs).txids ≠ b.txids →
      (∃ e, (b.withTransactions txs).checkMerkleRoot = .error e) ∨
        Merkle.Clash b.leaves (b.withTransactions txs).leaves := by
  refine ⟨fun ids ids' hlength => ?_, fun b txs => Block.checkMerkleRoot_withTransactions⟩
  refine or_iff_not_imp_right.2 fun hclash => ⟨fun hroot => ?_, congrArg Merkle.root⟩
  exact (Merkle.eq_or_clash_of_root_eq hlength hroot).resolve_right hclash

end

/-! ### A block in another order -/

namespace Swap

open Crypto

def first : Transaction :=
  .ofBody .escrowOpen

def second : Transaction :=
  .minting []

/-- A block with two small transactions, whose header commits to them. -/
def block : Block where
  header := ⟨1, .zero, Merkle.rootOf (hash256 first.wire) [hash256 second.wire], 0, .zero, 0⟩
  transactions := [first, second]

/-- The block with its transactions the other way round. -/
def swapped : Block :=
  block.withTransactions [second, first]

/-- The identifiers of the transactions. -/
def ids : List TxId :=
  block.leaves.map TxId.mk

theorem ids_ne_reverse : ids ≠ ids.reverse := by
  decide +kernel

theorem fits : ∀ tx ∈ block.transactions, tx.Fits := by
  have hempty : Format.FitsList maxOutputs ([] : List Output) := ⟨by decide, by simp⟩
  simp only [block, List.forall_mem_cons, List.not_mem_nil, false_imp_iff, implies_true, and_true]
  exact ⟨⟨rfl, rfl, trivial⟩, ⟨rfl, rfl, hempty⟩⟩

theorem checkMerkleRoot : block.checkMerkleRoot = .ok () :=
  Block.checkMerkleRoot_eq_ok_iff.2 ⟨fits, _, _, rfl, rfl⟩

theorem txids_ne : swapped.txids ≠ block.txids := by
  have hfits : ∀ tx ∈ swapped.transactions, tx.Fits := fun tx htx => fits tx (List.mem_reverse.1 htx)
  have hswapped : swapped.txids = .ok ids.reverse := Block.txids_eq_ok_iff.2 ⟨hfits, rfl⟩
  have hblock : block.txids = .ok ids := Block.txids_eq_ok_iff.2 ⟨fits, rfl⟩
  rw [hswapped, hblock]
  exact fun heq => ids_ne_reverse (Except.ok.inj heq).symm

theorem not_clash : ¬Merkle.Clash block.leaves swapped.leaves := by
  have hnodup : ((Merkle.hashed block.leaves ++ Merkle.hashed swapped.leaves).map hash256).Nodup := by
    decide +kernel
  exact fun hclash => not_collide_of_nodup hnodup hclash.collide

/-- The other way round, the transactions do not have the root that stands in the header. -/
theorem swapped_visible :
    ids.length = ids.reverse.length ∧ Merkle.root ids ≠ Merkle.root ids.reverse ∧
    block.checkMerkleRoot = .ok () ∧ swapped.transactions.length = block.transactions.length ∧
    swapped.txids ≠ block.txids ∧ ∃ e, swapped.checkMerkleRoot = .error e := by
  have hlength : ids.length = ids.reverse.length := List.length_reverse.symm
  refine ⟨hlength, fun hroot => ?_, checkMerkleRoot, rfl, txids_ne, ?_⟩
  · exact ids_ne_reverse (((tampering_visible.1 ids ids.reverse hlength).resolve_right not_clash).1 hroot)
  · exact (tampering_visible.2 block [second, first] checkMerkleRoot rfl txids_ne).resolve_right not_clash

end Swap

end UtxoLedger
