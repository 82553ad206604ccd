import UtxoLedger.Block.Seal
import UtxoLedger.Proofs.Commitment
import UtxoLedger.Proofs.Encoding

/-!
What the identifier of a block commits to. Equal identifiers mean equal Merkle roots, and equal roots
mean levels that agree, down to the transactions: since a level of odd length repeats its last node,
one list may go on where the other ends, but only with transactions that both have. This holds unless
two of the byte strings that are hashed collide, or a transaction has the bytes of a pair of nodes.
-/

namespace UtxoLedger

/-! ### Lists that differ in repeats -/

/-- One list begins with the other, and both have the same elements: what one of them has behind the
other is a repeat. -/
structure Agree {α : Type} (xs ys : List α) : Prop where
  begins : xs <+: ys ∨ ys <+: xs
  mem_iff : ∀ x, x ∈ xs ↔ x ∈ ys

namespace Agree

variable {α β : Type} {xs ys : List α}

theorem eq_of_length_eq (h : Agree xs ys) (hl : xs.length = ys.length) : xs = ys := by
  rcases h.begins with hp | hp
  · exact hp.eq_of_length hl
  · exact (hp.eq_of_length hl.symm).symm

theorem eq_of_isPrefix_of_nodup (hp : xs <+: ys) (hmem : ∀ y ∈ ys, y ∈ xs) (hn : ys.Nodup) :
    xs = ys := by
  obtain ⟨more, rfl⟩ := hp
  have hnone : more = [] := by
    refine List.eq_nil_iff_forall_not_mem.2 fun y hy => ?_
    exact List.disjoint_of_nodup_append hn (hmem y (List.mem_append_right _ hy)) hy
  rw [hnone, List.append_nil]

theorem eq_of_nodup (h : Agree xs ys) (hx : xs.Nodup) (hy : ys.Nodup) : xs = ys := by
  rcases h.begins with hp | hp
  · exact eq_of_isPrefix_of_nodup hp (fun y => (h.mem_iff y).2) hy
  · exact (eq_of_isPrefix_of_nodup hp (fun x => (h.mem_iff x).1) hx).symm

theorem isPrefix_of_map {f : α → β} (hf : ∀ x ∈ xs, ∀ y ∈ ys, f x = f y → x = y)
    (h : xs.map f <+: ys.map f) : xs <+: ys := by
  induction xs generalizing ys with
  | nil => exact List.nil_prefix
  | cons x xs ih =>
    cases ys with
    | nil => simp at h
    | cons y ys =>
      rw [List.map_cons, List.map_cons, List.cons_prefix_cons] at h
      rw [List.cons_prefix_cons]
      exact ⟨hf x List.mem_cons_self y List.mem_cons_self h.1, ih (fun x' hx' y' hy' =>
        hf x' (List.mem_cons_of_mem _ hx') y' (List.mem_cons_of_mem _ hy')) h.2⟩

theorem mem_of_map {f : α → β} (hf : ∀ x ∈ xs, ∀ y ∈ ys, f x = f y → x = y)
    (h : ∀ z ∈ xs.map f, z ∈ ys.map f) {x : α} (hx : x ∈ xs) : x ∈ ys := by
  obtain ⟨y, hy, hxy⟩ := List.mem_map.1 (h _ (List.mem_map_of_mem hx))
  exact hf x hx y hy hxy.symm ▸ hy

/-- Lists agree if their images do under a function that tells their elements apart. -/
theorem of_map {f : α → β} (hf : ∀ x ∈ xs, ∀ y ∈ ys, f x = f y → x = y)
    (h : Agree (xs.map f) (ys.map f)) : Agree xs ys := by
  have hf' : ∀ y ∈ ys, ∀ x ∈ xs, f y = f x → y = x :=
    fun y hy x hx hyx => (hf x hx y hy hyx.symm).symm
  refine ⟨h.begins.imp (isPrefix_of_map hf) (isPrefix_of_map hf'), fun x => ⟨fun hx => ?_, fun hx => ?_⟩⟩
  · exact mem_of_map hf (fun z => (h.mem_iff z).1) hx
  · exact mem_of_map hf' (fun z => (h.mem_iff z).2) hx

end Agree

/-! ### Levels -/

theorem not_collide_of_nodup [CryptoSuite] {strings : List Bytes}
    (h : (strings.map hash256).Nodup) : ¬Collide strings := by
  rintro ⟨a, ha, b, hb, hne, heq⟩
  exact hne (List.inj_on_of_nodup_map h ha hb heq)

theorem Collide.mono [CryptoSuite] {strings more : List Bytes} (hsub : strings ⊆ more)
    (h : Collide strings) : Collide more := by
  obtain ⟨a, ha, b, hb, hab⟩ := h
  exact ⟨a, hsub ha, b, hsub hb, hab⟩

namespace Merkle

/-- The neighbours that are hashed together; a last node without a neighbour stands beside itself. -/
def pairs : List Digest → List (Digest × Digest)
  | left :: right :: rest => (left, right) :: pairs rest
  | [last] => [(last, last)]
  | [] => []

/-- The byte string that is hashed for two neighbours. -/
def joined (pair : Digest × Digest) : Bytes :=
  pair.1.toList ++ pair.2.toList

theorem joined_injective {p q : Digest × Digest} (h : joined p = joined q) : p = q := by
  obtain ⟨hleft, hright⟩ := List.append_inj h (by simp)
  exact Prod.ext (FixedBytes.ext hleft) (FixedBytes.ext hright)

/-- The nodes of a level, with the last one twice if it has no neighbour. -/
def spread (nodes : List Digest) : List Digest :=
  (pairs nodes).flatMap fun pair => [pair.1, pair.2]

theorem isPrefix_spread (nodes : List Digest) : nodes <+: spread nodes := by
  induction nodes using pairs.induct with
  | case1 left right rest ih => simpa [spread, pairs] using ih
  | case2 last => simp [spread, pairs]
  | case3 => exact List.nil_prefix

theorem mem_spread_iff {nodes : List Digest} {d : Digest} : d ∈ spread nodes ↔ d ∈ nodes := by
  induction nodes using pairs.induct with
  | case1 left right rest ih =>
    have hspread : spread (left :: right :: rest) = left :: right :: spread rest := rfl
    rw [hspread]
    simp only [List.mem_cons, ih]
  | case2 last => simp [spread, pairs]
  | case3 => simp [spread, pairs]

theorem fst_mem_of_mem_pairs {nodes : List Digest} {p : Digest × Digest} (h : p ∈ pairs nodes) :
    p.1 ∈ nodes :=
  mem_spread_iff.1 (List.mem_flatMap.2 ⟨p, h, List.mem_cons_self⟩)

variable {xs ys : List Digest}

theorem spread_isPrefix (h : pairs xs <+: pairs ys) : spread xs <+: spread ys := by
  obtain ⟨more, hmore⟩ := h
  exact ⟨more.flatMap fun pair => [pair.1, pair.2], by rw [spread, spread, ← hmore, List.flatMap_append]⟩

theorem agree_of_pairs (h : Agree (pairs xs) (pairs ys)) : Agree xs ys := by
  have hmem : ∀ d, d ∈ spread xs ↔ d ∈ spread ys := by
    simp only [spread, List.mem_flatMap, h.mem_iff, implies_true]
  have hbegins : xs <+: ys ∨ ys <+: xs := by
    rcases h.begins with hp | hp
    · exact List.prefix_or_prefix_of_prefix ((isPrefix_spread xs).trans (spread_isPrefix hp))
        (isPrefix_spread ys)
    · exact List.prefix_or_prefix_of_prefix (isPrefix_spread xs)
        ((isPrefix_spread ys).trans (spread_isPrefix hp))
  refine ⟨hbegins, fun d => ?_⟩
  rw [← mem_spread_iff, hmem, mem_spread_iff]

/-- A level of odd length is not told from the same level with its last node once more. -/
theorem pairs_repeat {nodes : List Digest} (h : nodes.length % 2 = 0) (last : Digest) :
    pairs (nodes ++ [last, last]) = pairs (nodes ++ [last]) := by
  induction nodes using pairs.induct with
  | case1 left right rest ih =>
    have hrest : rest.length % 2 = 0 := by
      simp only [List.length_cons] at h
      omega
    simp only [List.cons_append, pairs, ih hrest]
  | case2 last => simp at h
  | case3 => rfl

variable [CryptoSuite]

theorem level_eq_map (nodes : List Digest) :
    level nodes = (pairs nodes).map fun pair => hash256 (joined pair) := by
  induction nodes using pairs.induct with
  | case1 left right rest ih =>
    rw [level, pairs, List.map_cons, ih]
    rfl
  | case2 last => rfl
  | case3 => rfl

/-- The byte strings that are hashed for the levels above a level. -/
def hashed (nodes : List Digest) : List Bytes :=
  match nodes with
  | left :: right :: rest =>
    (pairs (left :: right :: rest)).map joined ++ hashed (parent left right :: level rest)
  | _ => []
termination_by nodes.length
decreasing_by
  simp only [length_level, List.length_cons]
  omega

theorem rootOf_nil (first : Digest) : rootOf first [] = first := by
  rw [rootOf]

theorem rootOf_cons (first second : Digest) (rest : List Digest) :
    rootOf first (second :: rest) = rootOf (parent first second) (level rest) := by
  rw [rootOf]

theorem root_map_mk (first : Digest) (rest : List Digest) :
    root ((first :: rest).map TxId.mk) = .ok (rootOf first rest) := by
  simp [root, Function.comp_def]

theorem level_repeat {nodes : List Digest} (h : nodes.length % 2 = 0) (last : Digest) :
    level (nodes ++ [last, last]) = level (nodes ++ [last]) := by
  rw [level_eq_map, level_eq_map, pairs_repeat h]

theorem rootOf_repeat {more : List Digest} (h : more.length % 2 = 0) (first second last : Digest) :
    rootOf first (second :: (more ++ [last, last])) = rootOf first (second :: (more ++ [last])) := by
  rw [rootOf_cons, rootOf_cons, level_repeat h]

theorem hashed_repeat {more : List Digest} (h : more.length % 2 = 0) (first second last : Digest) :
    hashed (first :: second :: (more ++ [last, last])) =
      hashed (first :: second :: (more ++ [last])) := by
  rw [hashed, hashed, pairs, pairs, pairs_repeat h, level_repeat h]

theorem joined_mem_hashed {left right : Digest} {rest : List Digest} {p : Digest × Digest}
    (h : p ∈ pairs (left :: right :: rest)) : joined p ∈ hashed (left :: right :: rest) := by
  rw [hashed]
  exact List.mem_append_left _ (List.mem_map_of_mem h)

theorem mem_hashed_of_level {left right : Digest} {rest : List Digest} {s : Bytes}
    (h : s ∈ hashed (level (left :: right :: rest))) : s ∈ hashed (left :: right :: rest) := by
  rw [hashed]
  exact List.mem_append_right _ h

/-- Every byte string that is hashed for a tree is a pair of nodes, and the first of them is a leaf or
a digest that the tree made. -/
theorem exists_joined_of_mem_hashed {nodes : List Digest} {s : Bytes} (h : s ∈ hashed nodes) :
    ∃ p, s = joined p ∧ (p.1 ∈ nodes ∨ ∃ below ∈ hashed nodes, p.1 = hash256 below) := by
  induction nodes using hashed.induct with
  | case1 left right rest ih =>
    rw [hashed, List.mem_append] at h
    rcases h with h | h
    · obtain ⟨p, hp, rfl⟩ := List.mem_map.1 h
      exact ⟨p, rfl, .inl (fst_mem_of_mem_pairs hp)⟩
    · obtain ⟨p, rfl, hfirst | ⟨below, hbelow, hfirst⟩⟩ := ih h
      · have hlevel : p.1 ∈ level (left :: right :: rest) := hfirst
        rw [level_eq_map, List.mem_map] at hlevel
        obtain ⟨q, hq, hqp⟩ := hlevel
        exact ⟨p, rfl, .inr ⟨_, joined_mem_hashed hq, hqp.symm⟩⟩
      · exact ⟨p, rfl, .inr ⟨below, mem_hashed_of_level hbelow, hfirst⟩⟩
  | case2 nodes hne =>
    rw [hashed] at h
    · cases h
    · exact hne

/-- The root over more than one leaf is a digest that the tree made. -/
theorem exists_rootOf_eq (first second : Digest) (rest : List Digest) :
    ∃ s ∈ hashed (first :: second :: rest), rootOf first (second :: rest) = hash256 s := by
  induction hn : rest.length using Nat.strong_induction_on generalizing first second rest with
  | _ n ih =>
    rw [rootOf_cons]
    cases hlevel : level rest with
    | nil =>
      exact ⟨_, joined_mem_hashed List.mem_cons_self, rootOf_nil _⟩
    | cons next more =>
      have hshorter : more.length < n := by
        have hl := length_level rest
        rw [hlevel, List.length_cons] at hl
        omega
      obtain ⟨s, hs, hroot⟩ := ih more.length hshorter (parent first second) next more rfl
      rw [← hlevel] at hs
      exact ⟨s, mem_hashed_of_level hs, hroot⟩

/-- A leaf of one tree is a digest that another tree made. -/
def Inner (leaves nodes : List Digest) : Prop :=
  ∃ leaf ∈ leaves, ∃ s ∈ hashed nodes, leaf = hash256 s

/-! ### Equal roots -/

section

variable {left right left' right' : Digest} {rest rest' : List Digest}

theorem agree_of_level
    (hc : ¬Collide (hashed (left :: right :: rest) ++ hashed (left' :: right' :: rest')))
    (h : Agree (level (left :: right :: rest)) (level (left' :: right' :: rest'))) :
    Agree (left :: right :: rest) (left' :: right' :: rest') := by
  rw [level_eq_map, level_eq_map] at h
  refine agree_of_pairs (h.of_map fun p hp q hq heq => joined_injective ?_)
  exact eq_of_not_collide hc (List.mem_append_left _ (joined_mem_hashed hp))
    (List.mem_append_right _ (joined_mem_hashed hq)) heq

theorem Inner.of_level
    (hc : ¬Collide (hashed (left :: right :: rest) ++ hashed (left' :: right' :: rest')))
    (h : Inner (level (left :: right :: rest)) (level (left' :: right' :: rest'))) :
    Inner (left :: right :: rest) (left' :: right' :: rest') := by
  obtain ⟨d, hd, s, hs, hds⟩ := h
  rw [level_eq_map, List.mem_map] at hd
  obtain ⟨p, hp, rfl⟩ := hd
  -- the pair below `d` is hashed in the other tree too, where its first node is made
  have hps : joined p = s := eq_of_not_collide hc (List.mem_append_left _ (joined_mem_hashed hp))
    (List.mem_append_right _ (mem_hashed_of_level hs)) hds
  obtain ⟨q, hq, hfirst⟩ := exists_joined_of_mem_hashed hs
  obtain rfl : p = q := joined_injective (hps.trans hq)
  refine ⟨p.1, fst_mem_of_mem_pairs hp, ?_⟩
  rcases hfirst with hfirst | ⟨below, hbelow, hfirst⟩
  · rw [level_eq_map, List.mem_map] at hfirst
    obtain ⟨r, hr, hrp⟩ := hfirst
    exact ⟨_, joined_mem_hashed hr, hrp.symm⟩
  · exact ⟨below, mem_hashed_of_level hbelow, hfirst⟩

end

/-- **Equal roots**: the leaves agree, unless two of the strings that are hashed collide, or the trees
differ in depth and a leaf of one is a digest that the other made. -/
theorem agree_of_rootOf_eq {x y : Digest} (hc : ¬Collide (hashed (x :: xs) ++ hashed (y :: ys)))
    (h : rootOf x xs = rootOf y ys) : Agree (x :: xs) (y :: ys) ∨
      (xs.length ≠ ys.length ∧ (Inner (x :: xs) (y :: ys) ∨ Inner (y :: ys) (x :: xs))) := by
  induction x, xs using rootOf.induct generalizing y ys with
  | case1 x =>
    rw [rootOf_nil] at h
    cases ys with
    | nil =>
      rw [rootOf_nil] at h
      exact .inl ⟨.inl (h ▸ List.prefix_rfl), fun _ => by rw [h]⟩
    | cons y' ys =>
      obtain ⟨s, hs, hroot⟩ := exists_rootOf_eq y y' ys
      exact .inr ⟨by simp, .inl ⟨x, List.mem_cons_self, s, hs, h.trans hroot⟩⟩
  | case2 x x' xs ih =>
    cases ys with
    | nil =>
      obtain ⟨s, hs, hroot⟩ := exists_rootOf_eq x x' xs
      rw [rootOf_nil] at h
      exact .inr ⟨by simp, .inr ⟨y, List.mem_cons_self, s, hs, h.symm.trans hroot⟩⟩
    | cons y' ys =>
      have hsub : hashed (level (x :: x' :: xs)) ++ hashed (level (y :: y' :: ys)) ⊆
          hashed (x :: x' :: xs) ++ hashed (y :: y' :: ys) :=
        List.append_subset.2 ⟨fun _ hs => List.mem_append_left _ (mem_hashed_of_level hs),
          fun _ hs => List.mem_append_right _ (mem_hashed_of_level hs)⟩
      rw [rootOf_cons, rootOf_cons] at h
      rcases ih (fun hcollide => hc (hcollide.mono hsub)) h with hagree | ⟨hlength, hinner⟩
      · exact .inl (agree_of_level hc hagree)
      · refine .inr ⟨fun hl => hlength ?_, hinner.imp (Inner.of_level hc) (Inner.of_level ?_)⟩
        · rw [length_level, length_level, Nat.succ.inj hl]
        · exact fun hcollide => hc (hcollide.mono (by simp))

end Merkle

/-! ### Headers -/

/-- The byte string that is hashed for the identifier of a block. -/
def BlockHeader.idBytes (header : BlockHeader) : Bytes :=
  littleEndian 4 header.version.toNat ++ header.previous.bytes.toList ++
    header.merkleRoot.toList ++ littleEndian 4 header.timestamp.toNat ++
    littleEndian 8 header.random.toNat

/-- What is hashed for the identifier of a block tells every field of the header but the signature. -/
theorem BlockHeader.eq_of_idBytes_eq {header header' : BlockHeader}
    (h : header.idBytes = header'.idBytes) :
    header' = { header with signature := header'.signature } := by
  obtain ⟨version, ⟨previous⟩, merkleRoot, timestamp, signature, random⟩ := header
  obtain ⟨version', ⟨previous'⟩, merkleRoot', timestamp', signature', random'⟩ := header'
  simp only [idBytes, List.append_assoc] at h
  obtain ⟨hversion, h⟩ := List.append_inj h (by simp)
  obtain ⟨hprevious, h⟩ := List.append_inj h (by simp)
  obtain ⟨hroot, h⟩ := List.append_inj h (by simp)
  obtain ⟨htimestamp, hrandom⟩ := List.append_inj h (by simp)
  rw [littleEndian_uint32_inj (by decide) hversion, FixedBytes.ext hprevious, FixedBytes.ext hroot,
    littleEndian_uint32_inj (by decide) htimestamp, littleEndian_uint64_inj (by decide) hrandom]

/-! ### Blocks -/

section

variable [CryptoSuite]

theorem Transaction.txid_eq_ok_iff {tx : Transaction} {id : TxId} :
    tx.txid = .ok id ↔ tx.Fits ∧ id = ⟨hash256 tx.wire⟩ := by
  have h : tx.txid = .ok id ↔ ∃ bytes, Codec.marshal tx = .ok bytes ∧ id = ⟨hash256 bytes⟩ := by
    unfold Transaction.txid
    cases Codec.marshal tx with
    | error e => simp
    | ok bytes => simp [eq_comm]
  simp only [h, Format.marshal_eq_ok_iff]
  constructor
  · rintro ⟨_, ⟨hfits, rfl⟩, hid⟩
    exact ⟨hfits, hid⟩
  · rintro ⟨hfits, hid⟩
    exact ⟨_, ⟨hfits, rfl⟩, hid⟩

namespace Block

variable {b b' : Block}

/-- The leaves of the tree over the transactions of a block. -/
def leaves (b : Block) : List Digest :=
  b.transactions.map fun tx => hash256 tx.wire

/-- The byte strings that are hashed for the identifier of a block and for its Merkle root. -/
def hashed (b : Block) : List Bytes :=
  b.header.idBytes :: (b.transactions.map Transaction.wire ++ Merkle.hashed b.leaves)

theorem wire_mem_hashed {tx : Transaction} (h : tx ∈ b.transactions) : tx.wire ∈ b.hashed :=
  List.mem_cons_of_mem _ (List.mem_append_left _ (List.mem_map_of_mem h))

theorem mem_hashed_of_tree {s : Bytes} (h : s ∈ Merkle.hashed b.leaves) : s ∈ b.hashed :=
  List.mem_cons_of_mem _ (List.mem_append_right _ h)

theorem txids_eq_ok_iff {ids : List TxId} : b.txids = .ok ids ↔
    (∀ tx ∈ b.transactions, tx.Fits) ∧ ids = b.leaves.map TxId.mk := by
  rw [txids, mapM_eq_ok_iff, leaves, List.map_map]
  generalize b.transactions = txs
  induction txs generalizing ids with
  | nil => simp
  | cons tx txs ih =>
    rw [List.forall₂_cons_left_iff]
    simp only [ih]
    constructor
    · rintro ⟨id, ids, hid, ⟨hrest, rfl⟩, rfl⟩
      obtain ⟨hfits, rfl⟩ := Transaction.txid_eq_ok_iff.1 hid
      exact ⟨List.forall_mem_cons.2 ⟨hfits, hrest⟩, rfl⟩
    · rintro ⟨hall, rfl⟩
      obtain ⟨hfits, hrest⟩ := List.forall_mem_cons.1 hall
      exact ⟨_, _, Transaction.txid_eq_ok_iff.2 ⟨hfits, rfl⟩, ⟨hrest, rfl⟩, rfl⟩

/-- A block can be made of transactions that have bytes, if there is one. -/
theorem exists_make_eq_ok {txs : List Transaction} (hne : txs ≠ []) (hfits : ∀ tx ∈ txs, tx.Fits)
    (previous : BlockId) (timestamp : UInt32) (random : UInt64) :
    ∃ block, make previous txs timestamp random = .ok block ∧ block.transactions = txs := by
  obtain ⟨tx, rest, rfl⟩ := List.exists_cons_of_ne_nil hne
  obtain ⟨id, ids, hids⟩ : ∃ id ids,
      txids ⟨⟨currentVersion, previous, .zero, timestamp, .zero, random⟩, tx :: rest⟩ =
        .ok (id :: ids) := ⟨_, _, txids_eq_ok_iff.2 ⟨hfits, rfl⟩⟩
  simp only [make, merkleRoot, hids, bind, Except.bind, Merkle.root]
  exact ⟨_, rfl, rfl⟩

/-- The header of a block commits to its transactions if all of them have bytes, there is one, and the
root over their digests stands in the header. -/
theorem checkMerkleRoot_eq_ok_iff : b.checkMerkleRoot = .ok () ↔
    (∀ tx ∈ b.transactions, tx.Fits) ∧ ∃ first rest, b.leaves = first :: rest ∧
      Merkle.rootOf first rest = b.header.merkleRoot := by
  have h : b.checkMerkleRoot = .ok () ↔
      ∃ ids, b.txids = .ok ids ∧ Merkle.root ids = .ok b.header.merkleRoot := by
    unfold checkMerkleRoot merkleRoot
    cases b.txids with
    | error e => simp [bind, Except.bind]
    | ok ids =>
      cases hroot : Merkle.root ids with
      | error e => simp [bind, Except.bind, hroot]
      | ok root => simp [bind, Except.bind, hroot]
  rw [h]
  simp only [txids_eq_ok_iff]
  constructor
  · rintro ⟨_, ⟨hfits, rfl⟩, hroot⟩
    cases hleaves : b.leaves with
    | nil => simp [hleaves, Merkle.root] at hroot
    | cons first rest =>
      rw [hleaves, Merkle.root_map_mk] at hroot
      exact ⟨hfits, first, rest, rfl, Except.ok.inj hroot⟩
  · rintro ⟨hfits, first, rest, hleaves, hroot⟩
    exact ⟨_, ⟨hfits, rfl⟩, by rw [hleaves, Merkle.root_map_mk, hroot]⟩

/-- A transaction of one block has the bytes of a pair of nodes in the tree of another. -/
def Confused (b b' : Block) : Prop :=
  ∃ tx ∈ b.transactions, tx.wire ∈ Merkle.hashed b'.leaves

theorem confused_of_inner (hc : ¬Collide (b.hashed ++ b'.hashed))
    (h : Merkle.Inner b.leaves b'.leaves) : b.Confused b' := by
  obtain ⟨_, hleaf, s, hs, heq⟩ := h
  obtain ⟨tx, htx, rfl⟩ := List.mem_map.1 hleaf
  have hbytes : tx.wire = s := eq_of_not_collide hc (List.mem_append_left _ (wire_mem_hashed htx))
    (List.mem_append_right _ (mem_hashed_of_tree hs)) heq
  exact ⟨tx, htx, hbytes ▸ hs⟩

theorem agree_or_confused (hc : ¬Collide (b.hashed ++ b'.hashed)) (hid : b.id = b'.id)
    (h : b.checkMerkleRoot = .ok ()) (h' : b'.checkMerkleRoot = .ok ()) :
    Agree b.transactions b'.transactions ∨ b.Confused b' ∨ b'.Confused b := by
  obtain ⟨hfits, first, rest, hleaves, hroot⟩ := checkMerkleRoot_eq_ok_iff.1 h
  obtain ⟨hfits', first', rest', hleaves', hroot'⟩ := checkMerkleRoot_eq_ok_iff.1 h'
  have hc' : ¬Collide (b'.hashed ++ b.hashed) := fun hcollide => hc (hcollide.mono (by simp))
  have hbytes : b.header.idBytes = b'.header.idBytes :=
    eq_of_not_collide hc (List.mem_append_left _ List.mem_cons_self)
      (List.mem_append_right _ List.mem_cons_self) (congrArg BlockId.bytes hid)
  have hroots : Merkle.rootOf first rest = Merkle.rootOf first' rest' := by
    rw [hroot, hroot', BlockHeader.eq_of_idBytes_eq hbytes]
  have htrees : ¬Collide (Merkle.hashed (first :: rest) ++ Merkle.hashed (first' :: rest')) := by
    rw [← hleaves, ← hleaves']
    exact fun hcollide => hc (hcollide.mono (List.append_subset.2
      ⟨fun _ hs => List.mem_append_left _ (mem_hashed_of_tree hs),
        fun _ hs => List.mem_append_right _ (mem_hashed_of_tree hs)⟩))
  have hresult := Merkle.agree_of_rootOf_eq htrees hroots
  rw [← hleaves, ← hleaves'] at hresult
  rcases hresult with hagree | ⟨-, hinner | hinner⟩
  · refine .inl (hagree.of_map fun tx htx tx' htx' heq => ?_)
    have hwire : tx.wire = tx'.wire :=
      eq_of_not_collide hc (List.mem_append_left _ (wire_mem_hashed htx))
        (List.mem_append_right _ (wire_mem_hashed htx')) heq
    exact Format.wire_injOn (hfits tx htx) (hfits' tx' htx') hwire
  · exact .inr (.inl (confused_of_inner hc hinner))
  · exact .inr (.inr (confused_of_inner hc' hinner))

/-- **The identifier of a block pins its transactions but for repeats**: of two blocks with one
identifier, whose headers commit to their transactions, one has the transactions of the other and
behind them only repeats; or a transaction has the bytes of a pair of nodes, or two of the strings
that are hashed collide. -/
theorem transactions_agree (hid : b.id = b'.id) (h : b.checkMerkleRoot = .ok ())
    (h' : b'.checkMerkleRoot = .ok ()) :
    Agree b.transactions b'.transactions ∨ b.Confused b' ∨ b'.Confused b ∨
      Collide (b.hashed ++ b'.hashed) := by
  by_cases hc : Collide (b.hashed ++ b'.hashed)
  · exact .inr (.inr (.inr hc))
  · rcases agree_or_confused hc hid h h' with hagree | hconfused | hconfused
    · exact .inl hagree
    · exact .inr (.inl hconfused)
    · exact .inr (.inr (.inl hconfused))

theorem Confused.exists_size (h : b.Confused b') : ∃ tx ∈ b.transactions, Codec.size tx = 64 := by
  obtain ⟨tx, htx, hbytes⟩ := h
  obtain ⟨p, hp, -⟩ := Merkle.exists_joined_of_mem_hashed hbytes
  refine ⟨tx, htx, ?_⟩
  have hlength : tx.wire.length = Codec.size tx := Format.length_wire tx
  rw [← hlength, hp, Merkle.joined, List.length_append, FixedBytes.length_toList,
    FixedBytes.length_toList]

/-- No transaction is confused with a pair of nodes where none has the size of one. -/
theorem agree_of_size_ne (hid : b.id = b'.id) (h : b.checkMerkleRoot = .ok ())
    (h' : b'.checkMerkleRoot = .ok ())
    (hsize : ∀ tx ∈ b.transactions ++ b'.transactions, Codec.size tx ≠ 64) :
    Agree b.transactions b'.transactions ∨ Collide (b.hashed ++ b'.hashed) := by
  refine or_iff_not_imp_right.2 fun hc => ?_
  rcases agree_or_confused hc hid h h' with hagree | hconfused | hconfused
  · exact hagree
  · obtain ⟨tx, htx, h64⟩ := hconfused.exists_size
    exact absurd h64 (hsize tx (List.mem_append_left _ htx))
  · obtain ⟨tx, htx, h64⟩ := hconfused.exists_size
    exact absurd h64 (hsize tx (List.mem_append_right _ htx))

/-- In blocks that repeat no transaction, and have none of 64 bytes, the identifier pins them all. -/
theorem transactions_eq_of_nodup (hid : b.id = b'.id) (h : b.checkMerkleRoot = .ok ())
    (h' : b'.checkMerkleRoot = .ok ()) (hn : b.transactions.Nodup) (hn' : b'.transactions.Nodup)
    (hsize : ∀ tx ∈ b.transactions ++ b'.transactions, Codec.size tx ≠ 64) :
    b.transactions = b'.transactions ∨ Collide (b.hashed ++ b'.hashed) :=
  (agree_of_size_ne hid h h' hsize).imp_left fun hagree => hagree.eq_of_nodup hn hn'

/-- So it does in blocks of as many transactions. -/
theorem transactions_eq_of_length_eq (hid : b.id = b'.id) (h : b.checkMerkleRoot = .ok ())
    (h' : b'.checkMerkleRoot = .ok ())
    (hlength : b.transactions.length = b'.transactions.length)
    (hsize : ∀ tx ∈ b.transactions ++ b'.transactions, Codec.size tx ≠ 64) :
    b.transactions = b'.transactions ∨ Collide (b.hashed ++ b'.hashed) :=
  (agree_of_size_ne hid h h' hsize).imp_left fun hagree => hagree.eq_of_length_eq hlength

/-! ### A repeat that the root does not show -/

/-- The block with its last transaction once more. -/
def repeatLast (b : Block) : Block :=
  { b with transactions := b.transactions ++ b.transactions.getLast?.toList }

/-- **Every block with an odd number of transactions, more than one, has a twin**: with the last of them
once more, its header commits to them as before, and no string is hashed that was not. -/
theorem checkMerkleRoot_repeatLast (hodd : b.transactions.length % 2 = 1)
    (hmany : 1 < b.transactions.length) (h : b.checkMerkleRoot = .ok ()) :
    b.repeatLast.id = b.id ∧ b.repeatLast.checkMerkleRoot = .ok () ∧
      b.repeatLast.transactions.length = b.transactions.length + 1 ∧
      b.repeatLast.hashed ⊆ b.hashed := by
  obtain ⟨first, second, more, last, htxs⟩ : ∃ first second more last,
      b.transactions = first :: second :: (more ++ [last]) := by
    match hb : b.transactions with
    | [] => simp [hb] at hmany
    | [_] => simp [hb] at hmany
    | [_, _] => simp [hb] at hodd
    | first :: second :: third :: rest =>
      rcases List.eq_nil_or_concat (third :: rest) with hnil | ⟨more, last, hconcat⟩
      · cases hnil
      · exact ⟨first, second, more, last, by rw [hconcat, List.concat_eq_append]⟩
  have heven : (more.map fun tx => hash256 tx.wire).length % 2 = 0 := by
    simp only [htxs, List.length_cons, List.length_append, List.length_nil] at hodd
    rw [List.length_map]
    omega
  have htwin : b.repeatLast.transactions = first :: second :: (more ++ [last, last]) := by
    have hconcat : b.transactions = (first :: second :: more) ++ [last] := htxs
    have hlast : b.transactions.getLast? = some last := by rw [hconcat, List.getLast?_concat]
    rw [repeatLast, hlast, htxs]
    simp
  have hleaves : b.leaves = hash256 first.wire :: hash256 second.wire ::
      ((more.map fun tx => hash256 tx.wire) ++ [hash256 last.wire]) := by
    simp [leaves, htxs]
  have hleaves' : b.repeatLast.leaves = hash256 first.wire :: hash256 second.wire ::
      ((more.map fun tx => hash256 tx.wire) ++ [hash256 last.wire, hash256 last.wire]) := by
    simp [leaves, htwin]
  have hmem : ∀ tx, tx ∈ b.repeatLast.transactions ↔ tx ∈ b.transactions := by
    simp [htwin, htxs]
  refine ⟨rfl, ?_, by simp [htwin, htxs], ?_⟩
  · obtain ⟨hfits, _, _, hcons, hroot⟩ := checkMerkleRoot_eq_ok_iff.1 h
    obtain ⟨rfl, rfl⟩ := List.cons.inj (hleaves.symm.trans hcons)
    refine checkMerkleRoot_eq_ok_iff.2 ⟨fun tx htx => hfits tx ((hmem tx).1 htx), _, _, hleaves', ?_⟩
    rw [Merkle.rootOf_repeat heven, hroot]
    rfl
  · have htree : Merkle.hashed b.repeatLast.leaves = Merkle.hashed b.leaves := by
      rw [hleaves', hleaves, Merkle.hashed_repeat heven]
    intro s hs
    rw [hashed, htree, List.mem_cons, List.mem_append, List.mem_map] at hs
    rcases hs with rfl | ⟨tx, htx, rfl⟩ | hs
    · exact List.mem_cons_self
    · exact wire_mem_hashed ((hmem tx).1 htx)
    · exact mem_hashed_of_tree hs

end Block

end

/-! ### A block and its twin -/

namespace Twin

open Crypto

/-- Three small transactions. -/
def transactions : List Transaction :=
  [.ofBody .escrowOpen, .minting [], .minting [⟨1, []⟩]]

/-- A block with these transactions, whose header commits to them. -/
def block : Block where
  header := ⟨1, .zero, root, 0, .zero, 0⟩
  transactions := transactions
where
  /-- The root over the digests of `transactions`. -/
  root : Digest := match transactions.map fun tx => hash256 tx.wire with
    | [] => .zero
    | first :: rest => Merkle.rootOf first rest

theorem fits : ∀ tx ∈ transactions, tx.Fits := by
  have hempty : Format.FitsList maxOutputs ([] : List Output) := ⟨by decide, by simp⟩
  have hone : Format.FitsList maxOutputs [(⟨1, []⟩ : Output)] := by
    refine ⟨by decide, ?_⟩
    simp only [List.mem_singleton, forall_eq]
    exact Nat.zero_le _
  simp only [transactions, List.mem_cons, List.not_mem_nil, or_false, forall_eq_or_imp, forall_eq]
  exact ⟨⟨rfl, rfl, trivial⟩, ⟨rfl, rfl, hempty⟩, ⟨rfl, rfl, hone⟩⟩

theorem checkMerkleRoot : block.checkMerkleRoot = .ok () :=
  Block.checkMerkleRoot_eq_ok_iff.2 ⟨fits, _, _, rfl, rfl⟩

theorem not_collide : ¬Collide block.hashed := by
  have hnodup : (block.hashed.map hash256).Nodup := by decide +kernel
  exact not_collide_of_nodup hnodup

theorem repeated : block.repeatLast.id = block.id ∧ block.repeatLast.checkMerkleRoot = .ok () ∧
    block.repeatLast.transactions.length = block.transactions.length + 1 ∧
    ¬Collide (block.hashed ++ block.repeatLast.hashed) := by
  obtain ⟨hid, hcheck, hlength, hsub⟩ :=
    Block.checkMerkleRoot_repeatLast (by decide) (by decide) checkMerkleRoot
  have hstrings : block.hashed ++ block.repeatLast.hashed ⊆ block.hashed :=
    List.append_subset.2 ⟨fun _ hs => hs, hsub⟩
  exact ⟨hid, hcheck, hlength, fun hc => not_collide (hc.mono hstrings)⟩

/-- The two blocks agree, though they are not equal. -/
theorem transactions_agree_repeatLast : Agree block.transactions block.repeatLast.transactions := by
  obtain ⟨hid, hcheck, -, hc⟩ := repeated
  have hsize : ∀ tx ∈ transactions, Codec.size tx ≠ 64 := by decide +kernel
  have hsize' : ∀ tx ∈ block.repeatLast.transactions, Codec.size tx ≠ 64 := by decide +kernel
  rcases Block.transactions_agree hid.symm checkMerkleRoot hcheck with h | h | h | h
  · exact h
  · obtain ⟨tx, htx, h64⟩ := h.exists_size
    exact absurd h64 (hsize tx htx)
  · obtain ⟨tx, htx, h64⟩ := h.exists_size
    exact absurd h64 (hsize' tx htx)
  · exact absurd h hc

/-- **The identifier of a block does not pin its transactions**: two blocks with one identifier have
headers that commit to their transactions, these differ, and no two of the strings hashed for the
identifiers and the roots collide. -/
theorem exists_ambiguous : ∃ b b' : Block, b.id = b'.id ∧ b.checkMerkleRoot = .ok () ∧
    b'.checkMerkleRoot = .ok () ∧ b.transactions ≠ b'.transactions ∧
    ¬Collide (b.hashed ++ b'.hashed) := by
  obtain ⟨hid, hcheck, hlength, hc⟩ := repeated
  refine ⟨block, block.repeatLast, hid.symm, checkMerkleRoot, hcheck, fun heq => ?_, hc⟩
  rw [heq] at hlength
  omega

end Twin

end UtxoLedger
