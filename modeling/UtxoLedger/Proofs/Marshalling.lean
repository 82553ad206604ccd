import UtxoLedger.Proofs.Encoding

/-!
What can be marshalled, and where it is written. Into a buffer of its own or into the front of a given
one, exactly the values within their limits are written, if the buffer has the room that their size
says. A value that is refused is refused for a limit that it breaks, and never for its size: whatever is
written before the limit is noticed has room as well, and a transaction that is too long for the four
bytes of its length is beyond its limits anyway.
-/

namespace UtxoLedger

open Wire Write Writer Format

/-! ### Why steps fail -/

/-- The failure names a limit of the format. The other failures say that what is written does not take
as many bytes as were reserved for it. -/
def EncodeError.NamesLimit : EncodeError → Prop
  | noRoom .. => False
  | sizeMismatch .. => False
  | transactionTooLarge _ => False
  | _ => True

namespace Wire

namespace Write

/-- Where there is room for `bytes`, the step fails for one of these reasons only. -/
def FailsBy (step : Write) (bytes : Bytes) (reason : EncodeError → Prop) : Prop :=
  ∀ w w' e, w.position + bytes.length ≤ w.capacity → step.apply w = (.error e, w') → reason e

variable {step next : Write} {may : Prop} {bytes bytes' : Bytes} {reason reason' : EncodeError → Prop}

theorem FailsBy.mono (h : step.FailsBy bytes reason) (hr : ∀ e, reason e → reason' e) :
    step.FailsBy bytes reason' :=
  fun w w' e hroom he => hr e (h w w' e hroom he)

theorem failsBy_pure : FailsBy (pure ()) bytes reason := by
  rintro w w' e - ⟨⟩

theorem failsBy_throw {e : EncodeError} (h : reason e) : FailsBy (throw e) bytes reason := by
  rintro w w' _ - ⟨⟩
  exact h

/-- The second step starts where the first one ends, with the rest of the room. -/
theorem FailsBy.seq (h : step.FailsBy bytes reason) (hw : step.Writes may bytes)
    (hn : next.FailsBy bytes' reason) :
    FailsBy (step >>= fun _ => next) (bytes ++ bytes') reason := by
  intro w w' e hroom he
  rw [List.length_append, ← Nat.add_assoc] at hroom
  have hfirst : w.position + bytes.length ≤ w.capacity := Nat.le_of_add_right_le hroom
  rcases bind_eq_error_iff.1 he with hstep | ⟨_, between, hstep, hnext⟩
  · exact h w w' e hfirst hstep
  · obtain ⟨-, -, rfl⟩ := (hw w between (Nat.le_of_add_right_le hfirst)).1 hstep
    exact hn _ w' e (by simpa using hroom) hnext

theorem FailsBy.guard {c : Prop} [Decidable c] {e : EncodeError} (he : c → reason e)
    (h : ¬c → step.FailsBy bytes reason) : FailsBy (if c then throw e else step) bytes reason := by
  split
  · next hc => exact failsBy_throw (he hc)
  · next hc => exact h hc

theorem failsBy_forM {α : Type} {item : α → Write} {P : α → Prop} {wire : α → Bytes} {xs : List α}
    (hw : ∀ x, (item x).Writes (P x) (wire x)) (h : ∀ x ∈ xs, (item x).FailsBy (wire x) reason) :
    FailsBy (xs.forM item) (xs.flatMap wire) reason := by
  induction xs with
  | nil => exact failsBy_pure
  | cons x xs ih =>
    obtain ⟨hfirst, hrest⟩ := List.forall_mem_cons.1 h
    exact hfirst.seq (hw x) (ih hrest)

end Write

namespace Writer

/-- Where there is room, bytes are written. -/
theorem failsBy_put (data : Bytes) (field : String) {reason : EncodeError → Prop} :
    (put data field).FailsBy data reason := by
  intro w w' e hroom he
  have hw := (writes_put data field w _ (Nat.le_of_add_right_le hroom)).2 ⟨trivial, hroom, rfl⟩
  rw [hw] at he
  cases he

theorem failsBy_count (n limit : Nat) (field : String) :
    (count n limit field).FailsBy (Varint.encode n) EncodeError.NamesLimit :=
  FailsBy.guard (fun _ => trivial) fun _ => failsBy_put _ _

theorem failsBy_varBytes (data : Bytes) (limit : Nat) (field : String) :
    (varBytes data limit field).FailsBy (delimited data) EncodeError.NamesLimit :=
  FailsBy.guard (fun _ => trivial) fun _ =>
    (failsBy_put _ _).seq (writes_put _ _) (failsBy_put _ _)

end Writer

end Wire

/-! ### Why values are refused -/

section Refused

theorem failsBy_encodeList {α : Type} [Codec α] [Format α]
    (h : ∀ x : α, (Codec.encode x).FailsBy (wire x) EncodeError.NamesLimit) (xs : List α) (limit : Nat)
    (field : String) :
    (Codec.encodeList xs limit field).FailsBy (wireList xs) EncodeError.NamesLimit :=
  (failsBy_count _ _ _).seq (writes_count _ _ _) (failsBy_forM Format.writes fun x _ => h x)

theorem Input.failsBy_encode (input : Input) :
    (Codec.encode input).FailsBy (wire input) EncodeError.NamesLimit :=
  (failsBy_put _ _).seq (writes_put _ _) ((failsBy_put _ _).seq (writes_put _ _)
    ((failsBy_varBytes _ _ _).seq (writes_varBytes _ _ _) (failsBy_put _ _)))

theorem Output.failsBy_encode (output : Output) :
    (Codec.encode output).FailsBy (wire output) EncodeError.NamesLimit :=
  (failsBy_put _ _).seq (writes_put _ _) (failsBy_varBytes _ _ _)

theorem Witness.failsBy_encode (witness : Witness) :
    (Codec.encode witness).FailsBy (wire witness) EncodeError.NamesLimit :=
  (failsBy_count _ _ _).seq (writes_count _ _ _) (failsBy_forM (fun _ => writes_varBytes _ _ _)
    fun _ _ => failsBy_varBytes _ _ _)

theorem Transfer.failsBy_encode (t : Transfer) : t.encode.FailsBy t.wire EncodeError.NamesLimit :=
  FailsBy.guard (fun _ => trivial) fun _ =>
    (failsBy_encodeList Input.failsBy_encode _ _ _).seq (writes_encodeList _ _ _)
      ((failsBy_encodeList Output.failsBy_encode _ _ _).seq (writes_encodeList _ _ _)
        ((failsBy_forM Format.writes fun witness _ => witness.failsBy_encode).seq
          (writes_forM Format.writes _) (failsBy_put _ _)))

theorem Body.failsBy_encode (body : Body) :
    body.encode.FailsBy body.wire EncodeError.NamesLimit := by
  cases body with
  | transfer t => exact t.failsBy_encode
  | genesis outputs => exact failsBy_encodeList Output.failsBy_encode _ _ _
  | escrowOpen => exact failsBy_pure

theorem Transaction.failsBy_encode (tx : Transaction) :
    (Codec.encode tx).FailsBy (wire tx) EncodeError.NamesLimit :=
  FailsBy.guard (fun _ => trivial) fun _ => FailsBy.guard (fun _ => trivial) fun _ =>
    (failsBy_put _ _).seq (writes_put _ _) ((failsBy_put _ _).seq (writes_put _ _)
      ((failsBy_put _ _).seq (writes_put _ _) tx.body.failsBy_encode))

theorem BlockHeader.failsBy_encode (header : BlockHeader) :
    (Codec.encode header).FailsBy (wire header) EncodeError.NamesLimit :=
  (failsBy_put _ _).seq (writes_put _ _) ((failsBy_put _ _).seq (writes_put _ _)
    ((failsBy_put _ _).seq (writes_put _ _) ((failsBy_put _ _).seq (writes_put _ _)
      ((failsBy_put _ _).seq (writes_put _ _) (failsBy_put _ _)))))

/-- A failure with one of these transactions in a block: it names a limit, or a transaction that is
beyond its limits is too long for the four bytes of its length. -/
def EncodeError.Refuses (e : EncodeError) (txs : List Transaction) : Prop :=
  e.NamesLimit ∨ ∃ tx ∈ txs, ¬tx.Fits ∧ e = .transactionTooLarge (Codec.size tx)

theorem Block.failsBy_encodeTransaction {tx : Transaction} {txs : List Transaction} (htx : tx ∈ txs) :
    (Block.encodeTransaction tx).FailsBy tx.wireInBlock (EncodeError.Refuses · txs) := by
  refine FailsBy.guard (fun hsize => .inr ⟨tx, htx, ?_, rfl⟩) fun hsize => ?_
  · intro hfits
    exact Nat.not_lt_of_le hsize hfits.size_lt
  · rw [Transaction.wireInBlock_eq (Nat.not_le.1 hsize)]
    exact (failsBy_put _ _).seq (writes_put _ _) (tx.failsBy_encode.mono fun _ => .inl)

theorem Block.failsBy_encode (block : Block) :
    (Codec.encode block).FailsBy (wire block) (EncodeError.Refuses · block.transactions) :=
  FailsBy.guard (fun _ => .inl trivial) fun _ =>
    (block.header.failsBy_encode.mono fun _ => .inl).seq (Format.writes block.header)
      (((failsBy_count _ _ _).mono fun _ => .inl).seq (writes_count _ _ _)
        (failsBy_forM Block.writes_encodeTransaction fun _ => Block.failsBy_encodeTransaction))

end Refused

/-! ### Into a given buffer -/

section Buffer

variable {α : Type} [Codec α] [Format α] {x : α} {buffer out : Bytes} {n : Nat}

theorem Format.marshalTo_eq_ok_iff : Codec.marshalTo x buffer = .ok (n, out) ↔
    Fits x ∧ Codec.size x ≤ buffer.length ∧ n = Codec.size x ∧
      out = wire x ++ buffer.drop (Codec.size x) := by
  have h : Codec.marshalTo x buffer = .ok (n, out) ↔
      ∃ w, (Codec.encode x).apply (.start buffer.length) = (.ok (), w) ∧
        w.position = n ∧ w.onto buffer = out := by
    unfold Codec.marshalTo
    rcases (Codec.encode x).apply (.start buffer.length) with ⟨e | u, w⟩ <;> simp
  have honto : ((start buffer.length).append (wire x)).onto buffer =
      wire x ++ buffer.drop (Codec.size x) := by
    rw [Writer.onto, position_start_append, written_start_append, length_wire]
  rw [h]
  constructor
  · rintro ⟨w, hw, rfl, rfl⟩
    obtain ⟨hfits, hroom, rfl⟩ := writes_start.1 hw
    exact ⟨hfits, hroom, by rw [position_start_append, length_wire], honto⟩
  · rintro ⟨hfits, hroom, rfl, rfl⟩
    exact ⟨_, writes_start.2 ⟨hfits, hroom, rfl⟩, by rw [position_start_append, length_wire], honto⟩

end Buffer

/-! ### What can be marshalled -/

/-- Exactly the values within their limits are marshalled, to the place that is meant for them.
`enclosed` are the transactions that a value encloses behind their lengths. -/
structure Codec.Marshals (α : Type) [Codec α] [Format α] (enclosed : α → List Transaction) : Prop where
  /-- A buffer takes the values within their limits for which it has room. -/
  accepted : ∀ (x : α) (buffer : Bytes),
    (∃ n out, marshalTo x buffer = .ok (n, out)) ↔ Fits x ∧ size x ≤ buffer.length
  /-- The bytes of the value are then at its front, and what stands behind them is untouched. -/
  placed : ∀ (x : α) (buffer : Bytes) (n : Nat) (out : Bytes), marshalTo x buffer = .ok (n, out) →
    n = size x ∧ marshal x = .ok (out.take n) ∧ out.drop n = buffer.drop n ∧
      out.length = buffer.length
  /-- Every value within its limits has bytes, and no other value. -/
  marshalled : ∀ x : α, (∃ bytes, marshal x = .ok bytes) ↔ Fits x
  /-- A value has none because of a limit, and never because of its size. -/
  refused : ∀ (x : α) (e : EncodeError), marshal x = .error e → e.Refuses (enclosed x)

theorem Format.marshals {α : Type} [Codec α] [Format α] {enclosed : α → List Transaction}
    (h : ∀ x : α, (Codec.encode x).FailsBy (wire x) (EncodeError.Refuses · (enclosed x))) :
    Codec.Marshals α enclosed where
  accepted x buffer := by
    simp only [marshalTo_eq_ok_iff]
    exact ⟨fun ⟨_, _, hfits, hroom, _, _⟩ => ⟨hfits, hroom⟩,
      fun ⟨hfits, hroom⟩ => ⟨_, _, hfits, hroom, rfl, rfl⟩⟩
  placed x buffer n out hm := by
    obtain ⟨hfits, hroom, rfl, rfl⟩ := marshalTo_eq_ok_iff.1 hm
    have hlength := length_wire x
    refine ⟨rfl, marshal_eq_ok_iff.2 ⟨hfits, ?_⟩, ?_, ?_⟩
    · rw [← hlength, List.take_left]
    · rw [← hlength, List.drop_left]
    · rw [List.length_append, List.length_drop, hlength, Nat.add_sub_cancel' hroom]
  marshalled x := by simp only [marshal_eq_ok_iff, exists_and_left, exists_eq, and_true]
  refused x e hm := by
    have hroom : (start (Codec.size x)).position + (wire x).length ≤ (start (Codec.size x)).capacity := by
      rw [position_start, Nat.zero_add, length_wire]
      exact Nat.le_refl _
    unfold Codec.marshal at hm
    cases hrun : (Codec.encode x).apply (.start (Codec.size x)) with
    | mk result w =>
      rw [hrun] at hm
      cases result with
      | error reported =>
        cases hm
        exact h x _ w e hroom hrun
      | ok =>
        -- what is written is as long as the size says
        obtain ⟨-, -, rfl⟩ := writes_start.1 hrun
        simp [length_wire] at hm

/-- Everything that is sent or stored can be marshalled exactly if it is within its limits, and into
exactly the buffers that have the room which its size says. Sizes are right and lengths do not
overflow: what is refused breaks a limit. -/
theorem wire_types_marshal :
    Codec.Marshals Input (fun _ => []) ∧ Codec.Marshals Output (fun _ => []) ∧
      Codec.Marshals Witness (fun _ => []) ∧ Codec.Marshals Transaction (fun _ => []) ∧
      Codec.Marshals BlockHeader (fun _ => []) ∧ Codec.Marshals Block Block.transactions :=
  ⟨marshals fun input => input.failsBy_encode.mono fun _ => .inl,
    marshals fun output => output.failsBy_encode.mono fun _ => .inl,
    marshals fun witness => witness.failsBy_encode.mono fun _ => .inl,
    marshals fun tx => tx.failsBy_encode.mono fun _ => .inl,
    marshals fun header => header.failsBy_encode.mono fun _ => .inl,
    marshals Block.failsBy_encode⟩

end UtxoLedger
