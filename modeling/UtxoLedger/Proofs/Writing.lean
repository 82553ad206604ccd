import UtxoLedger.Proofs.Lists
import UtxoLedger.Wire.Varint

/-!
What writing steps write: certain bytes, behind those written before, where a limit allows them and
the buffer has room. A step that may not write fails, and so does one without room.
-/

namespace UtxoLedger.Wire

namespace Writer

/-- The writer with more bytes written. -/
def append (w : Writer) (bytes : Bytes) : Writer :=
  { w with written := w.written ++ bytes }

@[simp]
theorem capacity_append (w : Writer) (bytes : Bytes) : (w.append bytes).capacity = w.capacity := rfl

@[simp]
theorem position_append (w : Writer) (bytes : Bytes) :
    (w.append bytes).position = w.position + bytes.length := by
  rw [position, position, append, ← Array.length_toList, ← Array.length_toList,
    Array.toList_appendList, List.length_append]

@[simp]
theorem append_nil (w : Writer) : w.append [] = w := by
  rw [append, show w.written ++ ([] : Bytes) = w.written from
    Array.toList_inj.1 (by rw [Array.toList_appendList, List.append_nil])]

theorem append_append (w : Writer) (bytes more : Bytes) :
    (w.append bytes).append more = w.append (bytes ++ more) := by
  rw [append, append, append, mk.injEq]
  refine ⟨rfl, Array.toList_inj.1 ?_⟩
  simp only [Array.toList_appendList, List.append_assoc]

@[simp]
theorem position_start (capacity : Nat) : (start capacity).position = 0 := rfl

@[simp]
theorem position_start_append (capacity : Nat) (bytes : Bytes) :
    ((start capacity).append bytes).position = bytes.length := by
  rw [position_append, position_start, Nat.zero_add]

@[simp]
theorem written_start_append (capacity : Nat) (bytes : Bytes) :
    ((start capacity).append bytes).written.toList = bytes := by
  rw [append, start, Array.toList_appendList, List.nil_append]

end Writer

namespace Write

/-- The step writes `bytes` if it may and they fit, and fails otherwise. -/
def Writes (step : Write) (may : Prop) (bytes : Bytes) : Prop :=
  ∀ w w' : Writer, w.position ≤ w.capacity → (step.apply w = (.ok (), w') ↔
    may ∧ w.position + bytes.length ≤ w.capacity ∧ w' = w.append bytes)

variable {step next : Write} {may may' : Prop} {bytes bytes' : Bytes}

theorem Writes.of_iff (h : step.Writes may bytes) (hmay : may ↔ may') (hb : may → bytes = bytes') :
    step.Writes may' bytes' := by
  intro w w' hw
  rw [h w w' hw, ← hmay]
  exact and_congr_right fun hm => by rw [hb hm]

/-! ### Composition -/

theorem writes_pure : Writes (pure ()) True [] := by
  intro w w' hw
  have h : Write.apply (pure ()) w = (.ok (), w) := rfl
  simp [h, hw, eq_comm]

theorem writes_throw (e : EncodeError) (bytes : Bytes) : Writes (throw e) False bytes := by
  intro w w' _
  have h : Write.apply (throw e) w = (.error e, w) := rfl
  simp [h]

theorem Writes.seq (h : step.Writes may bytes) (hn : next.Writes may' bytes') :
    Writes (step >>= fun _ => next) (may ∧ may') (bytes ++ bytes') := by
  intro w w' hw
  have hb : Write.apply (step >>= fun _ => next) w = (.ok (), w') ↔
      ∃ u between, step.apply w = (.ok u, between) ∧ next.apply between = (.ok (), w') :=
    bind_eq_ok_iff
  have hafter : w.position + bytes.length ≤ w.capacity →
      (next.apply (w.append bytes) = (.ok (), w') ↔ may' ∧
        w.position + bytes.length + bytes'.length ≤ w.capacity ∧ w' = w.append (bytes ++ bytes')) := by
    intro hroom
    rw [hn (w.append bytes) w' (by simpa using hroom), Writer.position_append,
      Writer.capacity_append, Writer.append_append]
  rw [hb, List.length_append, ← Nat.add_assoc]
  constructor
  · rintro ⟨u, between, hx, hy⟩
    obtain ⟨hmay, hroom, rfl⟩ := (h w between hw).1 hx
    obtain ⟨hmay', hrooms, rfl⟩ := (hafter hroom).1 hy
    exact ⟨⟨hmay, hmay'⟩, hrooms, rfl⟩
  · rintro ⟨⟨hmay, hmay'⟩, hrooms, rfl⟩
    have hroom := Nat.le_of_add_right_le hrooms
    exact ⟨(), w.append bytes, (h w _ hw).2 ⟨hmay, hroom, rfl⟩,
      (hafter hroom).2 ⟨hmay', hrooms, rfl⟩⟩

theorem Writes.guard {c : Prop} [Decidable c] {e : EncodeError} (h : ¬c → step.Writes may bytes) :
    Writes (if c then throw e else step) (¬c ∧ may) bytes := by
  split
  · next hc => exact (writes_throw e bytes).of_iff (by simp [hc]) fun _ => rfl
  · next hc => exact (h hc).of_iff (by simp [hc]) fun _ => rfl

theorem writes_forM {α : Type} {item : α → Write} {P : α → Prop} {wire : α → Bytes}
    (h : ∀ x, (item x).Writes (P x) (wire x)) (xs : List α) :
    Writes (xs.forM item) (∀ x ∈ xs, P x) (xs.flatMap wire) := by
  induction xs with
  | nil => exact writes_pure.of_iff (by simp) fun _ => rfl
  | cons x xs ih => exact ((h x).seq ih).of_iff (by simp) fun _ => by simp

end Write

open Write

/-! ### Fields -/

namespace Writer

theorem writes_put (data : Bytes) (field : String) : (put data field).Writes True data := by
  intro w w' _
  have h : (put data field).apply w = if w.position + data.length ≤ w.capacity then
      (.ok (), w.append data)
      else (.error (.noRoom field data.length w.position w.capacity), w) := by
    rw [Write.apply, put]
    change (ite _ _ _ : Write) w = _
    split <;> rfl
  rw [h]
  split
  · next hroom => simp [hroom, eq_comm]
  · next hroom => simp [hroom]

theorem writes_count (n limit : Nat) (field : String) :
    (count n limit field).Writes (n ≤ limit) (Varint.encode n) :=
  (Writes.guard fun _ => writes_put _ _).of_iff (by simp) fun _ => rfl

theorem writes_varBytes (data : Bytes) (limit : Nat) (field : String) :
    (varBytes data limit field).Writes (data.length ≤ limit) (Varint.encode data.length ++ data) :=
  (Writes.guard fun _ => (writes_put _ _).seq (writes_put _ _)).of_iff (by simp) fun _ => rfl

end Writer

end UtxoLedger.Wire
