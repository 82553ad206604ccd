import UtxoLedger.Proofs.Reading
import UtxoLedger.Proofs.Writing
import UtxoLedger.Wire.Codec

/-!
Byte formats. A format says which values of a type have bytes, and which bytes these are; its codec
writes exactly these and reads exactly these. What follows holds of every format: a value is read
back from what was written of it, the end of it can be told from its bytes, and no other bytes are
read as that value.
-/

namespace UtxoLedger

open Wire

/-- The format of a codec: which values have bytes, and which. The codec writes these bytes for a value
within the limits and fails on any other value; it reads these bytes as that value, and reads no other
string. -/
class Format (α : Type) [Codec α] where
  /-- The value is within the limits of the format. -/
  Fits : α → Prop
  /-- The bytes of a value. -/
  wire : α → Bytes
  length_wire : ∀ x, (wire x).length = Codec.size x
  writes : ∀ x, Write.Writes (Codec.encode x) (Fits x) (wire x)
  reads : (Codec.decode : Read α).Reads fun x bytes => Fits x ∧ bytes = wire x

namespace Format

variable {α : Type} [Codec α] [Format α] {x y : α} {bytes rest : Bytes} {n : Nat}

/-! ### Marshalling and unmarshalling -/

/-- From the start of a writer, room for the size of a value is all that it takes. -/
theorem writes_start {capacity : Nat} {w : Writer} :
    (Codec.encode x).apply (.start capacity) = (.ok (), w) ↔
      Fits x ∧ Codec.size x ≤ capacity ∧ w = (Writer.start capacity).append (wire x) := by
  rw [writes x _ w (Nat.zero_le _), Writer.position_start, Nat.zero_add, length_wire]
  rfl

theorem marshal_eq_ok_iff : Codec.marshal x = .ok bytes ↔ Fits x ∧ bytes = wire x := by
  have h : Codec.marshal x = .ok bytes ↔
      ∃ w, (Codec.encode x).apply (.start (Codec.size x)) = (.ok (), w) ∧
        w.position = Codec.size x ∧ bytes = w.written.toList := by
    unfold Codec.marshal
    rcases (Codec.encode x).apply (.start (Codec.size x)) with ⟨e | u, w⟩
    · simp
    · by_cases hp : w.position = Codec.size x
      · simp [hp, eq_comm]
      · simp [hp]
  rw [h]
  constructor
  · rintro ⟨w, hw, -, rfl⟩
    obtain ⟨hfits, -, rfl⟩ := writes_start.1 hw
    exact ⟨hfits, Writer.written_start_append _ _⟩
  · rintro ⟨hfits, rfl⟩
    exact ⟨_, writes_start.2 ⟨hfits, Nat.le_refl _, rfl⟩,
      (Writer.position_start_append _ _).trans (length_wire x), (Writer.written_start_append _ _).symm⟩

theorem decode_start_eq_ok_iff {r : Reader} :
    (Codec.decode : Read α).apply (.start bytes) = (.ok x, r) ↔
      Fits x ∧ bytes = wire x ++ r.rest ∧ r.position = (wire x).length := by
  rw [Format.reads (.start bytes) r x]
  constructor
  · rintro ⟨_, ⟨hfits, rfl⟩, hrest, hposition⟩
    exact ⟨hfits, hrest, hposition.trans (Nat.zero_add _)⟩
  · rintro ⟨hfits, hrest, hposition⟩
    exact ⟨_, ⟨hfits, rfl⟩, hrest, hposition.trans (Nat.zero_add _).symm⟩

theorem unmarshalFrom_eq_ok_iff : Codec.unmarshalFrom bytes = .ok (x, n) ↔
    Fits x ∧ n = (wire x).length ∧ ∃ rest, bytes = wire x ++ rest := by
  have h : Codec.unmarshalFrom bytes = .ok (x, n) ↔
      ∃ r, (Codec.decode : Read α).apply (.start bytes) = (.ok x, r) ∧ r.position = n := by
    unfold Codec.unmarshalFrom
    rcases (Codec.decode : Read α).apply (.start bytes) with ⟨e | y, r⟩ <;> simp
  simp only [h, decode_start_eq_ok_iff]
  constructor
  · rintro ⟨r, ⟨hfits, hbytes, hposition⟩, rfl⟩
    exact ⟨hfits, hposition, r.rest, hbytes⟩
  · rintro ⟨hfits, rfl, rest, hbytes⟩
    exact ⟨⟨_, rest⟩, ⟨hfits, hbytes, rfl⟩, rfl⟩

theorem unmarshal_eq_ok_iff : Codec.unmarshal bytes = .ok x ↔ Fits x ∧ bytes = wire x := by
  have h : Codec.unmarshal bytes = .ok x ↔
      ∃ r, (Codec.decode : Read α).apply (.start bytes) = (.ok x, r) ∧ r.rest = [] := by
    unfold Codec.unmarshal
    rcases (Codec.decode : Read α).apply (.start bytes) with ⟨e | y, r⟩
    · simp
    · by_cases hr : r.rest = [] <;> simp [hr]
  simp only [h, decode_start_eq_ok_iff]
  constructor
  · rintro ⟨r, ⟨hfits, hbytes, -⟩, hrest⟩
    exact ⟨hfits, by rw [hbytes, hrest, List.append_nil]⟩
  · rintro ⟨hfits, rfl⟩
    exact ⟨⟨_, []⟩, ⟨hfits, (List.append_nil _).symm, rfl⟩, rfl⟩

/-! ### One value, one string -/

/-- Where the bytes of a value end can be told from their front. -/
theorem wire_append_inj {rest' : Bytes} (hx : Fits x) (hy : Fits y)
    (h : wire x ++ rest = wire y ++ rest') : x = y ∧ rest = rest' := by
  have hfrom : Codec.unmarshalFrom (wire x ++ rest) = .ok (x, (wire x).length) :=
    unmarshalFrom_eq_ok_iff.2 ⟨hx, rfl, rest, rfl⟩
  have hfrom' : Codec.unmarshalFrom (wire x ++ rest) = .ok (y, (wire y).length) :=
    unmarshalFrom_eq_ok_iff.2 ⟨hy, rfl, rest', h⟩
  rw [hfrom, Except.ok.injEq, Prod.mk.injEq] at hfrom'
  obtain ⟨rfl, -⟩ := hfrom'
  exact ⟨rfl, List.append_cancel_left h⟩

theorem wire_injOn (hx : Fits x) (hy : Fits y) (h : wire x = wire y) : x = y := by
  have happend : wire x ++ [] = wire y ++ [] := by rw [h]
  exact (wire_append_inj hx hy happend).1

end Format

/-! ### Round trip and canonical form -/

namespace Codec

variable (α : Type) [Codec α]

/-- Reading undoes writing, and finds the end of what was written. -/
structure RoundTrips : Prop where
  /-- As many bytes are written as the size says. -/
  length_eq : ∀ (x : α) (bytes : Bytes), marshal x = .ok bytes → bytes.length = size x
  /-- From the front of any string that begins with them, the value and their number are read. -/
  front : ∀ (x : α) (bytes : Bytes), marshal x = .ok bytes →
    ∀ rest, unmarshalFrom (bytes ++ rest) = .ok (x, bytes.length)
  /-- From them alone the value is read. -/
  whole : ∀ (x : α) (bytes : Bytes), marshal x = .ok bytes → unmarshal bytes = .ok x
  /-- Nothing is read if some of them are missing. -/
  shorter : ∀ (x : α) (bytes : Bytes), marshal x = .ok bytes → ∀ short, short <+: bytes →
    short ≠ bytes → ∃ e, (unmarshal short : Except DecodeError α) = .error e
  /-- Nothing is read if more stands behind them. -/
  longer : ∀ (x : α) (bytes : Bytes), marshal x = .ok bytes → ∀ long, bytes <+: long →
    long ≠ bytes → ∃ e, (unmarshal long : Except DecodeError α) = .error e

/-- What is read has no other bytes than those that it was read from. -/
structure Canonical [Format α] : Prop where
  /-- Marshalling what was read gives the bytes that it took. -/
  remarshal : ∀ (bytes : Bytes) (x : α) (n : Nat), unmarshalFrom bytes = .ok (x, n) →
    n ≤ bytes.length ∧ marshal x = .ok (bytes.take n)
  /-- Two strings that are read as one value are one string. -/
  unique : ∀ (bytes other : Bytes) (x : α), unmarshal bytes = .ok x → unmarshal other = .ok x →
    bytes = other
  /-- What is read is within all limits. -/
  fits : ∀ (bytes : Bytes) (x : α) (n : Nat), unmarshalFrom bytes = .ok (x, n) → Format.Fits x

end Codec

namespace Format

variable (α : Type) [Codec α] [Format α]

theorem roundTrips : Codec.RoundTrips α := by
  refine ⟨fun x bytes h => ?_, fun x bytes h rest => ?_, fun x bytes h => ?_,
    fun x bytes h short hshort hne => ?_, fun x bytes h long hlong hne => ?_⟩ <;>
    obtain ⟨hfits, rfl⟩ := marshal_eq_ok_iff.1 h
  · exact length_wire x
  · exact unmarshalFrom_eq_ok_iff.2 ⟨hfits, rfl, rest, rfl⟩
  · exact unmarshal_eq_ok_iff.2 ⟨hfits, rfl⟩
  · refine exists_error_of_ne_ok fun y hy => ?_
    obtain ⟨hfits', rfl⟩ := unmarshal_eq_ok_iff.1 hy
    obtain ⟨more, hmore⟩ := hshort
    rw [← List.append_nil (wire x)] at hmore
    exact hne (congrArg wire (wire_append_inj hfits' hfits hmore).1)
  · refine exists_error_of_ne_ok fun y hy => ?_
    obtain ⟨hfits', rfl⟩ := unmarshal_eq_ok_iff.1 hy
    obtain ⟨more, hmore⟩ := hlong
    rw [← List.append_nil (wire y)] at hmore
    exact hne (congrArg wire (wire_append_inj hfits hfits' hmore).1).symm

theorem canonical : Codec.Canonical α := by
  refine ⟨fun bytes x n h => ?_, fun bytes other x h h' => ?_, fun bytes x n h => ?_⟩
  · obtain ⟨hfits, rfl, rest, rfl⟩ := unmarshalFrom_eq_ok_iff.1 h
    exact ⟨by simp, marshal_eq_ok_iff.2 ⟨hfits, by simp⟩⟩
  · rw [(unmarshal_eq_ok_iff.1 h).2, (unmarshal_eq_ok_iff.1 h').2]
  · exact (unmarshalFrom_eq_ok_iff.1 h).1

end Format

end UtxoLedger
