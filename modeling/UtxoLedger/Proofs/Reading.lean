import UtxoLedger.Proofs.Bytes
import UtxoLedger.Proofs.Lists
import UtxoLedger.Wire.Varint

/-!
What reading steps read. A step reads a form if it takes exactly the byte strings of that form from
the front of what is there, each as the value that the form gives it, whatever comes behind: reading
succeeds on such strings, and on no others. Steps in a row read forms in a row.
-/

namespace UtxoLedger.Wire

variable {α β : Type}

namespace Read

theorem apply_bind_eq_ok_iff {step : Read α} {next : α → Read β} {r r' : Reader} {y : β} :
    (step >>= next).apply r = (.ok y, r') ↔
      ∃ x between, step.apply r = (.ok x, between) ∧ (next x).apply between = (.ok y, r') :=
  bind_eq_ok_iff

/-- The step reads exactly the strings of `form`, each as a value that `form` gives it, from the front
of whatever there is. -/
def Reads (step : Read α) (form : α → Bytes → Prop) : Prop :=
  ∀ (r r' : Reader) (x : α), step.apply r = (.ok x, r') ↔
    ∃ bytes, form x bytes ∧ r.rest = bytes ++ r'.rest ∧ r'.position = r.position + bytes.length

variable {step : Read α} {form form' : α → Bytes → Prop}

theorem Reads.of_iff (h : step.Reads form) (hf : ∀ x bytes, form x bytes ↔ form' x bytes) :
    step.Reads form' := by
  intro r r' x
  rw [h r r' x]
  simp only [hf]

/-! ### Composition -/

theorem reads_pure (x : α) : (pure x : Read α).Reads fun y bytes => y = x ∧ bytes = [] := by
  intro r r' y
  have h : (pure x : Read α).apply r = (.ok x, r) := rfl
  rw [h]
  obtain ⟨position, rest⟩ := r
  obtain ⟨position', rest'⟩ := r'
  simp only [Prod.mk.injEq, Except.ok.injEq, Reader.mk.injEq]
  constructor
  · rintro ⟨rfl, rfl, rfl⟩
    exact ⟨[], ⟨rfl, rfl⟩, rfl, rfl⟩
  · rintro ⟨_, ⟨rfl, rfl⟩, rfl, rfl⟩
    exact ⟨rfl, rfl, rfl⟩

theorem reads_throw (e : DecodeError) : (throw e : Read α).Reads fun _ _ => False := by
  intro r r' y
  have h : (throw e : Read α).apply r = (.error e, r) := rfl
  simp [h]

theorem Reads.bind {next : α → Read β} {after : α → β → Bytes → Prop} (h : step.Reads form)
    (hn : ∀ x, (next x).Reads (after x)) :
    (step >>= next).Reads fun y bytes =>
      ∃ x front back, form x front ∧ after x y back ∧ bytes = front ++ back := by
  intro r r' y
  rw [apply_bind_eq_ok_iff]
  constructor
  · rintro ⟨x, between, hx, hy⟩
    obtain ⟨front, hfront, hrest, hposition⟩ := (h ..).1 hx
    obtain ⟨back, hback, hrest', hposition'⟩ := (hn x ..).1 hy
    refine ⟨front ++ back, ⟨x, front, back, hfront, hback, rfl⟩, ?_, ?_⟩
    · rw [hrest, hrest', List.append_assoc]
    · rw [hposition', hposition, List.length_append, Nat.add_assoc]
  · rintro ⟨_, ⟨x, front, back, hfront, hback, rfl⟩, hrest, hposition⟩
    refine ⟨x, ⟨r.position + front.length, back ++ r'.rest⟩, (h ..).2 ⟨front, hfront, ?_, rfl⟩,
      (hn x ..).2 ⟨back, hback, rfl, ?_⟩⟩
    · rw [hrest, List.append_assoc]
    · rw [hposition, List.length_append, Nat.add_assoc]

theorem Reads.guard {c : Prop} [Decidable c] {e : DecodeError} (h : ¬c → step.Reads form) :
    (if c then throw e else step).Reads fun x bytes => ¬c ∧ form x bytes := by
  split
  · next hc => exact (reads_throw e).of_iff fun _ _ => by simp [hc]
  · next hc => exact (h hc).of_iff fun _ _ => by simp [hc]

theorem Reads.ite {c : Prop} [Decidable c] {other : Read α} (h : c → step.Reads form)
    (h' : ¬c → other.Reads form') :
    (if c then step else other).Reads fun x bytes => (c ∧ form x bytes) ∨ (¬c ∧ form' x bytes) := by
  split
  · next hc => exact (h hc).of_iff fun _ _ => by simp [hc]
  · next hc => exact (h' hc).of_iff fun _ _ => by simp [hc]

end Read

open Read

/-! ### Fields -/

namespace Reader

theorem reads_take (count : Nat) (field : String) :
    (take count field).Reads fun x bytes => x.length = count ∧ bytes = x := by
  intro r r' x
  have h : (take count field).apply r = if (r.rest.take count).length = count then
      (.ok (r.rest.take count), ⟨r.position + count, r.rest.drop count⟩)
      else (.error (.truncated field count r.position r.rest.length), r) := by
    rw [Read.apply, take]
    change (ite _ _ _ : Read Bytes) r = _
    split <;> rfl
  rw [h]
  obtain ⟨position, rest⟩ := r
  obtain ⟨position', rest'⟩ := r'
  split
  · next hl =>
    simp only [Prod.mk.injEq, Except.ok.injEq, Reader.mk.injEq]
    constructor
    · rintro ⟨rfl, rfl, rfl⟩
      exact ⟨_, ⟨hl, rfl⟩, (List.take_append_drop count rest).symm, by rw [hl]⟩
    · rintro ⟨_, ⟨rfl, rfl⟩, rfl, rfl⟩
      simp
  · next hl =>
    simp only [Prod.mk.injEq, reduceCtorEq, false_and, false_iff, not_exists, not_and]
    rintro _ ⟨rfl, rfl⟩ rfl
    simp at hl

/-- A string of a fixed width is taken as any string of that length is. -/
theorem fixed_eq_ok_iff {width : Nat} {field : String} {r r' : Reader} {x : FixedBytes width} :
    (fixed width field).apply r = (.ok x, r') ↔ (take width field).apply r = (.ok x.toList, r') := by
  have ht : (take width field).apply r = if (r.rest.take width).length = width then
      (.ok (r.rest.take width), ⟨r.position + width, r.rest.drop width⟩)
      else (.error (.truncated field width r.position r.rest.length), r) := by
    rw [Read.apply, take]
    change (ite _ _ _ : Read Bytes) r = _
    split <;> rfl
  have hf : (fixed width field).apply r = if h : (r.rest.take width).length = width then
      (.ok ⟨r.rest.take width, h⟩, ⟨r.position + width, r.rest.drop width⟩)
      else (.error (.truncated field width r.position r.rest.length), r) := by
    rw [Read.apply, fixed]
    change (dite _ _ _ : Read (FixedBytes width)) r = _
    split <;> rfl
  rw [ht, hf]
  split <;> simp [FixedBytes.ext_iff]

theorem reads_fixed (width : Nat) (field : String) :
    (fixed width field).Reads fun x bytes => bytes = x.toList := by
  intro r r' x
  rw [fixed_eq_ok_iff, reads_take width field]
  simp

theorem reads_nat (width : Nat) (field : String) :
    (nat width field).Reads fun n bytes => n < 256 ^ width ∧ bytes = littleEndian width n := by
  refine ((reads_take width field).bind fun bytes => reads_pure _).of_iff fun n bytes => ?_
  constructor
  · rintro ⟨x, front, back, ⟨rfl, rfl⟩, ⟨rfl, rfl⟩, rfl⟩
    exact ⟨ofLittleEndian_lt _, by rw [littleEndian_ofLittleEndian, List.append_nil]⟩
  · rintro ⟨hn, rfl⟩
    exact ⟨_, _, [], ⟨length_littleEndian width n, rfl⟩,
      ⟨(ofLittleEndian_littleEndian_of_lt hn).symm, rfl⟩, (List.append_nil _).symm⟩

/-- A word is read as the number that it stands for. -/
theorem reads_word {ω : Type} {width : Nat} {ofNat : Nat → ω} {toNat : ω → Nat}
    (hlt : ∀ x, toNat x < 256 ^ width) (hto : ∀ n < 256 ^ width, toNat (ofNat n) = n)
    (hof : ∀ x, ofNat (toNat x) = x) (field : String) :
    Read.Reads (nat width field >>= fun n => pure (ofNat n))
      fun x bytes => bytes = littleEndian width (toNat x) := by
  refine ((reads_nat width field).bind fun n => reads_pure _).of_iff fun x bytes => ?_
  constructor
  · rintro ⟨n, front, back, ⟨hn, rfl⟩, ⟨rfl, rfl⟩, rfl⟩
    rw [hto n hn, List.append_nil]
  · rintro rfl
    exact ⟨toNat x, _, [], ⟨hlt x, rfl⟩, ⟨(hof x).symm, rfl⟩, (List.append_nil _).symm⟩

theorem reads_u8 (field : String) :
    (u8 field).Reads fun x bytes => bytes = littleEndian 1 x.toNat :=
  reads_word UInt8.toNat_lt (fun _ => UInt8.toNat_ofNat_of_lt) (fun _ => UInt8.ofNat_toNat) field

theorem reads_u16 (field : String) :
    (u16 field).Reads fun x bytes => bytes = littleEndian 2 x.toNat :=
  reads_word UInt16.toNat_lt (fun _ => UInt16.toNat_ofNat_of_lt) (fun _ => UInt16.ofNat_toNat) field

theorem reads_u32 (field : String) :
    (u32 field).Reads fun x bytes => bytes = littleEndian 4 x.toNat :=
  reads_word UInt32.toNat_lt (fun _ => UInt32.toNat_ofNat_of_lt) (fun _ => UInt32.ofNat_toNat) field

theorem reads_u64 (field : String) :
    (u64 field).Reads fun x bytes => bytes = littleEndian 8 x.toNat :=
  reads_word UInt64.toNat_lt (fun _ => UInt64.toNat_ofNat_of_lt) (fun _ => UInt64.ofNat_toNat) field

end Reader

/-! ### Numbers in groups of seven bits -/

namespace Varint

theorem encode_byte {b : UInt8} (h : b.toNat < 128) : encode b.toNat = [b] := by
  rw [encode, if_pos h, UInt8.ofNat_toNat]

theorem encode_group {b : UInt8} {m : Nat} (h : 128 ≤ b.toNat) (hm : 0 < m) :
    encode (b.toNat % 128 + 128 * m) = b :: encode m := by
  have hb := b.toNat_lt
  have hlow : (b.toNat % 128 + 128 * m) % 128 + 128 = b.toNat := by omega
  have hhigh : (b.toNat % 128 + 128 * m) / 128 = m := by omega
  rw [encode, if_neg (by omega), hlow, hhigh, UInt8.ofNat_toNat]

/-- A number is one group, or a group below those of a smaller number. -/
theorem exists_group (n : Nat) : (∃ b : UInt8, b.toNat < 128 ∧ n = b.toNat) ∨
    ∃ (b : UInt8) (m : Nat), 128 ≤ b.toNat ∧ 0 < m ∧ n = b.toNat % 128 + 128 * m := by
  by_cases h : n < 128
  · have hto : (UInt8.ofNat n).toNat = n := UInt8.toNat_ofNat_of_lt (Nat.lt_trans h (by decide))
    exact .inl ⟨UInt8.ofNat n, hto.symm ▸ h, hto.symm⟩
  · have hto : (UInt8.ofNat (n % 128 + 128)).toNat = n % 128 + 128 :=
      UInt8.toNat_ofNat_of_lt (by simp only [UInt8.size]; omega)
    refine .inr ⟨UInt8.ofNat (n % 128 + 128), n / 128, ?_, ?_, ?_⟩ <;> omega

theorem length_encode (n : Nat) : (encode n).length = size n := by
  induction n using encode.induct with
  | case1 n h => rw [encode, if_pos h, size, if_pos h, List.length_singleton]
  | case2 n h ih => rw [encode, if_neg h, size, if_neg h, List.length_cons, ih]

theorem size_pos (n : Nat) : 0 < size n := by
  rw [size]
  split <;> omega

/-- A group fits below a number wherever the number does. -/
theorem group_lt_iff {b m left : Nat} (hb : b < 128) (hm : 0 < m) :
    128 * m < 2 * 128 ^ left ↔ b + 128 * m < 2 * 128 ^ left := by
  cases left with
  | zero => omega
  | succ left =>
    rw [Nat.pow_succ]
    omega

/-- A last group fits unless there is room for one bit only. -/
theorem last_group_lt {b left : Nat} (hb : b < 128) (h : left = 0 → b ≤ 1) : b < 2 * 128 ^ left := by
  cases left with
  | zero =>
    have hbit := h rfl
    omega
  | succ left =>
    have hpos : 0 < 128 ^ left := Nat.pow_pos (by decide)
    rw [Nat.pow_succ]
    omega

/-- A group and what follows it, at the place of the group. -/
theorem add_group_add (value b m index : Nat) :
    value + b * Nat.pow 128 index + m * 128 ^ (index + 1) = value + (b + 128 * m) * 128 ^ index := by
  change value + b * 128 ^ index + _ = _
  rw [Nat.pow_succ, Nat.add_mul, Nat.add_assoc, Nat.mul_comm (128 ^ index), ← Nat.mul_assoc,
    Nat.mul_comm m]

/-- What the groups from the one at `index` on are: those of a number that fits into what is left of
`2 ^ 64`, and that is not zero behind the first group. -/
theorem reads_readFrom (field : String) {index value left : Nat} (h : index + left = maxLength) :
    (readFrom field index value left).Reads fun n bytes =>
      ∃ m, n = value + m * 128 ^ index ∧ 128 * m < 2 * 128 ^ left ∧ (0 < index → 0 < m) ∧
        bytes = encode m := by
  induction left generalizing index value with
  | zero =>
    refine (reads_throw _).of_iff fun n bytes => ?_
    have hindex : 0 < index := by
      simp only [maxLength] at h
      omega
    simp only [false_iff, not_exists, not_and]
    intro m _ hm hpos
    have := hpos hindex
    omega
  | succ left ih =>
    have hlast : index = maxLength - 1 ↔ left = 0 := by
      simp only [maxLength] at h ⊢
      omega
    have hroom : ∀ m, 128 * m < 2 * 128 ^ (left + 1) ↔ m < 2 * 128 ^ left := by
      intro m
      rw [Nat.pow_succ]
      omega
    refine ((Reader.reads_u8 field).bind fun b => Reads.guard fun _ => Reads.ite
      (fun _ => ih (by omega)) fun _ => Reads.guard fun _ => reads_pure _).of_iff fun n bytes => ?_
    simp only [hlast, hroom, add_group_add, littleEndian_uint8]
    constructor
    · rintro ⟨b, front, back, rfl, ⟨hlast, ⟨hb, m, rfl, hm, hpos, rfl⟩ | ⟨hb, hpad, rfl, rfl⟩⟩, rfl⟩
      · have hm0 := hpos (Nat.succ_pos index)
        exact ⟨_, rfl, (group_lt_iff (Nat.mod_lt _ (by decide)) hm0).1 hm, fun _ => by omega,
          (encode_group hb hm0).symm⟩
      · have hb' : b.toNat < 128 := Nat.not_le.1 hb
        refine ⟨b.toNat, by rw [Nat.mod_eq_of_lt hb']; rfl, ?_, fun hi => ?_, (encode_byte hb').symm⟩
        · exact last_group_lt hb' fun hl => by omega
        · omega
    · rintro ⟨n, rfl, hn, hpos, rfl⟩
      rcases exists_group n with ⟨b, hb, rfl⟩ | ⟨b, m, hb, hm, rfl⟩
      · refine ⟨b, [b], [], rfl, ⟨?_, .inr ⟨by omega, by omega, ?_, rfl⟩⟩, encode_byte hb⟩
        · rintro ⟨rfl, h1⟩
          omega
        · rw [Nat.mod_eq_of_lt hb]
          rfl
      · refine ⟨b, [b], encode m, rfl, ⟨?_, .inl ⟨hb, m, rfl, ?_, fun _ => hm, rfl⟩⟩,
          encode_group hb hm⟩
        · rintro ⟨rfl, -⟩
          omega
        · exact (group_lt_iff (Nat.mod_lt _ (by decide)) hm).2 hn

end Varint

/-! ### Counts, fields of any length and items in a row -/

namespace Reader

theorem reads_varint (field : String) :
    (varint field).Reads fun n bytes => n < UInt64.size ∧ bytes = Varint.encode n := by
  refine (Varint.reads_readFrom field rfl).of_iff fun n bytes => ?_
  have hbound : ∀ m, 128 * m < 2 * 128 ^ Varint.maxLength ↔ m < UInt64.size := by
    intro m
    simp only [Varint.maxLength, UInt64.size]
    omega
  constructor
  · rintro ⟨m, rfl, hm, -, rfl⟩
    simpa using (hbound m).1 hm
  · rintro ⟨hn, rfl⟩
    exact ⟨n, by simp, (hbound n).2 hn, fun h => absurd h (Nat.lt_irrefl 0), rfl⟩

theorem reads_count {limit : Nat} (hlimit : limit < UInt64.size) (field : String) :
    (count limit field).Reads fun n bytes => n ≤ limit ∧ bytes = Varint.encode n := by
  refine ((reads_varint field).bind fun n => Reads.guard fun _ => reads_pure _).of_iff fun n bytes => ?_
  constructor
  · rintro ⟨n, front, back, ⟨-, rfl⟩, ⟨hn, rfl, rfl⟩, rfl⟩
    exact ⟨Nat.not_lt.1 hn, List.append_nil _⟩
  · rintro ⟨hn, rfl⟩
    exact ⟨n, _, [], ⟨Nat.lt_of_le_of_lt hn hlimit, rfl⟩, ⟨Nat.not_lt.2 hn, rfl, rfl⟩,
      (List.append_nil _).symm⟩

theorem reads_varBytes {limit : Nat} (hlimit : limit < UInt64.size) (field : String) :
    (varBytes limit field).Reads fun data bytes =>
      data.length ≤ limit ∧ bytes = Varint.encode data.length ++ data := by
  refine ((reads_varint field).bind fun n => Reads.guard fun _ => reads_take n field).of_iff
    fun data bytes => ?_
  constructor
  · rintro ⟨n, front, back, ⟨-, rfl⟩, ⟨hn, rfl, rfl⟩, rfl⟩
    exact ⟨Nat.not_lt.1 hn, rfl⟩
  · rintro ⟨hn, rfl⟩
    exact ⟨data.length, _, data, ⟨Nat.lt_of_le_of_lt hn hlimit, rfl⟩, ⟨Nat.not_lt.2 hn, rfl, rfl⟩, rfl⟩

end Reader

namespace Read

variable {P : α → Prop} {wire : α → Bytes}

/-- Items in a row, each of the same form, read by any recursion that puts them in front of those
read before. -/
theorem reads_onto {item : Nat → Read α} (h : ∀ i, (item i).Reads fun x bytes => P x ∧ bytes = wire x)
    (onto : Nat → Nat → List α → Read (List α))
    (hzero : ∀ i done, onto i 0 done = pure done.reverse)
    (hsucc : ∀ i n done, onto i (n + 1) done = item i >>= fun x => onto (i + 1) n (x :: done))
    (i n : Nat) (done : List α) :
    (onto i n done).Reads fun xs bytes => ∃ more, xs = done.reverse ++ more ∧ more.length = n ∧
      (∀ x ∈ more, P x) ∧ bytes = more.flatMap wire := by
  induction n generalizing i done with
  | zero =>
    rw [hzero]
    refine (reads_pure _).of_iff fun xs bytes => ?_
    constructor
    · rintro ⟨rfl, rfl⟩
      exact ⟨[], by simp⟩
    · rintro ⟨more, rfl, hl, -, rfl⟩
      simp [List.length_eq_zero_iff.1 hl]
  | succ n ih =>
    rw [hsucc]
    refine ((h i).bind fun x => ih (i + 1) (x :: done)).of_iff fun xs bytes => ?_
    constructor
    · rintro ⟨x, front, back, ⟨hx, rfl⟩, ⟨more, rfl, rfl, hmore, rfl⟩, rfl⟩
      exact ⟨x :: more, by simp, rfl, List.forall_mem_cons.2 ⟨hx, hmore⟩, rfl⟩
    · rintro ⟨more, rfl, hl, hmore, rfl⟩
      obtain ⟨x, more, rfl⟩ := List.exists_cons_of_length_eq_add_one hl
      obtain ⟨hx, hmore⟩ := List.forall_mem_cons.1 hmore
      exact ⟨x, wire x, more.flatMap wire, ⟨hx, rfl⟩,
        ⟨more, by simp, Nat.succ.inj hl, hmore, rfl⟩, rfl⟩

theorem reads_readMany {item : Read α} (h : item.Reads fun x bytes => P x ∧ bytes = wire x)
    (n : Nat) :
    (readMany item n).Reads fun xs bytes =>
      xs.length = n ∧ (∀ x ∈ xs, P x) ∧ bytes = xs.flatMap wire := by
  refine (reads_onto (fun _ => h) (fun _ => readOnto item) (fun _ _ => rfl) (fun _ _ _ => rfl)
    0 n []).of_iff fun xs bytes => ?_
  simp

end Read

end UtxoLedger.Wire
