import UtxoLedger.Sum
import UtxoLedger.Table
import Mathlib.Data.List.Nodup

/-!
Tables through their entries: looking a key up, a table without some keys, a table with pairs behind
it, and the series of insertions and erasures that leave such tables.
-/

namespace UtxoLedger.Table

variable {κ ν : Type}

@[ext]
theorem ext {t u : Table κ ν} (h : t.entries = u.entries) : t = u := by
  cases t
  cases u
  simpa using h

@[simp]
theorem keys_empty : (empty : Table κ ν).keys = [] := rfl

theorem mem_keys {t : Table κ ν} {k : κ} : k ∈ t.keys ↔ ∃ v, (k, v) ∈ t.entries := by
  simp [keys]

/-- The table with pairs behind its entries. -/
def extend (t : Table κ ν) (pairs : List (κ × ν)) : Table κ ν :=
  ⟨t.entries ++ pairs⟩

@[simp]
theorem keys_extend (t : Table κ ν) (pairs : List (κ × ν)) :
    (t.extend pairs).keys = t.keys ++ pairs.map Prod.fst := by
  simp [extend, keys]

@[simp]
theorem values_extend (t : Table κ ν) (pairs : List (κ × ν)) :
    (t.extend pairs).values = t.values ++ pairs.map Prod.snd := by
  simp [extend, values]

@[simp]
theorem extend_nil (t : Table κ ν) : t.extend [] = t := by
  ext1
  simp [extend]

theorem extend_extend (t : Table κ ν) (pairs more : List (κ × ν)) :
    (t.extend pairs).extend more = t.extend (pairs ++ more) := by
  ext1
  simp [extend]

variable [DecidableEq κ]

/-- The table without some keys. -/
def without (t : Table κ ν) (ks : List κ) : Table κ ν :=
  ⟨t.entries.filter fun e => e.1 ∉ ks⟩

/-! ### Keys -/

@[simp]
theorem contains_iff {t : Table κ ν} {k : κ} : t.contains k = true ↔ k ∈ t.keys := by
  simp [contains, keys]

@[simp]
theorem contains_eq_false_iff {t : Table κ ν} {k : κ} : t.contains k = false ↔ k ∉ t.keys := by
  rw [← contains_iff, Bool.not_eq_true]

theorem keys_without (t : Table κ ν) (ks : List κ) :
    (t.without ks).keys = t.keys.filter (· ∉ ks) := by
  simp [without, keys, List.filter_map, Function.comp_def]

@[simp]
theorem mem_keys_without {t : Table κ ν} {ks : List κ} {k : κ} :
    k ∈ (t.without ks).keys ↔ k ∈ t.keys ∧ k ∉ ks := by
  simp [keys_without]

/-! ### Looking up -/

theorem get?_eq_none_iff {t : Table κ ν} {k : κ} : t.get? k = none ↔ k ∉ t.keys := by
  rw [get?, Option.map_eq_none_iff, List.find?_eq_none, mem_keys]
  constructor
  · rintro h ⟨v, hv⟩
    exact h _ hv (by simp)
  · rintro h ⟨k', v⟩ hv hk
    have hk' : k' = k := by simpa using hk
    exact h ⟨v, hk' ▸ hv⟩

theorem mem_keys_of_get? {t : Table κ ν} {k : κ} {v : ν} (h : t.get? k = some v) : k ∈ t.keys := by
  by_contra hk
  rw [get?_eq_none_iff.2 hk] at h
  cases h

theorem mem_of_get? {t : Table κ ν} {k : κ} {v : ν} (h : t.get? k = some v) :
    (k, v) ∈ t.entries := by
  obtain ⟨e, he, rfl⟩ := Option.map_eq_some_iff.1 h
  have hk : e.1 = k := by simpa using List.find?_some he
  subst hk
  exact List.mem_of_find?_eq_some he

theorem get?_eq_some_iff {t : Table κ ν} (ht : t.keys.Nodup) {k : κ} {v : ν} :
    t.get? k = some v ↔ (k, v) ∈ t.entries := by
  refine ⟨mem_of_get?, fun hv => ?_⟩
  cases hk : t.get? k with
  | none => exact absurd (mem_keys.2 ⟨v, hv⟩) (get?_eq_none_iff.1 hk)
  | some v' =>
    have he : (k, v') = (k, v) := List.inj_on_of_nodup_map ht (mem_of_get? hk) hv rfl
    rw [(Prod.mk.inj he).2]

theorem get?_extend (t : Table κ ν) (pairs : List (κ × ν)) (k : κ) :
    (t.extend pairs).get? k = (t.get? k).or ((⟨pairs⟩ : Table κ ν).get? k) := by
  simp only [get?, extend, List.find?_append]
  cases t.entries.find? fun e => e.1 = k <;> rfl

theorem get?_without (t : Table κ ν) (ks : List κ) (k : κ) :
    (t.without ks).get? k = if k ∈ ks then none else t.get? k := by
  split
  · next h => exact get?_eq_none_iff.2 (by simp [h])
  · next h =>
    rw [get?, get?, without, List.find?_filter]
    congr 2
    funext e
    by_cases he : e.1 = k
    · simp [he, h]
    · simp [he]

/-! ### Single steps and series of steps -/

theorem erase_eq_without (t : Table κ ν) (k : κ) : t.erase k = t.without [k] := by
  simp [erase, without]

theorem erase_eq_self {t : Table κ ν} {k : κ} (h : k ∉ t.keys) : t.erase k = t := by
  ext1
  refine List.filter_eq_self.2 fun e he => ?_
  have hne : e.1 ≠ k := fun hk => h (hk ▸ List.mem_map_of_mem he)
  simpa using hne

theorem insert_eq_extend {t : Table κ ν} {k : κ} (h : k ∉ t.keys) (v : ν) :
    t.insert k v = t.extend [(k, v)] := by
  rw [insert, contains_eq_false_iff.2 h]
  rfl

theorem get?_insert (t : Table κ ν) (k : κ) (v : ν) (k' : κ) :
    (t.insert k v).get? k' = if k' = k then some v else t.get? k' := by
  by_cases hk : k ∈ t.keys
  · have hc : t.contains k = true := contains_iff.2 hk
    -- the new pair stands where its key stood, so that keys are found where they were
    have hkeys : (fun e : κ × ν => decide (e.1 = k')) ∘ (fun e => if e.1 = k then (k, v) else e) =
        fun e => decide (e.1 = k') := by
      funext e
      by_cases he : e.1 = k <;> simp [he]
    rw [insert, hc, if_pos rfl, get?, get?, List.find?_map, hkeys]
    cases hf : t.entries.find? fun e => e.1 = k' with
    | none =>
      have hne : k' ≠ k := by
        rintro rfl
        obtain ⟨v', hv⟩ := mem_keys.1 hk
        simpa using List.find?_eq_none.1 hf _ hv
      simp [hne]
    | some e =>
      have he : e.1 = k' := by simpa using List.find?_some hf
      by_cases hk' : k' = k <;> simp [he, hk']
  · rw [insert_eq_extend hk, get?_extend]
    by_cases he : k' = k
    · subst he
      rw [get?_eq_none_iff.2 hk, if_pos rfl]
      simp [get?]
    · rw [if_neg he]
      have hnone : (⟨[(k, v)]⟩ : Table κ ν).get? k' = none := by simp [get?, Ne.symm he]
      rw [hnone, Option.or_none]

/-- A value is found once it is there or comes in, if nothing else comes in under its key. -/
theorem get?_insertMany {t : Table κ ν} {pairs : List (κ × ν)} {k : κ} {v : ν}
    (hagree : ∀ e ∈ pairs, e.1 = k → e.2 = v) (h : (k, v) ∈ pairs ∨ t.get? k = some v) :
    (t.insertMany pairs).get? k = some v := by
  induction pairs generalizing t with
  | nil => simpa [insertMany] using h
  | cons e pairs ih =>
    have hrest : ∀ e' ∈ pairs, e'.1 = k → e'.2 = v := fun e' he' =>
      hagree e' (List.mem_cons_of_mem _ he')
    change ((t.insert e.1 e.2).insertMany pairs).get? k = some v
    refine ih hrest ?_
    by_cases hk : e.1 = k
    · right
      rw [get?_insert, if_pos hk.symm, hagree e List.mem_cons_self hk]
    · rw [get?_insert, if_neg (Ne.symm hk)]
      refine h.imp_left fun hmem => ?_
      have hne : (k, v) ≠ e := fun he => hk (he ▸ rfl)
      exact (List.mem_cons.1 hmem).resolve_left hne

@[simp]
theorem without_nil (t : Table κ ν) : t.without [] = t := by
  ext1
  simp [without]

theorem without_without (t : Table κ ν) (ks ls : List κ) :
    (t.without ks).without ls = t.without (ks ++ ls) := by
  ext1
  simp only [without, List.filter_filter, List.mem_append, not_or]
  congr 1
  funext e
  rw [Bool.and_comm, Bool.decide_and]

theorem without_extend (t : Table κ ν) (pairs : List (κ × ν)) (ks : List κ) :
    (t.extend pairs).without ks = (t.without ks).extend (pairs.filter fun e => e.1 ∉ ks) := by
  ext1
  simp [extend, without]

theorem without_congr {t : Table κ ν} {ks ls : List κ} (h : ∀ k ∈ t.keys, k ∈ ks ↔ k ∈ ls) :
    t.without ks = t.without ls := by
  ext1
  refine List.filter_congr fun e he => ?_
  exact decide_eq_decide.2 (not_congr (h e.1 (List.mem_map_of_mem he)))

theorem eraseMany_eq_without (t : Table κ ν) (ks : List κ) : t.eraseMany ks = t.without ks := by
  induction ks generalizing t with
  | nil => simp [eraseMany]
  | cons k ks ih =>
    change (t.erase k).eraseMany ks = _
    rw [ih, erase_eq_without, without_without]
    rfl

theorem insertMany_eq_extend {t : Table κ ν} {pairs : List (κ × ν)}
    (hn : (pairs.map Prod.fst).Nodup) (hf : ∀ e ∈ pairs, e.1 ∉ t.keys) :
    t.insertMany pairs = t.extend pairs := by
  induction pairs generalizing t with
  | nil => simp [insertMany]
  | cons e pairs ih =>
    rw [List.map_cons, List.nodup_cons] at hn
    have he : e.1 ∉ t.keys := hf e List.mem_cons_self
    change (t.insert e.1 e.2).insertMany pairs = _
    rw [insert_eq_extend he, ih hn.2, extend_extend]
    · rfl
    · intro e' h'
      have hne : e'.1 ≠ e.1 := fun h => hn.1 (h ▸ List.mem_map_of_mem h')
      simpa [hne] using hf e' (List.mem_cons_of_mem _ h')

/-! ### Sums over values -/

/-- Taking a key away takes its value off the sum. -/
theorem sumOf_without_singleton {t : Table κ ν} (f : ν → Nat) (ht : t.keys.Nodup) {k : κ} {v : ν}
    (h : t.get? k = some v) : sumOf f (t.without [k]).values + f v = sumOf f t.values := by
  obtain ⟨before, behind, he⟩ := List.append_of_mem (mem_of_get? h)
  rw [keys, he, List.map_append, List.map_cons, List.nodup_append, List.nodup_cons] at ht
  have hbefore : ∀ e ∈ before, e.1 ≠ k := fun e hm =>
    ht.2.2 e.1 (List.mem_map_of_mem hm) k List.mem_cons_self
  have hbehind : ∀ e ∈ behind, e.1 ≠ k := by
    rintro e hm rfl
    exact ht.2.1.1 (List.mem_map.2 ⟨e, hm, rfl⟩)
  have hw : (t.without [k]).entries = before ++ behind := by
    rw [without, he, List.filter_append, List.filter_cons_of_neg (by simp),
      List.filter_eq_self.2 (by simpa using hbefore),
      List.filter_eq_self.2 (by simpa using hbehind)]
  rw [values, values, hw, he]
  simp only [List.map_append, List.map_cons, sumOf_append, sumOf_cons]
  omega

/-- Taking keys away takes their values off the sum. -/
theorem sumOf_without {t : Table κ ν} (f : ν → Nat) (ht : t.keys.Nodup) {ks : List κ}
    {vs : List ν} (hn : ks.Nodup) (h : ks.map t.get? = vs.map some) :
    sumOf f (t.without ks).values + sumOf f vs = sumOf f t.values := by
  induction ks generalizing t vs with
  | nil =>
    obtain rfl : vs = [] := List.map_eq_nil_iff.1 h.symm
    simp
  | cons k ks ih =>
    obtain ⟨hk, hks⟩ := List.nodup_cons.1 hn
    obtain ⟨v, vs, rfl⟩ : ∃ v vs', vs = v :: vs' := by
      refine List.exists_cons_of_ne_nil ?_
      rintro rfl
      simp at h
    obtain ⟨hv, hvs⟩ : t.get? k = some v ∧ ks.map t.get? = vs.map some := by simpa using h
    -- the other keys are found as before: none of them is `k`
    have hrest : ks.map (t.without [k]).get? = vs.map some := by
      rw [← hvs]
      refine List.map_congr_left fun k' hk' => ?_
      have hne : k' ≠ k := fun he => hk (he ▸ hk')
      simp [get?_without, hne]
    have hkeys : (t.without [k]).keys.Nodup := by
      rw [keys_without]
      exact ht.filter _
    have hstep := sumOf_without_singleton f ht hv
    have hsteps := ih hkeys hks hrest
    rw [without_without, List.singleton_append] at hsteps
    rw [sumOf_cons]
    omega

end UtxoLedger.Table
