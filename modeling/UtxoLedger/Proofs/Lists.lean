import UtxoLedger.Error
import Mathlib.Data.List.Forall2

/-!
Lists that are taken apart at an element or into pieces, and steps that may fail: over a list, and one
behind the other.
-/

namespace UtxoLedger

/-- An element of a list that has one more at its end is that one, or it stands before. -/
theorem append_cons_eq_concat {α : Type} {pre post xs : List α} {x last : α}
    (h : pre ++ x :: post = xs ++ [last]) :
    (pre = xs ∧ x = last ∧ post = []) ∨
      ∃ post', post = post' ++ [last] ∧ pre ++ x :: post' = xs := by
  rcases List.eq_nil_or_concat post with rfl | ⟨post', y, rfl⟩
  · obtain ⟨hpre, hx⟩ := List.append_inj' h rfl
    exact .inl ⟨hpre, List.singleton_inj.1 hx, rfl⟩
  · rw [List.concat_eq_append, ← List.cons_append, ← List.append_assoc] at h
    obtain ⟨hxs, hy⟩ := List.append_inj' h rfl
    obtain rfl := List.singleton_inj.1 hy
    exact .inr ⟨post', List.concat_eq_append, hxs⟩

/-- A list can be told from the pieces that its elements make, one behind the other, if each element
can be told from the front of what its piece stands at. -/
theorem eq_of_flatMap_eq {α β : Type} {f : α → List β} {as bs : List α} (hne : ∀ a, f a ≠ [])
    (hf : ∀ a ∈ as, ∀ b ∈ bs, ∀ xs ys, f a ++ xs = f b ++ ys → a = b)
    (h : as.flatMap f = bs.flatMap f) : as = bs := by
  induction as generalizing bs with
  | nil =>
    cases bs with
    | nil => rfl
    | cons b bs => simp [hne] at h
  | cons a as ih =>
    cases bs with
    | nil => simp [hne] at h
    | cons b bs =>
      rw [List.flatMap_cons, List.flatMap_cons] at h
      obtain rfl := hf a List.mem_cons_self b List.mem_cons_self _ _ h
      rw [ih (fun a' ha b' hb => hf a' (List.mem_cons_of_mem _ ha) b' (List.mem_cons_of_mem _ hb))
        (List.append_cancel_left h)]

theorem eq_of_flatMap_eq_of_length {α β : Type} {f : α → List β} {n : Nat} {as bs : List α}
    (hlen : ∀ a, (f a).length = n) (hn : n ≠ 0) (hf : ∀ a b, f a = f b → a = b)
    (h : as.flatMap f = bs.flatMap f) : as = bs := by
  refine eq_of_flatMap_eq (fun a ha => hn ?_) (fun a _ b _ xs ys he => hf a b ?_) h
  · rw [← hlen a, ha, List.length_nil]
  · exact (List.append_inj he ((hlen a).trans (hlen b).symm)).1

section Steps

variable {ε α β : Type} {f : α → Except ε β}

/-- A function behind a step that may fail. -/
theorem map_eq_ok_iff {x : Except ε α} {g : α → β} {b : β} :
    x.map g = .ok b ↔ ∃ a, x = .ok a ∧ g a = b := by
  cases x <;> simp [Except.map]

/-- A step behind a step that may fail. -/
theorem except_bind_eq_ok_iff {x : Except ε α} {f : α → Except ε β} {b : β} :
    (x >>= f) = .ok b ↔ ∃ a, x = .ok a ∧ f a = .ok b := by
  cases x <;> simp [bind, Except.bind]

/-- Steps that may fail, over a list: they succeed together if each one does. -/
theorem mapM_eq_ok_iff {xs : List α} {ys : List β} :
    xs.mapM f = .ok ys ↔ List.Forall₂ (fun x y => f x = .ok y) xs ys := by
  induction xs generalizing ys with
  | nil => simp [pure, Except.pure, eq_comm]
  | cons x xs ih =>
    rw [List.mapM_cons, List.forall₂_cons_left_iff]
    cases f x with
    | error e => simp [bind, Except.bind]
    | ok y =>
      simp only [Except.ok.injEq, ← ih]
      cases xs.mapM f <;> simp [bind, Except.bind, pure, Except.pure, eq_comm]

theorem exists_mapM_eq_ok {xs : List α} (h : ∀ x ∈ xs, ∃ y, f x = .ok y) :
    ∃ ys, xs.mapM f = .ok ys := by
  induction xs with
  | nil => exact ⟨[], rfl⟩
  | cons x xs ih =>
    obtain ⟨y, hy⟩ := h x List.mem_cons_self
    obtain ⟨ys, hys⟩ := ih fun x' hx' => h x' (List.mem_cons_of_mem _ hx')
    exact ⟨y :: ys, mapM_eq_ok_iff.2 (.cons hy (mapM_eq_ok_iff.1 hys))⟩

theorem mem_of_mapM_eq_ok {xs : List α} {ys : List β} (h : xs.mapM f = .ok ys) {y : β} :
    y ∈ ys ↔ ∃ x ∈ xs, f x = .ok y := by
  rw [mapM_eq_ok_iff] at h
  induction h with
  | nil => simp
  | @cons x y' xs ys hx _ ih =>
    rw [List.mem_cons, ih, List.exists_mem_cons_iff, hx, Except.ok.injEq, eq_comm]

/-- Steps over a list fail where one of them does. -/
theorem exists_of_mapM_eq_error {xs : List α} {e : ε} (h : xs.mapM f = .error e) :
    ∃ x ∈ xs, f x = .error e := by
  induction xs with
  | nil => cases h
  | cons x xs ih =>
    rw [List.mapM_cons] at h
    cases hx : f x with
    | error found =>
      rw [hx] at h
      cases h
      exact ⟨x, List.mem_cons_self, hx⟩
    | ok y =>
      rw [hx] at h
      cases hxs : xs.mapM f with
      | error found =>
        rw [hxs] at h
        cases h
        obtain ⟨x', hmem, hfail⟩ := ih hxs
        exact ⟨x', List.mem_cons_of_mem _ hmem, hfail⟩
      | ok ys =>
        rw [hxs] at h
        cases h

end Steps

theorem exists_error_of_ne_ok {ε α : Type} {result : Except ε α} (h : ∀ x, result ≠ .ok x) :
    ∃ e, result = .error e := by
  cases result with
  | error e => exact ⟨e, rfl⟩
  | ok x => exact absurd rfl (h x)

section Bind

variable {ε σ α β : Type} {first : ExceptT ε (StateM σ) α} {second : α → ExceptT ε (StateM σ) β}
  {s after : σ} {y : β} {e : ε}

/-- Steps that change a state and may fail, one after the other. -/
theorem bind_apply (first : ExceptT ε (StateM σ) α) (second : α → ExceptT ε (StateM σ) β) (s : σ) :
    (show Except ε β × σ from (first >>= second) s) =
      match (show Except ε α × σ from first s) with
      | (.ok x, between) => second x between
      | (.error e, between) => (.error e, between) := by
  change (ExceptT.bindCont second (first s).1) (first s).2 = _
  rcases first s with ⟨e | x, between⟩ <;> rfl

/-- They succeed together if the first does and the second does after it. -/
theorem bind_eq_ok_iff : (show Except ε β × σ from (first >>= second) s) = (.ok y, after) ↔
    ∃ x between, (show Except ε α × σ from first s) = (.ok x, between) ∧
      (show Except ε β × σ from second x between) = (.ok y, after) := by
  rw [bind_apply]
  rcases (show Except ε α × σ from first s) with ⟨e | x, between⟩
  · simp
  · simp only [Prod.mk.injEq, Except.ok.injEq]
    constructor
    · exact fun hn => ⟨x, between, ⟨rfl, rfl⟩, hn⟩
    · rintro ⟨_, _, ⟨rfl, rfl⟩, hn⟩
      exact hn

/-- They fail together if the first does, or the second does after it. -/
theorem bind_eq_error_iff : (show Except ε β × σ from (first >>= second) s) = (.error e, after) ↔
    (show Except ε α × σ from first s) = (.error e, after) ∨
      ∃ x between, (show Except ε α × σ from first s) = (.ok x, between) ∧
        (show Except ε β × σ from second x between) = (.error e, after) := by
  rw [bind_apply]
  rcases (show Except ε α × σ from first s) with ⟨found | x, between⟩
  · simp
  · simp only [Prod.mk.injEq, Except.ok.injEq, reduceCtorEq, false_and, false_or]
    constructor
    · exact fun hn => ⟨x, between, ⟨rfl, rfl⟩, hn⟩
    · rintro ⟨_, _, ⟨rfl, rfl⟩, hn⟩
      exact hn

end Bind

/-! ### Programs over a state -/

theorem run_bind_eq_ok_iff {ε σ α β : Type} {x : EStateM ε σ α} {f : α → EStateM ε σ β}
    {state after : σ} {b : β} : (x >>= f).run state = .ok b after ↔
      ∃ a between, x.run state = .ok a between ∧ (f a).run between = .ok b after := by
  rw [EStateM.run_bind]
  cases x.run state <;> simp

theorem run_ofExcept {ε σ α : Type} (x : Except ε α) (state : σ) :
    (MonadExcept.ofExcept x : EStateM ε σ α).run state =
      match x with
      | .ok a => .ok a state
      | .error e => .error e state := by
  cases x <;> rfl

theorem run_forM_modify {ε σ α : Type} (f : σ → α → σ) (xs : List α) (state : σ) :
    (xs.forM fun x => modify (f · x) : EStateM ε σ Unit).run state = .ok () (xs.foldl f state) := by
  induction xs generalizing state with
  | nil => rfl
  | cons x xs ih => exact ih (f state x)

end UtxoLedger
