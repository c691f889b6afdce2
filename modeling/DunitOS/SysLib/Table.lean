import Mathlib.Data.List.FinRange

/-!
# Fixed-size tables

A table of `n` entries is a function on `Fin n`. Two loops over a table recur: filling
it entry by entry with a computation that may fail (`fillTable`), which gives
the table of the results when every entry succeeds and the first error otherwise, and
searching for the first entry with a property (`position`).
-/

namespace SysLib

open List Function

variable {n : ℕ} {α ε : Type}

/-! ### Filling a table -/

/-- Fill a table in the order of its indices, giving up at the first failure. -/
def fillTable (f : Fin n → Except ε α) (init : Fin n → α) : Except ε (Fin n → α) :=
  (List.finRange n).foldlM (fun t i => (f i).map (Function.update t i)) init

/-- The loop of `fillTable` over any list of indices, when nothing fails: the
entries of the list hold the results, the others what they held. -/
theorem foldlM_update_ok {f : Fin n → Except ε α} {l : List (Fin n)} (init : Fin n → α)
    {t : Fin n → α} (h : ∀ i ∈ l, f i = .ok (t i)) :
    ∃ r, l.foldlM (fun u i => (f i).map (Function.update u i)) init = .ok r ∧
      ∀ i, r i = if i ∈ l then t i else init i := by
  induction l generalizing init with
  | nil => exact ⟨init, rfl, fun i => by simp⟩
  | cons j l ih =>
    obtain ⟨r, hr, hri⟩ := ih (update init j (t j)) fun i hi =>
      h i (mem_cons_of_mem _ hi)
    refine ⟨r, ?_, fun i => ?_⟩
    · rw [foldlM_cons, h j mem_cons_self]
      exact hr
    · rw [hri]
      by_cases hi : i ∈ l
      · rw [if_pos hi, if_pos (mem_cons_of_mem _ hi)]
      · rw [if_neg hi]
        rcases eq_or_ne i j with rfl | hne
        · rw [update_self, if_pos mem_cons_self]
        · rw [update_of_ne hne, if_neg (by simp [hne, hi])]

/-- The loop of `fillTable` fails when one of its indices does. -/
theorem foldlM_update_error {f : Fin n → Except ε α} {l : List (Fin n)} (init : Fin n → α)
    (h : ∃ i ∈ l, ∃ e, f i = .error e) :
    ∃ i ∈ l, ∃ e, f i = .error e ∧
      l.foldlM (fun u i => (f i).map (Function.update u i)) init = .error e := by
  induction l generalizing init with
  | nil => simp at h
  | cons j l ih =>
    rcases hj : f j with e | a
    · exact ⟨j, mem_cons_self, e, hj, by rw [foldlM_cons, hj]; rfl⟩
    · have h' : ∃ i ∈ l, ∃ e, f i = .error e := by
        obtain ⟨i, hi, e, he⟩ := h
        rcases mem_cons.mp hi with rfl | hi
        · rw [hj] at he
          cases he
        · exact ⟨i, hi, e, he⟩
      obtain ⟨i, hi, e, he, hfold⟩ := ih (update init j a) h'
      refine ⟨i, mem_cons_of_mem _ hi, e, he, ?_⟩
      rw [foldlM_cons, hj]
      exact hfold

/-- **A table that fills**: every entry succeeds with the value found in it. -/
theorem fillTable_ok {f : Fin n → Except ε α} (init : Fin n → α) {t : Fin n → α}
    (h : ∀ i, f i = .ok (t i)) : fillTable f init = .ok t := by
  obtain ⟨r, hr, hri⟩ := foldlM_update_ok init fun i _ => h i
  have : r = t := funext fun i => by rw [hri i, if_pos (mem_finRange i)]
  rw [fillTable, hr, this]

/-- **A table that does not fill** fails with the error of one of its entries. -/
theorem fillTable_error {f : Fin n → Except ε α} (init : Fin n → α)
    (h : ∃ i e, f i = .error e) : ∃ i e, f i = .error e ∧ fillTable f init = .error e := by
  obtain ⟨i, e, he⟩ := h
  obtain ⟨j, -, e', he', hfold⟩ :=
    foldlM_update_error init ⟨i, mem_finRange i, e, he⟩
  exact ⟨j, e', he', hfold⟩

/-- Whether a table fills is decided entry by entry. -/
theorem fillTable_eq_ok_iff {f : Fin n → Except ε α} {init t : Fin n → α} :
    fillTable f init = .ok t ↔ ∀ i, f i = .ok (t i) := by
  refine ⟨fun h => ?_, fillTable_ok init⟩
  by_contra hc
  obtain ⟨i, hi⟩ := not_forall.mp hc
  rcases hf : f i with e | a
  · obtain ⟨-, e', -, he'⟩ := fillTable_error init ⟨i, e, hf⟩
    rw [h] at he'
    cases he'
  · by_cases hall : ∃ j e, f j = .error e
    · obtain ⟨-, e', -, he'⟩ := fillTable_error init hall
      rw [h] at he'
      cases he'
    · have hok : ∀ j, ∃ b, f j = .ok b := fun j => by
        rcases hj : f j with e | b
        · exact absurd ⟨j, e, hj⟩ hall
        · exact ⟨b, rfl⟩
      choose u hu using hok
      rw [fillTable_ok init hu] at h
      cases h
      exact hi (hu i)

/-! ### Changing an entry -/

/-- An entry after a change is the new one or one of the others. -/
theorem update_eq_some {ι : Type} [DecidableEq ι] {t : ι → Option α} {i j : ι} {o : Option α}
    {a : α}
    (h : Function.update t i o j = some a) : (j = i ∧ o = some a) ∨ (j ≠ i ∧ t j = some a) := by
  rcases eq_or_ne j i with rfl | hne
  · rw [update_self] at h
    exact Or.inl ⟨rfl, h⟩
  · rw [update_of_ne hne] at h
    exact Or.inr ⟨hne, h⟩

/-- **A property of all entries after a change**: it has to be shown of the new entry, and
it is kept of the others. -/
theorem forall_update_some {t : Fin n → Option α} {i : Fin n} {o : Option α}
    {P : Fin n → α → Prop} (hi : ∀ a, o = some a → P i a)
    (h : ∀ j a, j ≠ i → t j = some a → P j a) (j : Fin n) (a : α)
    (hj : Function.update t i o j = some a) : P j a := by
  rcases update_eq_some hj with ⟨rfl, ho⟩ | ⟨hne, ht⟩
  · exact hi a ho
  · exact h j a hne ht

/-! ### Searching a table -/

/-- The first index with a property. -/
def position (p : Fin n → Bool) : Option (Fin n) := (List.finRange n).find? p

theorem position_some {p : Fin n → Bool} {i : Fin n} (h : position p = some i) : p i = true :=
  find?_some h

theorem position_eq_none {p : Fin n → Bool} : position p = none ↔ ∀ i, p i = false := by
  rw [position, find?_eq_none]
  exact ⟨fun h i => by simpa using h i (mem_finRange i), fun h i _ => by simp [h i]⟩

end SysLib
