import Mathlib.Data.List.Basic

/-!
# Lists of entries that are found by a test

A small store keeps its entries in a list: an entry is found by the first position where a test
holds, and is changed or removed there. What such a change leaves alone is what the rest of the
list shows, here in the form of a filter (`filter_modify_of_not`).
-/

namespace SysLib

open List Option

variable {α : Type} {p q : α → Bool} {l : List α} {i : ℕ} {a : α}

/-- **The first entry that passes a test**, by its position and as itself. -/
theorem findIdx?_some (h : l.findIdx? p = some i) : l[i]? = some a ↔ l.find? p = some a := by
  rw [find?_eq_bind_findIdx?_getElem?, h]
  rfl

/-- A position that was found is one of the list. -/
theorem exists_of_findIdx? (h : l.findIdx? p = some i) : ∃ a, l[i]? = some a ∧ p a = true := by
  obtain ⟨hi, hp, -⟩ := findIdx?_eq_some_iff_getElem.mp h
  exact ⟨l[i], getElem?_eq_getElem hi, hp⟩

/-- Nothing is found by the one search and by the other. -/
theorem findIdx?_eq_none_iff_find? : l.findIdx? p = none ↔ l.find? p = none := by
  rw [findIdx?_eq_none_iff, find?_eq_none]
  exact forall₂_congr fun a _ => by simp

/-- The entry that a search finds, changed where it is, is still what the search finds. -/
theorem find?_modify {f : α → α} (h : l.findIdx? p = some i) (hf : ∀ a, p (f a) = p a) :
    (l.modify i f).find? p = (l.find? p).map f := by
  induction l generalizing i with
  | nil => simp at h
  | cons b l ih =>
    rw [findIdx?_cons] at h
    by_cases hb : p b
    · rw [if_pos hb] at h
      cases h
      rw [modify_zero_cons, find?_cons_of_pos hb, find?_cons_of_pos (by rwa [hf b])]
      rfl
    · rw [if_neg hb, map_eq_some_iff] at h
      obtain ⟨j, hj, rfl⟩ := h
      rw [modify_succ_cons, find?_cons_of_neg hb, find?_cons_of_neg hb, ih hj]

/-! ### What a change leaves alone -/

/-- An entry that does not pass a test is not missed. -/
theorem filter_eq_of_not (h : l[i]? = some a) (ha : p a = false) :
    l.filter p = (l.take i).filter p ++ (l.drop (i + 1)).filter p := by
  obtain ⟨hi, rfl⟩ := List.getElem?_eq_some_iff.mp h
  conv_lhs => rw [← take_append_drop i l, drop_eq_getElem_cons hi]
  rw [filter_append, filter_cons_of_neg (by simp [ha])]

theorem filter_eraseIdx_of_not (h : l[i]? = some a) (ha : p a = false) :
    (l.eraseIdx i).filter p = l.filter p := by
  rw [eraseIdx_eq_take_drop_succ, filter_append, filter_eq_of_not h ha]

theorem filter_modify_of_not {f : α → α} (h : l[i]? = some a) (ha : p a = false)
    (hf : p (f a) = false) : (l.modify i f).filter p = l.filter p := by
  rw [filter_eq_of_not h ha]
  obtain ⟨hi, rfl⟩ := List.getElem?_eq_some_iff.mp h
  rw [modify_eq_take_cons_drop hi, filter_append, filter_cons_of_neg (by simp [hf])]

/-- A map that leaves alone what passes the test and lets nothing else pass it. -/
theorem filter_map_of_fixes {f : α → α} (h : ∀ a ∈ l, p a = true → f a = a)
    (h' : ∀ a ∈ l, p a = false → p (f a) = false) : (l.map f).filter p = l.filter p := by
  induction l with
  | nil => rfl
  | cons b l ih =>
    have hl := ih (fun a ha => h a (mem_cons_of_mem _ ha))
      fun a ha => h' a (mem_cons_of_mem _ ha)
    rw [map_cons, filter_cons, filter_cons, hl]
    rcases hb : p b with _ | _
    · rw [h' b mem_cons_self hb]
      rfl
    · rw [h b mem_cons_self hb, hb]

/-- A search for entries that all pass a test sees only the entries that pass it. -/
theorem find?_filter_of_imp (h : ∀ a, q a = true → p a = true) :
    (l.filter p).find? q = l.find? q := by
  rw [find?_filter]
  refine congrArg (fun r => find? r l) (funext fun a => ?_)
  rcases hq : q a with _ | _
  · simp
  · simp [h a hq]

/-- The entries of a list that was changed at one position. -/
theorem mem_modify {f : α → α} {b : α} (h : b ∈ l.modify i f) : b ∈ l ∨ ∃ a ∈ l, b = f a := by
  obtain ⟨j, hj⟩ := mem_iff_getElem?.mp h
  rw [getElem?_modify] at hj
  obtain ⟨a, ha, rfl⟩ := map_eq_some_iff.mp hj
  have hmem := mem_of_getElem? ha
  split_ifs
  · exact Or.inr ⟨a, hmem, rfl⟩
  · exact Or.inl hmem

end SysLib
