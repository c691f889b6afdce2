import Mathlib.Algebra.GroupWithZero.Nat
import Mathlib.Data.List.Induction
import Mathlib.Data.List.Perm.Basic

/-!
# Sums over an ordered map

Ordered maps are those of the standard library (`Std.ExtTreeMap`): two of them are equal
when they hold the same entries. This file adds the sum of a weight over the entries of a
map (`sumOver`), which is how a counter kept beside a map is specified, and what
inserting, replacing and removing one entry does to it.
-/

namespace SysLib

open Std ExtTreeMap

variable {κ β : Type} [Ord κ] [TransOrd κ] [LawfulEqOrd κ] {t : ExtTreeMap κ β} {k a : κ} {v w : β}

theorem getElem?_insert_of_ne (h : k ≠ a) : (t.insert k v)[a]? = t[a]? := by
  rw [getElem?_insert, if_neg]
  simpa using h

/-- An entry of a map after one is put is that one, or was there. -/
theorem of_getElem?_insert (h : (t.insert k v)[a]? = some w) :
    (k = a ∧ v = w) ∨ (k ≠ a ∧ t[a]? = some w) := by
  rcases eq_or_ne k a with rfl | ha
  · rw [getElem?_insert_self] at h
    exact .inl ⟨rfl, Option.some.inj h⟩
  · rw [getElem?_insert_of_ne ha] at h
    exact .inr ⟨ha, h⟩

/-- What is seen of every entry stays if it does at the entry that is put. -/
theorem view_insert {γ : Type} {f : Option β → γ} (h : f (some v) = f t[k]?) :
    f (t.insert k v)[a]? = f t[a]? := by
  by_cases ha : k = a
  · subst ha
    rw [getElem?_insert_self, h]
  · rw [getElem?_insert_of_ne ha]

theorem getElem?_erase_of_ne (h : k ≠ a) : (t.erase k)[a]? = t[a]? := by
  rw [getElem?_erase, if_neg]
  simpa using h

theorem of_getElem?_erase (h : (t.erase k)[a]? = some w) : k ≠ a ∧ t[a]? = some w := by
  rcases eq_or_ne k a with rfl | ha
  · rw [getElem?_erase_self] at h
    cases h
  · rw [getElem?_erase_of_ne ha] at h
    exact ⟨ha, h⟩

theorem view_erase {γ : Type} {f : Option β → γ} (h : f none = f t[k]?) :
    f (t.erase k)[a]? = f t[a]? := by
  by_cases ha : k = a
  · subst ha
    rw [getElem?_erase_self, h]
  · rw [getElem?_erase_of_ne ha]

/-- A later insertion at the same key replaces the earlier one. -/
theorem insert_insert : (t.insert k v).insert k w = t.insert k w := by
  refine ext_getElem? fun a => ?_
  simp only [getElem?_insert]
  split_ifs <;> rfl

/-- Putting an entry back changes nothing. -/
theorem insert_of_getElem? (h : t[k]? = some v) : t.insert k v = t := by
  refine ext_getElem? fun a => ?_
  rw [getElem?_insert]
  split_ifs with ha
  · obtain rfl : k = a := by simpa using ha
    exact h.symm
  · rfl

theorem insert_erase : (t.erase k).insert k v = t.insert k v := by
  refine ext_getElem? fun a => ?_
  simp only [getElem?_insert, getElem?_erase]
  split_ifs <;> rfl

/-- An entry that is added and taken away again. -/
theorem erase_insert_of_none (h : t[k]? = none) : (t.insert k v).erase k = t := by
  refine ext_getElem? fun a => ?_
  rw [getElem?_erase, getElem?_insert]
  split_ifs with ha
  · rw [← compare_eq_iff_eq.mp ha, h]
  · rfl

theorem erase_of_none (h : t[k]? = none) : t.erase k = t := by
  refine ext_getElem? fun a => ?_
  by_cases ha : k = a
  · subst ha
    rw [h, getElem?_erase_self]
  · exact getElem?_erase_of_ne ha

theorem getElem?_modify_of_ne {f : β → β} (h : k ≠ a) : (t.modify k f)[a]? = t[a]? := by
  rw [getElem?_modify, if_neg]
  simpa using h

/-- Changing an entry that is there. -/
theorem modify_eq_insert {f : β → β} (h : t[k]? = some v) : t.modify k f = t.insert k (f v) := by
  refine ext_getElem? fun a => ?_
  by_cases ha : k = a
  · subst ha
    rw [getElem?_modify_self, h, getElem?_insert_self, Option.map_some]
  · rw [getElem?_modify_of_ne ha, getElem?_insert_of_ne ha]

/-- Changing an entry that is not there. -/
theorem modify_of_none {f : β → β} (h : t[k]? = none) : t.modify k f = t := by
  refine ext_getElem? fun a => ?_
  by_cases ha : k = a
  · subst ha
    rw [getElem?_modify_self, h, Option.map_none]
  · rw [getElem?_modify_of_ne ha]

/-! ### Sums -/

/-- The sum of a weight over the entries of a map. -/
def sumOver (f : β → ℕ) (t : ExtTreeMap κ β) : ℕ := (t.toList.map fun e => f e.2).sum

theorem nodup_toList : t.toList.Nodup := by
  refine (distinct_keys_toList (t := t)).imp fun {a b} h hab => h ?_
  rw [hab]
  exact ReflOrd.compare_self

/-- **Where a new entry goes** does not matter for what the map holds. -/
theorem toList_insert_perm (h : t[k]? = none) :
    (t.insert k v).toList.Perm ((k, v) :: t.toList) := by
  have hk : (k, v) ∉ t.toList := by
    rw [mem_toList_iff_getElem?_eq_some, h]
    simp
  refine (List.perm_ext_iff_of_nodup nodup_toList
    (List.nodup_cons.mpr ⟨hk, nodup_toList⟩)).mpr fun ⟨a, b⟩ => ?_
  rw [List.mem_cons, mem_toList_iff_getElem?_eq_some,
    mem_toList_iff_getElem?_eq_some, getElem?_insert]
  by_cases ha : k = a
  · subst ha
    simp [h, eq_comm]
  · simp [ha, Ne.symm ha]

theorem sumOver_insert_of_none (f : β → ℕ) (h : t[k]? = none) :
    sumOver f (t.insert k v) = f v + sumOver f t := by
  rw [sumOver, ((toList_insert_perm h).map _).sum_nat, List.map_cons, List.sum_cons, sumOver]

/-- **Removing an entry** takes its weight away. -/
theorem sumOver_erase (f : β → ℕ) (h : t[k]? = some v) :
    f v + sumOver f (t.erase k) = sumOver f t := by
  have hnone : (t.erase k)[k]? = none := getElem?_erase_self
  rw [← sumOver_insert_of_none f hnone, insert_erase, insert_of_getElem? h]

omit [LawfulEqOrd κ] in
theorem sumOver_map {γ : Type} (f : γ → ℕ) {g : β → γ} :
    sumOver f (t.map fun _ b => g b) = sumOver (fun b => f (g b)) t := by
  rw [sumOver, toList_map, List.map_map, sumOver]
  rfl

/-- **What the weight sees is all that matters**: two maps that agree on it have the same
sum. -/
theorem sumOver_congr {f : β → ℕ} {t' : ExtTreeMap κ β} (h : ∀ a : κ, t'[a]?.map f = t[a]?.map f) :
    sumOver f t' = sumOver f t := by
  have hmap : (t'.map fun _ b => f b) = t.map fun _ b => f b := by
    refine ext_getElem? fun a => ?_
    rw [getElem?_map, getElem?_map, h]
  rw [← sumOver_map (fun n => n), hmap, sumOver_map]

/-- The weight of an entry, or zero if there is none. -/
def weightAt (f : β → ℕ) (t : ExtTreeMap κ β) (a : κ) : ℕ := (t[a]?.map f).getD 0

/-- An entry counts with its weight. -/
theorem weightAt_add_sumOver_erase {f : β → ℕ} (t : ExtTreeMap κ β) :
    weightAt f t k + sumOver f (t.erase k) = sumOver f t := by
  rcases h : t[k]? with _ | v
  · rw [weightAt, h, erase_of_none h, Option.map_none, Option.getD_none, Nat.zero_add]
  · rw [weightAt, h, Option.map_some, Option.getD_some, sumOver_erase f h]

omit [LawfulEqOrd κ] in
@[simp] theorem sumOver_empty (f : β → ℕ) : sumOver f (∅ : ExtTreeMap κ β) = 0 := by
  rw [sumOver, toList_eq_nil_iff.mpr rfl]
  rfl

/-- **A map that weighs no more at any key** weighs no more. -/
theorem sumOver_le {f : β → ℕ} {t t' : ExtTreeMap κ β}
    (h : ∀ a, weightAt f t' a ≤ weightAt f t a) : sumOver f t' ≤ sumOver f t := by
  -- by induction on the size: one entry after the other is taken off both maps
  induction hn : t'.size generalizing t t' with
  | zero =>
    rw [eq_empty_iff_size_eq_zero.mpr hn, sumOver_empty]
    exact Nat.zero_le _
  | succ n ih =>
    have hlen : 0 < t'.toList.length := by
      rw [length_toList, hn]
      exact Nat.succ_pos n
    obtain ⟨⟨k, v⟩, hmem⟩ := List.exists_mem_of_length_pos hlen
    have hk : t'.contains k = true := by
      rw [contains_eq_isSome_getElem?,
        mem_toList_iff_getElem?_eq_some.mp hmem]
      rfl
    have hsize : (t'.erase k).size = n := by
      rw [size_erase, if_pos hk, hn]
      rfl
    have hrest : sumOver f (t'.erase k) ≤ sumOver f (t.erase k) := by
      refine ih (fun a => ?_) hsize
      by_cases ha : k = a
      · subst ha
        rw [weightAt, getElem?_erase_self]
        exact Nat.zero_le _
      · rw [weightAt, weightAt, getElem?_erase_of_ne ha, getElem?_erase_of_ne ha]
        exact h a
    rw [← weightAt_add_sumOver_erase t', ← weightAt_add_sumOver_erase t]
    exact Nat.add_le_add (h k) hrest

end SysLib
