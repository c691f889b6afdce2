import Mathlib.Logic.ExistsUnique
import Mathlib.Logic.Basic

/-!
# Who holds what

Some parties each hold at most one thing, and a thing that is marked as held has to be
held by exactly one of them. The parties' side is a partial function `ref` and the
things' side a predicate `held`; `Matching` says that the two tell the same story.
One rule covers every exchange in which a single party is involved: it gives up what it
had, if anything, and takes what was free, if anything (`Matching.change`).
-/

namespace SysLib

variable {ι κ : Type} {ref ref' : ι → Option κ} {held held' : κ → Prop}

/-- **What is marked as held is held by exactly one party**, and nothing else is. -/
structure Matching (ref : ι → Option κ) (held : κ → Prop) : Prop where
  inj : ∀ {i i' j}, ref i = some j → ref i' = some j → i = i'
  held_iff : ∀ j, held j ↔ ∃ i, ref i = some j

namespace Matching

theorem existsUnique (h : Matching ref held) {j : κ} (hj : held j) : ∃! i, ref i = some j := by
  obtain ⟨i, hi⟩ := (h.held_iff j).mp hj
  exact ⟨i, hi, fun i' hi' => h.inj hi' hi⟩

theorem congr (h : Matching ref held) (href : ∀ i, ref' i = ref i)
    (hheld : ∀ j, held' j ↔ held j) : Matching ref' held' where
  inj hi hi' := h.inj ((href _).symm.trans hi) ((href _).symm.trans hi')
  held_iff j := by
    rw [hheld, h.held_iff]
    exact exists_congr fun i => by rw [href]

/-- **One party makes an exchange**: it gives up `old` and takes `new`, which was free. -/
theorem change (h : Matching ref held) (i : ι) {old : Option κ} (new : Option κ)
    (hold : ref i = old) (hfree : ∀ j, new = some j → ¬held j) (hi : ref' i = new)
    (hother : ∀ a, a ≠ i → ref' a = ref a)
    (hheld : ∀ j, held' j ↔ new = some j ∨ (old ≠ some j ∧ held j)) : Matching ref' held' where
  inj {a a' j} ha ha' := by
    by_cases h1 : a = i <;> by_cases h2 : a' = i
    · rw [h1, h2]
    · rw [h1, hi] at ha
      rw [hother a' h2] at ha'
      exact absurd ((h.held_iff j).mpr ⟨a', ha'⟩) (hfree j ha)
    · rw [h2, hi] at ha'
      rw [hother a h1] at ha
      exact absurd ((h.held_iff j).mpr ⟨a, ha⟩) (hfree j ha')
    · rw [hother a h1] at ha
      rw [hother a' h2] at ha'
      exact h.inj ha ha'
  held_iff j := by
    rw [hheld]
    constructor
    · rintro (hnew | ⟨hne, hj⟩)
      · exact ⟨i, hi.trans hnew⟩
      · obtain ⟨a, ha⟩ := (h.held_iff j).mp hj
        have hai : a ≠ i := fun hai => hne (by rw [← hold, ← hai, ha])
        exact ⟨a, (hother a hai).trans ha⟩
    · rintro ⟨a, ha⟩
      by_cases hai : a = i
      · rw [hai, hi] at ha
        exact Or.inl ha
      · rw [hother a hai] at ha
        refine Or.inr ⟨fun hj => hai (h.inj ha (hold.trans hj)), (h.held_iff j).mpr ⟨a, ha⟩⟩

end Matching

end SysLib
