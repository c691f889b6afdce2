import Mathlib.Data.List.Induction

/-!
# What has happened so far

A history is a list, oldest entry first. Two operators say what a protocol usually says
about one: `SysLib.Since φ Q l`, that an entry came which satisfied `φ` together with its
past, and no `Q` after it, and `SysLib.Always φ l`, that each entry satisfied `φ` together
with its past. Both are read one batch of entries at a time, from the end of the history,
which is how a history grows (`since_append_of_silent`, `always_append`).
-/

namespace SysLib

open List

variable {α : Type} {φ ψ : List α → α → Prop} {Q : α → Prop} {l m : List α}

/-! ### Something happened, and nothing undid it -/

/-- **A `φ` has happened, and no `Q` since.** -/
def Since (φ : List α → α → Prop) (Q : α → Prop) (l : List α) : Prop :=
  ∃ before a after, l = before ++ a :: after ∧ φ before a ∧ ∀ x ∈ after, ¬Q x

/-- It has just happened. -/
theorem since_snoc {a : α} (h : φ l a) : Since φ Q (l ++ [a]) :=
  ⟨l, a, [], rfl, h, fun _ hx => by cases hx⟩

/-- A batch without a `Q` undoes nothing. -/
theorem Since.append (h : Since φ Q l) (hm : ∀ x ∈ m, ¬Q x) : Since φ Q (l ++ m) := by
  obtain ⟨before, a, after, rfl, ha, hafter⟩ := h
  refine ⟨before, a, after ++ m, by simp, ha, fun x hx => ?_⟩
  rcases mem_append.mp hx with hx | hx
  · exact hafter x hx
  · exact hm x hx

/-- What has happened is in the history. -/
theorem Since.exists_mem (h : Since φ Q l) : ∃ before, ∃ a ∈ l, φ before a := by
  obtain ⟨before, a, after, rfl, ha, -⟩ := h
  exact ⟨before, a, by simp, ha⟩

/-! ### Everything was allowed when it happened -/

/-- **Each entry was allowed after the entries before it.** -/
def Always (φ : List α → α → Prop) (l : List α) : Prop :=
  ∀ before a after, l = before ++ a :: after → φ before a

theorem always_nil : Always φ [] := by
  intro before a after h
  simp at h

/-- **One more batch** has to be allowed after everything before it. -/
theorem always_append :
    Always φ (l ++ m) ↔ Always φ l ∧ Always (fun before => φ (l ++ before)) m := by
  constructor
  · refine fun h => ⟨fun before a after hl => ?_, fun before a after hm => ?_⟩
    · exact h before a (after ++ m) (by simp [hl])
    · exact h (l ++ before) a after (by simp [hm])
  · rintro ⟨hl, hm⟩ before a after h
    rcases append_eq_append_iff.mp h with ⟨c, hc, hm'⟩ | ⟨c, hc, hm'⟩
    · rw [hc]
      exact hm c a after hm'
    · rcases c with _ | ⟨b, c⟩
      · have hm0 : m = [] ++ a :: after := by simpa using hm'.symm
        obtain rfl : l = before := by simpa using hc
        simpa using hm [] a after hm0
      · obtain ⟨rfl, -⟩ := cons.inj hm'
        exact hl before a c hc

/-- The first entry of a batch, and the rest. -/
theorem always_cons {a : α} :
    Always φ (a :: l) ↔ φ [] a ∧ Always (fun before => φ (a :: before)) l := by
  rw [← singleton_append, always_append]
  refine and_congr_left fun _ => ⟨fun h => h [] a [] rfl, fun h before b after hb => ?_⟩
  rcases before with _ | ⟨c, before⟩
  · obtain ⟨rfl, -⟩ := cons.inj hb
    exact h
  · simp at hb

/-- What is allowed after any past is allowed. -/
theorem always_of_forall_mem (h : ∀ before, ∀ a ∈ l, φ before a) : Always φ l :=
  fun before a after hl => h before a (by simp [hl])

end SysLib
