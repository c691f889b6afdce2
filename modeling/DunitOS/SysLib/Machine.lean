import Mathlib.Data.List.Basic

/-!
# Runs of a state machine

A machine takes one step after another, each from an input (`step : σ → α → σ`); a run is
the fold of the steps over the list of inputs. `SysLib.Along ok` says that every input of
a run is one that a condition admits in the state it is taken in, and
`Along.foldl` is the induction along such a run: what the admitted steps keep
holds throughout.
-/

namespace SysLib

variable {σ α : Type} {step : σ → α → σ} {ok : σ → α → Prop} {P : σ → Prop}

/-- **Every input of a run is admitted** in the state that it is taken in. -/
def Along (ok : σ → α → Prop) (step : σ → α → σ) : σ → List α → Prop
  | _, [] => True
  | s, a :: l => ok s a ∧ Along ok step (step s a) l

instance decidableAlong [∀ s a, Decidable (ok s a)] :
    ∀ (s : σ) (l : List α), Decidable (Along ok step s l)
  | _, [] => .isTrue trivial
  | s, a :: l =>
    have := decidableAlong (step s a) l
    inferInstanceAs (Decidable (ok s a ∧ Along ok step (step s a) l))

/-- **The induction along a run**: what every admitted step keeps holds at the end. -/
theorem Along.foldl (hstep : ∀ s a, P s → ok s a → P (step s a)) {l : List α} {s : σ}
    (h : Along ok step s l) (hs : P s) : P (l.foldl step s) := by
  induction l generalizing s with
  | nil => exact hs
  | cons a l ih => exact ih h.2 (hstep s a hs h.1)

/-- What every step keeps, whatever the input, holds throughout. -/
theorem foldl_induct (hstep : ∀ s a, P s → P (step s a)) (l : List α) {s : σ} (hs : P s) :
    P (l.foldl step s) := by
  induction l generalizing s with
  | nil => exact hs
  | cons a l ih => exact ih (hstep s a hs)

/-- Two conditions that are the same wherever a third one holds. -/
theorem along_congr {ok1 ok2 : σ → α → Prop} (hiff : ∀ s a, ok s a → (ok1 s a ↔ ok2 s a))
    {l : List α} {s : σ} (h : Along ok step s l) : Along ok1 step s l ↔ Along ok2 step s l := by
  induction l generalizing s with
  | nil => exact Iff.rfl
  | cons a l ih => exact and_congr (hiff s a h.1) (ih h.2)

/-- **When a property holds throughout a run**: just if every input is admitted, where an invariant
implies the property, admitted inputs keep it, and an input after which the property holds is
admitted. The inputs can be restricted by a condition of their own. -/
theorem forall_take_iff {ok' : σ → α → Prop} {F : σ → Prop} (hF : ∀ s, P s → F s)
    (hneed : ∀ s a, P s → ok' s a → F (step s a) → ok s a)
    (hkeep : ∀ s a, P s → ok' s a → ok s a → P (step s a)) {l : List α} {s : σ}
    (h : Along ok' step s l) (hs : P s) :
    (∀ k, F ((l.take k).foldl step s)) ↔ Along ok step s l := by
  induction l generalizing s with
  | nil => exact iff_of_true (fun k => by rw [List.take_nil]; exact hF s hs) trivial
  | cons a l ih =>
    constructor
    · intro hall
      have hok := hneed s a hs h.1 (hall 1)
      exact ⟨hok, (ih h.2 (hkeep s a hs h.1 hok)).mp fun k => hall (k + 1)⟩
    · rintro ⟨hok, hl⟩ k
      cases k with
      | zero => exact hF s hs
      | succ k => exact (ih h.2 (hkeep s a hs h.1 hok)).mpr hl k

end SysLib
