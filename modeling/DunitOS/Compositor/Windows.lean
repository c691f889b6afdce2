import Mathlib.Data.List.Perm.Basic
import Mathlib.Data.List.Nodup

/-!
# The windows of the desktop

The compositor keeps its windows in a vector and refers to them by index: in the stacking order, in
the drag that is going on, in the window that the button was pressed on and in the one with the
input focus. When a client is gone, `reap_windows_of` of `gui_server/src/main.rs` removes its
windows, the last one first, and repairs the indices after each of them.

`reapWindowsOf_spec` says that nothing else changes: the other windows keep
their order, the stacking order lists them as before, and every index follows its window.
-/

namespace DunitOS.Compositor

open List

variable {W : Type}

/-- The windows and what refers to them by index. -/
structure Desktop (W : Type) where
  wins : List W
  /-- From the bottom to the top. -/
  z : List ℕ
  /-- The window that is dragged, and where it was grabbed. -/
  drag : Option (ℕ × Int32 × Int32)
  pressedWin : Option ℕ
  inputFocus : Option ℕ

/-! ### The code -/

/-- An index after the window at `wi` was removed: the arms of `adjust_indices_after_removal`, and
what the two passes over the stacking order do. -/
def adjusted (wi i : ℕ) : Option ℕ :=
  if i = wi then none else if i > wi then some (i - 1) else some i

/-- The body of the loop of `reap_windows_of`. -/
def removeAt (d : Desktop W) (wi : ℕ) : Desktop W where
  wins := d.wins.eraseIdx wi
  z := d.z.filterMap (adjusted wi)
  drag := d.drag.bind fun c => (adjusted wi c.1).map (·, c.2)
  pressedWin := d.pressedWin.bind (adjusted wi)
  inputFocus := d.inputFocus.bind (adjusted wi)

variable (pid : W → UInt32) (p : UInt32)

/-- The window at an index is one of the process. -/
def owned (wins : List W) (i : ℕ) : Bool := wins[i]?.any fun w => pid w == p

/-- The windows to remove, in ascending order. -/
def victims (wins : List W) : List ℕ := (range wins.length).filter (owned pid p wins)

def reapWindowsOf (d : Desktop W) : Desktop W := (victims pid p d.wins).reverse.foldl removeAt d

/-! ### One removal -/

variable {wi i i' : ℕ}

theorem adjusted_eq_some : adjusted wi i = some i' ↔ i < wi ∧ i' = i ∨ wi < i ∧ i' + 1 = i := by
  unfold adjusted
  split_ifs <;> simp only [Option.some.injEq, false_iff] <;> omega

theorem getElem?_eraseIdx_adjusted (l : List W) (h : adjusted wi i = some i') :
    (l.eraseIdx wi)[i']? = l[i]? := by
  rcases adjusted_eq_some.mp h with ⟨hlt, rfl⟩ | ⟨hlt, rfl⟩
  · exact getElem?_eraseIdx_of_lt hlt
  · exact getElem?_eraseIdx_of_ge (by omega)

/-- The stacking order goes on listing every window once. -/
theorem perm_removeAt {d : Desktop W} (h : d.z.Perm (range d.wins.length))
    (hwi : wi < d.wins.length) : (removeAt d wi).z.Perm (range (removeAt d wi).wins.length) := by
  have hnodup : (d.z.filterMap (adjusted wi)).Nodup := by
    refine (h.nodup_iff.mpr nodup_range).filterMap fun i j k hi hj => ?_
    have hi := adjusted_eq_some.mp hi
    have hj := adjusted_eq_some.mp hj
    omega
  refine (perm_ext_iff_of_nodup hnodup nodup_range).mpr fun j => ?_
  simp only [removeAt, mem_filterMap, h.mem_iff, mem_range, length_eraseIdx_of_lt hwi,
    adjusted_eq_some]
  constructor
  · rintro ⟨i, hi, hij⟩
    omega
  · intro hj
    by_cases hlt : j < wi
    · exact ⟨j, by omega, .inl ⟨hlt, rfl⟩⟩
    · exact ⟨j + 1, by omega, .inr ⟨by omega, rfl⟩⟩

/-! ### All of them -/

/-- What becomes of an index when several windows are removed. -/
def settled : List ℕ → ℕ → Option ℕ
  | [], i => some i
  | wi :: vs, i => (adjusted wi i).bind (settled vs)

variable {vs : List ℕ}

theorem settled_eq_none (h : vs.Pairwise (· > ·)) : settled vs i = none ↔ i ∈ vs := by
  induction vs generalizing i with
  | nil => simp [settled]
  | cons v vs ih =>
    obtain ⟨hv, hvs⟩ := pairwise_cons.mp h
    rw [settled, Option.bind_eq_none_iff, mem_cons]
    constructor
    · intro hnone
      by_contra hi
      rw [not_or] at hi
      -- the indices that are still to be removed are smaller and do not move
      rcases Nat.lt_or_gt_of_ne hi.1 with hlt | hgt
      · exact hi.2 ((ih hvs).mp (hnone i (adjusted_eq_some.mpr (.inl ⟨hlt, rfl⟩))))
      · have hmem := (ih hvs).mp (hnone (i - 1) (adjusted_eq_some.mpr (.inr ⟨hgt, by omega⟩)))
        have := hv _ hmem
        omega
    · intro hi j hj
      refine (ih hvs).mpr ?_
      rcases adjusted_eq_some.mp hj with ⟨hlt, rfl⟩ | ⟨hlt, rfl⟩
      · exact hi.resolve_left (by omega)
      · have := hv _ (hi.resolve_left (by omega))
        omega

theorem settled_lt {j j' : ℕ} (hi : settled vs i = some i') (hj : settled vs j = some j')
    (hij : i < j) : i' < j' := by
  induction vs generalizing i j with
  | nil => rwa [← Option.some.inj hi, ← Option.some.inj hj]
  | cons v vs ih =>
    obtain ⟨k, hk, hi⟩ := Option.bind_eq_some_iff.mp hi
    obtain ⟨l, hl, hj⟩ := Option.bind_eq_some_iff.mp hj
    have hk := adjusted_eq_some.mp hk
    have hl := adjusted_eq_some.mp hl
    exact ih hi hj (by omega)

/-- **Removing windows** moves every index with its window. -/
theorem foldl_removeAt (vs : List ℕ) (d : Desktop W) :
    (∀ i i', settled vs i = some i' → (vs.foldl removeAt d).wins[i']? = d.wins[i]?) ∧
    (vs.foldl removeAt d).z = d.z.filterMap (settled vs) ∧
    (vs.foldl removeAt d).drag = d.drag.bind (fun c => (settled vs c.1).map (·, c.2)) ∧
    (vs.foldl removeAt d).pressedWin = d.pressedWin.bind (settled vs) ∧
    (vs.foldl removeAt d).inputFocus = d.inputFocus.bind (settled vs) := by
  induction vs generalizing d with
  | nil =>
    have hdrag : d.drag = d.drag.bind fun c => some (c.1, c.2) := by cases d.drag <;> rfl
    simpa [settled] using hdrag
  | cons v vs ih =>
    obtain ⟨hwins, hz, hdrag, hpressed, hfocus⟩ := ih (removeAt d v)
    refine ⟨fun i i' hi => ?_, hz.trans filterMap_filterMap, hdrag.trans ?_,
      hpressed.trans (Option.bind_assoc _ _ _), hfocus.trans (Option.bind_assoc _ _ _)⟩
    · obtain ⟨k, hk, hi⟩ := Option.bind_eq_some_iff.mp hi
      exact (hwins k i' hi).trans (getElem?_eraseIdx_adjusted d.wins hk)
    · rw [removeAt, Option.bind_assoc]
      refine congrArg d.drag.bind (funext fun c => ?_)
      rw [Option.bind_map, settled, Option.map_bind]
      rfl

theorem perm_foldl_removeAt (h : vs.Pairwise (· > ·)) {d : Desktop W}
    (hlt : ∀ v ∈ vs, v < d.wins.length) (hz : d.z.Perm (range d.wins.length)) :
    (vs.foldl removeAt d).z.Perm (range (vs.foldl removeAt d).wins.length) := by
  induction vs generalizing d with
  | nil => exact hz
  | cons v vs ih =>
    obtain ⟨hv, hvs⟩ := pairwise_cons.mp h
    have hlen := hlt v mem_cons_self
    refine ih hvs (fun u hu => ?_) (perm_removeAt hz hlen)
    have := hv u hu
    rw [removeAt, length_eraseIdx_of_lt hlen]
    omega

/-! ### The windows of a process -/

theorem foldl_removeAt_wins (vs : List ℕ) (d : Desktop W) :
    (vs.foldl removeAt d).wins = vs.foldl eraseIdx d.wins := by
  induction vs generalizing d with
  | nil => rfl
  | cons v vs ih => exact ih _

theorem foldl_eraseIdx_succ (vs : List ℕ) (w : W) (wins : List W) :
    (vs.map (· + 1)).foldl eraseIdx (w :: wins) = w :: vs.foldl eraseIdx wins := by
  induction vs generalizing wins with
  | nil => rfl
  | cons v vs ih => exact ih _

/-- Exactly the windows of the process are removed. -/
theorem foldl_eraseIdx_victims (wins : List W) :
    (victims pid p wins).reverse.foldl eraseIdx wins = wins.filter (pid · != p) := by
  induction wins with
  | nil => rfl
  | cons w wins ih =>
    have hcons : victims pid p (w :: wins) =
        (if pid w = p then [0] else []) ++ (victims pid p wins).map (· + 1) := by
      rw [victims, length_cons, range_succ_eq_map, filter_cons, filter_map]
      by_cases hw : pid w = p <;> simp [owned, hw] <;> rfl
    rw [hcons, reverse_append, ← map_reverse, foldl_append, foldl_eraseIdx_succ, ih]
    by_cases hw : pid w = p <;> simp [hw]

/-- **The desktop after a client is gone**: its windows are removed and the others keep their
order. There is a new place for just the other windows, in the same order, and with it the stacking
order lists the windows that are left as before, each of them once, and the cursors refer to the
windows they referred to; a cursor to a window that was removed is cleared. -/
theorem reapWindowsOf_spec (d : Desktop W) (hz : d.z.Perm (range d.wins.length)) :
    (reapWindowsOf pid p d).wins = d.wins.filter (pid · != p) ∧
    (reapWindowsOf pid p d).z.Perm (range (reapWindowsOf pid p d).wins.length) ∧
    ∃ place : ℕ → Option ℕ, (∀ i, place i = none ↔ owned pid p d.wins i = true) ∧
      (∀ i i' j j', place i = some i' → place j = some j' → i < j → i' < j') ∧
      (∀ i i', place i = some i' → (reapWindowsOf pid p d).wins[i']? = d.wins[i]?) ∧
      (reapWindowsOf pid p d).z = d.z.filterMap place ∧
      (reapWindowsOf pid p d).drag = d.drag.bind (fun c => (place c.1).map (·, c.2)) ∧
      (reapWindowsOf pid p d).pressedWin = d.pressedWin.bind place ∧
      (reapWindowsOf pid p d).inputFocus = d.inputFocus.bind place := by
  have hsorted : (victims pid p d.wins).reverse.Pairwise (· > ·) :=
    pairwise_reverse.mpr (pairwise_lt_range.filter _)
  refine ⟨?_, ?_, settled _, fun i => ?_, fun i i' j j' => settled_lt, foldl_removeAt _ d⟩
  · rw [reapWindowsOf, foldl_removeAt_wins, foldl_eraseIdx_victims]
  · refine perm_foldl_removeAt hsorted (fun v hv => ?_) hz
    exact mem_range.mp (mem_filter.mp (mem_reverse.mp hv)).1
  · rw [settled_eq_none hsorted, mem_reverse, victims, mem_filter, mem_range, and_iff_right_iff_imp]
    intro hi
    by_contra hge
    rw [owned, getElem?_eq_none (Nat.not_lt.mp hge)] at hi
    cases hi

/-- Three windows, of which the two of process 1 go. -/
theorem reapWindowsOf_spec_three :
    (reapWindowsOf id 1 ⟨[1, 2, 1], [2, 0, 1], none, some 1, some 2⟩).z.Perm (range 1) :=
  (reapWindowsOf_spec id 1 ⟨[1, 2, 1], [2, 0, 1], none, some 1, some 2⟩ (by decide)).2.1

end DunitOS.Compositor
