import Mathlib.Data.List.Basic
import Mathlib.Data.List.Induction

/-!
# Counting loops and searches

A loop that carries a state and adds one to a fixed-width counter of it at some of the
elements it passes (`foldl_counter`). Such a counter can wrap, so that it is zero
says that nothing was counted only when the loop is short
(`foldl_counter_eq_zero_iff`).

A loop that keeps the largest of the elements with a property that it passes
(`keepLargest`) ends with one that none of the others exceeds. A loop that looks
for a run of numbers with a property (`findRun`) finds the first one there is.
-/

namespace SysLib

open List

variable {σ α β : Type}

/-- **A counting loop**: a counter that one step raises exactly at the elements with a
property ends up raised by the number of such elements, in 32 bits. -/
theorem foldl_counter {c : σ → UInt32} {p : α → Bool} {f : σ → α → σ}
    (h : ∀ s a, c (f s a) = if p a then c s + 1 else c s) (l : List α) (s : σ) :
    c (l.foldl f s) = c s + UInt32.ofNat (l.countP p) := by
  induction l generalizing s with
  | nil => simp
  | cons a l ih =>
    rw [foldl_cons, ih, h, countP_cons]
    cases p a with
    | false => simp
    | true =>
      simp only [if_true, UInt32.ofNat_add]
      rw [UInt32.add_assoc, UInt32.add_comm 1]
      rfl

/-- **A counter that started at zero and cannot have wrapped** is zero exactly when no
element had the property. -/
theorem foldl_counter_eq_zero_iff {c : σ → UInt32} {p : α → Bool} {f : σ → α → σ}
    (h : ∀ s a, c (f s a) = if p a then c s + 1 else c s) {l : List α} {s : σ}
    (hs : c s = 0) (hl : l.length < UInt32.size) :
    c (l.foldl f s) = 0 ↔ ∀ a ∈ l, p a = false := by
  have hlt : l.countP p < UInt32.size := Nat.lt_of_le_of_lt List.countP_le_length hl
  have hz : UInt32.ofNat (l.countP p) = 0 ↔ l.countP p = 0 := by
    rw [← UInt32.toNat_inj, UInt32.toNat_ofNat_of_lt' hlt]
    rfl
  rw [foldl_counter h, hs, UInt32.zero_add, hz, List.countP_eq_zero]
  simp only [Bool.not_eq_true]

/-- A loop whose step leaves a component of the state alone leaves it alone. -/
theorem foldl_frame {c : σ → β} {f : σ → α → σ} (h : ∀ s a, c (f s a) = c s) (l : List α)
    (s : σ) : c (l.foldl f s) = c s := by
  induction l generalizing s with
  | nil => rfl
  | cons a l ih => rw [foldl_cons, ih, h]

/-- Searching for the first success of a partial function is searching for the first
element it is defined at. -/
theorem findSome?_eq_find?_bind {f : α → Option β} {p : α → Bool}
    (h : ∀ a, p a = (f a).isSome) (l : List α) : l.findSome? f = (l.find? p).bind f := by
  induction l with
  | nil => rfl
  | cons a l ih =>
    rw [findSome?_cons, find?_cons, h a]
    cases hf : f a with
    | none => simpa using ih
    | some => simp [hf]

/-! ### The largest of the elements with a property -/

/-- Pass over a list and keep the first of the largest elements with a property. -/
def keepLargest (p : α → Bool) (size : α → ℕ) (l : List α) : Option α :=
  l.foldl (fun kept a => if p a && (kept.map fun b => decide (size b < size a)).getD true
    then some a else kept) none

/-- **What the loop keeps**: nothing as long as no element has the property, and from
then on one that is at least as large as all of them. -/
theorem keepLargest_spec (p : α → Bool) (size : α → ℕ) (l : List α) :
    (keepLargest p size l = none ∧ ∀ a ∈ l, p a = false) ∨
      ∃ b, keepLargest p size l = some b ∧ b ∈ l ∧ p b = true ∧
        ∀ a ∈ l, p a = true → size a ≤ size b := by
  induction l using reverseRecOn with
  | nil => exact .inl ⟨rfl, by simp⟩
  | append_singleton l a ih =>
    rw [keepLargest, foldl_append, foldl_cons, foldl_nil, ← keepLargest]
    rcases ih with ⟨hnone, hl⟩ | ⟨b, hsome, hb, hpb, hmax⟩
    · rw [hnone]
      cases hpa : p a with
      | false => exact .inl ⟨by simp, by simpa [or_imp, forall_and, hpa] using hl⟩
      | true =>
        refine .inr ⟨a, by simp, by simp, hpa, fun a' ha' hpa' => ?_⟩
        rcases mem_append.mp ha' with h | h
        · rw [hl a' h] at hpa'
          cases hpa'
        · exact Nat.le_of_eq (congrArg size (mem_singleton.mp h))
    · rw [hsome]
      by_cases h : p a = true ∧ size b < size a
      · refine .inr ⟨a, by simp [h], by simp, h.1, fun a' ha' hpa' => ?_⟩
        rcases mem_append.mp ha' with h' | h'
        · exact Nat.le_trans (hmax a' h' hpa') (Nat.le_of_lt h.2)
        · exact Nat.le_of_eq (congrArg size (mem_singleton.mp h'))
      · have hkept : (p a && decide (size b < size a)) = false := by simpa using h
        refine .inr ⟨b, by simp [hkept], by simp [hb], hpb, fun a' ha' hpa' => ?_⟩
        rcases mem_append.mp ha' with h' | h'
        · exact hmax a' h' hpa'
        · rw [mem_singleton.mp h'] at hpa' ⊢
          exact Nat.le_of_not_lt fun hlt => h ⟨hpa', hlt⟩

/-! ### The first run of numbers with a property -/

/-- Look for `count` consecutive numbers with a property among `n` numbers from `i` on,
with the start and the length of the run that ends before `i`. -/
def findRun (p : ℕ → Bool) (count : ℕ) : ℕ → ℕ → Option ℕ → ℕ → Option ℕ
  | _, 0, _, _ => none
  | i, n + 1, start, len =>
    if p i then
      let first := start.getD i
      let len' := if start.isNone then 1 else len + 1
      if len' = count then some first else findRun p count (i + 1) n (some first) len'
    else findRun p count (i + 1) n none 0

/-- The run that ends before a position is what the loop says it is, and it is as long
as it can be. -/
def RunBefore (p : ℕ → Bool) (i : ℕ) (start : Option ℕ) (len : ℕ) : Prop :=
  len ≤ i ∧ start = (if len = 0 then none else some (i - len)) ∧
    (∀ j, i - len ≤ j → j < i → p j = true) ∧ ∀ k, k + len + 1 = i → p k = false

/-- **The loop finds a run if there is one**: the result is a run, and without a result
there is none. -/
theorem findRun_spec {p : ℕ → Bool} {count : ℕ} (hcount : 0 < count) {n i : ℕ}
    {start : Option ℕ} {len : ℕ} (h : RunBefore p i start len) (hlen : len < count) :
    (∃ s, findRun p count i n start len = some s ∧ s + count ≤ i + n ∧
        ∀ j < count, p (s + j) = true) ∨
      findRun p count i n start len = none ∧
        ∀ s, i < s + count → s + count ≤ i + n → ∃ j < count, p (s + j) = false := by
  induction n generalizing i start len with
  | zero => exact .inr ⟨rfl, fun s h1 h2 => by omega⟩
  | succ n ih =>
    obtain ⟨hle, hstart, hrun, hmax⟩ := h
    rw [findRun]
    cases hp : p i with
    | false =>
      simp only [Bool.false_eq_true, if_false]
      have hnext : RunBefore p (i + 1) none 0 := by
        refine ⟨Nat.zero_le _, rfl, fun j h1 h2 => by omega, fun k hk => ?_⟩
        rwa [show k = i by omega]
      rcases ih hnext hcount with ⟨s, hs, hsn, hall⟩ | ⟨hnone, hall⟩
      · exact .inl ⟨s, hs, by omega, hall⟩
      · refine .inr ⟨hnone, fun s h1 h2 => ?_⟩
        by_cases hi : i + 1 < s + count
        · exact hall s hi (by omega)
        · exact ⟨i - s, by omega, by rwa [show s + (i - s) = i by omega]⟩
    | true =>
      have hfirst : start.getD i = i - len ∧ (if start.isNone then 1 else len + 1) = len + 1 := by
        rw [hstart]
        split_ifs <;> simp_all
      rw [if_pos rfl]
      simp only [hfirst.1, hfirst.2]
      split_ifs with hcnt
      · refine .inl ⟨i - len, rfl, by omega, fun j hj => ?_⟩
        rcases Nat.lt_or_ge (i - len + j) i with hlt | hge
        · exact hrun _ (by omega) hlt
        · rwa [show i - len + j = i by omega]
      · have hnext : RunBefore p (i + 1) (some (i - len)) (len + 1) := by
          refine ⟨by omega, ?_, fun j h1 h2 => ?_, fun k hk => hmax k (by omega)⟩
          · rw [if_neg (Nat.succ_ne_zero _), Nat.add_sub_add_right]
          · rcases Nat.lt_or_ge j i with hlt | hge
            · exact hrun j (by omega) hlt
            · rwa [show j = i by omega]
        rcases ih hnext (by omega) with ⟨s, hs, hsn, hall⟩ | ⟨hnone, hall⟩
        · exact .inl ⟨s, hs, by omega, hall⟩
        · refine .inr ⟨hnone, fun s h1 h2 => ?_⟩
          by_cases hi : i + 1 < s + count
          · exact hall s hi (by omega)
          -- A run that ends here is longer than the longest one that does.
          · refine ⟨i - len - 1 - s, by omega, ?_⟩
            rw [show s + (i - len - 1 - s) = i - len - 1 by omega]
            exact hmax _ (by omega)

/-! ### Removing an entry -/

/-- Remove the entry at an index; the last one takes its place. -/
def swapRemove (l : List α) (i : ℕ) : List α :=
  match l.getLast? with
  | some x => (l.set i x).dropLast
  | none => l

theorem swapRemove_last (pre : List α) (b : α) : swapRemove (pre ++ [b]) pre.length = pre := by
  simp [swapRemove]

theorem swapRemove_middle (pre post : List α) (b c : α) :
    swapRemove (pre ++ b :: (post ++ [c])) pre.length = pre ++ c :: post := by
  have hlast : (pre ++ b :: (post ++ [c])).getLast? = some c := by
    rw [← cons_append, ← append_assoc, getLast?_concat]
  have hset : (pre ++ b :: (post ++ [c])).set pre.length c = (pre ++ c :: post) ++ [c] := by simp
  simp only [swapRemove, hlast]
  rw [hset, dropLast_concat]

/-- **One entry is removed**, and the others are kept in some order. -/
theorem swapRemove_perm {l : List α} {i : ℕ} {a : α} (h : l[i]? = some a) :
    (a :: swapRemove l i).Perm l := by
  obtain ⟨pre, post, rfl, rfl⟩ : ∃ pre post, l = pre ++ a :: post ∧ pre.length = i := by
    obtain ⟨hi, rfl⟩ := List.getElem?_eq_some_iff.mp h
    exact ⟨l.take i, l.drop (i + 1), by simp, by simp; omega⟩
  rcases post.eq_nil_or_concat with rfl | ⟨post, c, rfl⟩
  · rw [swapRemove_last]
    exact (perm_append_singleton a pre).symm
  · rw [concat_eq_append, swapRemove_middle]
    refine perm_middle.symm.trans (List.Perm.append_left pre (List.Perm.cons a ?_))
    exact (perm_append_singleton c post).symm

end SysLib
