import Mathlib.Data.List.Basic
import Mathlib.Data.List.Pairwise

/-!
# Blocks of memory and lists of them that live in memory

A block is an interval of addresses. How often a list of blocks covers an address
(`cover`) is a sum over the list, so that splitting a block, joining two or moving
one to another list are equations of sums; two lists of blocks partition a third one when
their covers add up to its cover.

The blocks of a free list hold the list themselves: the first word of a block is its size
and the second the address of the next one. `Linked` is such a list or a part of
one, in a memory of words. It depends on the two words of each of its blocks and on
nothing else (`Linked.update`), and it is cut anywhere (`linked_append`).
-/

namespace SysLib

open List

variable {b : MemBlock} {x : ℕ} {l : List MemBlock}

/-- An interval of addresses. -/
structure MemBlock where
  start : ℕ
  size : ℕ
  deriving DecidableEq, Repr

/-- The first address behind a block. -/
def MemBlock.stop (b : MemBlock) : ℕ := b.start + b.size

/-- Whether an address is in a block. -/
def MemBlock.has (b : MemBlock) (x : ℕ) : Bool := decide (b.start ≤ x) && decide (x < b.stop)

theorem MemBlock.has_iff : b.has x = true ↔ b.start ≤ x ∧ x < b.stop := by
  rw [has, Bool.and_eq_true, decide_eq_true_eq, decide_eq_true_eq]

/-! ### How often an address is covered -/

/-- How many blocks of a list an address is in. -/
def cover (l : List MemBlock) (x : ℕ) : ℕ := l.countP fun b => b.has x

@[simp] theorem cover_nil (x : ℕ) : cover [] x = 0 := rfl

@[simp] theorem cover_append (l m : List MemBlock) (x : ℕ) :
    cover (l ++ m) x = cover l x + cover m x := countP_append

theorem cover_cons (b : MemBlock) (l : List MemBlock) (x : ℕ) :
    cover (b :: l) x = cover l x + if b.start ≤ x ∧ x < b.stop then 1 else 0 := by
  rw [cover, countP_cons, ← cover]
  exact congrArg _ (if_congr MemBlock.has_iff rfl rfl)

theorem cover_pos : 0 < cover l x ↔ ∃ b ∈ l, b.has x = true :=
  countP_pos_iff

theorem one_le_cover (hb : b ∈ l) {x : ℕ} (hx : b.has x = true) :
    1 ≤ cover l x := cover_pos.mpr ⟨b, hb, hx⟩

/-- **Blocks of two lists that together cover nothing twice** have no address in common. -/
theorem not_has_of_cover {m : List MemBlock} (h : cover l x + cover m x ≤ 1)
    {b d : MemBlock} (hb : b ∈ l) (hd : d ∈ m) (hx : b.has x = true) : ¬d.has x = true := by
  intro hx'
  have h1 := one_le_cover hb hx
  have h2 := one_le_cover hd hx'
  omega

/-- An entry of a list that covers an address at most once is found by that address. -/
theorem eq_of_cover_le_one {α : Type} {f : α → MemBlock} {l : List α}
    (h : cover (l.map f) x ≤ 1) {a a' : α} (ha : a ∈ l) (ha' : a' ∈ l)
    (hx : (f a).has x = true) (hx' : (f a').has x = true) : a = a' := by
  obtain ⟨l1, l2, rfl⟩ := append_of_mem ha
  rw [map_append, map_cons, cover_append, cover_cons, if_pos (MemBlock.has_iff.mp hx)] at h
  rcases mem_append.mp ha' with ha' | ha'
  · have := one_le_cover (mem_map_of_mem ha') hx'
    omega
  · rcases mem_cons.mp ha' with rfl | ha'
    · rfl
    · have := one_le_cover (mem_map_of_mem ha') hx'
      omega

/-! ### Blocks that are apart -/

/-- Two blocks, one behind the other. -/
def Apart (b d : MemBlock) : Prop := b.stop ≤ d.start ∨ d.stop ≤ b.start

theorem Apart.symm {d : MemBlock} (h : Apart b d) : Apart d b := Or.symm h

/-- Blocks that are not empty and have no address in common are apart. -/
theorem apart_of_not_has {d : MemBlock} (hb : b.start < b.stop) (hd : d.start < d.stop)
    (h : ∀ x, b.has x = true → ¬d.has x = true) : Apart b d := by
  simp only [MemBlock.has_iff] at h
  have h1 := h b.start
  have h2 := h d.start
  rw [Apart]
  omega

/-- In the order of addresses, with something between any two. -/
def Spaced (l : List MemBlock) : Prop := l.Pairwise fun b d => b.stop < d.start

theorem spaced_append {m : List MemBlock} :
    Spaced (l ++ m) ↔ Spaced l ∧ Spaced m ∧ ∀ b ∈ l, ∀ d ∈ m, b.stop < d.start :=
  pairwise_append

theorem spaced_cons : Spaced (b :: l) ↔ (∀ d ∈ l, b.stop < d.start) ∧ Spaced l := pairwise_cons

/-- A spaced list is cut at any address. -/
theorem Spaced.split (h : Spaced l) (a : ℕ) :
    ∃ l1 l2, l = l1 ++ l2 ∧ (∀ b ∈ l1, b.start < a) ∧ ∀ b ∈ l2, a ≤ b.start := by
  induction l with
  | nil => exact ⟨[], [], rfl, by simp, by simp⟩
  | cons b l ih =>
    obtain ⟨hb, hl⟩ := spaced_cons.mp h
    by_cases hlt : b.start < a
    · obtain ⟨l1, l2, rfl, h1, h2⟩ := ih hl
      refine ⟨b :: l1, l2, rfl, fun d hd => ?_, h2⟩
      rcases mem_cons.mp hd with rfl | hd
      · exact hlt
      · exact h1 d hd
    · refine ⟨[], b :: l, rfl, by simp, fun d hd => ?_⟩
      rcases mem_cons.mp hd with rfl | hd
      · exact Nat.le_of_not_lt hlt
      · have := hb d hd
        rw [MemBlock.stop] at this
        omega

/-- Blocks that are apart are no more than there is room for. -/
theorem Spaced.length_le (h : Spaced l) {lo hi : ℕ}
    (hl : ∀ b ∈ l, lo ≤ b.start ∧ b.start < hi) : l.length ≤ hi - lo := by
  induction l generalizing lo with
  | nil => exact Nat.zero_le _
  | cons b l ih =>
    obtain ⟨hb, hl'⟩ := spaced_cons.mp h
    have hstart := hl b mem_cons_self
    have hlen : l.length ≤ hi - (b.start + 1) := ih hl' fun d hd =>
      ⟨Nat.lt_of_le_of_lt (Nat.le_add_right _ _) (hb d hd), (hl d (mem_cons_of_mem _ hd)).2⟩
    rw [length_cons]
    omega

/-! ### Lists in memory -/

/-- A memory of words, by address. -/
abbrev Words : Type := ℕ → ℕ

/-- **A list of blocks linked in memory**, from the address of its first block to the link
that its last one holds. -/
def Linked (mem : Words) : ℕ → List MemBlock → ℕ → Prop
  | h, [], t => h = t
  | h, b :: l, t => h = b.start ∧ b.start ≠ 0 ∧ mem b.start = b.size ∧
      Linked mem (mem (b.start + 8)) l t

/-- A word that none of the blocks of a list uses. -/
def Unused (l : List MemBlock) (x : ℕ) : Prop := ∀ b ∈ l, x ≠ b.start ∧ x ≠ b.start + 8

variable {mem : Words} {l m : List MemBlock} {b : MemBlock} {h t x v : ℕ}

theorem linked_append : Linked mem h (l ++ m) t ↔ ∃ k, Linked mem h l k ∧ Linked mem k m t := by
  induction l generalizing h with
  | nil => exact ⟨fun hm => ⟨h, rfl, hm⟩, fun ⟨k, hk, hm⟩ => by rw [nil_append, hk]; exact hm⟩
  | cons b l ih =>
    simp only [cons_append, Linked, ih]
    constructor
    · rintro ⟨h1, h2, h3, k, hl, hm⟩
      exact ⟨k, ⟨h1, h2, h3, hl⟩, hm⟩
    · rintro ⟨k, ⟨h1, h2, h3, hl⟩, hm⟩
      exact ⟨h1, h2, h3, k, hl, hm⟩

/-- **What the blocks do not use may change.** -/
theorem Linked.update (hl : Linked mem h l t) (hx : Unused l x) :
    Linked (Function.update mem x v) h l t := by
  induction l generalizing h with
  | nil => exact hl
  | cons b l ih =>
    obtain ⟨h1, h2, h3, hrest⟩ := hl
    obtain ⟨hx1, hx2⟩ := hx b mem_cons_self
    refine ⟨h1, h2, by rw [Function.update_of_ne hx1.symm, h3], ?_⟩
    rw [Function.update_of_ne hx2.symm]
    exact ih hrest fun d hd => hx d (mem_cons_of_mem _ hd)

/-- A list stays linked in a memory that agrees on its words. -/
theorem Linked.congr {mem' : Words} (hl : Linked mem h l t)
    (heq : ∀ b ∈ l, mem' b.start = mem b.start ∧ mem' (b.start + 8) = mem (b.start + 8)) :
    Linked mem' h l t := by
  induction l generalizing h with
  | nil => exact hl
  | cons b l ih =>
    obtain ⟨h1, h2, h3, hrest⟩ := hl
    obtain ⟨he1, he2⟩ := heq b mem_cons_self
    refine ⟨h1, h2, by rw [he1, h3], ?_⟩
    rw [he2]
    exact ih hrest fun d hd => heq d (mem_cons_of_mem _ hd)

theorem linked_singleton : Linked mem h [b] t ↔
      h = b.start ∧ b.start ≠ 0 ∧ mem b.start = b.size ∧ mem (b.start + 8) = t := Iff.rfl

/-- The address of the first block, or of what comes behind the list. -/
def headAddr : List MemBlock → ℕ → ℕ
  | [], t => t
  | b :: _, _ => b.start

theorem Linked.head_eq (hl : Linked mem h l t) : h = headAddr l t := by
  cases l with
  | nil => exact hl
  | cons => exact hl.1

/-- The address of the last block, or of what comes before the list. -/
def lastAddr (l : List MemBlock) (t : ℕ) : ℕ := (l.getLast?.map MemBlock.start).getD t

@[simp] theorem lastAddr_nil (t : ℕ) : lastAddr [] t = t := rfl

@[simp] theorem lastAddr_concat (l : List MemBlock) (b : MemBlock) (t : ℕ) :
    lastAddr (l ++ [b]) t = b.start := by
  simp [lastAddr]

theorem lastAddr_cons (b : MemBlock) (l : List MemBlock) (t : ℕ) :
    lastAddr (b :: l) t = lastAddr l b.start := by
  rcases l.eq_nil_or_concat' with rfl | ⟨l, d, rfl⟩
  · rfl
  · rw [← cons_append, lastAddr_concat, lastAddr_concat]

/-- The blocks of the list that starts at an address, found by following the links. -/
def blocksFrom (mem : Words) : ℕ → ℕ → List MemBlock
  | 0, _ => []
  | fuel + 1, h => if h = 0 then [] else ⟨h, mem h⟩ :: blocksFrom mem fuel (mem (h + 8))

/-- **Following the links finds the list.** -/
theorem Linked.blocksFrom_eq (hl : Linked mem h l 0) {fuel : ℕ} (hfuel : l.length < fuel) :
    blocksFrom mem fuel h = l := by
  induction l generalizing h fuel with
  | nil =>
    obtain ⟨fuel, rfl⟩ := Nat.exists_eq_succ_of_ne_zero (Nat.ne_zero_of_lt hfuel)
    have hh : h = 0 := hl
    rw [blocksFrom, if_pos hh]
  | cons b l ih =>
    obtain ⟨rfl, h2, h3, hrest⟩ := hl
    obtain ⟨fuel, rfl⟩ := Nat.exists_eq_succ_of_ne_zero (Nat.ne_zero_of_lt hfuel)
    rw [blocksFrom, if_neg h2, h3, ih hrest (Nat.lt_of_succ_lt_succ hfuel)]

end SysLib
