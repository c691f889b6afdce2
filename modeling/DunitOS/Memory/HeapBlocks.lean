import DunitOS.Memory.Heap
import Mathlib.Order.Basic

/-!
# Edits of the kernel's free list

The free list in memory is a list of blocks, and the operations of the heap are edits of
that list: inserting a region (`Heap.Free.addFreeRegion`) and cutting an
allocation off a block (`Heap.Free.carve`). Each says what the new list
covers and which words it changes, so that the headers of the live allocations stay.
-/

namespace DunitOS.Memory

open SysLib List MemBlock Heap Nat

/-! ### Blocks of the heap -/

/-- A block as the heap has them: of whole words, with room for a free block, and below
the end of the address space. -/
structure Tidy (b : MemBlock) : Prop where
  pos : b.start ≠ 0
  aligned : b.start % 8 = 0
  whole : b.size % 8 = 0
  room : 16 ≤ b.size
  bound : b.stop < wordSize

variable {b : MemBlock}

theorem Tidy.start_lt_stop (h : Tidy b) : b.start < b.stop := by
  have := h.room
  rw [stop]
  omega

/-- The two words of a free block are in it. -/
theorem Tidy.has_start (h : Tidy b) : b.has b.start = true :=
  has_iff.mpr ⟨le_refl _, h.start_lt_stop⟩

theorem Tidy.has_next (h : Tidy b) : b.has (b.start + 8) = true := by
  have := h.room
  exact has_iff.mpr ⟨by omega, by rw [stop]; omega⟩

variable {l : List MemBlock}

/-- No free block uses a word that is not in it. -/
theorem unused_of_not_has {x : ℕ} (hl : ∀ d ∈ l, Tidy d)
    (h : ∀ d ∈ l, ¬d.has x = true) : Unused l x := by
  intro d hd
  constructor
  · rintro rfl
    exact h d hd (hl d hd).has_start
  · rintro rfl
    exact h d hd (hl d hd).has_next

theorem not_has_of_apart {d : MemBlock} (h : Apart b d) {x : ℕ} (hx : b.has x = true) :
    ¬d.has x = true := by
  rw [has_iff] at hx ⊢
  rw [Apart] at h
  omega

/-- Blocks of a free list are apart. -/
theorem apart_of_lt {d : MemBlock} (h : b.stop < d.start) : Apart b d := .inl h.le

variable {x y : MemBlock}

/-- A block with one more behind it, as one block. -/
theorem Tidy.join (hx : Tidy x) (hy : Tidy y) (hxy : x.stop = y.start) :
    Tidy ⟨x.start, x.size + y.size⟩ := by
  obtain ⟨h1, h2, h3, h4, -⟩ := hx
  obtain ⟨-, -, h5, -, h6⟩ := hy
  rw [stop] at hxy h6
  exact ⟨h1, h2, by simp only; omega, by simp only; omega, by simp only [stop]; omega⟩

/-- Two blocks that touch cover what their union does. -/
theorem cover_join (hxy : x.stop = y.start) (l : List MemBlock) (z : ℕ) :
    cover (⟨x.start, x.size + y.size⟩ :: l) z = cover (x :: y :: l) z := by
  have hstop : (⟨x.start, x.size + y.size⟩ : MemBlock).stop = y.stop := by
    simp only [stop] at hxy ⊢
    omega
  have hx : x.start ≤ x.stop := le_add_right _ _
  have hy : y.start ≤ y.stop := le_add_right _ _
  rw [cover_cons, cover_cons, cover_cons, hstop]
  by_cases h1 : x.start ≤ z ∧ z < x.stop
  · rw [if_pos h1, if_pos ⟨h1.1, by omega⟩, if_neg (by omega)]
  · rw [if_neg h1]
    by_cases h2 : y.start ≤ z ∧ z < y.stop
    · rw [if_pos h2, if_pos ⟨by simp only; omega, h2.2⟩]
    · rw [if_neg h2, if_neg (by simp only; omega)]

/-! ### Inserting a region -/

namespace Heap

@[simp] theorem store_freeList (s : Heap) (addr v : ℕ) : (s.store addr v).freeList = s.freeList :=
  rfl

theorem store_mem (s : Heap) (addr v x : ℕ) :
    (s.store addr v).mem x = if x = addr then v else s.mem x := Function.update_apply ..

def Free (s : Heap) (l : List MemBlock) : Prop := Linked s.mem s.freeList l 0

/-- **Where a region belongs**: behind the blocks below it. -/
theorem seek_eq {mem : Words} {start h : ℕ} {l1 l2 : List MemBlock} (hl : Linked mem h (l1 ++ l2) 0)
    (h1 : ∀ b ∈ l1, b.start < start) (h2 : ∀ b ∈ l2, start ≤ b.start) {fuel : ℕ}
    (hfuel : l1.length < fuel) (previous : ℕ) :
    seek mem start fuel previous h = (lastAddr l1 previous, headAddr l2 0) := by
  induction l1 generalizing h fuel previous with
  | nil =>
    obtain ⟨fuel, rfl⟩ := Nat.exists_eq_succ_of_ne_zero (Nat.ne_zero_of_lt hfuel)
    have hh : h = headAddr l2 0 := Linked.head_eq hl
    have hstop : ¬(h ≠ 0 ∧ h < start) := by
      rintro ⟨hne, hlt⟩
      rcases l2 with _ | ⟨b, l2⟩
      · exact hne hh
      · have := h2 b mem_cons_self
        have hb : h = b.start := hh
        omega
    rw [seek, if_neg hstop, hh]
    rfl
  | cons b _ ih =>
    obtain ⟨fuel, rfl⟩ := Nat.exists_eq_succ_of_ne_zero (Nat.ne_zero_of_lt hfuel)
    obtain ⟨rfl, hne, -, hrest⟩ := hl
    rw [seek, if_pos ⟨hne, h1 b mem_cons_self⟩,
      ih hrest (fun d hd => h1 d (mem_cons_of_mem _ hd)) (Nat.lt_of_succ_lt_succ hfuel),
      lastAddr_cons]

section

variable {s : Heap} {l l1 l2 : List MemBlock} {b : MemBlock}

/-- **The last block of a part of the list** is made to lead somewhere else. -/
theorem relink_spec {k : ℕ} (h : Linked s.mem s.freeList l1 k) (hl : ∀ d ∈ l1, Tidy d)
    (hspaced : Spaced l1) {r : ℕ} :
    Linked (s.relink (lastAddr l1 0) r).mem (s.relink (lastAddr l1 0) r).freeList l1 r ∧
      (∀ x, (∀ d ∈ l1, x ≠ d.start + 8) → (s.relink (lastAddr l1 0) r).mem x = s.mem x) ∧
      (s.relink (lastAddr l1 0) r).totalBytes = s.totalBytes := by
  rcases l1.eq_nil_or_concat' with rfl | ⟨l1, p, rfl⟩
  · exact ⟨rfl, fun _ _ => rfl, rfl⟩
  · have hp : Tidy p := hl p (by simp)
    rw [lastAddr_concat, relink, if_neg hp.pos]
    obtain ⟨j, hj1, hj2⟩ := linked_append.mp h
    obtain ⟨rfl, hpos, hsize, -⟩ := linked_singleton.mp hj2
    obtain ⟨-, -, hlp⟩ := spaced_append.mp hspaced
    refine ⟨linked_append.mpr ⟨p.start, hj1.update ?_, rfl, hpos, ?_, ?_⟩, fun x hx => ?_, rfl⟩
    · exact unused_of_not_has (fun d hd => hl d (mem_append_left _ hd)) fun d hd =>
        not_has_of_apart (apart_of_lt (hlp d hd p mem_cons_self)).symm hp.has_next
    · rw [store_mem, if_neg (by omega), hsize]
    · rw [store_mem, if_pos rfl]
      rfl
    · rw [store_mem, if_neg (hx p (by simp))]

/-- **A block is put between two parts of the free list.** -/
theorem Free.link (h : s.Free (l1 ++ l2)) (hmem : s.mem b.start = b.size) (hb : Tidy b)
    (hl1 : ∀ d ∈ l1, Tidy d ∧ d.stop ≤ b.start) (hl2 : ∀ d ∈ l2, Tidy d ∧ b.stop ≤ d.start)
    (hspaced : Spaced l1) :
    (s.link (lastAddr l1 0) (headAddr l2 0) b.start).Free (l1 ++ b :: l2) ∧
      (∀ x, x ≠ b.start + 8 → (∀ d ∈ l1, x ≠ d.start + 8) →
        (s.link (lastAddr l1 0) (headAddr l2 0) b.start).mem x = s.mem x) ∧
      (s.link (lastAddr l1 0) (headAddr l2 0) b.start).totalBytes = s.totalBytes := by
  obtain ⟨k, hk1, hk2⟩ := linked_append.mp h
  have hroom := hb.room
  have hk : k = headAddr l2 0 := hk2.head_eq
  have hstore : Linked (s.store (b.start + 8) (headAddr l2 0)).mem s.freeList l1 k :=
    hk1.update (unused_of_not_has (fun d hd => (hl1 d hd).1) fun d hd =>
      not_has_of_apart (.inr (hl1 d hd).2) hb.has_next)
  obtain ⟨hlinked, hframe, htotal⟩ :=
    relink_spec hstore (fun d hd => (hl1 d hd).1) hspaced
  have hmem' : ∀ x, (∀ d ∈ l1, x ≠ d.start + 8) → _ := fun x hx => hframe x hx
  have hab : ∀ x, b.start ≤ x → ∀ d ∈ l1, x ≠ d.start + 8 := fun x hx d hd => by
    have h1 := (hl1 d hd).1.room
    have h2 := (hl1 d hd).2
    rw [stop] at h2
    omega
  refine ⟨linked_append.mpr ⟨b.start, hlinked, rfl, hb.pos, ?_, ?_⟩, fun x hx hx' => ?_, htotal⟩
  · rw [Heap.link, hmem' _ (hab _ (le_refl _)), store_mem, if_neg (by omega), hmem]
  · rw [Heap.link, hmem' _ (hab _ (by omega)), store_mem, if_pos rfl]
    refine (hk ▸ hk2).congr fun d hd => ?_
    have hd := (hl2 d hd).2
    rw [stop] at hd
    rw [hmem' _ (hab _ (by omega)), hmem' _ (hab _ (by omega)), store_mem, store_mem,
      if_neg (by omega), if_neg (by omega)]
    exact ⟨rfl, rfl⟩
  · rw [Heap.link, hmem' _ hx', store_mem, if_neg hx]

/-- **A block takes in the one behind it.** -/
theorem Free.absorb (h : s.Free (l1 ++ x :: y :: l2)) (hx : Tidy x) (hy : Tidy y)
    (hl1 : ∀ d ∈ l1, Tidy d ∧ d.stop ≤ x.start) (hl2 : ∀ d ∈ l2, Tidy d ∧ y.stop ≤ d.start)
    (hxy : x.stop = y.start) :
    (s.absorb x.start y.start).Free (l1 ++ ⟨x.start, x.size + y.size⟩ :: l2) ∧
      (∀ z, z ≠ x.start → z ≠ x.start + 8 → (s.absorb x.start y.start).mem z = s.mem z) ∧
      (s.absorb x.start y.start).totalBytes = s.totalBytes := by
  obtain ⟨k, hk1, rfl, hpos, hsize, -, -, hsize', hrest⟩ := linked_append.mp h
  have hyroom := hy.room
  have hybound := hy.bound
  rw [stop] at hxy hybound
  have hsum : wadd (s.mem x.start) (s.mem y.start) = x.size + y.size := by
    rw [hsize, hsize']
    exact wadd_of_lt (by omega)
  have hmem : ∀ z, (s.absorb x.start y.start).mem z =
      if z = x.start + 8 then s.mem (y.start + 8)
      else if z = x.start then x.size + y.size else s.mem z := fun z => by
    rw [Heap.absorb, store_mem, store_mem, store_mem, hsum,
      if_neg (by omega : y.start + 8 ≠ x.start)]
  refine ⟨linked_append.mpr ⟨x.start, ?_, rfl, hpos, ?_, ?_⟩, fun z h1 h2 => ?_, rfl⟩
  · refine hk1.congr fun d hd => ?_
    have hd' := (hl1 d hd).2
    have hdroom := (hl1 d hd).1.room
    rw [stop] at hd'
    rw [hmem, hmem, if_neg (by omega), if_neg (by omega), if_neg (by omega), if_neg (by omega)]
    exact ⟨rfl, rfl⟩
  · have hne : x.start ≠ x.start + 8 := by omega
    exact (hmem x.start).trans ((if_neg hne).trans (if_pos rfl))
  · have hnext : (s.absorb x.start y.start).mem (x.start + 8) = s.mem (y.start + 8) := by
      rw [hmem, if_pos rfl]
    refine hnext ▸ hrest.congr fun d hd => ?_
    have hd' := (hl2 d hd).2
    rw [stop] at hd'
    rw [hmem, hmem, if_neg (by omega), if_neg (by omega), if_neg (by omega), if_neg (by omega)]
    exact ⟨rfl, rfl⟩
  · rw [hmem, if_neg h2, if_neg h1]

/-- **Joining with the block behind.** -/
theorem Free.joinNext (h : s.Free (l1 ++ b :: l2)) (hb : Tidy b)
    (hl1 : ∀ d ∈ l1, Tidy d ∧ d.stop ≤ b.start) (hl2 : ∀ d ∈ l2, Tidy d ∧ b.stop ≤ d.start)
    (hspaced : Spaced l2) {s' : Heap} (hs' : s' = s.joinNext b.start b.size) :
    ∃ e l2', s'.Free (l1 ++ e :: l2') ∧ e.start = b.start ∧ Tidy e ∧
      (∀ d ∈ l2', Tidy d ∧ e.stop < d.start) ∧ Spaced l2' ∧
      (∀ z, cover (e :: l2') z = cover (b :: l2) z) ∧
      (∀ z, z ≠ b.start → z ≠ b.start + 8 → s'.mem z = s.mem z) ∧
      s'.totalBytes = s.totalBytes := by
  have hstop : wadd b.start b.size = b.stop := wadd_of_lt hb.bound
  obtain ⟨k, -, -, -, -, hrest⟩ := linked_append.mp h
  have hhead := hrest.head_eq
  simp only [Heap.joinNext, hstop, hhead] at hs'
  rcases l2 with _ | ⟨y, l2⟩
  · rw [if_neg (fun hc => hc.1 rfl)] at hs'
    exact ⟨b, [], hs' ▸ h, rfl, hb, by simp, hspaced, fun _ => rfl, fun _ _ _ => by rw [hs'],
      by rw [hs']⟩
  · obtain ⟨hy, hby⟩ := hl2 y mem_cons_self
    obtain ⟨hyl, hspaced'⟩ := spaced_cons.mp hspaced
    have hl2' : ∀ d ∈ l2, Tidy d ∧ y.stop < d.start := fun d hd =>
      ⟨(hl2 d (mem_cons_of_mem _ hd)).1, hyl d hd⟩
    by_cases hxy : b.stop = y.start
    · rw [if_pos ⟨hy.pos, hxy⟩] at hs'
      subst hs'
      obtain ⟨hfree, hframe, htotal⟩ := h.absorb hb hy hl1 (fun d hd =>
        ⟨(hl2' d hd).1, (hl2' d hd).2.le⟩) hxy
      refine ⟨_, l2, hfree, rfl, hb.join hy hxy, fun d hd => ⟨(hl2' d hd).1, ?_⟩, hspaced',
        cover_join hxy l2, hframe, htotal⟩
      have := (hl2' d hd).2
      simp only [stop] at this hxy ⊢
      omega
    · rw [if_neg (fun hc => hxy hc.2)] at hs'
      refine ⟨b, y :: l2, hs' ▸ h, rfl, hb, fun d hd => ⟨(hl2 d hd).1, ?_⟩, hspaced, fun _ => rfl,
        fun _ _ _ => by rw [hs'], by rw [hs']⟩
      rcases mem_cons.mp hd with rfl | hd
      · omega
      · have := (hl2' d hd).2
        have := hy.start_lt_stop
        omega

/-- **Joining with the block before.** -/
theorem Free.joinPrevious (h : s.Free (l1 ++ b :: l2)) (hb : Tidy b)
    (hl1 : ∀ d ∈ l1, Tidy d ∧ d.stop ≤ b.start) (hl2 : ∀ d ∈ l2, Tidy d ∧ b.stop < d.start)
    (hspaced1 : Spaced l1) (hspaced2 : Spaced l2) {s' : Heap}
    (hs' : s' = s.joinPrevious (lastAddr l1 0) b.start) :
    ∃ l', s'.Free l' ∧ (∀ d ∈ l', Tidy d) ∧ Spaced l' ∧
      (∀ z, cover l' z = cover (l1 ++ b :: l2) z) ∧
      (∀ z, (∀ d ∈ l1, z ≠ d.start ∧ z ≠ d.start + 8) → s'.mem z = s.mem z) ∧
      s'.totalBytes = s.totalBytes := by
  have hspaced_bl₂ : Spaced (b :: l2) := spaced_cons.mpr ⟨fun d hd => (hl2 d hd).2, hspaced2⟩
  have htidy : ∀ d ∈ l1 ++ b :: l2, Tidy d := fun d hd => by
    rcases mem_append.mp hd with hd | hd
    · exact (hl1 d hd).1
    · rcases mem_cons.mp hd with rfl | hd
      · exact hb
      · exact (hl2 d hd).1
  rw [Heap.joinPrevious] at hs'
  rcases l1.eq_nil_or_concat' with rfl | ⟨l1, p, rfl⟩
  · rw [if_neg (fun hc => hc.1 rfl)] at hs'
    exact ⟨_, hs' ▸ h, htidy, hspaced_bl₂, fun _ => rfl, fun _ _ => by rw [hs'], by rw [hs']⟩
  · obtain ⟨hp, hpb⟩ := hl1 p (by simp)
    have hl1' : ∀ d ∈ l1, Tidy d ∧ d.stop < p.start := fun d hd =>
      ⟨(hl1 d (mem_append_left _ hd)).1, (spaced_append.mp hspaced1).2.2 d hd p (by simp)⟩
    have hassoc : l1 ++ [p] ++ b :: l2 = l1 ++ p :: b :: l2 := by simp
    rw [hassoc] at h htidy ⊢
    obtain ⟨k, -, rfl, -, hsize, -⟩ := linked_append.mp h
    rw [lastAddr_concat, hsize, wadd_of_lt hp.bound] at hs'
    by_cases hxy : p.stop = b.start
    · rw [if_pos ⟨hp.pos, hxy⟩] at hs'
      subst hs'
      obtain ⟨hfree, hframe, htotal⟩ := h.absorb hp hb (fun d hd =>
        ⟨(hl1' d hd).1, (hl1' d hd).2.le⟩) (fun d hd => ⟨(hl2 d hd).1, (hl2 d hd).2.le⟩) hxy
      have hjoin := hp.join hb hxy
      have hstop : (⟨p.start, p.size + b.size⟩ : MemBlock).stop = b.stop := by
        simp only [stop] at hxy ⊢
        omega
      refine ⟨_, hfree, fun d hd => ?_, spaced_append.mpr ⟨(spaced_append.mp hspaced1).1,
        spaced_cons.mpr ⟨fun d hd => hstop ▸ (hl2 d hd).2, hspaced2⟩, fun d hd d' hd' => ?_⟩,
        fun z => ?_, fun z hz => hframe z (hz p (by simp)).1 (hz p (by simp)).2, htotal⟩
      · rcases mem_append.mp hd with hd | hd
        · exact (hl1' d hd).1
        · rcases mem_cons.mp hd with rfl | hd
          · exact hjoin
          · exact (hl2 d hd).1
      · rcases mem_cons.mp hd' with rfl | hd'
        · exact (hl1' d hd).2
        · have h1 := (hl1' d hd).2
          have h2 := (hl2 d' hd').2
          have h3 := hb.start_lt_stop
          have h4 := hp.start_lt_stop
          omega
      · rw [cover_append, cover_join hxy, cover_append]
    · rw [if_neg (fun hc => hxy hc.2)] at hs'
      have hlt : p.stop < b.start := lt_of_le_of_ne hpb hxy
      refine ⟨_, hs' ▸ h, htidy, ?_, fun _ => rfl, fun _ _ => by rw [hs'], by rw [hs']⟩
      rw [← hassoc]
      refine spaced_append.mpr ⟨hspaced1, hspaced_bl₂, fun d hd d' hd' => ?_⟩
      have h1 : d.stop < b.start := by
        rcases mem_append.mp hd with hd | hd
        · have := (hl1' d hd).2
          have := hp.start_lt_stop
          omega
        · rwa [mem_singleton.mp hd]
      rcases mem_cons.mp hd' with rfl | hd'
      · exact h1
      · have := (hl2 d' hd').2
        have := hb.start_lt_stop
        omega

/-- **Inserting a region** into the free list: it covers what the list and the region
covered, and no word changes outside of them. -/
theorem Free.addFreeRegion (h : s.Free l) (hl : ∀ d ∈ l, Tidy d) (hspaced : Spaced l)
    (hb : Tidy b) (hapart : ∀ d ∈ l, Apart b d) :
    ∃ l', (s.addFreeRegion b.start b.size).Free l' ∧ (∀ d ∈ l', Tidy d) ∧ Spaced l' ∧
      (∀ x, cover l' x = cover (b :: l) x) ∧
      (∀ x, ¬b.has x = true → (∀ d ∈ l, ¬d.has x = true) →
        (s.addFreeRegion b.start b.size).mem x = s.mem x) ∧
      (s.addFreeRegion b.start b.size).totalBytes = s.totalBytes := by
  obtain ⟨l1, l2, rfl, hl1, hl2⟩ := hspaced.split b.start
  have hlt := hb.start_lt_stop
  have hl1' : ∀ d ∈ l1, Tidy d ∧ d.stop ≤ b.start := fun d hd => by
    have hd' := mem_append_left l2 hd
    refine ⟨hl d hd', (hapart d hd').elim (fun hle => ?_) id⟩
    have := hl1 d hd
    omega
  have hl2' : ∀ d ∈ l2, Tidy d ∧ b.stop ≤ d.start := fun d hd => by
    have hd' := mem_append_right l1 hd
    refine ⟨hl d hd', (hapart d hd').elim id fun hle => ?_⟩
    have := hl2 d hd
    have := (hl d hd').start_lt_stop
    omega
  obtain ⟨hspaced1, hspaced2, -⟩ := spaced_append.mp hspaced
  -- The size is written first, into a word of the region.
  have hstore : (s.store b.start b.size).Free (l1 ++ l2) :=
    Linked.update h (unused_of_not_has hl fun d hd => not_has_of_apart (hapart d hd) hb.has_start)
  have hlen : l1.length < walkBound := by
    rw [walkBound]
    have hle := Spaced.length_le hspaced1 fun d hd =>
      (⟨Nat.pos_of_ne_zero (hl1' d hd).1.pos, hl1 d hd⟩ : 1 ≤ d.start ∧ d.start < b.start)
    have := hb.bound
    omega
  have hseek := seek_eq hstore hl1 hl2 hlen 0
  obtain ⟨hlinked, hframe, htotal⟩ :=
    hstore.link (by rw [store_mem, if_pos rfl]) hb hl1' hl2' hspaced1
  obtain ⟨e, l2', hfree, hstart, he, hl₂'', hspaced2', hcover, hframe', htotal'⟩ :=
    hlinked.joinNext hb hl1' hl2' hspaced2 rfl
  obtain ⟨l', hfree', hl', hspaced', hcover', hframe'', htotal''⟩ :=
    hfree.joinPrevious he (by rw [hstart]; exact hl1') hl₂'' hspaced1 hspaced2' rfl
  have heq : s.addFreeRegion b.start b.size =
      (((s.store b.start b.size).link (lastAddr l1 0) (headAddr l2 0) b.start).joinNext b.start
        b.size).joinPrevious (lastAddr l1 0) b.start := by
    rw [addFreeRegion]
    simp only [hseek]
  rw [hstart] at hfree' hframe'' htotal''
  refine ⟨l', heq ▸ hfree', hl', hspaced', fun x => ?_, fun x hx hx' => ?_, ?_⟩
  · rw [hcover', cover_append, hcover, cover_cons, cover_cons, cover_append]
    omega
  · have hun : Unused (l1 ++ l2) x := unused_of_not_has hl hx'
    have hxb : x ≠ b.start ∧ x ≠ b.start + 8 :=
      ⟨fun hc => hx (hc ▸ hb.has_start), fun hc => hx (hc ▸ hb.has_next)⟩
    have hun1 : ∀ d ∈ l1, x ≠ d.start ∧ x ≠ d.start + 8 := fun d hd =>
      hun d (mem_append_left _ hd)
    refine (congrArg (fun t : Heap => t.mem x) heq).trans ((hframe'' x hun1).trans
      ((hframe' x hxb.1 hxb.2).trans ((hframe x hxb.2 fun d hd => (hun1 d hd).2).trans ?_)))
    rw [store_mem, if_neg hxb.1]
  · exact (congrArg totalBytes heq).trans (htotal''.trans (htotal'.trans htotal))

end

/-! ### Cutting off an allocation -/

section

theorem alignUp_spec {addr align : ℕ} (halign : 0 < align) (h : addr + (align - 1) < wordSize) :
    addr ≤ alignUp addr align ∧ alignUp addr align % align = 0 ∧ alignUp addr align < wordSize := by
  have hdiv := div_add_mod (addr + (align - 1)) align
  have hmod := mod_lt (addr + (align - 1)) halign
  have hle := div_mul_le_self (addr + (align - 1)) align
  rw [alignUp, wadd_of_lt h, alignDown]
  refine ⟨?_, mul_mod_left _ _, lt_of_le_of_lt hle h⟩
  rw [mul_comm] at hdiv
  omega

/-- What is known of an allocation of `size` bytes tried in a block: the user pointer `u`
and the end `e`. -/
structure Fit (b : MemBlock) (size align u e : ℕ) : Prop where
  header : b.start + headerSize ≤ u
  word : u % 8 = 0
  aligned : u % align = 0
  payload : u + max size 1 ≤ e
  whole : e % 8 = 0
  bound : u < wordSize

/-- **Where an allocation lies in a block**, when no computation wraps. -/
theorem fit_of_requestedEnd {size align e : ℕ} (halign : ∃ k, align = 2 ^ k)
    (hwrap : HeapWorld.NoWrapAt size align b) (h : requestedEnd b.start size align = some e) :
    Fit b size align (userAddr b.start align) e := by
  obtain ⟨hu, hend⟩ := hwrap
  obtain ⟨k, rfl⟩ := halign
  -- The alignment that is used is a multiple of the word and of the one asked for.
  have hdvd : 8 ∣ max (2 ^ k) wordAlign ∧ 2 ^ k ∣ max (2 ^ k) wordAlign := by
    have h8 : wordAlign = 2 ^ 3 := rfl
    rcases Nat.le_total k 3 with hk | hk
    · rw [h8, max_eq_right (Nat.pow_le_pow_right (by omega) hk)]
      exact ⟨Nat.dvd_refl _, Nat.pow_dvd_pow 2 hk⟩
    · rw [h8, max_eq_left (Nat.pow_le_pow_right (by omega) hk)]
      exact ⟨Nat.pow_dvd_pow 2 hk, Nat.dvd_refl _⟩
  have hpos : 0 < max (2 ^ k) wordAlign := lt_of_lt_of_le (by decide) (le_max_right _ _)
  have hstart : b.start + headerSize < wordSize := lt_of_le_of_lt (Nat.le_add_right _ _) hu
  rw [requestedEnd] at h
  split_ifs at h with hfits
  obtain rfl := Option.some.inj h
  have hend' := hend hfits
  rw [userAddr, wadd_of_lt hstart] at *
  obtain ⟨h1, h2, h3⟩ := alignUp_spec hpos hu
  obtain ⟨h4, h5, -⟩ := alignUp_spec (by decide) hend'
  refine ⟨h1, ?_, ?_, h4, h5, h3⟩
  · exact Nat.mod_eq_zero_of_dvd (Nat.dvd_trans hdvd.1 (Nat.dvd_of_mod_eq_zero h2))
  · exact Nat.mod_eq_zero_of_dvd (Nat.dvd_trans hdvd.2 (Nat.dvd_of_mod_eq_zero h2))

variable {s : Heap} {l1 l2 : List MemBlock} {b : MemBlock} {size align u e : ℕ}

/-- What is left of a block, as a list. -/
def rest (b : MemBlock) (e : ℕ) : List MemBlock :=
  if b.stop - e ≥ minimumFree then [⟨e, b.stop - e⟩] else []

/-- What is cut off a block. -/
def cut (b : MemBlock) (e : ℕ) : MemBlock :=
  if b.stop - e ≥ minimumFree then ⟨b.start, e - b.start⟩ else b

theorem cut_start (b : MemBlock) (e : ℕ) : (cut b e).start = b.start := by
  rw [cut]
  split_ifs <;> rfl

theorem le_cut_stop (he : e ≤ b.stop) : e ≤ (cut b e).stop := by
  rw [cut]
  split_ifs
  · simp only [stop]
    omega
  · exact he

theorem tidy_cut (hb : Tidy b) (h : Fit b size align u e) (he : e ≤ b.stop) : Tidy (cut b e) := by
  obtain ⟨h1, h2, h3, h4, h5⟩ := hb
  obtain ⟨h6, -, -, h7, h8, -⟩ := h
  rw [cut]
  split_ifs
  · simp only [headerSize] at h6
    refine ⟨h1, h2, by simp only; omega, by simp only; omega, ?_⟩
    simp only [stop] at *
    omega
  · exact ⟨h1, h2, h3, h4, h5⟩

theorem tidy_rest (hb : Tidy b) (h : Fit b size align u e) (he : e ≤ b.stop) :
    ∀ d ∈ rest b e, Tidy d ∧ b.start < d.start ∧ d.stop = b.stop := by
  obtain ⟨-, h2, h3, h4, h5⟩ := hb
  obtain ⟨h6, -, -, h7, h8, -⟩ := h
  intro d hd
  rw [rest] at hd
  split_ifs at hd with hroom
  · rw [mem_singleton.mp hd]
    have hstop : (⟨e, b.stop - e⟩ : MemBlock).stop = b.stop := add_sub_of_le he
    refine ⟨⟨by simp only; omega, h8, ?_, hroom, by rw [hstop]; exact h5⟩, by simp only; omega,
      hstop⟩
    simp only [stop] at *
    omega
  · cases hd

/-- The two parts of a block cover what it covered. -/
theorem cover_cut (h : Fit b size align u e) (he : e ≤ b.stop) (l : List MemBlock) (z : ℕ) :
    cover (rest b e ++ l) z + cover [cut b e] z = cover (b :: l) z := by
  have hstart : b.start ≤ e := by
    have h1 := h.header
    have h2 := h.payload
    omega
  rw [rest, cut]
  split_ifs
  · have hsplit := cover_join (x := ⟨b.start, e - b.start⟩) (y := ⟨e, b.stop - e⟩)
      (add_sub_of_le hstart) l z
    have hwhole : (⟨b.start, e - b.start + (b.stop - e)⟩ : MemBlock) = b := by
      obtain ⟨start, size⟩ := b
      simp only [MemBlock.stop, MemBlock.mk.injEq, true_and] at *
      omega
    simp only [hwhole] at hsplit
    rw [hsplit, List.singleton_append, cover_cons, cover_cons, cover_cons, cover_cons, cover_nil]
    omega
  · rw [List.nil_append, cover_cons, cover_cons, cover_nil]
    omega

/-- **The rest of a block** takes its place in the free list. -/
theorem splitRest_spec (h : Linked s.mem b.start (b :: l2) 0) (hb : Tidy b)
    (hl2 : ∀ d ∈ l2, b.stop < d.start) (hfit : Fit b size align u e) (he : e ≤ b.stop) :
    let r := s.splitRest b.start b.stop e
    Linked r.2.2.mem r.2.1 (rest b e ++ l2) 0 ∧ wsub r.1 b.start = (cut b e).size ∧
      (∀ x, ¬(e ≤ x ∧ x < b.stop) → r.2.2.mem x = s.mem x) ∧ r.2.2.freeList = s.freeList ∧
      r.2.2.totalBytes = s.totalBytes := by
  obtain ⟨-, -, -, hrest⟩ := h
  have hstart := hfit.header
  have hpay := hfit.payload
  have hbound := hb.bound
  simp only [headerSize] at hstart
  simp only [splitRest, rest, cut]
  split_ifs with hroom
  · simp only [minimumFree] at hroom
    have hmem : ∀ x, ((s.store e (b.stop - e)).store (e + 8)
        ((s.store e (b.stop - e)).mem (b.start + 8))).mem x =
        if x = e + 8 then s.mem (b.start + 8)
        else if x = e then b.stop - e else s.mem x := fun x => by
      rw [store_mem, store_mem, store_mem, if_neg (by omega : b.start + 8 ≠ e)]
    refine ⟨⟨rfl, by simp only; omega, ?_, ?_⟩, ?_, fun x hx => ?_, rfl, rfl⟩
    · exact (hmem e).trans ((if_neg (by omega)).trans (if_pos rfl))
    · refine (show _ = s.mem (b.start + 8) from (hmem (e + 8)).trans (if_pos rfl)) ▸
        hrest.congr fun d hd => ?_
      have hd' := hl2 d hd
      rw [hmem, hmem, if_neg (by omega), if_neg (by omega), if_neg (by omega), if_neg (by omega)]
      exact ⟨rfl, rfl⟩
    · exact wsub_of_le (by omega) (by omega)
    · rw [hmem, if_neg (by omega), if_neg (by omega)]
  · refine ⟨hrest, ?_, fun _ _ => rfl, rfl, rfl⟩
    have hge : b.start ≤ b.stop := hb.start_lt_stop.le
    rw [wsub_of_le hbound hge, stop, Nat.add_sub_cancel_left]

/-- Where the header of an allocation is. -/
theorem Fit.header_eq (h : Fit b size align u e) : wsub u headerSize = u - headerSize :=
  wsub_of_le h.bound (le_trans (le_add_left _ _) h.header)

/-- **Cutting an allocation off a block** of the free list: what is left takes the place of
the block, the header says what was cut off, and no other word changes. -/
theorem Free.carve (h : s.Free (l1 ++ b :: l2)) (hl : ∀ d ∈ l1 ++ b :: l2, Tidy d)
    (hspaced : Spaced (l1 ++ b :: l2)) (hfit : Fit b size align u e) (he : e ≤ b.stop) :
    ∃ s', s.carve (lastAddr l1 0) b.start u e = (u, s') ∧ s'.Free (l1 ++ (rest b e ++ l2)) ∧
      s'.headerBlock u = cut b e ∧
      (∀ x, ¬b.has x = true → (∀ d ∈ l1, ¬d.has x = true) → s'.mem x = s.mem x) ∧
      s'.totalBytes = s.totalBytes := by
  have hb : Tidy b := hl b (by simp)
  have hl1 : ∀ d ∈ l1, Tidy d := fun d hd => hl d (mem_append_left _ hd)
  obtain ⟨hspaced1, hspaced2, hlt⟩ := spaced_append.mp hspaced
  have hbl2 := (spaced_cons.mp hspaced2).1
  obtain ⟨k, hk1, hk2⟩ := linked_append.mp h
  obtain rfl : k = b.start := hk2.1
  have hend : b.start + s.mem b.start = b.stop := by rw [hk2.2.2.1, stop]
  have hstart := hfit.header
  have hpay := hfit.payload
  simp only [headerSize] at hstart
  obtain ⟨hrest, hsize, hframe, hhead, htotal⟩ := splitRest_spec hk2 hb hbl2 hfit he
  set r := s.splitRest b.start b.stop e with hr
  -- Whatever is below the block is not touched by the rest.
  have hbelow : ∀ d ∈ l1, ∀ x, d.start ≤ x → x < d.stop → ¬(e ≤ x ∧ x < b.stop) := by
    intro d hd x _ h2
    have := hlt d hd b mem_cons_self
    omega
  have hl1' : Linked r.2.2.mem r.2.2.freeList l1 b.start := by
    rw [hhead]
    refine hk1.congr fun d hd => ?_
    have hroom := (hl1 d hd).room
    exact ⟨hframe _ (hbelow d hd _ (le_refl _) (hl1 d hd).start_lt_stop),
      hframe _ (hbelow d hd _ (by omega) (by rw [stop]; omega))⟩
  obtain ⟨hlink, hframe', htotal'⟩ := relink_spec hl1' hl1 hspaced1
  have habove : ∀ x, b.start ≤ x → ∀ d ∈ l1, x ≠ d.start + 8 := fun x hx d hd => by
    have h1 := (hl1 d hd).room
    have h2 := hlt d hd b mem_cons_self
    rw [stop] at h2
    omega
  have hrest' : Linked (r.2.2.relink (lastAddr l1 0) r.2.1).mem r.2.1 (rest b e ++ l2) 0 := by
    refine hrest.congr fun d hd => ?_
    have hge : b.start ≤ d.start := by
      rcases mem_append.mp hd with hd | hd
      · exact (tidy_rest hb hfit he d hd).2.1.le
      · exact (lt_trans hb.start_lt_stop (hbl2 d hd)).le
    exact ⟨hframe' _ (habove _ hge), hframe' _ (habove _ (by omega))⟩
  have hheader := hfit.header_eq
  simp only [headerSize] at hheader
  set t := r.2.2.relink (lastAddr l1 0) r.2.1 with ht
  have hcarve : s.carve (lastAddr l1 0) b.start u e =
      (u, t.writeHeader u b.start (cut b e).size) := by
    rw [Heap.carve, hend]
    simp only [← hr, ← ht, hsize]
  have hmem : ∀ x, (t.writeHeader u b.start (cut b e).size).mem x =
      if x = u - 16 + 8 then (cut b e).size
      else if x = u - 16 then b.start else t.mem x := fun x => by
    rw [writeHeader, store_mem, store_mem]
    simp only [headerSize, hheader]
  have hkeep : ∀ d ∈ l1 ++ (rest b e ++ l2), ∀ x, x = d.start ∨ x = d.start + 8 →
      x ≠ u - 16 ∧ x ≠ u - 16 + 8 := fun d hd x hx => by
    rcases mem_append.mp hd with hd | hd
    · have h1 := (hl1 d hd).room
      have h2 := hlt d hd b mem_cons_self
      rw [stop] at h2
      omega
    · rcases mem_append.mp hd with hd | hd
      · have hde : d.start = e := by
          rw [rest] at hd
          split_ifs at hd
          · rw [mem_singleton.mp hd]
          · cases hd
        omega
      · have := hbl2 d hd
        omega
  refine ⟨_, hcarve, ?_, ?_, fun x hx hx' => ?_, htotal'.trans htotal⟩
  · have hfree : Linked t.mem t.freeList (l1 ++ (rest b e ++ l2)) 0 :=
      linked_append.mpr ⟨_, hlink, hrest'⟩
    refine hfree.congr fun d hd => ?_
    have h1 := hkeep d hd _ (.inl rfl)
    have h2 := hkeep d hd _ (.inr rfl)
    rw [hmem, hmem, if_neg h1.2, if_neg h1.1, if_neg h2.2, if_neg h2.1]
    exact ⟨rfl, rfl⟩
  · rw [headerBlock]
    simp only [headerSize, hheader]
    rw [hmem, hmem, if_neg (by omega), if_pos rfl, if_pos rfl, ← cut_start b e]
  · rw [has_iff] at hx
    rw [hmem, if_neg (by omega), if_neg (by omega), hframe' x, hframe x (by omega)]
    rintro d hd rfl
    exact hx' d hd (hl1 d hd).has_next

/-- **The search of the free list** finds nothing and changes nothing, or cuts the
allocation off a block that it fits into. -/
theorem Free.allocLoop (h : s.Free (l1 ++ l)) (hl : ∀ d ∈ l, Tidy d)
    (halign : ∃ k, align = 2 ^ k) (hwrap : ∀ d ∈ l, HeapWorld.NoWrapAt size align d) {fuel : ℕ}
    (hfuel : l.length < fuel) :
    s.allocLoop size align fuel (lastAddr l1 0) (headAddr l 0) = (0, s) ∨
      ∃ m b l2 e, l = m ++ b :: l2 ∧ Fit b size align (userAddr b.start align) e ∧ e ≤ b.stop ∧
        s.allocLoop size align fuel (lastAddr l1 0) (headAddr l 0) =
          s.carve (lastAddr (l1 ++ m) 0) b.start (userAddr b.start align) e := by
  induction l generalizing l1 fuel with
  | nil =>
    obtain ⟨fuel, rfl⟩ := Nat.exists_eq_succ_of_ne_zero (Nat.ne_zero_of_lt hfuel)
    exact .inl (by rw [allocLoop]; exact if_pos rfl)
  | cons b l ih =>
    obtain ⟨fuel, rfl⟩ := Nat.exists_eq_succ_of_ne_zero (Nat.ne_zero_of_lt hfuel)
    have hb : Tidy b := hl b mem_cons_self
    obtain ⟨k, -, -, hpos, hsize, hrest⟩ := linked_append.mp h
    have hend : b.start + s.mem b.start = b.stop := by rw [hsize, stop]
    have hbound := hb.bound
    simp only [headAddr, allocLoop, hend]
    rw [if_neg hpos, if_neg (by omega)]
    cases hreq : requestedEnd b.start size align with
    | none => exact .inl rfl
    | some e =>
      simp only
      split_ifs with he
      · have hfit := fit_of_requestedEnd halign (hwrap b mem_cons_self) hreq
        exact .inr ⟨[], b, l, e, rfl, hfit, he, by rw [append_nil]⟩
      · have hassoc : l1 ++ [b] ++ l = l1 ++ b :: l := by simp
        have hnext := ih (hassoc ▸ h) (fun d hd => hl d (mem_cons_of_mem _ hd))
          (fun d hd => hwrap d (mem_cons_of_mem _ hd)) (Nat.lt_of_succ_lt_succ hfuel)
        rw [lastAddr_concat, ← hrest.head_eq] at hnext
        rcases hnext with hnone | ⟨m, d, l2, e', rfl, hfit, he', heq⟩
        · exact .inl hnone
        · refine .inr ⟨b :: m, d, l2, e', rfl, hfit, he', ?_⟩
          rw [heq, append_assoc, List.singleton_append]

end

theorem length_lt_walkBound (hl : ∀ d ∈ l, Tidy d) (hspaced : Spaced l) : l.length < walkBound := by
  rw [walkBound]
  have hle := Spaced.length_le hspaced fun d hd =>
    (⟨Nat.pos_of_ne_zero (hl d hd).pos, lt_trans (hl d hd).start_lt_stop (hl d hd).bound⟩ :
      1 ≤ d.start ∧ d.start < wordSize)
  simp only [wordSize] at hle ⊢
  omega

theorem Free.freeBlocks_eq {s : Heap} (h : s.Free l) (hl : ∀ d ∈ l, Tidy d)
    (hspaced : Spaced l) : s.freeBlocks = l :=
  Linked.blocksFrom_eq h (length_lt_walkBound hl hspaced)

end Heap

end DunitOS.Memory
