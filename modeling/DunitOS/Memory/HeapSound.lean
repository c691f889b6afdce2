import DunitOS.Memory.HeapBlocks

/-!
# The kernel heap is sound

The invariant of a run (`HeapWorld.Inv`) says the partition of the regions as
a sum: every address is covered by the free blocks and the blocks of the live allocations
together as often as by the regions. It is kept by every call, by clients that write into
what they were given included, as long as no address computation wraps
(`heap_sound`). The code rounds up with an addition that is not checked, and
an alignment that is large enough takes the user pointer around the end of the address
space (`heap_not_sound`).
-/

namespace DunitOS.Memory

open SysLib List Option Function MemBlock Heap HeapWorld Allocation

/-! ### The invariant of a run -/

namespace HeapWorld

/-- What is known of a live allocation. -/
structure Live (heap : Heap) (a : Allocation) : Prop where
  tidy : Tidy a.block
  aligned : a.ptr % a.align = 0
  word : a.ptr % 8 = 0
  header : a.block.start + headerSize ≤ a.ptr
  payload : a.ptr + max a.size 1 ≤ a.block.stop
  names : heap.headerBlock a.ptr = a.block

/-- **The invariant**: the free list in memory is a list of blocks that are apart, and the
free blocks and the blocks of the live allocations together cover what the regions cover. -/
structure Inv (w : HeapWorld) (free : List MemBlock) : Prop where
  linked : w.heap.Free free
  tidy : ∀ b ∈ free, Tidy b
  spaced : Spaced free
  live : ∀ a ∈ w.live, Live w.heap a
  balance : ∀ x, cover free x + cover (w.live.map Allocation.block) x = cover w.regions x
  once : ∀ x, cover w.regions x ≤ 1

section

variable {w : HeapWorld} {free : List MemBlock}
variable {heap : Heap} {a : Allocation} {grant : Option ℕ} {r : MemBlock} {size align : ℕ}

theorem Live.header_eq (h : Live heap a) : wsub a.ptr headerSize = a.ptr - headerSize := by
  have h1 := h.header
  have h2 := h.payload
  have h3 := h.tidy.bound
  have h4 : 1 ≤ max a.size 1 := le_max_right _ _
  exact wsub_of_le (by omega) (by omega)

/-- The words of the header are in the block. -/
theorem Live.has_header (h : Live heap a) :
    a.block.has (a.ptr - 16) = true ∧ a.block.has (a.ptr - 16 + 8) = true := by
  have h1 := h.header
  have h2 := h.payload
  simp only [headerSize] at h1
  rw [has_iff, has_iff]
  omega

/-- An allocation stays live as long as its header does. -/
theorem Live.of_mem {heap' : Heap} (h : Live heap a)
    (hmem : ∀ x, a.block.has x = true → x < a.ptr → heap'.mem x = heap.mem x) : Live heap' a := by
  obtain ⟨h1, h2⟩ := h.has_header
  have hlo := h.header
  refine ⟨h.tidy, h.aligned, h.word, h.header, h.payload, ?_⟩
  rw [← h.names, headerBlock, headerBlock, h.header_eq]
  simp only [headerSize] at hlo ⊢
  rw [hmem _ h1 (by omega), hmem _ h2 (by omega)]

/-- A free block and a live one have no address in common. -/
theorem Inv.not_has (h : w.Inv free) {b : MemBlock} (hb : b ∈ free) {a : Allocation}
    (ha : a ∈ w.live) {x : ℕ} (hx : a.block.has x = true) : ¬b.has x = true := fun hx' => by
  have hle : cover free x + cover (w.live.map block) x ≤ 1 := h.balance x ▸ h.once x
  exact not_has_of_cover hle hb (mem_map_of_mem ha) hx' hx

theorem Inv.live_cover_le (h : w.Inv free) (x : ℕ) : cover (w.live.map Allocation.block) x ≤ 1 := by
  have h1 := h.balance x
  have h2 := h.once x
  omega

/-- A client writes into its own memory: neither the free list nor a header changes. -/
theorem Inv.write (h : w.Inv free) {addr v : ℕ} (hok : w.Admits (.write addr v)) :
    (w.next (.write addr v)).Inv free := by
  obtain ⟨-, a, ha, hlo, hhi⟩ := hok
  have hlive := h.live a ha
  have hpay := hlive.payload
  have hhead := hlive.header
  have hin : a.block.has addr = true := has_iff.mpr ⟨by omega, by omega⟩
  refine ⟨Linked.update h.linked (unused_of_not_has h.tidy fun b hb => h.not_has hb ha hin), h.tidy,
    h.spaced, fun a' ha' => (h.live a' ha').of_mem fun x hx hlt => ?_, h.balance, h.once⟩
  refine (store_mem ..).trans (if_neg ?_)
  rintro rfl
  obtain rfl := eq_of_cover_le_one (h.live_cover_le _) ha ha' hin hx
  omega

variable {ptr : ℕ}

/-- **A block goes back to the free list.** -/
theorem Inv.dealloc (h : w.Inv free) (hok : w.Admits (.dealloc ptr)) :
    ∃ free', (w.next (.dealloc ptr)).Inv free' := by
  obtain ⟨a0, ha0, hptr0⟩ := hok
  obtain ⟨a, l1, l2, -, hptr, hlive, herase⟩ :=
    exists_of_eraseP (p := fun a : Allocation => a.ptr == ptr) ha0 (beq_iff_eq.mpr hptr0)
  have hptr : a.ptr = ptr := beq_iff_eq.mp hptr
  have ha : a ∈ w.live := by simp [hlive]
  have hsub : ∀ a' ∈ l1 ++ l2, a' ∈ w.live := fun a' ha' => by
    rw [hlive]
    rcases mem_append.mp ha' with ha' | ha'
    · exact mem_append_left _ ha'
    · exact mem_append_right _ (mem_cons_of_mem _ ha')
  have hnames := (h.live a ha).names
  rw [hptr] at hnames
  have htidy := (h.live a ha).tidy
  have hapart : ∀ d ∈ free, Apart a.block d := fun d hd =>
    apart_of_not_has htidy.start_lt_stop (h.tidy d hd).start_lt_stop fun x hx => h.not_has hd ha hx
  obtain ⟨free', hfree, htidy', hspaced, hcover, hframe, -⟩ :=
    h.linked.addFreeRegion h.tidy h.spaced htidy hapart
  have hcount : ∀ x, cover (w.live.map block) x =
      cover ((l1 ++ l2).map block) x +
        if a.block.start ≤ x ∧ x < a.block.stop then 1 else 0 := fun x => by
    rw [hlive, map_append, map_cons, cover_append, cover_cons, map_append, cover_append]
    omega
  have hnext : w.next (.dealloc ptr) =
      ⟨w.heap.addFreeRegion a.block.start a.block.size, w.regions, l1 ++ l2⟩ := by
    rw [next, Heap.dealloc, hnames, herase]
  rw [hnext]
  refine ⟨free', hfree, htidy', hspaced, fun a' ha' => ?_, fun x => ?_, h.once⟩
  · refine (h.live a' (hsub a' ha')).of_mem fun x hx _ =>
      hframe x (fun hx' => ?_) fun d hd => h.not_has hd (hsub a' ha') hx
    have hle := h.live_cover_le x
    rw [hcount, if_pos (has_iff.mp hx')] at hle
    have hone : 1 ≤ cover ((l1 ++ l2).map block) x := one_le_cover (mem_map_of_mem ha') hx
    omega
  · have := h.balance x
    rw [hcount] at this
    rw [hcover, cover_cons]
    simp only
    omega

variable {r : MemBlock}

/-- **The heap grows** by a region. -/
theorem Inv.addRegion (h : w.Inv free) (hr : Tidy r)
    (hapart : ∀ q ∈ w.regions, r.stop ≤ q.start ∨ q.stop ≤ r.start) :
    ∃ free', Inv ⟨w.heap.addRegion r, r :: w.regions, w.live⟩ free' := by
  -- The region is new, so no block has an address of it.
  have hnew : ∀ x, r.has x = true → cover w.regions x = 0 := fun x hx => by
    by_contra hne
    obtain ⟨q, hq, hqx⟩ := cover_pos.mp (Nat.pos_of_ne_zero hne)
    exact not_has_of_apart (hapart q hq) hx hqx
  have hfree_new : ∀ d ∈ free, ∀ x, r.has x = true → ¬d.has x = true := fun d hd x hx hdx => by
    have h1 := h.balance x
    have h2 := one_le_cover hd hdx
    rw [hnew x hx] at h1
    omega
  have hlive_new : ∀ a ∈ w.live, ∀ x, a.block.has x = true → ¬r.has x = true := by
    intro a ha x hx hrx
    have h1 := h.balance x
    have h2 := one_le_cover (mem_map_of_mem ha) hx
    rw [hnew x hrx] at h1
    omega
  obtain ⟨free', hfree, htidy, hspaced, hcover, hframe, -⟩ :=
    h.linked.addFreeRegion h.tidy h.spaced hr fun d hd =>
      apart_of_not_has hr.start_lt_stop (h.tidy d hd).start_lt_stop (hfree_new d hd)
  refine ⟨free', hfree, htidy, hspaced, fun a ha => (h.live a ha).of_mem fun x hx _ =>
    hframe x (hlive_new a ha x hx) fun d hd => h.not_has hd ha hx, fun x => ?_, fun x => ?_⟩
  · have hbalance := h.balance x
    rw [hcover, cover_cons, cover_cons]
    simp only
    omega
  · have hle := h.once x
    simp only [cover_cons]
    split_ifs with hx
    · rw [hnew x (has_iff.mpr hx)]
    · omega

theorem Inv.allocFromFreeList (h : w.Inv free) {size align : ℕ} (halign : ∃ k, align = 2 ^ k)
    (hwrap : ∀ b ∈ free, NoWrapAt size align b) :
    w.heap.allocFromFreeList size align = (0, w.heap) ∨
      ∃ ptr heap free', w.heap.allocFromFreeList size align = (ptr, heap) ∧ ptr ≠ 0 ∧
        Inv ⟨heap, w.regions, ⟨ptr, size, align, heap.headerBlock ptr⟩ :: w.live⟩ free' := by
  have hlen := length_lt_walkBound h.tidy h.spaced
  have hlinked : w.heap.Free ([] ++ free) := h.linked
  have hloop := Heap.Free.allocLoop hlinked h.tidy halign hwrap hlen
  rw [← h.linked.head_eq, lastAddr_nil] at hloop
  rcases hloop with hnone | ⟨m, b, l2, e, rfl, hfit, he, heq⟩
  · exact .inl hnone
  · obtain ⟨heap, hcarve, hfree, hheader, hframe, -⟩ :=
      Heap.Free.carve h.linked h.tidy h.spaced hfit he
    have hb : Tidy b := h.tidy b (by simp)
    have hm : ∀ d ∈ m, Tidy d := fun d hd => h.tidy d (mem_append_left _ hd)
    obtain ⟨hspaced1, hspaced2, hlt⟩ := spaced_append.mp h.spaced
    obtain ⟨hbl2, hspaced3⟩ := spaced_cons.mp hspaced2
    have hrest := tidy_rest hb hfit he
    have hstart := hfit.header
    simp only [headerSize] at hstart
    refine .inr ⟨_, heap, m ++ (rest b e ++ l2), heq.trans hcarve, by omega, hfree,
      fun d hd => ?_, ?_, fun a ha => ?_, fun x => ?_, h.once⟩
    · rcases mem_append.mp hd with hd | hd
      · exact hm d hd
      · rcases mem_append.mp hd with hd | hd
        · exact (hrest d hd).1
        · exact h.tidy d (by simp [hd])
    · have hrestl2 : ∀ d ∈ rest b e, ∀ d' ∈ l2, d.stop < d'.start := fun d hd d' hd' => by
        rw [(hrest d hd).2.2]
        exact hbl2 d' hd'
      have hspaced_rest : Spaced (rest b e) := by
        rw [rest]
        split_ifs
        · exact pairwise_singleton _ _
        · exact List.Pairwise.nil
      refine spaced_append.mpr ⟨hspaced1, spaced_append.mpr ⟨hspaced_rest, hspaced3, hrestl2⟩,
        fun d hd d' hd' => ?_⟩
      rcases mem_append.mp hd' with hd' | hd'
      · exact lt_trans (hlt d hd b mem_cons_self) (hrest d' hd').2.1
      · exact hlt d hd d' (mem_cons_of_mem _ hd')
    · rcases mem_cons.mp ha with rfl | ha
      · refine ⟨?_, hfit.aligned, hfit.word, ?_, ?_, rfl⟩
        · rw [hheader]
          exact tidy_cut hb hfit he
        · rw [hheader, cut_start]
          exact hfit.header
        · rw [hheader]
          exact le_trans hfit.payload (le_cut_stop he)
      · refine (h.live a ha).of_mem fun x hx _ => hframe x (h.not_has (by simp) ha hx) fun d hd =>
          h.not_has (mem_append_left _ hd) ha hx
    · have h1 := h.balance x
      have h2 := cover_cut hfit he l2 x
      simp only [cover_append, map_cons, cover_cons, cover_nil, hheader] at h1 h2 ⊢
      omega

theorem le_of_alignUpChecked {value want : ℕ} (h : alignUpChecked value 4096 = some want) :
    value ≤ want := by
  rw [alignUpChecked] at h
  split_ifs at h
  obtain rfl := some.inj h
  rw [alignDown]
  omega

variable {minBytes : ℕ}

/-- A region that is added has room for a free block. -/
theorem room_of_growth (h : Heap.growth minBytes grant = some r) : 16 ≤ r.size := by
  unfold growth at h
  split at h
  · cases h
  · rename_i want hwant
    have hle : 16 ≤ want := le_trans (by decide : 16 ≤ heapGrowChunk)
      (le_trans (le_max_right _ _) (le_of_alignUpChecked hwant))
    split at h
    · cases h
    · split_ifs at h
      obtain rfl := some.inj h
      exact hle

variable {grant : Option ℕ}

theorem grow_of_none {s : Heap}
    (h : Heap.growth minBytes grant = none) : s.grow minBytes grant = (false, s) := by
  unfold grow
  simp only [h]

theorem grow_of_some {s : Heap}
    (h : Heap.growth minBytes grant = some r) : s.grow minBytes grant = (true, s.addRegion r) := by
  unfold grow
  simp only [h]

/-- A call that finds room in the free list. -/
theorem next_alloc_of_found
    (h : w.heap.allocFromFreeList size align = (ptr, heap)) (hptr : ptr ≠ 0) :
    w.next (.alloc size align grant) =
      ⟨heap, w.regions, ⟨ptr, size, align, heap.headerBlock ptr⟩ :: w.live⟩ := by
  simp only [next, alloc, added, h, if_neg hptr, nil_append]

/-- A call that finds no room and does not get a region. -/
theorem next_alloc_of_refused (h : w.heap.allocFromFreeList size align = (0, w.heap))
    (hgrow : Heap.growth (Heap.required size align) grant = none) :
    w.next (.alloc size align grant) = w := by
  simp only [next, alloc, added, h, grow_of_none hgrow, hgrow, if_true,
    Bool.false_eq_true, if_false, toList_none, nil_append]

/-- A call that finds no room is tried again when the heap has grown. -/
theorem next_alloc_of_grown (h : w.heap.allocFromFreeList size align = (0, w.heap))
    (hgrow : Heap.growth (Heap.required size align) grant = some r) {heap : Heap}
    (h' : (w.heap.addRegion r).allocFromFreeList size align = (ptr, heap)) :
    w.next (.alloc size align grant) = if ptr = 0 then ⟨heap, r :: w.regions, w.live⟩
      else ⟨heap, r :: w.regions, ⟨ptr, size, align, heap.headerBlock ptr⟩ :: w.live⟩ := by
  simp only [next, alloc, added, h, grow_of_some hgrow, hgrow, if_true, h',
    toList_some, singleton_append]

theorem tidy_of_goodRegion {regions : List MemBlock} (h : GoodRegion regions r)
    (hsize : 16 ≤ r.size) : Tidy r := by
  obtain ⟨hpos, hstart, hwhole, hbound, -⟩ := h
  exact ⟨hpos, by omega, by omega, hsize, hbound⟩

/-- **An allocation**, with the heap growing if it has to. -/
theorem Inv.alloc (h : w.Inv free) {size align : ℕ}
    (hok : w.Admits (.alloc size align grant)) (hwrap : w.NoWrap (.alloc size align grant)) :
    ∃ free', (w.next (.alloc size align grant)).Inv free' := by
  obtain ⟨halign, hregion⟩ := hok
  obtain ⟨hwrap1, hwrap2⟩ := hwrap
  rw [h.linked.freeBlocks_eq h.tidy h.spaced] at hwrap1
  rcases h.allocFromFreeList halign hwrap1 with hnone | ⟨ptr, heap, free', heq, hptr, hinv⟩
  · rcases hgrow : growth (required size align) grant with _ | r
    · exact ⟨free, (next_alloc_of_refused hnone hgrow).symm ▸ h⟩
    · have hgood := hregion r hgrow
      obtain ⟨free1, hinv1⟩ := h.addRegion (tidy_of_goodRegion hgood (room_of_growth hgrow))
        hgood.2.2.2.2
      have hwrap3 : ∀ b ∈ free1, NoWrapAt size align b := by
        rw [grow_of_some hgrow] at hwrap2
        rwa [Heap.Free.freeBlocks_eq hinv1.linked hinv1.tidy hinv1.spaced] at hwrap2
      rcases hinv1.allocFromFreeList halign hwrap3 with
        hnone1 | ⟨ptr, heap, free2, heq, hptr, hinv2⟩
      · refine ⟨free1, ?_⟩
        rw [next_alloc_of_grown hnone hgrow hnone1, if_pos rfl]
        exact hinv1
      · refine ⟨free2, ?_⟩
        rw [next_alloc_of_grown hnone hgrow heq, if_neg hptr]
        exact hinv2
  · exact ⟨free', (next_alloc_of_found heq hptr).symm ▸ hinv⟩

/-- Every admitted call in which nothing wraps keeps the invariant. -/
theorem Inv.next (h : w.Inv free) {call : HeapCall} (hok : w.Admits call) (hwrap : w.NoWrap call) :
    ∃ free', (w.next call).Inv free' := by
  cases call with
  | alloc => exact h.alloc hok hwrap
  | dealloc => exact h.dealloc hok
  | write => exact ⟨free, h.write hok⟩

theorem inv_boot (mem : Words) (hr : GoodRegion [] r) (hsize : 16 ≤ r.size) :
    (boot mem r).Inv [r] := by
  refine ⟨⟨rfl, hr.1, ?_, ?_⟩, fun b hb => ?_, pairwise_singleton _ _, fun a ha => ?_,
    fun x => rfl, fun x => ?_⟩
  · have hne : r.start ≠ r.start + 8 := by omega
    exact (update_of_ne hne _ _).trans (update_self ..)
  · exact update_self ..
  · rw [mem_singleton.mp hb]
    exact tidy_of_goodRegion hr hsize
  · cases ha
  · exact countP_le_length

/-- The invariant says that the heap is sound. -/
theorem Inv.sound (h : w.Inv free) : w.Sound := by
  have hblocks := h.linked.freeBlocks_eq h.tidy h.spaced
  have hin : ∀ x, w.InRegions x ↔ 0 < cover w.regions x := fun x => cover_pos.symm
  have hbalance : ∀ x, cover (free ++ w.live.map block) x = cover w.regions x := by
    intro x
    rw [cover_append, h.balance]
  refine ⟨hblocks ▸ h.linked, fun x => ⟨fun hx => ?_, fun hx => ?_⟩, fun a ha => ?_,
    hblocks ▸ h.spaced, fun hlive => ⟨fun x => ?_, fun b hb => ?_⟩⟩
  · have h1 := h.once x
    have h2 := (hin x).mp hx
    rw [hblocks, hbalance]
    omega
  · rw [hblocks, hbalance]
    exact Nat.eq_zero_of_not_pos fun hpos => hx ((hin x).mpr hpos)
  · obtain ⟨-, h1, -, h2, h3, h4⟩ := h.live a ha
    exact ⟨h1, h2, h3, h4⟩
  · have h1 := h.balance x
    rw [hlive, map_nil, cover_nil, Nat.add_zero] at h1
    rw [hin, ← h1, hblocks, cover_pos]
  · -- An address next to a free block would be in another one, and the two would touch.
    have hfree : ∀ x, w.InRegions x → ∃ d ∈ free, d.has x = true := fun x hx => by
      have h1 := h.balance x
      rw [hlive, map_nil, cover_nil, Nat.add_zero] at h1
      rw [hin, ← h1] at hx
      exact cover_pos.mp hx
    rw [hblocks] at hb
    obtain ⟨l1, l2, hsplit⟩ := append_of_mem hb
    have hspaced := h.spaced
    rw [hsplit] at hspaced
    obtain ⟨-, hspaced2, hlt⟩ := spaced_append.mp hspaced
    have hbl2 := (spaced_cons.mp hspaced2).1
    have hcases : ∀ d ∈ free, d.stop < b.start ∨ d = b ∨ b.stop < d.start := fun d hd => by
      rw [hsplit] at hd
      rcases mem_append.mp hd with hd | hd
      · exact .inl (hlt d hd b mem_cons_self)
      · rcases mem_cons.mp hd with hd | hd
        · exact .inr (.inl hd)
        · exact .inr (.inr (hbl2 d hd))
    have hroom := (h.tidy b hb).room
    have hbstop := (h.tidy b hb).start_lt_stop
    refine ⟨by omega, fun hx => ?_, fun x hxb hx => ?_⟩
    · obtain ⟨d, hd, hdx⟩ := hfree _ hx
      rw [has_iff] at hdx
      rcases hcases d hd with hc | rfl | hc <;> omega
    · obtain ⟨d, hd, hdx⟩ := hfree _ hx
      rw [has_iff] at hdx
      rcases hcases d hd with hc | rfl | hc <;> omega

end

end HeapWorld

/-- **The kernel heap is sound** after any sequence of allocations of any size and
alignment, frees of live pointers and writes of clients into what they were given, as long
as no address computation of an allocation wraps. -/
theorem heap_sound (mem : Words) (r : MemBlock) (hr : HeapWorld.GoodRegion [] r)
    (hsize : 16 ≤ r.size) (calls : List HeapCall)
    (hcalls : Along (fun w call => w.Admits call ∧ w.NoWrap call) HeapWorld.next
      (HeapWorld.boot mem r) calls) :
    (calls.foldl HeapWorld.next (HeapWorld.boot mem r)).Sound := by
  have hinv : ∃ free, (calls.foldl next (boot mem r)).Inv free := by
    refine Along.foldl (P := fun w => ∃ free, HeapWorld.Inv w free) (fun w call hw hok => ?_) hcalls
      ⟨_, inv_boot mem hr hsize⟩
    obtain ⟨free, hw⟩ := hw
    exact hw.next hok.1 hok.2
  obtain ⟨free, hinv⟩ := hinv
  exact hinv.sound

/-- Two pages at the second page of memory. -/
def twoPages : MemBlock := ⟨0x1000, 0x2000⟩

theorem goodRegion_twoPages : HeapWorld.GoodRegion [] twoPages :=
  ⟨by decide, by decide, by decide, by decide, fun _ h => by cases h⟩

def allocAndFree : List HeapCall := [.alloc 100 64 none, .write 0x1040 7, .dealloc 0x1040]

theorem admits_allocAndFree : Along (fun w call => HeapWorld.Admits w call ∧ w.NoWrap call) next
      (boot (fun _ => 0) twoPages) allocAndFree := by
  have hnone : ∀ r, ¬growth (required 100 64) none = some r := fun r h => by
    unfold growth at h
    split at h <;> cases h
  refine ⟨⟨⟨⟨6, rfl⟩, fun r h => absurd h (hnone r)⟩, ?_, ?_⟩, ⟨⟨rfl, ?_⟩, trivial⟩, ⟨?_, trivial⟩,
    trivial⟩
  · decide +kernel
  · decide +kernel
  · decide +kernel
  · unfold HeapWorld.Admits
    decide +kernel

theorem heap_sound_twoPages :
    HeapWorld.GoodRegion [] twoPages ∧ 16 ≤ twoPages.size ∧
      Along (fun w call => HeapWorld.Admits w call ∧ w.NoWrap call) HeapWorld.next
        (HeapWorld.boot (fun _ => 0) twoPages) allocAndFree ∧
      (allocAndFree.foldl HeapWorld.next (HeapWorld.boot (fun _ => 0) twoPages)).Sound :=
  ⟨goodRegion_twoPages, by decide, admits_allocAndFree,
    heap_sound _ _ goodRegion_twoPages (by decide) _ admits_allocAndFree⟩

/-- The bootstrap heap of two MiB, three MiB into the upper two GiB of the address space,
where the kernel is linked. -/
def bootstrapHeap : MemBlock := ⟨0xffffffff80300000, 0x200000⟩

/-- **One byte with an alignment of two GiB** is enough: the rounding wraps, the user pointer
is null, the end of the allocation is address 8, and the rest of the block is a free block
that starts there. -/
theorem heap_not_sound :
    ∃ mem r calls, HeapWorld.GoodRegion [] r ∧ 16 ≤ r.size ∧
      Along HeapWorld.Admits HeapWorld.next (HeapWorld.boot mem r) calls ∧
      ¬(calls.foldl HeapWorld.next (HeapWorld.boot mem r)).Sound := by
  have hnone : ∀ r, ¬growth (required 1 (2 ^ 31)) none = some r := fun r h => by
    unfold growth at h
    split at h <;> cases h
  refine ⟨fun _ => 0, bootstrapHeap, [.alloc 1 (2 ^ 31) none],
    ⟨by decide, by decide, by decide, by decide, fun _ h => by cases h⟩, by decide,
    ⟨⟨⟨31, rfl⟩, fun r h => absurd h (hnone r)⟩, trivial⟩, fun hsound => ?_⟩
  have hcover : cover (([HeapCall.alloc 1 (2 ^ 31) none].foldl next
      (boot (fun _ => 0) bootstrapHeap)).heap.freeBlocks ++ []) 8 = 1 := by
    decide +kernel
  have hzero := (hsound.partition 8).2 (by unfold HeapWorld.InRegions; decide +kernel)
  have hlive : (([HeapCall.alloc 1 (2 ^ 31) none].foldl next
      (boot (fun _ => 0) bootstrapHeap)).live.map block) = [] := by
    decide +kernel
  rw [hlive, hcover] at hzero
  cases hzero

end DunitOS.Memory
