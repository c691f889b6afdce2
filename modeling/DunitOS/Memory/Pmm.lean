import DunitOS.SysLib.Bits
import DunitOS.SysLib.Count
import DunitOS.SysLib.Word
import Mathlib.Order.Interval.Finset.Nat

/-!
# The physical frame allocator

The model of `kernel/src/memory/pmm.rs`. The allocator keeps one bit for each 4 KiB frame
between the lowest and the highest whole page of the usable regions of the boot memory
map, with the bit set when the frame is taken or was never usable, and counts the clear
ones.

What the bitmap stands for is a set of frame numbers, the free ones
(`Pmm.Represents`), and each operation is an operation on that set.
-/

namespace DunitOS.Memory

open SysLib List Finset

abbrev pageSize : ℕ := 4096

def memmapUsable : UInt32 := 0

def maxRegions : ℕ := 32

def bitmapBytes : ℕ := 65536

/-- A region of the boot memory map. -/
structure MemRegion where
  base : UInt64
  length : UInt64
  regionType : UInt32
  deriving DecidableEq, Repr

/-- `PhysicalMemoryManager`. -/
structure Pmm where
  bitmap : List UInt8
  totalFrames : ℕ
  usableFrames : ℕ
  freeFrames : ℕ
  baseAddr : ℕ
  deriving DecidableEq, Repr

namespace Pmm

/-! ### The operations -/

/-- A manager of `memory_size` bytes from `memory_start` on, all of them free; the length
of the bitmap is given. -/
def new (memoryStart memorySize bitmapLen : ℕ) : Pmm where
  bitmap := List.replicate bitmapLen 0
  totalFrames := memorySize / pageSize
  usableFrames := memorySize / pageSize
  freeFrames := memorySize / pageSize
  baseAddr := memoryStart

/-- Clear the bit of a frame; whether it was set. -/
def markFrameIndexFree (p : Pmm) (frameIdx : ℕ) : Bool × Pmm :=
  if frameIdx ≥ p.totalFrames then (false, p)
  else if bitGet p.bitmap frameIdx then (true, { p with bitmap := bitClear p.bitmap frameIdx })
  else (false, p)

def reserveAllFrames (p : Pmm) : Pmm :=
  { p with bitmap := List.replicate p.bitmap.length 0xff, usableFrames := 0, freeFrames := 0 }

/-- The loop of `mark_region_free_in_pool`, with the number of bits it has cleared. -/
def markFrames (r : ℕ × Pmm) (frameIdx : ℕ) : ℕ × Pmm :=
  let (isNew, p) := r.2.markFrameIndexFree frameIdx
  (if isNew then r.1 + 1 else r.1, p)

/-- Make the whole pages of a region allocatable. -/
def markRegionFreeInPool (p : Pmm) (base length : ℕ) : Pmm :=
  let regionEnd := satAdd base length
  let alignedStart := alignDown (satAdd base (pageSize - 1)) pageSize
  let alignedEnd := alignDown regionEnd pageSize
  let poolEnd := satAdd p.baseAddr (p.totalFrames * pageSize)
  let start := max alignedStart p.baseAddr
  let stop := min alignedEnd poolEnd
  if start ≥ stop then p
  else
    let first := (start - p.baseAddr) / pageSize
    let last := (stop - p.baseAddr) / pageSize
    let frames := List.range' first (min last p.totalFrames - first)
    let (newlyFree, p) := frames.foldl markFrames (0, p)
    { p with
      usableFrames := wadd p.usableFrames newlyFree
      freeFrames := wadd p.freeFrames newlyFree }

def frameAddr (p : Pmm) (frameIdx : ℕ) : ℕ := p.baseAddr + frameIdx * pageSize

/-- The allocator with one more frame taken. -/
def take (p : Pmm) (frameIdx : ℕ) : Pmm :=
  { p with bitmap := bitSet p.bitmap frameIdx, freeFrames := wsub p.freeFrames 1 }

/-- The loop of `alloc_frame` over the bits of a byte. -/
def allocBits (p : Pmm) (byte : UInt8) (byteIdx : ℕ) : List ℕ → Option ℕ × Pmm
  | [] => (none, p)
  | bitIdx :: bits =>
    if byte &&& (1 <<< UInt8.ofNat bitIdx) = 0 then
      let frameIdx := byteIdx * 8 + bitIdx
      if frameIdx < p.totalFrames then (some (p.frameAddr frameIdx), p.take frameIdx)
      else allocBits { p with bitmap := bitSet p.bitmap frameIdx } byte byteIdx bits
    else allocBits p byte byteIdx bits

/-- The loop of `alloc_frame` over the bytes of the bitmap. -/
def allocBytes (p : Pmm) : List ℕ → Option ℕ × Pmm
  | [] => (none, p)
  | byteIdx :: rest =>
    match p.bitmap[byteIdx]? with
    | none => (none, p)
    | some byte =>
      if byte ≠ 0xff then
        match p.allocBits byte byteIdx (List.range 8) with
        | (some addr, p) => (some addr, p)
        | (none, p) => allocBytes p rest
      else allocBytes p rest

def allocFrame (p : Pmm) : Option ℕ × Pmm := p.allocBytes (List.range p.bitmap.length)

/-- Whether the scan of `alloc_contiguous` takes a frame to be free. -/
def isFree (p : Pmm) (frameIdx : ℕ) : Bool :=
  frameIdx / 8 < p.bitmap.length && !bitGet p.bitmap frameIdx

def allocContiguous (p : Pmm) (count : ℕ) : Option ℕ × Pmm :=
  if count = 0 then (none, p)
  else if count = 1 then p.allocFrame
  else
    match findRun p.isFree count 0 p.totalFrames none 0 with
    | some start =>
      (some (p.frameAddr start),
        { p with
          bitmap := markUsed p.bitmap start count
          freeFrames := wsub p.freeFrames count })
    | none => (none, p)

def freeFrame (p : Pmm) (addr : ℕ) : Pmm :=
  if addr < p.baseAddr then p
  else
    let frameIdx := (addr - p.baseAddr) / pageSize
    if frameIdx ≥ p.totalFrames then p
    else if bitGet p.bitmap frameIdx then
      { p with bitmap := bitClear p.bitmap frameIdx, freeFrames := wadd p.freeFrames 1 }
    else p

end Pmm

/-! ### Setting up -/

/-- The first whole page of a region, and the end of the last. -/
def MemRegion.pages (r : MemRegion) : ℕ × ℕ :=
  (alignDown (satAdd r.base.toNat (pageSize - 1)) pageSize,
    alignDown (satAdd r.base.toNat r.length.toNat) pageSize)

/-- The loop body of `usable_pool_bounds`. -/
def widen (bounds : ℕ × ℕ) (r : MemRegion) : ℕ × ℕ :=
  if r.regionType ≠ memmapUsable ∨ r.length.toNat < pageSize then bounds
  else if r.pages.1 < r.pages.2 then (min bounds.1 r.pages.1, max bounds.2 r.pages.2)
  else bounds

def usablePoolBounds (regions : List MemRegion) : Option (ℕ × ℕ) :=
  let bounds := regions.foldl widen (wordSize - 1, 0)
  if bounds.1 < bounds.2 then some bounds else none

/-- Make the usable regions allocatable. -/
def enable (p : Pmm) (regions : List MemRegion) : Pmm :=
  regions.foldl (fun p r => if r.regionType = memmapUsable
    then p.markRegionFreeInPool r.base.toNat r.length.toNat else p) p

/-- The regions of the boot memory map that are looked at. -/
def copyRegionsFromBoot (boot : List MemRegion) : List MemRegion := boot.take maxRegions

/-- The part of `init` behind the bounds of the pool. -/
def initPool (regions : List MemRegion) (bounds : ℕ × ℕ) : Option Pmm :=
  let poolSize := bounds.2 - bounds.1
  if poolSize < pageSize then none
  else
    let bitmapSize := (poolSize / pageSize + 7) / 8
    if bitmapSize > bitmapBytes then none
    else
      let p := enable (Pmm.new bounds.1 poolSize bitmapSize).reserveAllFrames regions
      if p.freeFrames = 0 then none else some p

/-- Set up the allocator for a boot memory map. -/
def init (boot : List MemRegion) : Option Pmm :=
  let regions := copyRegionsFromBoot boot
  if regions = [] then none else (usablePoolBounds regions).bind (initPool regions)

/-! ### The set of free frames -/

/-- **The bitmap represents a set of free frames**: their bits are the clear ones, no bit
beyond the last frame is clear, and the counter is the size of the set. -/
structure Pmm.Represents (p : Pmm) (free : Finset ℕ) : Prop where
  size : p.bitmap.length = (p.totalFrames + 7) / 8
  bits : ∀ i < 8 * p.bitmap.length, (bitGet p.bitmap i = false ↔ i ∈ free)
  bound : ∀ i ∈ free, i < p.totalFrames
  count : p.freeFrames = free.card
  small : p.totalFrames < wordSize

namespace Pmm

section

variable {p : Pmm} {free : Finset ℕ}

section

variable (h : p.Represents free)

include h

theorem Represents.lt_bits {i : ℕ} (hi : i < p.totalFrames) : i < 8 * p.bitmap.length := by
  rw [h.size]
  omega

theorem Represents.bitGet_eq_true {i : ℕ} (hi : i < p.totalFrames) :
    bitGet p.bitmap i = true ↔ i ∉ free := by
  rw [← h.bits i (h.lt_bits hi), Bool.not_eq_false]

theorem Represents.card_le : free.card ≤ p.totalFrames := by
  have hsub : free ⊆ Finset.range p.totalFrames := fun i hi => Finset.mem_range.mpr (h.bound i hi)
  simpa using card_le_card hsub

theorem Represents.isFree_eq {i : ℕ} (hi : i < p.totalFrames) : p.isFree i = true ↔ i ∈ free := by
  have hbits := h.lt_bits hi
  rw [isFree, Bool.and_eq_true, decide_eq_true_eq, Bool.not_eq_true', h.bits i hbits]
  exact and_iff_right (by omega)

/-- Taking a run of free frames. -/
theorem Represents.mark {start count : ℕ}
    (hrun : Finset.Ico start (start + count) ⊆ free) (hcount : 0 < count) :
    Represents { p with
      bitmap := markUsed p.bitmap start count
      freeFrames := wsub p.freeFrames count } (free \ Finset.Ico start (start + count)) := by
  have hlast : start + count - 1 < p.totalFrames :=
    h.bound _ (hrun (mem_Ico.mpr ⟨by omega, by omega⟩))
  have hfit : start + count ≤ 8 * p.bitmap.length := by
    have := h.lt_bits hlast
    omega
  have hcard : count ≤ free.card := by simpa using card_le_card hrun
  have hle := h.card_le
  have hsmall := h.small
  refine ⟨?_, fun i hi => ?_, fun i hi => h.bound i (mem_sdiff.mp hi).1, ?_, h.small⟩
  · simpa using h.size
  · have hi' : i < 8 * p.bitmap.length := by simpa using hi
    rw [← Bool.not_eq_true, bitGet_markUsed hfit, not_or, Bool.not_eq_true, h.bits i hi',
      mem_sdiff, mem_Ico]
  · rw [card_sdiff_of_subset hrun, Nat.card_Ico, Nat.add_sub_cancel_left, h.count]
    exact wsub_of_le (by omega) hcard

theorem Represents.take {i : ℕ} (hi : i ∈ free) : (p.take i).Represents (free.erase i) := by
  have hrun : Finset.Ico i (i + 1) ⊆ free := fun j hj => by
    rw [mem_Ico] at hj
    rwa [show j = i by omega]
  have hset : free \ Finset.Ico i (i + 1) = free.erase i := by
    ext j
    rw [mem_sdiff, mem_Ico, mem_erase, and_comm]
    exact and_congr_left fun _ => by omega
  have hmark := h.mark hrun Nat.one_pos
  rwa [hset] at hmark

theorem Represents.release {i : ℕ} (hi : i < p.totalFrames)
    (hfree : i ∉ free) :
    Represents { p with bitmap := bitClear p.bitmap i, freeFrames := wadd p.freeFrames 1 }
      (insert i free) := by
  have hins : ∀ j ∈ insert i free, j < p.totalFrames := fun j hj => by
    rcases mem_insert.mp hj with rfl | hj
    · exact hi
    · exact h.bound j hj
  have hcard : (insert i free).card ≤ p.totalFrames := by
    have hsub : insert i free ⊆ range p.totalFrames := fun j hj =>
      Finset.mem_range.mpr (hins j hj)
    simpa using card_le_card hsub
  have hsmall := h.small
  rw [card_insert_of_notMem hfree] at hcard
  refine ⟨?_, fun j hj => ?_, hins, ?_, h.small⟩
  · simpa using h.size
  · have hj' : j < 8 * p.bitmap.length := by simpa using hj
    rw [bitGet_bitClear, Bool.and_eq_false_iff, h.bits j hj', Bool.not_eq_false', decide_eq_true_eq,
      mem_insert, or_comm, eq_comm]
  · rw [card_insert_of_notMem hfree, h.count]
    exact wadd_of_lt (by omega)

/-- The bits of one byte are searched. -/
theorem Represents.allocBits {byte : UInt8} {byteIdx : ℕ}
    (hbyte : p.bitmap[byteIdx]? = some byte) (bits : List ℕ) (hbits : ∀ k ∈ bits, k < 8) :
    (p.allocBits byte byteIdx bits = (none, p) ∧ ∀ k ∈ bits, byteIdx * 8 + k ∉ free) ∨
      ∃ i ∈ free, p.allocBits byte byteIdx bits = (some (p.frameAddr i), p.take i) := by
  obtain ⟨hlen, -⟩ := List.getElem?_eq_some_iff.mp hbyte
  induction bits with
  | nil => exact .inl ⟨rfl, fun k hk => by cases hk⟩
  | cons k bits ih =>
    have hk : k < 8 := hbits k mem_cons_self
    have hclear : byte &&& (1 <<< UInt8.ofNat k) = 0 ↔ byteIdx * 8 + k ∈ free := by
      rw [and_mask_eq_zero byte hk, ← bitGet_of_getElem? hbyte hk, h.bits _ (by omega)]
    rw [Pmm.allocBits]
    by_cases hfree : byteIdx * 8 + k ∈ free
    · rw [if_pos (hclear.mpr hfree)]
      exact .inr ⟨_, hfree, if_pos (h.bound _ hfree)⟩
    · rw [if_neg (mt hclear.mp hfree)]
      rcases ih fun k' hk' => hbits k' (mem_cons_of_mem _ hk') with ⟨hnone, hall⟩ | hsome
      · refine .inl ⟨hnone, fun k' hk' => ?_⟩
        rcases mem_cons.mp hk' with rfl | hk'
        · exact hfree
        · exact hall k' hk'
      · exact .inr hsome

/-- The bytes of the bitmap are searched. -/
theorem Represents.allocBytes (bytes : List ℕ)
    (hbytes : ∀ n ∈ bytes, n < p.bitmap.length) :
    (p.allocBytes bytes = (none, p) ∧ ∀ n ∈ bytes, ∀ k < 8, n * 8 + k ∉ free) ∨
      ∃ i ∈ free, p.allocBytes bytes = (some (p.frameAddr i), p.take i) := by
  induction bytes with
  | nil => exact .inl ⟨rfl, fun n hn => by cases hn⟩
  | cons n bytes ih =>
    have hn : n < p.bitmap.length := hbytes n mem_cons_self
    have hget : p.bitmap[n]? = some p.bitmap[n] := getElem?_eq_getElem hn
    have hrest := ih fun n' hn' => hbytes n' (mem_cons_of_mem _ hn')
    rw [Pmm.allocBytes, hget]
    -- Whichever way a byte is passed over, it had no free frame.
    have hpass (hnone : ∀ k < 8, n * 8 + k ∉ free) :
        (p.allocBytes bytes = (none, p) ∧ ∀ n' ∈ n :: bytes, ∀ k < 8, n' * 8 + k ∉ free) ∨
          ∃ i ∈ free, p.allocBytes bytes = (some (p.frameAddr i), p.take i) := by
      rcases hrest with ⟨heq, hall⟩ | hsome
      · refine .inl ⟨heq, fun n' hn' => ?_⟩
        rcases mem_cons.mp hn' with rfl | hn'
        · exact hnone
        · exact hall n' hn'
      · exact .inr hsome
    by_cases hfull : p.bitmap[n] = 0xff
    · have hbit : ∀ k < 8, (0xff : UInt8).toNat.testBit k = true := by decide
      simp only [hfull, ne_eq, not_true_eq_false, if_false]
      refine hpass fun k hk hmem => ?_
      have hset := (h.bits (n * 8 + k) (by omega)).mpr hmem
      rw [bitGet_of_getElem? hget hk, hfull, hbit k hk] at hset
      cases hset
    · simp only [ne_eq, hfull, not_false_eq_true, if_true]
      rcases h.allocBits hget (List.range 8) fun k hk => List.mem_range.mp hk with
        ⟨heq, hall⟩ | ⟨i, hi, heq⟩
      · rw [heq]
        exact hpass fun k hk => hall k (List.mem_range.mpr hk)
      · rw [heq]
        exact .inr ⟨i, hi, rfl⟩

/-- **`alloc_frame` takes a free frame**, and fails only when there is none. -/
theorem Represents.allocFrame : (p.allocFrame = (none, p) ∧ free = ∅) ∨
      ∃ i ∈ free, p.allocFrame = (some (p.frameAddr i), p.take i) := by
  rcases h.allocBytes (List.range p.bitmap.length) fun n hn => List.mem_range.mp hn with
    ⟨heq, hall⟩ | hsome
  · refine .inl ⟨heq, eq_empty_of_forall_notMem fun i hi => ?_⟩
    have hlt := h.lt_bits (h.bound i hi)
    refine hall (i / 8) (List.mem_range.mpr (by omega)) (i % 8) (Nat.mod_lt _ (by omega)) ?_
    rwa [Nat.div_add_mod' i 8]
  · exact .inr hsome

/-- **`alloc_contiguous` takes a run of free frames**, and fails only when there is none. -/
theorem Represents.allocContiguous {count : ℕ} (hcount : 0 < count) :
    (p.allocContiguous count = (none, p) ∧ ∀ start, ¬Finset.Ico start (start + count) ⊆ free) ∨
      ∃ start p', Finset.Ico start (start + count) ⊆ free ∧
        p.allocContiguous count = (some (p.frameAddr start), p') ∧
        p'.baseAddr = p.baseAddr ∧ p'.totalFrames = p.totalFrames ∧
        p'.Represents (free \ Finset.Ico start (start + count)) := by
  rw [Pmm.allocContiguous, if_neg (by omega)]
  by_cases hone : count = 1
  · subst hone
    have hsub : ∀ i, Finset.Ico i (i + 1) ⊆ free ↔ i ∈ free := fun i => by
      rw [Nat.Ico_succ_singleton, singleton_subset_iff]
    have herase : ∀ i, free \ Finset.Ico i (i + 1) = free.erase i := fun i => by
      rw [Nat.Ico_succ_singleton, sdiff_singleton_eq_erase]
    rw [if_pos rfl]
    rcases h.allocFrame with ⟨heq, hempty⟩ | ⟨i, hi, heq⟩
    · refine .inl ⟨heq, fun start hrun => ?_⟩
      rw [hsub, hempty] at hrun
      exact notMem_empty _ hrun
    · refine .inr ⟨i, p.take i, (hsub i).mpr hi, heq, rfl, rfl, ?_⟩
      rw [herase]
      exact h.take hi
  · rw [if_neg hone]
    have hstart : RunBefore p.isFree 0 none 0 :=
      ⟨le_refl 0, rfl, fun j _ hj => absurd hj (Nat.not_lt_zero j), fun k hk => by omega⟩
    rcases findRun_spec (n := p.totalFrames) hcount hstart hcount with
      ⟨s, hs, hle, hall⟩ | ⟨hnone, hall⟩
    · have hrun : Finset.Ico s (s + count) ⊆ free := fun i hi => by
        rw [mem_Ico] at hi
        have hfree := hall (i - s) (by omega)
        rw [show s + (i - s) = i by omega] at hfree
        exact (h.isFree_eq (by omega)).mp hfree
      rw [hs]
      exact .inr ⟨s, _, hrun, rfl, rfl, rfl, h.mark hrun hcount⟩
    · rw [hnone]
      refine .inl ⟨rfl, fun start hrun => ?_⟩
      have hlast := h.bound _ (hrun (mem_Ico.mpr
        (⟨by omega, by omega⟩ : start ≤ start + count - 1 ∧ start + count - 1 < start + count)))
      obtain ⟨j, hj, hfree⟩ := hall start (by omega) (by omega)
      have hmem := hrun (mem_Ico.mpr (⟨by omega, by omega⟩ :
        start ≤ start + j ∧ start + j < start + count))
      rw [(h.isFree_eq (h.bound _ hmem)).mpr hmem] at hfree
      cases hfree

/-- **`free_frame` gives back** a frame that is not free. -/
theorem Represents.freeFrame {i : ℕ} (hi : i < p.totalFrames)
    (hfree : i ∉ free) :
    (p.freeFrame (p.frameAddr i)).Represents (insert i free) ∧
      (p.freeFrame (p.frameAddr i)).baseAddr = p.baseAddr ∧
      (p.freeFrame (p.frameAddr i)).totalFrames = p.totalFrames := by
  have hidx : (p.frameAddr i - p.baseAddr) / pageSize = i := by
    rw [frameAddr, Nat.add_sub_cancel_left, Nat.mul_div_cancel _ (by decide)]
  have hge : ¬p.frameAddr i < p.baseAddr := by
    rw [frameAddr]
    omega
  rw [Pmm.freeFrame, if_neg hge]
  simp only [hidx]
  rw [if_neg (by omega), if_pos ((h.bitGet_eq_true hi).mpr hfree)]
  exact ⟨h.release hi hfree, rfl, rfl⟩

end

end

end Pmm

end DunitOS.Memory
