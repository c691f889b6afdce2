import DunitOS.Memory.Pmm
import DunitOS.SysLib.Machine
import Mathlib.Data.Set.Card

/-!
# The frames that the allocator hands out

Which frames there are is decided once, when `init` reads the boot memory map: the aligned
pages that lie in a usable region (`UsableFrame`). The map may be in any
order, its regions may overlap and need not be aligned, and the ends of a region are
computed with saturating arithmetic, so that this takes an argument
(`init_spec`).

Over a run the bitmap represents the usable frames that nobody holds, where the frames that
are held are kept beside the allocator by `World`. What the allocator hands
out and when it fails is read off that (`frame_allocator`).
-/

namespace DunitOS.Memory

open SysLib List Option Finset Pmm

/-! ### The usable frames -/

/-- A page lies in a region. The last page of the address space never counts: the end of a
region is at most the largest address. -/
def MemRegion.HasPage (r : MemRegion) (addr : ℕ) : Prop :=
  r.regionType = memmapUsable ∧ r.base.toNat ≤ addr ∧
    addr + pageSize ≤ r.base.toNat + r.length.toNat ∧ addr + pageSize < wordSize

instance (r : MemRegion) (addr : ℕ) : Decidable (r.HasPage addr) :=
  inferInstanceAs (Decidable (_ ∧ _))

/-- **The usable frames** of a memory map: the aligned pages that lie in a usable region. -/
def UsableFrame (regions : List MemRegion) (addr : ℕ) : Prop :=
  addr % pageSize = 0 ∧ ∃ r ∈ regions, r.HasPage addr

instance (regions : List MemRegion) (addr : ℕ) : Decidable (UsableFrame regions addr) :=
  inferInstanceAs (Decidable (_ ∧ _))

variable {r : MemRegion} {p : Pmm}

namespace Pmm

/-- The pool lies in the address space, page by page. -/
structure Placed (p : Pmm) : Prop where
  aligned : p.baseAddr % pageSize = 0
  bound : p.baseAddr + p.totalFrames * pageSize < wordSize

/-- Two states of one pool. -/
def SamePool (p p' : Pmm) : Prop := p'.baseAddr = p.baseAddr ∧ p'.totalFrames = p.totalFrames

theorem SamePool.placed {p' : Pmm} (h : SamePool p p') (hp : p.Placed) : p'.Placed := by
  obtain ⟨hbase, htotal⟩ := h
  exact ⟨by rw [hbase, hp.aligned], by rw [hbase, htotal]; exact hp.bound⟩

theorem SamePool.frameAddr {p' : Pmm} (h : SamePool p p') (i : ℕ) :
    p'.frameAddr i = p.frameAddr i := by
  rw [Pmm.frameAddr, Pmm.frameAddr, h.1]

theorem frameAddr_injective (p : Pmm) : Function.Injective p.frameAddr := by
  intro i j hij
  simp only [frameAddr, pageSize] at hij
  omega

section

variable {p : Pmm} {free : Finset ℕ}

/-- **The loop over the frames of a region** adds them to the free ones and counts those
that are new; the counter of the allocator is left for later. -/
theorem foldl_markFrames {l : List ℕ} (hl : ∀ i ∈ l, i < p.totalFrames) (k : ℕ)
    (h : Represents { p with freeFrames := free.card } free) :
    ∃ bitmap n, l.foldl markFrames (k, p) = (n, { p with bitmap := bitmap }) ∧
      n + free.card = k + (free ∪ l.toFinset).card ∧
      Represents { p with bitmap := bitmap, freeFrames := (free ∪ l.toFinset).card }
        (free ∪ l.toFinset) := by
  induction l generalizing p free k with
  | nil => exact ⟨p.bitmap, k, rfl, by simp, by simpa using h⟩
  | cons i l ih =>
    have hi : i < p.totalFrames := hl i mem_cons_self
    have hl' : ∀ j ∈ l, j < p.totalFrames := fun j hj => hl j (mem_cons_of_mem _ hj)
    have hbit := h.bitGet_eq_true hi
    have hset : free ∪ (i :: l).toFinset = insert i free ∪ l.toFinset := by
      rw [toFinset_cons, union_insert, insert_union]
    rw [foldl_cons, markFrames, markFrameIndexFree, if_neg (Nat.not_le.mpr hi), hset]
    by_cases hfree : i ∈ free
    · have hclear : bitGet p.bitmap i = false := by
        rw [← Bool.not_eq_true, hbit]
        exact not_not.mpr hfree
      rw [if_neg (by rw [hclear]; exact Bool.false_ne_true), insert_eq_self.mpr hfree]
      exact ih hl' k h
    · rw [if_pos (hbit.mpr hfree)]
      have hrel := h.release hi hfree
      have hcard := card_insert_of_notMem hfree
      have hnext : Represents { p with
          bitmap := bitClear p.bitmap i, freeFrames := (insert i free).card } (insert i free) :=
        ⟨hrel.size, hrel.bits, hrel.bound, rfl, hrel.small⟩
      obtain ⟨bitmap, n, heq, hn, hrep⟩ := ih (p := { p with bitmap := bitClear p.bitmap i })
        hl' (k + 1) hnext
      exact ⟨bitmap, n, heq, by omega, hrep⟩

/-- The frame numbers between the two ends that `mark_region_free_in_pool` computes are
those of the pages in the region. -/
theorem Placed.mem_range_iff (h : p.Placed) (hr : r.regionType = memmapUsable)
    {i : ℕ} (hi : i < p.totalFrames) :
    r.HasPage (p.frameAddr i) ↔ max r.pages.1 p.baseAddr ≤ p.frameAddr i ∧
        p.frameAddr i + pageSize ≤
          min r.pages.2 (satAdd p.baseAddr (p.totalFrames * pageSize)) := by
  obtain ⟨haligned, -⟩ := h
  simp only [MemRegion.HasPage, hr, true_and, MemRegion.pages, frameAddr, satAdd, alignDown,
    pageSize, wordSize] at *
  omega

/-- **Making a region allocatable** adds its pages to the free frames. -/
theorem Represents.markRegion (h : p.Represents free) (hp : p.Placed)
    (hr : r.regionType = memmapUsable) :
    SamePool p (p.markRegionFreeInPool r.base.toNat r.length.toNat) ∧
      (p.markRegionFreeInPool r.base.toNat r.length.toNat).Represents
        (free ∪ {i ∈ Finset.range p.totalFrames | r.HasPage (p.frameAddr i)}) := by
  have hmem : ∀ {i}, i < p.totalFrames → _ := fun hi => hp.mem_range_iff hr hi
  rw [markRegionFreeInPool]
  simp only [show alignDown (satAdd r.base.toNat (pageSize - 1)) pageSize = r.pages.1 from rfl,
    show alignDown (satAdd r.base.toNat r.length.toNat) pageSize = r.pages.2 from rfl]
  set start := max r.pages.1 p.baseAddr with hstart
  set stop := min r.pages.2 (satAdd p.baseAddr (p.totalFrames * pageSize)) with hstop
  split_ifs with hge
  · have hempty :
        ({i ∈ Finset.range p.totalFrames | r.HasPage (p.frameAddr i)} : Finset ℕ) = ∅ := by
      refine Finset.filter_eq_empty_iff.mpr fun i hi hpage => ?_
      have hends := (hmem (Finset.mem_range.mp hi)).mp hpage
      simp only [pageSize] at hends
      omega
    rw [hempty, Finset.union_empty]
    exact ⟨⟨rfl, rfl⟩, h⟩
  · have hframes : (List.range' ((start - p.baseAddr) / pageSize)
        (min ((stop - p.baseAddr) / pageSize) p.totalFrames -
          (start - p.baseAddr) / pageSize)).toFinset =
        {i ∈ Finset.range p.totalFrames | r.HasPage (p.frameAddr i)} := by
      ext i
      rw [List.mem_toFinset, List.mem_range'_1, Finset.mem_filter, Finset.mem_range]
      have haligned := hp.aligned
      have hs : start % pageSize = 0 := by
        rw [hstart, MemRegion.pages, alignDown]
        simp only [pageSize] at *
        omega
      constructor
      · intro hi
        have hlt : i < p.totalFrames := by omega
        refine ⟨hlt, (hmem hlt).mpr ?_⟩
        rw [frameAddr]
        simp only [pageSize] at *
        omega
      · rintro ⟨hlt, hpage⟩
        have := (hmem hlt).mp hpage
        rw [frameAddr] at this
        simp only [pageSize] at *
        omega
    have hlt : ∀ i ∈ List.range' ((start - p.baseAddr) / pageSize)
        (min ((stop - p.baseAddr) / pageSize) p.totalFrames - (start - p.baseAddr) / pageSize),
        i < p.totalFrames := fun i hi => by
      rw [List.mem_range'_1] at hi
      omega
    have hrep : Represents { p with freeFrames := free.card } free := by
      rw [← h.count]
      exact h
    obtain ⟨bitmap, n, heq, hn, hrep'⟩ := foldl_markFrames hlt 0 hrep
    rw [hframes] at hn hrep'
    rw [heq]
    have hle := hrep'.card_le
    have hsmall := h.small
    refine ⟨⟨rfl, rfl⟩, hrep'.size, hrep'.bits, hrep'.bound, ?_, hrep'.small⟩
    have hcount : wadd p.freeFrames n = p.freeFrames + n := by
      refine wadd_of_lt ?_
      rw [h.count]
      have hle' : (free ∪ {i ∈ Finset.range p.totalFrames | r.HasPage (p.frameAddr i)}).card ≤
          p.totalFrames := hle
      omega
    exact hcount.trans (by rw [h.count]; omega)

/-- **Making the usable regions allocatable** makes the usable frames of the pool free. -/
theorem Represents.enable (h : p.Represents free) (hp : p.Placed) (regions : List MemRegion) :
    SamePool p (enable p regions) ∧ (Memory.enable p regions).Represents
        (free ∪ {i ∈ Finset.range p.totalFrames | ∃ r ∈ regions, r.HasPage (p.frameAddr i)}) := by
  rw [Memory.enable]
  induction regions generalizing p free with
  | nil => exact ⟨⟨rfl, rfl⟩, by simpa using h⟩
  | cons r regions ih =>
    rw [foldl_cons]
    have hsplit : ({i ∈ Finset.range p.totalFrames | ∃ r' ∈ r :: regions,
        r'.HasPage (p.frameAddr i)} : Finset ℕ) =
        {i ∈ Finset.range p.totalFrames | r.HasPage (p.frameAddr i)} ∪
          {i ∈ Finset.range p.totalFrames | ∃ r' ∈ regions, r'.HasPage (p.frameAddr i)} := by
      rw [← filter_or]
      exact filter_congr fun i _ => by simp
    by_cases hr : r.regionType = memmapUsable
    · rw [if_pos hr, hsplit, ← Finset.union_assoc]
      obtain ⟨hsame, hrep⟩ := h.markRegion hp hr
      obtain ⟨hsame', hrep'⟩ := ih hrep (hsame.placed hp)
      refine ⟨⟨hsame'.1.trans hsame.1, hsame'.2.trans hsame.2⟩, ?_⟩
      simp only [hsame.frameAddr, hsame.2] at hrep'
      exact hrep'
    · have hempty : ({i ∈ Finset.range p.totalFrames | r.HasPage (p.frameAddr i)} : Finset ℕ) = ∅ :=
        Finset.filter_eq_empty_iff.mpr fun i _ hpage => hr hpage.1
      rw [if_neg hr, hsplit, hempty, Finset.empty_union]
      exact ih h hp

end

/-- A bitmap of ones represents the empty set. -/
theorem represents_reserveAllFrames (poolStart : ℕ) {poolSize : ℕ} (h : poolSize < wordSize) :
    (new poolStart poolSize ((poolSize / pageSize + 7) / 8)).reserveAllFrames.Represents ∅ := by
  refine ⟨by simp [reserveAllFrames, new], fun i hi => ?_, fun i hi => ?_, rfl, ?_⟩
  · simp only [reserveAllFrames, new, length_replicate] at hi ⊢
    rw [bitGet_replicate hi]
    simp
  · exact absurd hi (notMem_empty i)
  · exact lt_of_le_of_lt (Nat.div_le_self _ _) h

end Pmm

/-! ### The bounds of the pool -/

variable {boot : List MemRegion} {addr : ℕ}

section

theorem foldl_widen_mono (regions : List MemRegion) (bounds : ℕ × ℕ) :
    (regions.foldl widen bounds).1 ≤ bounds.1 ∧ bounds.2 ≤ (regions.foldl widen bounds).2 := by
  induction regions generalizing bounds with
  | nil => exact ⟨le_refl _, le_refl _⟩
  | cons r _ ih =>
    have hstep : (widen bounds r).1 ≤ bounds.1 ∧ bounds.2 ≤ (widen bounds r).2 := by
      rw [widen]
      split_ifs
      · exact ⟨le_refl _, le_refl _⟩
      · exact ⟨min_le_left _ _, le_max_left _ _⟩
      · exact ⟨le_refl _, le_refl _⟩
    rw [foldl_cons]
    exact ⟨le_trans (ih _).1 hstep.1, le_trans hstep.2 (ih _).2⟩

theorem MemRegion.HasPage.within_pages (h : r.HasPage addr) (haligned : addr % pageSize = 0) :
    r.pages.1 ≤ addr ∧ addr + pageSize ≤ r.pages.2 ∧ ¬r.length.toNat < pageSize := by
  obtain ⟨-, hbase, hend, hword⟩ := h
  simp only [MemRegion.pages, satAdd, alignDown, pageSize, wordSize] at *
  omega

/-- The pool reaches over every usable frame. -/
theorem foldl_widen_reaches {regions : List MemRegion} (h : UsableFrame regions addr)
    (bounds : ℕ × ℕ) :
    (regions.foldl widen bounds).1 ≤ addr ∧ addr + pageSize ≤ (regions.foldl widen bounds).2 := by
  obtain ⟨haligned, r, hr, hpage⟩ := h
  obtain ⟨before, after, rfl⟩ := append_of_mem hr
  obtain ⟨hfirst, hlast, hlen⟩ := hpage.within_pages haligned
  rw [foldl_append, foldl_cons]
  have hmono := foldl_widen_mono after (widen (before.foldl widen bounds) r)
  have hstep : (widen (before.foldl widen bounds) r).1 ≤ addr ∧
      addr + pageSize ≤ (widen (before.foldl widen bounds) r).2 := by
    have hlt : r.pages.1 < r.pages.2 := by
      simp only [pageSize] at hlast
      omega
    rw [widen, if_neg (by rw [not_or]; exact ⟨not_not.mpr hpage.1, hlen⟩), if_pos hlt]
    exact ⟨le_trans (min_le_right _ _) hfirst, le_trans hlast (le_max_right _ _)⟩
  exact ⟨le_trans hmono.1 hstep.1, le_trans hstep.2 hmono.2⟩

/-- Bounds as the loop leaves them: those it started with, or page boundaries. -/
def Rounded (bounds : ℕ × ℕ) : Prop :=
  (bounds.1 = wordSize - 1 ∧ bounds.2 = 0) ∨
    (bounds.1 % pageSize = 0 ∧ bounds.2 % pageSize = 0 ∧ bounds.2 < wordSize)

theorem MemRegion.pages_rounded (r : MemRegion) :
    r.pages.1 % pageSize = 0 ∧ r.pages.2 % pageSize = 0 ∧ r.pages.1 ≤ wordSize - 1 ∧
      r.pages.2 < wordSize := by
  simp only [MemRegion.pages, satAdd, alignDown, pageSize, wordSize]
  omega

theorem Rounded.widen {bounds : ℕ × ℕ} (h : Rounded bounds) (r : MemRegion) :
    Rounded (widen bounds r) := by
  obtain ⟨h1, h2, h3, h4⟩ := r.pages_rounded
  rw [Memory.widen]
  split_ifs
  · exact h
  · refine .inr ?_
    rcases h with ⟨hb1, hb2⟩ | ⟨hb1, hb2, hb3⟩
    · rw [hb1, hb2, min_eq_right h3, max_eq_right (Nat.zero_le _)]
      exact ⟨h1, h2, h4⟩
    · refine ⟨?_, ?_, max_lt hb3 h4⟩
      · rcases min_choice bounds.1 r.pages.1 with h | h
        · rw [h]
          exact hb1
        · rw [h]
          exact h1
      · rcases max_choice bounds.2 r.pages.2 with h | h
        · rw [h]
          exact hb2
        · rw [h]
          exact h2
  · exact h

/-- The bounds of a pool are page boundaries. -/
theorem usablePoolBounds_spec {regions : List MemRegion} {bounds : ℕ × ℕ}
    (h : usablePoolBounds regions = some bounds) :
    bounds.1 < bounds.2 ∧ bounds.1 % pageSize = 0 ∧ bounds.2 % pageSize = 0 ∧ bounds.2 < wordSize ∧
      ∀ addr, UsableFrame regions addr → bounds.1 ≤ addr ∧ addr + pageSize ≤ bounds.2 := by
  have hrounded : Rounded (regions.foldl widen (wordSize - 1, 0)) :=
    foldl_induct (fun _ r hb => hb.widen r) regions (.inl ⟨rfl, rfl⟩)
  rw [usablePoolBounds] at h
  split_ifs at h with hlt
  obtain rfl := some.inj h
  rcases hrounded with ⟨-, hzero⟩ | ⟨h1, h2, h3⟩
  · omega
  · exact ⟨hlt, h1, h2, h3, fun addr ha => foldl_widen_reaches ha _⟩

/-- **What `init` sets up**: a pool that reaches over every usable frame and in which
exactly the usable frames are free. -/
theorem init_spec (h : init boot = some p) : p.Placed ∧ p.Represents {i ∈ range p.totalFrames |
        UsableFrame (copyRegionsFromBoot boot) (p.frameAddr i)} ∧
      ∀ addr, UsableFrame (copyRegionsFromBoot boot) addr →
        ∃ i < p.totalFrames, addr = p.frameAddr i := by
  rw [init] at h
  generalize copyRegionsFromBoot boot = regions at h ⊢
  split_ifs at h with hnil
  obtain ⟨⟨first, last⟩, hbounds, hpool⟩ := bind_eq_some_iff.mp h
  obtain ⟨hlt, hfirst, hlast, hword, hreach⟩ := usablePoolBounds_spec hbounds
  simp only [initPool] at hpool hlt hfirst hlast hword hreach
  split_ifs at hpool with hsize hbitmap hfree
  obtain rfl := some.inj hpool
  have hword' : last - first < wordSize := by omega
  have hrep := represents_reserveAllFrames first hword'
  have hplaced : (new first (last - first)
      (((last - first) / pageSize + 7) / 8)).reserveAllFrames.Placed := by
    refine ⟨hfirst, ?_⟩
    simp only [reserveAllFrames, new, pageSize] at *
    omega
  obtain ⟨hsame, hrep'⟩ := hrep.enable hplaced regions
  have hplaced' := hsame.placed hplaced
  refine ⟨hplaced', ?_, fun addr haddr => ?_⟩
  · rw [empty_union] at hrep'
    convert hrep' using 1
    rw [hsame.2]
    refine filter_congr fun i _ => ?_
    rw [hsame.frameAddr, UsableFrame, and_iff_right_iff_imp]
    intro _
    simp only [frameAddr, reserveAllFrames, new, pageSize] at *
    omega
  · obtain ⟨hge, hle⟩ := hreach addr haddr
    have haligned := haddr.1
    refine ⟨(addr - first) / pageSize, ?_, ?_⟩
    · rw [hsame.2]
      simp only [reserveAllFrames, new, pageSize] at *
      omega
    · rw [hsame.frameAddr]
      simp only [frameAddr, reserveAllFrames, new, pageSize] at *
      omega

end

/-! ### Runs -/

/-- A call of the allocator. -/
inductive FrameCall
  | allocFrame
  | allocContiguous (count : ℕ)
  | freeFrame (addr : ℕ)
  deriving DecidableEq, Repr

/-- The allocator, and the addresses of the frames that were handed out and not given
back: the live ones. -/
structure World where
  pmm : Pmm
  live : Finset ℕ

namespace World

/-- Make a call. -/
def next (w : World) : FrameCall → World
  | .allocFrame =>
    match w.pmm.allocFrame with
    | (some addr, p) => ⟨p, insert addr w.live⟩
    | (none, p) => ⟨p, w.live⟩
  | .allocContiguous count =>
    match w.pmm.allocContiguous count with
    | (some addr, p) => ⟨p, w.live ∪ (Finset.range count).image fun i => addr + i * pageSize⟩
    | (none, p) => ⟨p, w.live⟩
  | .freeFrame addr => ⟨w.pmm.freeFrame addr, w.live.erase addr⟩

/-- Only live frames are freed. -/
def Admits (w : World) : FrameCall → Prop
  | .freeFrame addr => addr ∈ w.live
  | _ => True

instance (w : World) : (call : FrameCall) → Decidable (w.Admits call)
  | .freeFrame addr => inferInstanceAs (Decidable (addr ∈ w.live))
  | .allocFrame => .isTrue trivial
  | .allocContiguous _ => .isTrue trivial

/-- **A free frame**: usable, and not live. -/
def Free (w : World) (regions : List MemRegion) (addr : ℕ) : Prop :=
  UsableFrame regions addr ∧ addr ∉ w.live

/-- The numbers of the free frames. -/
def freeFrameIdx (w : World) (regions : List MemRegion) : Finset ℕ :=
  {i ∈ Finset.range w.pmm.totalFrames |
    UsableFrame regions (w.pmm.frameAddr i) ∧ w.pmm.frameAddr i ∉ w.live}

/-- **The invariant of a run**: the bitmap represents the usable frames that are not live. -/
structure Inv (regions : List MemRegion) (w : World) : Prop where
  placed : w.pmm.Placed
  reach : ∀ addr, UsableFrame regions addr → ∃ i < w.pmm.totalFrames, addr = w.pmm.frameAddr i
  usable : ∀ addr ∈ w.live, UsableFrame regions addr
  free : w.pmm.Represents (w.freeFrameIdx regions)

section

variable {regions : List MemRegion} {w : World}

section

variable (h : w.Inv regions)

include h

theorem Inv.mem_free {i : ℕ} : i ∈ w.freeFrameIdx regions ↔ w.Free regions (w.pmm.frameAddr i) := by
  rw [freeFrameIdx, Finset.mem_filter, Finset.mem_range, Free, and_iff_right_iff_imp]
  rintro ⟨husable, -⟩
  obtain ⟨j, hj, heq⟩ := h.reach _ husable
  rwa [w.pmm.frameAddr_injective heq]

/-- The invariant after a call that changes the live frames of the pool. -/
theorem Inv.update {live : Finset ℕ} {free : Finset ℕ}
    (hsame : Pmm.SamePool w.pmm p) (hrep : p.Represents free)
    (hlive : ∀ addr ∈ live, UsableFrame regions addr)
    (hfree : ∀ i, i ∈ free ↔ UsableFrame regions (w.pmm.frameAddr i) ∧ w.pmm.frameAddr i ∉ live) :
    Inv regions ⟨p, live⟩ := by
  refine ⟨hsame.placed h.placed, fun addr haddr => ?_, hlive, ?_⟩
  · obtain ⟨i, hi, heq⟩ := h.reach addr haddr
    exact ⟨i, by rwa [hsame.2], by rwa [hsame.frameAddr]⟩
  · convert hrep using 1
    ext i
    rw [freeFrameIdx, Finset.mem_filter, Finset.mem_range, hsame.frameAddr, ← hfree i,
      and_iff_right_iff_imp]
    exact hrep.bound i

theorem Inv.frames_of_run {start count : ℕ}
    (hrun : Finset.Ico start (start + count) ⊆ w.freeFrameIdx regions) {k : ℕ}
    (hk : k < count) : w.Free regions (w.pmm.frameAddr start + k * pageSize) := by
  have hmem := hrun (mem_Ico.mpr (⟨by omega, by omega⟩ :
    start ≤ start + k ∧ start + k < start + count))
  have haddr : w.pmm.frameAddr (start + k) = w.pmm.frameAddr start + k * pageSize := by
    rw [frameAddr, frameAddr, Nat.add_mul, Nat.add_assoc]
  rw [← haddr]
  exact h.mem_free.mp hmem

theorem Inv.allocFrame :
    (w.pmm.allocFrame.1 = none ∧ (∀ addr, ¬w.Free regions addr) ∧ w.next .allocFrame = w) ∨
      ∃ addr, w.pmm.allocFrame.1 = some addr ∧ w.Free regions addr ∧
        (w.next .allocFrame).live = insert addr w.live ∧ (w.next .allocFrame).Inv regions := by
  rcases h.free.allocFrame with ⟨heq, hempty⟩ | ⟨i, hi, heq⟩
  · refine .inl ⟨by rw [heq], fun addr hfree => ?_, by rw [next, heq]⟩
    obtain ⟨i, -, rfl⟩ := h.reach addr hfree.1
    have hmem := h.mem_free.mpr hfree
    rw [hempty] at hmem
    exact notMem_empty _ hmem
  · have hfree := h.mem_free.mp hi
    refine .inr ⟨w.pmm.frameAddr i, by rw [heq], hfree, by rw [next, heq], ?_⟩
    rw [next, heq]
    refine h.update ⟨rfl, rfl⟩ (h.free.take hi) (fun addr haddr => ?_) fun j => ?_
    · rcases mem_insert.mp haddr with rfl | haddr
      · exact hfree.1
      · exact h.usable addr haddr
    · rw [mem_erase, h.mem_free, Free, mem_insert, not_or,
        w.pmm.frameAddr_injective.eq_iff, and_left_comm]

theorem Inv.allocContiguous {count : ℕ} (hcount : 0 < count) :
    ((w.pmm.allocContiguous count).1 = none ∧
        (¬∃ addr, ∀ k < count, w.Free regions (addr + k * pageSize)) ∧
        w.next (.allocContiguous count) = w) ∨
      ∃ addr, (w.pmm.allocContiguous count).1 = some addr ∧
        (∀ k < count, w.Free regions (addr + k * pageSize)) ∧
        (w.next (.allocContiguous count)).Inv regions := by
  rcases h.free.allocContiguous hcount with
    ⟨heq, hnone⟩ | ⟨start, p, hrun, heq, hbase, htotal, hrep⟩
  · refine .inl ⟨by rw [heq], ?_, by rw [next, heq]⟩
    rintro ⟨addr, hall⟩
    obtain ⟨start, -, hstart⟩ := h.reach _ (hall 0 hcount).1
    rw [Nat.zero_mul, Nat.add_zero] at hstart
    subst hstart
    refine hnone start fun i hi => h.mem_free.mpr ?_
    rw [mem_Ico] at hi
    have hfree := hall (i - start) (by omega)
    have haddr : w.pmm.frameAddr start + (i - start) * pageSize = w.pmm.frameAddr i := by
      simp only [frameAddr, pageSize]
      omega
    rwa [haddr] at hfree
  · refine .inr ⟨w.pmm.frameAddr start, by rw [heq], fun k hk => h.frames_of_run hrun hk, ?_⟩
    rw [next, heq]
    refine h.update ⟨hbase, htotal⟩ hrep (fun addr haddr => ?_) fun i => ?_
    · rcases mem_union.mp haddr with haddr | haddr
      · exact h.usable addr haddr
      · obtain ⟨k, hk, rfl⟩ := mem_image.mp haddr
        exact (h.frames_of_run hrun (Finset.mem_range.mp hk)).1
    · have himage : w.pmm.frameAddr i ∈ (Finset.range count).image
          (fun k => w.pmm.frameAddr start + k * pageSize) ↔
          i ∈ Finset.Ico start (start + count) := by
        rw [mem_image, mem_Ico]
        constructor
        · rintro ⟨k, hk, heq⟩
          rw [Finset.mem_range] at hk
          simp only [frameAddr, pageSize] at heq
          omega
        · intro hi
          refine ⟨i - start, Finset.mem_range.mpr (by omega), ?_⟩
          simp only [frameAddr, pageSize]
          omega
      rw [mem_sdiff, h.mem_free, Free, mem_union, not_or, himage, and_assoc]

theorem Inv.freeFrame (haddr : addr ∈ w.live) : (w.next (.freeFrame addr)).Inv regions := by
  have husable := h.usable addr haddr
  obtain ⟨i, hi, rfl⟩ := h.reach addr husable
  have hnot : i ∉ w.freeFrameIdx regions := fun hmem => (h.mem_free.mp hmem).2 haddr
  obtain ⟨hrep, hbase, htotal⟩ := h.free.freeFrame hi hnot
  refine h.update ⟨hbase, htotal⟩ hrep (fun a ha => h.usable a (mem_of_mem_erase ha))
    fun j => ?_
  rw [mem_insert, h.mem_free, Free, mem_erase, not_and, ne_eq, not_imp_not,
    w.pmm.frameAddr_injective.eq_iff]
  constructor
  · rintro (rfl | ⟨hj, hlive⟩)
    · exact ⟨husable, fun _ => rfl⟩
    · exact ⟨hj, fun hmem => absurd hmem hlive⟩
  · rintro ⟨hj, hlive⟩
    by_cases hmem : w.pmm.frameAddr j ∈ w.live
    · exact .inl (hlive hmem)
    · exact .inr ⟨hj, hmem⟩

/-- Every admitted call keeps the invariant. -/
theorem Inv.next {call : FrameCall} (hcall : w.Admits call) : (w.next call).Inv regions := by
  cases call with
  | allocFrame =>
    rcases h.allocFrame with ⟨-, -, heq⟩ | ⟨addr, -, -, -, hinv⟩
    · rwa [heq]
    · exact hinv
  | allocContiguous count =>
    rcases Nat.eq_zero_or_pos count with rfl | hcount
    · exact h
    · rcases h.allocContiguous hcount with ⟨-, -, heq⟩ | ⟨addr, -, -, hinv⟩
      · rwa [heq]
      · exact hinv
  | freeFrame => exact h.freeFrame hcall

end

theorem inv_init (h : init boot = some p) : Inv (copyRegionsFromBoot boot) ⟨p, ∅⟩ := by
  obtain ⟨hplaced, hrep, hreach⟩ := init_spec h
  refine ⟨hplaced, hreach, fun addr haddr => absurd haddr (notMem_empty addr), ?_⟩
  simpa [freeFrameIdx] using hrep

/-- The counter is the number of free frames. -/
theorem Inv.freeFrames (h : w.Inv regions) :
    w.pmm.freeFrames = {addr | w.Free regions addr}.ncard := by
  have himage : {addr | w.Free regions addr} = w.pmm.frameAddr '' (w.freeFrameIdx regions) := by
    ext addr
    constructor
    · intro hfree
      obtain ⟨i, -, rfl⟩ := h.reach addr hfree.1
      exact ⟨i, h.mem_free.mpr hfree, rfl⟩
    · rintro ⟨i, hi, rfl⟩
      exact h.mem_free.mp hi
  rw [himage, Set.ncard_image_of_injective _ w.pmm.frameAddr_injective, Set.ncard_coe_finset,
    h.free.count]

end

end World

/-- The bytes of a frame are in the usable regions. -/
def InUsableRegions (boot : List MemRegion) (addr : ℕ) : Prop :=
  ∀ x, addr ≤ x → x < addr + pageSize →
    ∃ r ∈ boot, r.regionType = memmapUsable ∧ r.base.toNat ≤ x ∧ x < r.base.toNat + r.length.toNat

theorem UsableFrame.inUsableRegions
    (h : UsableFrame (copyRegionsFromBoot boot) addr) : InUsableRegions boot addr := by
  obtain ⟨-, r, hr, htype, hbase, hend, -⟩ := h
  exact fun x h1 h2 => ⟨r, mem_of_mem_take hr, htype, by omega, by omega⟩

/-- **The frame allocator**, after any sequence of calls in which only live frames are
freed, for any memory map that `init` accepts: a frame that is handed out is not live and
lies in the usable regions, `alloc_contiguous` hands out as many consecutive such frames
as it is asked for, the two fail only when there is no free frame, or no run of them, and
the counter is the number of free frames. -/
theorem frame_allocator {boot : List MemRegion} {p : Pmm} (h : init boot = some p)
    (calls : List FrameCall) (hcalls : Along World.Admits World.next ⟨p, ∅⟩ calls) :
    let w := calls.foldl World.next ⟨p, ∅⟩
    let regions := copyRegionsFromBoot boot
    (∀ addr, w.pmm.allocFrame.1 = some addr → addr ∉ w.live ∧ InUsableRegions boot addr) ∧
    (w.pmm.allocFrame.1 = none → ∀ addr, ¬w.Free regions addr) ∧
    (∀ count addr, (w.pmm.allocContiguous count).1 = some addr → ∀ k < count,
      addr + k * pageSize ∉ w.live ∧ InUsableRegions boot (addr + k * pageSize)) ∧
    (∀ count, 0 < count → (w.pmm.allocContiguous count).1 = none →
      ¬∃ addr, ∀ k < count, w.Free regions (addr + k * pageSize)) ∧
    w.pmm.freeFrames = {addr | w.Free regions addr}.ncard := by
  have hinv : (calls.foldl World.next ⟨p, ∅⟩).Inv (copyRegionsFromBoot boot) :=
    hcalls.foldl (fun _ _ hs hok => World.Inv.next hs hok) (World.inv_init h)
  simp only
  generalize calls.foldl World.next ⟨p, ∅⟩ = w at hinv
  refine ⟨fun addr haddr => ?_, fun hnone => ?_, fun count addr haddr k hk => ?_,
    fun count hcount hnone => ?_, hinv.freeFrames⟩
  · rcases hinv.allocFrame with ⟨hnone, -⟩ | ⟨addr', hsome, hfree, -⟩
    · rw [hnone] at haddr
      cases haddr
    · rw [hsome] at haddr
      obtain rfl := some.inj haddr
      exact ⟨hfree.2, hfree.1.inUsableRegions⟩
  · rcases hinv.allocFrame with ⟨-, hall, -⟩ | ⟨addr', hsome, -⟩
    · exact hall
    · rw [hsome] at hnone
      cases hnone
  · rcases hinv.allocContiguous (Nat.zero_lt_of_lt hk) with ⟨hnone, -⟩ | ⟨addr', hsome, hfree, -⟩
    · rw [hnone] at haddr
      cases haddr
    · rw [hsome] at haddr
      obtain rfl := some.inj haddr
      exact ⟨(hfree k hk).2, (hfree k hk).1.inUsableRegions⟩
  · rcases hinv.allocContiguous hcount with ⟨-, hall, -⟩ | ⟨addr', hsome, -⟩
    · exact hall
    · rw [hsome] at hnone
      cases hnone

/-- A memory map with an unaligned region, one that overlaps it and one that is not
usable. -/
def smallMap : List MemRegion := [⟨0x1800, 0x3000, 0⟩, ⟨0x3000, 0x2000, 0⟩, ⟨0x8000, 0x1000, 1⟩]

/-- The allocator that is set up for it: of the three frames from 0x2000 on all are free. -/
def smallPmm : Pmm := ⟨[0xf8], 3, 3, 3, 0x2000⟩

theorem init_smallMap : init smallMap = some smallPmm := by decide +kernel

theorem frame_allocator_smallMap :
    init smallMap = some smallPmm ∧
      Along World.Admits World.next ⟨smallPmm, ∅⟩
        [.allocFrame, .allocContiguous 2, .freeFrame 0x3000] ∧
      InUsableRegions smallMap 0x3000 := by
  have hcalls : Along World.Admits World.next ⟨smallPmm, ∅⟩
      [.allocFrame, .allocContiguous 2, .freeFrame 0x3000] := by decide +kernel
  refine ⟨init_smallMap, hcalls, ?_⟩
  exact ((frame_allocator init_smallMap _ hcalls).1 0x3000 (by decide +kernel)).2

/-- **A page is left over**: it is aligned and lies in the usable regions, and after some calls that
do not hand it out the allocator has no frame. -/
def LeftOver (boot : List MemRegion) (calls : List FrameCall) (addr : ℕ) : Prop :=
  ∃ p, init boot = some p ∧ addr % pageSize = 0 ∧ InUsableRegions boot addr ∧
    addr ∉ (calls.foldl World.next ⟨p, ∅⟩).live ∧
    (calls.foldl World.next ⟨p, ∅⟩).pmm.allocFrame.1 = none

/-- **Not all of the usable memory is handed out**: not a page that two adjacent regions share, not
the last page of the address space, and not a page of a region behind the first 32. Asked for no
frames, `alloc_contiguous` fails, although a run of no frames is there. -/
theorem pages_left_over :
    LeftOver [⟨0x1000, 0x1800, 0⟩, ⟨0x2800, 0x1800, 0⟩] [.allocFrame, .allocFrame] 0x2000 ∧
    LeftOver [⟨0xffffffffffffe000, 0x2000, 0⟩] [.allocFrame] 0xfffffffffffff000 ∧
    LeftOver (replicate 32 ⟨0x1000, 0x1000, 0⟩ ++ [⟨0x2000, 0x1000, 0⟩]) [.allocFrame] 0x2000 ∧
    (smallPmm.allocContiguous 0).1 = none := by
  refine ⟨⟨⟨[0xfa], 3, 2, 2, 0x1000⟩, by decide +kernel, rfl, fun x hx hx' => ?_,
      by decide +kernel, by decide +kernel⟩,
    ⟨⟨[0xfe], 1, 1, 1, 0xffffffffffffe000⟩, by decide +kernel, rfl, fun x hx hx' => ?_,
      by decide +kernel, by decide +kernel⟩,
    ⟨⟨[0xfe], 1, 1, 1, 0x1000⟩, by decide +kernel, rfl, fun x hx hx' => ?_,
      by decide +kernel, by decide +kernel⟩, rfl⟩
  · -- the page lies half in either region
    rcases Nat.lt_or_ge x 0x2800 with hlow | hhigh
    · exact ⟨⟨0x1000, 0x1800, 0⟩, by simp, rfl, Nat.le_trans (by decide) hx, hlow⟩
    · exact ⟨⟨0x2800, 0x1800, 0⟩, by simp, rfl, hhigh, Nat.lt_trans hx' (by decide)⟩
  · exact ⟨_, mem_cons_self, rfl, Nat.le_trans (by decide) hx, hx'⟩
  · exact ⟨⟨0x2000, 0x1000, 0⟩, by simp, rfl, hx, hx'⟩

end DunitOS.Memory
