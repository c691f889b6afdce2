import DunitOS.SysLib.FreeList
import DunitOS.SysLib.Machine
import DunitOS.SysLib.Word
import Mathlib.Algebra.Group.Nat.Defs

/-!
# The kernel heap

The model of `kernel/src/allocator.rs`. The heap keeps its free blocks in a list that is
ordered by address and held in the blocks themselves, and takes the first block that is
large enough. An allocation is the whole of what is cut off a block: its user pointer is
rounded up to the alignment, with a header of two words right below it that say where the
block starts and how long it is. A rest that is too short for a free block stays with the
allocation. When nothing fits the heap grows by a region of whole pages.

Memory is a map from addresses to words, and all arithmetic is that of 64-bit words. The
loops over the free list run at most as often as there are addresses, which is as often as
any of them that ends.
-/

namespace DunitOS.Memory

open SysLib

/-! ### The allocator -/

/-- The size of an `AllocationHeader`. -/
abbrev headerSize : ℕ := 16

/-- The size of a `FreeBlock`. -/
abbrev minimumFree : ℕ := 16

/-- The alignment of a header and of a free block. -/
abbrev wordAlign : ℕ := 8

def heapGrowChunk : ℕ := 1024 * 1024

/-- How often a loop over the free list runs at most: it visits no address twice. -/
@[irreducible] def walkBound : ℕ := wordSize

/-- `HeapInner`, with the memory. A free block has its size in the first word and the
address of the next one in the second. -/
structure Heap where
  mem : Words
  freeList : ℕ
  totalBytes : ℕ

/-- `align_up`: the addition wraps. -/
def alignUp (addr align : ℕ) : ℕ := alignDown (wadd addr (align - 1)) align

def alignUpChecked (value align : ℕ) : Option ℕ :=
  if value + (align - 1) < wordSize then some (alignDown (value + (align - 1)) align) else none

namespace Heap

def store (s : Heap) (addr v : ℕ) : Heap := { s with mem := Function.update s.mem addr v }

/-- Put the bootstrap region into an empty heap. -/
def addBootstrap (mem : Words) (heapStart heapSize : ℕ) : Heap where
  mem := Function.update (Function.update mem heapStart heapSize) (heapStart + 8) 0
  freeList := heapStart
  totalBytes := heapSize

/-- The loop of `add_free_region`: the last block below an address and the one behind it. -/
def seek (mem : Words) (start : ℕ) : ℕ → ℕ → ℕ → ℕ × ℕ
  | 0, previous, current => (previous, current)
  | fuel + 1, previous, current =>
    if current ≠ 0 ∧ current < start then seek mem start fuel current (mem (current + 8))
    else (previous, current)

/-- Make a block, or the head of the list if there is none, lead to another one. -/
def relink (s : Heap) (previous addr : ℕ) : Heap :=
  if previous = 0 then { s with freeList := addr } else s.store (previous + 8) addr

/-- Put a block at the place that was found for it. -/
def link (s : Heap) (previous current start : ℕ) : Heap :=
  (s.store (start + 8) current).relink previous start

/-- A block takes in the one behind it. -/
def absorb (s : Heap) (x y : ℕ) : Heap :=
  let s := s.store x (wadd (s.mem x) (s.mem y))
  s.store (x + 8) (s.mem (y + 8))

/-- Join a block with the one behind it. -/
def joinNext (s : Heap) (start size : ℕ) : Heap :=
  let next := s.mem (start + 8)
  if next ≠ 0 ∧ wadd start size = next then s.absorb start next else s

/-- Join a block with the one before it. -/
def joinPrevious (s : Heap) (previous start : ℕ) : Heap :=
  if previous ≠ 0 ∧ wadd previous (s.mem previous) = start then s.absorb previous start else s

/-- Insert a region into the free list and join it with its neighbours. -/
def addFreeRegion (s : Heap) (start size : ℕ) : Heap :=
  let s := s.store start size
  let (previous, current) := seek s.mem start walkBound 0 s.freeList
  ((s.link previous current start).joinNext start size).joinPrevious previous start

/-- Where the user pointer would be in a block. -/
def userAddr (blockStart align : ℕ) : ℕ :=
  alignUp (wadd blockStart headerSize) (max align wordAlign)

/-- Where an allocation would end; nothing if the payload does not fit below the end of
the address space. -/
def requestedEnd (blockStart size align : ℕ) : Option ℕ :=
  let userAddr := userAddr blockStart align
  if userAddr + max size 1 < wordSize then some (alignUp (userAddr + max size 1) wordAlign)
  else none

def writeHeader (s : Heap) (user blockStart blockSize : ℕ) : Heap :=
  let header := wsub user headerSize
  (s.store header blockStart).store (header + 8) blockSize

/-- Make a free block of the rest of a block, if it is long enough for one: where the
allocation ends, and what takes the place of the block in the list. -/
def splitRest (s : Heap) (block blockEnd requestedEnd : ℕ) : ℕ × ℕ × Heap :=
  let remaining := blockEnd - requestedEnd
  if remaining ≥ minimumFree then
    let s := s.store requestedEnd remaining
    let s := s.store (requestedEnd + 8) (s.mem (block + 8))
    (requestedEnd, requestedEnd, s)
  else (blockEnd, s.mem (block + 8), s)

/-- Cut an allocation off a block. -/
def carve (s : Heap) (prev block user requestedEnd : ℕ) : ℕ × Heap :=
  let (allocatedEnd, replacement, s) := s.splitRest block (block + s.mem block) requestedEnd
  (user, (s.relink prev replacement).writeHeader user block (wsub allocatedEnd block))

/-- The loop of `alloc_from_free_list`. -/
def allocLoop (s : Heap) (size align : ℕ) : ℕ → ℕ → ℕ → ℕ × Heap
  | 0, _, _ => (0, s)
  | fuel + 1, prev, current =>
    if current = 0 then (0, s)
    else if current + s.mem current ≥ wordSize then (0, s)
    else
      match requestedEnd current size align with
      | none => (0, s)
      | some requestedEnd =>
        if requestedEnd ≤ current + s.mem current then
          s.carve prev current (userAddr current align) requestedEnd
        else allocLoop s size align fuel current (s.mem (current + 8))

def allocFromFreeList (s : Heap) (size align : ℕ) : ℕ × Heap :=
  s.allocLoop size align walkBound 0 s.freeList

/-- The header of an allocation says which block it is. -/
def headerBlock (s : Heap) (ptr : ℕ) : MemBlock :=
  ⟨s.mem (wsub ptr headerSize), s.mem (wsub ptr headerSize + 8)⟩

def dealloc (s : Heap) (ptr : ℕ) : Heap :=
  s.addFreeRegion (s.headerBlock ptr).start (s.headerBlock ptr).size

/-- The region that `grow` adds: the frame allocator and the direct map answer with the
address of enough contiguous pages, or with nothing. -/
def growth (minBytes : ℕ) (grant : Option ℕ) : Option MemBlock :=
  match alignUpChecked (max minBytes heapGrowChunk) 4096 with
  | none => none
  | some want =>
    match grant with
    | none => none
    | some virt => if virt = 0 then none else some ⟨virt, want⟩

def addRegion (s : Heap) (r : MemBlock) : Heap :=
  let s := s.addFreeRegion r.start r.size
  { s with totalBytes := wadd s.totalBytes r.size }

def grow (s : Heap) (minBytes : ℕ) (grant : Option ℕ) : Bool × Heap :=
  match growth minBytes grant with
  | none => (false, s)
  | some r => (true, s.addRegion r)

/-- How much `alloc` asks for. -/
def required (size align : ℕ) : ℕ :=
  satAdd (satAdd (satAdd size align) headerSize) minimumFree

/-- `GlobalAlloc::alloc`; the pointer is null when there is no room. -/
def alloc (s : Heap) (size align : ℕ) (grant : Option ℕ) : ℕ × Heap :=
  let (result, s) := s.allocFromFreeList size align
  if result = 0 then
    let (grown, s) := s.grow (required size align) grant
    if grown then s.allocFromFreeList size align else (result, s)
  else (result, s)

def freeBlocks (s : Heap) : List MemBlock := blocksFrom s.mem walkBound s.freeList

end Heap

/-! ### Runs -/

/-- A live allocation: what was asked for, the pointer, and the block that it is. -/
structure Allocation where
  ptr : ℕ
  size : ℕ
  align : ℕ
  block : MemBlock
  deriving DecidableEq, Repr

/-- The heap with the regions it was given and the allocations that are live. -/
structure HeapWorld where
  heap : Heap
  regions : List MemBlock
  live : List Allocation

/-- A call of the allocator, or a client that writes into what it was given. -/
inductive HeapCall
  | alloc (size align : ℕ) (grant : Option ℕ)
  | dealloc (ptr : ℕ)
  | write (addr v : ℕ)
  deriving DecidableEq, Repr

namespace HeapWorld

def boot (mem : Words) (r : MemBlock) : HeapWorld := ⟨.addBootstrap mem r.start r.size, [r], []⟩

/-- The region that a call adds. -/
def added (w : HeapWorld) (size align : ℕ) (grant : Option ℕ) : List MemBlock :=
  if (w.heap.allocFromFreeList size align).1 = 0 then
    (Heap.growth (Heap.required size align) grant).toList
  else []

def next (w : HeapWorld) : HeapCall → HeapWorld
  | .alloc size align grant =>
    let (ptr, heap) := w.heap.alloc size align grant
    let regions := w.added size align grant ++ w.regions
    if ptr = 0 then ⟨heap, regions, w.live⟩
    else ⟨heap, regions, ⟨ptr, size, align, heap.headerBlock ptr⟩ :: w.live⟩
  | .dealloc ptr => ⟨w.heap.dealloc ptr, w.regions, w.live.eraseP fun a => a.ptr == ptr⟩
  | .write addr v => ⟨w.heap.store addr v, w.regions, w.live⟩

/-- A region of whole pages that is apart from others. -/
def GoodRegion (regions : List MemBlock) (r : MemBlock) : Prop :=
  r.start ≠ 0 ∧ r.start % 4096 = 0 ∧ r.size % 4096 = 0 ∧ r.stop < wordSize ∧
    ∀ q ∈ regions, r.stop ≤ q.start ∨ q.stop ≤ r.start

/-- The calls there may be: any size and any power of two as alignment, with the heap
given regions of pages that are apart; only live pointers are freed, and a client writes
words of what it was given. -/
def Admits (w : HeapWorld) : HeapCall → Prop
  | .alloc size align grant =>
    (∃ k, align = 2 ^ k) ∧
      ∀ r, Heap.growth (Heap.required size align) grant = some r → GoodRegion w.regions r
  | .dealloc ptr => ∃ a ∈ w.live, a.ptr = ptr
  | .write addr _ => addr % 8 = 0 ∧ ∃ a ∈ w.live, a.ptr ≤ addr ∧ addr < a.ptr + a.size

/-- **No address computation wraps** when an allocation is tried in a block. -/
def NoWrapAt (size align : ℕ) (b : MemBlock) : Prop :=
  b.start + headerSize + (max align wordAlign - 1) < wordSize ∧
    (Heap.userAddr b.start align + max size 1 < wordSize →
      Heap.userAddr b.start align + max size 1 + (wordAlign - 1) < wordSize)

instance (size align : ℕ) (b : MemBlock) : Decidable (NoWrapAt size align b) :=
  inferInstanceAs (Decidable (_ ∧ (_ → _)))

/-- No address computation of a call wraps, in the heap as it is and as it has grown. -/
def NoWrap (w : HeapWorld) : HeapCall → Prop
  | .alloc size align grant =>
    (∀ b ∈ w.heap.freeBlocks, NoWrapAt size align b) ∧
      ∀ b ∈ (w.heap.grow (Heap.required size align) grant).2.freeBlocks, NoWrapAt size align b
  | _ => True

/-- Where the heap has memory. -/
def InRegions (w : HeapWorld) (x : ℕ) : Prop := ∃ r ∈ w.regions, r.has x = true

/-- **A sound heap.** The blocks of the free list and of the live allocations partition the
regions; a live pointer is aligned, and what was asked for lies in the block of the
allocation, behind the header; the free list is ordered by address with no two blocks
touching; and when nothing is live the free blocks are the maximal runs of the regions. -/
structure Sound (w : HeapWorld) : Prop where
  linked : Linked w.heap.mem w.heap.freeList w.heap.freeBlocks 0
  partition : ∀ x, (w.InRegions x →
      cover (w.heap.freeBlocks ++ w.live.map Allocation.block) x = 1) ∧
    (¬w.InRegions x → cover (w.heap.freeBlocks ++ w.live.map Allocation.block) x = 0)
  placed : ∀ a ∈ w.live, a.ptr % a.align = 0 ∧ a.block.start + headerSize ≤ a.ptr ∧
    a.ptr + max a.size 1 ≤ a.block.stop ∧ w.heap.headerBlock a.ptr = a.block
  spaced : Spaced w.heap.freeBlocks
  runs : w.live = [] → (∀ x, w.InRegions x ↔ ∃ b ∈ w.heap.freeBlocks, b.has x = true) ∧
    ∀ b ∈ w.heap.freeBlocks, 0 < b.size ∧ ¬w.InRegions b.stop ∧
      ∀ x, x + 1 = b.start → ¬w.InRegions x

end HeapWorld

end DunitOS.Memory
