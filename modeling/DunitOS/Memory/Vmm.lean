import DunitOS.Memory.Pmm
import DunitOS.SysLib.Prog

/-!
# Address spaces

The model of `AddressSpace` of `kernel/src/memory/vmm.rs`. A user page is found through four
levels of tables of 512 entries. A table lives in a physical frame, and an entry is a word:
the address of a frame and the flags. `Vmm` has the words of all frames, the
space, and the space's dealings with the physical allocator: what the allocator will answer,
the frames that it has handed out to the space and not got back (`held`), and those that it
was handed back without their being held (`stray`).

Left out are the translation buffer (`flush_page`), which the tables do not depend on, and
the test of `get_pmm`, which every space has passed when it was made.
-/

namespace DunitOS.Memory

open SysLib Prog

/-! ### Flags and entries -/

/-- The bits of `PageFlags`. -/
def allFlags : UInt64 := 0x80000000000001FF

/-- The bits of an entry that hold an address. -/
def addrMask : UInt64 := 0x000FFFFFFFFFF000

/-- `PageFlags`: a word that has bits of flags only. -/
structure PageFlags where
  bits : UInt64
  valid : bits &&& allFlags = bits
  deriving DecidableEq, Repr

namespace PageFlags

def present : PageFlags := ⟨1, by decide⟩

def writable : PageFlags := ⟨2, by decide⟩

def user : PageFlags := ⟨4, by decide⟩

def huge : PageFlags := ⟨0x80, by decide⟩

def noExecute : PageFlags := ⟨0x8000000000000000, by decide⟩

/-- The flags of both. -/
def union (f g : PageFlags) : PageFlags :=
  ⟨f.bits ||| g.bits, by rw [lor_land, f.valid, g.valid]⟩

instance : Union PageFlags := ⟨union⟩

/-- The flags among the bits of an entry. -/
def fromBitsTruncate (bits : UInt64) : PageFlags :=
  ⟨bits &&& allFlags, by rw [UInt64.and_assoc, UInt64.and_self]⟩

def contains (f g : PageFlags) : Bool := f.bits &&& g.bits == g.bits

end PageFlags

/-- An entry of a page table: an address and flags. -/
abbrev PageTableEntry := UInt64

namespace PageTableEntry

def flags (entry : PageTableEntry) : PageFlags := .fromBitsTruncate entry

/-- The frame that an entry points to. -/
def addr (entry : PageTableEntry) : UInt64 := entry &&& addrMask

/-- `set`: the word of an entry. -/
def make (addr : UInt64) (flags : PageFlags) : PageTableEntry := addr ||| flags.bits

end PageTableEntry

/-- How an operation on an address space can fail. -/
inductive AddressSpaceError
  | outOfMemory
  | invalidUserAddress
  | hugePageInPath
  | kernelRootNotInitialized
  deriving DecidableEq, Repr

/-! ### Virtual addresses -/

/-- The end of user space. -/
def userSpaceEnd : ℕ := 0x0000800000000000

/-- The first entry of a root that is the kernel's. -/
def pml4KernelStart : ℕ := 256

def p4Index (virt : ℕ) : ℕ := virt / 2 ^ 39 % 512

def p3Index (virt : ℕ) : ℕ := virt / 2 ^ 30 % 512

def p2Index (virt : ℕ) : ℕ := virt / 2 ^ 21 % 512

def p1Index (virt : ℕ) : ℕ := virt / 2 ^ 12 % 512

def pageOffset (virt : ℕ) : ℕ := virt % pageSize

/-- The test that every change of a page starts with. -/
def badPage (virt : ℕ) : Bool := virt == 0 || virt ≥ userSpaceEnd || virt % pageSize != 0

/-! ### The state -/

/-- The root of the tables, and the frames that the space has to free. -/
structure AddressSpace where
  rootFrame : UInt64
  userFrames : List UInt64
  pageTableFrames : List UInt64
  deriving DecidableEq, Repr

/-- **The state**: the words of the frames, the space, and the allocator as it sees it. -/
structure Vmm where
  mem : UInt64 → ℕ → PageTableEntry
  space : AddressSpace
  /-- What `alloc_frame` will answer. -/
  answers : List (Option UInt64)
  /-- The frames that were handed out to the space and not handed back. -/
  held : List UInt64
  /-- The frames that were handed back but not held. -/
  stray : List UInt64

namespace Vmm

/-- Programs on the memory that may fail. -/
abbrev M := Prog Vmm AddressSpaceError

/-- `alloc_frame`, for a caller that gives up without a frame. -/
def allocFrame : M UInt64 := fun w =>
  match w.answers with
  | some frame :: answers => (.ok frame, { w with answers := answers, held := frame :: w.held })
  | none :: answers => (.error .outOfMemory, { w with answers := answers })
  | [] => (.error .outOfMemory, w)

def freeFrame (w : Vmm) (frame : UInt64) : Vmm :=
  if frame ∈ w.held then { w with held := w.held.erase frame }
  else { w with stray := frame :: w.stray }

/-- `write_bytes` and `PageTable::zero`: clear a frame. -/
def zero (w : Vmm) (frame : UInt64) : Vmm :=
  { w with mem := fun t i => if t = frame then 0 else w.mem t i }

/-- Write an entry of a table. -/
def set (w : Vmm) (table : UInt64) (index : ℕ) (entry : PageTableEntry) : Vmm :=
  { w with mem := fun t i => if t = table ∧ i = index then entry else w.mem t i }

/-! ### Looking a page up -/

/-- One level of `user_page_mapping_from_root`. -/
def entryTable (w : Vmm) (table : UInt64) (index : ℕ) :
    Except AddressSpaceError (Option UInt64) :=
  let entry := w.mem table index
  if entry = 0 then .ok none
  else if (PageTableEntry.flags entry).contains .huge then .error .hugePageInPath
  else .ok (some (PageTableEntry.addr entry))

/-- The levels are taken one after the other. -/
def below {α β : Type} (r : Except AddressSpaceError (Option α))
    (f : α → Except AddressSpaceError (Option β)) : Except AddressSpaceError (Option β) :=
  match r with
  | .error e => .error e
  | .ok none => .ok none
  | .ok (some a) => f a

/-- What a page is mapped to: the walk down the four levels. -/
def userPageMapping (w : Vmm) (virt : ℕ) :
    Except AddressSpaceError (Option (UInt64 × PageFlags)) :=
  if virt ≥ userSpaceEnd then .error .invalidUserAddress
  else
    below (w.entryTable w.space.rootFrame (p4Index virt)) fun p3 =>
      below (w.entryTable p3 (p3Index virt)) fun p2 =>
        below (w.entryTable p2 (p2Index virt)) fun p1 =>
          let entry := w.mem p1 (p1Index virt)
          if entry = 0 then .ok none
          else .ok (some (PageTableEntry.addr entry + UInt64.ofNat (pageOffset virt),
            PageTableEntry.flags entry))

/-- The table of the last level, by the walk that tests nothing. -/
def lastTable (w : Vmm) (virt : ℕ) : UInt64 :=
  let p3 := PageTableEntry.addr (w.mem w.space.rootFrame (p4Index virt))
  let p2 := PageTableEntry.addr (w.mem p3 (p3Index virt))
  PageTableEntry.addr (w.mem p2 (p2Index virt))

/-! ### Changing a page -/

/-- The flags of an entry that points to a table. -/
def tableFlags : PageFlags := .present ∪ .writable ∪ .user

/-- Hang a new table into an entry. -/
def addTable (w : Vmm) (table : UInt64) (index : ℕ) (frame : UInt64) : Vmm :=
  let w := (w.zero frame).set table index (PageTableEntry.make frame tableFlags)
  { w with space := { w.space with pageTableFrames := w.space.pageTableFrames ++ [frame] } }

/-- The table of the next level, put in if it is missing. -/
def ensureNextTable (table : UInt64) (index : ℕ) : M UInt64 := do
  let w ← Prog.get
  let entry := w.mem table index
  if entry ≠ 0 then
    refuse ((PageTableEntry.flags entry).contains .huge) .hugePageInPath
    when (!(PageTableEntry.flags entry).contains .user)
      (Prog.modify fun w => w.set table index (entry ||| PageFlags.user.bits))
    return PageTableEntry.addr entry
  else
    let frame ← allocFrame
    Prog.modify fun w => w.addTable table index frame
    return frame

/-- Map a page to a frame of somebody else. -/
def mapUserFrame (virt : ℕ) (phys : UInt64) (flags : PageFlags) : M Unit := do
  refuse (badPage virt || phys &&& 0xFFF != 0) .invalidUserAddress
  let w ← Prog.get
  let p3 ← ensureNextTable w.space.rootFrame (p4Index virt)
  let p2 ← ensureNextTable p3 (p3Index virt)
  let p1 ← ensureNextTable p2 (p2Index virt)
  let w ← Prog.get
  refuse (w.mem p1 (p1Index virt) != 0) .invalidUserAddress
  Prog.modify fun w =>
    w.set p1 (p1Index virt) (PageTableEntry.make phys (flags ∪ .present ∪ .user))

/-- Run a program, and hand a frame back if it stops. -/
def orFree {α : Type} (frame : UInt64) (m : M α) : M α := fun w =>
  match m w with
  | (.ok a, w) => (.ok a, w)
  | (.error e, w) => (.error e, w.freeFrame frame)

/-- Map a page to a new frame. -/
def mapUserPage (virt : ℕ) (flags : PageFlags) : M UInt64 := do
  refuse (badPage virt) .invalidUserAddress
  let frame ← allocFrame
  Prog.modify fun w => w.zero frame
  orFree frame (mapUserFrame virt frame (flags ∪ .present ∪ .user))
  Prog.modify fun w =>
    { w with space := { w.space with userFrames := w.space.userFrames ++ [frame] } }
  return frame

/-- Give up an owned frame. -/
def disown (w : Vmm) (frame : UInt64) : Vmm :=
  match w.space.userFrames.idxOf? frame with
  | some index => freeFrame { w with space := { w.space with
      userFrames := swapRemove w.space.userFrames index } } frame
  | none => w

/-- Take a page out; a frame of the space's own is freed. -/
def unmapUserPage (virt : ℕ) : M Bool := do
  refuse (badPage virt) .invalidUserAddress
  let w ← Prog.get
  match ← ofExcept (w.userPageMapping virt) with
  | none => return false
  | some (frame, _) =>
    Prog.modify fun w => (w.set (w.lastTable virt) (p1Index virt) 0).disown (frame &&& ~~~0xFFF)
    return true

/-- Change the access to a page; without `present` it is `PROT_NONE`. -/
def protectUserPage (virt : ℕ) (flags : PageFlags) (present : Bool) : M Bool := do
  refuse (badPage virt) .invalidUserAddress
  let w ← Prog.get
  match ← ofExcept (w.userPageMapping virt) with
  | none => return false
  | some (phys, _) =>
    let newFlags := flags ∪ .user
    let newFlags := if present then newFlags ∪ .present else newFlags
    Prog.modify fun w =>
      w.set (w.lastTable virt) (p1Index virt) (PageTableEntry.make phys newFlags)
    return true

/-! ### Making and dropping a space -/

/-- `AddressSpace::new`, with the frame of the kernel's root table if there is one. -/
def create (kernelRoot : Option UInt64) : M Unit := do
  let rootFrame ← allocFrame
  Prog.modify fun w => w.zero rootFrame
  match kernelRoot with
  | none =>
    Prog.modify fun w => w.freeFrame rootFrame
    stop .kernelRootNotInitialized
  | some kernelRoot =>
    -- `sync_kernel_half_into`
    Prog.modify fun w => { w with
      mem := fun t i => if t = rootFrame ∧ pml4KernelStart ≤ i ∧ i < 512 then w.mem kernelRoot i
        else w.mem t i
      space := ⟨rootFrame, [], [rootFrame]⟩ }

/-- The end of a space: all its frames are handed back. -/
def drop (w : Vmm) : Vmm :=
  w.space.pageTableFrames.foldl freeFrame (w.space.userFrames.foldl freeFrame w)

end Vmm

end DunitOS.Memory
