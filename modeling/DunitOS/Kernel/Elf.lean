import DunitOS.Kernel.Process

/-!
# Loading an image into a process

The model of the loader of `kernel/src/elf/mod.rs`: the segments of an image are mapped page
by page, and a page that two of them share gets the flags of both, except that it is not
executable when it is writable. The stack is not executable unless the image asks for it.
The parser and what is copied into the pages are left out; a list of program headers stands
for an image, with the number of its bytes.
-/

namespace DunitOS.Kernel

open SysLib Prog Memory

/-- A program header, as far as the loader reads it. -/
structure ProgramHeader where
  pType : UInt32
  pFlags : UInt32
  pOffset : ℕ
  pVaddr : ℕ
  pFilesz : ℕ
  pMemsz : ℕ
  pAlign : ℕ
  deriving DecidableEq, Repr

def ptLoad : UInt32 := 1

def ptTls : UInt32 := 7

def ptGnuStack : UInt32 := 0x6474e551

def pfX : UInt32 := 1

def pfW : UInt32 := 2

/-- The size of the first stack. -/
def userStackSize : ℕ := 0x10000

/-- Where the stack starts, and grows down from. -/
def userStackTop : ℕ := 0x00007FFFFFFFF000

/-- `PageFlags::remove`. -/
def removeFlags (f g : PageFlags) : PageFlags :=
  ⟨f.bits &&& ~~~g.bits, by
    rw [UInt64.and_assoc, UInt64.and_comm (~~~_), ← UInt64.and_assoc, f.valid]⟩

namespace Elf

/-- The flags of a page that was there and is asked for again. -/
def mergedFlags (existing flags : PageFlags) : PageFlags :=
  let merged := existing ∪ flags ∪ .user
  let merged := if !existing.contains .noExecute || !flags.contains .noExecute
    then removeFlags merged .noExecute else merged
  if merged.contains .writable then merged ∪ .noExecute else merged

/-- Map a page; if it is mapped, merge its flags. -/
def ensureProcessPage (virt : ℕ) (flags : PageFlags) : Space.M Unit := do
  let s ← Prog.get
  match ← ofExcept (s.1.lookup virt) with
  | some (_, existing) => do
    let _ ← Space.protectUserPage virt (mergedFlags existing flags) true
  | none => do
    let _ ← Space.mapUserPage virt flags

/-- The flags of the pages of a segment. -/
def segmentFlags (ph : ProgramHeader) : PageFlags :=
  let flags : PageFlags := .user
  let flags := if ph.pFlags &&& pfW != 0 then flags ∪ .writable else flags
  if ph.pFlags &&& pfX == 0 then flags ∪ .noExecute else flags

/-- `load_segment_process`, for an image of `dataLen` bytes. -/
def loadSegmentProcess (dataLen : ℕ) (ph : ProgramHeader) : Space.M Unit := do
  refuse (ph.pMemsz < ph.pFilesz) .invalidUserAddress
  refuse (ph.pVaddr + ph.pMemsz ≥ 2 ^ 64 || ph.pOffset + ph.pFilesz ≥ 2 ^ 64)
    .invalidUserAddress
  refuse (ph.pOffset + ph.pFilesz > dataLen) .invalidUserAddress
  let pageStart := ph.pVaddr / pageSize * pageSize
  let pageEnd ← ofExcept
    ((roundUp (ph.pVaddr + ph.pMemsz)).elim (.error .invalidUserAddress) .ok)
  -- W^X: a segment that is both is refused.
  refuse (ph.pFlags &&& pfW != 0 && ph.pFlags &&& pfX != 0) .invalidUserAddress
  forEach (fun page => ensureProcessPage page (segmentFlags ph)) (pagesOf pageStart pageEnd)

/-- Whether an image asks for an executable stack. -/
def wantsExecutableStack (phs : List ProgramHeader) : Bool :=
  phs.any fun ph => ph.pType == ptGnuStack && ph.pFlags &&& pfX != 0

/-- The pages of the stack, from the top. -/
def stackPages : List ℕ :=
  (List.range' 1 (userStackSize / pageSize)).map fun page => userStackTop - page * pageSize

/-- Map all segments of an image, and the stack. -/
def loadIntoProcessAddressSpace (dataLen : ℕ) (phs : List ProgramHeader) : Space.M Unit := do
  forEach (fun ph => if ph.pType ≠ ptLoad then pure () else loadSegmentProcess dataLen ph) phs
  let stackFlags := if wantsExecutableStack phs then removeFlags (.writable ∪ .noExecute) .noExecute
    else .writable ∪ .noExecute
  forEach (fun page => ensureProcessPage page stackFlags) stackPages

/-- The check of a TLS header, with its size and alignment. -/
def checkTls (dataLen : ℕ) (ph : ProgramHeader) : Except ProcessError (ℕ × ℕ × ℕ) :=
  let align := max ph.pAlign 1
  if ph.pFilesz > ph.pMemsz ∨ ph.pOffset + ph.pFilesz > dataLen ∨ ph.pMemsz = 0 ∨
      ph.pMemsz > 1024 * 1024 ∨ align ≠ 2 ^ align.log2 ∨ align > pageSize then
    .error .invalidMemoryRange
  else .ok (ph.pFilesz, ph.pMemsz, align)

/-- Map the thread-local storage of the first thread. -/
def installInitialTls (dataLen : ℕ) (phs : List ProgramHeader) : P ProcessError Unit :=
  match phs.filter (fun ph => ph.pType == ptTls) with
  | [] => pure ()
  | [ph] => do
    let (imageLen, memSize, align) ← ofExcept (checkTls dataLen ph)
    Process.installTlsTemplate imageLen memSize align
  | _ :: _ :: _ => stop .invalidMemoryRange

/-- `prepare_process_elf_env`, up to the initial stack. -/
def prepareProcessElf (dataLen : ℕ) (phs : List ProgramHeader) : P ProcessError Unit := do
  Process.asRange (← Process.onSpace (loadIntoProcessAddressSpace dataLen phs))
  installInitialTls dataLen phs

end Elf

end DunitOS.Kernel
