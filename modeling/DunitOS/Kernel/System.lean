import DunitOS.Kernel.Elf

/-!
# The system of processes

The system calls of `kernel/src/syscall/mod.rs` that map memory and pass capabilities, and
the life of a process: it is made with an image, makes calls, ends on its own or is killed,
and is taken off the table when it is waited for. An end releases what the process holds,
and taking the record away releases again what has come in since.

A step of `System` is one of these, with what the physical allocator answers
in the course of it.
-/

namespace DunitOS.Kernel

open SysLib Prog Std Memory Process BitVec

/-! ### System calls of a process -/

def protWrite : UInt32 := 2

def protExec : UInt32 := 4

/-- The test of the access that `mmap` and `mprotect` are asked for. -/
def badProt (prot : UInt32) : Bool :=
  prot &&& ~~~7 != 0 || prot &&& (protWrite ||| protExec) == protWrite ||| protExec

/-- A word with two bits set has both of them. -/
theorem and_eq_of_bits {x : UInt32} (hw : x &&& protWrite ≠ 0) (hx : x &&& protExec ≠ 0) :
    x &&& (protWrite ||| protExec) = protWrite ||| protExec := by
  have hbit : ∀ i, x.toBitVec &&& twoPow 32 i ≠ 0#32 →
      x.toBitVec &&& twoPow 32 i = twoPow 32 i := by
    intro i hi
    rw [and_twoPow] at hi ⊢
    split at hi
    · next h => rw [if_pos h]
    · exact absurd rfl hi
  refine UInt32.eq_of_toBitVec_eq ?_
  change x.toBitVec &&& (twoPow 32 1 ||| twoPow 32 2) =
    twoPow 32 1 ||| twoPow 32 2
  rw [and_or_distrib_left, hbit 1 fun h => hw (UInt32.eq_of_toBitVec_eq h),
    hbit 2 fun h => hx (UInt32.eq_of_toBitVec_eq h)]

/-- What passes the test of `mmap` and `mprotect` does not ask for both. -/
theorem not_both_of_badProt {prot : UInt32} (h : badProt prot = false) :
    ¬((prot &&& protWrite != 0) = true ∧ (prot &&& protExec != 0) = true) := by
  rintro ⟨hw, hx⟩
  rw [badProt, Bool.or_eq_false_iff, beq_eq_false_iff_ne] at h
  exact h.2 (and_eq_of_bits (bne_iff_ne.mp hw) (bne_iff_ne.mp hx))

/-- What a system call returns. -/
inductive Errno
  | einval
  | eopnotsupp
  | ebadf
  | enoent
  | process (e : ProcessError)
  | handle (e : HandleError)
  deriving DecidableEq, Repr

/-- The file behind a mapping: it cannot be mapped, or it can be and its contents are read
in full or not. -/
inductive Backing
  | unusable
  | readable
  | failing
  deriving DecidableEq, Repr

def sysMmap (addr length : ℕ) (prot flags : UInt32) (file : Backing) (offset : ℕ) :
    P Errno ℕ := do
  refuse (length == 0 || badProt prot || (addr != 0 && addr % pageSize != 0)) .einval
  let writable := prot &&& protWrite != 0
  let executable := prot &&& protExec != 0
  if flags &&& 32 != 0 then
    refuse (flags &&& ~~~(2 ||| 32 ||| 64) != 0 || flags &&& 2 == 0) .einval
    mapErr .process (Process.mapAnonymous addr length writable executable (flags &&& 64 != 0)
      (prot != 0))
  else
    refuse (flags &&& 1 != 0) .eopnotsupp
    refuse (flags &&& ~~~2 != 0 || flags &&& 2 == 0 || prot &&& 1 == 0 ||
      offset % pageSize != 0) .einval
    refuse (file == .unusable) .ebadf
    let base ← mapErr .process (Process.mapAnonymous addr length writable executable false true)
    if file = .failing then
      -- A region that could not be filled is not left behind.
      Prog.modify fun c => (Process.unmapRange base length c).2
      stop .ebadf
    else return base

def sysMprotect (addr length : ℕ) (prot : UInt32) : P Errno Unit := do
  refuse (badProt prot) .einval
  mapErr .process (Process.protectRange addr length (prot &&& protWrite != 0)
    (prot &&& protExec != 0) (prot != 0))

def sysSharedVmMap (id addr : ℕ) (prot : UInt32) : P Errno ℕ := do
  refuse (prot != 1 && prot != 3) .einval
  mapErr .process (Process.mapSharedVm id addr (prot &&& 2 != 0))

/-- `create_user_thread`; the scheduler takes the thread or not. -/
def createUserThread (taken : Bool) : P Errno Unit := do
  let (base, length) ← mapErr .process Process.allocateTlsInstance
  if taken then pure ()
  else
    when (length != 0) (Prog.modify fun c => (Process.unmapRange base length c).2)
    stop (.process .notRunnable)

/-- The system calls that concern the process alone. -/
inductive SysCall
  | handleCreateMemory (len : ℕ)
  | handleCreateEndpoint (target : ProcessId)
  | handleCreateShared (len : ℕ)
  | handleDup (handle : Handle) (newRights : Rights)
  | handleClose (handle : Handle)
  | handleMap (handle : Handle) (addr len : ℕ)
  | handleDisplayAcquire
  | handleInputAcquire
  | sharedVmCreate (length : ℕ)
  | sharedVmClose (id : ℕ)
  | sharedVmMap (id addr : ℕ) (prot : UInt32)
  | mmap (addr length : ℕ) (prot flags : UInt32) (file : Backing) (offset : ℕ)
  | munmap (addr length : ℕ)
  | mprotect (addr length : ℕ) (prot : UInt32)
  | threadCreate (taken : Bool)
  | threadJoin (tlsBase tlsLength : ℕ)
  deriving DecidableEq, Repr

/-- Forget what a call returned. -/
def done {ε α : Type} (m : P ε α) : P ε Unit := do
  let _ ← m

def SysCall.exec : SysCall → P Errno Unit
  | handleCreateMemory len => done (mapErr .handle (Process.handleCreateMemory len))
  | handleCreateEndpoint target => done (mapErr .handle (Process.handleCreateEndpoint target))
  | handleCreateShared len => done (mapErr .handle (Process.handleCreateShared len))
  | handleDup handle newRights => done (mapErr .handle (Process.handleDup handle newRights))
  | handleClose handle => mapErr .handle (Process.handleClose handle)
  | handleMap handle addr len => done (mapErr .handle (Process.handleMap handle addr len))
  | handleDisplayAcquire => done (mapErr .handle Process.handleDisplayAcquire)
  | handleInputAcquire => done (mapErr .handle Process.handleInputAcquire)
  | sharedVmCreate length => done (mapErr .process (Process.createSharedVm length))
  | sharedVmClose id => mapErr .process (Process.closeSharedVm id)
  | sharedVmMap id addr prot => done (sysSharedVmMap id addr prot)
  | mmap addr length prot flags file offset => done (sysMmap addr length prot flags file offset)
  | munmap addr length => mapErr .process (Process.unmapRange addr length)
  | mprotect addr length prot => sysMprotect addr length prot
  | threadCreate taken => createUserThread taken
  | threadJoin base length => mapErr .process (Process.unmapRange base length)

/-- A call and its effect. One that does not return leaves nothing behind to be seen. -/
def SysCall.run (c : SysCall) (cell : Cell) : Cell :=
  match c.exec cell with
  | (.error (.handle .noReturn), _) => cell
  | (_, cell') => cell'

/-- A call that leaves something behind has come to an end. -/
theorem SysCall.run_cases (c : SysCall) (s : Cell) :
    c.run s = s ∨ ∃ r, r ≠ .error (.handle .noReturn) ∧ c.exec s = (r, c.run s) := by
  rcases hexec : c.exec s with ⟨r, s'⟩
  by_cases hr : r = .error (.handle .noReturn)
  · subst hr
    exact .inl (by rw [run, hexec])
  · refine .inr ⟨r, hr, ?_⟩
    rw [run, hexec]
    split
    · next heq => exact absurd (Prod.mk.inj heq).1 hr
    · next heq => rw [(Prod.mk.inj heq).2]

/-! ### The system -/

structure Record where
  proc : Process
  alive : Bool

structure System where
  processes : ExtTreeMap ProcessId Record
  nextPid : ProcessId
  sys : Sys

namespace System

/-- The system before the first process. -/
def boot : System where
  processes := ∅
  nextPid := 1
  sys := ⟨∅, 1, 0, 0, [], [], false⟩

/-- Let a process that is alive work on what is shared. -/
def onProcess (s : System) (pid : ProcessId) (f : Cell → Cell) (alive : Bool := true) : System :=
  match s.processes[pid]? with
  | some ⟨proc, true⟩ =>
    let c := f ⟨proc, s.sys⟩
    { s with processes := s.processes.insert pid ⟨c.proc, alive⟩, sys := c.sys }
  | _ => s

/-- `create_user_process_record` and the loading of the image; a process that cannot be
loaded is taken off again. -/
def spawn (s : System) (dataLen : ℕ) (phs : List ProgramHeader) : System :=
  let pid := s.nextPid
  match Elf.prepareProcessElf dataLen phs ⟨Process.new pid, s.sys⟩ with
  | (.ok _, c) =>
    { processes := s.processes.insert pid ⟨c.proc, true⟩, nextPid := pid + 1, sys := c.sys }
  | (.error _, c) =>
    { s with nextPid := pid + 1, sys := (Process.releaseVmResources c).sys }

/-- `sys_handle_transfer`. As with the other calls, one that does not return leaves nothing
behind. -/
def transfer (s : System) (pid : ProcessId) (handle : Handle) (target : ProcessId) : System :=
  match s.processes[pid]? with
  | some ⟨proc, true⟩ =>
    if target ≠ pid ∧ s.processes[target]?.isNone then s
    else
      match Process.handleTakeForTransfer handle ⟨proc, s.sys⟩ with
      | (.error _, _) => s
      | (.ok entry, c) =>
        let s1 := { s with processes := s.processes.insert pid ⟨c.proc, true⟩, sys := c.sys }
        match s1.processes[target]? with
        | none => s1
        | some r =>
          match Process.publish entry.object entry.rights ⟨r.proc, s1.sys⟩ with
          | (.error _, _) => s
          | (.ok _, c) =>
            { s1 with processes := s1.processes.insert target ⟨c.proc, r.alive⟩, sys := c.sys }
  | _ => s

/-- Take a record off the table; `drop` releases what the process holds. -/
def reap (s : System) (pid : ProcessId) : System :=
  match s.processes[pid]? with
  | none => s
  | some r =>
    { s with
      processes := s.processes.erase pid
      sys := (Process.releaseVmResources ⟨r.proc, s.sys⟩).sys }

inductive Event
  | spawn (dataLen : ℕ) (phs : List ProgramHeader)
  | call (pid : ProcessId) (c : SysCall)
  | transfer (pid : ProcessId) (handle : Handle) (target : ProcessId)
  /-- A process ends, on its own or by a kill. -/
  | finish (pid : ProcessId)
  /-- A process is waited for, or taken off by the kernel. -/
  | reap (pid : ProcessId)
  deriving DecidableEq, Repr

/-- An event, and what the allocator answers in the course of it. -/
structure Step where
  event : Event
  answers : List (Option UInt64)
  deriving DecidableEq, Repr

/-- Give the allocator's answers. -/
def supply (s : System) (answers : List (Option UInt64)) : System :=
  { s with sys := { s.sys with answers := answers } }

def handle (s : System) : Event → System
  | .spawn dataLen phs => s.spawn dataLen phs
  | .call pid c => s.onProcess pid c.run
  | .transfer pid handle target => s.transfer pid handle target
  | .finish pid => s.onProcess pid Process.releaseVmResources false
  | .reap pid => s.reap pid

def step (s : System) (e : Step) : System := (s.supply e.answers).handle e.event

/-- **What a transfer does**: an entry goes from one table to another, or nothing happens. -/
theorem transfer_cases (s : System) (pid : ProcessId) (handle : Handle) (target : ProcessId) :
    s.transfer pid handle target = s ∨
    ∃ proc entry table r new table', s.processes[pid]? = some ⟨proc, true⟩ ∧
      Process.HandleObject.isSingleton entry.object = false ∧
      proc.handleTable.remove handle = .ok (entry, table) ∧
      (s.processes.insert pid ⟨{ proc with handleTable := table }, true⟩)[target]? = some r ∧
      r.proc.handleTable.insert entry.object entry.rights = some (new, table') ∧
      s.transfer pid handle target = { s with
        processes := (s.processes.insert pid ⟨{ proc with handleTable := table }, true⟩).insert
          target ⟨{ r.proc with handleTable := table' }, r.alive⟩ } := by
  rw [transfer]
  split
  · next proc hproc =>
    split_ifs with habsent
    · exact .inl rfl
    · rcases handleTakeForTransfer_cases handle ⟨proc, s.sys⟩ with
        ⟨e, hrun⟩ | ⟨entry, table, hsing, hrem, hrun⟩
      · exact .inl (by rw [hrun])
      · rw [hrun]
        simp only [withTable]
        rcases hr : (s.processes.insert pid ⟨{ proc with handleTable := table }, true⟩)[target]?
          with _ | r
        · -- The target is the process itself or was found to be there.
          exfalso
          rcases eq_or_ne pid target with rfl | hne
          · rw [ExtTreeMap.getElem?_insert_self] at hr
            cases hr
          · rw [getElem?_insert_of_ne hne] at hr
            exact habsent ⟨hne.symm, by rw [hr]; rfl⟩
        · rcases publish_cases entry.object entry.rights ⟨r.proc, s.sys⟩ with
            hpub | ⟨new, table', hins, hpub⟩
          · exact .inl (by simp only [hpub])
          · refine .inr ⟨proc, entry, table, r, new, table', hproc, hsing, hrem, hr, hins, ?_⟩
            simp only [hpub, withTable]
  · exact .inl rfl

end System

/-- Frames for the stack of a new process, from a number on. -/
def stackAnswers (start : ℕ) : List (Option UInt64) :=
  (List.range' start 16).map fun n => some (UInt64.ofNat (n * 4096))

end DunitOS.Kernel
