import DunitOS.Fs.MemFs.Steps
import DunitOS.Fs.SystemCalls
import DunitOS.Kernel.Join
import DunitOS.Kernel.Pipe
import DunitOS.Kernel.Pty

/-!
# System calls that read

The calls of `kernel/src/syscall/mod.rs` that hand kernel data to a process: `read` on a terminal, a
pseudo terminal, a pipe or a file, `receive_message`, `receive_message_from`, `pty_read` and
`wait_process`. Each of them checks its arguments, *takes* the data out of the kernel, and then
copies it to the memory of the process. Only the copy looks at the pages. If it fails, the error is
returned and what was taken is gone: a call that fails has consumed nothing exactly if there was
nothing for it, or the pages that it was to go to can be written, and it was not noted as the one
that waits for the terminal (`failed_same_iff`).

A call is modelled as its first part, which takes (`Taken`), followed by the copy.
The contents of user memory and the wait queue are left out.
-/

namespace DunitOS.Reading

open SysLib Prog Memory List Option DunitFs

open Ptys (Pty slaveInput)

/-! ### The kernel -/

inductive ReadErrno where
  | of (e : Errno)
  | eagain
  | epipe
  | emsgsize
  | echild
  deriving DecidableEq

/-- An entry of the descriptor table: what it stands for, and whether it is non-blocking. -/
structure FdEntry where
  target : Pipes.FdTarget
  nonblock : Bool

structure Message where
  sender : ℕ
  data : List UInt8
  deriving DecidableEq

/-- The input of the terminal that waits for a process. -/
structure TerminalStdin where
  pending : List UInt8
  ready : Bool
  deriving DecidableEq

/-- What `wait_process` looks at in the record of a process, whose status is the kind and the code
of its exit. What the process holds of pipes and files goes with it. -/
structure ChildRecord extends DunitOS.Kernel.ProcessRecord (ℤ × ℤ) where
  parent : Option ℕ
  hasRun : Bool
  waitable : Bool
  pipeEnds : List (ℕ × Bool)
  vfsFds : List ℕ

/-- The state that the reading calls of the current process work on. -/
structure Kernel where
  /-- The flags of the user pages of the active address space, by their addresses. -/
  pageFlags : ℕ → Option PageFlags
  current : Option ℕ
  /-- Whether the output of the current process goes to the terminal. -/
  foreground : Bool
  /-- Why the current process cannot be parked, if it cannot. -/
  parkError : Option ReadErrno
  fdTable : ℕ → Option FdEntry
  files : Option Files
  pipes : Pipes.Registry
  mailboxes : Option (ℕ → Option (List Message))
  ptys : List (ℕ × Pty)
  terminal : TerminalStdin
  waitingPid : ℕ
  table : List ChildRecord

abbrev ReadM (α : Type) : Type := Prog Kernel ReadErrno α

/-! ### User memory -/

def userSpaceEnd : ℕ := 0x00007FFFFFFFFFFF

def maxUserCopy : ℕ := 64 * 1024

def isValidUserPointer (ptr size : ℕ) : Bool :=
  size == 0 || (ptr != 0 && decide (ptr + size ≤ userSpaceEnd))

def validateUserRange (ptr size : ℕ) : Except ReadErrno Unit :=
  if size > maxUserCopy then .error (.of .einval)
  else if isValidUserPointer ptr size = false then .error (.of .efault)
  else .ok ()

/-- A page is there, open to user code, and can be written if that is needed. -/
def pageOk (pageFlags : ℕ → Option PageFlags) (writable : Bool) (page : ℕ) : Bool :=
  match pageFlags page with
  | none => false
  | some flags => flags.contains (.present ∪ .user) && (!writable || flags.contains .writable)

/-- The pages from that of the first byte to that of the last one are checked in turn. -/
def validateUserPages (pageFlags : ℕ → Option PageFlags) (ptr size : ℕ) (writable : Bool) :
    Except ReadErrno Unit :=
  if size = 0 then .ok ()
  else
    let first := ptr / 4096
    let last := (ptr + size - 1) / 4096
    if (List.range' first (last + 1 - first)).all fun k => pageOk pageFlags writable (k * 4096) then
      .ok ()
    else .error (.of .efault)

def copyBufferToUser (ptr : ℕ) (data : List UInt8) : ReadM Unit :=
  if data = [] then pure ()
  else do
    let k ← Prog.get
    ofExcept (validateUserRange ptr data.length)
    ofExcept (validateUserPages k.pageFlags ptr data.length true)

/-! ### Taking -/

/-- **What the first part of a call comes to**: a number to return, a process that is parked until
the call can be made again, or data to copy to user memory before a number is returned. -/
inductive Taken where
  | reply (n : ℕ)
  | parked
  | deliver (copies : List (ℕ × List UInt8)) (n : ℕ)
  deriving DecidableEq

def processExists (k : Kernel) (pid : ℕ) : Bool :=
  match k.table.find? fun r => r.pid == pid with
  | some r => r.owner.isNone
  | none => false

/-- The first pseudo terminal with some property, and its position. -/
def ptyAt (k : Kernel) (p : ℕ × Pty → Bool) : Option (ℕ × Pty) :=
  (k.ptys.findIdx? p).bind fun i => k.ptys[i]?.map fun q => (i, q.2)

def findBySlave (k : Kernel) : Option (ℕ × Pty) :=
  k.current.bind fun pid => ptyAt k fun p => p.2.slave == some pid

def findById (k : Kernel) (id : ℕ) : Option (ℕ × Pty) := ptyAt k fun p => p.1 == id

/-- Replace the pseudo terminal at a position. -/
def setPty (i : ℕ) (pty : Pty) (k : Kernel) : Kernel :=
  { k with ptys := k.ptys.modify i fun p => (p.1, pty) }

/-- `slave_read_stdin` and what `read` makes of it, for a process that is a slave. -/
def ptyStdin (buf count i : ℕ) (pty : Pty) : ReadM Taken := do
  let k ← Prog.get
  let data := slaveInput pty count
  if data ≠ [] then do
    Prog.modify (setPty i { pty with toSlave := pty.toSlave.drop data.length })
    pure (.deliver [(buf, data)] data.length)
  else if processExists k pty.master then stop .eagain
  else pure (.reply 0)

/-- `take_terminal_stdin_for_current` and what `read` makes of it. Input that waits for the process
is cleared, whether all of it fits or not. -/
def terminalStdin (buf count : ℕ) : ReadM Taken := do
  let k ← Prog.get
  match k.current with
  | none => stop (.of .einval)
  | some pid =>
    if k.waitingPid = pid ∧ k.terminal.ready then do
      let data := k.terminal.pending.take count
      Prog.modify fun k => { k with terminal := ⟨[], false⟩, waitingPid := 0 }
      pure (.deliver [(buf, data)] data.length)
    else if k.foreground then do
      Prog.modify fun k => { k with waitingPid := pid }
      stop .eagain
    else pure (.reply 0)

def sysPipeRead (id buf count : ℕ) (nonblock : Bool) : ReadM Taken := do
  let k ← Prog.get
  let r := Pipes.read id count k.pipes
  Prog.modify fun k => { k with pipes := r.2 }
  match r.1 with
  | .data bytes => pure (.deliver [(buf, bytes)] bytes.length)
  | .eof => pure (.reply 0)
  | .wouldBlock =>
    if nonblock then stop .eagain
    else match k.parkError with
      | some e => stop e
      | none => pure .parked

/-- The last part of `read`, for a file. -/
def fileRead (vfsFd buf count : ℕ) : ReadM Taken := fun k =>
  match k.files with
  | none => (.error (.of .eio), k)
  | some files =>
    match Files.read vfsFd count files with
    | (.ok data, files) => (.ok (.deliver [(buf, data)] data.length), { k with files })
    | (.error e, files) => (.error (.of (Userland.stopToErrno e)), { k with files })

/-- `read` on the standard input: a slave of a pseudo terminal reads from its ring, and any other
process from the terminal. -/
def readStdin (buf count : ℕ) : ReadM Taken := do
  let k ← Prog.get
  match findBySlave k with
  | none => terminalStdin buf count
  | some (i, pty) => ptyStdin buf count i pty

/-- `read` on what a descriptor stands for. -/
def readTarget (buf count : ℕ) (entry : FdEntry) : ReadM Taken :=
  match entry.target with
  | .stdin => readStdin buf count
  | .stdout => stop (.of .ebadf)
  | .stderr => stop (.of .ebadf)
  | .pipe id false => sysPipeRead id buf count entry.nonblock
  | .pipe _ true => stop (.of .ebadf)
  | .vfs vfsFd => fileRead vfsFd buf count

def maxFd : ℕ := 1024

def sysRead (fd buf count : ℕ) : ReadM Taken :=
  if fd ≥ maxFd then stop (.of .ebadf)
  else if count = 0 then pure (.reply 0)
  else do
    ofExcept (validateUserRange buf count)
    let k ← Prog.get
    match k.fdTable fd with
    | none => stop (.of .ebadf)
    | some entry => readTarget buf count entry

def maxMessageSize : ℕ := 256

/-- `recv_bytes_with_sender`: the first message of a process, if it fits. -/
def recvBytesWithSender (pid len : ℕ) : ReadM Message := do
  let k ← Prog.get
  match k.mailboxes with
  | none => stop .eagain
  | some boxes =>
    match boxes pid with
    | none => stop .eagain
    | some [] => stop .eagain
    | some (m :: rest) =>
      if len < m.data.length then stop .emsgsize
      else do
        Prog.modify fun k => { k with mailboxes := some (Function.update boxes pid (some rest)) }
        pure m

def currentPid : ReadM ℕ := do
  let k ← Prog.get
  match k.current with
  | some pid => pure pid
  | none => stop (.of .einval)

def sysReceiveMessage (msg len : ℕ) : ReadM Taken :=
  if len = 0 ∨ len > maxMessageSize then stop .emsgsize
  else do
    let pid ← currentPid
    let m ← recvBytesWithSender pid len
    pure (.deliver [(msg, m.data)] m.data.length)

def sysReceiveMessageFrom (msg len senderOut : ℕ) : ReadM Taken :=
  if len = 0 ∨ len > maxMessageSize then stop .emsgsize
  else do
    let pid ← currentPid
    let m ← recvBytesWithSender pid len
    pure (.deliver [(msg, m.data), (senderOut, leBytes 4 m.sender)] m.data.length)

/-- `master_read` and what `pty_read` makes of it: there is an end only when the slave is gone and
its ring is empty. -/
def sysPtyRead (id buf count : ℕ) : ReadM Taken :=
  if count = 0 then pure (.reply 0)
  else do
    ofExcept (validateUserRange buf count)
    let master ← currentPid
    let k ← Prog.get
    match findById k id with
    | none => stop (.of .einval)
    | some (i, pty) =>
      if pty.master ≠ master then stop (.of .einval)
      else do
        let data := pty.toMaster.take count
        let rest := pty.toMaster.drop count
        Prog.modify (setPty i { pty with toMaster := rest })
        let slaveGone := (pty.slave.map fun s => !processExists k s).getD false
        if data = [] ∧ slaveGone ∧ rest = [] then stop .epipe
        else pure (.deliver [(buf, data)] data.length)

/-- A child that can be waited for. -/
def ChildRecord.matches (r : ChildRecord) (parent requested : ℕ) : Bool :=
  r.parent == some parent && r.waitable && (requested == 0 || r.pid == requested)

def ChildRecord.finished (r : ChildRecord) : Bool :=
  (r.status.isSome && r.hasRun) || (r.state == .prepared && !r.hasRun)

def waitKindSpawnPrepared : ℤ := -2

/-- The kind and the code that are reported of a finished child. -/
def ChildRecord.report (r : ChildRecord) : ℤ × ℤ :=
  match r.status with
  | some status => if r.hasRun then status else (waitKindSpawnPrepared, 0)
  | none => (waitKindSpawnPrepared, 0)

/-- The two words of a `WaitStatus`. -/
def waitStatus (report : ℤ × ℤ) : List UInt8 :=
  leBytes 4 (report.1 % 2 ^ 32).toNat ++ leBytes 4 (report.2 % 2 ^ 32).toNat

def hasChild (k : Kernel) (parent requested : ℕ) : Bool :=
  k.table.any fun r => r.matches parent requested

/-- The first child that can be waited for and has finished, and its position. -/
def finishedChild (k : Kernel) (parent requested : ℕ) : Option (ℕ × ChildRecord) :=
  (k.table.findIdx? fun r => r.matches parent requested && r.finished).bind fun i =>
    k.table[i]?.map fun r => (i, r)

/-- What goes with a child: its messages, its ends of pipes and its files. -/
def reap (r : ChildRecord) (i : ℕ) (k : Kernel) : Kernel :=
  { k with
    mailboxes := k.mailboxes.map fun boxes => Function.update boxes r.pid none
    table := k.table.eraseIdx i
    pipes := r.pipeEnds.foldl (fun reg e => (Pipes.release e.1 e.2 reg).2) k.pipes
    files := k.files.map fun files =>
      r.vfsFds.foldl (fun files fd => (Files.close fd files).2) files }

/-- `wait_for_child`, and the copies that `wait_process` makes. -/
def sysWaitProcess (pid status : ℕ) : ReadM Taken := do
  let parent ← currentPid
  let k ← Prog.get
  match finishedChild k parent pid with
  | none => if hasChild k parent pid then stop .eagain else stop .echild
  | some (i, r) => do
    Prog.modify (reap r i)
    pure (.deliver [(status, waitStatus r.report)] r.pid)

/-! ### The calls -/

inductive Call where
  | read (fd buf count : ℕ)
  | receiveMessage (msg len : ℕ)
  | receiveMessageFrom (msg len senderOut : ℕ)
  | ptyRead (id buf count : ℕ)
  | waitProcess (pid status : ℕ)
  deriving DecidableEq

/-- The first part of a call. -/
def Call.take : Call → ReadM Taken
  | read fd buf count => sysRead fd buf count
  | receiveMessage msg len => sysReceiveMessage msg len
  | receiveMessageFrom msg len senderOut => sysReceiveMessageFrom msg len senderOut
  | ptyRead id buf count => sysPtyRead id buf count
  | waitProcess pid status => sysWaitProcess pid status

/-- The second part: the copies are made in order. The outcome is `none` for a process that is
parked. -/
def deliver : Taken → ReadM (Option ℕ)
  | .reply n => pure (some n)
  | .parked => pure none
  | .deliver copies n => do
    forEach (fun c => copyBufferToUser c.1 c.2) copies
    pure (some n)

def Call.exec (call : Call) : ReadM (Option ℕ) := do
  let taken ← call.take
  deliver taken

/-! ### What there is for a call -/

/-- The bytes of a file in memory from the position of a handle on, if that can be read. -/
def memAvailable (fs : MemFs) (handle len : ℕ) : Option (List UInt8) :=
  (MemFs.findHandle fs handle).bind fun h =>
    if h.flags.canRead = false then none
    else (MemFs.findNode fs h.path).bind fun n =>
      if n.fileType ≠ .file then none else some (slice n.data.asSlice h.offset len)

/-- The bytes of a file of the disk from the position of a handle on, if the device gives them. -/
def diskAvailable (w : DunitFs.World) (handle len : ℕ) : Option (List UInt8) :=
  (DunitFs.findHandle w.fs handle).bind fun h =>
    if h.flags.canRead = false then none
    else (DunitFs.readNode h.node h.offset len w).1.toOption

/-- The bytes of an open file from its position on. -/
def fileAvailable (files : Files) (fd len : ℕ) : Option (List UInt8) :=
  (files.openFiles fd).bind fun f => match f.fs with
    | .memfs => memAvailable files.memfs f.handle len
    | .dunitfs => diskAvailable files.dunitfs f.handle len

namespace Kernel

/-- The input for the current process: what its pseudo terminal holds, or the line of the terminal
that is ready for it. -/
def inputAvailable (k : Kernel) (count : ℕ) : Option (List UInt8) :=
  match findBySlave k with
  | some (_, pty) => if slaveInput pty count = [] then none else some (slaveInput pty count)
  | none => k.current.bind fun pid =>
    if k.waitingPid = pid ∧ k.terminal.ready then some (k.terminal.pending.take count) else none

def pipeAvailable (k : Kernel) (id count : ℕ) : Option (List UInt8) :=
  (k.pipes.pipes id).bind fun p =>
    if p.buf = [] then none else some (p.buf.take (min count p.buf.length))

/-- The bytes that a descriptor has for its process. -/
def available (k : Kernel) (count : ℕ) : Pipes.FdTarget → Option (List UInt8)
  | .stdin => k.inputAvailable count
  | .pipe id false => k.pipeAvailable id count
  | .vfs vfsFd => k.files.bind fun files => fileAvailable files vfsFd count
  | _ => none

/-- The first message of a process, if it fits. -/
def firstMessage (k : Kernel) (len pid : ℕ) : Option Message :=
  (k.mailboxes.bind fun boxes => boxes pid).bind fun box =>
    box.head?.bind fun m => if len < m.data.length then none else some m

/-- The output of a pseudo terminal for the current process, its master. -/
def outputAvailable (k : Kernel) (id count : ℕ) : Option (List UInt8) :=
  k.current.bind fun pid => (findById k id).bind fun p =>
    if p.2.master ≠ pid ∨ p.2.toMaster = [] then none else some (p.2.toMaster.take count)

/-- The current process would be noted as the one that waits for the terminal. -/
def Registers (k : Kernel) : Prop :=
  findBySlave k = none ∧ k.foreground = true ∧ ∃ pid, k.current = some pid ∧ k.waitingPid ≠ pid

end Kernel

/-- **What there is for a call**, and where it is to go. -/
def Call.available (k : Kernel) : Call → Option (List (ℕ × List UInt8))
  | read fd buf count =>
    if fd ≥ maxFd ∨ count = 0 ∨ validateUserRange buf count ≠ .ok () then none
    else (k.fdTable fd).bind fun entry =>
      (k.available count entry.target).map fun data => [(buf, data)]
  | receiveMessage msg len =>
    if len = 0 ∨ len > maxMessageSize then none
    else (k.current.bind (k.firstMessage len)).map fun m => [(msg, m.data)]
  | receiveMessageFrom msg len senderOut =>
    if len = 0 ∨ len > maxMessageSize then none
    else (k.current.bind (k.firstMessage len)).map fun m =>
      [(msg, m.data), (senderOut, leBytes 4 m.sender)]
  | ptyRead id buf count =>
    if count = 0 ∨ validateUserRange buf count ≠ .ok () then none
    else (k.outputAvailable id count).map fun data => [(buf, data)]
  | waitProcess pid status => k.current.bind fun parent =>
    (finishedChild k parent pid).map fun c => [(status, waitStatus c.2.report)]

/-- A call reads the terminal, and its process would be noted as the one that waits for it. -/
def Call.Registers (k : Kernel) : Call → Prop
  | read fd buf count => (fd < maxFd ∧ count ≠ 0 ∧ validateUserRange buf count = .ok ()) ∧
      (∃ entry, k.fdTable fd = some entry ∧ entry.target = .stdin) ∧ k.Registers
  | _ => False

/-- **Bytes can be copied to user memory**: the range is one of user memory, and every page of it
is there and can be written. -/
def Writable (pageFlags : ℕ → Option PageFlags) (c : ℕ × List UInt8) : Prop :=
  c.2 = [] ∨ (c.2.length ≤ maxUserCopy ∧ c.1 ≠ 0 ∧ c.1 + c.2.length ≤ userSpaceEnd) ∧
    ∀ page, c.1 / 4096 ≤ page → page ≤ (c.1 + c.2.length - 1) / 4096 →
      pageOk pageFlags true (page * 4096) = true

/-- **What there is for a call is lost**: it is to go to memory that cannot be written. -/
def Call.Loses (call : Call) (k : Kernel) : Prop :=
  ∃ copies, call.available k = some copies ∧ ∃ c ∈ copies, ¬Writable k.pageFlags c

/-! ### What a call can consume -/

/-- The positions of all open files. -/
def offsets (files : Files) : List ℕ × List ℕ :=
  (files.memfs.openHandles.map fun h => h.2.offset,
    files.dunitfs.fs.handles.map fun h => h.2.offset)

/-- **Nothing is consumed**: the positions in files, the pipes, the message queues, the rings of
the pseudo terminals, the pending input of the terminal with the process that it is for, and the
records of processes are the same. -/
structure Same (k t : Kernel) : Prop where
  offsets_eq : t.files.map offsets = k.files.map offsets
  pipes_eq : t.pipes = k.pipes
  mailboxes_eq : t.mailboxes = k.mailboxes
  ptys_eq : t.ptys = k.ptys
  terminal_eq : t.terminal = k.terminal
  waitingPid_eq : t.waitingPid = k.waitingPid
  table_eq : t.table = k.table

theorem Same.refl (k : Kernel) : Same k k := ⟨rfl, rfl, rfl, rfl, rfl, rfl, rfl⟩

variable {k t : Kernel} {data : List UInt8}

theorem validateUserRange_eq_ok {ptr size : ℕ} (hsize : size ≠ 0) :
    validateUserRange ptr size = .ok () ↔
      size ≤ maxUserCopy ∧ ptr ≠ 0 ∧ ptr + size ≤ userSpaceEnd := by
  rw [validateUserRange, isValidUserPointer, beq_false_of_ne hsize, Bool.false_or]
  split_ifs with hbig hbad
  · exact iff_of_false (fun h => by cases h) fun h => absurd h.1 (Nat.not_le.mpr hbig)
  · rw [Bool.and_eq_false_iff, bne_eq_false_iff_eq, decide_eq_false_iff_not] at hbad
    exact iff_of_false (fun h => by cases h) fun h => hbad.elim h.2.1 fun hno => hno h.2.2
  · rw [Bool.and_eq_false_iff, bne_eq_false_iff_eq, decide_eq_false_iff_not, not_or,
      not_not] at hbad
    exact iff_of_true rfl ⟨Nat.le_of_not_lt hbig, hbad⟩

theorem validateUserPages_eq_ok {pageFlags : ℕ → Option PageFlags} {ptr size : ℕ}
    (hsize : size ≠ 0) : validateUserPages pageFlags ptr size true = .ok () ↔
      ∀ page, ptr / 4096 ≤ page → page ≤ (ptr + size - 1) / 4096 →
        pageOk pageFlags true (page * 4096) = true := by
  rw [validateUserPages, if_neg hsize]
  dsimp only
  split_ifs with hall
  · refine iff_of_true rfl fun page hlo hhi => all_eq_true.mp hall page ?_
    rw [mem_range'_1]
    omega
  · refine iff_of_false (fun h => by cases h) fun h => hall (all_eq_true.mpr fun page hpage => ?_)
    rw [mem_range'_1] at hpage
    exact h page hpage.1 (by omega)

/-- **Copying** looks at the range and the pages, and changes nothing. -/
theorem copyBufferToUser_ends (c : ℕ × List UInt8) :
    Ends (fun _ t => t = k ∧ Writable k.pageFlags c) (fun _ t => t = k ∧ ¬Writable k.pageFlags c)
      (copyBufferToUser c.1 c.2 k) := by
  rw [copyBufferToUser]
  by_cases hnil : c.2 = []
  · rw [if_pos hnil]
    exact ⟨rfl, .inl hnil⟩
  have hsize : c.2.length ≠ 0 := fun h0 => hnil (List.length_eq_zero_iff.mp h0)
  rw [if_neg hnil, get_bind_run]
  refine Ends.ofExcept (fun e he => ⟨rfl, fun h => ?_⟩) fun _ hrange => ?_
  · cases he.symm.trans ((validateUserRange_eq_ok hsize).mpr (h.resolve_left hnil).1)
  rcases hpages : validateUserPages k.pageFlags c.1 c.2.length true with e | _
  · refine ⟨rfl, fun h => ?_⟩
    cases hpages.symm.trans ((validateUserPages_eq_ok hsize).mpr (h.resolve_left hnil).2)
  · exact ⟨rfl, .inr ⟨(validateUserRange_eq_ok hsize).mp hrange,
      (validateUserPages_eq_ok hsize).mp hpages⟩⟩

theorem copies_ends (copies : List (ℕ × List UInt8)) :
    Ends (fun _ t => t = k ∧ ∀ c ∈ copies, Writable k.pageFlags c)
      (fun _ t => t = k ∧ ∃ c ∈ copies, ¬Writable k.pageFlags c)
      (forEach (fun c => copyBufferToUser c.1 c.2) copies k) := by
  induction copies with
  | nil => exact ⟨rfl, forall_mem_nil _⟩
  | cons c copies ih =>
    refine (copyBufferToUser_ends c).bind ?_ fun _ _ ht => ⟨ht.1, c, mem_cons_self, ht.2⟩
    rintro - t ⟨rfl, hc⟩
    refine ih.imp (fun _ _ ht => ⟨ht.1, forall_mem_cons.mpr ⟨hc, ht.2⟩⟩) ?_
    rintro - t ⟨rfl, c', hc', hno⟩
    exact ⟨rfl, c', mem_cons_of_mem c hc', hno⟩

/-! ### Each call -/

/-- **Copies are what there is**, if there is anything in them, and to take them has changed the
state. -/
def Hands (k : Kernel) (found : Option (List (ℕ × List UInt8))) (copies : List (ℕ × List UInt8))
    (t : Kernel) : Prop :=
  t.pageFlags = k.pageFlags ∧
    ((∀ c ∈ copies, c.2 = []) ∧ (found = none ∨ found = some copies) ∨
      found = some copies ∧ ¬Same k t)

/-- **What the first part of a call does** where this and that is there for it: it hands that out,
and if it does not, nothing is consumed, unless the process is noted as one that waits. -/
def TakesOnly (k : Kernel) (found : Option (List (ℕ × List UInt8))) (waits : Prop) :
    Except ReadErrno Taken × Kernel → Prop :=
  Ends (fun taken t => match taken with
      | .deliver copies _ => Hands k found copies t
      | _ => found = none)
    fun _ t => found = none ∧ (Same k t ↔ ¬waits)

section

variable (k : Kernel) {waits : Prop}

theorem takesOnly_stop {e : ReadErrno} (hw : ¬waits) : TakesOnly k none waits (stop e k) :=
  ⟨rfl, iff_of_true (Same.refl k) hw⟩

theorem takesOnly_reply (n : ℕ) : TakesOnly k none waits ((pure (.reply n) : ReadM Taken) k) := rfl

open Files Pipes

/-- Data that is taken to one place. -/
theorem takesOnly_deliver {buf n : ℕ} (hflags : t.pageFlags = k.pageFlags)
    (h : data ≠ [] → ¬Same k t) :
    TakesOnly k (some [(buf, data)]) waits ((pure (.deliver [(buf, data)] n) : ReadM Taken) t) := by
  refine ⟨hflags, ?_⟩
  by_cases hnil : data = []
  · refine .inl ⟨fun c hc => ?_, .inr rfl⟩
    rw [mem_singleton.mp hc]
    exact hnil
  · exact .inr ⟨rfl, h hnil⟩

variable {pty : Pty} {i : ℕ}

theorem ptyAt_some {p : ℕ × Pty → Bool} (h : ptyAt k p = some (i, pty)) :
    ∃ id, k.ptys[i]? = some (id, pty) := by
  obtain ⟨j, -, hj⟩ := bind_eq_some_iff.mp h
  obtain ⟨⟨id, q⟩, hq, heq⟩ := map_eq_some_iff.mp hj
  cases heq
  exact ⟨id, hq⟩

theorem not_same_setPty {p : ℕ × Pty} (hi : k.ptys[i]? = some p)
    (hne : pty ≠ p.2) : ¬Same k (setPty i pty k) := by
  intro h
  have hmodify : (k.ptys.modify i fun p => (p.1, pty)) = k.ptys := h.ptys_eq
  have hget := congrArg (·[i]?) hmodify
  rw [List.getElem?_modify, hi] at hget
  have hsame : (if i = i then (p.1, pty) else p) = p := some.inj hget
  rw [if_pos rfl] at hsame
  exact hne (congrArg Prod.snd hsame)

theorem setPty_self {p : ℕ × Pty} (hi : k.ptys[i]? = some p) : setPty i p.2 k = k := by
  have hmodify : (k.ptys.modify i fun q => (q.1, p.2)) = k.ptys := by
    refine ext_getElem? fun j => ?_
    rw [List.getElem?_modify]
    by_cases hij : i = j
    · subst hij
      rw [hi]
      simp
    · simp [hij]
  rw [setPty, hmodify]

theorem drop_ne_self {α : Type} {l : List α} {n : ℕ} (hn : n ≠ 0) (hl : l ≠ []) : l.drop n ≠ l := by
  intro h
  have hlen := congrArg length h
  have hpos := length_pos_iff.mpr hl
  rw [length_drop] at hlen
  omega

theorem slaveInput_nil (h : pty.toSlave = []) {len : ℕ} : slaveInput pty len = [] := by
  rw [slaveInput, h, take_nil]
  split_ifs <;> rfl

theorem readStdin_takes (buf count : ℕ) :
    TakesOnly k ((k.inputAvailable count).map fun data => [(buf, data)]) k.Registers
      (readStdin buf count k) := by
  rw [readStdin, get_bind_run, Kernel.inputAvailable]
  rcases hp : findBySlave k with _ | ⟨i, pty⟩
  · dsimp only
    rw [terminalStdin, get_bind_run]
    rcases hcur : k.current with _ | pid
    · refine takesOnly_stop k fun hw => ?_
      obtain ⟨-, -, pid, hpid, -⟩ := hw
      cases hcur.symm.trans hpid
    rw [bind_some]
    by_cases hready : k.waitingPid = pid ∧ k.terminal.ready = true
    · rw [if_pos hready]
      dsimp only
      rw [if_pos hready]
      refine takesOnly_deliver k rfl fun _ h => ?_
      have hterminal : (⟨[], false⟩ : TerminalStdin) = k.terminal := h.terminal_eq
      rw [← hterminal] at hready
      cases hready.2
    rw [if_neg hready]
    dsimp only
    rw [if_neg hready]
    refine Ends.ite (fun hfore => ⟨rfl, ?_⟩) fun _ => takesOnly_reply k 0
    -- the process is noted as one that waits, and the input is left alone
    constructor
    · rintro h ⟨-, -, pid', hpid', hne⟩
      cases hcur.symm.trans hpid'
      exact hne h.waitingPid_eq.symm
    · intro hw
      refine ⟨rfl, rfl, rfl, rfl, rfl, ?_, rfl⟩
      exact (not_not.mp fun hne => hw ⟨hp, hfore, pid, hcur, hne⟩).symm
  · dsimp only
    have hw : ¬k.Registers := fun hw => by cases hp.symm.trans hw.1
    obtain ⟨pid, -, hpid⟩ := bind_eq_some_iff.mp hp
    obtain ⟨id, hi⟩ := ptyAt_some k hpid
    rw [ptyStdin, get_bind_run]
    by_cases hdata : slaveInput pty count = []
    · rw [if_pos hdata, if_neg (not_not.mpr hdata)]
      exact Ends.ite (fun _ => takesOnly_stop k hw) fun _ => takesOnly_reply k 0
    · rw [if_neg hdata, if_pos hdata]
      refine takesOnly_deliver k rfl fun _ => not_same_setPty k hi fun heq => ?_
      have hdrop := congrArg Pty.toSlave heq
      refine drop_ne_self (fun h0 => hdata (List.length_eq_zero_iff.mp h0)) (fun hnil => ?_) hdrop
      exact hdata (slaveInput_nil hnil)

theorem sysPipeRead_takes (id buf : ℕ) {count : ℕ} (hcount : count ≠ 0) (nonblock : Bool) :
    TakesOnly k ((k.pipeAvailable id count).map fun data => [(buf, data)]) False
      (sysPipeRead id buf count nonblock k) := by
  rw [sysPipeRead, get_bind_run, Kernel.pipeAvailable]
  rcases hp : k.pipes.pipes id with _ | p
  · have hrun : Pipes.read id count k.pipes = (.eof, k.pipes) := by rw [Pipes.read, hp]
    rw [hrun]
    exact takesOnly_reply k 0
  rw [bind_some]
  by_cases hnil : p.buf = []
  · rw [if_pos hnil]
    have hrun : Pipes.read id count k.pipes =
        (if p.writeRefs = 0 then .eof else .wouldBlock, k.pipes) := by
      rw [Pipes.read, hp]
      exact if_pos hnil
    rw [hrun]
    by_cases hrefs : p.writeRefs = 0
    · rw [if_pos hrefs]
      exact takesOnly_reply k 0
    rw [if_neg hrefs]
    cases nonblock with
    | true => exact takesOnly_stop k not_false
    | false =>
      rcases hpark : k.parkError with _ | e
      · exact rfl
      · exact takesOnly_stop k not_false
  · rw [if_neg hnil]
    have hrun : Pipes.read id count k.pipes = (.data (p.buf.take (min count p.buf.length)),
        k.pipes.set id (some { p with buf := p.buf.drop (min count p.buf.length) })) := by
      rw [Pipes.read, hp]
      exact if_neg hnil
    rw [hrun]
    refine takesOnly_deliver k rfl fun _ h => ?_
    have hset : k.pipes.set id _ = k.pipes := h.pipes_eq
    have hpipe := congrArg (fun reg => reg.pipes id) hset
    rw [Pipes.Registry.set_self, hp] at hpipe
    have hpos := length_pos_iff.mpr hnil
    exact drop_ne_self (by omega) hnil (congrArg Pipes.Pipe.buf (some.inj hpipe))

/-- **Reading a file in memory** hands out the bytes from the position of its handle on, and moves
that by as many. -/
theorem memRead_offsets (handle len : ℕ) (fs : MemFs) :
    Ends (fun data t => memAvailable fs handle len = some data ∧ (data ≠ [] →
        t.openHandles.map (fun h => h.2.offset) ≠ fs.openHandles.map fun h => h.2.offset))
      (fun _ t => memAvailable fs handle len = none ∧ t = fs) (MemFs.read handle len fs) := by
  rw [MemFs.read, get_bind_run, memAvailable]
  rcases hh : MemFs.findHandle fs handle with _ | h
  · exact ⟨rfl, rfl⟩
  rw [MemFs.okOr_some_bind, bind_some]
  refine Ends.ite (fun hno => ⟨if_pos hno, rfl⟩) fun hcan => ?_
  rw [if_neg hcan, MemFs.handleNode]
  rcases hn : MemFs.findNode fs h.path with _ | n
  · exact ⟨rfl, rfl⟩
  rw [MemFs.okOr_some_bind, bind_some]
  by_cases htype : n.fileType ≠ .file
  · rw [if_pos htype, if_pos htype]
    exact ⟨rfl, rfl⟩
  rw [if_neg htype, if_neg htype]
  refine ⟨rfl, fun hne heq => ?_⟩
  -- the handle that was found is the one that is changed
  rcases hi : fs.openHandles.findIdx? fun h => h.1 == handle with _ | i
  · obtain ⟨l, r, hl, -⟩ := List.lookup_eq_some_iff.mp hh
    have hmem : (handle, h) ∈ fs.openHandles := by rw [hl]; simp
    exact absurd (List.findIdx?_eq_none_iff.mp hi _ hmem) (by simp)
  obtain ⟨e, he, -⟩ := exists_of_findIdx? hi
  have hget := congrArg (·[i]?) heq
  simp only [MemFs.setHandle, hi, List.getElem?_map, List.getElem?_modify, he] at hget
  have hsum : e.2.offset + (slice n.data.asSlice h.offset len).length = e.2.offset := by
    simpa using hget
  exact hne (List.length_eq_zero_iff.mp (by omega))

/-- A handle gets another position. -/
theorem offsets_setOffset_ne {handle offset : ℕ} {hs : List (ℕ × DunitFs.OpenHandle)}
    {h : DunitFs.OpenHandle} (hh : hs.lookup handle = some h) (hne : offset ≠ h.offset) :
    (DunitFs.setOffset handle offset hs).map (fun h => h.2.offset) ≠
      hs.map fun h => h.2.offset := by
  induction hs with
  | nil => cases hh
  | cons e hs ih =>
    obtain ⟨i, h'⟩ := e
    rw [setOffset, modifyHandle]
    by_cases hi : i = handle
    · subst hi
      rw [lookup_cons_self] at hh
      cases hh
      rw [if_pos rfl, map_cons, map_cons]
      exact fun heq => hne (cons.inj heq).1
    · have hbeq : (handle == i) = false := beq_eq_false_iff_ne.mpr (Ne.symm hi)
      rw [lookup_cons, hbeq] at hh
      rw [if_neg hi, map_cons, map_cons]
      exact fun heq => ih hh (cons.inj heq).2

/-- Reading a file of the disk does so too. -/
theorem diskRead_offsets (handle len : ℕ) (w : DunitFs.World) :
    Ends (fun data t => diskAvailable w handle len = some data ∧ (data ≠ [] →
        t.fs.handles.map (fun h => h.2.offset) ≠ w.fs.handles.map fun h => h.2.offset))
      (fun _ t => diskAvailable w handle len = none ∧ t = w) (DunitFs.read handle len w) := by
  rw [diskAvailable]
  refine ends_getFs (ends_okOr (fun hh => ?_) fun h hh => ?_)
  · rw [hh]
    exact ⟨rfl, rfl⟩
  rw [hh, bind_some]
  refine Ends.ite (fun hno => ⟨if_pos hno, rfl⟩) fun hcan => ?_
  rw [if_neg hcan]
  have hends : Ends (fun _ t => t = w) (Fails (· = w)) (DunitFs.readNode h.node h.offset len w) :=
    readNode_ends
  rcases hread : DunitFs.readNode h.node h.offset len w with ⟨e | data, t⟩
  · rw [bind_error hread]
    exact ⟨rfl, (hends.of_error hread).2⟩
  · rw [bind_ok hread]
    obtain rfl := hends.of_ok hread
    refine ⟨rfl, fun hne => offsets_setOffset_ne hh fun heq => hne ?_⟩
    exact List.length_eq_zero_iff.mp (by omega)

theorem filesRead_offsets (fd len : ℕ) (files : Files) :
    Ends (fun data t => fileAvailable files fd len = some data ∧
        (data ≠ [] → offsets t ≠ offsets files))
      (fun _ t => fileAvailable files fd len = none ∧ offsets t = offsets files)
      (Files.read fd len files) := by
  rw [fileAvailable]
  rcases hf : files.openFiles fd with _ | f
  · have hrun : openFile fd files = (.error (.err .invalidDescriptor), files) := by
      rw [openFile, get_bind_run, hf]
      rfl
    rw [Files.read, bind_error hrun]
    exact ⟨rfl, rfl⟩
  have hrun : openFile fd files = (.ok f, files) := by
    rw [openFile, get_bind_run, hf]
    rfl
  rw [Files.read, bind_ok hrun, bind_some]
  cases f.fs with
  | memfs =>
    have hread := memRead_offsets f.handle len files.memfs
    rcases hm : MemFs.read f.handle len files.memfs with ⟨e | data, t⟩
    · rw [hm] at hread
      simp only [dispatch, onMemfs, hm]
      exact ⟨hread.1, congrArg (fun m => offsets { files with memfs := m }) hread.2⟩
    · rw [hm] at hread
      simp only [dispatch, onMemfs, hm]
      exact ⟨hread.1, fun hne heq => hread.2 hne (congrArg Prod.fst heq)⟩
  | dunitfs =>
    have hread := diskRead_offsets f.handle len files.dunitfs
    rcases hd : DunitFs.read f.handle len files.dunitfs with ⟨e | data, t⟩
    · rw [hd] at hread
      simp only [dispatch, onDunitfs, hd]
      exact ⟨hread.1, congrArg (fun w => offsets { files with dunitfs := w }) hread.2⟩
    · rw [hd] at hread
      simp only [dispatch, onDunitfs, hd]
      exact ⟨hread.1, fun hne heq => hread.2 hne (congrArg Prod.snd heq)⟩

theorem fileRead_takes (vfsFd buf count : ℕ) :
    TakesOnly k ((k.files.bind fun files => fileAvailable files vfsFd count).map
      fun data => [(buf, data)]) False (fileRead vfsFd buf count k) := by
  rcases hf : k.files with _ | files
  · have hnone : fileRead vfsFd buf count k = (.error (.of .eio), k) := by rw [fileRead, hf]
    rw [hnone]
    exact takesOnly_stop k not_false
  rw [bind_some]
  have hread := filesRead_offsets vfsFd count files
  rcases hrun : read vfsFd count files with ⟨e | data, files'⟩
  · rw [hrun] at hread
    have herror : fileRead vfsFd buf count k =
        (.error (.of (Userland.stopToErrno e)), { k with files := some files' }) := by
      simp only [fileRead, hf, hrun]
    rw [herror, hread.1]
    refine ⟨rfl, iff_of_true ⟨?_, rfl, rfl, rfl, rfl, rfl, rfl⟩ not_false⟩
    rw [hf]
    exact congrArg some hread.2
  · rw [hrun] at hread
    have hok : fileRead vfsFd buf count k =
        (.ok (.deliver [(buf, data)] data.length), { k with files := some files' }) := by
      simp only [fileRead, hf, hrun]
    rw [hok, hread.1]
    refine takesOnly_deliver k rfl fun hne h => hread.2 hne ?_
    have hoffsets := h.offsets_eq
    rw [hf] at hoffsets
    exact some.inj hoffsets

theorem TakesOnly.congr {found : Option (List (ℕ × List UInt8))} {waits' : Prop}
    {r : Except ReadErrno Taken × Kernel} (h : TakesOnly k found waits r) (hw : waits ↔ waits') :
    TakesOnly k found waits' r := by
  rcases r with ⟨e | taken, t⟩
  · exact ⟨h.1, h.2.trans (not_congr hw)⟩
  · exact h

theorem readTarget_takes (buf : ℕ) {count : ℕ} (hcount : count ≠ 0) (entry : FdEntry) :
    TakesOnly k ((k.available count entry.target).map fun data => [(buf, data)])
      (entry.target = .stdin ∧ k.Registers) (readTarget buf count entry k) := by
  rw [readTarget]
  rcases entry.target with _ | _ | _ | vfsFd | ⟨id, _ | _⟩
  · exact (readStdin_takes k buf count).congr k (by simp)
  · exact takesOnly_stop k (by simp)
  · exact takesOnly_stop k (by simp)
  · exact (fileRead_takes k vfsFd buf count).congr k (by simp)
  · exact (sysPipeRead_takes k id buf hcount entry.nonblock).congr k (by simp)
  · exact takesOnly_stop k (by simp)

theorem sysRead_takes (fd buf count : ℕ) :
    TakesOnly k ((Call.read fd buf count).available k) ((Call.read fd buf count).Registers k)
      (sysRead fd buf count k) := by
  rw [Call.available, Call.Registers]
  refine Ends.ite (fun hfd => ?_) fun hfd => Ends.ite (fun hzero => ?_) fun hcount => ?_
  · rw [if_pos (.inl hfd)]
    exact takesOnly_stop k fun hw => absurd hw.1.1 (Nat.not_lt.mpr hfd)
  · rw [if_pos (.inr (.inl hzero))]
    exact takesOnly_reply k 0
  refine Ends.ofExcept (fun e he => ?_) fun _ hrange => ?_
  · rw [if_pos (.inr (.inr (by rw [he]; exact nofun)))]
    refine ⟨rfl, iff_of_true (Same.refl k) fun hw => ?_⟩
    cases he.symm.trans hw.1.2.2
  rw [if_neg (not_or.mpr ⟨hfd, not_or.mpr ⟨hcount, not_not.mpr hrange⟩⟩), get_bind_run]
  rcases hentry : k.fdTable fd with _ | entry
  · refine takesOnly_stop k fun hw => ?_
    obtain ⟨-, ⟨entry, hno, -⟩, -⟩ := hw
    cases hno
  · refine (readTarget_takes k buf hcount entry).congr k ⟨fun hw => ?_, fun hw => ?_⟩
    · exact ⟨⟨Nat.lt_of_not_le hfd, hcount, hrange⟩, ⟨entry, rfl, hw.1⟩, hw.2⟩
    · obtain ⟨-, ⟨entry', heq, htarget⟩, hregister⟩ := hw
      cases heq
      exact ⟨htarget, hregister⟩

/-- The current process, if there is one. -/
theorem takesOnly_currentPid {f : ℕ → ReadM Taken}
    {found : ℕ → Option (List (ℕ × List UInt8))}
    (h : ∀ pid, TakesOnly k (found pid) False (f pid k)) :
    TakesOnly k (k.current.bind found) False ((currentPid >>= f) k) := by
  rcases hc : k.current with _ | pid
  · have hrun : currentPid k = (.error (.of .einval), k) := by
      rw [currentPid, get_bind_run, hc]
      rfl
    rw [bind_error hrun]
    exact takesOnly_stop k not_false
  · have hrun : currentPid k = (.ok pid, k) := by
      rw [currentPid, get_bind_run, hc]
      rfl
    rw [bind_ok hrun, bind_some]
    exact h pid

/-- **What receiving a message does**: it fails if there is none that fits, and takes the first
message off the queue otherwise. -/
theorem recvBytesWithSender_cases (pid len : ℕ) :
    (k.firstMessage len pid = none ∧ ∃ e, recvBytesWithSender pid len k = (.error e, k)) ∨
      ∃ boxes m rest,
      k.mailboxes = some boxes ∧ boxes pid = some (m :: rest) ∧ ¬len < m.data.length ∧
      recvBytesWithSender pid len k =
        (.ok m, { k with mailboxes := some (Function.update boxes pid (some rest)) }) := by
  rw [recvBytesWithSender, get_bind_run, Kernel.firstMessage]
  rcases k.mailboxes with _ | boxes
  · exact .inl ⟨rfl, _, rfl⟩
  rw [bind_some]
  rcases hbox : boxes pid with _ | _ | ⟨m, rest⟩
  · exact .inl ⟨rfl, .eagain, by simp only [hbox]; rfl⟩
  · exact .inl ⟨rfl, .eagain, by simp only [hbox]; rfl⟩
  · by_cases hlen : len < m.data.length
    · exact .inl ⟨if_pos hlen, .emsgsize, by simp only [hbox, if_pos hlen]; rfl⟩
    · exact .inr ⟨boxes, m, rest, rfl, hbox, hlen, by simp only [hbox, if_neg hlen]; rfl⟩

/-- A message that is received is off its queue, whatever is copied then. -/
theorem takesOnly_recv (len : ℕ) (copies : Message → List (ℕ × List UInt8)) :
    TakesOnly k (if len = 0 ∨ len > maxMessageSize then none
        else (k.current.bind (k.firstMessage len)).map copies) False
      ((if len = 0 ∨ len > maxMessageSize then stop .emsgsize else currentPid >>= fun pid =>
        recvBytesWithSender pid len >>= fun m => pure (.deliver (copies m) m.data.length)) k) := by
  refine Ends.ite (fun hbad => ?_) fun hlen => ?_
  · rw [if_pos hbad]
    exact takesOnly_stop k not_false
  rw [if_neg hlen, Option.map_bind]
  refine takesOnly_currentPid k fun pid => ?_
  rw [Function.comp_apply]
  rcases recvBytesWithSender_cases k pid len with
    ⟨hnone, e, hrun⟩ | ⟨boxes, m, rest, hboxes, hbox, hlen, hrun⟩
  · rw [bind_error hrun, hnone]
    exact takesOnly_stop k not_false
  · rw [bind_ok hrun, Kernel.firstMessage, hboxes, bind_some, hbox]
    refine ⟨rfl, .inr ⟨congrArg (Option.map copies) (if_neg hlen), fun h => ?_⟩⟩
    have hmail : some (Function.update boxes pid (some rest)) = k.mailboxes := h.mailboxes_eq
    rw [hboxes] at hmail
    have hqueue := congrFun (some.inj hmail) pid
    rw [Function.update_self, hbox] at hqueue
    exact cons_ne_self m rest (some.inj hqueue).symm

theorem sysPtyRead_takes (id buf count : ℕ) :
    TakesOnly k ((Call.ptyRead id buf count).available k) False (sysPtyRead id buf count k) := by
  rw [Call.available]
  refine Ends.ite (fun hzero => ?_) fun hcount => Ends.ofExcept (fun e he => ?_) fun _ hrange => ?_
  · rw [if_pos (.inl hzero)]
    exact takesOnly_reply k 0
  · rw [if_pos (.inr (by rw [he]; exact nofun))]
    exact ⟨rfl, iff_of_true (Same.refl k) not_false⟩
  rw [if_neg (not_or.mpr ⟨hcount, not_not.mpr hrange⟩), Kernel.outputAvailable, Option.map_bind]
  refine takesOnly_currentPid k fun master => ?_
  rw [get_bind_run, Function.comp_apply]
  rcases hp : findById k id with _ | ⟨i, pty⟩
  · exact takesOnly_stop k not_false
  obtain ⟨id, hi⟩ := ptyAt_some k hp
  rw [bind_some]
  dsimp only
  refine Ends.ite (fun hmaster => ?_) fun hmaster => ?_
  · rw [if_pos (.inl hmaster)]
    exact takesOnly_stop k not_false
  rw [modify_bind_run]
  by_cases hnil : pty.toMaster = []
  · -- nothing is in the ring, and the ring is put back as it was
    have hsame : setPty i { pty with toMaster := pty.toMaster.drop count } k = k := by
      rw [hnil, drop_nil, ← hnil]
      exact setPty_self k hi
    rw [if_pos (.inr hnil), hsame]
    refine Ends.ite (fun _ => takesOnly_stop k not_false) fun _ =>
      ⟨rfl, .inl ⟨fun c hc => ?_, .inl rfl⟩⟩
    rw [mem_singleton.mp hc, hnil]
    exact take_nil
  · rw [if_neg (not_or.mpr ⟨hmaster, hnil⟩)]
    refine Ends.ite (fun hend => ?_) fun _ => takesOnly_deliver k rfl fun _ => ?_
    · refine absurd ?_ hnil
      rw [← take_append_drop count pty.toMaster, hend.1, hend.2.2]
      rfl
    · exact not_same_setPty k hi fun heq => drop_ne_self hcount hnil (congrArg Pty.toMaster heq)

theorem sysWaitProcess_takes (pid status : ℕ) :
    TakesOnly k ((Call.waitProcess pid status).available k) False
      (sysWaitProcess pid status k) := by
  refine takesOnly_currentPid k fun parent => ?_
  rw [get_bind_run]
  rcases hchild : finishedChild k parent pid with _ | ⟨i, r⟩
  · exact Ends.ite (fun _ => takesOnly_stop k not_false) fun _ => takesOnly_stop k not_false
  obtain ⟨j, -, hj⟩ := bind_eq_some_iff.mp hchild
  obtain ⟨r', hr, heq⟩ := map_eq_some_iff.mp hj
  cases heq
  refine takesOnly_deliver k rfl fun _ h => ?_
  have htable : k.table.eraseIdx i = k.table := h.table_eq
  obtain ⟨hlt, -⟩ := List.getElem?_eq_some_iff.mp hr
  have hlen := congrArg length htable
  rw [length_eraseIdx_of_lt hlt] at hlen
  omega

theorem Call.take_takes (call : Call) :
    TakesOnly k (call.available k) (call.Registers k) (call.take k) := by
  cases call with
  | read fd buf count => exact sysRead_takes k fd buf count
  | receiveMessage msg len => exact takesOnly_recv k len fun m => [(msg, m.data)]
  | receiveMessageFrom msg len senderOut =>
    exact takesOnly_recv k len fun m => [(msg, m.data), (senderOut, leBytes 4 m.sender)]
  | ptyRead id buf count => exact sysPtyRead_takes k id buf count
  | waitProcess pid status => exact sysWaitProcess_takes k pid status

end

/-- **A reading call that fails** has consumed nothing exactly if what there was for it, if there
was anything, was not to go to memory that cannot be written, and if its process was not noted as
the one that waits for the terminal. -/
theorem failed_same_iff {call : Call} {k t : Kernel} {e : ReadErrno}
    (h : call.exec k = (.error e, t)) : Same k t ↔ ¬call.Loses k ∧ ¬call.Registers k := by
  have hspec := call.take_takes k
  rw [Call.exec] at h
  rcases htake : call.take k with ⟨e' | taken, k'⟩
  · rw [htake] at hspec
    rw [bind_error htake] at h
    cases h
    obtain ⟨hnone, hsame⟩ := hspec
    rw [hsame, Call.Loses, hnone]
    refine (and_iff_right ?_).symm
    rintro ⟨copies, hno, -⟩
    cases hno
  · rw [htake] at hspec
    rw [bind_ok htake] at h
    cases taken with
    | reply | parked => cases h
    | deliver copies n =>
      obtain ⟨hflags, hfound⟩ := hspec
      have hcopy := copies_ends (k := k') copies
      rw [deliver] at h
      rcases hrun : forEach (fun c => copyBufferToUser c.1 c.2) copies k' with ⟨e' | u, k''⟩
      swap
      · rw [bind_ok hrun] at h
        cases h
      rw [bind_error hrun] at h
      cases h
      obtain ⟨rfl, c, hc, hno⟩ := hcopy.of_error hrun
      have hlost : call.available k = some copies ∧ ¬Same k t :=
        hfound.resolve_left fun hempty => hno (.inl (hempty.1 c hc))
      refine iff_of_false hlost.2 fun hkept => hkept.1 ⟨copies, hlost.1, c, hc, ?_⟩
      rwa [← hflags]

/-- The current process has the read end of a pipe with two bytes at descriptor 3, and no page of
its memory is there. -/
def pipeReader : Kernel where
  pageFlags := fun _ => none
  current := some 1
  foreground := false
  parkError := none
  fdTable := fun fd => if fd = 3 then some ⟨.pipe 1 false, false⟩ else none
  files := none
  pipes := (Pipes.run [.create, .write 1 [7, 8]]).1
  mailboxes := none
  ptys := []
  terminal := ⟨[], false⟩
  waitingPid := 0
  table := []

theorem not_writable_pipeReader : ¬Writable pipeReader.pageFlags (4096, [7]) := by
  rintro (hnil | ⟨-, hpages⟩)
  · cases hnil
  · exact absurd (hpages 1 (by decide) (by decide)) (by decide)

/-- A read into memory that is not there finds a byte, and has consumed it. -/
theorem failed_same_iff_pipe :
    (Call.read 3 4096 1).available pipeReader = some [(4096, [7])] ∧
      ¬Same pipeReader ((Call.read 3 4096 1).exec pipeReader).2 := by
  have hrun : (Call.read 3 4096 1).exec pipeReader =
      (.error (.of .efault), ((Call.read 3 4096 1).exec pipeReader).2) := Prod.ext rfl rfl
  have hfound : (Call.read 3 4096 1).available pipeReader = some [(4096, [7])] := rfl
  exact ⟨hfound, fun h => ((failed_same_iff hrun).mp h).1
    ⟨_, hfound, _, mem_singleton_self _, not_writable_pipeReader⟩⟩

/-- **Bytes of a pipe are lost**: a read of one byte into memory that is not there reports a bad
address, and the next read does not find the byte any more. -/
theorem failed_read_consumes :
    ((Call.read 3 4096 1).exec pipeReader).1 = .error (.of .efault) ∧
      (Pipes.read 1 1 pipeReader.pipes).1 = .data [7] ∧
      (Pipes.read 1 1 ((Call.read 3 4096 1).exec pipeReader).2.pipes).1 = .data [8] ∧
      ¬Same pipeReader ((Call.read 3 4096 1).exec pipeReader).2 := by
  refine ⟨rfl, rfl, rfl, fun h => ?_⟩
  have hpipe : (Pipes.read 1 1 ((Call.read 3 4096 1).exec pipeReader).2.pipes).1 =
      (Pipes.read 1 1 pipeReader.pipes).1 := by rw [h.pipes_eq]
  exact absurd hpipe (by decide)

end DunitOS.Reading
