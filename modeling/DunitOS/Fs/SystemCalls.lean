import DunitOS.Fs.Descriptors

/-!
# File system calls

The system calls of `kernel/src/syscall/mod.rs` on files: a process names a file by a path, which
counts from its working directory, or by one of its own descriptors, which stand for descriptors
of the virtual file system. The calls that change the shape of the tree refuse paths at or below
a protected root (`Userland.pathIsProtected`).

Arguments that are copied from user memory are modelled by the outcome of the copy. Pipes and the
reading calls are left out.
-/

namespace DunitOS

open SysLib Prog Vfs

/-! ### Processes and their descriptors -/

/-- What a system call returns when it fails. A panic of the kernel is told apart. -/
inductive Errno where
  | enoent
  | eacces
  | ebadf
  | eexist
  | enotdir
  | eisdir
  | enotempty
  | efbig
  | einval
  | eopnotsupp
  | eio
  | enfile
  | espipe
  | efault
  | enametoolong
  | panic
  deriving DecidableEq, Repr

/-- What a descriptor of a process stands for. -/
inductive FdTarget where
  | stdin
  | stdout
  | stderr
  | vfs (fd : ℕ)
  deriving DecidableEq, Repr

/-- The part of a process that file calls work on. -/
structure UserProcess where
  cwd : Path
  fdTable : ℕ → Option FdTarget
  vfsFdRefs : ℕ → ℕ
  nextFd : ℕ

/-- The virtual file system and the processes that use it. -/
structure Userland where
  files : Files
  processes : ℕ → Option UserProcess

namespace UserProcess

def firstProcessFd : ℕ := 3

def maxProcessFd : ℕ := 1024

/-- The loop of `allocate_fd`, with the number of rounds that are left. -/
def allocateFd (target : FdTarget) : ℕ → UserProcess → Option ℕ × UserProcess
  | 0, p => (none, p)
  | rounds + 1, p =>
    let fd := p.nextFd
    let p := { p with nextFd := if fd + 1 ≥ maxProcessFd then firstProcessFd else fd + 1 }
    if (p.fdTable fd).isNone then
      (some fd, { p with fdTable := Function.update p.fdTable fd (some target) })
    else allocateFd target rounds p

def openVfsFd (vfsFd : ℕ) (p : UserProcess) : Option ℕ × UserProcess :=
  match allocateFd (.vfs vfsFd) (maxProcessFd - firstProcessFd) p with
  | (some fd, p) =>
    (some fd, { p with vfsFdRefs := Function.update p.vfsFdRefs vfsFd (p.vfsFdRefs vfsFd + 1) })
  | (none, p) => (none, p)

/-- Drop a descriptor; the outcome is the descriptor of the virtual file system that has to be
closed, if it was the last reference of the process. -/
def dropFd (fd : ℕ) (target : FdTarget) (p : UserProcess) : Option ℕ × UserProcess :=
  let p := { p with fdTable := Function.update p.fdTable fd none }
  match target with
  | .vfs vfsFd =>
    if p.vfsFdRefs vfsFd = 0 then (none, p)
    else
      (if p.vfsFdRefs vfsFd = 1 then some vfsFd else none,
        { p with vfsFdRefs := Function.update p.vfsFdRefs vfsFd (p.vfsFdRefs vfsFd - 1) })
  | _ => (none, p)

end UserProcess

namespace Userland

/-- A system call. -/
abbrev CallM (α : Type) : Type := Prog Userland Errno α

/-! ### Errors -/

def vfsErrorToErrno : VfsError → Errno
  | .notFound => .enoent
  | .permissionDenied => .eacces
  | .invalidDescriptor => .ebadf
  | .alreadyExists => .eexist
  | .notADirectory => .enotdir
  | .isADirectory => .eisdir
  | .directoryNotEmpty => .enotempty
  | .fileTooBig => .efbig
  | .invalidPath => .einval
  | .unsupported => .eopnotsupp
  | .ioError => .eio

def stopToErrno : DunitFs.Stop → Errno
  | .err e => vfsErrorToErrno e
  | .panic => .panic

/-- A call of the virtual file system. -/
def onFiles {α : Type} (m : Files.FilesM α) : CallM α := fun u =>
  match m u.files with
  | (.ok a, files) => (.ok a, { u with files })
  | (.error e, files) => (.error (stopToErrno e), { u with files })

/-- A call of the virtual file system whose result is thrown away. -/
def quietly {α : Type} (m : Files.FilesM α) : CallM Unit := fun u =>
  (.ok (), { u with files := (m u.files).2 })

def currentProcess (pid : ℕ) : CallM UserProcess := do
  let u ← Prog.get
  match u.processes pid with
  | some p => pure p
  | none => stop .einval

def setProcess (pid : ℕ) (p : UserProcess) : CallM Unit :=
  Prog.modify fun u => { u with processes := Function.update u.processes pid (some p) }

/-! ### Protected roots -/

def protectedRoots : List Path :=
  ["/assets".toList, "/app".toList, "/system".toList, "/kernel".toList, "/proc".toList,
    "/dev".toList]

/-- Whether a normalised path is one of the protected roots or below one. -/
def pathIsProtected (abs : Path) : Bool :=
  protectedRoots.any fun root => abs == root ||
    (decide (byteLen root < byteLen abs) && (utf8 abs)[byteLen root]? == some slash &&
      root.isPrefixOf abs)

def normalize (cwd path : Path) : CallM Path :=
  ofExcept ((Files.normalizeAt cwd path).mapError vfsErrorToErrno)

/-- What `unlink`, `rmdir` and `mkdir` have in common: the path is normalised and checked, and
then given to the virtual file system. -/
def onUnprotected (act : Path → Path → Files.FilesM Unit) (pid : ℕ)
    (path : Except Errno Path) : CallM ℕ := do
  let path ← ofExcept path
  let p ← currentProcess pid
  let abs ← normalize p.cwd path
  refuse (pathIsProtected abs) .eacces
  onFiles (act p.cwd path)
  pure 0

def sysUnlink : ℕ → Except Errno Path → CallM ℕ := onUnprotected Files.removeAt

def sysRmdir : ℕ → Except Errno Path → CallM ℕ := onUnprotected Files.removeDirAt

def sysMkdir : ℕ → Except Errno Path → CallM ℕ := onUnprotected Files.mkdirAt

def sysRename (pid : ℕ) (old new : Except Errno Path) : CallM ℕ := do
  let old ← ofExcept old
  let new ← ofExcept new
  let p ← currentProcess pid
  let oldAbs ← normalize p.cwd old
  let newAbs ← normalize p.cwd new
  refuse (pathIsProtected oldAbs || pathIsProtected newAbs) .eacces
  onFiles (Files.renameAt p.cwd old new)
  pure 0

def sysChdir (pid : ℕ) (path : Except Errno Path) : CallM ℕ := do
  let path ← ofExcept path
  let p ← currentProcess pid
  let (fileType, _) ← onFiles (Files.statAt p.cwd path)
  refuse (fileType != .directory) .enotdir
  let abs ← normalize p.cwd path
  setProcess pid { p with cwd := abs }
  pure 0

/-! ### Open files -/

def sysOpen (pid : ℕ) (path : Except Errno Path) (flags : OpenFlags) : CallM ℕ := do
  let path ← ofExcept path
  refuse (!flags.isValid) .einval
  let p ← currentProcess pid
  let vfsFd ← onFiles (Files.openAt p.cwd path flags)
  match p.openVfsFd vfsFd with
  | (some fd, p) => do
    setProcess pid p
    pure fd
  | (none, p) => do
    setProcess pid p
    quietly (Files.close vfsFd)
    stop .enfile

def maxFd : ℕ := 1024

def isValidFdNumber (fd : ℕ) : Bool := decide (fd < maxFd)

/-- What a descriptor of a process stands for. -/
def getFd (pid fd : ℕ) : CallM FdTarget := do
  let u ← Prog.get
  match (u.processes pid).bind fun p => p.fdTable fd with
  | some target => pure target
  | none => stop .ebadf

def sysWrite (pid fd : ℕ) (buf : Except Errno (List UInt8)) : CallM ℕ := do
  refuse (!isValidFdNumber fd) .ebadf
  if buf = .ok [] then pure 0
  else do
    let buf ← ofExcept buf
    let target ← getFd pid fd
    match target with
    | .stdin => stop .ebadf
    | .stdout => pure buf.length
    | .stderr => pure buf.length
    | .vfs vfsFd => onFiles (Files.write vfsFd buf)

def sysSeek (pid fd : ℕ) (offset : ℤ) (whence : ℕ) : CallM ℕ := do
  refuse (!isValidFdNumber fd) .ebadf
  let target ← getFd pid fd
  match target with
  | .vfs vfsFd => onFiles (Files.seek vfsFd offset whence)
  | _ => stop .espipe

def sysTruncate (pid fd : ℕ) (length : ℤ) : CallM ℕ := do
  refuse (!isValidFdNumber fd) .ebadf
  refuse (decide (length < 0)) .einval
  let target ← getFd pid fd
  match target with
  | .vfs vfsFd => do
    onFiles (Files.ftruncate vfsFd length.toNat)
    pure 0
  | _ => stop .einval

/-- Finish a close that dropped the last reference. -/
def applyFdCleanup : Option ℕ → CallM Unit
  | some vfsFd => quietly (Files.close vfsFd)
  | none => pure ()

def sysClose (pid fd : ℕ) : CallM ℕ := do
  refuse (!isValidFdNumber fd) .ebadf
  let target ← getFd pid fd
  match target with
  | .vfs _ => do
    let p ← currentProcess pid
    let (cleanup, p) := p.dropFd fd target
    setProcess pid p
    applyFdCleanup cleanup
    pure 0
  | _ => stop .eopnotsupp

/-! ### Runs -/

inductive FileCall where
  | unlink (path : Except Errno Path)
  | rmdir (path : Except Errno Path)
  | mkdir (path : Except Errno Path)
  | rename (old new : Except Errno Path)
  | chdir (path : Except Errno Path)
  | open_ (path : Except Errno Path) (flags : OpenFlags)
  | write (fd : ℕ) (buf : Except Errno (List UInt8))
  | seek (fd : ℕ) (offset : ℤ) (whence : ℕ)
  | truncate (fd : ℕ) (length : ℤ)
  | close (fd : ℕ)

/-- Make a call as a process. -/
def FileCall.exec (pid : ℕ) : FileCall → CallM ℕ
  | unlink path => sysUnlink pid path
  | rmdir path => sysRmdir pid path
  | mkdir path => sysMkdir pid path
  | rename old new => sysRename pid old new
  | chdir path => sysChdir pid path
  | open_ path flags => sysOpen pid path flags
  | write fd buf => sysWrite pid fd buf
  | seek fd offset whence => sysSeek pid fd offset whence
  | truncate fd length => sysTruncate pid fd length
  | close fd => sysClose pid fd

/-- Calls of any processes, one after the other. -/
def runCalls (u : Userland) (calls : List (ℕ × FileCall)) : Userland :=
  calls.foldl (fun u c => (c.2.exec c.1 u).2) u

end Userland

end DunitOS
