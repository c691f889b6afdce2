import DunitOS.Fs.DunitFs.Frame
import DunitOS.Fs.MemFs.Ops
import DunitOS.Fs.Paths

/-!
# File descriptors and mounted file systems

The upper half of `kernel/src/fs/vfs.rs`: the virtual file system with the file systems that the
kernel mounts, which are the one in memory at the root and, once a disk has been found, DunitFS
at `/persist`. A descriptor stands for a handle of one of them and counts its references; when the
last one goes the handle is closed by the destructor of the open file, which has nobody to report
an error to (`Files.dropFile`).
-/

namespace DunitOS

open SysLib Vfs Prog

/-- The file systems that are mounted. -/
inductive Backend where
  | memfs
  | dunitfs
  deriving DecidableEq, Repr

/-- An open file: the handle of a file system and how often it is referenced. -/
structure OpenFile where
  fs : Backend
  handle : ℕ
  refs : ℕ
  deriving DecidableEq, Repr

/-- The virtual file system: the two file systems, whether the disk is mounted, and the open
files by their descriptors. -/
structure Files where
  memfs : MemFs
  dunitfs : DunitFs.World
  persist : Bool
  openFiles : ℕ → Option OpenFile
  nextFd : ℕ

namespace Files

/-- Programs of the virtual file system. -/
abbrev FilesM (α : Type) : Type := Prog Files DunitFs.Stop α

/-! ### Mounted file systems -/

/-- Where the disk is mounted. -/
def persistPath : Path := "/persist".toList

/-- The mount table: `init` mounts the file system in memory at the root, and `mount_global`
mounts the disk. -/
def mounts (persist : Bool) : VirtualFileSystem Backend :=
  ⟨some .memfs, if persist then [⟨persistPath, .dunitfs⟩] else []⟩

/-- A path buffer; what it holds before does not matter. -/
def pathBuffer : Buffer := ⟨List.replicate 256 0, List.length_replicate⟩

def onMemfs {α : Type} (m : MemFs.MemM α) : FilesM α := fun s =>
  match m s.memfs with
  | (.ok a, t) => (.ok a, { s with memfs := t })
  | (.error e, t) => (.error (.err e), { s with memfs := t })

def onDunitfs {α : Type} (m : DunitFs.FsM α) : FilesM α := fun s =>
  match m s.dunitfs with
  | (.ok a, t) => (.ok a, { s with dunitfs := t })
  | (.error e, t) => (.error e, { s with dunitfs := t })

/-- A call of a method of one of the file systems. -/
def dispatch {α : Type} (m : MemFs.MemM α) (d : DunitFs.FsM α) : Backend → FilesM α
  | .memfs => onMemfs m
  | .dunitfs => onDunitfs d

def normalizeAt (cwd path : Path) : Except VfsError Path := normalizePathInto path cwd pathBuffer

def resolvePath (cwd path : Path) : FilesM (Backend × Path) := do
  let s ← Prog.get
  Prog.ofExcept (((mounts s.persist).resolvePath path cwd pathBuffer).mapError .err)

/-! ### Calls on paths -/

def mkdirAt (cwd path : Path) : FilesM Unit := do
  let (fs, relative) ← resolvePath cwd path
  dispatch (MemFs.mkdir relative) (DunitFs.mkdir relative) fs

def removeAt (cwd path : Path) : FilesM Unit := do
  let (fs, relative) ← resolvePath cwd path
  dispatch (MemFs.remove relative) (DunitFs.remove relative) fs

/-- Remove a directory, which DunitFS does not support. -/
def removeDirAt (cwd path : Path) : FilesM Unit := do
  let (fs, relative) ← resolvePath cwd path
  dispatch (MemFs.removeDir relative) (DunitFs.fail .unsupported) fs

def renameAt (cwd old new : Path) : FilesM Unit := do
  let (oldFs, oldRel) ← resolvePath cwd old
  let (newFs, newRel) ← resolvePath cwd new
  if oldFs ≠ newFs then Prog.stop (.err .unsupported)
  else dispatch (MemFs.rename oldRel newRel) (DunitFs.rename oldRel newRel) oldFs

def statAt (cwd path : Path) : FilesM (FileType × ℕ) := do
  let (fs, relative) ← resolvePath cwd path
  dispatch (MemFs.stat relative) (DunitFs.stat relative) fs

/-! ### Calls on descriptors -/

/-- The destructor of an open file: the handle is closed, and the result is thrown away. -/
def dropFile (f : OpenFile) : FilesM Unit := fun s =>
  (.ok (), (dispatch (MemFs.close f.handle) (DunitFs.close f.handle) f.fs s).2)

/-- Put an open file at a descriptor. A file that was there is dropped. -/
def insertFile (fd : ℕ) (f : OpenFile) : FilesM Unit := do
  let s ← Prog.get
  Prog.modify fun s => { s with openFiles := Function.update s.openFiles fd (some f) }
  match s.openFiles fd with
  | some old => dropFile old
  | none => pure ()

def openAt (cwd path : Path) (flags : OpenFlags) : FilesM ℕ := do
  let (fs, relative) ← resolvePath cwd path
  let handle ← dispatch (MemFs.open_ relative flags) (DunitFs.open_ relative flags) fs
  let s ← Prog.get
  let fd := s.nextFd
  Prog.modify fun s => { s with nextFd := (fd + 1) % 2 ^ 32 }
  insertFile fd ⟨fs, handle, 1⟩
  pure fd

/-- The open file of a descriptor. -/
def openFile (fd : ℕ) : FilesM OpenFile := do
  let s ← Prog.get
  match s.openFiles fd with
  | some f => pure f
  | none => Prog.stop (.err .invalidDescriptor)

def read (fd len : ℕ) : FilesM (List UInt8) := do
  let f ← openFile fd
  dispatch (MemFs.read f.handle len) (DunitFs.read f.handle len) f.fs

def write (fd : ℕ) (buf : List UInt8) : FilesM ℕ := do
  let f ← openFile fd
  dispatch (MemFs.write f.handle buf) (DunitFs.write f.handle buf) f.fs

def seek (fd : ℕ) (offset : ℤ) (whence : ℕ) : FilesM ℕ := do
  let f ← openFile fd
  dispatch (MemFs.seek f.handle offset whence) (DunitFs.seek f.handle offset whence) f.fs

def ftruncate (fd len : ℕ) : FilesM Unit := do
  let f ← openFile fd
  dispatch (MemFs.ftruncateHandle f.handle len) (DunitFs.ftruncateHandle f.handle len) f.fs

/-- Flush an open file. The file system in memory has nothing to flush. -/
def fsync (fd : ℕ) : FilesM Unit := do
  let f ← openFile fd
  dispatch (pure ()) (DunitFs.fsync f.handle) f.fs

/-- Add a reference to an open file. -/
def retain (fd : ℕ) : FilesM Unit := do
  let f ← openFile fd
  let f' := { f with refs := min (f.refs + 1) (2 ^ 32 - 1) }
  Prog.modify fun s => { s with openFiles := Function.update s.openFiles fd (some f') }

/-- Drop a reference; with the last one the open file goes. -/
def close (fd : ℕ) : FilesM Unit := do
  let f ← openFile fd
  if 1 < f.refs then Prog.modify fun s => { s with
    openFiles := Function.update s.openFiles fd (some { f with refs := f.refs - 1 }) }
  else do
    Prog.modify fun s => { s with openFiles := Function.update s.openFiles fd none }
    dropFile f

end Files

end DunitOS
