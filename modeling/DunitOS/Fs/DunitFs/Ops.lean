import DunitOS.Fs.DunitFs.Commit

/-!
# The operations of DunitFS

The methods of `DunitFs` and of its `FileSystem` implementation in
`kernel/src/fs/dunitfs.rs`, each as a program on `World`. An operation
that fails half-way keeps what it has done: blocks it has allocated stay allocated, and
extents it has freed stay freed.

A loop of the source carries the number of rounds it can still make, which is never used
up before its condition fails: every round of `ensure_blocks` allocates a block, and every
round of the read and write loops moves a byte.
-/

namespace DunitOS.DunitFs

open SysLib Prog Vfs

/-! ### Access to the state -/

def fail {α : Type} (e : VfsError) : FsM α := stop (.err e)

/-- `option.ok_or(e)?` -/
def okOr {α : Type} (e : VfsError) : Option α → FsM α
  | some a => pure a
  | none => fail e

/-- `option.unwrap()`, which panics when there is nothing. -/
def unwrap {α : Type} : Option α → FsM α
  | some a => pure a
  | none => stop .panic

/-- Change the file system in memory. -/
def update (f : DunitFs → DunitFs) : FsM Unit := Prog.modify fun w => { w with fs := f w.fs }

def getFs : FsM DunitFs := do
  let w ← Prog.get
  pure w.fs

/-- Read the clock, which moves on. -/
def monotonicNs : FsM UInt64 := fun w =>
  (.ok (w.clock 0), { w with clock := fun k => w.clock (k + 1) })

/-- The file system with another node at an index. -/
def setNode (fs : DunitFs) (i : Fin maxNodes) (o : Option Node) : DunitFs :=
  { fs with nodes := Function.update fs.nodes i o }

def setDirty (fs : DunitFs) : DunitFs := { fs with dirty := true }

/-! ### Looking nodes and handles up -/

def clean (path : Path) : Path := trimSlashes path

def nodeIndex (fs : DunitFs) (path : Path) : Option (Fin maxNodes) :=
  position fun i => decide ((fs.nodes i).map Node.path = some (clean path))

def freeNodeIndex (fs : DunitFs) : Option (Fin maxNodes) :=
  position fun i => (fs.nodes i).isNone

def parentExists (fs : DunitFs) (path : Path) : Bool :=
  match beforeLastSlash path with
  | none => true
  | some parent =>
    match (nodeIndex fs parent).bind fs.nodes with
    | some node => decide (node.fileType = .directory)
    | none => false

/-- The open handle with a number: the first one, should there be several. -/
def findHandle (fs : DunitFs) (handle : ℕ) : Option OpenHandle :=
  fs.handles.lookup handle

/-- Change the first open handle with a number. -/
def modifyHandle {α : Type} (handle : ℕ) (f : α → α) : List (ℕ × α) → List (ℕ × α)
  | [] => []
  | (k, h) :: hs => if k = handle then (k, f h) :: hs else (k, h) :: modifyHandle handle f hs

/-- Change the position of an open handle. -/
abbrev setOffset (handle offset : ℕ) : List (ℕ × OpenHandle) → List (ℕ × OpenHandle) :=
  modifyHandle handle fun h => { h with offset }

/-! ### Blocks -/

/-- The bitmap with the blocks of some extents free. -/
def freeBits (bitmap : List UInt8) (extents : List Extent) : List UInt8 :=
  extents.foldl (fun b e => markFree b e.1 e.2) bitmap

def freeExtents (i : Fin maxNodes) (fs : DunitFs) : DunitFs :=
  match fs.nodes i with
  | none => fs
  | some node =>
    { setNode fs i (some { node with extents := [] }) with
      bitmap := freeBits fs.bitmap node.extents }

/-- Give a run of blocks to a list of extents: the last extent grows if the run continues
it, and otherwise there must be room for one more. -/
def addRun (extents : List Extent) (run : Extent) : Option (List Extent) :=
  match extents.getLast? with
  | some last =>
    if last.1 + last.2 = run.1 then some (extents.dropLast ++ [(last.1, last.2 + run.2)])
    else if extents.length = maxExtents then none
    else some (extents ++ [run])
  | none => some [run]

/-- The loop of `ensure_blocks`: `remaining` blocks are still to be allocated. -/
def allocLoop (i : Fin maxNodes) : ℕ → ℕ → FsM Unit
  | 0, _ => pure ()
  | fuel + 1, remaining =>
    if remaining = 0 then pure () else do
      let fs ← getFs
      let run ← okOr .ioError (allocRun fs.bitmap fs.geom remaining)
      let node ← unwrap (fs.nodes i)
      let extents ← okOr .ioError (addRun node.extents run)
      update fun fs => { setNode fs i (some { node with extents }) with
        bitmap := markUsed fs.bitmap run.1 run.2 }
      allocLoop i fuel (remaining - run.2)

def ensureBlocks (i : Fin maxNodes) (needed : ℕ) : FsM Unit := do
  let fs ← getFs
  let node ← okOr .notFound (fs.nodes i)
  let have_ := node.allocatedBlocks
  if needed ≤ have_ then pure () else allocLoop i (needed - have_) (needed - have_)

def readDataBlock (relative : ℕ) : FsM (Block blockSize) := do
  let w ← Prog.get
  match readPartitionBlock w.fs.part relative w.disk with
  | .ok b => pure b
  | .error _ => fail .ioError

/-! ### Reading and writing a node -/

/-- The loop of `read_node`: `acc` has been read, of `length` bytes from `offset` on. -/
def readLoop (node : Node) (offset length : ℕ) : ℕ → List UInt8 → FsM (List UInt8)
  | 0, acc => pure acc
  | fuel + 1, acc =>
    if length ≤ acc.length then pure acc else do
      let pos := offset + acc.length
      let within := pos % blockSize
      let physical ← okOr .ioError (node.physicalBlock (pos / blockSize))
      let sector ← readDataBlock physical
      let count := min (length - acc.length) (blockSize - within)
      readLoop node offset length fuel (acc ++ slice sector.bytes within count)

/-- Read up to `len` bytes of a node from `offset` on. -/
def readNode (i : Fin maxNodes) (offset len : ℕ) : FsM (List UInt8) := do
  let fs ← getFs
  let node ← okOr .notFound (fs.nodes i)
  if node.size ≤ offset then pure [] else
    let length := min len (node.size - offset)
    readLoop node offset length length []

/-- What a block holds before `count` bytes of it are written from `within` on: a block
that is written in part keeps the rest of its contents. -/
def sectorFor (physical within count : ℕ) : FsM (Block blockSize) :=
  if within ≠ 0 ∨ count ≠ blockSize then readDataBlock physical
  else pure (Block.ofBytes blockSize (List.replicate blockSize 0))

/-- The loop of `write_node`: `done` bytes of the input have been written. -/
def writeLoop (i : Fin maxNodes) (offset : ℕ) (input : List UInt8) : ℕ → ℕ → FsM Unit
  | 0, _ => pure ()
  | fuel + 1, done =>
    if input.length ≤ done then pure () else do
      let pos := offset + done
      let within := pos % blockSize
      let count := min (input.length - done) (blockSize - within)
      let fs ← getFs
      let node ← unwrap (fs.nodes i)
      let physical ← okOr .ioError (node.physicalBlock (pos / blockSize))
      let sector ← sectorFor physical within count
      writeRaw physical
        (Block.ofBytes blockSize (splice sector.bytes within (slice input done count)))
      writeLoop i offset input fuel (done + count)

def writeNode (i : Fin maxNodes) (offset : ℕ) (input : List UInt8) : FsM ℕ := do
  ensureWritable
  let finish := offset + input.length
  if 2 ^ 64 ≤ finish then fail .ioError else do
    ensureBlocks i (divCeil finish blockSize)
    writeLoop i offset input input.length 0
    let fs ← getFs
    let node ← unwrap (fs.nodes i)
    let now ← monotonicNs
    update fun fs => setDirty
      (setNode fs i (some { node with size := max node.size finish, mtimeNs := now }))
    pure input.length

/-! ### Creating and renaming -/

def createNode (path : Path) (fileType : FileType) : FsM Unit := do
  ensureWritable
  let path := clean path
  let fs ← getFs
  if path = [] ∨ pathSize < byteLen path ∨ parentExists fs path = false then fail .invalidPath
  else if (nodeIndex fs path).isSome then fail .alreadyExists
  else do
    let i ← okOr .ioError (freeNodeIndex fs)
    let now ← monotonicNs
    let mode := if fileType = .directory then defaultDirMode else defaultFileMode
    update fun fs => setDirty (setNode fs i (some
      { path, fileType, mode, size := 0, ctimeNs := now, mtimeNs := now, extents := [] }))
    commit

/-- The new path of a node when the directory `old` becomes `new`: the nodes below it move
with it. -/
def movedPath (old new path : Path) : Option Path :=
  ((old ++ ['/']).isPrefixOf? path).map fun suffix => new ++ ['/'] ++ suffix

/-- The table with the nodes below a renamed directory moved. -/
def moveChildren (old new : Path) (nodes : NodeTable) : NodeTable := fun i =>
  (nodes i).map fun node => { node with path := (movedPath old new node.path).getD node.path }

/-- Whether every node below a renamed directory keeps a path that fits. -/
def childrenFit (old new : Path) (nodes : NodeTable) : Bool :=
  (List.finRange maxNodes).all fun i =>
    match (nodes i).bind fun node => movedPath old new node.path with
    | some path => decide (byteLen path ≤ pathSize)
    | none => true

def renameNode (old new : Path) : FsM Unit := do
  ensureWritable
  let old := clean old
  let new := clean new
  let fs ← getFs
  let i ← okOr .notFound (nodeIndex fs old)
  if new = [] ∨ pathSize < byteLen new then fail .invalidPath
  else if (nodeIndex fs new).isSome then fail .alreadyExists
  else if parentExists fs new = false then fail .invalidPath
  else do
    let node ← unwrap (fs.nodes i)
    if node.fileType = .directory ∧ childrenFit old new fs.nodes = false then fail .invalidPath
    else do
      update fun fs => { fs with nodes :=
        if node.fileType = .directory then moveChildren old new fs.nodes else fs.nodes }
      let now ← monotonicNs
      let fs ← getFs
      let node ← unwrap (fs.nodes i)
      update fun fs => setDirty (setNode fs i (some { node with path := new, mtimeNs := now }))
      commit

/-! ### The interface -/

/-- Whether one path is a direct child of another, or of the root. -/
def isDirectChild (parent child : Path) : Bool :=
  if parent = [] then decide (child ≠ [] ∧ '/' ∉ child)
  else match (parent.isPrefixOf? child).bind ['/'].isPrefixOf? with
    | some suffix => decide (suffix ≠ [] ∧ '/' ∉ suffix)
    | none => false

/-- The entries of a directory: those of its direct children, as many as there is room
for. -/
def listing (fs : DunitFs) (directory : Path) (room : ℕ) : List DirEntry :=
  let children := ((List.finRange maxNodes).filterMap fs.nodes).filter fun node =>
    isDirectChild directory node.path
  (children.map fun node => DirEntry.new (basename node.path) node.fileType).take room

def readdirInto (path : Path) (room : ℕ) : FsM (List DirEntry) := do
  let clean := clean path
  let fs ← getFs
  if clean = [] then pure (listing fs clean room)
  else do
    let i ← okOr .notFound (nodeIndex fs clean)
    let node ← unwrap (fs.nodes i)
    if node.fileType ≠ .directory then fail .notADirectory else pure (listing fs clean room)

/-- List a directory. There is room for as many entries as there are nodes. -/
def readdir (path : Path) : FsM (List DirEntry) := readdirInto path 64

/-- The type and the size of what a path names. -/
def stat (path : Path) : FsM (FileType × ℕ) := do
  let path := clean path
  if path = [] then pure (.directory, 0)
  else do
    let fs ← getFs
    let i ← okOr .notFound (nodeIndex fs path)
    let node ← unwrap (fs.nodes i)
    pure (node.fileType, node.size)

def create (path : Path) : FsM Unit := createNode path .file

def mkdir (path : Path) : FsM Unit := createNode path .directory

def rename (old new : Path) : FsM Unit := renameNode old new

def remove (path : Path) : FsM Unit := do
  ensureWritable
  let fs ← getFs
  let i ← okOr .notFound (nodeIndex fs (clean path))
  let node ← unwrap (fs.nodes i)
  if node.fileType ≠ .file then fail .isADirectory else do
    update fun fs =>
      let fs := setNode (freeExtents i fs) i none
      setDirty { fs with handles := fs.handles.filter fun h => decide (h.2.node ≠ i) }
    commit

def truncate (path : Path) : FsM Unit := do
  ensureWritable
  let fs ← getFs
  let i ← okOr .notFound (nodeIndex fs (clean path))
  let node ← unwrap (fs.nodes i)
  if node.fileType ≠ .file then fail .isADirectory else do
    update (freeExtents i)
    let fs ← getFs
    let node ← unwrap (fs.nodes i)
    let now ← monotonicNs
    update fun fs => setDirty (setNode fs i (some { node with size := 0, mtimeNs := now }))
    commit

/-- The node an `open` is about: the one of the path, or a new file if the flags ask for
one. -/
def openIndex (path : Path) (flags : OpenFlags) : FsM (Fin maxNodes) := do
  let fs ← getFs
  match nodeIndex fs path with
  | some i => pure i
  | none =>
    if flags.create = false then fail .notFound
    else do
      create path
      let fs ← getFs
      okOr .ioError (nodeIndex fs path)

/-- Where a handle starts that was opened with these flags. -/
def startOffset (i : Fin maxNodes) (flags : OpenFlags) : FsM ℕ := do
  let fs ← getFs
  if flags.append = false then pure 0
  else do
    let node ← unwrap (fs.nodes i)
    pure node.size

/-- Open a file. Handle numbers wrap, like every unchecked sum of the kernel. -/
def open_ (path : Path) (flags : OpenFlags) : FsM ℕ :=
  if flags.isValid = false then fail .permissionDenied
  else do
    let path := clean path
    let fs ← getFs
    if flags.create ∧ flags.isExclusive ∧ (nodeIndex fs path).isSome then fail .alreadyExists
    else do
      let i ← openIndex path flags
      let fs ← getFs
      let node ← unwrap (fs.nodes i)
      if node.fileType ≠ .file then fail .isADirectory
      else do
        when flags.trunc (truncate path)
        let offset ← startOffset i flags
        let fs ← getFs
        update fun fs => { fs with
          handles := fs.handles ++ [(fs.nextHandle, { node := i, offset, flags })]
          nextHandle := (fs.nextHandle + 1) % 2 ^ 64 }
        pure fs.nextHandle

def read (handle len : ℕ) : FsM (List UInt8) := do
  let fs ← getFs
  let h ← okOr .invalidDescriptor (findHandle fs handle)
  if h.flags.canRead = false then fail .permissionDenied else do
    let data ← readNode h.node h.offset len
    update fun fs => { fs with handles := setOffset handle (h.offset + data.length) fs.handles }
    pure data

/-- Where a write to a handle starts: at the end of the file if it was opened to append. -/
def writeOffset (h : OpenHandle) : FsM ℕ :=
  if h.flags.append then do
    let fs ← getFs
    let node ← unwrap (fs.nodes h.node)
    pure node.size
  else pure h.offset

def write (handle : ℕ) (input : List UInt8) : FsM ℕ := do
  let fs ← getFs
  let h ← okOr .invalidDescriptor (findHandle fs handle)
  if h.flags.canWrite = false then fail .permissionDenied else do
    let offset ← writeOffset h
    let written ← writeNode h.node offset input
    update fun fs => { fs with handles := setOffset handle (offset + written) fs.handles }
    pure written

def close (handle : ℕ) : FsM Unit := do
  let fs ← getFs
  let _ ← okOr .invalidDescriptor (findHandle fs handle)
  update fun fs => { fs with handles := fs.handles.eraseP fun h => decide (h.1 = handle) }
  commit

def fsync (handle : ℕ) : FsM Unit := do
  let fs ← getFs
  let _ ← okOr .invalidDescriptor (findHandle fs handle)
  commit

/-- A 64-bit number read as a signed one. -/
def asI64 (n : ℕ) : ℤ := if n < 2 ^ 63 then n else n - 2 ^ 64

/-- Where a seek counts from: the start, the position or the end. -/
def seekBase (offset size : ℕ) : ℕ → Option ℤ
  | 0 => some 0
  | 1 => some (asI64 offset)
  | 2 => some (asI64 size)
  | _ => none

def seek (handle : ℕ) (offset : ℤ) (whence : ℕ) : FsM ℕ := do
  let fs ← getFs
  let h ← okOr .invalidDescriptor (findHandle fs handle)
  let node ← okOr .notFound (fs.nodes h.node)
  let base ← okOr .invalidPath (seekBase h.offset node.size whence)
  let new := base + offset
  if new < 0 ∨ 2 ^ 63 ≤ new then fail .invalidPath else do
    update fun fs => { fs with handles := setOffset handle new.toNat fs.handles }
    pure new.toNat

/-- The loop of a growing `ftruncate_handle`: zeros are written a block at a time. -/
def growLoop (i : Fin maxNodes) : ℕ → ℕ → ℕ → FsM Unit
  | 0, _, _ => pure ()
  | fuel + 1, offset, remaining =>
    if remaining = 0 then pure () else do
      let chunk := min remaining blockSize
      let _ ← writeNode i offset (List.replicate chunk 0)
      growLoop i fuel (offset + chunk) (remaining - chunk)

/-- Shrink a file. The part to keep is read, the extents are freed, and the part is written
again: when that fails, the blocks are gone and the size is still the old one. -/
def shrink (i : Fin maxNodes) (len : ℕ) : FsM Unit := do
  let keep ← (if 0 < len then readNode i 0 len else pure [])
  update (freeExtents i)
  when (decide (0 < len)) (do
    let _ ← writeNode i 0 keep
    pure ())
  let fs ← getFs
  let node ← unwrap (fs.nodes i)
  let now ← monotonicNs
  update fun fs => setNode fs i (some { node with size := len, mtimeNs := now })

/-- Set the length of an open file. -/
def ftruncateHandle (handle len : ℕ) : FsM Unit := do
  ensureWritable
  let fs ← getFs
  let h ← okOr .invalidDescriptor (findHandle fs handle)
  if h.flags.canWrite = false then fail .permissionDenied else do
    let node ← okOr .notFound (fs.nodes h.node)
    if node.fileType ≠ .file then fail .isADirectory
    else if len = node.size then pure ()
    else do
      (if len < node.size then shrink h.node len
        else growLoop h.node (len - node.size) node.size (len - node.size))
      update setDirty
      commit

end DunitOS.DunitFs
