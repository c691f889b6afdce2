import DunitOS.Fs.DunitFs.Readdir

/-!
# The file system in memory

`kernel/src/fs/memfs.rs`: the file system at the root. Its nodes are a list of paths with a type
and data each, and the eight base directories exist without a node. An open handle does not name
its file by a number or an index but by its path, which the operations that move or remove nodes
keep up to date.

The operations are programs on the state. Data that came with the boot archive is `static` and
cannot be changed.
-/

namespace DunitOS

open SysLib Prog Vfs

namespace MemFs

/-! ### The state -/

/-- The directories that exist without a node. -/
def baseDirs : List Path :=
  ["kernel".toList, "proc".toList, "app".toList, "assets".toList, "dev".toList, "cfg".toList,
    "usr".toList, "tmp".toList]

/-- The greatest size of a file that can be written. -/
def maxFileSize : ℕ := 16 * 1024 * 1024

/-- The data of a node: its own, or read-only data of the boot archive. -/
inductive MemData where
  | owned (data : List UInt8)
  | static (data : List UInt8)
  deriving DecidableEq, Repr

namespace MemData

/-- The bytes of a file. -/
def asSlice : MemData → List UInt8
  | owned data => data
  | static data => data

def clear : MemData → Except VfsError MemData
  | owned _ => .ok (owned [])
  | static _ => .error .permissionDenied

/-- Cut off, or fill up with zeros; not what is static. -/
def resize (len : ℕ) : MemData → Except VfsError MemData
  | owned data => .ok (owned (data.take len ++ List.replicate (len - data.length) 0))
  | static _ => .error .permissionDenied

/-- Overwrite from an offset on. -/
def writeAt (offset : ℕ) (buf : List UInt8) : MemData → Except VfsError MemData
  | owned data => .ok (owned (splice data offset buf))
  | static _ => .error .permissionDenied

end MemData

/-- A node: its path, its type and its bytes. -/
structure MemNode where
  path : Path
  fileType : FileType
  data : MemData
  deriving DecidableEq, Repr

/-- An open file: it is named by its path. -/
structure OpenMemHandle where
  path : Path
  offset : ℕ
  flags : OpenFlags
  deriving DecidableEq, Repr

end MemFs

/-- The file system in memory. -/
structure MemFs where
  nodes : List MemFs.MemNode
  nextHandle : ℕ
  openHandles : List (ℕ × MemFs.OpenMemHandle)
  deriving DecidableEq, Repr

namespace MemFs

def new : MemFs := ⟨[], 1, []⟩

/-- Programs on the file system. -/
abbrev MemM (α : Type) : Type := Prog MemFs VfsError α

/-! ### Looking nodes and handles up -/

def clean (path : Path) : Path := trimSlashes path

def isBaseDir (path : Path) : Bool := baseDirs.contains (clean path)

/-- The position of the node of a path. -/
def nodeIndex (fs : MemFs) (path : Path) : Option ℕ :=
  fs.nodes.findIdx? fun node => node.path == clean path

/-- The node with a path: the first one, should there be several. -/
def findNode (fs : MemFs) (path : Path) : Option MemNode :=
  fs.nodes.find? fun node => node.path == clean path

/-- The type of what is at a path, the base directories included. -/
def nodeType (fs : MemFs) (path : Path) : Option FileType :=
  if clean path = [] ∨ isBaseDir (clean path) then some .directory
  else (findNode fs (clean path)).map MemNode.fileType

def parentPath (path : Path) : Path := (beforeLastSlash (clean path)).getD []

/-- A path is in a directory. -/
def parentExists (fs : MemFs) (path : Path) : Bool :=
  nodeType fs (parentPath path) == some .directory

/-- The open handle with a number: the first one, should there be several. -/
def findHandle (fs : MemFs) (handle : ℕ) : Option OpenMemHandle := fs.openHandles.lookup handle

/-- Change the first node with a path. -/
def setNode (path : Path) (f : MemNode → MemNode) (fs : MemFs) : MemFs :=
  match nodeIndex fs path with
  | some i => { fs with nodes := fs.nodes.modify i f }
  | none => fs

/-- Change the first open handle with a number. -/
def setHandle (handle : ℕ) (f : OpenMemHandle → OpenMemHandle) (fs : MemFs) : MemFs :=
  match fs.openHandles.findIdx? fun h => h.1 == handle with
  | some i => { fs with openHandles := fs.openHandles.modify i fun h => (h.1, f h.2) }
  | none => fs

def okOr {α : Type} (e : VfsError) : Option α → MemM α
  | some a => pure a
  | none => stop e

/-! ### Creating, removing and renaming -/

/-- Add a node, if its path is free and its parent is a directory. -/
def addNode (path : Path) (fileType : FileType) : MemM Unit := do
  let fs ← Prog.get
  let path := clean path
  if path = [] then stop .invalidPath
  else if (nodeType fs path).isSome then stop .alreadyExists
  else if parentExists fs path = false then stop .notFound
  else Prog.modify fun fs => { fs with nodes := fs.nodes ++ [⟨path, fileType, .owned []⟩] }

def create (path : Path) : MemM Unit := addNode path .file

def mkdir (path : Path) : MemM Unit := addNode path .directory

/-- `add_file` and `add_static_file`: create a file if there is none and set its data. -/
def addFile (name : Path) (data : MemData) : MemM Unit := fun fs =>
  (.ok (), setNode name (fun node => { node with data }) (create name fs).2)

/-- Remove a file that is not static, and its handles. -/
def remove (path : Path) : MemM Unit := do
  let fs ← Prog.get
  let path := clean path
  if path = [] then stop .invalidPath
  else do
    let i ← okOr .notFound (nodeIndex fs path)
    let node ← okOr .notFound fs.nodes[i]?
    match node.data with
    | .static _ => stop .permissionDenied
    | .owned _ =>
      if node.fileType ≠ .file then stop .isADirectory
      else Prog.modify fun fs => { fs with
        nodes := fs.nodes.eraseIdx i
        openHandles := fs.openHandles.filter fun h => decide (h.2.path ≠ path) }

/-- Remove an empty directory that is not static. -/
def removeDir (path : Path) : MemM Unit := do
  let fs ← Prog.get
  let path := clean path
  if path = [] then stop .invalidPath
  else do
    let i ← okOr .notFound (nodeIndex fs path)
    let node ← okOr .notFound fs.nodes[i]?
    match node.data with
    | .static _ => stop .permissionDenied
    | .owned _ =>
      if node.fileType ≠ .directory then stop .notADirectory
      else if fs.nodes.any fun node => (path ++ ['/']).isPrefixOf node.path then
        stop .directoryNotEmpty
      else Prog.modify fun fs => { fs with nodes := fs.nodes.eraseIdx i }

/-- A path below a renamed directory, moved. -/
def rehome (old new path : Path) : Path :=
  match (old ++ ['/']).isPrefixOf? path with
  | some rest => new ++ '/' :: rest
  | none => path

/-- Move a node, what is below it, and their handles. -/
def rename (old new : Path) : MemM Unit := do
  let fs ← Prog.get
  let old := clean old
  let new := clean new
  if old = [] ∨ new = [] then stop .invalidPath
  else if old = new then pure ()
  else if (old ++ ['/']).isPrefixOf new then stop .invalidPath
  else do
    let i ← okOr .notFound (nodeIndex fs old)
    let node ← okOr .notFound fs.nodes[i]?
    match node.data with
    | .static _ => stop .permissionDenied
    | .owned _ =>
      if (nodeType fs new).isSome then stop .alreadyExists
      else if parentExists fs new = false then stop .notFound
      else do
        Prog.modify fun fs => { fs with nodes := fs.nodes.modify i fun n => { n with path := new } }
        when (node.fileType == .directory) (Prog.modify fun fs => { fs with
          nodes := fs.nodes.map fun n => { n with path := rehome old new n.path }
          openHandles := fs.openHandles.map fun h =>
            (h.1, { h.2 with path := rehome old new h.2.path }) })
        -- the handles of the renamed node itself
        Prog.modify fun fs => { fs with openHandles := fs.openHandles.map fun h =>
          (h.1, { h.2 with path := if h.2.path = old then new else h.2.path }) }

/-! ### Open files -/

/-- The second half of `open`, for a path that exists if it ever will. Handle numbers come from
a counter that wraps. -/
def openExisting (path : Path) (flags : OpenFlags) : MemM ℕ := do
  let fs ← Prog.get
  match nodeType fs path with
  | none => stop .notFound
  | some .directory => stop .isADirectory
  | some .device => stop .unsupported
  | some .file => do
    let node ← okOr .notFound (findNode fs path)
    when flags.trunc
      (if flags.canWrite = false then stop .permissionDenied
      else do
        let data ← ofExcept node.data.clear
        Prog.modify (setNode path fun node => { node with data }))
    let fs ← Prog.get
    let node ← okOr .notFound (findNode fs path)
    let offset := if flags.append then node.data.asSlice.length else 0
    Prog.modify fun fs => { fs with
      nextHandle := (fs.nextHandle + 1) % 2 ^ 64
      openHandles := fs.openHandles ++ [(fs.nextHandle, ⟨clean path, offset, flags⟩)] }
    pure fs.nextHandle

/-- Open a file, creating it if asked to. -/
def open_ (path : Path) (flags : OpenFlags) : MemM ℕ :=
  if flags.isValid = false then stop .invalidPath
  else do
    let fs ← Prog.get
    if flags.create ∧ flags.isExclusive ∧ (nodeType fs path).isSome then stop .alreadyExists
    else do
      when ((nodeType fs path).isNone && flags.create) (create path)
      openExisting path flags

/-- The file of a handle. -/
def handleNode (fs : MemFs) (h : OpenMemHandle) : MemM MemNode := do
  let node ← okOr .notFound (findNode fs h.path)
  if node.fileType ≠ .file then stop .isADirectory else pure node

/-- Read from the position of a handle on, and move it. -/
def read (handle len : ℕ) : MemM (List UInt8) := do
  let fs ← Prog.get
  let h ← okOr .invalidDescriptor (findHandle fs handle)
  if h.flags.canRead = false then stop .permissionDenied
  else do
    let node ← handleNode fs h
    let data := slice node.data.asSlice h.offset len
    Prog.modify (setHandle handle fun h => { h with offset := h.offset + data.length })
    pure data

/-- Write at the position of a handle, or at the end. -/
def write (handle : ℕ) (buf : List UInt8) : MemM ℕ := do
  let fs ← Prog.get
  let h ← okOr .invalidDescriptor (findHandle fs handle)
  if h.flags.canWrite = false then stop .permissionDenied
  else do
    let node ← handleNode fs h
    let size := node.data.asSlice.length
    let offset := if h.flags.append then size else h.offset
    let finish := offset + buf.length
    if finish > maxFileSize then stop .fileTooBig
    else do
      let data ← ofExcept (if finish > size then node.data.resize finish else .ok node.data)
      let data ← ofExcept (data.writeAt offset buf)
      Prog.modify (setNode h.path fun node => { node with data })
      Prog.modify (setHandle handle fun h => { h with offset := finish })
      pure buf.length

def close (handle : ℕ) : MemM Unit := do
  let fs ← Prog.get
  let _ ← okOr .invalidDescriptor (findHandle fs handle)
  Prog.modify fun fs => { fs with openHandles := fs.openHandles.eraseP fun h => h.1 == handle }

/-- A 64-bit number read as a signed one. -/
def asI64 (n : ℕ) : ℤ := if n < 2 ^ 63 then n else n - 2 ^ 64

/-- Where a seek counts from: the start, the position or the end. -/
def seekBase (offset size : ℕ) : ℕ → Option ℤ
  | 0 => some 0
  | 1 => some (asI64 offset)
  | 2 => some (asI64 size)
  | _ => none

/-- Move the position of a handle. -/
def seek (handle : ℕ) (offset : ℤ) (whence : ℕ) : MemM ℕ := do
  let fs ← Prog.get
  let h ← okOr .invalidDescriptor (findHandle fs handle)
  let node ← handleNode fs h
  let base ← okOr .invalidPath (seekBase h.offset node.data.asSlice.length whence)
  let new := base + offset
  if new < 0 ∨ 2 ^ 63 ≤ new then stop .invalidPath
  else do
    Prog.modify (setHandle handle fun h => { h with offset := new.toNat })
    pure new.toNat

/-- Set the length of an open file. -/
def ftruncateHandle (handle len : ℕ) : MemM Unit := do
  let fs ← Prog.get
  let h ← okOr .invalidDescriptor (findHandle fs handle)
  if h.flags.canWrite = false then stop .permissionDenied
  else do
    let node ← handleNode fs h
    if len > maxFileSize then stop .fileTooBig
    else do
      let data ← ofExcept (node.data.resize len)
      Prog.modify (setNode h.path fun node => { node with data })

/-- Empty the file with a path. -/
def truncate (path : Path) : MemM Unit := do
  let fs ← Prog.get
  let path := clean path
  if path = [] then stop .invalidPath
  else do
    let node ← okOr .notFound (findNode fs path)
    if node.fileType ≠ .file then stop .isADirectory
    else do
      let data ← ofExcept node.data.clear
      Prog.modify (setNode path fun node => { node with data })

/-! ### Looking things up -/

def stat (path : Path) : MemM (FileType × ℕ) := do
  let fs ← Prog.get
  let path := clean path
  if path = [] ∨ isBaseDir path then pure (.directory, 0)
  else do
    let node ← okOr .notFound (findNode fs path)
    pure (node.fileType, node.data.asSlice.length)

def statHandle (handle : ℕ) : MemM (FileType × ℕ) := do
  let fs ← Prog.get
  let h ← okOr .invalidDescriptor (findHandle fs handle)
  stat h.path

/-- Whether one path is a direct child of another, or of the root. What follows the slash may be
empty here. -/
def isDirectChild (parent child : Path) : Bool :=
  let parent := clean parent
  let child := clean child
  if parent = [] then decide (child ≠ [] ∧ '/' ∉ child)
  else match (parent ++ ['/']).isPrefixOf? child with
    | some suffix => decide ('/' ∉ suffix)
    | none => false

/-- The entries of the nodes that are direct children of a directory. -/
def children (fs : MemFs) (directory : Path) : List MemNode :=
  fs.nodes.filter fun node => isDirectChild directory node.path

def entryOf (node : MemNode) : DirEntry := DirEntry.new (basename (clean node.path)) node.fileType

/-- List a directory. The root has the base directories besides its nodes. -/
def readdir (path : Path) : MemM (List DirEntry) := do
  let fs ← Prog.get
  let path := clean path
  if path = [] then
    pure (baseDirs.map (DirEntry.new · .directory) ++
      ((children fs []).filter fun node => !isBaseDir node.path).map entryOf)
  else if nodeType fs path ≠ some .directory then stop .notADirectory
  else pure ((children fs path).map entryOf)

/-- List a directory into a buffer: as many entries as there is room for. -/
def readdirInto (path : Path) (room : ℕ) : MemM (List DirEntry) := do
  let entries ← readdir path
  pure (entries.take room)

end MemFs

end DunitOS
