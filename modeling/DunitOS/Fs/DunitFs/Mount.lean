import DunitOS.Fs.DunitFs.Format
import DunitOS.SysLib.Table

/-!
# Formatting and mounting a DunitFS partition

The part of `kernel/src/fs/dunitfs.rs` that goes between a partition and a mounted
file system: the bounds-checked block accesses, reading and writing a metadata slot,
`DunitFs.format`, and `DunitFs.load`.

`load` looks at the two superblocks, keeps those whose slot has the CRC they record,
newest generation first, and tries to build a file system from each in turn. The
strict builder `DunitFs.fromSlot` refuses a slot with a damaged record, two
nodes of one path or two nodes that share a block. When no slot passes,
`DunitFs.fromSlotDegraded` takes the newest one, drops the nodes that are in
the way, and mounts the rest read-only.
-/

namespace DunitOS

open SysLib Prog Vfs

namespace DunitFs

/-! ### The partition -/

/-- What the kernel knows about a block device. -/
structure BlockDeviceInfo where
  blockSize : ℕ
  blocks : ℕ
  /-- The number of blocks is a 64-bit number. -/
  blocks_lt : blocks < 2 ^ 64
  deriving DecidableEq

/-- A partition: a device, the first block of the partition on it, and its size. -/
structure Partition where
  device : BlockDeviceInfo
  start : ℕ
  blocks : ℕ
  deriving DecidableEq

/-- The contents of a device with 512-byte blocks. -/
abbrev Device : Type := Disk blockSize

def validateGeometry (p : Partition) (g : Geometry) : Except DunitFsError Unit :=
  if p.device.blockSize ≠ blockSize then .error .invalidBlockSize
  else if p.blocks ≤ g.dataStart ∨ 2 ^ 64 ≤ p.start + p.blocks ∨
      p.device.blocks < p.start + p.blocks then
    .error .partitionTooSmall
  else .ok ()

def readPartitionBlock (p : Partition) (relative : ℕ) (d : Device) :
    Except DunitFsError (Block blockSize) :=
  if p.blocks ≤ relative then .error .io
  else match d.read (p.start + relative) with
    | none => .error .io
    | some b => .ok b

def writePartitionBlock (p : Partition) (relative : ℕ) (b : Block blockSize) :
    Prog Device DunitFsError Unit :=
  if p.blocks ≤ relative then stop .io else Disk.write .io (p.start + relative) b

/-- Read `n` consecutive blocks of the partition. -/
def readBlocks (p : Partition) (base : ℕ) : ℕ → Device → Except DunitFsError (List UInt8)
  | 0, _ => .ok []
  | n + 1, d => do
    let data ← readBlocks p base n d
    let block ← readPartitionBlock p (base + n) d
    .ok (data ++ block.bytes)

def readSlot (p : Partition) (g : Geometry) (slot : ℕ) (d : Device) :
    Except DunitFsError (List UInt8) :=
  readBlocks p (g.slotStart slot) g.slotBlocks d

/-- Block `i` of a slot image. -/
def slotBlock (data : List UInt8) (i : ℕ) : Block blockSize :=
  Block.ofBytes blockSize (slice data (blockSize * i) blockSize)

def writeSlot (p : Partition) (g : Geometry) (slot : ℕ) (data : List UInt8) :
    Prog Device DunitFsError Unit :=
  forEach (fun i => writePartitionBlock p (g.slotStart slot + i) (slotBlock data i))
    (List.range g.slotBlocks)

/-! ### Formatting -/

/-- The bitmap of an empty file system: the metadata region is in use. -/
def emptyBitmap (g : Geometry) : List UInt8 :=
  markUsed (List.replicate g.bitmapLen 0) 0 g.dataStart

/-- Write an empty file system. `mounted` is the global flag that one is mounted. -/
def format (mounted : Bool) (p : Partition) : Prog Device DunitFsError Unit :=
  if mounted then stop .alreadyMounted else
  let geom := Geometry.derive p.blocks
  match validateGeometry p geom with
  | .error e => stop e
  | .ok () => do
    let zero := Block.ofBytes blockSize (List.replicate blockSize 0)
    forEach (fun relative => writePartitionBlock p relative zero) (List.range geom.dataStart)
    let slot := emptyBitmap geom ++ List.replicate (geom.slotBytes - geom.bitmapLen) 0
    let slotCrc := crc32 slot
    writeSlot p geom 0 slot
    let block := SuperBlock.encode { generation := 1, activeSlot := 0, slotCrc, geom }
    writePartitionBlock p primarySb block
    writePartitionBlock p backupSb block

/-- A file handle in use: the node it names, the position in it and the flags it was
opened with. -/
structure OpenHandle where
  node : Fin maxNodes
  offset : ℕ
  flags : OpenFlags
  deriving DecidableEq

end DunitFs

open DunitFs in
/-- **A mounted file system.** -/
structure DunitFs where
  device : BlockDeviceInfo
  partitionStart : ℕ
  geom : Geometry
  generation : ℕ
  activeSlot : ℕ
  bitmap : List UInt8
  nodes : NodeTable
  handles : List (ℕ × OpenHandle)
  nextHandle : ℕ
  dirty : Bool
  readOnly : Bool

namespace DunitFs

/-- The partition a file system lives on. -/
def part (fs : DunitFs) : Partition := ⟨fs.device, fs.partitionStart, fs.geom.totalBlocks⟩

/-! ### Building a file system from a slot -/

/-- Whether two nodes cannot both be in a file system. -/
def conflict (a b : Node) : Bool := a.path == b.path || extentsOverlap a b

/-- No node conflicts with an earlier one. -/
def verifyConsistency (nodes : NodeTable) : Bool :=
  (List.finRange maxNodes).all fun i => (List.finRange maxNodes).all fun j =>
    if j < i then
      match nodes i, nodes j with
      | some node, some other => !conflict node other
      | _, _ => true
    else true

/-- The file system a superblock and a bitmap and node table describe. -/
def ofTable (p : Partition) (g : Geometry) (sb : SuperBlock) (bitmap : List UInt8)
    (nodes : NodeTable) (readOnly : Bool) : DunitFs :=
  { device := p.device
    partitionStart := p.start
    geom := g
    generation := sb.generation
    activeSlot := sb.activeSlot
    bitmap, nodes
    handles := []
    nextHandle := 1
    dirty := false
    readOnly }

/-- The strict builder: every record of the slot must be intact and the nodes must be
consistent. -/
def fromSlot (p : Partition) (g : Geometry) (sb : SuperBlock) (image : List UInt8) :
    Except DunitFsError DunitFs :=
  match fillTable (fun i : Fin maxNodes => decodeEntry g (entryAt g image i)) fun _ => none with
  | .error e => .error e
  | .ok nodes =>
    if verifyConsistency nodes then
      .ok (ofTable p g sb (image.take g.bitmapLen) nodes false)
    else .error .corruptMetadata

/-- One round of the conflict loop of the degraded builder: drop the node at `i` if it
conflicts with an earlier one that is still there. -/
def dropConflict (st : NodeTable × ℕ) (i : Fin maxNodes) : NodeTable × ℕ :=
  match st.1 i with
  | none => st
  | some a =>
    if (List.finRange maxNodes).any fun j =>
        decide (j < i) && (match st.1 j with
          | none => false
          | some b => conflict a b)
    then (Function.update st.1 i none, st.2 + 1)
    else st

/-- The degraded builder: damaged records and conflicting nodes are dropped and
counted, and the result is read-only. -/
def fromSlotDegraded (p : Partition) (g : Geometry) (sb : SuperBlock) (image : List UInt8) :
    DunitFs × ℕ :=
  let entries := fun i : Fin maxNodes => decodeEntry g (entryAt g image i)
  let nodes : NodeTable := fun i => (entries i).toOption.join
  let dropped := ((List.finRange maxNodes).filter fun i => (entries i).toOption.isNone).length
  let (nodes, dropped) := (List.finRange maxNodes).foldl dropConflict (nodes, dropped)
  (ofTable p g sb (image.take g.bitmapLen) nodes true, dropped)

/-! ### Mounting -/

/-- A superblock of the partition, if it can be read and is valid. -/
def candidate (p : Partition) (g : Geometry) (d : Device) (sbBlock : ℕ) : Option SuperBlock :=
  match readPartitionBlock p sbBlock d with
  | .error _ => none
  | .ok b => SuperBlock.decode b g

/-- A superblock with the image of its slot, if the slot can be read and has the
recorded CRC. -/
def withSlot (p : Partition) (g : Geometry) (d : Device) (sb : SuperBlock) :
    Option (SuperBlock × List UInt8) :=
  match readSlot p g sb.activeSlot d with
  | .error _ => none
  | .ok image => if crc32 image ≠ sb.slotCrc then none else some (sb, image)

/-- The superblocks whose slot is intact, newest generation first; of two of one
generation the primary one comes first. -/
def validSlots (p : Partition) (g : Geometry) (d : Device) : List (SuperBlock × List UInt8) :=
  let candidates := [primarySb, backupSb].filterMap (candidate p g d)
  (candidates.filterMap (withSlot p g d)).mergeSort fun a b =>
    decide (b.1.generation ≤ a.1.generation)

/-- **Mount a partition**: the newest generation that builds strictly, else the newest
one degraded. -/
def load (p : Partition) (d : Device) : Except DunitFsError DunitFs :=
  let geom := Geometry.derive p.blocks
  match validateGeometry p geom with
  | .error e => .error e
  | .ok () =>
    let valid := validSlots p geom d
    match valid.findSome? fun v => (fromSlot p geom v.1 v.2).toOption with
    | some fs => .ok fs
    | none =>
      match valid.head? with
      | some (sb, image) => .ok (fromSlotDegraded p geom sb image).1
      | none => .error .invalidSuperblock

end DunitFs

end DunitOS
