import DunitOS.Fs.Vfs
import DunitOS.SysLib.Bits
import DunitOS.SysLib.Disk

/-!
# The on-disk format of DunitFS

The data model of `kernel/src/fs/dunitfs.rs` and its serialised form. A partition
holds two superblocks, two metadata slots (an allocation bitmap and a table of 64
node records each) and a data region, at places computed from its size alone
(`Geometry.derive`). A superblock carries a generation number, the
slot it describes and the CRC of that slot; a node record carries the metadata of
one file, with a CRC of its own.

The encoders write their record field by field at the offsets of the source, and the
decoders read them back in its order of checks. Sizes, block numbers and generations
are natural numbers: the 64-bit width shows in the encoding, where a field takes the
number modulo its width, and in the operations that could leave it.
-/

namespace DunitOS.DunitFs

open SysLib Vfs

/-! ### Constants -/

/-- The eight letters `DUNITFS2`. -/
def magic : List UInt8 := [0x44, 0x55, 0x4e, 0x49, 0x54, 0x46, 0x53, 0x32]

def version : ℕ := 2

abbrev blockSize : ℕ := 512

abbrev maxNodes : ℕ := 64

abbrev nodeSize : ℕ := 256

abbrev pathSize : ℕ := 120

abbrev maxExtents : ℕ := 6

abbrev nodeTableBlocks : ℕ := maxNodes * nodeSize / blockSize

abbrev primarySb : ℕ := 0

abbrev backupSb : ℕ := 1

abbrev firstSlotStart : ℕ := 2

def defaultFileMode : UInt16 := 0o644

def defaultDirMode : UInt16 := 0o755

abbrev sbCrcOffset : ℕ := 508

abbrev nodeCrcOffset : ℕ := 252

/-- The errors of mounting and formatting. The error of a failed VFS mount is not
among them: nothing modelled here mounts. -/
inductive DunitFsError where
  | invalidBlockSize
  | partitionTooSmall
  | invalidSuperblock
  | corruptMetadata
  | alreadyMounted
  | io
  deriving DecidableEq, Repr

/-! ### The checksum -/

/-- One bit of the reflected CRC-32. -/
def crcStep (crc : UInt32) : UInt32 := (crc >>> 1) ^^^ (0xedb88320 &&& (0 - (crc &&& 1)))

def crcByte (crc : UInt32) (byte : UInt8) : UInt32 := crcStep^[8] (crc ^^^ byte.toUInt32)

def crc32 (data : List UInt8) : UInt32 := ~~~data.foldl crcByte 0xffffffff

/-! ### Where things are -/

def divCeil (a b : ℕ) : ℕ := (a + b - 1) / b

/-- The layout of a partition, in blocks relative to its start. -/
structure Geometry where
  totalBlocks : ℕ
  bitmapBlocks : ℕ
  slotBlocks : ℕ
  slot0Start : ℕ
  slot1Start : ℕ
  dataStart : ℕ
  deriving DecidableEq, Repr

namespace Geometry

/-- The layout of a partition of a given size. -/
def derive (totalBlocks : ℕ) : Geometry :=
  let bitmapBytes := divCeil totalBlocks 8
  let bitmapBlocks := divCeil bitmapBytes blockSize
  let slotBlocks := bitmapBlocks + nodeTableBlocks
  let slot0Start := firstSlotStart
  let slot1Start := slot0Start + slotBlocks
  { totalBlocks, bitmapBlocks, slotBlocks, slot0Start, slot1Start
    dataStart := slot1Start + slotBlocks }

def bitmapLen (g : Geometry) : ℕ := g.bitmapBlocks * blockSize

def slotBytes (g : Geometry) : ℕ := g.slotBlocks * blockSize

def slotStart (g : Geometry) (slot : ℕ) : ℕ := if slot = 0 then g.slot0Start else g.slot1Start

end Geometry

/-! ### Superblocks -/

/-- A parsed superblock. -/
structure SuperBlock where
  generation : ℕ
  activeSlot : ℕ
  slotCrc : UInt32
  geom : Geometry
  deriving DecidableEq, Repr

namespace SuperBlock

/-- The fields of a superblock, before its checksum. -/
def fields (sb : SuperBlock) : List UInt8 :=
  let block := List.replicate blockSize 0
  let block := splice block 0 magic
  let block := putLe block 8 4 version
  let block := putLe block 12 4 blockSize
  let block := putLe block 16 8 sb.geom.totalBlocks
  let block := putLe block 24 8 sb.generation
  let block := putLe block 32 4 sb.activeSlot
  let block := putLe block 36 4 maxNodes
  let block := putLe block 40 4 nodeSize
  let block := putLe block 44 4 sb.geom.bitmapBlocks
  let block := putLe block 48 4 sb.geom.slotBlocks
  let block := putLe block 52 4 maxExtents
  let block := putLe block 56 4 pathSize
  let block := putLe block 64 8 sb.geom.slot0Start
  let block := putLe block 72 8 sb.geom.slot1Start
  let block := putLe block 80 8 sb.geom.dataStart
  putLe block 88 4 sb.slotCrc.toNat

def encode (sb : SuperBlock) : Block blockSize :=
  let block := sb.fields
  Block.ofBytes blockSize (putLe block sbCrcOffset 4 (crc32 (block.take sbCrcOffset)).toNat)

/-- Parse a superblock and check it against the layout the partition must have. The
block counts are stored in 32 bits, so they are compared in 32 bits. -/
def decode (b : Block blockSize) (expected : Geometry) : Option SuperBlock :=
  let block := b.bytes
  if slice block 0 8 ≠ magic
      ∨ getLe block 8 4 ≠ version
      ∨ getLe block 12 4 ≠ blockSize
      ∨ getLe block 16 8 ≠ expected.totalBlocks
      ∨ getLe block 36 4 ≠ maxNodes
      ∨ getLe block 40 4 ≠ nodeSize
      ∨ getLe block 44 4 ≠ expected.bitmapBlocks % 2 ^ 32
      ∨ getLe block 48 4 ≠ expected.slotBlocks % 2 ^ 32
      ∨ getLe block 52 4 ≠ maxExtents
      ∨ getLe block 56 4 ≠ pathSize
      ∨ getLe block 64 8 ≠ expected.slot0Start
      ∨ getLe block 72 8 ≠ expected.slot1Start
      ∨ getLe block 80 8 ≠ expected.dataStart
      ∨ getLe block sbCrcOffset 4 ≠ (crc32 (block.take sbCrcOffset)).toNat then none
  else if 1 < getLe block 32 4 then none
  else some
    { generation := getLe block 24 8
      activeSlot := getLe block 32 4
      slotCrc := UInt32.ofNat (getLe block 88 4)
      geom := expected }

end SuperBlock

/-! ### Nodes -/

/-- A run of blocks: its first block and its length. -/
abbrev Extent : Type := ℕ × ℕ

/-- A file or a directory. The source keeps the extents in an array of six with a
count; here they are the list of the entries in use. -/
structure Node where
  path : Path
  fileType : FileType
  mode : UInt16
  size : ℕ
  ctimeNs : UInt64
  mtimeNs : UInt64
  extents : List Extent
  deriving DecidableEq

namespace Node

def extentCount (n : Node) : ℕ := n.extents.length

def allocatedBlocks (n : Node) : ℕ := (n.extents.map Prod.snd).sum

/-- The loop of `physical_block`: `acc` blocks of the file lie in the extents
already passed. -/
def physicalFrom (logical acc : ℕ) : List Extent → Option ℕ
  | [] => none
  | (start, len) :: es =>
    if logical < acc + len then some (start + (logical - acc))
    else physicalFrom logical (acc + len) es

/-- The block of the partition that holds block `logical` of the file. -/
def physicalBlock (n : Node) (logical : ℕ) : Option ℕ := physicalFrom logical 0 n.extents

end Node

/-- Whether an extent of one node meets an extent of the other. -/
def extentsOverlap (left right : Node) : Bool :=
  left.extents.any fun l => right.extents.any fun r => decide (l.1 < r.1 + r.2 ∧ r.1 < l.1 + l.2)

/-- The code of a file type in a node record; devices are never stored and share the
code of files. -/
def fileTypeCode : FileType → ℕ
  | .file => 1
  | .directory => 2
  | .device => 1

/-- The file type a code of a node record stands for. -/
def fileTypeOfCode : ℕ → Option FileType
  | 1 => some .file
  | 2 => some .directory
  | _ => none

/-- The extent array of a node record: all six entries, unused ones zero. -/
def putExtents (extents : List Extent) (entry : List UInt8) : List UInt8 :=
  (List.range maxExtents).foldl (fun e i =>
    let x := extents.getD i (0, 0)
    putLe (putLe e (32 + i * 16) 8 x.1) (40 + i * 16) 8 x.2) entry

/-- The fields of a node record, before its checksum. -/
def nodeFields (n : Node) : List UInt8 :=
  let entry := List.replicate nodeSize 0
  let entry := putLe entry 0 1 1
  let entry := putLe entry 1 1 (fileTypeCode n.fileType)
  let entry := putLe entry 2 2 n.mode.toNat
  let entry := putLe entry 4 1 n.extentCount
  let entry := putLe entry 8 8 n.size
  let entry := putLe entry 16 8 n.ctimeNs.toNat
  let entry := putLe entry 24 8 n.mtimeNs.toNat
  let entry := putExtents n.extents entry
  let entry := putLe entry 128 2 (byteLen n.path)
  splice entry 132 (utf8 n.path)

def encodeNode (n : Node) : List UInt8 :=
  let entry := nodeFields n
  putLe entry nodeCrcOffset 4 (crc32 (entry.take nodeCrcOffset)).toNat

/-- The extent at index `i` of a node record. -/
def entryExtent (entry : List UInt8) (i : ℕ) : Extent :=
  (getLe entry (32 + i * 16) 8, getLe entry (40 + i * 16) 8)

/-- The check of the extent at index `i` of a node record: one in use is nonempty and
inside the data region, one not in use is zero. -/
def extentOk (g : Geometry) (entry : List UInt8) (extentCount i : ℕ) : Bool :=
  let (start, len) := entryExtent entry i
  if i < extentCount then
    !(len == 0 || decide (start < g.dataStart) || decide (2 ^ 64 ≤ start + len) ||
      decide (g.totalBlocks < start + len))
  else !(start != 0 || len != 0)

/-- Parse a node record whose checksum has been checked. The number of allocated
blocks is a 64-bit sum, and the comparison with the size saturates. -/
def decodeNode (entry : List UInt8) (g : Geometry) : Except DunitFsError Node :=
  match fileTypeOfCode (getLe entry 1 1) with
  | none => .error .corruptMetadata
  | some fileType =>
    let extentCount := getLe entry 4 1
    if maxExtents < extentCount then .error .corruptMetadata else
    let size := getLe entry 8 8
    if !(List.range maxExtents).all (extentOk g entry extentCount) then .error .corruptMetadata else
    let extents := (List.range extentCount).map (entryExtent entry)
    let allocated := (extents.map Prod.snd).sum % 2 ^ 64
    let pathLen := getLe entry 128 2
    if pathLen = 0 ∨ pathSize < pathLen then .error .corruptMetadata else
    match fromUtf8 (slice entry 132 pathLen) with
    | none => .error .corruptMetadata
    | some path =>
      if fileType = .directory ∧ (size ≠ 0 ∨ extentCount ≠ 0) then .error .corruptMetadata
      else if min (allocated * blockSize) (2 ^ 64 - 1) < size then .error .corruptMetadata
      else .ok
        { path, fileType
          mode := UInt16.ofNat (getLe entry 2 2)
          size
          ctimeNs := UInt64.ofNat (getLe entry 16 8)
          mtimeNs := UInt64.ofNat (getLe entry 24 8)
          extents }

/-! ### Slot images -/

/-- The node table in memory. -/
abbrev NodeTable : Type := Fin maxNodes → Option Node

/-- The record of a table entry: a free entry is all zeros. -/
def encodeEntry : Option Node → List UInt8
  | none => List.replicate nodeSize 0
  | some n => encodeNode n

/-- The image of a slot: the bitmap, then the node table. -/
def slotImage (bitmap : List UInt8) (nodes : NodeTable) : List UInt8 :=
  bitmap ++ (List.range maxNodes).flatMap fun i =>
    encodeEntry (if h : i < maxNodes then nodes ⟨i, h⟩ else none)

/-- The record at index `i` of the table of a slot image. -/
def entryAt (g : Geometry) (image : List UInt8) (i : ℕ) : List UInt8 :=
  slice (image.drop g.bitmapLen) (nodeSize * i) nodeSize

/-- What a slot image holds at one index of its table: nothing, a node, or a record
that is damaged. -/
def decodeEntry (g : Geometry) (entry : List UInt8) : Except DunitFsError (Option Node) :=
  if getLe entry 0 1 = 0 then .ok none
  else if getLe entry nodeCrcOffset 4 ≠ (crc32 (entry.take nodeCrcOffset)).toNat then
    .error .corruptMetadata
  else (decodeNode entry g).map some

/-! ### The allocation bitmap -/

/-- First-fit search: the first free block of the data region, from `block` on, with
`fuel` blocks left to look at. -/
def firstFree (bitmap : List UInt8) : ℕ → ℕ → Option ℕ
  | 0, _ => none
  | fuel + 1, block => if bitGet bitmap block then firstFree bitmap fuel (block + 1) else some block

/-- The inner loop of `alloc_run`: extend a run of `len` free blocks, by at most
`fuel` blocks. -/
def extendRun (bitmap : List UInt8) (totalBlocks block : ℕ) : ℕ → ℕ → ℕ
  | 0, len => len
  | fuel + 1, len =>
    if block + len < totalBlocks ∧ bitGet bitmap (block + len) = false then
      extendRun bitmap totalBlocks block fuel (len + 1)
    else len

/-- The first run of free blocks of the data region, cut at `max` blocks. -/
def allocRun (bitmap : List UInt8) (g : Geometry) (max : ℕ) : Option Extent :=
  (firstFree bitmap (g.totalBlocks - g.dataStart) g.dataStart).map fun block =>
    (block, extendRun bitmap g.totalBlocks block (max - 1) 1)

end DunitOS.DunitFs
