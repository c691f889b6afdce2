import DunitOS.Fs.DunitFs.Format
import DunitOS.SysLib.Record

/-!
# The partition table

A model of `kernel/src/storage/gpt.rs`: writing a GUID partition table with its protective master
boot record and its backup, and reading one. The two directions are separate pieces of the source
with limits of their own, among them the number of partitions, which is that of the table for the
writer and `MAX_PARTITIONS` for the reader.

Blocks of the device hold as many bytes as the device says. The buffers of the source are of the
largest block size, and of a buffer that is written the bytes of one block reach the device.
-/

namespace DunitOS.Gpt

open SysLib Prog

def signature : List UInt8 := "EFI PART".toList.map fun c => UInt8.ofNat c.toNat
def revision : ℕ := 0x00010000
def headerSize : ℕ := 92
def entrySize : ℕ := 128
def entryCount : ℕ := 128
def maxBlockSize : ℕ := 4096

/-- How many partitions a table is read with. -/
def maxPartitions : ℕ := 32

/-- The bytes of a whole table of entries. -/
def tableBytes : ℕ := entryCount * entrySize

/-- How reading or writing a table can fail. -/
inductive GptError where
  | unsupportedBlockSize
  | diskTooSmall
  | invalidSignature
  | invalidHeader
  | invalidHeaderCrc
  | invalidTableCrc
  | tooManyEntries
  | invalidPartition
  | block
  deriving DecidableEq, Repr

/-- What is known of a block device; the number of its blocks is a `u64`. -/
structure DeviceInfo where
  blockSize : ℕ
  blocks : ℕ
  readonly : Bool
  blocks_lt : blocks < 2 ^ 64

/-- The bytes of a globally unique identifier. -/
abbrev Guid : Type := { bytes : List UInt8 // bytes.length = 16 }

/-- A partition that was read. Its name is what fits the array of the source, as bytes. -/
structure Partition where
  index : ℕ
  typeGuid : Guid
  uniqueGuid : Guid
  firstLba : ℕ
  lastLba : ℕ
  attributes : UInt64
  nameBytes : List UInt8
  deriving DecidableEq

def Partition.name (p : Partition) : List Char := (fromUtf8 p.nameBytes).getD ['?']

/-- A table that was read, with the partitions that are there. -/
structure Table where
  diskGuid : Guid
  firstUsableLba : ℕ
  lastUsableLba : ℕ
  partitions : List Partition
  deriving DecidableEq

/-- A partition to be written. -/
structure PartitionSpec where
  typeGuid : Guid
  uniqueGuid : Guid
  firstLba : ℕ
  lastLba : ℕ
  attributes : UInt64
  name : List Char

/-! ### Words and checksums -/

/-- The GUID of an entry that is not in use. -/
def isZeroGuid (guid : List UInt8) : Bool := guid.all fun byte => byte == 0

def isPowerOfTwo (n : ℕ) : Bool := n != 0 && n &&& (n - 1) == 0

/-- `Crc32::update`; the loop over the bits of a byte is the one of `DunitFs.crcByte`. -/
def crcUpdate (crc : UInt32) (data : List UInt8) : UInt32 := data.foldl DunitFs.crcByte crc

def crcNew : UInt32 := 0xffffffff

def crcFinish (crc : UInt32) : UInt32 := ~~~crc

/-- The checksum of headers and entries. -/
def crc32 (data : List UInt8) : UInt32 := crcFinish (crcUpdate crcNew data)

/-- The code units of a character. -/
def encodeUtf16 (c : Char) : List ℕ :=
  if c.toNat < 0x10000 then [c.toNat]
  else [0xd800 + (c.toNat - 0x10000) / 0x400, 0xdc00 + (c.toNat - 0x10000) % 0x400]

/-! ### The device -/

abbrev GptM (info : DeviceInfo) (α : Type) : Type := Prog (Disk info.blockSize) GptError α

def readExact (info : DeviceInfo) (lba : ℕ) (d : Disk info.blockSize) :
    Except GptError (List UInt8) :=
  if info.blocks ≤ lba then .error .block
  else match d.read lba with
    | some b => .ok b.bytes
    | none => .error .block

def writeExact (info : DeviceInfo) (lba : ℕ) (data : List UInt8) : GptM info Unit :=
  if info.blocks ≤ lba then stop .block
  else Disk.write .block lba (Block.ofBytes info.blockSize data)

/-- The blocks that the entries take. -/
def tableBlocks (info : DeviceInfo) : ℕ := DunitFs.divCeil tableBytes info.blockSize

/-- What a device must be for a table to fit. -/
def validateDevice (info : DeviceInfo) : Except GptError Unit :=
  if info.blockSize < 512 ∨ maxBlockSize < info.blockSize ∨ isPowerOfTwo info.blockSize = false
  then .error .unsupportedBlockSize
  else if info.blocks < 2 + tableBlocks info * 2 + 1 then .error .diskTooSmall
  else .ok ()

/-! ### Writing -/

/-- Two partitions that cannot be in one table. -/
def clash (uniqueGuid : Guid) (firstLba lastLba : ℕ) (uniqueGuid' : Guid) (firstLba' lastLba' : ℕ) :
    Bool :=
  uniqueGuid = uniqueGuid' ∨ firstLba ≤ lastLba' ∧ firstLba' ≤ lastLba

/-- Two partitions with one GUID, or with a block in common. -/
def PartitionSpec.clash (s s' : PartitionSpec) : Bool :=
  Gpt.clash s.uniqueGuid s.firstLba s.lastLba s'.uniqueGuid s'.firstLba s'.lastLba

/-- Check specifications, after those that have been checked. -/
def validateSpecsFrom (firstUsable lastUsable : ℕ) (previous : List PartitionSpec) :
    List PartitionSpec → Except GptError Unit
  | [] => .ok ()
  | s :: rest =>
    if isZeroGuid s.typeGuid.1 ∨ isZeroGuid s.uniqueGuid.1 ∨ s.firstLba < firstUsable ∨
        s.lastLba < s.firstLba ∨ lastUsable < s.lastLba then .error .invalidPartition
    else if previous.any s.clash then .error .invalidPartition
    else validateSpecsFrom firstUsable lastUsable (previous ++ [s]) rest

/-- What is to be written is a table that can be read. -/
def validateSpecs (specs : List PartitionSpec) (firstUsable lastUsable : ℕ) :
    Except GptError Unit := validateSpecsFrom firstUsable lastUsable [] specs

/-- The name in an entry: its first 36 code units, with zeros after the last one. -/
def encodeName (name : List Char) : List UInt8 :=
  (List.range 36).flatMap fun i => leBytes 2 ((name.flatMap encodeUtf16).getD i 0)

/-- An entry of the table. -/
def encodePartition (s : PartitionSpec) : List UInt8 :=
  s.typeGuid.1 ++ s.uniqueGuid.1 ++ leBytes 8 s.firstLba ++ leBytes 8 s.lastLba ++
    leBytes 8 s.attributes.toNat ++ encodeName s.name

/-- The entry at an index, which is zero if there is no specification for it. -/
def entryAt (specs : List PartitionSpec) (index : ℕ) : List UInt8 :=
  match specs[index]? with
  | some s => encodePartition s
  | none => List.replicate entrySize 0

def entriesPerBlock (blockSize : ℕ) : ℕ := blockSize / entrySize

/-- A block of the table. -/
def entryBlock (blockSize : ℕ) (specs : List PartitionSpec) (blockIndex : ℕ) : List UInt8 :=
  (List.range (entriesPerBlock blockSize)).flatMap fun slot =>
    entryAt specs (blockIndex * entriesPerBlock blockSize + slot)

/-- The checksum of the entries, block by block. -/
def entriesCrc32 (blockSize : ℕ) (specs : List PartitionSpec) : UInt32 :=
  crcFinish ((List.range (entryCount / entriesPerBlock blockSize)).foldl
    (fun crc blockIndex => crcUpdate crc (entryBlock blockSize specs blockIndex)) crcNew)

/-- Write the entries from a block on. -/
def writeEntries (info : DeviceInfo) (startLba : ℕ) (specs : List PartitionSpec) :
    GptM info Unit :=
  forEach (fun blockIndex =>
      writeExact info (startLba + blockIndex) (entryBlock info.blockSize specs blockIndex))
    (List.range (entryCount / entriesPerBlock info.blockSize))

/-- The protective master boot record. -/
def protectiveMbr (blocks : ℕ) : List UInt8 :=
  putFields (List.replicate maxBlockSize 0)
    [⟨450, 1, 0xee⟩, ⟨454, 4, 1⟩, ⟨458, 4, min (blocks - 1) (2 ^ 32 - 1)⟩, ⟨510, 1, 0x55⟩,
      ⟨511, 1, 0xaa⟩]

/-- A header to be written. -/
structure HeaderSpec where
  currentLba : ℕ
  backupLba : ℕ
  firstUsable : ℕ
  lastUsable : ℕ
  diskGuid : Guid
  entriesLba : ℕ
  entriesCrc : UInt32

/-- The words of a header but for its own checksum. -/
def HeaderSpec.fields (h : HeaderSpec) : List Field :=
  [⟨8, 4, revision⟩, ⟨12, 4, headerSize⟩, ⟨24, 8, h.currentLba⟩, ⟨32, 8, h.backupLba⟩,
    ⟨40, 8, h.firstUsable⟩, ⟨48, 8, h.lastUsable⟩, ⟨72, 8, h.entriesLba⟩, ⟨80, 4, entryCount⟩,
    ⟨84, 4, entrySize⟩, ⟨88, 4, h.entriesCrc.toNat⟩]

/-- A header before its checksum is written. -/
def HeaderSpec.unsigned (h : HeaderSpec) : List UInt8 :=
  putFields (splice (splice (List.replicate maxBlockSize 0) 0 signature) 56 h.diskGuid.1) h.fields

def HeaderSpec.encode (h : HeaderSpec) : List UInt8 :=
  putLe h.unsigned 16 4 (crc32 (h.unsigned.take headerSize)).toNat

/-- Write a header to its block. -/
def writeHeader (info : DeviceInfo) (h : HeaderSpec) : GptM info Unit :=
  writeExact info h.currentLba h.encode

/-- Write a table: both copies of the entries, then both headers. -/
def write (info : DeviceInfo) (diskGuid : Guid) (specs : List PartitionSpec) : GptM info Unit := do
  ofExcept (validateDevice info)
  refuse info.readonly .block
  refuse (decide (entryCount < specs.length)) .tooManyEntries
  refuse (isZeroGuid diskGuid.1) .invalidHeader
  let firstUsable := 2 + tableBlocks info
  let backupHeaderLba := info.blocks - 1
  let backupEntriesLba := backupHeaderLba - tableBlocks info
  let lastUsable := backupEntriesLba - 1
  refuse (decide (lastUsable < firstUsable)) .diskTooSmall
  ofExcept (validateSpecs specs firstUsable lastUsable)
  let entriesCrc := entriesCrc32 info.blockSize specs
  writeExact info 0 (protectiveMbr info.blocks)
  writeEntries info 2 specs
  writeEntries info backupEntriesLba specs
  writeHeader info ⟨1, backupHeaderLba, firstUsable, lastUsable, diskGuid, 2, entriesCrc⟩
  writeHeader info
    ⟨backupHeaderLba, 1, firstUsable, lastUsable, diskGuid, backupEntriesLba, entriesCrc⟩

/-! ### Reading -/

/-- A header that was read. -/
structure Header where
  firstUsableLba : ℕ
  lastUsableLba : ℕ
  diskGuid : Guid
  entriesLba : ℕ
  entryCount : ℕ
  entrySize : ℕ
  entriesCrc32 : ℕ
  deriving DecidableEq

/-- Sixteen bytes of a string that may be too short. -/
def guidAt (data : List UInt8) (off : ℕ) : Guid :=
  ⟨(Block.ofBytes 16 (slice data off 16)).bytes,
    (Block.ofBytes 16 (slice data off 16)).length_bytes⟩

/-- Read a header, with all checks. -/
def parseHeader (data : List UInt8) (info : DeviceInfo) : Except GptError Header :=
  let size := getLe data 12 4
  let firstUsableLba := getLe data 40 8
  let lastUsableLba := getLe data 48 8
  let entriesLba := getLe data 72 8
  let count := getLe data 80 4
  let entry := getLe data 84 4
  if data.take 8 ≠ signature then .error .invalidSignature
  else if getLe data 8 4 ≠ revision ∨ size < headerSize ∨ info.blockSize < size ∨
      getLe data 24 8 ≠ 1 ∨ getLe data 32 8 ≠ info.blocks - 1 then .error .invalidHeader
  else if (crcFinish (crcUpdate (crcUpdate (crcUpdate crcNew (data.take 16)) [0, 0, 0, 0])
      (slice data 20 (size - 20)))).toNat ≠ getLe data 16 4 then .error .invalidHeaderCrc
  else if count = 0 ∨ entryCount < count ∨ entry < entrySize ∨ isPowerOfTwo entry = false ∨
      info.blockSize < entry ∨ lastUsableLba < firstUsableLba ∨
      info.blocks - 1 ≤ lastUsableLba ∨ isZeroGuid (slice data 56 16) then .error .invalidHeader
  -- the sum of the entries and their blocks is checked
  else if 2 ^ 64 ≤ entriesLba + DunitFs.divCeil (count * entry) info.blockSize then
    .error .invalidHeader
  else if entriesLba < 2 ∨
      firstUsableLba < entriesLba + DunitFs.divCeil (count * entry) info.blockSize then
    .error .invalidHeader
  else .ok ⟨firstUsableLba, lastUsableLba, guidAt data 56, entriesLba, count, entry,
    getLe data 88 4⟩

/-- The bytes of a name, up to the first code unit that is zero. -/
def parseName : List ℕ → List UInt8
  | [] => []
  | code :: rest =>
    if code = 0 then []
    else (if code ≤ 0x7f then UInt8.ofNat code else UInt8.ofNat '?'.toNat) :: parseName rest

/-- Read an entry that is in use. -/
def parsePartition (data : List UInt8) (index : ℕ) : Except GptError Partition :=
  let firstLba := getLe data 32 8
  let lastLba := getLe data 40 8
  if firstLba = 0 ∨ lastLba < firstLba ∨ isZeroGuid (slice data 16 16) then
    .error .invalidPartition
  else .ok
    { index, firstLba, lastLba
      typeGuid := guidAt data 0
      uniqueGuid := guidAt data 16
      attributes := UInt64.ofNat (getLe data 48 8)
      nameBytes := parseName ((List.range 36).map fun i => getLe data (56 + 2 * i) 2) }

/-- How far the reading of the entries has come. -/
structure Scan where
  crc : UInt32
  entryIndex : ℕ
  partitions : List Partition
  deriving DecidableEq

def Partition.clash (p p' : Partition) : Bool :=
  Gpt.clash p.uniqueGuid p.firstLba p.lastLba p'.uniqueGuid p'.firstLba p'.lastLba

/-- One entry of the table. -/
def scanEntry (header : Header) (entry : List UInt8) (s : Scan) : Except GptError Scan :=
  if isZeroGuid (entry.take 16) then .ok { s with entryIndex := s.entryIndex + 1 }
  else do
    let p ← parsePartition entry (s.entryIndex + 1)
    if p.firstLba < header.firstUsableLba ∨ header.lastUsableLba < p.lastLba then
      .error .invalidPartition
    else if maxPartitions ≤ s.partitions.length then .error .tooManyEntries
    else if s.partitions.any p.clash then .error .invalidPartition
    else .ok { s with entryIndex := s.entryIndex + 1, partitions := s.partitions ++ [p] }

/-- One block of the table. -/
def scanBlock (info : DeviceInfo) (header : Header) (d : Disk info.blockSize) (s : Scan)
    (blockOffset : ℕ) : Except GptError Scan := do
  let block ← readExact info (header.entriesLba + blockOffset) d
  let consumed := blockOffset * info.blockSize
  let bytesHere := min (header.entryCount * header.entrySize - consumed) info.blockSize
  (List.range (bytesHere / header.entrySize)).foldlM
    (fun s slot => scanEntry header (slice block (slot * header.entrySize) header.entrySize) s)
    { s with crc := crcUpdate s.crc (block.take bytesHere) }

/-- Read a table from its first copy. -/
def read (info : DeviceInfo) (d : Disk info.blockSize) : Except GptError Table := do
  validateDevice info
  let block ← readExact info 1 d
  let header ← parseHeader block info
  let s ← (List.range (DunitFs.divCeil (header.entryCount * header.entrySize)
    info.blockSize)).foldlM (scanBlock info header d) ⟨crcNew, 0, []⟩
  if (crcFinish s.crc).toNat ≠ header.entriesCrc32 then .error .invalidTableCrc
  else .ok ⟨header.diskGuid, header.firstUsableLba, header.lastUsableLba, s.partitions⟩

end DunitOS.Gpt
