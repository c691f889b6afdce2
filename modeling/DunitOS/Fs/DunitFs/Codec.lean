import DunitOS.Fs.DunitFs.Mount
import DunitOS.SysLib.Record

/-!
# What is written reads back

The round trips of the on-disk format: a superblock
(`SuperBlock.decode_encode`), a node record
(`decodeNode_encodeNode`), and a whole slot image
(`fromSlot_slotImage`).

A node reads back when it is *storable* (`Storable`): its path fits, its
extents lie in the data region, a directory is empty, and the size does not exceed what
the extents hold. The last condition is the one the operations have to work for.
-/

namespace DunitOS.DunitFs

open SysLib Vfs List Nat

variable {g : Geometry} {n : Node}

/-! ### Superblocks -/

variable {f : Field}

namespace SuperBlock

/-- The fields of a superblock behind its magic, with a given checksum. -/
def fieldList (sb : SuperBlock) (crc : ℕ) : List Field :=
  [⟨8, 4, version⟩, ⟨12, 4, blockSize⟩, ⟨16, 8, sb.geom.totalBlocks⟩, ⟨24, 8, sb.generation⟩,
    ⟨32, 4, sb.activeSlot⟩, ⟨36, 4, maxNodes⟩, ⟨40, 4, nodeSize⟩, ⟨44, 4, sb.geom.bitmapBlocks⟩,
    ⟨48, 4, sb.geom.slotBlocks⟩, ⟨52, 4, maxExtents⟩, ⟨56, 4, pathSize⟩,
    ⟨64, 8, sb.geom.slot0Start⟩, ⟨72, 8, sb.geom.slot1Start⟩, ⟨80, 8, sb.geom.dataStart⟩,
    ⟨88, 4, sb.slotCrc.toNat⟩, ⟨sbCrcOffset, 4, crc⟩]

/-- The block the fields are written to. -/
def blank : List UInt8 := splice (List.replicate blockSize 0) 0 magic

theorem length_blank : blank.length = blockSize := by decide +kernel

/-- The checksum a superblock carries. -/
def checksum (sb : SuperBlock) : ℕ := (crc32 (sb.fields.take sbCrcOffset)).toNat

variable (sb : SuperBlock)

theorem separate_fieldList (crc : ℕ) :
    Separate blank.length ((sb.fieldList crc).map Field.place) := by
  have h : Separate blockSize [(8, 4), (12, 4), (16, 8), (24, 8), (32, 4), (36, 4), (40, 4),
      (44, 4), (48, 4), (52, 4), (56, 4), (64, 8), (72, 8), (80, 8), (88, 4), (508, 4)] := by decide
  rw [length_blank]
  exact h

theorem bounds_fieldList (crc : ℕ) :
    ∀ f ∈ sb.fieldList crc, f.off + f.width ≤ blank.length := fun f hf =>
  (separate_fieldList sb crc).1 f.place (mem_map_of_mem hf)

theorem bytes_encode : sb.encode.bytes = putFields blank (sb.fieldList sb.checksum) := by
  have hlen : (putFields blank (sb.fieldList sb.checksum)).length = blockSize :=
    (length_putFields (bounds_fieldList sb _)).trans length_blank
  exact Block.bytes_ofBytes hlen

theorem getLe_encode (hf : f ∈ sb.fieldList sb.checksum) :
    getLe sb.encode.bytes f.off f.width = f.val % 256 ^ f.width := by
  rw [bytes_encode]
  exact getLe_putFields (separate_fieldList sb _) hf

theorem magic_encode : slice sb.encode.bytes 0 8 = magic := by
  have hd : ∀ f ∈ sb.fieldList sb.checksum, 0 + 8 ≤ f.off ∨ f.off + f.width ≤ 0 := by
    simp [fieldList, sbCrcOffset]
  rw [bytes_encode, slice_putFields (bounds_fieldList sb _) hd]
  decide +kernel

theorem length_fields : sb.fields.length = blockSize := by
  have h : ∀ f ∈ (sb.fieldList 0).dropLast, f.off + f.width ≤ blank.length := fun f hf =>
    bounds_fieldList sb 0 f (dropLast_subset _ hf)
  exact (length_putFields h).trans length_blank

/-- The checksum is over everything in front of it, so writing it does not change it. -/
theorem take_encode : sb.encode.bytes.take sbCrcOffset = sb.fields.take sbCrcOffset := by
  have hput : sb.encode.bytes = putLe sb.fields sbCrcOffset 4 sb.checksum := bytes_encode sb
  have h : slice (putLe sb.fields sbCrcOffset 4 sb.checksum) 0 sbCrcOffset =
      slice sb.fields 0 sbCrcOffset :=
    slice_putLe_of_disjoint sb.fields sb.checksum (le_of_eq sb.length_fields.symm)
      (Or.inl (le_refl _))
  rw [hput, ← slice_zero, ← slice_zero, h]

theorem crc_encode : getLe sb.encode.bytes sbCrcOffset 4 =
    (crc32 (sb.encode.bytes.take sbCrcOffset)).toNat := by
  rw [take_encode, getLe_encode sb (f := ⟨sbCrcOffset, 4, sb.checksum⟩) (by simp [fieldList])]
  exact mod_eq_of_lt (UInt32.toNat_lt _)

/-- A field whose value fits reads back as it is. -/
theorem getLe_encode_of_lt (hf : f ∈ sb.fieldList sb.checksum)
    (hv : f.val < 256 ^ f.width) : getLe sb.encode.bytes f.off f.width = f.val := by
  rw [getLe_encode sb hf, mod_eq_of_lt hv]

/-- **A superblock reads back.** -/
theorem decode_encode {sb : SuperBlock} (hgen : sb.generation < 2 ^ 64)
    (hslot : sb.activeSlot ≤ 1) (htotal : sb.geom.totalBlocks < 2 ^ 64)
    (hdata : sb.geom.dataStart < 2 ^ 64) (hslot0 : sb.geom.slot0Start ≤ sb.geom.dataStart)
    (hslot1 : sb.geom.slot1Start ≤ sb.geom.dataStart) : decode sb.encode sb.geom = some sb := by
  have get {f : Field} (hf : f ∈ sb.fieldList sb.checksum) (hv : f.val < 256 ^ f.width) :
      getLe sb.encode.bytes f.off f.width = f.val := getLe_encode_of_lt sb hf hv
  have hversion := get (f := ⟨8, 4, version⟩) (by simp [fieldList]) (by decide)
  have hblock := get (f := ⟨12, 4, blockSize⟩) (by simp [fieldList]) (by decide)
  have htot := get (f := ⟨16, 8, sb.geom.totalBlocks⟩) (by simp [fieldList]) htotal
  have hg := get (f := ⟨24, 8, sb.generation⟩) (by simp [fieldList]) hgen
  have hact := get (f := ⟨32, 4, sb.activeSlot⟩) (by simp [fieldList])
    (show sb.activeSlot < 256 ^ 4 by omega)
  have hnodes := get (f := ⟨36, 4, maxNodes⟩) (by simp [fieldList]) (by decide)
  have hnode := get (f := ⟨40, 4, nodeSize⟩) (by simp [fieldList]) (by decide)
  have hbitmap := getLe_encode sb (f := ⟨44, 4, sb.geom.bitmapBlocks⟩) (by simp [fieldList])
  have hslots := getLe_encode sb (f := ⟨48, 4, sb.geom.slotBlocks⟩) (by simp [fieldList])
  have hext := get (f := ⟨52, 4, maxExtents⟩) (by simp [fieldList]) (by decide)
  have hpath := get (f := ⟨56, 4, pathSize⟩) (by simp [fieldList]) (by decide)
  have hs0 := get (f := ⟨64, 8, sb.geom.slot0Start⟩) (by simp [fieldList])
    (lt_of_le_of_lt hslot0 hdata)
  have hs1 := get (f := ⟨72, 8, sb.geom.slot1Start⟩) (by simp [fieldList])
    (lt_of_le_of_lt hslot1 hdata)
  have hds := get (f := ⟨80, 8, sb.geom.dataStart⟩) (by simp [fieldList]) hdata
  have hsc := get (f := ⟨88, 4, sb.slotCrc.toNat⟩) (by simp [fieldList]) (UInt32.toNat_lt _)
  simp only at hversion hblock htot hg hact hnodes hnode hbitmap hslots hext hpath hs0 hs1 hds hsc
  unfold decode
  rw [if_neg, if_neg]
  · rw [hg, hact, hsc, UInt32.ofNat_toNat]
  · rw [hact]
    omega
  · -- every check compares a field with the value written to it
    simp only [magic_encode, ← crc_encode, hversion, hblock, htot, hnodes, hnode, hbitmap, hslots,
      hext, hpath, hs0, hs1, hds]
    simp

end SuperBlock

/-! ### Node records -/

/-- **A node that reads back**: what `decode_node` asks of a record. -/
structure Storable (g : Geometry) (n : Node) : Prop where
  not_device : n.fileType ≠ .device
  count_le : n.extents.length ≤ maxExtents
  extent_ok : ∀ e ∈ n.extents, 0 < e.2 ∧ g.dataStart ≤ e.1 ∧ e.1 + e.2 ≤ g.totalBlocks
  path_ne : n.path ≠ []
  path_le : byteLen n.path ≤ pathSize
  directory_empty : n.fileType = .directory → n.size = 0 ∧ n.extents = []
  size_le : n.size ≤ min (n.allocatedBlocks % 2 ^ 64 * blockSize) (2 ^ 64 - 1)

/-- The extent written at index `i` of a record. -/
def extentAt (n : Node) (i : ℕ) : Extent := n.extents.getD i (0, 0)

/-- The word fields of a node record in front of the path. -/
def nodeFieldList (n : Node) : List Field :=
  [⟨0, 1, 1⟩, ⟨1, 1, fileTypeCode n.fileType⟩, ⟨2, 2, n.mode.toNat⟩, ⟨4, 1, n.extentCount⟩,
    ⟨8, 8, n.size⟩, ⟨16, 8, n.ctimeNs.toNat⟩, ⟨24, 8, n.mtimeNs.toNat⟩,
    ⟨32, 8, (extentAt n 0).1⟩, ⟨40, 8, (extentAt n 0).2⟩,
    ⟨48, 8, (extentAt n 1).1⟩, ⟨56, 8, (extentAt n 1).2⟩,
    ⟨64, 8, (extentAt n 2).1⟩, ⟨72, 8, (extentAt n 2).2⟩,
    ⟨80, 8, (extentAt n 3).1⟩, ⟨88, 8, (extentAt n 3).2⟩,
    ⟨96, 8, (extentAt n 4).1⟩, ⟨104, 8, (extentAt n 4).2⟩,
    ⟨112, 8, (extentAt n 5).1⟩, ⟨120, 8, (extentAt n 5).2⟩, ⟨128, 2, byteLen n.path⟩]

/-- The record without its path and its checksum. -/
def nodeWords (n : Node) : List UInt8 := putFields (List.replicate nodeSize 0) (nodeFieldList n)

theorem nodeFields_eq : nodeFields n = splice (nodeWords n) 132 (utf8 n.path) := rfl

theorem separate_nodeFieldList :
    Separate (List.replicate nodeSize (0 : UInt8)).length ((nodeFieldList n).map Field.place) := by
  have h : Separate nodeSize [(0, 1), (1, 1), (2, 2), (4, 1), (8, 8), (16, 8), (24, 8), (32, 8),
      (40, 8), (48, 8), (56, 8), (64, 8), (72, 8), (80, 8), (88, 8), (96, 8), (104, 8), (112, 8),
      (120, 8), (128, 2)] := by decide
  rw [length_replicate]
  exact h

theorem length_nodeWords : (nodeWords n).length = nodeSize := by
  have h : ∀ f ∈ nodeFieldList n, f.off + f.width ≤ (replicate nodeSize (0 : UInt8)).length :=
    fun f hf => (separate_nodeFieldList).1 f.place (mem_map_of_mem hf)
  exact (length_putFields h).trans length_replicate

/-- The fields end where the path begins. -/
theorem nodeFieldList_le : ∀ f ∈ nodeFieldList n, f.off + f.width ≤ 132 := by
  simp [nodeFieldList]

section

variable {n : Node} (hpath : byteLen n.path ≤ pathSize)
include hpath

theorem path_fits : 132 + (utf8 n.path).length ≤ (nodeWords n).length := by
  have h : (utf8 n.path).length ≤ 120 := hpath
  rw [length_nodeWords]
  show 132 + _ ≤ 256
  omega

theorem length_nodeFields : (nodeFields n).length = nodeSize := by
  rw [nodeFields_eq, length_splice _ _ (path_fits hpath), length_nodeWords]

theorem length_encodeNode : (encodeNode n).length = nodeSize := by
  have hlen := length_nodeFields hpath
  have hfit : nodeCrcOffset + 4 ≤ (nodeFields n).length := le_of_eq hlen.symm
  exact (length_putLe _ _ hfit).trans hlen

/-- A window in front of the checksum does not see it. -/
theorem slice_encodeNode {off len : ℕ} (h : off + len ≤ nodeCrcOffset) :
    slice (encodeNode n) off len = slice (nodeFields n) off len := by
  have hfit : nodeCrcOffset + 4 ≤ (nodeFields n).length :=
    le_of_eq (length_nodeFields hpath).symm
  exact slice_putLe_of_disjoint _ _ hfit (Or.inl h)

/-- **The fields of a node record read back**, modulo their width. -/
theorem getLe_encodeNode (hf : f ∈ nodeFieldList n) :
    getLe (encodeNode n) f.off f.width = f.val % 256 ^ f.width := by
  have hle := nodeFieldList_le f hf
  have hcrc : f.off + f.width ≤ nodeCrcOffset := le_trans hle (by decide)
  calc getLe (encodeNode n) f.off f.width
      = getLe (nodeFields n) f.off f.width := congrArg ofLe (slice_encodeNode hpath hcrc)
    _ = getLe (nodeWords n) f.off f.width := by
        rw [nodeFields_eq]
        exact congrArg ofLe (slice_splice_of_disjoint _ _ (path_fits hpath) (Or.inl hle))
    _ = f.val % 256 ^ f.width := getLe_putFields separate_nodeFieldList hf

theorem getLe_encodeNode_of_lt (hf : f ∈ nodeFieldList n)
    (hv : f.val < 256 ^ f.width) : getLe (encodeNode n) f.off f.width = f.val := by
  rw [getLe_encodeNode hpath hf, mod_eq_of_lt hv]

theorem path_encodeNode : slice (encodeNode n) 132 (byteLen n.path) = utf8 n.path := by
  have h : 132 + byteLen n.path ≤ nodeCrcOffset := by
    have h' : byteLen n.path ≤ 120 := hpath
    show _ ≤ 252
    omega
  rw [slice_encodeNode hpath h, nodeFields_eq]
  exact slice_splice _ _ (path_fits hpath)

theorem crc_encodeNode : getLe (encodeNode n) nodeCrcOffset 4 =
    (crc32 ((encodeNode n).take nodeCrcOffset)).toNat := by
  have htake : (encodeNode n).take nodeCrcOffset = (nodeFields n).take nodeCrcOffset := by
    rw [← slice_zero, ← slice_zero]
    exact slice_encodeNode hpath (le_of_eq (zero_add _))
  have hfit : nodeCrcOffset + 4 ≤ (nodeFields n).length :=
    le_of_eq (length_nodeFields hpath).symm
  rw [htake]
  exact (getLe_putLe _ _ hfit).trans (mod_eq_of_lt (UInt32.toNat_lt _))

end

variable {i : ℕ}

/-- The fields of the extent at an index. -/
theorem extent_mem_nodeFieldList (hi : i < maxExtents) :
    ⟨32 + i * 16, 8, (extentAt n i).1⟩ ∈ nodeFieldList n ∧
      ⟨40 + i * 16, 8, (extentAt n i).2⟩ ∈ nodeFieldList n := by
  have h : i = 0 ∨ i = 1 ∨ i = 2 ∨ i = 3 ∨ i = 4 ∨ i = 5 := by
    have : i < 6 := hi
    omega
  rcases h with rfl | rfl | rfl | rfl | rfl | rfl <;> simp [nodeFieldList]

/-- An extent entry of a record whose node has its blocks inside a 64-bit partition. -/
theorem entryExtent_encodeNode (h : Storable g n)
    (htotal : g.totalBlocks < 2 ^ 64) (hi : i < maxExtents) :
    entryExtent (encodeNode n) i = extentAt n i := by
  have hlt : (extentAt n i).1 < 2 ^ 64 ∧ (extentAt n i).2 < 2 ^ 64 := by
    unfold extentAt
    by_cases hin : i < n.extents.length
    · rw [getD_eq_getElem _ _ hin]
      obtain ⟨-, -, hle⟩ := h.extent_ok _ (getElem_mem hin)
      omega
    · rw [getD_eq_default _ _ (by omega)]
      decide
  obtain ⟨hstart, hlen⟩ := extent_mem_nodeFieldList hi
  exact Prod.ext (getLe_encodeNode_of_lt h.path_le hstart hlt.1)
    (getLe_encodeNode_of_lt h.path_le hlen hlt.2)

variable {entry : List UInt8}

/-- The extent check in words: an entry in use is a nonempty run of the data region, an
entry not in use is zero. -/
theorem extentOk_iff {count : ℕ}
    (htotal : g.totalBlocks < 2 ^ 64) : extentOk g entry count i = true ↔
      if i < count then 0 < (entryExtent entry i).2 ∧ g.dataStart ≤ (entryExtent entry i).1 ∧
        (entryExtent entry i).1 + (entryExtent entry i).2 ≤ g.totalBlocks
      else entryExtent entry i = (0, 0) := by
  unfold extentOk
  rcases entryExtent entry i with ⟨start, len⟩
  by_cases hi : i < count
  · simp only [hi, if_true, Bool.not_eq_true', Bool.or_eq_false_iff, beq_eq_false_iff_ne,
      decide_eq_false_iff_not]
    omega
  · simp [hi]

/-- The extent checks of a record pass. -/
theorem extentOk_encodeNode (h : Storable g n)
    (htotal : g.totalBlocks < 2 ^ 64) (hi : i < maxExtents) :
    extentOk g (encodeNode n) n.extents.length i = true := by
  rw [extentOk_iff htotal, entryExtent_encodeNode h htotal hi, extentAt]
  split_ifs with hin
  · rw [getD_eq_getElem _ _ hin]
    exact h.extent_ok _ (getElem_mem hin)
  · exact getD_eq_default _ _ (by omega)

/-- The extents of a record are those of its node. -/
theorem extents_encodeNode (h : Storable g n) (htotal : g.totalBlocks < 2 ^ 64) :
    (List.range n.extents.length).map (entryExtent (encodeNode n)) = n.extents := by
  refine ext_getElem (by simp) fun i hi hi' => ?_
  rw [getElem_map, getElem_range,
    entryExtent_encodeNode h htotal (lt_of_lt_of_le hi' h.count_le), extentAt,
    getD_eq_getElem _ _ hi']

variable {t : FileType}

/-- The type code of a stored node, read back. -/
theorem fileTypeOfCode_fileTypeCode (h : t ≠ .device) :
    fileTypeOfCode (fileTypeCode t) = some t := by
  cases t with
  | file | directory => rfl
  | device => exact absurd rfl h

/-- **A storable node reads back.** -/
theorem decodeNode_encodeNode (h : Storable g n)
    (htotal : g.totalBlocks < 2 ^ 64) : decodeNode (encodeNode n) g = .ok n := by
  have get {f : Field} (hf : f ∈ nodeFieldList n) (hv : f.val < 256 ^ f.width) :
      getLe (encodeNode n) f.off f.width = f.val := getLe_encodeNode_of_lt h.path_le hf hv
  have hcount : n.extents.length ≤ 6 := h.count_le
  have hple : byteLen n.path ≤ 120 := h.path_le
  have hsize : n.size ≤ min ((n.extents.map Prod.snd).sum % 2 ^ 64 * blockSize) (2 ^ 64 - 1) :=
    h.size_le
  have htype : getLe (encodeNode n) 1 1 = fileTypeCode n.fileType :=
    get (f := ⟨1, 1, fileTypeCode n.fileType⟩) (by simp [nodeFieldList])
      (by cases n.fileType <;> decide)
  have hmode : getLe (encodeNode n) 2 2 = n.mode.toNat :=
    get (f := ⟨2, 2, n.mode.toNat⟩) (by simp [nodeFieldList]) (UInt16.toNat_lt _)
  have hext : getLe (encodeNode n) 4 1 = n.extents.length :=
    get (f := ⟨4, 1, n.extentCount⟩) (by simp [nodeFieldList])
      (show n.extents.length < 256 ^ 1 by omega)
  have hsz : getLe (encodeNode n) 8 8 = n.size :=
    get (f := ⟨8, 8, n.size⟩) (by simp [nodeFieldList]) (show n.size < 256 ^ 8 by omega)
  have hct : getLe (encodeNode n) 16 8 = n.ctimeNs.toNat :=
    get (f := ⟨16, 8, n.ctimeNs.toNat⟩) (by simp [nodeFieldList]) (UInt64.toNat_lt _)
  have hmt : getLe (encodeNode n) 24 8 = n.mtimeNs.toNat :=
    get (f := ⟨24, 8, n.mtimeNs.toNat⟩) (by simp [nodeFieldList]) (UInt64.toNat_lt _)
  have hplen : getLe (encodeNode n) 128 2 = byteLen n.path :=
    get (f := ⟨128, 2, byteLen n.path⟩) (by simp [nodeFieldList])
      (show byteLen n.path < 256 ^ 2 by omega)
  have hall : (range maxExtents).all (extentOk g (encodeNode n) n.extents.length) = true :=
    all_eq_true.mpr fun i hi => extentOk_encodeNode h htotal (mem_range.mp hi)
  have hpos : byteLen n.path ≠ 0 := fun h0 => h.path_ne (byteLen_eq_zero.mp h0)
  have hdir : ¬(n.fileType = .directory ∧ (n.size ≠ 0 ∨ n.extents.length ≠ 0)) := by
    rintro ⟨hd, hbad⟩
    obtain ⟨h0, hnil⟩ := h.directory_empty hd
    simp [h0, hnil] at hbad
  unfold decodeNode
  rw [htype, fileTypeOfCode_fileTypeCode h.not_device]
  simp only [hext, hsz, hall, hplen, path_encodeNode h.path_le, fromUtf8_utf8, hmode, hct, hmt,
    extents_encodeNode h htotal]
  rw [if_neg (not_lt.mpr hcount), if_neg (by simp),
    if_neg (not_or.mpr ⟨hpos, not_lt.mpr h.path_le⟩), if_neg hdir,
    if_neg (not_lt.mpr hsize)]
  simp

/-- A code never stands for a device. -/
theorem fileTypeOfCode_ne_device {c : ℕ} (h : fileTypeOfCode c = some t) : t ≠ .device := by
  unfold fileTypeOfCode at h
  split at h <;> cases h <;> decide

/-- **What is accepted is well formed**: a node parsed from a record is storable. -/
theorem storable_of_decodeNode (htotal : g.totalBlocks < 2 ^ 64) (hlen : entry.length = nodeSize)
    (h : decodeNode entry g = .ok n) : Storable g n := by
  unfold decodeNode at h
  rcases htype : fileTypeOfCode (getLe entry 1 1) with _ | t
  · simp [htype] at h
  rcases hpath : fromUtf8 (slice entry 132 (getLe entry 128 2)) with _ | path
  · simp only [htype, hpath] at h
    split_ifs at h
  simp only [htype, hpath] at h
  split_ifs at h with hcount hall hplen hdir hsize
  cases h
  rw [not_or, not_lt] at hplen
  rw [not_lt] at hcount hsize
  simp only [Bool.not_eq_true', Bool.not_eq_false] at hall
  have hbytes : byteLen path = getLe entry 128 2 := by
    have hfit : 132 + getLe entry 128 2 ≤ entry.length := by
      have h120 : getLe entry 128 2 ≤ 120 := hplen.2
      rw [hlen]
      show _ ≤ 256
      omega
    rw [byteLen, utf8_of_fromUtf8 hpath, length_slice _ hfit]
  refine ⟨fileTypeOfCode_ne_device htype, by simpa using hcount, ?_, ?_, ?_, ?_, hsize⟩
  · intro e he
    obtain ⟨i, hi, rfl⟩ := mem_map.mp he
    have hi := mem_range.mp hi
    have hok := all_eq_true.mp hall i (mem_range.mpr (lt_of_lt_of_le hi hcount))
    rwa [extentOk_iff htotal, if_pos hi] at hok
  · intro hnil
    rw [← byteLen_eq_zero, hbytes] at hnil
    exact hplen.1 hnil
  · rw [hbytes]
    exact hplen.2
  · intro hd
    have hempty := not_and.mp hdir hd
    rw [not_or, not_not, not_not] at hempty
    exact ⟨hempty.1, by simp [hempty.2]⟩

/-! ### Slot images -/

section

variable {g : Geometry} {bitmap : List UInt8} {nodes : NodeTable}

/-- **Metadata that can be mounted again**: the bitmap has the length of the partition's,
every node is storable, and no two nodes conflict. -/
structure Mountable (g : Geometry) (bitmap : List UInt8) (nodes : NodeTable) : Prop where
  length_bitmap : bitmap.length = g.bitmapLen
  storable : ∀ i n, nodes i = some n → Storable g n
  consistent : verifyConsistency nodes = true

variable {o : Option Node}

theorem length_encodeEntry (h : ∀ n, o = some n → byteLen n.path ≤ pathSize) :
    (encodeEntry o).length = nodeSize := by
  cases o with
  | none => exact length_replicate
  | some n => exact length_encodeNode (h n rfl)

/-- **A table entry reads back.** -/
theorem decodeEntry_encodeEntry (htotal : g.totalBlocks < 2 ^ 64)
    (h : ∀ n, o = some n → Storable g n) : decodeEntry g (encodeEntry o) = .ok o := by
  cases o with
  | none =>
    have h0 : getLe (replicate nodeSize 0) 0 1 = 0 := by decide +kernel
    rw [encodeEntry, decodeEntry, if_pos h0]
  | some n =>
    have hn := h n rfl
    have h0 : getLe (encodeNode n) 0 1 = 1 :=
      getLe_encodeNode_of_lt hn.path_le (f := ⟨0, 1, 1⟩) (by simp [nodeFieldList]) (by decide)
    rw [encodeEntry, decodeEntry, if_neg (by rw [h0]; decide),
      if_neg (not_not.mpr (crc_encodeNode hn.path_le)), decodeNode_encodeNode hn htotal]
    rfl

theorem length_slotImage (hb : bitmap.length = g.bitmapLen)
    (h : ∀ i n, nodes i = some n → byteLen n.path ≤ pathSize) :
    (slotImage bitmap nodes).length = g.bitmapLen + nodeSize * maxNodes := by
  rw [slotImage, length_append, hb, length_flatMap_range _ nodeSize]
  intro i hi
  rw [dif_pos hi]
  exact length_encodeEntry (h ⟨i, hi⟩)

/-- The records of a slot image are those of its table. -/
theorem entryAt_slotImage (hb : bitmap.length = g.bitmapLen)
    (h : ∀ i n, nodes i = some n → byteLen n.path ≤ pathSize) (i : Fin maxNodes) :
    entryAt g (slotImage bitmap nodes) i = encodeEntry (nodes i) := by
  have hlen : ∀ j < maxNodes,
      (encodeEntry (if h : j < maxNodes then nodes ⟨j, h⟩ else none)).length = nodeSize := by
    intro j hj
    rw [dif_pos hj]
    exact length_encodeEntry (h ⟨j, hj⟩)
  rw [entryAt, slotImage, ← hb, drop_left]
  exact (slice_flatMap_range _ hlen i.isLt).trans (by rw [dif_pos i.isLt])

/-- A slot image of storable nodes builds strictly exactly when the nodes are consistent. -/
theorem fromSlot_slotImage_eq (p : Partition) (sb : SuperBlock) (htotal : g.totalBlocks < 2 ^ 64)
    (hb : bitmap.length = g.bitmapLen) (h : ∀ i n, nodes i = some n → Storable g n) :
    fromSlot p g sb (slotImage bitmap nodes) =
      if verifyConsistency nodes then .ok (ofTable p g sb bitmap nodes false)
      else .error .corruptMetadata := by
  have hpath : ∀ i n, nodes i = some n → byteLen n.path ≤ pathSize :=
    fun i n hn => (h i n hn).path_le
  have hentry : ∀ i : Fin maxNodes,
      decodeEntry g (entryAt g (slotImage bitmap nodes) i) = .ok (nodes i) := by
    intro i
    rw [entryAt_slotImage hb hpath]
    exact decodeEntry_encodeEntry htotal (h i)
  have htake : (slotImage bitmap nodes).take g.bitmapLen = bitmap := by
    rw [slotImage, ← hb, take_left]
  rw [fromSlot, fillTable_ok _ hentry, htake]

/-- **A mountable slot image builds strictly**, into the metadata it was made from. -/
theorem fromSlot_slotImage (p : Partition) (sb : SuperBlock) (htotal : g.totalBlocks < 2 ^ 64)
    (h : Mountable g bitmap nodes) :
    fromSlot p g sb (slotImage bitmap nodes) = .ok (ofTable p g sb bitmap nodes false) := by
  rw [fromSlot_slotImage_eq p sb htotal h.length_bitmap h.storable, if_pos h.consistent]

/-- The strict builder accepts only mountable metadata. -/
theorem mountable_of_fromSlot {p : Partition} {sb : SuperBlock} {image : List UInt8} {fs : DunitFs}
    (htotal : g.totalBlocks < 2 ^ 64) (hlen : g.bitmapLen + nodeSize * maxNodes ≤ image.length)
    (h : fromSlot p g sb image = .ok fs) : Mountable g fs.bitmap fs.nodes := by
  unfold fromSlot at h
  split at h
  · cases h
  · rename_i nodes hfill
    split_ifs at h with hv
    cases h
    refine ⟨?_, fun i n hn => ?_, hv⟩
    · show (image.take g.bitmapLen).length = _
      rw [length_take]
      omega
    · have hn : nodes i = some n := hn
      have hi := fillTable_eq_ok_iff.mp hfill i
      rw [hn] at hi
      have hfit : nodeSize * i + nodeSize ≤ (image.drop g.bitmapLen).length := by
        have hlt := i.isLt
        rw [length_drop]
        simp only [nodeSize, maxNodes] at hlen hlt ⊢
        omega
      unfold decodeEntry at hi
      split_ifs at hi with h0
      · cases hi
      rcases hd : decodeNode (entryAt g image i) g with e | m
      · rw [hd] at hi
        cases hi
      · rw [hd] at hi
        cases hi
        exact storable_of_decodeNode htotal (length_slice _ hfit) hd

end

end DunitOS.DunitFs
