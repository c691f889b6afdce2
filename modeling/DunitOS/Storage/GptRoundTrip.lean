import DunitOS.Storage.Gpt

/-!
# Partition tables read back

What `gpt::write` leaves on a device is what `gpt::read` expects, for every block size, as long as
there are no more partitions than the reader takes. The writer accepts as many as the table has
entries, so that a table of more than `MAX_PARTITIONS` partitions is written without complaint and
cannot be read (`write_accepts_unreadable`).

The proof follows the data: what is written is a list of blocks (`tableWrites`), the header block
and the entry blocks are read back from the device, the header is parsed, and the scan of the
entries is an induction over the slots of a block inside one over the blocks. Its invariant is
that the partitions found so far are those specified so far (`scanned`).
-/

namespace DunitOS.Gpt

open SysLib Disk Prog List Option DunitFs Block HeaderSpec Nat

variable {info : DeviceInfo} {guid : Guid} {specs : List PartitionSpec} {d : Disk info.blockSize}
variable {n off k : ℕ} {data : List UInt8} {s : PartitionSpec}

/-! ### Block sizes -/

/-- The block sizes that a device can have. -/
structure Sized (info : DeviceInfo) : Prop where
  le_blockSize : 512 ≤ info.blockSize
  blockSize_le : info.blockSize ≤ maxBlockSize
  slots : entrySize * entriesPerBlock info.blockSize = info.blockSize
  count : entryCount / entriesPerBlock info.blockSize = tableBlocks info
  entries : tableBlocks info * entriesPerBlock info.blockSize = entryCount
  bytes : tableBlocks info * info.blockSize = tableBytes

theorem eq_of_isPowerOfTwo (hlo : 512 ≤ n) (hhi : n ≤ 4096)
    (h : isPowerOfTwo n = true) : n = 512 ∨ n = 1024 ∨ n = 2048 ∨ n = 4096 := by
  rw [isPowerOfTwo, Bool.and_eq_true, bne_iff_ne, beq_iff_eq] at h
  obtain ⟨k, rfl⟩ := (Nat.and_sub_one_eq_zero_iff_isPowerOfTwo h.1).mp h.2
  have hk : k ≤ 12 := (Nat.pow_le_pow_iff_right (by decide : 1 < 2)).mp hhi
  have hk' : 9 ≤ k := (Nat.pow_le_pow_iff_right (by decide : 1 < 2)).mp hlo
  have hcases : k = 9 ∨ k = 10 ∨ k = 11 ∨ k = 12 := by omega
  rcases hcases with rfl | rfl | rfl | rfl <;> decide

theorem sized_of_blockSize (h : info.blockSize = n)
    (hn : n = 512 ∨ n = 1024 ∨ n = 2048 ∨ n = 4096) : Sized info := by
  have key : ∀ m, m = 512 ∨ m = 1024 ∨ m = 2048 ∨ m = 4096 →
      (512 ≤ m ∧ m ≤ maxBlockSize ∧ entrySize * entriesPerBlock m = m ∧
        entryCount / entriesPerBlock m = divCeil tableBytes m ∧
        divCeil tableBytes m * entriesPerBlock m = entryCount ∧
        divCeil tableBytes m * m = tableBytes) := by
    rintro m (rfl | rfl | rfl | rfl) <;> decide
  obtain ⟨h1, h2, h3, h4, h5, h6⟩ := key info.blockSize (h ▸ hn)
  exact ⟨h1, h2, h3, h4, h5, h6⟩

theorem sized_of_validateDevice (h : validateDevice info = .ok ()) :
    Sized info ∧ 2 + tableBlocks info * 2 + 1 ≤ info.blocks := by
  rw [validateDevice] at h
  split_ifs at h with hsize hblocks
  rw [not_or, not_or, Bool.not_eq_false, not_lt, not_lt] at hsize
  exact ⟨sized_of_blockSize rfl (eq_of_isPowerOfTwo hsize.1 hsize.2.1 hsize.2.2), not_lt.mp hblocks⟩

/-! ### What is written -/

theorem writeExact_run (hd : d.Reliable) {lba : ℕ} (hlba : lba < info.blocks)
    (data : List UInt8) : writeExact info lba data d =
      (.ok (), d.store lba (ofBytes info.blockSize data)) := by
  rw [writeExact, if_neg (not_le.mpr hlba)]
  exact Disk.write_reliable hd _ _ _

/-- The blocks of a table from a block on. -/
def entryWrites (info : DeviceInfo) (startLba : ℕ) (specs : List PartitionSpec) :
    List (ℕ × Block info.blockSize) :=
  (List.range (tableBlocks info)).map fun k =>
    (startLba + k, Block.ofBytes info.blockSize (entryBlock info.blockSize specs k))

theorem forEach_writeExact (hd : d.Reliable) {startLba : ℕ} {block : ℕ → List UInt8}
    (l : List ℕ) (hl : ∀ k ∈ l, startLba + k < info.blocks) :
    forEach (fun k => writeExact info (startLba + k) (block k)) l d = (.ok (), storeAll
        (l.map fun k => (startLba + k, ofBytes info.blockSize (block k))) d) := by
  induction l generalizing d with
  | nil => rfl
  | cons k _ ih =>
    have hk := writeExact_run hd (hl k mem_cons_self) (block k)
    exact (bind_ok hk).trans (ih (store_reliable hd _ _) fun j hj => hl j (mem_cons_of_mem _ hj))

theorem writeEntries_run (hs : Sized info) (hd : d.Reliable) {startLba : ℕ}
    (hfit : startLba + tableBlocks info ≤ info.blocks) :
    writeEntries info startLba specs d =
      (.ok (), storeAll (entryWrites info startLba specs) d) := by
  rw [writeEntries, hs.count]
  refine forEach_writeExact hd _ fun k hk => ?_
  have hk := mem_range.mp hk
  omega

/-- The header of a table, and that of its backup. -/
def mainHeader (info : DeviceInfo) (guid : Guid) (specs : List PartitionSpec) : HeaderSpec :=
  ⟨1, info.blocks - 1, 2 + tableBlocks info, info.blocks - 1 - tableBlocks info - 1, guid, 2,
    entriesCrc32 info.blockSize specs⟩

def backupHeader (info : DeviceInfo) (guid : Guid) (specs : List PartitionSpec) : HeaderSpec :=
  ⟨info.blocks - 1, 1, 2 + tableBlocks info, info.blocks - 1 - tableBlocks info - 1, guid,
    info.blocks - 1 - tableBlocks info, entriesCrc32 info.blockSize specs⟩

/-- **The blocks that make a table**, in the order they are written. -/
def tableWrites (info : DeviceInfo) (guid : Guid) (specs : List PartitionSpec) :
    List (ℕ × Block info.blockSize) :=
  (0, Block.ofBytes info.blockSize (protectiveMbr info.blocks)) ::
    (entryWrites info 2 specs ++
      (entryWrites info (info.blocks - 1 - tableBlocks info) specs ++
        [(1, Block.ofBytes info.blockSize (mainHeader info guid specs).encode),
          (info.blocks - 1, Block.ofBytes info.blockSize (backupHeader info guid specs).encode)]))

/-- What is checked before a table is written. -/
structure Accepted (info : DeviceInfo) (guid : Guid) (specs : List PartitionSpec) : Prop where
  device : validateDevice info = .ok ()
  writable : info.readonly = false
  length_le : specs.length ≤ entryCount
  guid_ne : isZeroGuid guid.1 = false
  usable : 2 + tableBlocks info ≤ info.blocks - 1 - tableBlocks info - 1
  specs_ok : validateSpecs specs (2 + tableBlocks info)
    (info.blocks - 1 - tableBlocks info - 1) = .ok ()

/-- **Writing a table** that is accepted stores its blocks. -/
theorem write_run (hd : d.Reliable) (h : Accepted info guid specs) :
    write info guid specs d = (.ok (), storeAll (tableWrites info guid specs) d) := by
  obtain ⟨hdev, hro, hlen, hguid, huse, hspecs⟩ := h
  obtain ⟨hs, -⟩ := sized_of_validateDevice hdev
  simp only [write, hdev, hro, hguid, hspecs, decide_eq_false (not_lt.mpr hlen),
    decide_eq_false (not_lt.mpr huse), Prog.ofExcept_ok, pure_bind_run,
    refuse_bind_run, Bool.false_eq_true, if_false]
  rw [bind_ok (writeExact_run hd (by omega) _)]
  have hd1 := store_reliable hd 0 (ofBytes info.blockSize (protectiveMbr info.blocks))
  rw [bind_ok (writeEntries_run hs hd1 (by omega))]
  have hd2 := storeAll_reliable hd1 (entryWrites info 2 specs)
  rw [bind_ok (writeEntries_run hs hd2 (by omega))]
  have hd3 := storeAll_reliable hd2
    (entryWrites info (info.blocks - 1 - tableBlocks info) specs)
  have hmain : writeHeader info (mainHeader info guid specs) _ = _ :=
    writeExact_run hd3 (show 1 < info.blocks by omega) _
  refine (bind_ok hmain).trans ?_
  refine (writeExact_run (store_reliable hd3 _ _)
    (show info.blocks - 1 < info.blocks by omega) _).trans ?_
  rw [tableWrites, storeAll_cons, storeAll_append, storeAll_append]
  rfl

/-- A table is written only if it is accepted. -/
theorem accepted_of_write (h : (write info guid specs d).1 = .ok ()) :
    Accepted info guid specs := by
  have hends : Ends (fun _ _ => Accepted info guid specs) (fun _ _ => True)
      (write info guid specs d) := by
    refine Ends.ofExcept (fun _ _ => trivial) fun _ hdev => ?_
    refine Ends.refuse (fun _ => trivial) fun hro => Ends.refuse (fun _ => trivial) fun hlen => ?_
    refine Ends.refuse (fun _ => trivial) fun hguid => ?_
    refine Ends.refuse (fun _ => trivial) fun huse => ?_
    refine Ends.ofExcept (fun _ _ => trivial) fun _ hspecs => Ends.of_forall ?_
    exact ⟨hdev, hro, not_lt.mp (of_decide_eq_false hlen), hguid,
      not_lt.mp (of_decide_eq_false huse), hspecs⟩
  rcases hrun : write info guid specs d with ⟨e | _, t⟩
  · rw [hrun] at h
    cases h
  · exact hends.of_ok hrun

/-! ### What is read back from the device -/

section

variable (h : Accepted info guid specs)
include h

theorem data_header : (storeAll (tableWrites info guid specs) d).data 1 =
    ofBytes info.blockSize (mainHeader info guid specs).encode := by
  obtain ⟨-, hblocks⟩ := sized_of_validateDevice h.device
  rw [tableWrites, storeAll_cons, storeAll_append, storeAll_append,
    storeAll_cons, storeAll_cons, Disk.storeAll_nil,
    data_store_of_ne _ _ (show 1 ≠ info.blocks - 1 by omega), data_store_self]

theorem data_entries {k : ℕ} (hk : k < tableBlocks info) :
    (storeAll (tableWrites info guid specs) d).data (2 + k) =
      ofBytes info.blockSize (entryBlock info.blockSize specs k) := by
  obtain ⟨-, hblocks⟩ := sized_of_validateDevice h.device
  rw [tableWrites, storeAll_cons, storeAll_append]
  -- the blocks written later are the backup of the table and the two headers
  rw [data_storeAll_of_forall_ne]
  · exact Disk.data_storeAll_range 2 _ _ _ hk
  · intro x hx
    rcases mem_append.mp hx with hx | hx
    · obtain ⟨j, hj, rfl⟩ := mem_map.mp hx
      omega
    · rcases mem_cons.mp hx with rfl | hx
      · show 1 ≠ 2 + k
        omega
      · obtain rfl := mem_singleton.mp hx
        omega

end

theorem readExact_run {lba : ℕ} (hlba : lba < info.blocks) (hread : d.bad lba = false) :
    readExact info lba d = .ok (d.data lba).bytes := by
  rw [readExact, if_neg (not_le.mpr hlba), Disk.read, hread]
  rfl

/-! ### The header -/

theorem bytes_ofBytes_take (h : n ≤ data.length) : (ofBytes n data).bytes = data.take n := by
  show data.take n ++ replicate (n - data.length) 0 = data.take n
  rw [Nat.sub_eq_zero_of_le h, replicate_zero, append_nil]

/-- A window of a block is the window of the buffer it was written from. -/
theorem slice_ofBytes {len : ℕ} (h : n ≤ data.length)
    (hin : off + len ≤ n) : slice (ofBytes n data).bytes off len = slice data off len := by
  rw [bytes_ofBytes_take h, slice_take, min_eq_left (by omega)]

theorem getLe_ofBytes {w : ℕ} (h : n ≤ data.length)
    (hin : off + w ≤ n) : getLe (ofBytes n data).bytes off w = getLe data off w := by
  rw [getLe, slice_ofBytes h hin, getLe]

namespace HeaderSpec

variable (h : HeaderSpec)

theorem length_signed : (splice (replicate maxBlockSize (0 : UInt8)) 0 signature).length =
    4096 := by
  rw [length_splice]
  · exact length_replicate
  · rw [length_replicate]
    decide

theorem length_blank : (splice (splice (replicate maxBlockSize (0 : UInt8)) 0 signature) 56
    h.diskGuid.1).length = 4096 := by
  rw [length_splice, length_signed]
  rw [length_signed, h.diskGuid.2]
  decide

/-- Where the words of the header are. -/
def places : List (ℕ × ℕ) :=
  [(8, 4), (12, 4), (24, 8), (32, 8), (40, 8), (48, 8), (72, 8), (80, 4), (84, 4), (88, 4)]

theorem fields_le : ∀ f ∈ h.fields, f.off + f.width ≤ 4096 := by
  have hplaces : ∀ p ∈ h.fields.map Field.place, p.1 + p.2 ≤ 4096 := by
    show ∀ p ∈ places, p.1 + p.2 ≤ 4096
    decide
  exact fun f hf => hplaces f.place (mem_map_of_mem hf)

theorem length_unsigned : h.unsigned.length = 4096 := by
  rw [unsigned, length_putFields, length_blank]
  rw [length_blank]
  exact h.fields_le

theorem length_encode : h.encode.length = 4096 := by
  rw [encode, length_putLe, length_unsigned]
  rw [length_unsigned]
  decide

/-- A word of the header. -/
theorem getLe_encode {off w v : ℕ} (hf : (⟨off, w, v⟩ : Field) ∈ h.fields)
    (hd : off + w ≤ 16 ∨ 20 ≤ off) : getLe h.encode off w = v % 256 ^ w := by
  rw [encode, getLe_putLe_of_disjoint _ _ (by rw [length_unsigned]; decide) hd, unsigned]
  refine getLe_putFields ?_ hf
  rw [length_blank]
  show Separate 4096 places
  decide

/-- A window of the header that holds no word. -/
theorem slice_unsigned {off len : ℕ}
    (hd : ∀ p ∈ places, off + len ≤ p.1 ∨ p.1 + p.2 ≤ off) :
    slice h.unsigned off len = slice (splice (splice (replicate maxBlockSize 0) 0 signature)
      56 h.diskGuid.1) off len := by
  refine slice_putFields ?_ fun f hf => hd f.place ?_
  · rw [length_blank]
    exact h.fields_le
  · exact mem_map_of_mem hf

theorem slice_guid : slice h.unsigned 56 16 = h.diskGuid.1 := by
  rw [slice_unsigned h (by decide)]
  have hs : slice (splice (splice (replicate maxBlockSize 0) 0 signature) 56 h.diskGuid.1) 56
      h.diskGuid.1.length = h.diskGuid.1 :=
    slice_splice _ _ (by rw [length_signed, h.diskGuid.2]; decide)
  rwa [h.diskGuid.2] at hs

theorem slice_signature : slice h.unsigned 0 8 = signature := by
  rw [slice_unsigned h (by decide), slice_splice_of_disjoint]
  · have hs : slice (splice (replicate maxBlockSize 0) 0 signature) 0 signature.length =
        signature := slice_splice _ _ (by rw [length_replicate]; decide)
    exact hs
  · rw [length_signed, h.diskGuid.2]
    decide
  · exact .inl (by decide)

theorem slice_checksum : slice h.unsigned 16 4 = [0, 0, 0, 0] := by
  rw [slice_unsigned h (by decide), slice_splice_of_disjoint, slice_splice_of_disjoint]
  · decide
  · rw [length_replicate]
    decide
  · exact .inr (by decide)
  · rw [length_signed, h.diskGuid.2]
    decide
  · exact .inl (by decide)

/-- **The checksum of the header** is over its bytes with zeros in the place of the checksum. -/
theorem checked_bytes : slice h.encode 0 16 ++ [0, 0, 0, 0] ++ slice h.encode 20 72 =
    h.unsigned.take headerSize := by
  have hlen : 16 + 4 ≤ h.unsigned.length := by rw [length_unsigned]; decide
  rw [encode, slice_putLe_of_disjoint _ _ hlen (.inl (by decide)),
    slice_putLe_of_disjoint _ _ hlen (.inr (by decide)), ← h.slice_checksum]
  show _ = slice h.unsigned 0 (16 + 4 + 72)
  rw [slice_add, slice_add]

theorem getLe_checksum : getLe h.encode 16 4 = (crc32 (h.unsigned.take headerSize)).toNat := by
  rw [encode, getLe_putLe _ _ (by rw [length_unsigned]; decide)]
  exact mod_eq_of_lt (UInt32.toNat_lt _)

end HeaderSpec

theorem guidAt_eq (h : slice data off 16 = guid.1) : guidAt data off = guid := by
  refine Subtype.ext ?_
  show (ofBytes 16 (slice data off 16)).bytes = guid.1
  rw [h, bytes_ofBytes guid.2]

/-- The header that is read back. -/
def readHeader (info : DeviceInfo) (guid : Guid) (specs : List PartitionSpec) : Header :=
  ⟨2 + tableBlocks info, info.blocks - 1 - tableBlocks info - 1, guid, 2, entryCount, entrySize,
    (entriesCrc32 info.blockSize specs).toNat⟩

/-- **The header is parsed** as it was meant. -/
theorem parseHeader_main (h : Accepted info guid specs) :
    parseHeader (ofBytes info.blockSize (mainHeader info guid specs).encode).bytes info =
      .ok (readHeader info guid specs) := by
  obtain ⟨hs, -⟩ := sized_of_validateDevice h.device
  have huse := h.usable
  have hlt := info.blocks_lt
  have h512 := hs.le_blockSize
  generalize hm : mainHeader info guid specs = m
  have hfields : m.fields = (mainHeader info guid specs).fields := by rw [hm]
  have hlen : info.blockSize ≤ m.encode.length := by
    rw [m.length_encode]
    exact hs.blockSize_le
  generalize hdata : (ofBytes info.blockSize m.encode).bytes = data
  have hslice : ∀ {off len : ℕ}, off + len ≤ 92 → slice data off len = slice m.encode off len :=
    fun h => hdata ▸ slice_ofBytes hlen (by omega)
  have hword : ∀ {off w v : ℕ}, (⟨off, w, v⟩ : Field) ∈ (mainHeader info guid specs).fields →
      (off + w ≤ 16 ∨ 20 ≤ off) ∧ off + w ≤ 92 → v < 256 ^ w → getLe data off w = v := by
    rintro off w v hf ⟨hd, hin⟩ hv
    rw [← hdata, getLe_ofBytes hlen (by omega), m.getLe_encode (hfields ▸ hf) hd,
      mod_eq_of_lt hv]
  have hguid : m.diskGuid = guid := by rw [← hm]; rfl
  have hsig : data.take 8 = signature := by
    rw [← slice_zero, hslice (by decide)]
    rw [encode, slice_putLe_of_disjoint _ _ (by rw [m.length_unsigned]; decide)
      (.inl (by decide)), m.slice_signature]
  have hdisk : slice data 56 16 = guid.1 := by
    rw [hslice (by decide), encode,
      slice_putLe_of_disjoint _ _ (by rw [m.length_unsigned]; decide) (.inr (by decide)),
      m.slice_guid, hguid]
  have hcrc : (crcFinish (crcUpdate (crcUpdate (crcUpdate crcNew
      (data.take 16)) [0, 0, 0, 0]) (slice data 20 (92 - 20)))).toNat = getLe data 16 4 := by
    rw [← slice_zero, hslice (by decide), hslice (by decide), ← hdata,
      getLe_ofBytes hlen (by omega), m.getLe_checksum, ← m.checked_bytes]
    simp only [crc32, crcUpdate, foldl_append]
  have hentries : divCeil (entryCount * entrySize) info.blockSize = tableBlocks info := rfl
  have h8 : getLe data 8 4 = revision :=
    hword (by simp [fields]) (by decide) (by decide)
  have h12 : getLe data 12 4 = 92 :=
    hword (by simp [fields, headerSize]) (by decide) (by decide)
  have h24 : getLe data 24 8 = 1 :=
    hword (by simp [fields, mainHeader]) (by decide) (by decide)
  have h32 : getLe data 32 8 = info.blocks - 1 :=
    hword (by simp [fields, mainHeader]) (by decide) (show _ < 2 ^ 64 by omega)
  have h40 : getLe data 40 8 = 2 + tableBlocks info :=
    hword (by simp [fields, mainHeader]) (by decide) (show _ < 2 ^ 64 by omega)
  have h48 : getLe data 48 8 = info.blocks - 1 - tableBlocks info - 1 :=
    hword (by simp [fields, mainHeader]) (by decide) (show _ < 2 ^ 64 by omega)
  have h72 : getLe data 72 8 = 2 :=
    hword (by simp [fields, mainHeader]) (by decide) (by decide)
  have h80 : getLe data 80 4 = entryCount :=
    hword (by simp [fields]) (by decide) (by decide)
  have h84 : getLe data 84 4 = entrySize :=
    hword (by simp [fields]) (by decide) (by decide)
  have h88 : getLe data 88 4 = (entriesCrc32 info.blockSize specs).toNat :=
    hword (by simp [fields, mainHeader]) (by decide) (UInt32.toNat_lt _)
  rw [parseHeader]
  simp only [h8, h12, h24, h32, h40, h48, h72, h80, h84, h88, hentries, hdisk, h.guid_ne]
  rw [if_neg (not_not.mpr hsig), if_neg, if_neg (not_not.mpr hcrc), if_neg, if_neg, if_neg,
    guidAt_eq hdisk, readHeader]
  · rintro (hc | hc) <;> omega
  · omega
  · rintro (hc | hc | hc | hc | hc | hc | hc | hc)
    · exact absurd hc (by decide)
    · exact absurd hc (by decide)
    · exact absurd hc (by decide)
    · exact absurd hc (by decide)
    · exact absurd (hc.trans_le (show entrySize ≤ 512 by decide)) (by omega)
    · omega
    · omega
    · cases hc
  · rintro (hc | hc | hc | hc | hc)
    · exact hc rfl
    · exact absurd hc (by decide)
    · omega
    · exact hc rfl
    · exact hc rfl

/-! ### The entries -/

/-- The specification of a partition as it is read back, as the entry of an index. -/
def PartitionSpec.expected (index : ℕ) (s : PartitionSpec) : Partition :=
  { index := index + 1
    typeGuid := s.typeGuid
    uniqueGuid := s.uniqueGuid
    firstLba := s.firstLba
    lastLba := s.lastLba
    attributes := s.attributes
    nameBytes := parseName ((List.range 36).map fun i =>
      (s.name.flatMap encodeUtf16).getD i 0 % 256 ^ 2) }

theorem length_encodeName (name : List Char) : (encodeName name).length = 72 :=
  length_flatMap_range _ 2 36 fun _ _ => length_leBytes 2 _

theorem length_encodePartition : (encodePartition s).length = entrySize := by
  simp only [encodePartition, length_append, s.typeGuid.2, s.uniqueGuid.2, length_leBytes,
    length_encodeName]
  rfl

theorem length_entryAt {index : ℕ} : (entryAt specs index).length = entrySize := by
  rw [entryAt]
  rcases specs[index]? with _ | s
  · exact length_replicate
  · exact length_encodePartition

/-- A part of a string. -/
theorem slice_part {a b c : List UInt8} {len : ℕ} (ha : a.length = off)
    (hb : b.length = len) : slice (a ++ (b ++ c)) off len = b := by
  subst ha hb
  have hs := slice_append_right a (b ++ c) 0 b.length
  rw [add_zero] at hs
  rw [hs, slice_append_left _ _ (by omega), slice_zero_length]

namespace PartitionSpec

variable (s : PartitionSpec)

theorem slice_typeGuid : slice (encodePartition s) 0 16 = s.typeGuid.1 := by
  simp only [encodePartition, append_assoc]
  exact slice_part (a := []) rfl s.typeGuid.2

theorem slice_uniqueGuid : slice (encodePartition s) 16 16 = s.uniqueGuid.1 := by
  simp only [encodePartition, append_assoc]
  exact slice_part s.typeGuid.2 s.uniqueGuid.2

theorem length_guids : (s.typeGuid.1 ++ s.uniqueGuid.1).length = 32 := by
  rw [length_append]
  exact congrArg₂ (· + ·) s.typeGuid.2 s.uniqueGuid.2

theorem encodePartition_eq : encodePartition s = (s.typeGuid.1 ++ s.uniqueGuid.1) ++
    (leBytes 8 s.firstLba ++ (leBytes 8 s.lastLba ++ (leBytes 8 s.attributes.toNat ++
      encodeName s.name))) := by
  simp only [encodePartition, append_assoc]

/-- A window behind the identifiers. -/
theorem slice_encodePartition (off len : ℕ) : slice (encodePartition s) (32 + off) len =
    slice (leBytes 8 s.firstLba ++ (leBytes 8 s.lastLba ++ (leBytes 8 s.attributes.toNat ++
      encodeName s.name))) off len := by
  rw [encodePartition_eq, ← s.length_guids, slice_append_right]

theorem getLe_firstLba : getLe (encodePartition s) 32 8 = s.firstLba % 256 ^ 8 := by
  have hs := s.slice_encodePartition 0 8
  rw [getLe, hs]
  exact getLe_leBytes_append 8 s.firstLba _

theorem getLe_lastLba : getLe (encodePartition s) 40 8 = s.lastLba % 256 ^ 8 := by
  have hs := s.slice_encodePartition 8 8
  rw [getLe, hs, slice_part (length_leBytes 8 _) (length_leBytes 8 _), ofLe_leBytes]

theorem getLe_attributes : getLe (encodePartition s) 48 8 = s.attributes.toNat % 256 ^ 8 := by
  have hs := s.slice_encodePartition 16 8
  have hlen : (leBytes 8 s.firstLba ++ leBytes 8 s.lastLba).length = 16 := by
    rw [length_append, length_leBytes, length_leBytes]
  rw [getLe, hs, ← append_assoc, slice_part hlen (length_leBytes 8 _), ofLe_leBytes]

theorem getLe_name {i : ℕ} (hi : i < 36) : getLe (encodePartition s) (56 + 2 * i) 2 =
    (s.name.flatMap encodeUtf16).getD i 0 % 256 ^ 2 := by
  have hs := s.slice_encodePartition (24 + 2 * i) 2
  have hlen : (leBytes 8 s.firstLba ++ (leBytes 8 s.lastLba ++
      leBytes 8 s.attributes.toNat)).length = 24 := by
    rw [length_append, length_append, length_leBytes, length_leBytes, length_leBytes]
  have hname := slice_append_right (leBytes 8 s.firstLba ++ (leBytes 8 s.lastLba ++
    leBytes 8 s.attributes.toNat)) (encodeName s.name) (2 * i) 2
  rw [hlen, append_assoc, append_assoc] at hname
  rw [show 56 + 2 * i = 32 + (24 + 2 * i) by omega, getLe, hs, hname, encodeName,
    slice_flatMap_range _ (fun _ _ => length_leBytes 2 _) hi, ofLe_leBytes]

end PartitionSpec

/-- What a specification must be for its entry to be a partition. -/
structure Valid (firstUsable lastUsable : ℕ) (s : PartitionSpec) : Prop where
  type_ne : isZeroGuid s.typeGuid.1 = false
  unique_ne : isZeroGuid s.uniqueGuid.1 = false
  le_first : firstUsable ≤ s.firstLba
  first_le : s.firstLba ≤ s.lastLba
  last_le : s.lastLba ≤ lastUsable

/-- **An entry is parsed** as it was meant. -/
theorem parsePartition_encode {firstUsable lastUsable : ℕ}
    (h : Valid firstUsable lastUsable s) (hpos : 0 < firstUsable) (hlt : lastUsable < 2 ^ 64)
    {index : ℕ} : parsePartition (encodePartition s) (index + 1) = .ok (s.expected index) := by
  obtain ⟨-, hunique, h1, h2, h3⟩ := h
  have hfirst : getLe (encodePartition s) 32 8 = s.firstLba :=
    s.getLe_firstLba.trans (mod_eq_of_lt (show _ < 2 ^ 64 by omega))
  have hlast : getLe (encodePartition s) 40 8 = s.lastLba :=
    s.getLe_lastLba.trans (mod_eq_of_lt (show _ < 2 ^ 64 by omega))
  have hattr : UInt64.ofNat (getLe (encodePartition s) 48 8) = s.attributes := by
    have hmod : s.attributes.toNat % 256 ^ 8 = s.attributes.toNat :=
      mod_eq_of_lt s.attributes.toNat_lt
    rw [s.getLe_attributes, hmod, UInt64.ofNat_toNat]
  have hname : ((range 36).map fun i => getLe (encodePartition s) (56 + 2 * i) 2) =
      (range 36).map fun i => (s.name.flatMap encodeUtf16).getD i 0 % 256 ^ 2 :=
    map_congr_left fun i hi => s.getLe_name (mem_range.mp hi)
  rw [parsePartition]
  simp only [hfirst, hlast, hattr, hname, s.slice_uniqueGuid, hunique,
    guidAt_eq s.slice_typeGuid, guidAt_eq s.slice_uniqueGuid]
  rw [if_neg]
  · rfl
  · rintro (hc | hc | hc)
    · omega
    · omega
    · cases hc

/-- What the specifications of a table are checked for. -/
theorem valid_of_validateSpecsFrom {firstUsable lastUsable : ℕ} {previous : List PartitionSpec}
    (h : validateSpecsFrom firstUsable lastUsable previous specs = .ok ()) {k : ℕ}
    {s : PartitionSpec} (hk : specs[k]? = some s) : Valid firstUsable lastUsable s ∧
      (previous ++ specs.take k).any s.clash = false := by
  induction specs generalizing previous k with
  | nil => cases hk
  | cons _ _ ih =>
    rw [validateSpecsFrom] at h
    split_ifs at h with hbad hclash
    cases k with
    | zero =>
      obtain rfl := some.inj hk
      simp only [not_or, Bool.not_eq_true, not_lt] at hbad
      refine ⟨⟨hbad.1, hbad.2.1, hbad.2.2.1, hbad.2.2.2.1, hbad.2.2.2.2⟩, ?_⟩
      rwa [take_zero, append_nil, ← Bool.not_eq_true]
    | succ =>
      have hrest := ih h hk
      rwa [append_assoc, singleton_append] at hrest

/-! ### The scan -/

/-- The partitions that the first entries describe. -/
def scanned (specs : List PartitionSpec) (k : ℕ) : List Partition :=
  (specs.take k).mapIdx PartitionSpec.expected

theorem scanned_succ (hk : specs[k]? = some s) :
    scanned specs (k + 1) = scanned specs k ++ [s.expected k] := by
  have hlt := (List.getElem?_eq_some_iff.mp hk).1
  rw [scanned, List.take_add_one, hk, Option.toList_some, List.mapIdx_concat,
    List.length_take_of_le hlt.le, scanned]

theorem scanned_of_none (hk : specs[k]? = none) : scanned specs (k + 1) = scanned specs k := by
  rw [scanned, take_add_one, hk, toList_none, append_nil, scanned]

/-- Partitions clash if their specifications do. -/
theorem any_scanned (h : (specs.take k).any s.clash = false) {index : ℕ} :
    (scanned specs k).any (s.expected index).clash = false := by
  rw [List.any_eq_false] at h ⊢
  intro p hp
  obtain ⟨i, hi, rfl⟩ := List.mem_mapIdx.mp hp
  exact h _ (List.getElem_mem hi)

/-- One more round of a loop that has not stopped. -/
theorem foldlM_range_succ {σ ε : Type} {f : σ → ℕ → Except ε σ} {s t : σ}
    (h : (range n).foldlM f s = .ok t) : (range (n + 1)).foldlM f s = f t n := by
  rw [range_succ, foldlM_append, h]
  exact bind_pure (f t n)

section

variable {firstUsable lastUsable : ℕ} (hspecs : validateSpecs specs firstUsable lastUsable = .ok ())
  (hpos : 0 < firstUsable) (hlt : lastUsable < 2 ^ 64) (hlen : specs.length ≤ maxPartitions)
  {header : Header} (hfirst : header.firstUsableLba = firstUsable)
  (hlast : header.lastUsableLba = lastUsable)
include hspecs hpos hlt hlen hfirst hlast

/-- **One entry** adds the partition that is specified for it, if there is one. -/
theorem scanEntry_entryAt (crc : UInt32) (k : ℕ) :
    scanEntry header (entryAt specs k) ⟨crc, k, scanned specs k⟩ =
      .ok ⟨crc, k + 1, scanned specs (k + 1)⟩ := by
  rw [scanEntry]
  rcases hk : specs[k]? with _ | s
  · have hzero : isZeroGuid ((entryAt specs k).take 16) = true := by
      rw [entryAt, hk]
      decide
    rw [if_pos hzero, scanned_of_none hk]
  obtain ⟨hvalid, hclash⟩ := valid_of_validateSpecsFrom hspecs hk
  have hentry : entryAt specs k = encodePartition s := by rw [entryAt, hk]
  have htype : (encodePartition s).take 16 = s.typeGuid.1 := s.slice_typeGuid
  have hklt := (List.getElem?_eq_some_iff.mp hk).1
  have hcount : (scanned specs k).length = k := by
    rw [scanned, List.length_mapIdx, List.length_take_of_le hklt.le]
  rw [hentry, htype, if_neg (by rw [hvalid.type_ne]; decide),
    parsePartition_encode hvalid hpos hlt]
  show (if s.firstLba < header.firstUsableLba ∨ header.lastUsableLba < s.lastLba then _
    else if maxPartitions ≤ (scanned specs k).length then _
    else if (scanned specs k).any (s.expected k).clash then _ else _) = _
  have h1 := hvalid.le_first
  have h2 := hvalid.last_le
  rw [hfirst, hlast, if_neg (not_or.mpr ⟨not_lt.mpr h1, not_lt.mpr h2⟩),
    if_neg (by rw [hcount]; omega), any_scanned hclash, if_neg (by decide), scanned_succ hk]

theorem scanSlots {block : List UInt8} {base n : ℕ} (crc : UInt32)
    (hblock : ∀ slot < n, slice block (slot * entrySize) entrySize = entryAt specs (base + slot)) :
    (range n).foldlM (fun s slot => scanEntry header (slice block (slot * entrySize) entrySize) s)
      (⟨crc, base, scanned specs base⟩ : Scan) =
      .ok ⟨crc, base + n, scanned specs (base + n)⟩ := by
  induction n with
  | zero => rfl
  | succ n ih =>
    rw [foldlM_range_succ (ih fun slot hs => hblock slot (by omega)),
      hblock n (lt_succ_self n),
      scanEntry_entryAt hspecs hpos hlt hlen hfirst hlast crc (base + n)]
    rfl

end

/-- A slot of a block of the table. -/
theorem slice_entryBlock {n slot : ℕ} (hslot : slot < entriesPerBlock n) :
    slice (entryBlock n specs k) (slot * entrySize) entrySize =
      entryAt specs (k * entriesPerBlock n + slot) := by
  rw [mul_comm slot]
  exact slice_flatMap_range _ (fun _ _ => length_entryAt) hslot

theorem length_entryBlock :
    (entryBlock n specs k).length = entrySize * entriesPerBlock n :=
  length_flatMap_range _ _ _ fun _ _ => length_entryAt

/-- The checksum after some blocks of the table. -/
def crcAfter (blockSize : ℕ) (specs : List PartitionSpec) (m : ℕ) : UInt32 :=
  (List.range m).foldl (fun crc k => crcUpdate crc (entryBlock blockSize specs k)) crcNew

section

variable (h : Accepted info guid specs) (hlen : specs.length ≤ maxPartitions)
  (hread : ∀ lba < info.blocks, d.bad lba = false)
include h hlen hread

/-- **One block of the table** adds the partitions of its entries. -/
theorem scanBlock_written {k : ℕ} (hk : k < tableBlocks info) :
    scanBlock info (readHeader info guid specs) (storeAll (tableWrites info guid specs) d)
      ⟨crcAfter info.blockSize specs k, k * entriesPerBlock info.blockSize,
        scanned specs (k * entriesPerBlock info.blockSize)⟩ k =
      .ok ⟨crcAfter info.blockSize specs (k + 1), (k + 1) * entriesPerBlock info.blockSize,
        scanned specs ((k + 1) * entriesPerBlock info.blockSize)⟩ := by
  obtain ⟨hs, hblocks⟩ := sized_of_validateDevice h.device
  have hlt := info.blocks_lt
  have hblock : (ofBytes info.blockSize (entryBlock info.blockSize specs k)).bytes =
      entryBlock info.blockSize specs k :=
    bytes_ofBytes ((length_entryBlock).trans hs.slots)
  have hrun : readExact info (2 + k) (storeAll (tableWrites info guid specs) d) =
      .ok (entryBlock info.blockSize specs k) := by
    rw [readExact_run (by omega), data_entries h hk, hblock]
    rw [bad_storeAll]
    exact hread _ (by omega)
  have hhere : min (entryCount * entrySize - k * info.blockSize) info.blockSize =
      info.blockSize := by
    have hle : (k + 1) * info.blockSize ≤ tableBlocks info * info.blockSize :=
      mul_le_mul_right _ hk
    rw [hs.bytes, succ_mul] at hle
    have hle : k * info.blockSize + info.blockSize ≤ entryCount * entrySize := hle
    omega
  refine (bind_of_eq_ok hrun _).trans ?_
  have htake : (entryBlock info.blockSize specs k).take info.blockSize =
      entryBlock info.blockSize specs k :=
    take_of_length_le ((length_entryBlock).trans hs.slots).le
  have hcrc : crcUpdate (crcAfter info.blockSize specs k) (entryBlock info.blockSize specs k) =
      crcAfter info.blockSize specs (k + 1) := by
    rw [crcAfter, crcAfter, range_succ, foldl_append]
    rfl
  show (range (min (entryCount * entrySize - k * info.blockSize) info.blockSize /
    entrySize)).foldlM _ _ = _
  rw [readHeader]
  rw [hhere, htake, hcrc, succ_mul]
  exact scanSlots h.specs_ok (by omega) (by omega) hlen rfl rfl _
    fun slot hslot => slice_entryBlock hslot

theorem scanBlocks_written {m : ℕ} (hm : m ≤ tableBlocks info) :
    (range m).foldlM (scanBlock info (readHeader info guid specs)
      (storeAll (tableWrites info guid specs) d)) ⟨crcNew, 0, []⟩ =
      .ok ⟨crcAfter info.blockSize specs m, m * entriesPerBlock info.blockSize,
        scanned specs (m * entriesPerBlock info.blockSize)⟩ := by
  induction m with
  | zero =>
    rw [zero_mul]
    rfl
  | succ _ ih =>
    rw [foldlM_range_succ (ih (by omega)), scanBlock_written h hlen hread (by omega)]

/-- **A table that was written reads back**, if it has no more partitions than are read. -/
theorem read_written : read info (storeAll (tableWrites info guid specs) d) =
    .ok ⟨guid, 2 + tableBlocks info, info.blocks - 1 - tableBlocks info - 1,
      specs.mapIdx PartitionSpec.expected⟩ := by
  obtain ⟨hs, hblocks⟩ := sized_of_validateDevice h.device
  have hheader : readExact info 1 (storeAll (tableWrites info guid specs) d) =
      .ok (ofBytes info.blockSize (mainHeader info guid specs).encode).bytes := by
    rw [readExact_run (by omega), data_header h]
    rw [bad_storeAll]
    exact hread _ (by omega)
  have hscan := scanBlocks_written h hlen hread (le_refl (tableBlocks info))
  have hall : scanned specs (tableBlocks info * entriesPerBlock info.blockSize) =
      specs.mapIdx PartitionSpec.expected := by
    rw [hs.entries, scanned, take_of_length_le h.length_le]
  have hcrc : crcFinish (crcAfter info.blockSize specs (tableBlocks info)) =
      entriesCrc32 info.blockSize specs := by
    rw [entriesCrc32, hs.count, crcAfter]
  rw [hall] at hscan
  refine (bind_of_eq_ok h.device _).trans ((bind_of_eq_ok hheader _).trans
    ((bind_of_eq_ok (parseHeader_main h) _).trans ((bind_of_eq_ok hscan _).trans ?_)))
  rw [hcrc]
  exact if_neg (not_not.mpr rfl)

end

/-! ### Names -/

/-- A name of printable characters: at most 36 of them, all in ASCII, and none of them zero. -/
def PlainName (name : List Char) : Prop :=
  name.length ≤ 36 ∧ ∀ c ∈ name, 0 < c.toNat ∧ c.toNat < 128

theorem flatMap_encodeUtf16 {name : List Char} (h : ∀ c ∈ name, 0 < c.toNat ∧ c.toNat < 128) :
    name.flatMap encodeUtf16 = name.map Char.toNat := by
  induction name with
  | nil => rfl
  | cons c _ ih =>
    have hc := (h c mem_cons_self).2
    rw [flatMap_cons, ih fun c hc => h c (mem_cons_of_mem _ hc), encodeUtf16, if_pos (by omega)]
    rfl

theorem map_getD_range {u : List ℕ} (h : u.length ≤ n) :
    (range n).map (fun i => u.getD i 0) = u ++ replicate (n - u.length) 0 := by
  refine ext_getElem? fun i => ?_
  rw [getElem?_map, getElem?_append]
  by_cases hi : i < n
  · rw [getElem?_range hi, map_some]
    by_cases hu : i < u.length
    · rw [if_pos hu, getD_eq_getElem _ _ hu, getElem?_eq_getElem hu]
    · rw [if_neg hu, getD_eq_default _ _ (not_lt.mp hu), getElem?_replicate, if_pos (by omega)]
  · rw [getElem?_eq_none (by simpa using hi), if_neg (by omega),
      getElem?_eq_none (by rw [length_replicate]; omega)]
    rfl

/-- A name is read up to its end. -/
theorem parseName_append {u : List ℕ} (h : ∀ x ∈ u, 0 < x ∧ x < 128) :
    parseName (u ++ replicate k 0) = u.map UInt8.ofNat := by
  induction u with
  | nil =>
    cases k with
    | zero | succ => rfl
  | cons x _ ih =>
    obtain ⟨hpos, hlt⟩ := h x mem_cons_self
    rw [cons_append, parseName, if_neg (by omega), if_pos (by omega),
      ih fun y hy => h y (mem_cons_of_mem _ hy)]
    rfl

theorem utf8_of_plain {name : List Char} (h : ∀ c ∈ name, 0 < c.toNat ∧ c.toNat < 128) :
    utf8 name = (name.map Char.toNat).map UInt8.ofNat := by
  induction name with
  | nil => rfl
  | cons c _ ih =>
    have hc := (h c mem_cons_self).2
    have hc : c.val.toNat ≤ 127 := le_of_lt_succ hc
    have hbyte : String.utf8EncodeChar c = [UInt8.ofNat c.toNat] := by
      simp only [String.utf8EncodeChar, if_pos hc]
      rfl
    have ih := ih fun c hc => h c (mem_cons_of_mem _ hc)
    rw [utf8] at ih ⊢
    rw [flatMap_cons, ih, hbyte]
    rfl

/-- **A plain name is read back.** -/
theorem name_expected (h : PlainName s.name) {index : ℕ} : (s.expected index).name = s.name := by
  obtain ⟨hlen, hplain⟩ := h
  have hunits : ∀ x ∈ s.name.map Char.toNat, 0 < x ∧ x < 128 := by
    intro x hx
    obtain ⟨c, hc, rfl⟩ := mem_map.mp hx
    exact hplain c hc
  have hcodes : ((range 36).map fun i =>
      (s.name.flatMap encodeUtf16).getD i 0 % 256 ^ 2) =
      s.name.map Char.toNat ++ replicate (36 - (s.name.map Char.toNat).length) 0 := by
    rw [flatMap_encodeUtf16 hplain, ← map_getD_range (by rwa [length_map])]
    refine map_congr_left fun i _ => mod_eq_of_lt ?_
    by_cases hi : i < (s.name.map Char.toNat).length
    · rw [getD_eq_getElem _ _ hi]
      exact (hunits _ (getElem_mem hi)).2.trans (by decide)
    · rw [getD_eq_default _ _ (not_lt.mp hi)]
      decide
  have hbytes : (s.expected index).nameBytes = utf8 s.name := by
    show parseName _ = _
    rw [hcodes, parseName_append hunits, utf8_of_plain hplain]
  rw [Partition.name, hbytes, fromUtf8_utf8]
  rfl

/-! ### What the reader accepts -/

/-- Two partitions of a table. -/
structure Partition.Apart (p q : Partition) : Prop where
  unique_ne : p.uniqueGuid ≠ q.uniqueGuid
  blocks : p.lastLba < q.firstLba ∨ q.lastLba < p.firstLba

/-- **The partitions of the entries so far.** -/
structure Scan.Sound (header : Header) (s : Scan) : Prop where
  length_le : s.partitions.length ≤ maxPartitions
  usable : ∀ p ∈ s.partitions, header.firstUsableLba ≤ p.firstLba ∧ p.firstLba ≤ p.lastLba ∧
    p.lastLba ≤ header.lastUsableLba
  apart : s.partitions.Pairwise Partition.Apart

theorem order_of_parsePartition {entry : List UInt8} {n : ℕ} {p : Partition}
    (h : parsePartition entry n = .ok p) : p.firstLba ≤ p.lastLba := by
  simp only [parsePartition] at h
  split_ifs at h with hbad
  cases h
  dsimp only
  omega

theorem Scan.Sound.scanEntry {header : Header} {entry : List UInt8} {s t : Scan}
    (hs : s.Sound header) (h : scanEntry header entry s = .ok t) : t.Sound header := by
  rw [Gpt.scanEntry] at h
  by_cases hzero : isZeroGuid (entry.take 16) = true
  · rw [if_pos hzero] at h
    cases h
    exact ⟨hs.length_le, hs.usable, hs.apart⟩
  rw [if_neg hzero] at h
  obtain ⟨p, hparse, h⟩ := exists_of_bind_eq_ok h
  have horder := order_of_parsePartition hparse
  split_ifs at h with hrange hmax hclash
  cases h
  refine ⟨?_, ?_, pairwise_append.mpr ⟨hs.apart, pairwise_singleton _ _, ?_⟩⟩
  · rw [length_append]
    exact not_le.mp hmax
  · exact forall_mem_append.mpr ⟨hs.usable, forall_mem_singleton.mpr (by omega)⟩
  · intro r hr q hq
    rw [mem_singleton.mp hq]
    have hno : ¬p.clash r = true := fun hc => hclash (any_eq_true.mpr ⟨r, hr, hc⟩)
    rw [Partition.clash, Gpt.clash, decide_eq_true_iff, not_or] at hno
    exact ⟨Ne.symm hno.1, by omega⟩

/-- The header and the entries of a table that was read. -/
theorem sound_of_read {t : Table} (h : read info d = .ok t) : ∃ (header : Header) (s : Scan),
    2 ≤ header.firstUsableLba ∧ header.lastUsableLba < info.blocks - 1 ∧ s.Sound header ∧
      t.partitions = s.partitions := by
  obtain ⟨-, -, h⟩ := exists_of_bind_eq_ok h
  obtain ⟨block, -, h⟩ := exists_of_bind_eq_ok h
  obtain ⟨header, hparse, h⟩ := exists_of_bind_eq_ok h
  obtain ⟨s, hscan, h⟩ := exists_of_bind_eq_ok h
  have hs : s.Sound header := by
    refine foldlM_keeps (P := Scan.Sound header) ?_
      ⟨zero_le _, forall_mem_nil _, .nil⟩ hscan
    intro s k u hs hu
    obtain ⟨block, -, hu⟩ := exists_of_bind_eq_ok hu
    refine foldlM_keeps (P := Scan.Sound header) (fun s a v hs hv => hs.scanEntry hv) ?_ hu
    exact ⟨hs.length_le, hs.usable, hs.apart⟩
  simp only [parseHeader] at hparse
  split_ifs at h hparse
  cases h
  cases hparse
  exact ⟨_, s, by dsimp only; omega, by dsimp only; omega, hs, rfl⟩

/-- **No more partitions than `MAX_PARTITIONS`** are ever returned. -/
theorem read_length {t : Table} (h : read info d = .ok t) :
    t.partitions.length ≤ maxPartitions := by
  obtain ⟨header, s, -, -, hs, hps⟩ := sound_of_read h
  exact hps ▸ hs.length_le

/-! ### The round trip -/

/-- **A table returns specifications**: its partitions are those specified, in order, each with
its position as its index. -/
def Returns (t : Table) (specs : List PartitionSpec) : Prop :=
  t.partitions.length = specs.length ∧ ∀ i p s, t.partitions[i]? = some p → specs[i]? = some s →
    p.index = i + 1 ∧ p.typeGuid = s.typeGuid ∧ p.uniqueGuid = s.uniqueGuid ∧
    p.firstLba = s.firstLba ∧ p.lastLba = s.lastLba ∧ p.attributes = s.attributes ∧
    p.name = s.name

/-- **The round trip**: what was written without an error, on a device without faults and with
plain names, is read back exactly if there are at most `MAX_PARTITIONS` partitions. -/
theorem read_write_iff (hd : d.Reliable) (hread : ∀ lba < info.blocks, d.bad lba = false)
    (hnames : ∀ s ∈ specs, PlainName s.name) (hwrite : (write info guid specs d).1 = .ok ()) :
    (∃ t, read info (write info guid specs d).2 = .ok t ∧ Returns t specs) ↔
      specs.length ≤ maxPartitions := by
  constructor
  · rintro ⟨t, ht, hlen, -⟩
    rw [← hlen]
    exact read_length ht
  · intro hlen
    have hacc := accepted_of_write hwrite
    rw [write_run hd hacc]
    refine ⟨_, read_written hacc hlen hread, length_mapIdx, fun i p s hp hs => ?_⟩
    rw [getElem?_mapIdx, hs, map_some] at hp
    obtain rfl := some.inj hp
    exact ⟨rfl, rfl, rfl, rfl, rfl, rfl, name_expected (hnames s (mem_of_getElem? hs))⟩

/-- A device of 200 blocks of 512 bytes. -/
def smallDevice : DeviceInfo := ⟨512, 200, false, by decide⟩

def blankDisk : Disk smallDevice.blockSize := ⟨fun _ => Block.ofBytes _ [], fun _ => false, []⟩

/-- An identifier made of one byte. -/
def shortGuid (b : UInt8) : Guid := ⟨b :: List.replicate 15 0, rfl⟩

/-- Partitions of one block each, one after the other. -/
def manySpecs (n : ℕ) : List PartitionSpec :=
  (List.range n).map fun i =>
    ⟨shortGuid 1, shortGuid (UInt8.ofNat (i + 1)), 34 + i, 34 + i, 0, ['p']⟩

theorem accepted_manySpecs (hn : n = 2 ∨ n = 33) :
    Accepted smallDevice (shortGuid 7) (manySpecs n) := by
  rcases hn with rfl | rfl <;>
    exact ⟨by decide, rfl, by decide, by decide, by decide, by decide +kernel⟩

theorem plainName_manySpecs : ∀ s ∈ manySpecs n, PlainName s.name := by
  intro s hs
  obtain ⟨i, -, rfl⟩ := mem_map.mp hs
  have hplain : PlainName ['p'] := ⟨by decide, forall_mem_singleton.mpr (by decide)⟩
  exact hplain

/-- Two partitions are read back. -/
theorem read_write_iff_two : (write smallDevice (shortGuid 7) (manySpecs 2) blankDisk).1 = .ok () ∧
    ∃ t, read smallDevice (write smallDevice (shortGuid 7) (manySpecs 2) blankDisk).2 = .ok t ∧
      Returns t (manySpecs 2) := by
  have hd : blankDisk.Reliable := rfl
  have hwrite : (write smallDevice (shortGuid 7) (manySpecs 2) blankDisk).1 = .ok () := by
    rw [write_run hd (accepted_manySpecs (.inl rfl))]
  exact ⟨hwrite, (read_write_iff hd (fun _ _ => rfl) plainName_manySpecs hwrite).mpr
    (by decide)⟩

/-- **A table that is written and cannot be read**: 33 partitions. -/
theorem write_accepts_unreadable : blankDisk.Reliable ∧
    (∀ s ∈ manySpecs 33, PlainName s.name) ∧
    (write smallDevice (shortGuid 7) (manySpecs 33) blankDisk).1 = .ok () ∧
    ¬∃ t, read smallDevice (write smallDevice (shortGuid 7) (manySpecs 33) blankDisk).2 = .ok t ∧
      Returns t (manySpecs 33) := by
  have hd : blankDisk.Reliable := rfl
  refine ⟨hd, plainName_manySpecs, ?_, ?_⟩
  · rw [write_run hd (accepted_manySpecs (.inr rfl))]
  · rintro ⟨t, ht, hlen, -⟩
    have hle := read_length ht
    rw [hlen] at hle
    exact absurd hle (by decide)

/-- **Whatever a disk holds**, the partitions that are read are apart from each other, and none
has the blocks of the boot record or of a header. -/
theorem read_sound {t : Table} (h : read info d = .ok t) :
    t.partitions.Pairwise Partition.Apart ∧ ∀ p ∈ t.partitions,
      2 ≤ p.firstLba ∧ p.firstLba ≤ p.lastLba ∧ p.lastLba < info.blocks - 1 := by
  obtain ⟨header, s, hfirst, hlast, hs, hps⟩ := sound_of_read h
  rw [hps]
  refine ⟨hs.apart, fun p hp => ?_⟩
  have := hs.usable p hp
  omega

theorem read_sound_two : ∃ t, read smallDevice
    (storeAll (tableWrites smallDevice (shortGuid 7) (manySpecs 2)) blankDisk) = .ok t ∧
      t.partitions.Pairwise Partition.Apart :=
  have h := read_written (accepted_manySpecs (.inl rfl)) (by decide) fun _ _ => rfl
  ⟨_, h, (read_sound h).1⟩

end DunitOS.Gpt
