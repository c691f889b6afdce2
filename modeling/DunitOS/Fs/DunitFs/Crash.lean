import DunitOS.Fs.DunitFs.Commit

/-!
# Commits survive power cuts

A commit writes the inactive slot, then the primary superblock, then the backup one.
Cut it off after any number of these writes and mount again: the file system comes up
read-write, with the metadata of the cut-off commit if its primary superblock had been
written, and with the metadata published before it otherwise.

The invariant is `Published`: the primary superblock describes an intact
slot, and the backup one is damaged or not newer. It does not say that the backup
describes an intact slot, and it must not: after a cut between the two superblocks the
backup lags behind, and the next commit overwrites the slot it points to.
-/

namespace DunitOS.DunitFs

open SysLib Disk Vfs List Option Function DunitFs.Geometry Geometry Nat DunitFsError SuperBlock

/-- The layout of a partition. -/
abbrev Partition.geometry (p : Partition) : Geometry := Geometry.derive p.blocks

/-- The metadata of a file system: what a slot holds. -/
structure Meta where
  bitmap : List UInt8
  nodes : NodeTable

namespace Meta

def image (m : Meta) : List UInt8 := slotImage m.bitmap m.nodes

/-- The superblock that describes metadata in a slot. -/
def superBlock (m : Meta) (g : Geometry) (generation slot : ℕ) : SuperBlock :=
  { generation, activeSlot := slot, slotCrc := crc32 m.image, geom := g }

/-- The writes that publish metadata. -/
abbrev writes (m : Meta) (p : Partition) (g : Geometry) (generation slot : ℕ) :
    List (ℕ × Block blockSize) :=
  slotWrites p g slot m.image ++ publishWrites p.start (m.superBlock g generation slot)

end Meta

/-- Metadata that fills a slot exactly: the bitmap has its length and every path fits its
record. -/
structure Sized (g : Geometry) (m : Meta) : Prop where
  length_bitmap : m.bitmap.length = g.bitmapLen
  path_le : ∀ i n, m.nodes i = some n → byteLen n.path ≤ pathSize

variable {g : Geometry} {m : Meta}

theorem Mountable.sized (h : Mountable g m.bitmap m.nodes) : Sized g m :=
  ⟨h.length_bitmap, fun i n hn => (h.storable i n hn).path_le⟩

/-- **The disk holds a generation**: the primary superblock describes it, its slot is
intact, and the backup superblock describes nothing newer. -/
structure Published (p : Partition) (g : Geometry) (d : Device) (generation slot : ℕ)
    (m : Meta) : Prop where
  readable : ∀ b < p.blocks, d.bad (p.start + b) = false
  generation_lt : generation < 2 ^ 64
  slot_le : slot ≤ 1
  sized : Sized g m
  primary : d.data (p.start + primarySb) = (m.superBlock g generation slot).encode
  slot_data : ∀ i < g.slotBlocks, d.data (p.start + g.slotStart slot + i) = slotBlock m.image i
  backup_le : ∀ sb, SuperBlock.decode (d.data (p.start + backupSb)) g = some sb →
    sb.generation ≤ generation

/-! ### Reading a slot back -/

section

variable {p : Partition} {g : Geometry} {d : Device}

theorem readPartitionBlock_ok (hread : ∀ b < p.blocks, d.bad (p.start + b) = false) {b : ℕ}
    (hb : b < p.blocks) : readPartitionBlock p b d = .ok (d.data (p.start + b)) := by
  rw [readPartitionBlock, if_neg (not_le.mpr hb), Disk.read, hread b hb]
  rfl

/-- A readable run of blocks reads as the concatenation of its blocks. -/
theorem readBlocks_ok (hread : ∀ b < p.blocks, d.bad (p.start + b) = false) {base : ℕ} {n : ℕ}
    (hn : base + n ≤ p.blocks) : readBlocks p base n d =
      .ok ((List.range n).flatMap fun i => (d.data (p.start + base + i)).bytes) := by
  induction n with
  | zero => rfl
  | succ n ih =>
    rw [readBlocks, ih (by omega), readPartitionBlock_ok hread (show base + n < p.blocks by omega),
      range_succ, flatMap_append, flatMap_singleton, add_assoc]
    rfl

theorem length_image (hg : Fits g) (hm : Sized g m) :
    m.image.length = blockSize * g.slotBlocks := by
  have hlen := length_slotImage hm.length_bitmap hm.path_le
  have hslot : g.slotBlocks = g.bitmapBlocks + 32 := hg.slot_eq
  have hbl : g.bitmapLen = g.bitmapBlocks * 512 := rfl
  rw [Meta.image, hlen, hslot, hbl]
  show g.bitmapBlocks * 512 + 256 * 64 = 512 * (g.bitmapBlocks + 32)
  omega

variable {generation slot : ℕ}

/-- **The slot of a published generation reads back.** -/
theorem readSlot_published (hg : Fits g) (hp : p.blocks = g.totalBlocks)
    (h : Published p g d generation slot m) : readSlot p g slot d = .ok m.image := by
  have hbounds := slotStart_bounds hg slot
  have hdata := hg.data_lt
  have hlen := length_image hg h.sized
  rw [readSlot, readBlocks_ok h.readable (by omega)]
  have hblocks : ∀ i ∈ range g.slotBlocks,
      (d.data (p.start + g.slotStart slot + i)).bytes =
        slice m.image (blockSize * i) blockSize := by
    intro i hi
    have hi := mem_range.mp hi
    have hfit : blockSize * i + blockSize ≤ m.image.length := by
      rw [hlen, ← mul_succ]
      exact mul_le_mul_left _ hi
    rw [h.slot_data i hi, slotBlock, Block.bytes_ofBytes (length_slice _ hfit)]
  rw [flatMap_congr hblocks, flatMap_slice_range _ _ _ (le_of_eq hlen.symm), ← hlen, take_length]

/-! ### What the mount finds -/

theorem decode_superBlock (hg : Fits g) (hgen : generation < 2 ^ 64) (hslot : slot ≤ 1) :
    decode (m.superBlock g generation slot).encode g =
      some (m.superBlock g generation slot) := by
  have h1 := hg.slot1_eq
  have hd := hg.data_eq
  have hlt := hg.data_lt
  have htotal := hg.total_lt
  exact decode_encode hgen hslot htotal
    (show g.dataStart < 2 ^ 64 by omega) (show g.slot0Start ≤ g.dataStart by omega)
    (show g.slot1Start ≤ g.dataStart by omega)

/-- The primary superblock describes what is published. -/
theorem candidate_published (hg : Fits g) (hp : p.blocks = g.totalBlocks)
    (h : Published p g d generation slot m) :
    candidate p g d primarySb = some (m.superBlock g generation slot) := by
  have hdata := hg.data_lt
  have hlt : primarySb < p.blocks := by
    show 0 < _
    omega
  rw [candidate, readPartitionBlock_ok h.readable hlt]
  show decode (d.data (p.start + primarySb)) g = _
  rw [h.primary, decode_superBlock hg h.generation_lt h.slot_le]

/-- **A published generation is the first that the mount tries.** -/
theorem validSlots_published (hg : Fits g) (hp : p.blocks = g.totalBlocks)
    (h : Published p g d generation slot m) :
    ∃ rest, validSlots p g d = (m.superBlock g generation slot, m.image) :: rest := by
  have hbounds := slotStart_bounds hg 0
  have hdata := hg.data_lt
  have hlt1 : backupSb < p.blocks := by
    show 1 < _
    omega
  have hprim := candidate_published hg hp h
  have hslot : withSlot p g d (m.superBlock g generation slot) =
      some (m.superBlock g generation slot, m.image) := by
    have hread : readSlot p g (m.superBlock g generation slot).activeSlot d = .ok m.image :=
      readSlot_published hg hp h
    rw [withSlot, hread]
    exact if_neg (not_not.mpr rfl)
  have hback : ∀ sb, candidate p g d backupSb = some sb → sb.generation ≤ generation := by
    intro sb hsb
    rw [candidate, readPartitionBlock_ok h.readable hlt1] at hsb
    exact h.backup_le sb hsb
  have hwith : ∀ {sb : SuperBlock} {v : SuperBlock × List UInt8}, withSlot p g d sb = some v →
      v.1 = sb := by
    intro sb v hv
    unfold withSlot at hv
    split at hv
    · cases hv
    · split_ifs at hv
      cases hv
      rfl
  -- at most the backup follows, and it is not newer
  unfold validSlots
  rcases hb : candidate p g d backupSb with _ | sb
  · refine ⟨[], ?_⟩
    simp only [filterMap_cons, hprim, hb, filterMap_nil, hslot]
    exact mergeSort_singleton _
  · rcases hw : withSlot p g d sb with _ | v
    · refine ⟨[], ?_⟩
      simp only [filterMap_cons, hprim, hb, filterMap_nil, hslot, hw]
      exact mergeSort_singleton _
    · refine ⟨[v], ?_⟩
      simp only [filterMap_cons, hprim, hb, filterMap_nil, hslot, hw]
      refine mergeSort_of_pairwise ?_
      have hle : v.1.generation ≤ generation := by
        rw [hwith hw]
        exact hback sb hb
      simpa [Meta.superBlock] using hle

/-- Where a slot that the mount tries comes from. -/
theorem mem_validSlots {v : SuperBlock × List UInt8} (h : v ∈ validSlots p g d) :
    (candidate p g d primarySb = some v.1 ∨ candidate p g d backupSb = some v.1) ∧
      readSlot p g v.1.activeSlot d = .ok v.2 := by
  rw [validSlots, mem_mergeSort, mem_filterMap] at h
  obtain ⟨sb, hsb, hv⟩ := h
  obtain ⟨r, hr, hcand⟩ := mem_filterMap.mp hsb
  unfold withSlot at hv
  split at hv
  · cases hv
  · rename_i image hread
    split_ifs at hv
    cases hv
    refine ⟨?_, hread⟩
    simp only [mem_cons, not_mem_nil, or_false] at hr
    rcases hr with rfl | rfl
    · exact .inl hcand
    · exact .inr hcand

/-- When the backup superblock agrees with the primary one, the mount tries nothing but what is
published. -/
theorem eq_of_mem_validSlots (hg : Fits g) (hp : p.blocks = g.totalBlocks)
    (h : Published p g d generation slot m)
    (hback : candidate p g d backupSb = some (m.superBlock g generation slot))
    {v : SuperBlock × List UInt8} (hv : v ∈ validSlots p g d) :
    v = (m.superBlock g generation slot, m.image) := by
  obtain ⟨hcand, hslot⟩ := mem_validSlots hv
  have hsb : v.1 = m.superBlock g generation slot := by
    rcases hcand with hcand | hcand
    · rw [candidate_published hg hp h] at hcand
      exact (some.inj hcand).symm
    · rw [hback] at hcand
      exact (some.inj hcand).symm
  rw [hsb] at hslot
  exact Prod.ext hsb (Except.ok.inj (hslot.symm.trans (readSlot_published hg hp h)))

/-- **A published generation mounts read-write.** -/
theorem load_published (hgeom : validateGeometry p p.geometry = .ok ())
    (h : Published p p.geometry d generation slot m)
    (hm : Mountable p.geometry m.bitmap m.nodes) :
    load p d = .ok (ofTable p p.geometry
      (m.superBlock p.geometry generation slot) m.bitmap m.nodes false) := by
  have hg := fits_of_validateGeometry hgeom
  obtain ⟨rest, hvalid⟩ := validSlots_published hg rfl h
  have hstrict := fromSlot_slotImage p
    (m.superBlock (derive p.blocks) generation slot) hg.total_lt hm
  unfold load
  simp only [hgeom, hvalid, findSome?_cons, Meta.image, hstrict, Except.toOption]

end

/-! ### What a prefix of a commit leaves behind -/

/-- A file system with new metadata to publish. -/
def stage (fs : DunitFs) (m : Meta) : DunitFs :=
  { fs with bitmap := m.bitmap, nodes := m.nodes, dirty := true }

/-- A mounted file system agrees with what is on its disk. -/
structure Mounted (p : Partition) (g : Geometry) (fs : DunitFs) (generation slot : ℕ) : Prop where
  part_eq : fs.part = p
  geom_eq : fs.geom = g
  generation_eq : fs.generation = generation
  slot_eq : fs.activeSlot = slot
  writable : fs.readOnly = false

variable {r : ℕ}

section

variable {p : Partition} {g : Geometry} {d : Device} {fs : DunitFs} {generation slot : ℕ}
  {m m' : Meta}

theorem commitWrites_stage (h : Mounted p g fs generation slot) (hgen : generation + 1 < 2 ^ 64) :
    commitWrites (stage fs m') = m'.writes p g (generation + 1) (1 - slot) := by
  obtain ⟨rfl, rfl, rfl, rfl, -⟩ := h
  have hnext : nextSuperBlock (stage fs m') =
      m'.superBlock fs.geom (fs.generation + 1) (1 - fs.activeSlot) := by
    have hmod : (fs.generation + 1) % 2 ^ 64 = fs.generation + 1 := mod_eq_of_lt hgen
    show SuperBlock.mk ((fs.generation + 1) % 2 ^ 64) _ _ _ = _
    rw [hmod]
    rfl
  rw [commitWrites, hnext]
  rfl

theorem mem_slotWrites {w : ℕ × Block blockSize} {image : List UInt8}
    (h : w ∈ slotWrites p g slot image) :
    ∃ i < g.slotBlocks, w.1 = p.start + g.slotStart slot + i := by
  obtain ⟨i, hi, rfl⟩ := mem_map.mp h
  exact ⟨i, mem_range.mp hi, rfl⟩

section

variable (hg : Fits g)

include hg

/-- **Writing part of the inactive slot** changes nothing the mount depends on. -/
theorem Published.take_slot (h : Published p g d generation slot m) (k : ℕ)
    (image : List UInt8) : Published p g
      (storeAll ((slotWrites p g (1 - slot) image).take k) d) generation slot m := by
  have hbounds := slotStart_bounds hg (1 - slot)
  have hmem : ∀ w ∈ (slotWrites p g (1 - slot) image).take k,
      ∃ i < g.slotBlocks, w.1 = p.start + g.slotStart (1 - slot) + i := fun w hw =>
    mem_slotWrites (mem_of_mem_take hw)
  have hsb : ∀ r ≤ 1, (storeAll ((slotWrites p g (1 - slot) image).take k) d).data
      (p.start + r) = d.data (p.start + r) := by
    intro r hr
    refine data_storeAll_of_forall_ne _ _ fun w hw => ?_
    obtain ⟨i, hi, hwi⟩ := hmem w hw
    omega
  refine ⟨?_, h.generation_lt, h.slot_le, h.sized, ?_, fun j hj => ?_, fun sb hdec => ?_⟩
  · rw [bad_storeAll]
    exact h.readable
  · rw [hsb primarySb (by decide)]
    exact h.primary
  · rw [data_storeAll_of_forall_ne _ _ fun w hw => ?_, h.slot_data j hj]
    obtain ⟨i, hi, hwi⟩ := hmem w hw
    have hne := slotStart_disjoint hg h.slot_le hi hj
    omega
  · rw [hsb backupSb (le_refl 1)] at hdec
    exact h.backup_le sb hdec

/-- The blocks of a slot after writing the slot and some superblocks. -/
theorem data_slot_of_writes (image : List UInt8) {ws : List (ℕ × Block blockSize)}
    (hws : ∀ w ∈ ws, w.1 = p.start ∨ w.1 = p.start + 1) (d : Device) {i : ℕ}
    (hi : i < g.slotBlocks) :
    (storeAll (slotWrites p g slot image ++ ws) d).data (p.start + g.slotStart slot + i) =
      slotBlock image i := by
  have hbounds := slotStart_bounds hg slot
  rw [storeAll_append, data_storeAll_of_forall_ne _ _ fun w hw => ?_]
  · exact data_storeAll_range _ _ _ _ hi
  · rcases hws w hw with h | h <;> omega

/-- **Writing a slot and both superblocks** publishes a generation, whatever the disk
held before. -/
theorem published_of_writes (hread : ∀ b < p.blocks, d.bad (p.start + b) = false)
    (hgen : generation < 2 ^ 64) (hslot : slot ≤ 1) (hm : Sized g m) :
    Published p g (storeAll (m.writes p g generation slot) d) generation slot m := by
  refine ⟨?_, hgen, hslot, hm, ?_, fun i hi => ?_, fun sb hsb => ?_⟩
  · rw [bad_storeAll]
    exact hread
  · rw [storeAll_append]
    exact (data_store_of_ne _ _ (show p.start + 0 ≠ p.start + 1 by omega)).trans
      (data_store_self _ _ _)
  · refine data_slot_of_writes hg _ (fun w hw => ?_) d hi
    rcases mem_cons.mp hw with rfl | hw
    · exact .inl rfl
    · obtain rfl := mem_singleton.mp hw
      exact .inr rfl
  · have hb : (storeAll (publishWrites p.start (m.superBlock g generation slot))
        (storeAll (slotWrites p g slot m.image) d)).data (p.start + backupSb) =
        (m.superBlock g generation slot).encode := data_store_self _ _ _
    rw [storeAll_append, hb, decode_superBlock hg hgen hslot] at hsb
    cases hsb
    exact le_refl _

/-- After a slot and both superblocks are written, both superblocks read as written. -/
theorem candidate_of_writes (hp : p.blocks = g.totalBlocks)
    (hread : ∀ b < p.blocks, d.bad (p.start + b) = false) (hgen : generation < 2 ^ 64)
    (hslot : slot ≤ 1) (m : Meta) (hr : r = primarySb ∨ r = backupSb) :
    candidate p g (storeAll (m.writes p g generation slot) d) r =
      some (m.superBlock g generation slot) := by
  have hbounds := slotStart_bounds hg 0
  have hdata := hg.data_lt
  have hlt : r < p.blocks := by
    have hr : r = 0 ∨ r = 1 := hr
    omega
  have hblock : (storeAll (m.writes p g generation slot) d).data (p.start + r) =
      (m.superBlock g generation slot).encode := by
    rw [storeAll_append]
    rcases hr with rfl | rfl
    · exact (data_store_of_ne _ _ (show p.start + 0 ≠ p.start + 1 by omega)).trans
        (data_store_self _ _ _)
    · exact data_store_self _ _ _
  have hread' : ∀ b < p.blocks,
      (storeAll (m.writes p g generation slot) d).bad (p.start + b) = false := by
    rw [bad_storeAll]
    exact hread
  rw [candidate, readPartitionBlock_ok hread' hlt, hblock]
  exact decode_superBlock hg hgen hslot

/-- **Writing the slot and the primary superblock** publishes the new generation as well:
the backup still describes the generation before, or an older one. -/
theorem Published.write_primary (h : Published p g d generation slot m)
    (hgen : generation + 1 < 2 ^ 64) (hm : Sized g m') :
    Published p g (storeAll (slotWrites p g (1 - slot) m'.image ++
      [(p.start + primarySb, (m'.superBlock g (generation + 1) (1 - slot)).encode)]) d)
      (generation + 1) (1 - slot) m' := by
  refine ⟨?_, hgen, sub_le _ _, hm, ?_, fun i hi => ?_, fun sb hsb => ?_⟩
  · rw [bad_storeAll]
    exact h.readable
  · rw [storeAll_append]
    exact data_store_self _ _ _
  · refine data_slot_of_writes hg _ (fun w hw => ?_) d hi
    obtain rfl := mem_singleton.mp hw
    exact .inl rfl
  · have hold := (h.take_slot hg g.slotBlocks m'.image).backup_le sb
    have htake : (slotWrites p g (1 - slot) m'.image).take g.slotBlocks =
        slotWrites p g (1 - slot) m'.image := take_of_length_le (by simp [slotWrites])
    rw [htake] at hold
    rw [storeAll_append, storeAll_cons, storeAll_nil,
      data_store_of_ne _ _ (show p.start + backupSb ≠ p.start + primarySb by
        show p.start + 1 ≠ p.start + 0
        omega)] at hsb
    exact le_succ_of_le (hold hsb)

/-- What is published after `k` writes of a commit: the generation, the slot and the
metadata. -/
def afterWrites (g : Geometry) (generation slot : ℕ) (m m' : Meta) (k : ℕ) : ℕ × ℕ × Meta :=
  if g.slotBlocks < k then (generation + 1, 1 - slot, m') else (generation, slot, m)

/-- **Every prefix of a commit leaves a published generation**: the new one once the
primary superblock is written, the old one before. -/
theorem Published.take_commit (h : Published p g d generation slot m)
    (hgen : generation + 1 < 2 ^ 64) (hm : Sized g m') (k : ℕ) :
    Published p g (storeAll ((m'.writes p g (generation + 1) (1 - slot)).take k) d)
      (afterWrites g generation slot m m' k).1 (afterWrites g generation slot m m' k).2.1
      (afterWrites g generation slot m m' k).2.2 := by
  have hlen : (slotWrites p g (1 - slot) m'.image).length = g.slotBlocks := by simp [slotWrites]
  unfold afterWrites
  split_ifs with hk
  · rw [take_append, hlen, take_of_length_le (by omega)]
    obtain hk1 | hk2 : k - g.slotBlocks = 1 ∨ 2 ≤ k - g.slotBlocks := by omega
    · rw [hk1]
      exact h.write_primary hg hgen hm
    · rw [take_of_length_le (show (publishWrites p.start _).length ≤ _ from hk2)]
      exact published_of_writes hg h.readable hgen (sub_le _ _) hm
  · rw [take_append_of_le_length (by omega)]
    exact h.take_slot hg k m'.image

end

end

/-! ### A formatted partition -/

/-- The metadata of an empty file system. -/
def emptyMeta (g : Geometry) : Meta := ⟨emptyBitmap g, fun _ => none⟩

theorem mountable_emptyMeta (g : Geometry) :
    Mountable g (emptyMeta g).bitmap (emptyMeta g).nodes := by
  refine ⟨?_, fun i n hn => ?_, ?_⟩
  · show (emptyBitmap g).length = g.bitmapLen
    rw [emptyBitmap, length_markUsed, length_replicate]
  · cases hn
  · simp [verifyConsistency, emptyMeta]

/-- The slot that `format` writes is the image of the empty metadata. -/
theorem image_emptyMeta (hg : Fits g) : (emptyMeta g).image =
    emptyBitmap g ++ List.replicate (g.slotBytes - g.bitmapLen) 0 := by
  have hslot : g.slotBlocks = g.bitmapBlocks + 32 := hg.slot_eq
  have hrest : g.slotBytes - g.bitmapLen = 16384 := by
    show g.slotBlocks * 512 - g.bitmapBlocks * 512 = 16384
    omega
  rw [hrest, Meta.image, slotImage]
  refine congrArg (emptyBitmap g ++ ·) ?_
  have hfun : (fun i => encodeEntry
      (if h : i < maxNodes then (emptyMeta g).nodes ⟨i, h⟩ else none)) =
        fun _ : ℕ => replicate nodeSize (0 : UInt8) := by
    funext i
    split_ifs <;> rfl
  rw [hfun, eq_replicate_iff]
  refine ⟨length_flatMap_range _ nodeSize maxNodes fun _ _ => length_replicate, fun b hb => ?_⟩
  obtain ⟨-, -, hb⟩ := mem_flatMap.mp hb
  exact eq_of_mem_replicate hb

def formatWrites (p : Partition) (g : Geometry) : List (ℕ × Block blockSize) :=
  ((List.range g.dataStart).map fun i =>
    (p.start + i, Block.ofBytes blockSize (List.replicate blockSize 0))) ++
  (slotWrites p g 0 (emptyMeta g).image ++ publishWrites p.start ((emptyMeta g).superBlock g 1 0))

variable {s : DunitFs × Device}

section

variable {p : Partition} {d : Device}
variable {d' : Device}

/-- **Formatting is the writing of its list.** -/
theorem format_eq (hgeom : validateGeometry p (derive p.blocks) = .ok ()) :
    format false p d = writeAll .io (formatWrites p (derive p.blocks)) d := by
  have hg := fits_of_validateGeometry hgeom
  have himage := image_emptyMeta hg
  have hdata := hg.data_lt
  have hbounds := slotStart_bounds hg 0
  generalize hgd : derive p.blocks = g at *
  have hp : p.blocks = g.totalBlocks := by rw [← hgd]; rfl
  have hsb : ∀ r ≤ 1, ∀ b, writePartitionBlock p r b = write .io (p.start + r) b := by
    intro r hr b
    rw [writePartitionBlock, if_neg (by omega)]
  have hzero : ∀ i ∈ range g.dataStart, i < p.blocks := by
    intro i hi
    have hi := mem_range.mp hi
    omega
  rw [format]
  simp only [Bool.false_eq_true, if_false, hgd, hgeom, ← himage]
  rw [forEach_writePartitionBlock p (fun i => i) _ hzero, writeSlot_eq hg hp,
    hsb primarySb (by decide), hsb backupSb (le_refl 1), formatWrites]
  have hrest : (writeAll io (slotWrites p g 0 (emptyMeta g).image) >>= fun _ =>
      writeAll io (publishWrites p.start ((emptyMeta g).superBlock g 1 0))) =
      writeAll .io ((emptyMeta g).writes p g 1 0) :=
    funext fun d => (writeAll_append _ _ _ d).symm
  rw [writeAll_append, ← hrest, publishWrites, writeAll_pair]
  rfl

section

variable (hgeom : validateGeometry p p.geometry = .ok ())

include hgeom

/-- **Formatting, run** on a device whose writes succeed. -/
theorem format_run
    (hd : d.Reliable) : format false p d = (.ok (), storeAll (formatWrites p p.geometry) d) := by
  rw [format_eq hgeom, writeAll_reliable hd]

/-- **A formatted partition holds generation 1, which is empty.** -/
theorem published_format
    (hread : ∀ b < p.blocks, d.bad (p.start + b) = false) :
    Published p p.geometry (storeAll (formatWrites p p.geometry) d) 1 0 (emptyMeta p.geometry) := by
  rw [formatWrites, storeAll_append]
  refine published_of_writes (fits_of_validateGeometry hgeom) ?_ (by decide) (by decide)
    (mountable_emptyMeta _).sized
  rw [bad_storeAll]
  exact hread

/-- Both superblocks of a formatted partition describe the empty metadata. -/
theorem candidate_format
    (hread : ∀ b < p.blocks, d.bad (p.start + b) = false)
    (hr : r = primarySb ∨ r = backupSb) :
    candidate p p.geometry (storeAll (formatWrites p p.geometry) d) r =
      some ((emptyMeta p.geometry).superBlock p.geometry 1 0) := by
  rw [formatWrites, storeAll_append]
  refine candidate_of_writes (fits_of_validateGeometry hgeom) rfl ?_ (by decide) (by decide) _ hr
  rw [bad_storeAll]
  exact hread

end

/-- An empty file system, as it is after mounting a formatted partition. -/
def emptyFs (p : Partition) : DunitFs :=
  ofTable p (Geometry.derive p.blocks)
    ((emptyMeta (Geometry.derive p.blocks)).superBlock (Geometry.derive p.blocks) 1 0)
    (emptyMeta (Geometry.derive p.blocks)).bitmap (emptyMeta (Geometry.derive p.blocks)).nodes false

@[simp] theorem emptyFs_geom (p : Partition) : (emptyFs p).geom = derive p.blocks := rfl

@[simp] theorem emptyFs_bitmap (p : Partition) :
    (emptyFs p).bitmap = (emptyMeta p.geometry).bitmap := by
  simp only [emptyFs, ofTable]

@[simp] theorem emptyFs_nodes (p : Partition) :
    (emptyFs p).nodes = (emptyMeta p.geometry).nodes := rfl

@[simp] theorem emptyFs_handles (p : Partition) : (emptyFs p).handles = [] := rfl

/-- Format a partition and mount it. -/
def boot (p : Partition) (d : Device) : Except DunitFsError (DunitFs × Device) :=
  match format false p d with
  | (.error e, _) => .error e
  | (.ok (), d') => (load p d').map fun fs => (fs, d')

/-- What can be read from a device can be read from one of the same contents on which
everything can be read. -/
theorem readPartitionBlock_heal (hdata : d'.data = d.data)
    (hbad : ∀ b, d'.bad b = false) {b : Block blockSize}
    (h : readPartitionBlock p r d = .ok b) : readPartitionBlock p r d' = .ok b := by
  unfold readPartitionBlock at h ⊢
  split_ifs at h ⊢
  unfold Disk.read at h ⊢
  rw [hdata, hbad, if_neg (by simp)]
  split_ifs at h
  exact h

theorem readBlocks_heal (hdata : d'.data = d.data) (hbad : ∀ b, d'.bad b = false)
    {base n : ℕ} {x : List UInt8} (h : readBlocks p base n d = .ok x) :
    readBlocks p base n d' = .ok x := by
  induction n generalizing x with
  | zero => exact h
  | succ n ih =>
    rw [readBlocks] at h ⊢
    obtain ⟨y, hx, h⟩ := Prog.exists_of_bind_eq_ok h
    obtain ⟨b, hb, h⟩ := Prog.exists_of_bind_eq_ok h
    rw [ih hx, readPartitionBlock_heal hdata hbad hb]
    exact h

theorem candidate_heal (hdata : d'.data = d.data)
    (hbad : ∀ b, d'.bad b = false) {sb : SuperBlock} (h : candidate p g d r = some sb) :
    candidate p g d' r = some sb := by
  unfold candidate at h ⊢
  rcases hb : readPartitionBlock p r d with e | b
  · rw [hb] at h
    cases h
  · rw [hb] at h
    rw [readPartitionBlock_heal hdata hbad hb]
    exact h

/-- When all slots the mount can try build one file system, this is what is mounted. -/
theorem load_eq_of_forall {fs fs' : DunitFs} (hall : ∀ v ∈ validSlots p p.geometry d,
      fromSlot p p.geometry v.1 v.2 = .ok fs) (h : load p d = .ok fs') :
    fs' = fs := by
  unfold load at h
  simp only at h
  split at h
  · cases h
  rcases hv : validSlots p (derive p.blocks) d with _ | ⟨v, rest⟩
  · rw [hv] at h
    cases h
  · rw [hv] at h hall
    have hv' := hall v mem_cons_self
    simp only [findSome?_cons, hv', Except.toOption] at h
    exact (Except.ok.inj h).symm

/-- **A partition that was formatted and mounted is empty**, whatever the device did on the
way. -/
theorem boot_eq_ok (h : boot p d = .ok s) :
    validateGeometry p p.geometry = .ok () ∧ s.1 = emptyFs p := by
  have hgeom : validateGeometry p (derive p.blocks) = .ok () := by
    rcases hv : validateGeometry p (derive p.blocks) with e | u
    · have hformat : format false p d = (.error e, d) := by
        rw [format]
        simp only [Bool.false_eq_true, if_false, hv]
        rfl
      rw [boot, hformat] at h
      cases h
    · rfl
  refine ⟨hgeom, ?_⟩
  have hg := fits_of_validateGeometry hgeom
  rw [boot, format_eq hgeom] at h
  obtain ⟨k, -, hdata, -, hk⟩ :=
    writeAll_prefix io (formatWrites p (derive p.blocks)) d
  rcases hrun : writeAll io (formatWrites p (derive p.blocks)) d
    with ⟨e | u, d'⟩
  · rw [hrun] at h
    cases h
  rw [hrun] at h hdata hk
  rw [hk rfl, take_length] at hdata
  rcases hload : load p d' with e | fs
  · simp only [hload] at h
    cases h
  simp only [hload] at h
  cases h
  -- compare with a device of the same contents that can be read everywhere
  let d0 : Device := { d with bad := fun _ => false }
  have hdata' : (storeAll (formatWrites p (derive p.blocks)) d0).data = d'.data :=
    (data_storeAll_congr _ (show d0.data = d.data from rfl)).trans hdata.symm
  have hbad' : ∀ b, (storeAll (formatWrites p (derive p.blocks)) d0).bad b = false := by
    rw [bad_storeAll]
    exact fun _ => rfl
  have hpub := published_format (d := d0) hgeom fun _ _ => rfl
  refine load_eq_of_forall (fun v hv => ?_) hload
  obtain ⟨hcand, hslot⟩ := mem_validSlots hv
  have hsb : v.1 = (emptyMeta (derive p.blocks)).superBlock (derive p.blocks) 1 0 := by
    have hformat := fun r hr => candidate_format (d := d0) (r := r) hgeom (fun _ _ => rfl) hr
    rcases hcand with hcand | hcand
    · have hheal := candidate_heal hdata' hbad' hcand
      rw [hformat primarySb (.inl rfl)] at hheal
      exact (some.inj hheal).symm
    · have hheal := candidate_heal hdata' hbad' hcand
      rw [hformat backupSb (.inr rfl)] at hheal
      exact (some.inj hheal).symm
  have himage : v.2 = (emptyMeta (derive p.blocks)).image := by
    rw [hsb] at hslot
    have hread := readSlot_published hg rfl hpub
    exact Except.ok.inj ((readBlocks_heal hdata' hbad' hslot).symm.trans hread)
  rw [hsb, himage]
  exact fromSlot_slotImage p _ hg.total_lt (mountable_emptyMeta _)

end

/-! ### Runs of commits and power cuts -/

/-- What can happen to new metadata: it is committed, or the power goes after `k` writes
of the commit and the partition is mounted again. -/
inductive CommitEvent where
  | full (m : Meta)
  | cut (m : Meta) (k : ℕ)

namespace CommitEvent

def metadata : CommitEvent → Meta
  | full m => m
  | cut m _ => m

/-- One event, from a mounted file system and its disk. -/
def step (p : Partition) (clock : ℕ → UInt64) (s : DunitFs × Device) :
    CommitEvent → Except DunitFsError (DunitFs × Device)
  | full m =>
    let w := (commit ⟨stage s.1 m, s.2, clock⟩).2
    .ok (w.fs, w.disk)
  | cut m k =>
    let d := (commit ⟨stage s.1 m, s.2.cutAfter k, clock⟩).2.disk.powerUp
    (load p d).map fun fs => (fs, d)

/-- The metadata an event leaves published, given what was published before. -/
def publishes (g : Geometry) (before : Meta) : CommitEvent → Meta
  | full m => m
  | cut m k => if g.slotBlocks < k then m else before

theorem publishes_cut (before m : Meta) (k : ℕ) :
    (cut m k).publishes g before = if g.slotBlocks < k then m else before := rfl

end CommitEvent

def runCommits (p : Partition) (clock : ℕ → UInt64) (s : DunitFs × Device)
    (es : List CommitEvent) : Except DunitFsError (DunitFs × Device) :=
  es.foldlM (CommitEvent.step p clock) s

/-- The metadata published after a run from a formatted partition. -/
def lastPublished (g : Geometry) (es : List CommitEvent) : Meta :=
  es.foldl (CommitEvent.publishes g) (emptyMeta g)

/-- **The invariant of a run**: the disk holds a generation, and the mounted file system
agrees with it. -/
structure RunInv (p : Partition) (g : Geometry) (s : DunitFs × Device) (generation : ℕ)
    (m : Meta) : Prop where
  reliable : s.2.Reliable
  mountable : Mountable g m.bitmap m.nodes
  holds : ∃ slot, Published p g s.2 generation slot m ∧ Mounted p g s.1 generation slot

section

variable {p : Partition} (hgeom : validateGeometry p p.geometry = .ok ())
variable {d : Device} {generation slot : ℕ} {m : Meta} {fs : DunitFs}
include hgeom

/-- Mounting a published generation gives a file system that agrees with the disk. -/
theorem mounted_of_published (h : Published p p.geometry d generation slot m)
    (hm : Mountable p.geometry m.bitmap m.nodes) :
    ∃ fs, load p d = .ok fs ∧ Mounted p p.geometry fs generation slot ∧
      fs.bitmap = m.bitmap ∧ fs.nodes = m.nodes :=
  ⟨_, load_published hgeom h hm, ⟨rfl, rfl, rfl, rfl, rfl⟩, rfl, rfl⟩

theorem fits_stage (h : Mounted p p.geometry fs generation slot) (m : Meta) :
    Fits (stage fs m).geom := by
  show Fits fs.geom
  rw [h.geom_eq]
  exact fits_of_validateGeometry hgeom

/-- **A commit that completes** leaves its metadata on the disk in both superblocks, and
the file system in memory moves on with the disk. -/
theorem commit_full (hd : d.Reliable) (h : Mounted p p.geometry fs generation slot)
    (hgen : generation + 1 < 2 ^ 64) (clock : ℕ → UInt64) (m : Meta) :
    (commit ⟨stage fs m, d, clock⟩).2.disk =
      storeAll (m.writes p p.geometry (generation + 1) (1 - slot)) d ∧
    Mounted p p.geometry (commit ⟨stage fs m, d, clock⟩).2.fs (generation + 1) (1 - slot) := by
  have hrun := commit_run (w := ⟨stage fs m, d, clock⟩) rfl h.writable (fits_stage hgeom h m)
  rw [writeAll_reliable hd, commitWrites_stage h hgen] at hrun
  rw [hrun]
  have hmod : (fs.generation + 1) % 2 ^ 64 = generation + 1 := by
    rw [h.generation_eq, mod_eq_of_lt hgen]
  refine ⟨rfl, h.part_eq, h.geom_eq, hmod, ?_, h.writable⟩
  show 1 - fs.activeSlot = 1 - slot
  rw [h.slot_eq]

/-- Such a commit establishes the invariant, whatever the disk held before. -/
theorem runInv_commit (hd : d.Reliable) (hread : ∀ b < p.blocks, d.bad (p.start + b) = false)
    (h : Mounted p p.geometry fs generation slot) (hgen : generation + 1 < 2 ^ 64)
    (clock : ℕ → UInt64) (hm : Mountable p.geometry m.bitmap m.nodes) :
    RunInv p p.geometry ((commit ⟨stage fs m, d, clock⟩).2.fs,
      (commit ⟨stage fs m, d, clock⟩).2.disk) (generation + 1) m := by
  obtain ⟨hdisk, hmnt⟩ := commit_full hgeom hd h hgen clock m
  refine ⟨?_, hm, 1 - slot, ?_, hmnt⟩
  · rw [hdisk]
    exact storeAll_reliable hd _
  · rw [hdisk]
    exact published_of_writes (fits_of_validateGeometry hgeom) hread hgen (sub_le _ _)
      (Mountable.sized hm)

/-- **A commit that is cut off** leaves the first `k` of its writes on the disk. -/
theorem commit_cut (hd : d.Reliable) (h : Mounted p p.geometry fs generation slot)
    (hgen : generation + 1 < 2 ^ 64) (clock : ℕ → UInt64) (m : Meta) (k : ℕ) :
    (commit ⟨stage fs m, d.cutAfter k, clock⟩).2.disk.powerUp =
      storeAll ((m.writes p p.geometry (generation + 1) (1 - slot)).take k) d := by
  have hrun := commit_run (w := ⟨stage fs m, d.cutAfter k, clock⟩) rfl h.writable
    (fits_stage hgeom h m)
  have hcut := writeAll_cutAfter io (commitWrites (stage fs m)) d k
  have hpow : (storeAll ((commitWrites (stage fs m)).take k) d).powerUp =
      storeAll ((commitWrites (stage fs m)).take k) d := by
    have hfaults := storeAll_reliable hd ((commitWrites (stage fs m)).take k)
    rw [powerUp, ← hfaults]
  rw [← commitWrites_stage h hgen, ← hpow, ← hcut, hrun]
  rcases writeAll io (commitWrites (stage fs m)) (d.cutAfter k)
    with ⟨_ | _, d'⟩ <;> rfl

open CommitEvent

/-- **The step lemma**: an event keeps the invariant, with the metadata it publishes and a
generation that has grown by one at most. -/
theorem RunInv.step (h : RunInv p p.geometry s generation m) (clock : ℕ → UInt64)
    (e : CommitEvent) (hgen : generation + 1 < 2 ^ 64)
    (hm : Mountable p.geometry e.metadata.bitmap e.metadata.nodes) :
    ∃ s' generation', e.step p clock s = .ok s' ∧ generation' ≤ generation + 1 ∧
      RunInv p p.geometry s' generation' (e.publishes p.geometry m) := by
  have hg := fits_of_validateGeometry hgeom
  obtain ⟨hrel, hmount, slot, hpub, hmnt⟩ := h
  cases e with
  | full m' =>
    exact ⟨_, generation + 1, rfl, le_refl _,
      runInv_commit hgeom hrel hpub.readable hmnt hgen clock hm⟩
  | cut m' k =>
    have hm' : Mountable (derive p.blocks) m'.bitmap m'.nodes := hm
    have hdisk := commit_cut hgeom hrel hmnt hgen clock m' k
    have hpub' := hpub.take_commit hg hgen (Mountable.sized hm') k
    rw [← hdisk] at hpub'
    have hmeta : (afterWrites (derive p.blocks) generation slot m m' k).2.2 =
        (cut m' k).publishes (derive p.blocks) m := by
      rw [publishes_cut, afterWrites]
      split_ifs <;> rfl
    have hmount' : Mountable (derive p.blocks)
        ((cut m' k).publishes (derive p.blocks) m).bitmap
        ((cut m' k).publishes (derive p.blocks) m).nodes := by
      rw [publishes_cut]
      split_ifs
      · exact hm'
      · exact hmount
    rw [hmeta] at hpub'
    obtain ⟨fs, hload, hmnt', -, -⟩ := mounted_of_published hgeom hpub' hmount'
    refine ⟨(fs, _), _, ?_, ?_, powerUp_reliable _, hmount', _, hpub', hmnt'⟩
    · show (load p _).map _ = _
      rw [hload]
      rfl
    · unfold afterWrites
      split_ifs
      · exact le_refl _
      · exact le_succ _

/-- **The run lemma**: the invariant holds after any run that is too short to exhaust the
generation numbers. -/
theorem RunInv.run (h : RunInv p p.geometry s generation m) (clock : ℕ → UInt64)
    (es : List CommitEvent) (hgen : generation + es.length < 2 ^ 64)
    (hm : ∀ e ∈ es, Mountable p.geometry e.metadata.bitmap e.metadata.nodes) :
    ∃ s' generation', runCommits p clock s es = .ok s' ∧ RunInv p p.geometry s' generation'
        (es.foldl (publishes p.geometry) m) := by
  induction es generalizing s generation m with
  | nil => exact ⟨s, generation, rfl, h⟩
  | cons e es ih =>
    rw [length_cons] at hgen
    obtain ⟨s1, g1, hstep, hle, h1⟩ := h.step hgeom clock e (by omega) (hm e mem_cons_self)
    obtain ⟨s2, g2, hrun, h2⟩ := ih h1 (by omega) fun e' he' => hm e' (mem_cons_of_mem _ he')
    refine ⟨s2, g2, ?_, h2⟩
    rw [runCommits, foldlM_cons, hstep]
    exact hrun

/-- Formatting and mounting a partition establishes the invariant. -/
theorem runInv_boot (hd : d.Reliable) (hread : ∀ b < p.blocks, d.bad (p.start + b) = false) :
    ∃ s, boot p d = .ok s ∧ RunInv p p.geometry s 1 (emptyMeta p.geometry) := by
  have hpub := published_format hgeom hread
  have hempty := mountable_emptyMeta (derive p.blocks)
  obtain ⟨fs, hload, hmnt, -, -⟩ := mounted_of_published hgeom hpub hempty
  refine ⟨(fs, _), ?_, storeAll_reliable hd _, hempty, 0, hpub, hmnt⟩
  rw [boot, format_run hgeom hd]
  show (load p _).map _ = _
  rw [hload]
  rfl

/-- On a device without faults, formatting and mounting succeeds. -/
theorem boot_reliable (hd : d.Reliable) (hread : ∀ b < p.blocks, d.bad (p.start + b) = false) :
    boot p d = .ok (emptyFs p, storeAll (formatWrites p p.geometry) d) := by
  have hpub := published_format hgeom hread
  rw [boot, format_run hgeom hd]
  simp only [load_published hgeom hpub (mountable_emptyMeta _)]
  rfl

/-- **Commits are crash-atomic**: after any run of commits and power cuts from a formatted
partition, the partition mounts read-write, with the bitmap and the nodes last published –
those of the last commit whose primary superblock was written. -/
theorem commits_crash_atomic {d : Device} (hd : d.Reliable)
    (hread : ∀ b < p.blocks, d.bad (p.start + b) = false) (clock : ℕ → UInt64)
    (es : List CommitEvent) (hlen : es.length + 1 < 2 ^ 64)
    (hm : ∀ e ∈ es, Mountable (Geometry.derive p.blocks) e.metadata.bitmap e.metadata.nodes) :
    ∃ s0 s fs, boot p d = .ok s0 ∧ runCommits p clock s0 es = .ok s ∧ load p s.2 = .ok fs ∧
      fs.readOnly = false ∧ fs.bitmap = (lastPublished (Geometry.derive p.blocks) es).bitmap ∧
      fs.nodes = (lastPublished (Geometry.derive p.blocks) es).nodes := by
  obtain ⟨s0, hboot, h0⟩ := runInv_boot hgeom hd hread
  obtain ⟨s, generation, hrun, -, hmount, slot, hpub, -⟩ := h0.run hgeom clock es (by omega) hm
  obtain ⟨fs, hload, hmnt, hbitmap, hnodes⟩ := mounted_of_published hgeom hpub hmount
  exact ⟨s0, s, fs, hboot, hrun, hload, hmnt.writable, hbitmap, hnodes⟩

end

/-! ### Partitions with any contents -/

section

variable {p : Partition} {d : Device} {fs : DunitFs}

/-- What mounts read-write is built strictly. -/
theorem fromSlot_of_load (hload : load p d = .ok fs) (hro : fs.readOnly = false) :
    validateGeometry p p.geometry = .ok () ∧
      ∃ v ∈ validSlots p p.geometry d, fromSlot p p.geometry v.1 v.2 = .ok fs := by
  unfold load at hload
  dsimp only at hload
  split at hload
  · cases hload
  · rename_i hgeom
    refine ⟨hgeom, ?_⟩
    split at hload
    · rename_i hsome
      obtain ⟨v, hv, hfs⟩ := exists_of_findSome?_eq_some hsome
      refine ⟨v, hv, ?_⟩
      rw [← hload]
      revert hfs
      cases fromSlot p p.geometry v.1 v.2 <;> simp [Except.toOption]
    · split at hload <;> cases hload
      cases hro

/-- What mounts read-write can be mounted again, and agrees with the disk. -/
theorem mountable_of_load (hread : ∀ b < p.blocks, d.bad (p.start + b) = false)
    (hload : load p d = .ok fs) (hro : fs.readOnly = false) :
    validateGeometry p p.geometry = .ok () ∧ Mountable p.geometry fs.bitmap fs.nodes ∧
      Mounted p p.geometry fs fs.generation fs.activeSlot := by
  obtain ⟨hgeom, v, hv, hfs⟩ := fromSlot_of_load hload hro
  have hg : Fits p.geometry := fits_of_validateGeometry hgeom
  have hslot := (mem_validSlots hv).2
  have hbounds := slotStart_bounds hg v.1.activeSlot
  have hdata := hg.data_lt
  rw [readSlot, readBlocks_ok hread (show _ ≤ p.geometry.totalBlocks by omega)] at hslot
  have hlen := congrArg length (Except.ok.inj hslot)
  rw [length_flatMap_range _ blockSize _ fun _ _ => Block.length_bytes _] at hlen
  refine ⟨hgeom, mountable_of_fromSlot hg.total_lt ?_ hfs, ?_⟩
  · have hslots : p.geometry.slotBlocks = p.geometry.bitmapBlocks + 32 := hg.slot_eq
    rw [← hlen, hslots]
    show p.geometry.bitmapBlocks * 512 + 256 * 64 ≤ 512 * (p.geometry.bitmapBlocks + 32)
    omega
  · unfold fromSlot at hfs
    split at hfs
    · cases hfs
    · split_ifs at hfs
      cases hfs
      exact ⟨rfl, rfl, rfl, rfl, rfl⟩

/-- **Commits are crash-atomic on every partition that mounts read-write**, whatever the disk
holds: once what was mounted is committed, any run of commits and power cuts leaves a partition
that mounts read-write, with what was last published. -/
theorem load_crash_atomic (hd : d.Reliable) (hread : ∀ b < p.blocks, d.bad (p.start + b) = false)
    (hload : load p d = .ok fs) (hro : fs.readOnly = false) (clock : ℕ → UInt64)
    (es : List CommitEvent) (hlen : fs.generation + 1 + es.length < 2 ^ 64)
    (hm : ∀ e ∈ es, Mountable (Geometry.derive p.blocks) e.metadata.bitmap e.metadata.nodes) :
    ∃ s fs', runCommits p clock (fs, d) (.full ⟨fs.bitmap, fs.nodes⟩ :: es) = .ok s ∧
      load p s.2 = .ok fs' ∧ fs'.readOnly = false ∧ (⟨fs'.bitmap, fs'.nodes⟩ : Meta) =
        es.foldl (CommitEvent.publishes (Geometry.derive p.blocks)) ⟨fs.bitmap, fs.nodes⟩ := by
  obtain ⟨hgeom, hmount, hmnt⟩ := mountable_of_load hread hload hro
  have hinv := runInv_commit (m := ⟨_, _⟩) hgeom hd hread hmnt (by omega) clock hmount
  obtain ⟨s, generation, hrun, -, hmount', slot, hpub, -⟩ := hinv.run hgeom clock es hlen hm
  obtain ⟨fs', hload', hmnt', hbitmap, hnodes⟩ := mounted_of_published hgeom hpub hmount'
  exact ⟨s, fs', hrun, hload', hmnt'.writable, by rw [hbitmap, hnodes]⟩

end

/-! ### What the theorem needs

Two conditions cannot be dropped. Nodes that read back one by one may still conflict with
each other, and such metadata does not mount read-write. And a power cut between the two
superblocks has published the metadata of a commit that never completed: a later commit
that is cut off early falls back to it, not to the last commit that completed. -/

/-- A partition of 100 blocks. -/
def smallPartition : Partition := ⟨⟨512, 100, by decide⟩, 0, 100⟩

/-- The layout of `smallPartition`. -/
abbrev smallGeometry : Geometry := Geometry.derive smallPartition.blocks

theorem validate_small : validateGeometry smallPartition smallGeometry = .ok () := by decide

/-- A device full of zeros. -/
def zeroDevice : Device := ⟨fun _ => Block.ofBytes blockSize [], fun _ => false, []⟩

def dirNode (path : Path) : Node := ⟨path, .directory, defaultDirMode, 0, 0, 0, []⟩

variable {path : Path}

theorem storable_dirNode (hne : path ≠ [])
    (hle : byteLen path ≤ pathSize) : Storable g (dirNode path) := by
  have htype : FileType.directory ≠ FileType.device := by decide
  refine ⟨htype, zero_le _, fun e he => ?_, hne, hle, fun _ => ⟨rfl, rfl⟩, zero_le _⟩
  cases he

/-- Metadata with one directory. -/
def oneDir (path : Path) : Meta :=
  ⟨emptyBitmap smallGeometry, Function.update (fun _ => none) 0 (some (dirNode path))⟩

theorem nodes_oneDir {i : Fin maxNodes} {n : Node}
    (h : (oneDir path).nodes i = some n) : i = 0 ∧ n = dirNode path := by
  have h : update (fun _ => none) 0 (some (dirNode path)) i = some n := h
  rcases eq_or_ne i 0 with rfl | hi
  · rw [update_self] at h
    exact ⟨rfl, (some.inj h).symm⟩
  · rw [update_of_ne hi] at h
    cases h

theorem mountable_oneDir (hne : path ≠ []) (hle : byteLen path ≤ pathSize) :
    Mountable smallGeometry (oneDir path).bitmap (oneDir path).nodes := by
  refine ⟨(mountable_emptyMeta smallGeometry).length_bitmap, fun i n hn => ?_, ?_⟩
  · rw [(nodes_oneDir hn).2]
    exact storable_dirNode hne hle
  · simp only [verifyConsistency, List.all_eq_true]
    intro i _ j _
    split_ifs with hji
    · -- two indices in use would both be the first
      rcases hi : (oneDir path).nodes i with _ | n
      · rfl
      · rcases hj : (oneDir path).nodes j with _ | n'
        · rfl
        · rw [(nodes_oneDir hi).1, (nodes_oneDir hj).1] at hji
          exact absurd hji (lt_irrefl _)
    · rfl

theorem commits_crash_atomic_oneDir :
    ∃ s0 s fs, boot smallPartition zeroDevice = .ok s0 ∧
      runCommits smallPartition (fun _ => 0) s0 [.full (oneDir ['a']), .cut (oneDir ['b']) 5] =
        .ok s ∧ load smallPartition s.2 = .ok fs ∧ fs.readOnly = false ∧
      fs.bitmap = (lastPublished smallGeometry
        [.full (oneDir ['a']), .cut (oneDir ['b']) 5]).bitmap ∧
      fs.nodes = (lastPublished smallGeometry
        [.full (oneDir ['a']), .cut (oneDir ['b']) 5]).nodes := by
  have hd : zeroDevice.Reliable := rfl
  refine commits_crash_atomic validate_small hd (fun _ _ => rfl) _ _ (by decide) fun e he => ?_
  simp only [mem_cons, not_mem_nil, or_false] at he
  rcases he with rfl | rfl <;> exact mountable_oneDir (by decide) (by decide)

theorem load_crash_atomic_format : ∃ d fs s, load smallPartition d = .ok fs ∧
    runCommits smallPartition (fun _ => 0) (fs, d)
      [.full ⟨fs.bitmap, fs.nodes⟩, .cut (oneDir ['b']) 5] = .ok s := by
  have hd : zeroDevice.Reliable := rfl
  have hpub := published_format validate_small (d := zeroDevice) fun _ _ => rfl
  have hload := load_published validate_small hpub (mountable_emptyMeta _)
  obtain ⟨s, -, hrun, -⟩ := load_crash_atomic (storeAll_reliable hd _) hpub.readable hload rfl
    (fun _ => 0) [.cut (oneDir ['b']) 5] (by decide) fun e he => by
      rw [mem_singleton.mp he]
      exact mountable_oneDir (by decide) (by decide)
  exact ⟨_, _, s, hload, hrun⟩

/-- A partition none of whose slots builds strictly does not mount read-write. -/
theorem not_writable_of_fromSlot {p : Partition} {d : Device} (h : ∀ v ∈ validSlots p p.geometry d,
      ∃ e, fromSlot p p.geometry v.1 v.2 = .error e) :
    ¬∃ fs, load p d = .ok fs ∧ fs.readOnly = false := by
  rintro ⟨fs, hload, hro⟩
  obtain ⟨-, v, hv, hfs⟩ := fromSlot_of_load hload hro
  obtain ⟨e, he⟩ := h v hv
  rw [he] at hfs
  cases hfs

/-- Metadata with the same directory twice. -/
def twins : Meta :=
  ⟨emptyBitmap smallGeometry, fun i => if i.val < 2 then some (dirNode ['a']) else none⟩

theorem nodes_twins {i : Fin maxNodes} {n : Node} (h : twins.nodes i = some n) :
    n = dirNode ['a'] := by
  have h : (if i.val < 2 then some (dirNode ['a']) else none) = some n := h
  split_ifs at h
  exact (some.inj h).symm

theorem storable_twins (i : Fin maxNodes) (n : Node) (h : twins.nodes i = some n) :
    Storable smallGeometry n := by
  rw [nodes_twins h]
  exact storable_dirNode (by decide) (by decide)

/-- **Neither condition can be dropped.** After a commit of nodes that all read back but
conflict, the partition does not mount read-write. After a completed commit, a commit cut
between its superblocks and a commit cut at once, the partition holds the metadata of the
second, which is neither that of the completed commit nor that of the one cut last. -/
theorem commits_not_crash_atomic :
    (∃ s0 s, boot smallPartition zeroDevice = .ok s0 ∧
      (∀ i n, twins.nodes i = some n → decodeNode (encodeNode n) smallGeometry = .ok n) ∧
      runCommits smallPartition (fun _ => 0) s0 [.full twins] = .ok s ∧
      ¬∃ fs, load smallPartition s.2 = .ok fs ∧ fs.readOnly = false) ∧
    ∃ s0 s fs, boot smallPartition zeroDevice = .ok s0 ∧
      runCommits smallPartition (fun _ => 0) s0
        [.full (oneDir ['a']), .cut (oneDir ['b']) 34, .cut (oneDir ['c']) 0] = .ok s ∧
      load smallPartition s.2 = .ok fs ∧
      fs.nodes ≠ (oneDir ['a']).nodes ∧ fs.nodes ≠ (oneDir ['c']).nodes := by
  have hd : zeroDevice.Reliable := rfl
  have hg : Fits smallGeometry := fits_of_validateGeometry validate_small
  obtain ⟨s0, hboot, h0⟩ := runInv_boot validate_small hd fun _ _ => rfl
  refine ⟨?_, ?_⟩
  · obtain ⟨hrel, -, slot, hpub, hmnt⟩ := h0
    obtain ⟨hdisk, -⟩ := commit_full validate_small hrel hmnt (by decide) (fun _ => 0) twins
    have hsized : Sized smallGeometry twins :=
      ⟨(mountable_emptyMeta smallGeometry).length_bitmap,
        fun i n hn => (storable_twins i n hn).path_le⟩
    have hgen : 1 + 1 < 2 ^ 64 := by decide
    have hpub' := published_of_writes hg hpub.readable hgen (sub_le 1 slot) hsized
    refine ⟨s0, _, hboot, fun i n hn => decodeNode_encodeNode (storable_twins i n hn) hg.total_lt,
      rfl, not_writable_of_fromSlot fun v hv => ?_⟩
    rw [hdisk] at hv
    -- both superblocks describe the conflicting nodes
    have hback := candidate_of_writes hg rfl hpub.readable hgen (sub_le 1 slot) twins
      (.inr rfl)
    obtain rfl := eq_of_mem_validSlots hg rfl hpub' hback hv
    have hconflict : verifyConsistency twins.nodes = false := by decide +kernel
    refine ⟨.corruptMetadata, ?_⟩
    rw [Meta.image, fromSlot_slotImage_eq _ _ hg.total_lt hsized.length_bitmap
      storable_twins, hconflict]
    rfl
  · have hm : ∀ e ∈ [CommitEvent.full (oneDir ['a']), .cut (oneDir ['b']) 34,
        .cut (oneDir ['c']) 0], Mountable smallGeometry e.metadata.bitmap e.metadata.nodes := by
      intro e he
      simp only [mem_cons, not_mem_nil, or_false] at he
      rcases he with rfl | rfl | rfl <;> exact mountable_oneDir (by decide) (by decide)
    obtain ⟨s, generation, hrun, -, hmount, slot, hpub, -⟩ :=
      h0.run validate_small (fun _ => 0) _ (by decide) hm
    obtain ⟨fs, hload, -, -, hnodes⟩ := mounted_of_published validate_small hpub hmount
    have hb : fs.nodes 0 = some (dirNode ['b']) := by
      rw [hnodes]
      rfl
    refine ⟨s0, s, fs, hboot, hrun, hload, fun h => ?_, fun h => ?_⟩
    · have ha : fs.nodes 0 = some (dirNode ['a']) := by rw [h]; rfl
      rw [hb] at ha
      exact absurd ha (by decide)
    · have hc : fs.nodes 0 = some (dirNode ['c']) := by rw [h]; rfl
      rw [hb] at hc
      exact absurd hc (by decide)

end DunitOS.DunitFs
