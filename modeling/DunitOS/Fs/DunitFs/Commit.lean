import DunitOS.Fs.DunitFs.Codec

/-!
# Committing metadata

`DunitFs::commit` and the monad its callers run in. A method of the file system works on
the mounted file system, the device under it and the clock (`World`). A
method that is left by an error keeps what it has done so far, in memory and on the
device.

What a commit writes is a list of blocks fixed in advance
(`commitWrites`): the image of the inactive slot, then the primary and
the backup superblock. `commit_run` says that a commit is the writing of
that list, followed by the change of slot and generation if all of it was written.

The kernel is built without overflow checks, so the generation number wraps.
-/

namespace DunitOS.DunitFs

open SysLib Prog Vfs List Disk DunitFsError

/-- How a method can be left early: with an error, or by a panic of the kernel. -/
inductive Stop where
  | err (e : VfsError)
  | panic
  deriving DecidableEq, Repr

/-- What a method works on: the file system, the device, and the clock readings to come. -/
structure World where
  fs : DunitFs
  disk : Device
  clock : ℕ → UInt64

/-- A method of the file system. -/
abbrev FsM (α : Type) : Type := Prog World Stop α

/-- Run an access to the device; all its errors are reported as I/O errors. -/
def onDisk {α : Type} (m : Prog Device DunitFsError α) : FsM α := fun w =>
  match m w.disk with
  | (.ok a, d) => (.ok a, { w with disk := d })
  | (.error _, d) => (.error (.err .ioError), { w with disk := d })

def ensureWritable : FsM Unit := do
  let w ← Prog.get
  if w.fs.readOnly then Prog.stop (.err .permissionDenied) else pure ()

def writeRaw (relative : ℕ) (b : Block blockSize) : FsM Unit := do
  let w ← Prog.get
  onDisk (writePartitionBlock w.fs.part relative b)

/-- The image of the metadata in memory. -/
def serializeSlot (fs : DunitFs) : List UInt8 := slotImage fs.bitmap fs.nodes

/-- **Publish the metadata in memory**, if there is something to publish. -/
def commit : FsM Unit := do
  let w ← Prog.get
  if !w.fs.dirty then pure () else do
    ensureWritable
    let image := serializeSlot w.fs
    let inactive := 1 - w.fs.activeSlot
    onDisk (writeSlot w.fs.part w.fs.geom inactive image)
    let newGeneration := (w.fs.generation + 1) % 2 ^ 64
    let block := SuperBlock.encode
      { generation := newGeneration, activeSlot := inactive, slotCrc := crc32 image
        geom := w.fs.geom }
    writeRaw primarySb block
    writeRaw backupSb block
    Prog.modify fun w => { w with fs := { w.fs with
      activeSlot := inactive, generation := newGeneration, dirty := false } }

/-! ### The writes of a commit -/

/-- The superblock a commit publishes. -/
def nextSuperBlock (fs : DunitFs) : SuperBlock :=
  { generation := (fs.generation + 1) % 2 ^ 64
    activeSlot := 1 - fs.activeSlot
    slotCrc := crc32 (serializeSlot fs)
    geom := fs.geom }

def slotWrites (p : Partition) (g : Geometry) (slot : ℕ) (image : List UInt8) :
    List (ℕ × Block blockSize) :=
  (List.range g.slotBlocks).map fun i => (p.start + g.slotStart slot + i, slotBlock image i)

/-- **The writes of a commit**, in order. -/
def commitWrites (fs : DunitFs) : List (ℕ × Block blockSize) :=
  slotWrites fs.part fs.geom (1 - fs.activeSlot) (serializeSlot fs) ++
    [(fs.partitionStart + primarySb, (nextSuperBlock fs).encode),
      (fs.partitionStart + backupSb, (nextSuperBlock fs).encode)]

/-- The file system after a commit that wrote everything. -/
def committed (fs : DunitFs) : DunitFs :=
  { fs with
    activeSlot := 1 - fs.activeSlot
    generation := (fs.generation + 1) % 2 ^ 64
    dirty := false }

/-- The layout of a partition: the two superblocks, the slots and the data region follow
each other, and the data region is not empty. -/
structure Fits (g : Geometry) : Prop where
  slot0_eq : g.slot0Start = firstSlotStart
  slot1_eq : g.slot1Start = g.slot0Start + g.slotBlocks
  data_eq : g.dataStart = g.slot1Start + g.slotBlocks
  slot_eq : g.slotBlocks = g.bitmapBlocks + nodeTableBlocks
  data_lt : g.dataStart < g.totalBlocks
  total_lt : g.totalBlocks < 2 ^ 64
  total_le : g.totalBlocks ≤ 8 * g.bitmapLen

/-- A layout that the mount accepts fits. -/
theorem fits_of_validateGeometry {p : Partition}
    (h : validateGeometry p (Geometry.derive p.blocks) = .ok ()) :
    Fits (Geometry.derive p.blocks) := by
  unfold validateGeometry at h
  split_ifs at h with _ hbad
  simp only [not_or, Nat.not_le, Nat.not_lt] at hbad
  refine ⟨rfl, rfl, rfl, rfl, hbad.1, ?_, ?_⟩
  · show p.blocks < 2 ^ 64
    omega
  · show p.blocks ≤ 8 * (divCeil (divCeil p.blocks 8) 512 * 512)
    unfold divCeil
    omega

section

variable {g : Geometry} (hg : Fits g)
include hg

/-- The blocks of a slot lie between the superblocks and the data region. -/
theorem slotStart_bounds (slot : ℕ) :
    2 ≤ g.slotStart slot ∧ g.slotStart slot + g.slotBlocks ≤ g.dataStart := by
  have h0 : g.slot0Start = 2 := hg.slot0_eq
  have h1 := hg.slot1_eq
  have hd := hg.data_eq
  unfold Geometry.slotStart
  split_ifs <;> omega

/-- The two slots do not meet. -/
theorem slotStart_disjoint {slot : ℕ} (hslot : slot ≤ 1) {i j : ℕ} (hi : i < g.slotBlocks)
    (hj : j < g.slotBlocks) : g.slotStart (1 - slot) + i ≠ g.slotStart slot + j := by
  have h1 := hg.slot1_eq
  unfold Geometry.slotStart
  rcases Nat.le_one_iff_eq_zero_or_eq_one.mp hslot with rfl | rfl
  · simp only [Nat.sub_zero, one_ne_zero, if_false, if_true]
    omega
  · simp only [Nat.sub_self, one_ne_zero, if_false, if_true]
    omega

end

/-! ### A commit is the writing of its list -/

/-- A loop that writes blocks of the partition is the writing of a list, when none of the
blocks is out of bounds. -/
theorem forEach_writePartitionBlock (p : Partition) (pos : ℕ → ℕ) (b : ℕ → Block blockSize)
    {l : List ℕ} (h : ∀ i ∈ l, pos i < p.blocks) :
    Prog.forEach (fun i => writePartitionBlock p (pos i) (b i)) l =
      Disk.writeAll .io (l.map fun i => (p.start + pos i, b i)) := by
  induction l with
  | nil => rfl
  | cons i l ih =>
    have hw : writePartitionBlock p (pos i) (b i) = write .io (p.start + pos i) (b i) := by
      rw [writePartitionBlock, if_neg (Nat.not_le.mpr (h i mem_cons_self))]
    rw [map_cons, writeAll_cons, Prog.forEach, hw, ih fun j hj => h j (mem_cons_of_mem _ hj)]

/-- Writing a slot is writing its list. -/
theorem writeSlot_eq {p : Partition} {g : Geometry} (hg : Fits g) (hp : p.blocks = g.totalBlocks)
    (slot : ℕ) (image : List UInt8) :
    writeSlot p g slot image = Disk.writeAll .io (slotWrites p g slot image) := by
  have hbounds := slotStart_bounds hg slot
  have hdata := hg.data_lt
  have hin : ∀ i ∈ range g.slotBlocks, g.slotStart slot + i < p.blocks := by
    intro i hi
    have hi := mem_range.mp hi
    omega
  rw [writeSlot, forEach_writePartitionBlock p _ _ hin, slotWrites]
  simp only [Nat.add_assoc]

section

variable {α : Type} {m : Prog Device DunitFsError α} {w : World} {d : Device}

theorem onDisk_ok {a : α} (h : m w.disk = (.ok a, d)) :
    onDisk m w = (.ok a, { w with disk := d }) := by
  rw [onDisk, h]

theorem onDisk_error {e : DunitFsError} (h : m w.disk = (.error e, d)) :
    onDisk m w = (.error (.err .ioError), { w with disk := d }) := by
  rw [onDisk, h]

/-- A superblock is inside the partition, so writing it is one write to the device. -/
theorem writeRaw_eq (hg : Fits w.fs.geom) {r : ℕ} (hr : r ≤ 1) {b : Block blockSize} :
    writeRaw r b w = onDisk (Disk.write .io (w.fs.partitionStart + r) b) w := by
  have hdata := hg.data_lt
  have hstart := slotStart_bounds hg 0
  have hin : ¬w.fs.part.blocks ≤ r := by
    show ¬w.fs.geom.totalBlocks ≤ r
    omega
  rw [writeRaw, get_bind_run, writePartitionBlock, if_neg hin]
  rfl

end

/-- The rest of a commit, once the slot is written. -/
def publish (sb : SuperBlock) : FsM Unit := do
  writeRaw primarySb sb.encode
  writeRaw backupSb sb.encode
  Prog.modify fun w => { w with fs := { w.fs with
    activeSlot := sb.activeSlot, generation := sb.generation, dirty := false } }

/-- The writes of `publish`. -/
def publishWrites (start : ℕ) (sb : SuperBlock) : List (ℕ × Block blockSize) :=
  [(start + primarySb, sb.encode), (start + backupSb, sb.encode)]

theorem publish_run {w : World} (hg : Fits w.fs.geom) (sb : SuperBlock) : publish sb w =
    match Disk.writeAll io (publishWrites w.fs.partitionStart sb) w.disk with
    | (.ok _, d) => (.ok (), { w with disk := d, fs := { w.fs with
        activeSlot := sb.activeSlot, generation := sb.generation, dirty := false } })
    | (.error _, d) => (.error (.err .ioError), { w with disk := d }) := by
  rw [publish, publishWrites, writeAll_cons]
  rcases hp : write io (w.fs.partitionStart + primarySb) sb.encode w.disk
    with ⟨e | _, d1⟩
  · have hraw := (writeRaw_eq hg (by decide)).trans (onDisk_error hp)
    rw [bind_error hraw, bind_error hp]
  have hraw := (writeRaw_eq hg (by decide)).trans (onDisk_ok hp)
  rw [bind_ok hraw, bind_ok hp, writeAll_cons]
  have hg' : Fits ({ w with disk := d1 } : World).fs.geom := hg
  rcases hb : write io (w.fs.partitionStart + backupSb) sb.encode d1
    with ⟨e | _, d2⟩
  · have hraw' := (writeRaw_eq hg' (Nat.le_refl 1)).trans (onDisk_error hb)
    rw [bind_error hraw', bind_error hb]
  have hraw' := (writeRaw_eq hg' (Nat.le_refl 1)).trans (onDisk_ok hb)
  rw [bind_ok hraw', bind_ok hb]
  rfl

/-- **A commit, run**: it writes its list, and changes slot and generation when all of
the list was written. -/
theorem commit_run {w : World} (hdirty : w.fs.dirty = true) (hro : w.fs.readOnly = false)
    (hg : Fits w.fs.geom) : commit w = match Disk.writeAll io (commitWrites w.fs) w.disk with
      | (.ok _, d) => (.ok (), { w with fs := committed w.fs, disk := d })
      | (.error _, d) => (.error (.err .ioError), { w with disk := d }) := by
  have hwritable : ensureWritable w = (.ok (), w) := by simp [ensureWritable, hro]
  have hslot := writeSlot_eq hg (p := w.fs.part) rfl (1 - w.fs.activeSlot) (serializeSlot w.fs)
  have hcommit : commit w = (onDisk (writeSlot w.fs.part w.fs.geom (1 - w.fs.activeSlot)
      (serializeSlot w.fs)) >>= fun _ => publish (nextSuperBlock w.fs)) w := by
    rw [commit, get_bind_run, hdirty]
    exact bind_ok hwritable
  rw [hcommit, hslot, commitWrites, writeAll_append]
  rcases hs : writeAll io
      (slotWrites w.fs.part w.fs.geom (1 - w.fs.activeSlot) (serializeSlot w.fs)) w.disk
    with ⟨e | _, d⟩
  · rw [bind_error (onDisk_error hs), bind_error hs]
  · have hg' : Fits ({ w with disk := d } : World).fs.geom := hg
    rw [bind_ok (onDisk_ok hs), bind_ok hs, publish_run hg']
    rfl

/-- **What a commit can do**: find nothing to publish, be refused, or write its list. -/
theorem commit_cases {w : World} (hg : Fits w.fs.geom) :
    commit w = (.ok (), w) ∨ commit w = (.error (.err .permissionDenied), w) ∨ commit w =
      match Disk.writeAll io (commitWrites w.fs) w.disk with
      | (.ok _, d) => (.ok (), { w with fs := committed w.fs, disk := d })
      | (.error _, d) => (.error (.err .ioError), { w with disk := d }) := by
  rcases hdirty : w.fs.dirty with _ | _
  · exact Or.inl (by simp [commit, hdirty])
  rcases hro : w.fs.readOnly with _ | _
  · exact Or.inr (Or.inr (commit_run hdirty hro hg))
  · refine Or.inr (Or.inl ?_)
    rw [commit, get_bind_run, hdirty]
    exact bind_error (by simp [ensureWritable, hro])

end DunitOS.DunitFs
