import DunitOS.Fs.DunitFs.Calls

/-!
# Runs of calls

What holds of a mounted file system after any sequence of calls, on a device that may fail
in any way. The main result is that the metadata in memory can be mounted again at any time
(`run_republishes`), as long as no call is one of the two that the code does
not guard against.
-/

namespace DunitOS.DunitFs

open SysLib Vfs List

open Prog (Ends)

/-! ### Calls -/

/-- A call of the file system interface, with its arguments. -/
inductive Call where
  | open_ (path : Path) (flags : OpenFlags)
  | create (path : Path)
  | mkdir (path : Path)
  | read (handle len : ℕ)
  | write (handle : ℕ) (input : List UInt8)
  | seek (handle : ℕ) (offset : ℤ) (whence : ℕ)
  | ftruncate (handle len : ℕ)
  | truncate (path : Path)
  | rename (old new : Path)
  | remove (path : Path)
  | fsync (handle : ℕ)
  | close (handle : ℕ)

/-- What a call returns: nothing, a number, or bytes. -/
inductive Reply where
  | unit
  | number (n : ℕ)
  | bytes (data : List UInt8)
  deriving DecidableEq

namespace Call

/-- Make a call. -/
def exec : Call → FsM Reply
  | open_ path flags => do return .number (← DunitFs.open_ path flags)
  | create path => do DunitFs.create path; return .unit
  | mkdir path => do DunitFs.mkdir path; return .unit
  | read handle len => do return .bytes (← DunitFs.read handle len)
  | write handle input => do return .number (← DunitFs.write handle input)
  | seek handle offset whence => do return .number (← DunitFs.seek handle offset whence)
  | ftruncate handle len => do ftruncateHandle handle len; return .unit
  | truncate path => do DunitFs.truncate path; return .unit
  | rename old new => do DunitFs.rename old new; return .unit
  | remove path => do DunitFs.remove path; return .unit
  | fsync handle => do DunitFs.fsync handle; return .unit
  | close handle => do DunitFs.close handle; return .unit

/-- What a call promises of the paths it gives to nodes. -/
def Names (P : Path → Prop) : Call → Prop
  | open_ path flags => flags.create = true → P (clean path)
  | create path => P (clean path)
  | mkdir path => P (clean path)
  | rename old new => ∀ q, P q → P (renamed (clean old) (clean new) q)
  | _ => True

/-- **No rename of a directory to a path below itself.** -/
def RenameOk (w : World) : Call → Prop
  | rename old new => DunitFs.RenameOk w.fs old new
  | _ => True

/-- **No shrinking `ftruncate_handle` that cannot rewrite what it keeps.** -/
def TruncateOk (w : World) : Call → Prop
  | ftruncate handle len => truncateOk w handle len = true
  | _ => True

/-- **The nodes that a call may change** are at the indices in a set, in every state that the
condition `J` allows. -/
def Within (S : Set (Fin maxNodes)) (J : World → Prop) (w : World) : Call → Prop
  | open_ path flags => (∀ i, w.fs.nodes i = none → i ∈ S) ∧
    (flags.trunc = true → ∀ t, J t → ∀ i, nodeIndex t.fs (clean path) = some i → i ∈ S)
  | create _ | mkdir _ => ∀ i, w.fs.nodes i = none → i ∈ S
  | truncate path | remove path => ∀ i, nodeIndex w.fs (clean path) = some i → i ∈ S
  | write handle _ => ∀ x, findHandle w.fs handle = some x → x.node ∈ S
  | rename _ _ => S = Set.univ
  | _ => True

variable {D : Option Partition} {P : Path → Prop} {E S : Set (Fin maxNodes)} {w : World}
  {J : World → Prop}

/-- Turning a result into a reply changes nothing in how a call ends. -/
theorem ends_reply {α : Type} {I : World → Prop} {m : FsM α} {f : α → Reply}
    (h : Stays I (m w)) : Stays I ((m >>= fun a => pure (f a)) w) :=
  h.bind (fun _ _ ht => ht) fun _ _ ht => ht

/-- **Every call keeps the invariant and what lasts**, and none panics. What becomes of the length
of a file is left to its own lemmas. -/
theorem exec_safe (hJ : Lasts D P E S J) (hDE : D ≠ none → E = ∅) (h : Along D P E J w) (c : Call)
    (hP : c.Names P) (hren : c.RenameOk w) (hS : c.Within S J w)
    (hftruncate : ∀ handle len, c = .ftruncate handle len →
      Stays (Along D P E J) (ftruncateHandle handle len w)) :
    Stays (Along D P E J) (c.exec w) := by
  cases c with
  | open_ => exact ends_reply (open_safe hJ hDE hP h hS.1 hS.2)
  | create path | mkdir path => exact ends_reply (createNode_safe hJ hDE (by simp) hP h hS)
  | read handle len => exact ends_reply (read_safe hJ.toRides w h)
  | write handle input => exact ends_reply (write_safe hJ.toRides handle input h hS)
  | seek handle offset whence => exact ends_reply (seek_safe hJ.toRides handle w h)
  | ftruncate handle len => exact ends_reply (hftruncate handle len rfl)
  | truncate path =>
    exact ends_reply ((truncate_safe hJ hDE h hS).imp (fun _ _ ht => ht.1)
      fun _ _ ht => ⟨ht.1, ht.2.1⟩)
  | rename => exact ends_reply (renameNode_safe hJ hDE h hren hP hS)
  | remove path => exact ends_reply (remove_safe hJ hDE h hS)
  | fsync handle => exact ends_reply (fsync_safe hJ hDE handle w h)
  | close handle => exact ends_reply (close_safe hJ hDE handle w h)

theorem names_true (c : Call) : c.Names fun _ => True := by cases c <;> simp [Names]

theorem within_univ (w : World) (c : Call) : c.Within Set.univ J w := by
  cases c <;> simp [Within]

/-- **Every call keeps the invariant**, and none panics. -/
theorem exec_ends (hDE : D ≠ none → E = ∅) (h : Inv D P E w) (c : Call) (hP : c.Names P)
    (hren : c.RenameOk w) (htrunc : E = Set.univ ∨ c.TruncateOk w) :
    Stays (Inv D P E) (c.exec w) := by
  refine (exec_safe lasts_true hDE ⟨h, trivial⟩ c hP hren (within_univ w c) ?_).imp
    (fun _ _ ht => ht.1) fun _ _ ht => ⟨ht.1, ht.2.1⟩
  rintro handle len rfl
  exact (ftruncateHandle_ends hDE h htrunc).imp (fun _ _ ht => ⟨ht, trivial⟩)
    fun _ _ ht => ⟨ht.1, ht.2, trivial⟩

/-- What a call must be for the metadata to stay consistent: not a rename of a directory to a
path below itself, and not a shrinking `ftruncate_handle` that cannot rewrite what it
keeps. -/
def Guarded (w : World) (c : Call) : Prop := c.RenameOk w ∧ c.TruncateOk w

end Call

/-- **The step lemma**: a guarded call keeps the invariant, whether it succeeds or fails. -/
theorem Inv.exec {D : Option Partition} {w : World} (h : Inv D (fun _ => True) ∅ w) {c : Call}
    (hc : c.Guarded w) : Inv D (fun _ => True) ∅ (c.exec w).2 := by
  exact (c.exec_ends (fun _ => rfl) h c.names_true hc.1 (Or.inr hc.2)).state (fun _ _ ht => ht)
    fun _ _ ht => ht.2

/-- A run of calls; a call that fails leaves what it has done. -/
def runCalls (w : World) (cs : List Call) : World := cs.foldl (fun w c => (c.exec w).2) w

/-- A condition that every call of a run meets in the state it is made in. -/
def EveryCall (C : World → Call → Prop) : World → List Call → Prop
  | _, [] => True
  | w, c :: cs => C w c ∧ EveryCall C (c.exec w).2 cs

instance decidableEveryCall (C : World → Call → Prop) [∀ w c, Decidable (C w c)] :
    ∀ w cs, Decidable (EveryCall C w cs)
  | _, [] => isTrue trivial
  | w, c :: cs =>
    have := decidableEveryCall C (c.exec w).2 cs
    inferInstanceAs (Decidable (_ ∧ _))

/-- **The run lemma**: what a call keeps under a condition, a run keeps whose calls all meet
the condition. -/
theorem run_keeps {I : World → Prop} {C : World → Call → Prop}
    (hstep : ∀ w c, I w → C w c → I (c.exec w).2) {w : World} (h : I w) {cs : List Call}
    (hcs : EveryCall C w cs) : I (runCalls w cs) := by
  induction cs generalizing w with
  | nil => exact h
  | cons c cs ih => exact ih (hstep w c h hcs.1) hcs.2

/-! ### The empty file system -/

theorem accounted_emptyMeta {g : Geometry} (hg : Fits g) :
    Accounted g (emptyMeta g).bitmap (emptyMeta g).nodes := by
  have hfit : 0 + g.dataStart ≤ 8 * (replicate g.bitmapLen (0 : UInt8)).length := by
    have hlt := hg.data_lt
    have hle := hg.total_le
    rw [length_replicate]
    omega
  have hzero : ∀ b, bitGet (replicate g.bitmapLen (0 : UInt8)) b = false := by
    intro b
    rw [bitGet_eq_testBit, getElem?_replicate]
    split_ifs <;> simp
  refine ⟨(mountable_emptyMeta g).length_bitmap, fun b _ => ?_, fun i n hn => ?_, fun i n hn => ?_,
    fun i j n n' _ hn _ => ?_⟩
  · rw [emptyMeta, emptyBitmap, bitGet_markUsed hfit, hzero]
    simp
  all_goals cases hn

/-- Metadata without nodes is consistent. -/
theorem consistent_emptyMeta {g : Geometry} (hg : Fits g) (P : Path → Prop)
    (E : Set (Fin maxNodes)) : Consistent P E g (emptyMeta g).bitmap (emptyMeta g).nodes := by
  refine ⟨accounted_emptyMeta hg, ⟨fun i n hn => ?_, fun i n hn => ?_, fun i j n n' hn _ => ?_,
    fun i n q hn => ?_⟩, fun i n hn => ?_, fun i n hn => ?_, fun i n hn => ?_⟩
  all_goals cases hn

/-- **A partition that was formatted and mounted** satisfies the invariant, whatever the
device does from then on. -/
theorem inv_boot {p : Partition} {d : Device} {s : DunitFs × Device} (hboot : boot p d = .ok s)
    (P : Path → Prop) (E : Set (Fin maxNodes)) (disk : Device) (clock : ℕ → UInt64) :
    Inv none P E ⟨s.1, disk, clock⟩ := by
  obtain ⟨hgeom, hfs⟩ := boot_eq_ok hboot
  have hg := fits_of_validateGeometry hgeom
  refine ⟨?_, fun p hp => by cases hp⟩
  rw [hfs]
  refine ⟨?_, ?_, fun x hx => ?_⟩
  · rw [emptyFs_geom]
    exact hg
  · rw [emptyFs_geom, emptyFs_bitmap, emptyFs_nodes]
    exact consistent_emptyMeta hg P E
  · rw [emptyFs_handles] at hx
    cases hx

/-! ### Metadata can always be mounted again -/

/-- **What is in memory can be mounted again**: its slot image builds strictly, and builds
the same bitmap and the same nodes. -/
def Republishes (fs : DunitFs) : Prop :=
  ∀ sb, ∃ fs', fromSlot fs.part fs.geom sb (serializeSlot fs) = .ok fs' ∧
    fs'.bitmap = fs.bitmap ∧ fs'.nodes = fs.nodes

/-- **The metadata in memory can be mounted again at any time**, after any run of guarded
calls from a formatted partition, failed calls included, and whatever the device does during
the run. -/
theorem run_republishes {p : Partition} {d : Device} {s : DunitFs × Device}
    (hboot : boot p d = .ok s) (disk : Device) (clock : ℕ → UInt64) (cs : List Call)
    (hcs : EveryCall Call.Guarded ⟨s.1, disk, clock⟩ cs) :
    Republishes (runCalls ⟨s.1, disk, clock⟩ cs).fs := by
  have hinv := run_keeps (fun _ _ h hc => h.exec hc) (inv_boot hboot _ ∅ disk clock) hcs
  generalize runCalls ⟨s.1, disk, clock⟩ cs = w at hinv ⊢
  have hmount := hinv.sound.consistent.mountable hinv.sound.fits
  exact fun sb => ⟨_, fromSlot_slotImage _ sb hinv.sound.fits.total_lt hmount, rfl, rfl⟩

/-- A partition of 100 blocks, formatted and mounted. -/
def smallWorld : World :=
  ⟨emptyFs smallPartition, Disk.storeAll (formatWrites smallPartition smallGeometry) zeroDevice,
    fun _ => 0⟩

theorem boot_small : boot smallPartition zeroDevice = .ok (smallWorld.fs, smallWorld.disk) := by
  have hd : zeroDevice.Reliable := rfl
  exact boot_reliable validate_small hd fun _ _ => rfl

/-- A directory is renamed, and a file in it is written and shrunk. -/
def shrinkCalls : List Call :=
  [.mkdir ['a'], .rename ['a'] ['b'], .open_ ['b', '/', 'f'] ⟨7⟩, .write 1 [1, 2, 3],
    .ftruncate 1 1, .close 1]

theorem run_republishes_shrink : Republishes (runCalls smallWorld shrinkCalls).fs := by
  refine run_republishes boot_small smallWorld.disk smallWorld.clock shrinkCalls
    ⟨⟨trivial, trivial⟩, ⟨fun i n _ _ _ => ?_, trivial⟩, ⟨trivial, trivial⟩, ⟨trivial, trivial⟩,
    ⟨trivial, ?_⟩, ⟨trivial, trivial⟩, trivial⟩
  · rintro ⟨s, hs⟩
    have ha : clean ['a'] = ['a'] := by decide
    have hb : clean ['b'] = ['b'] := by decide
    rw [ha, hb] at hs
    simp at hs
  · show truncateOk _ 1 1 = true
    decide +kernel

/-! ### What the condition is for -/

/-- What can be mounted again has no conflicting nodes. -/
theorem Republishes.consistent {fs : DunitFs} (h : Republishes fs) :
    verifyConsistency fs.nodes = true := by
  obtain ⟨fs', hfs, -, hnodes⟩ := h ⟨0, 0, 0, fs.geom⟩
  unfold fromSlot at hfs
  split at hfs
  · cases hfs
  · split_ifs at hfs with hv
    cases hfs
    rw [← hnodes]
    exact hv

/-- What can be mounted again has no file that is longer than its blocks. -/
theorem Republishes.size_le {fs : DunitFs} (h : Republishes fs)
    (htotal : fs.geom.totalBlocks < 2 ^ 64) (hb : fs.bitmap.length = fs.geom.bitmapLen)
    (hpath : ∀ i n, fs.nodes i = some n → byteLen n.path ≤ pathSize) {i : Fin maxNodes} {n : Node}
    (hn : fs.nodes i = some n) : n.size ≤ n.allocatedBlocks % 2 ^ 64 * blockSize := by
  obtain ⟨fs', hfs, -, hnodes⟩ := h ⟨0, 0, 0, fs.geom⟩
  have hlen := (length_slotImage hb hpath).ge
  have hmount := mountable_of_fromSlot htotal hlen hfs
  rw [← hnodes] at hn
  exact (hmount.storable i n hn).size_le.trans (min_le_left _ _)

/-- A directory is renamed to a path below itself; after that a second node can come to the
same path. -/
def intoItself : List Call :=
  [.mkdir ['a'], .rename ['a'] ['a', '/', 'b'], .mkdir ['x'], .mkdir ['x', '/', 'b'],
    .rename ['x'] ['a']]

/-- One block to write. -/
def oneBlock : List UInt8 := List.replicate blockSize 0

/-- Two files are written block by block in turn, a third file gets the seven blocks after
them, and the first is removed: its six blocks lie apart. Now the third file is shrunk by a
byte. It needs seven blocks again, the first six that are found make six extents, and the
seventh block would make one too many. -/
def fragmented : List Call :=
  [.open_ ['b'] ⟨7⟩, .open_ ['a'] ⟨7⟩, .write 1 oneBlock, .write 2 oneBlock, .write 1 oneBlock,
    .write 2 oneBlock, .write 1 oneBlock, .write 2 oneBlock, .write 1 oneBlock, .write 2 oneBlock,
    .write 1 oneBlock, .write 2 oneBlock, .write 1 oneBlock, .write 2 oneBlock, .open_ ['t'] ⟨7⟩,
    .seek 3 3583 0, .write 3 [1], .remove ['b'], .ftruncate 3 3583]

/-- **Neither condition can be dropped.** After a rename of a directory below itself two nodes
can get one path, and after a shrinking `ftruncate_handle` that runs out of extents a file is
longer than its blocks; neither can be mounted again. -/
theorem run_not_republishes :
    boot smallPartition zeroDevice = .ok (smallWorld.fs, smallWorld.disk) ∧
      ¬Republishes (runCalls smallWorld intoItself).fs ∧
      ¬Republishes (runCalls smallWorld fragmented).fs := by
  refine ⟨boot_small, fun h => ?_, fun h => ?_⟩
  · have hconflict : verifyConsistency (runCalls smallWorld intoItself).fs.nodes = false := by
      decide +kernel
    rw [h.consistent] at hconflict
    cases hconflict
  · obtain ⟨hnode, hpaths, htotal, hlen⟩ :
        ((runCalls smallWorld fragmented).fs.nodes 2).map (fun n => (n.size, n.allocatedBlocks)) =
          some (3584, 6) ∧
        (∀ i, ((runCalls smallWorld fragmented).fs.nodes i).all
          (fun n => decide (byteLen n.path ≤ pathSize)) = true) ∧
        (runCalls smallWorld fragmented).fs.geom.totalBlocks < 2 ^ 64 ∧
        (runCalls smallWorld fragmented).fs.bitmap.length =
          (runCalls smallWorld fragmented).fs.geom.bitmapLen := by decide +kernel
    obtain ⟨n, hn, hsize⟩ := Option.map_eq_some_iff.mp hnode
    obtain ⟨hsize, hblocks⟩ := Prod.mk.inj hsize
    have hpath : ∀ i n, (runCalls smallWorld fragmented).fs.nodes i = some n →
        byteLen n.path ≤ pathSize := by
      intro i n hn
      have hi := hpaths i
      rw [hn] at hi
      exact of_decide_eq_true hi
    have hle := h.size_le htotal hlen hpath hn
    rw [hsize, hblocks] at hle
    exact absurd hle (by decide)

end DunitOS.DunitFs
