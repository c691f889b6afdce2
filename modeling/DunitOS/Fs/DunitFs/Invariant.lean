import DunitOS.Fs.DunitFs.Blocks
import DunitOS.Fs.DunitFs.Crash
import DunitOS.Fs.DunitFs.Namespace
import Mathlib.Data.List.Perm.Subperm

/-!
# The invariant of a mounted file system

What is true of the metadata between any two calls: the blocks are accounted for, the nodes
form a tree, every node is of a shape that its record can hold, and no file is longer than
its blocks (`Consistent`). Metadata like this can be mounted again
(`Consistent.mountable`).

The last clause has exceptions, which are a parameter. Between the freeing of the extents of
a file and the setting of its size the file is longer than its blocks, and a shrinking
`ftruncate_handle` that fails in between leaves it so for good. All statements are made for
an arbitrary set of excepted nodes.

`Inv` is the invariant of a run. It has a second parameter: the partition,
when the device is known to be reliable, in which case the invariant also says that the
device holds consistent metadata under the generation the file system believes in.
-/

namespace DunitOS.DunitFs

open SysLib Vfs List Disk Function

/-! ### Consistent metadata -/

/-- The shape of a node, apart from its path and its place. -/
structure Regular (n : Node) : Prop where
  not_device : n.fileType ≠ .device
  count_le : n.extents.length ≤ maxExtents
  directory_empty : n.fileType = .directory → n.size = 0 ∧ n.extents = []
  size_lt : n.size < 2 ^ 64

/-- A file is not longer than its blocks. -/
def Backed (n : Node) : Prop := n.size ≤ n.allocatedBlocks * blockSize

/-- **Consistent metadata**, up to the sizes of the nodes in `E`. What is promised of the
paths beyond their being those of a tree is `P`. -/
structure Consistent (P : Path → Prop) (E : Set (Fin maxNodes)) (g : Geometry)
    (bitmap : List UInt8) (nodes : NodeTable) : Prop where
  accounted : Accounted g bitmap nodes
  tree : Tree nodes
  named : ∀ i n, nodes i = some n → P n.path
  regular : ∀ i n, nodes i = some n → Regular n
  backed : ∀ i n, nodes i = some n → i ∉ E → Backed n

theorem allocatedBlocks_eq (n : Node) : n.allocatedBlocks = (blocksOf n.extents).length :=
  (length_blocksOf n.extents).symm

/-- A node has no more blocks than the partition. -/
theorem Accounted.allocated_le {g : Geometry} {bitmap : List UInt8} {nodes : NodeTable}
    (h : Accounted g bitmap nodes) {i : Fin maxNodes} {n : Node} (hn : nodes i = some n) :
    n.allocatedBlocks ≤ g.totalBlocks := by
  have hsub : blocksOf n.extents ⊆ range g.totalBlocks := fun b hb =>
    List.mem_range.mpr (h.mem_range hn hb).2
  have hle := (subperm_of_subset (h.nodup i n hn) hsub).length_le
  rwa [length_range, ← allocatedBlocks_eq] at hle

/-- Extents that overlap have a block in common. -/
theorem exists_common_block {a b : Node} (ha : ∀ e ∈ a.extents, 0 < e.2)
    (hb : ∀ e ∈ b.extents, 0 < e.2) (h : extentsOverlap a b = true) :
    ∃ x, x ∈ blocksOf a.extents ∧ x ∈ blocksOf b.extents := by
  rw [extentsOverlap, any_eq_true] at h
  obtain ⟨l, hl, h⟩ := h
  obtain ⟨r, hr, h⟩ := any_eq_true.mp h
  rw [decide_eq_true_eq] at h
  have hl0 := ha l hl
  have hr0 := hb r hr
  refine ⟨max l.1 r.1, mem_blocksOf.mpr ⟨l, hl, ?_, ?_⟩, mem_blocksOf.mpr ⟨r, hr, ?_, ?_⟩⟩
  all_goals omega

namespace Consistent

variable {P : Path → Prop} {E E' : Set (Fin maxNodes)} {g : Geometry} {bitmap : List UInt8}
  {nodes : NodeTable}

/-- **Consistent metadata can be mounted again.** -/
theorem mountable (h : Consistent P ∅ g bitmap nodes) (hg : Fits g) : Mountable g bitmap nodes := by
  refine ⟨h.accounted.length_bitmap, fun i n hn => ?_, ?_⟩
  · have hreg := h.regular i n hn
    have hsize : n.size ≤ n.allocatedBlocks * 512 := h.backed i n hn (Set.notMem_empty i)
    have hlt := hreg.size_lt
    have htotal := hg.total_lt
    have halloc := h.accounted.allocated_le hn
    refine ⟨hreg.not_device, hreg.count_le, h.accounted.inside i n hn, (h.tree.trimmed i n hn).1,
      h.tree.path_le i n hn, hreg.directory_empty, ?_⟩
    show n.size ≤ min (n.allocatedBlocks % 2 ^ 64 * 512) (2 ^ 64 - 1)
    rw [Nat.mod_eq_of_lt (by omega)]
    omega
  · simp only [verifyConsistency, all_eq_true]
    intro i _ j _
    split_ifs with hji
    · rcases hi : nodes i with _ | n
      · rfl
      · rcases hj : nodes j with _ | n'
        · rfl
        · have hpath : n.path ≠ n'.path := fun he =>
            (ne_of_lt hji).symm (h.tree.distinct i j n n' hi hj he)
          have hov : extentsOverlap n n' = false := by
            rw [Bool.eq_false_iff]
            intro hc
            obtain ⟨x, hx, hx'⟩ := exists_common_block
              (fun e he => (h.accounted.inside i n hi e he).1)
              (fun e he => (h.accounted.inside j n' hj e he).1) hc
            exact h.accounted.disjoint i j n n' (ne_of_lt hji).symm hi hj hx hx'
          simp [conflict, hpath, hov]
    · rfl

variable (h : Consistent P E g bitmap nodes) {i : Fin maxNodes} {n : Node}
include h

/-- A change at one index, seen from the parts of the invariant. -/
theorem set {o : Option Node} {bitmap' : List UInt8}
    (ha : Accounted g bitmap' (Function.update nodes i o)) (ht : Tree (Function.update nodes i o))
    (hE : ∀ j ≠ i, j ∈ E → j ∈ E')
    (ho : ∀ m, o = some m → P m.path ∧ Regular m ∧ (i ∉ E' → Backed m)) :
    Consistent P E' g bitmap' (Function.update nodes i o) :=
  ⟨ha, ht, forall_update_some (fun m hm => (ho m hm).1) fun j m _ hm => h.named j m hm,
    forall_update_some (fun m hm => (ho m hm).2.1) fun j m _ hm => h.regular j m hm,
    forall_update_some (fun m hm => (ho m hm).2.2) fun j m hj hm hE' =>
      h.backed j m hm fun hc => hE' (hE j hj hc)⟩

/-- **Replacing a node by one of the same path, type and extents.** The node itself need no
longer be an exception afterwards. -/
theorem touch (hn : nodes i = some n) {n' : Node} (hpath : n'.path = n.path)
    (htype : n'.fileType = n.fileType) (hext : n'.extents = n.extents) (hreg : Regular n')
    (hE : ∀ j ≠ i, j ∈ E → j ∈ E') (hback : i ∉ E' → Backed n') :
    Consistent P E' g bitmap (Function.update nodes i (some n')) := by
  refine h.set (h.accounted.update_same hn hext) (h.tree.update_same hn hpath htype) hE
    fun m hm => ?_
  cases hm
  exact ⟨hpath ▸ h.named i n hn, hreg, hback⟩

theorem alloc (hg : Fits g) (hn : nodes i = some n) (hfile : n.fileType = .file) {run : Extent}
    {es : List Extent} (hadd : addRun n.extents run = some es)
    (hrun : 0 < run.2 ∧ g.dataStart ≤ run.1 ∧ run.1 + run.2 ≤ g.totalBlocks)
    (hfree : ∀ b, run.1 ≤ b → b < run.1 + run.2 → bitGet bitmap b = false) :
    Consistent P E g (markUsed bitmap run.1 run.2)
      (Function.update nodes i (some { n with extents := es })) := by
  have hreg := h.regular i n hn
  refine h.set (h.accounted.alloc hg.total_le hn hadd hrun hfree) (h.tree.update_same hn rfl rfl)
    (fun _ _ hj => hj) fun m hm => ?_
  cases hm
  refine ⟨h.named i n hn, ⟨hreg.not_device, length_addRun hadd hreg.count_le, fun hd => ?_,
    hreg.size_lt⟩, fun hi => ?_⟩
  · have hd : n.fileType = .directory := hd
    rw [hfile] at hd
    cases hd
  · have hold : n.size ≤ n.allocatedBlocks * 512 := h.backed i n hn hi
    have hblocks := congrArg length (blocksOf_addRun hadd)
    rw [length_append, length_range', ← allocatedBlocks_eq] at hblocks
    rw [Backed, allocatedBlocks_eq, hblocks]
    exact hold.trans (Nat.mul_le_mul_right _ (Nat.le_add_right _ _))

/-- **Freeing the extents of a node** makes it an exception. -/
theorem freeNode (hn : nodes i = some n) : Consistent P (insert i E) g (freeBits bitmap n.extents)
    (Function.update nodes i (some { n with extents := [] })) := by
  have hreg := h.regular i n hn
  refine h.set (h.accounted.free hn fun m hm => ?_) (h.tree.update_same hn rfl rfl)
    (fun j _ hj => Set.mem_insert_of_mem i hj) fun m hm => ?_
  · cases hm
    rfl
  · cases hm
    exact ⟨h.named i n hn, ⟨hreg.not_device, Nat.zero_le _,
      fun hd => ⟨(hreg.directory_empty hd).1, rfl⟩, hreg.size_lt⟩,
      fun hi => absurd (Set.mem_insert i E) hi⟩

theorem removeNode (hn : nodes i = some n) (hfile : n.fileType ≠ .directory) :
    Consistent P E g (freeBits bitmap n.extents) (Function.update nodes i none) := by
  refine h.set (h.accounted.free hn fun m hm => ?_) (h.tree.remove hn hfile) (fun _ _ hj => hj)
    fun m hm => ?_
  all_goals cases hm

/-- **A new, empty node.** -/
theorem insertNode (hfree : nodes i = none) {n : Node} (hp : Trimmed n.path)
    (hle : byteLen n.path ≤ pathSize) (hnew : ∀ j m, nodes j = some m → m.path ≠ n.path)
    (hcuts : ∀ q, Trimmed q → Below q n.path → IsDir nodes q) (htype : n.fileType ≠ .device)
    (hsize : n.size = 0) (hext : n.extents = []) (hP : P n.path) :
    Consistent P E g bitmap (Function.update nodes i (some n)) := by
  refine h.set (h.accounted.insert hfree hext) (h.tree.insert hfree hp hle hnew hcuts)
    (fun _ _ hj => hj) fun m hm => ?_
  cases hm
  refine ⟨hP, ⟨htype, by rw [hext]; exact Nat.zero_le _, fun _ => ⟨hsize, hext⟩, ?_⟩, fun _ => ?_⟩
  · rw [hsize]
    exact Nat.two_pow_pos 64
  · rw [Backed, hsize]
    exact Nat.zero_le _

/-- **Renaming a node**, unless it is a directory that moves below itself. -/
theorem renameNode (hn : nodes i = some n) {new : Path} (hnew : Trimmed new)
    (hle : byteLen new ≤ pathSize) (hfree : ∀ j m, nodes j = some m → m.path ≠ new)
    (hcuts : ∀ q, Trimmed q → Below q new → IsDir nodes q)
    (hself : n.fileType = .directory → ¬Below n.path new)
    (hfit : ∀ j m s, nodes j = some m → m.path = n.path ++ '/' :: s →
      byteLen (new ++ '/' :: s) ≤ pathSize)
    (hP : ∀ q, P q → P (renamed n.path new q)) (now : UInt64) :
    Consistent P E g bitmap (renameTable i n new now nodes) := by
  have hmoved := moved_renameTable h.tree hn new now
  refine ⟨h.accounted.congr fun j => ?_, h.tree.rename hn hmoved hnew hle hfree hcuts hself hfit,
    fun j m' hm' => ?_, fun j m' hm' => ?_, fun j m' hm' hj => ?_⟩
  · rcases hj : nodes j with _ | m
    · rcases hj' : renameTable i n new now nodes j with _ | m'
      · rfl
      · obtain ⟨m, hm, -⟩ := hmoved.back j m' hj'
        rw [hj] at hm
        cases hm
    · obtain ⟨m', hm', hmm⟩ := hmoved.forth j m hj
      rw [hm', Option.map_some, Option.map_some, hmm.extents_eq]
  · obtain ⟨m, hm, hmm⟩ := hmoved.back j m' hm'
    rw [hmm.path_eq]
    exact hP _ (h.named j m hm)
  · obtain ⟨m, hm, hmm⟩ := hmoved.back j m' hm'
    have hreg := h.regular j m hm
    refine ⟨?_, ?_, fun hd => ?_, ?_⟩
    · rw [hmm.type_eq]
      exact hreg.not_device
    · rw [hmm.extents_eq]
      exact hreg.count_le
    · rw [hmm.size_eq, hmm.extents_eq]
      exact hreg.directory_empty (hmm.type_eq.symm.trans hd)
    · rw [hmm.size_eq]
      exact hreg.size_lt
  · obtain ⟨m, hm, hmm⟩ := hmoved.back j m' hm'
    have hback := h.backed j m hm hj
    rwa [Backed, Node.allocatedBlocks, hmm.size_eq, hmm.extents_eq]

end Consistent

/-! ### The file system in memory -/

/-- There is a file at an index of the table. -/
def FileAt (nodes : NodeTable) (i : Fin maxNodes) : Prop :=
  ∃ n, nodes i = some n ∧ n.fileType = .file

/-- A change of a node that keeps its type keeps the files. -/
theorem FileAt.update {nodes : NodeTable} {i j : Fin maxNodes} {n n' : Node}
    (h : FileAt nodes j) (hn : nodes i = some n) (ht : n'.fileType = n.fileType) :
    FileAt (Function.update nodes i (some n')) j := by
  obtain ⟨m, hm, hfile⟩ := h
  rcases eq_or_ne j i with rfl | hj
  · rw [hn] at hm
    cases hm
    exact ⟨n', update_self _ _ _, ht.trans hfile⟩
  · exact ⟨m, by rwa [update_of_ne hj], hfile⟩

/-- **A sound file system**: consistent metadata, and open handles on files only. -/
structure Sound (P : Path → Prop) (E : Set (Fin maxNodes)) (fs : DunitFs) : Prop where
  fits : Fits fs.geom
  consistent : Consistent P E fs.geom fs.bitmap fs.nodes
  handles : ∀ h ∈ fs.handles, FileAt fs.nodes h.2.node

/-- Two file systems mounted from the same place, at the same generation. -/
structure SameMount (fs fs' : DunitFs) : Prop where
  part_eq : fs'.part = fs.part
  geom_eq : fs'.geom = fs.geom
  generation_eq : fs'.generation = fs.generation
  slot_eq : fs'.activeSlot = fs.activeSlot

/-! ### The file system on its device -/

/-- **The device holds what the file system believes it does**: it is reliable, and under the
generation of the file system there is consistent metadata. -/
structure OnDisk (P : Path → Prop) (p : Partition) (w : World) : Prop where
  part_eq : w.fs.part = p
  geom_eq : w.fs.geom = Geometry.derive p.blocks
  reliable : w.disk.Reliable
  holds : ∃ m, Published p w.fs.geom w.disk w.fs.generation w.fs.activeSlot m ∧
    Consistent P ∅ w.fs.geom m.bitmap m.nodes

/-- **The invariant of a run.** Nothing is said of the device unless it is known to be
reliable, which is when `D` gives the partition. -/
structure Inv (D : Option Partition) (P : Path → Prop) (E : Set (Fin maxNodes)) (w : World) :
    Prop where
  sound : Sound P E w.fs
  disk : ∀ p ∈ D, OnDisk P p w

/-- The invariant on a reliable device, whatever the paths are. -/
abbrev Intact (p : Partition) : Set (Fin maxNodes) → World → Prop := Inv (some p) fun _ => True

variable {D : Option Partition} {P : Path → Prop} {E E' : Set (Fin maxNodes)} {w : World}

section

variable (h : Inv D P E w)

include h

/-- **A change in memory** keeps the invariant if it leaves a sound file system. -/
theorem Inv.setFs {fs : DunitFs} (hm : SameMount w.fs fs) (hs : Sound P E' fs) :
    Inv D P E' { w with fs } := by
  refine ⟨hs, fun p hp => ?_⟩
  obtain ⟨h1, h2, h3, h4⟩ := h.disk p hp
  refine ⟨hm.part_eq.trans h1, hm.geom_eq.trans h2, h3, ?_⟩
  show ∃ m, Published p fs.geom w.disk fs.generation fs.activeSlot m ∧
    Consistent P ∅ fs.geom m.bitmap m.nodes
  rw [hm.geom_eq, hm.generation_eq, hm.slot_eq]
  exact h4

/-- More exceptions. -/
theorem Inv.mono (hE : E ⊆ E') : Inv D P E' w := by
  obtain ⟨hacc, htree, hnamed, hreg, hback⟩ := h.sound.consistent
  exact h.setFs ⟨rfl, rfl, rfl, rfl⟩ ⟨h.sound.fits, ⟨hacc, htree, hnamed, hreg,
    fun i n hn hi => hback i n hn fun hc => hi (hE hc)⟩, h.sound.handles⟩

/-- A change of the metadata that keeps the files. -/
theorem Inv.setMeta {bitmap : List UInt8} {nodes : NodeTable} {dirty : Bool}
    (hc : Consistent P E' w.fs.geom bitmap nodes)
    (hfile : ∀ i, FileAt w.fs.nodes i → FileAt nodes i) :
    Inv D P E' { w with fs := { w.fs with bitmap, nodes, dirty } } :=
  h.setFs ⟨rfl, rfl, rfl, rfl⟩ ⟨h.sound.fits, hc, fun x hx => hfile _ (h.sound.handles x hx)⟩

/-- A change of the handles that leaves them on files. -/
theorem Inv.setHandles {handles : List (ℕ × OpenHandle)} {nextHandle : ℕ}
    (hh : ∀ x ∈ handles, FileAt w.fs.nodes x.2.node) :
    Inv D P E { w with fs := { w.fs with handles, nextHandle } } :=
  h.setFs ⟨rfl, rfl, rfl, rfl⟩ ⟨h.sound.fits, h.sound.consistent, hh⟩

/-- The invariant does not speak of the clock. -/
theorem Inv.setClock (clock : ℕ → UInt64) : Inv D P E { w with clock } :=
  ⟨h.sound, fun p hp => ⟨(h.disk p hp).part_eq, (h.disk p hp).geom_eq, (h.disk p hp).reliable,
    (h.disk p hp).holds⟩⟩

end

/-- **A block of the data region** can be written without harm to what is published. -/
theorem Published.store_data {p : Partition} {g : Geometry} {d : Device} {generation slot : ℕ}
    {m : Meta} (hg : Fits g) (h : Published p g d generation slot m) {b : ℕ}
    (hb : g.dataStart ≤ b) (x : Block blockSize) :
    Published p g (d.store (p.start + b) x) generation slot m := by
  have hbounds := slotStart_bounds hg slot
  refine ⟨h.readable, h.generation_lt, h.slot_le, h.sized, ?_, fun i hi => ?_, fun sb hsb => ?_⟩
  · rw [data_store_of_ne _ _ (show p.start + 0 ≠ p.start + b by omega)]
    exact h.primary
  · rw [data_store_of_ne _ _ (show p.start + g.slotStart slot + i ≠ p.start + b by omega)]
    exact h.slot_data i hi
  · rw [data_store_of_ne _ _ (show p.start + 1 ≠ p.start + b by omega)] at hsb
    exact h.backup_le sb hsb

/-- How an operation fails: without a panic, and with the invariant. -/
def Fails (I : World → Prop) (e : Stop) (w : World) : Prop := e ≠ .panic ∧ I w

/-- A call keeps a property and does not panic, whether it fails or not. -/
def Stays {α : Type} (I : World → Prop) : Except Stop α × World → Prop :=
  Prog.Ends (fun _ => I) (Fails I)

/-- **A commit** publishes what is in memory, which must be consistent without exceptions
when the device is to keep its part of the invariant. -/
theorem commit_ends (hDE : D ≠ none → E = ∅) (h : Inv D P E w) :
    Stays (fun t => Inv D P E t ∧ t.fs.nodes = w.fs.nodes) (commit w) := by
  rcases commit_cases h.sound.fits with hrun | hrun | hrun
  · rw [hrun]
    exact ⟨h, rfl⟩
  · rw [hrun]
    exact ⟨by simp, h, rfl⟩
  rw [hrun]
  have hsound : Sound P E (committed w.fs) := ⟨h.sound.fits, h.sound.consistent, h.sound.handles⟩
  cases D with
  | none =>
    -- nothing is to be shown of the device
    rcases writeAll DunitFsError.io (commitWrites w.fs) w.disk with ⟨_ | _, d⟩
    · exact ⟨by simp, ⟨h.sound, fun p hp => by cases hp⟩, rfl⟩
    · exact ⟨⟨hsound, fun p hp => by cases hp⟩, rfl⟩
  | some p =>
    obtain ⟨rfl, hgeom, hrel, m, hpub, hm⟩ := h.disk p rfl
    rw [writeAll_reliable hrel]
    refine ⟨⟨hsound, fun q hq => ?_⟩, rfl⟩
    cases hq
    have hcons : Consistent P ∅ w.fs.geom w.fs.bitmap w.fs.nodes := by
      have := h.sound.consistent
      rwa [hDE (by simp)] at this
    refine ⟨rfl, hgeom, storeAll_reliable hrel _, ⟨w.fs.bitmap, w.fs.nodes⟩, ?_, hcons⟩
    exact published_of_writes (m := ⟨w.fs.bitmap, w.fs.nodes⟩) h.sound.fits hpub.readable
      (Nat.mod_lt _ (Nat.two_pow_pos 64)) (Nat.sub_le 1 _)
      (Mountable.sized (hcons.mountable h.sound.fits))

end DunitOS.DunitFs
