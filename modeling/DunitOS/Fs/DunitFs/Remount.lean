import DunitOS.Fs.DunitFs.Runs

/-!
# Block accounting across mounts

The mount never compares the bitmap with the extents of the nodes: what it finds on the disk
it believes. Block accounting after a mount therefore rests on what was published before it.
On a device without faults every published generation is consistent, as long as no call is
one of the two that the code does not guard against, and then the accounting holds after any
run of calls and mounts (`run_owned`).

After one of the two calls the next mount is degraded: it drops the node in the way, and the
blocks of the node stay marked in the bitmap without belonging to anything.
-/

namespace DunitOS.DunitFs

open SysLib Vfs List DunitFs.Geometry Disk

/-! ### Who owns a block -/

/-- A block lies in extent number `x.2` of the node at index `x.1`. -/
def LiesIn (nodes : NodeTable) (b : ℕ) (x : Fin maxNodes × ℕ) : Prop :=
  ∃ n e, nodes x.1 = some n ∧ n.extents[x.2]? = some e ∧ e.1 ≤ b ∧ b < e.1 + e.2

/-- **Every block has its owner**: a block is marked in the bitmap if and only if it belongs
to the metadata or lies in exactly one extent of exactly one node, and all extents lie in the
data region and apart from each other. -/
structure Owned (fs : DunitFs) : Prop where
  bit_iff : ∀ b < fs.geom.totalBlocks, bitGet fs.bitmap b = true ↔
    b < fs.geom.dataStart ∨ ∃! x, LiesIn fs.nodes b x
  inside : ∀ i n, fs.nodes i = some n → ∀ e ∈ n.extents,
    0 < e.2 ∧ fs.geom.dataStart ≤ e.1 ∧ e.1 + e.2 ≤ fs.geom.totalBlocks
  disjoint : ∀ b x y, LiesIn fs.nodes b x → LiesIn fs.nodes b y → x = y

/-- In a list of extents without a block in common with itself, a block lies in one extent at
most. -/
theorem extent_unique {es : List Extent} (h : (blocksOf es).Nodup) {b k l : ℕ} {e f : Extent}
    (he : es[k]? = some e) (hf : es[l]? = some f) (hbe : e.1 ≤ b ∧ b < e.1 + e.2)
    (hbf : f.1 ≤ b ∧ b < f.1 + f.2) : k = l := by
  have hpair := (nodup_flatMap.mp h).2
  -- of two different places one comes first
  have key : ∀ (k l : ℕ) (e f : Extent), es[k]? = some e → es[l]? = some f →
      (e.1 ≤ b ∧ b < e.1 + e.2) → (f.1 ≤ b ∧ b < f.1 + f.2) → ¬k < l := by
    intro k l e f he hf hbe hbf hlt
    obtain ⟨hk, rfl⟩ := List.getElem?_eq_some_iff.mp he
    obtain ⟨hl, rfl⟩ := List.getElem?_eq_some_iff.mp hf
    exact pairwise_iff_getElem.mp hpair k l hk hl hlt (mem_range'_1.mpr hbe)
      (mem_range'_1.mpr hbf)
  exact Nat.le_antisymm (Nat.not_lt.mp (key l k f e hf he hbf hbe))
    (Nat.not_lt.mp (key k l e f he hf hbe hbf))

/-- **Accounted blocks are owned.** -/
theorem Accounted.owned {fs : DunitFs} (h : Accounted fs.geom fs.bitmap fs.nodes) : Owned fs := by
  have hmem : ∀ {b x n e}, fs.nodes x = some n → e ∈ n.extents → e.1 ≤ b → b < e.1 + e.2 →
      b ∈ blocksOf n.extents := fun hn he h1 h2 => mem_blocksOf.mpr ⟨_, he, h1, h2⟩
  have hunique : ∀ b x y, LiesIn fs.nodes b x → LiesIn fs.nodes b y → x = y := by
    rintro b ⟨i, k⟩ ⟨j, l⟩ ⟨n, e, hn, he, hbe⟩ ⟨m, f, hm, hf, hbf⟩
    have hbn : b ∈ blocksOf n.extents := hmem hn (mem_of_getElem? he) hbe.1 hbe.2
    have hbm : b ∈ blocksOf m.extents := hmem hm (mem_of_getElem? hf) hbf.1 hbf.2
    obtain rfl : i = j := by
      by_contra hij
      exact h.disjoint i j n m hij hn hm hbn hbm
    obtain rfl : n = m := Option.some.inj (hn.symm.trans hm)
    exact congrArg (Prod.mk i) (extent_unique (h.nodup i n hn) he hf hbe hbf)
  refine ⟨fun b hb => (h.bit_iff b hb).trans (or_congr_right ⟨?_, ?_⟩), h.inside, hunique⟩
  · rintro ⟨i, n, hn, hbn⟩
    obtain ⟨e, he, hbe⟩ := mem_blocksOf.mp hbn
    obtain ⟨k, hk⟩ := getElem?_of_mem he
    exact ⟨(i, k), ⟨n, e, hn, hk, hbe⟩, fun y hy => hunique b y (i, k) hy ⟨n, e, hn, hk, hbe⟩⟩
  · rintro ⟨⟨i, k⟩, ⟨n, e, hn, he, hbe⟩, -⟩
    exact ⟨i, n, hn, hmem hn (mem_of_getElem? he) hbe.1 hbe.2⟩

/-! ### Runs with mounts -/

/-- What happens to a file system: a call, or a restart of the machine, after which the
partition is mounted again. -/
inductive Event where
  | call (c : Call)
  | remount

def Event.step (p : Partition) (w : World) : Event → Except DunitFsError World
  | call c => .ok (c.exec w).2
  | remount => (load p w.disk).map fun fs => { w with fs }

/-- A run of events, up to a mount that fails. -/
def runEvents (p : Partition) (w : World) (es : List Event) : Except DunitFsError World :=
  es.foldlM (Event.step p) w

/-- The calls of a run are guarded, each in the state it is made in. -/
def GuardedRun (p : Partition) : World → List Event → Prop
  | _, [] => True
  | w, .call c :: es => c.Guarded w ∧ GuardedRun p (c.exec w).2 es
  | w, .remount :: es => ∀ w', Event.step p w .remount = .ok w' → GuardedRun p w' es

/-- The world after a mount of what is published. -/
def World.mounted (p : Partition) (m : Meta) (w : World) : World :=
  { w with fs := ofTable p (derive p.blocks) (m.superBlock (derive p.blocks) w.fs.generation
      w.fs.activeSlot) m.bitmap m.nodes false }

section

variable {p : Partition} (hgeom : validateGeometry p (Geometry.derive p.blocks) = .ok ())
include hgeom

theorem remount_published {w : World} {m : Meta}
    (hpub : Published p (derive p.blocks) w.disk w.fs.generation w.fs.activeSlot m)
    (hm : Consistent (fun _ => True) ∅ (derive p.blocks) m.bitmap m.nodes) :
    Event.step p w .remount = .ok (w.mounted p m) ∧
      (w.disk.Reliable → Intact p ∅ (w.mounted p m)) := by
  have hg := fits_of_validateGeometry hgeom
  refine ⟨?_, fun hrel => ⟨⟨hg, hm, fun x hx => ?_⟩, fun q hq => ?_⟩⟩
  · rw [Event.step, load_published hgeom hpub (hm.mountable hg)]
    rfl
  · cases hx
  · cases hq
    exact ⟨rfl, rfl, hrel, m, hpub, hm⟩

/-- **Mounting what is on the disk** succeeds, and keeps the invariant. -/
theorem Inv.remount {w : World} (h : Intact p ∅ w) :
    ∃ w', Event.step p w .remount = .ok w' ∧ Intact p ∅ w' := by
  obtain ⟨-, hgeq, hrel, m, hpub, hm⟩ := h.disk p rfl
  rw [hgeq] at hpub hm
  obtain ⟨hstep, hinv⟩ := remount_published hgeom hpub hm
  exact ⟨_, hstep, hinv hrel⟩

/-- **The run lemma** for calls and mounts. -/
theorem Inv.runEvents {w : World} (h : Intact p ∅ w) {es : List Event} (hes : GuardedRun p w es) :
    ∃ w', DunitFs.runEvents p w es = .ok w' ∧ Intact p ∅ w' := by
  induction es generalizing w with
  | nil => exact ⟨w, rfl, h⟩
  | cons e es ih =>
    cases e with
    | call =>
      obtain ⟨hc, hes⟩ := hes
      exact ih (h.exec hc) hes
    | remount =>
      obtain ⟨w1, hstep, h1⟩ := h.remount hgeom
      obtain ⟨w', hrun, hw'⟩ := ih h1 (hes w1 hstep)
      refine ⟨w', ?_, hw'⟩
      rw [DunitFs.runEvents, foldlM_cons, hstep]
      exact hrun

/-- A partition that was formatted and mounted on a device without faults. -/
theorem inv_boot_reliable {d : Device} (hd : d.Reliable)
    (hread : ∀ b < p.blocks, d.bad (p.start + b) = false) {s : DunitFs × Device}
    (hboot : boot p d = .ok s) (clock : ℕ → UInt64) :
    Intact p ∅ ⟨s.1, s.2, clock⟩ := by
  have hg := fits_of_validateGeometry hgeom
  have hpub := published_format hgeom hread
  refine ⟨(inv_boot hboot _ _ s.2 clock).sound, fun q hq => ?_⟩
  cases hq
  rw [boot_reliable hgeom hd hread] at hboot
  cases hboot
  exact ⟨rfl, rfl, storeAll_reliable hd _, _, hpub, consistent_emptyMeta hg _ _⟩

end

/-- **Every block has its owner** from the formatting of a partition on, as long as every call
is guarded, whether calls succeed or fail: after any run of calls, whatever the device does,
and on a device without faults after any run of calls and mounts. -/
theorem run_owned {p : Partition} {d : Device} {s : DunitFs × Device} (hboot : boot p d = .ok s)
    (clock : ℕ → UInt64) :
    (∀ disk cs, EveryCall Call.Guarded ⟨s.1, disk, clock⟩ cs →
      Owned (runCalls ⟨s.1, disk, clock⟩ cs).fs) ∧
    (d.Reliable → (∀ b < p.blocks, d.bad (p.start + b) = false) →
      ∀ es, GuardedRun p ⟨s.1, s.2, clock⟩ es →
        ∃ w, runEvents p ⟨s.1, s.2, clock⟩ es = .ok w ∧ Owned w.fs) := by
  refine ⟨fun disk cs hcs => ?_, fun hd hread es hes => ?_⟩
  · have hinv := run_keeps (fun _ _ h hc => h.exec hc) (inv_boot hboot _ ∅ disk clock) hcs
    exact hinv.sound.consistent.accounted.owned
  · have hgeom := (boot_eq_ok hboot).1
    obtain ⟨w, hrun, hw⟩ := (inv_boot_reliable hgeom hd hread hboot clock).runEvents hgeom hes
    exact ⟨w, hrun, hw.sound.consistent.accounted.owned⟩

/-- A file is written in a directory that is then renamed; the machine is restarted before
the file is closed, and the file, which is on the disk without its contents, is written
again. -/
def restartEvents : List Event :=
  [.call (.mkdir ['a']), .call (.open_ ['a', '/', 'f'] ⟨7⟩), .call (.rename ['a'] ['b']),
    .call (.write 1 [1, 2, 3]), .remount, .call (.open_ ['b', '/', 'f'] ⟨7⟩),
    .call (.write 1 [4, 5]), .call (.close 1), .remount]

theorem run_owned_restart :
    ∃ w, runEvents smallPartition smallWorld restartEvents = .ok w ∧ Owned w.fs := by
  refine (run_owned boot_small smallWorld.clock).2 rfl (fun _ _ => rfl) restartEvents
    ⟨⟨trivial, trivial⟩, ⟨trivial, trivial⟩, ⟨fun i n _ _ _ => ?_, trivial⟩, ⟨trivial, trivial⟩,
    fun _ _ => ⟨⟨trivial, trivial⟩, ⟨trivial, trivial⟩, ⟨trivial, trivial⟩, fun _ _ => trivial⟩⟩
  rintro ⟨s, hs⟩
  have ha : clean ['a'] = ['a'] := by decide
  have hb : clean ['b'] = ['b'] := by decide
  rw [ha, hb] at hs
  simp at hs

/-! ### What the condition is for -/

/-- What the records of a slot image read back as. -/
def readBack (g : Geometry) (nodes : NodeTable) (i : Fin maxNodes) :
    Except DunitFsError (Option Node) :=
  decodeEntry g (encodeEntry (nodes i))

/-- Whether a table passes the strict builder. -/
def passes (g : Geometry) (nodes : NodeTable) : Bool :=
  match fillTable (readBack g nodes) fun _ => none with
  | .ok t => verifyConsistency t
  | .error _ => false

/-- The nodes that a degraded mount keeps: those whose record is intact and that do not
conflict with an earlier one that is kept. -/
def salvage (g : Geometry) (nodes : NodeTable) : NodeTable :=
  ((List.finRange maxNodes).foldl dropConflict (fun i => (readBack g nodes i).toOption.join, 0)).1

/-- Which nodes are dropped does not depend on how many were dropped before. -/
theorem foldl_dropConflict_fst {l : List (Fin maxNodes)} (nodes : NodeTable) (k k' : ℕ) :
    (l.foldl dropConflict (nodes, k)).1 = (l.foldl dropConflict (nodes, k')).1 := by
  induction l generalizing nodes k k' with
  | nil => rfl
  | cons i l ih =>
    have hstep : ∃ nodes' m m', dropConflict (nodes, k) i = (nodes', m) ∧
        dropConflict (nodes, k') i = (nodes', m') := by
      unfold dropConflict
      simp only
      split
      · exact ⟨_, _, _, rfl, rfl⟩
      · split_ifs
        · exact ⟨_, _, _, rfl, rfl⟩
        · exact ⟨_, _, _, rfl, rfl⟩
    obtain ⟨nodes', m, m', h, h'⟩ := hstep
    rw [foldl_cons, foldl_cons, h, h']
    exact ih nodes' m m'

section

variable {g : Geometry} {m : Meta} (hm : Sized g m)
include hm

theorem decodeEntry_image (i : Fin maxNodes) :
    decodeEntry g (entryAt g m.image i) = readBack g m.nodes i := by
  rw [Meta.image, entryAt_slotImage hm.length_bitmap hm.path_le, readBack]

/-- The degraded builder on a slot image. -/
theorem fromSlotDegraded_image (p : Partition) (sb : SuperBlock) :
    (fromSlotDegraded p g sb m.image).1 = ofTable p g sb m.bitmap (salvage g m.nodes) true := by
  have htake : m.image.take g.bitmapLen = m.bitmap := by
    rw [Meta.image, slotImage, ← hm.length_bitmap, take_left]
  unfold fromSlotDegraded
  simp only [decodeEntry_image hm, htake]
  rw [salvage, foldl_dropConflict_fst _ 0]

/-- The strict builder on a slot image of a table that does not pass. -/
theorem fromSlot_image_of_not_passes (hstrict : passes g m.nodes = false) (p : Partition)
    {sb : SuperBlock} : (fromSlot p g sb m.image).toOption = none := by
  have hfill : fillTable (fun i : Fin maxNodes => decodeEntry g (entryAt g m.image i))
      (fun _ => none) = fillTable (readBack g m.nodes) fun _ => none :=
    congrArg (fillTable · _) (funext (decodeEntry_image hm))
  rw [passes] at hstrict
  rw [fromSlot, hfill]
  split
  · rfl
  · next t ht =>
    rw [ht] at hstrict
    rw [if_neg (by simpa using hstrict)]
    rfl

end

/-- **A partition mounts degraded** when both superblocks describe a table that does not pass
the strict builder. -/
theorem load_degraded {p : Partition} {g : Geometry} {d : Device} {generation slot : ℕ} {m : Meta}
    (hgeom : validateGeometry p g = .ok ()) (hg : g = Geometry.derive p.blocks)
    (hpub : Published p g d generation slot m)
    (hback : candidate p g d backupSb = some (m.superBlock g generation slot))
    (hstrict : passes g m.nodes = false) :
    ∃ fs, load p d = .ok fs ∧ fs.geom = g ∧ fs.bitmap = m.bitmap ∧
      fs.nodes = salvage g m.nodes := by
  subst hg
  have hg := fits_of_validateGeometry hgeom
  have hnone : (validSlots p (derive p.blocks) d).findSome?
      (fun v => (fromSlot p (derive p.blocks) v.1 v.2).toOption) = none := by
    rw [findSome?_eq_none_iff]
    intro v hv
    rw [eq_of_mem_validSlots hg rfl hpub hback hv]
    exact fromSlot_image_of_not_passes hpub.sized hstrict _
  obtain ⟨rest, hvalid⟩ := validSlots_published hg rfl hpub
  refine ⟨ofTable p (derive p.blocks) (m.superBlock (derive p.blocks) generation slot) m.bitmap
    (salvage (derive p.blocks) m.nodes) true, ?_, rfl, rfl, rfl⟩
  unfold load
  simp only [hgeom, hnone]
  rw [hvalid]
  simp only [head?_cons, fromSlotDegraded_image hpub.sized]

/-- **What a restart makes of a table that does not pass**, once it was written to the disk:
the bitmap is what it was, and nodes are missing. -/
theorem restart_degraded {w : World} {handle : ℕ}
    (hgeom : validateGeometry w.fs.part w.fs.geom = .ok ())
    (hderive : w.fs.geom = Geometry.derive w.fs.part.blocks) (hd : w.disk.Reliable)
    (hread : ∀ b < w.fs.part.blocks, w.disk.bad (w.fs.part.start + b) = false)
    (hsized : Sized w.fs.geom ⟨w.fs.bitmap, w.fs.nodes⟩) (hdirty : w.fs.dirty = true)
    (hro : w.fs.readOnly = false) (hopen : (findHandle w.fs handle).isSome = true)
    (hstrict : passes w.fs.geom w.fs.nodes = false) :
    ∃ w', runEvents w.fs.part w [.call (.fsync handle), .remount] = .ok w' ∧
      w'.fs.geom = w.fs.geom ∧ w'.fs.bitmap = w.fs.bitmap ∧
      w'.fs.nodes = salvage w.fs.geom w.fs.nodes := by
  have hg : Fits w.fs.geom := by
    rw [hderive] at hgeom ⊢
    exact fits_of_validateGeometry hgeom
  have hgen : (w.fs.generation + 1) % 2 ^ 64 < 2 ^ 64 := Nat.mod_lt _ (Nat.two_pow_pos 64)
  have hslot : 1 - w.fs.activeSlot ≤ 1 := Nat.sub_le 1 _
  -- the commit publishes what is in memory
  have hpub := published_of_writes hg hread hgen hslot hsized
  have hback := candidate_of_writes hg rfl hread hgen hslot ⟨w.fs.bitmap, w.fs.nodes⟩
    (Or.inr rfl)
  obtain ⟨fs, hload, hfs⟩ := load_degraded hgeom hderive hpub hback hstrict
  have hfsync : ((Call.fsync handle).exec w).2 =
      { w with fs := committed w.fs, disk := storeAll (commitWrites w.fs) w.disk } := by
    obtain ⟨h, hh⟩ := Option.isSome_iff_exists.mp hopen
    have hcommit := commit_run hdirty hro hg
    rw [writeAll_reliable hd] at hcommit
    have hrun : DunitFs.fsync handle w = commit w := by
      show (okOr .invalidDescriptor (findHandle w.fs handle) >>= fun _ => commit) w = commit w
      rw [hh]
      rfl
    exact congrArg Prod.snd (Prog.bind_ok (hrun.trans hcommit))
  have hstep : Event.step w.fs.part ((Call.fsync handle).exec w).2 .remount =
      .ok { ((Call.fsync handle).exec w).2 with fs } := by
    rw [hfsync]
    show (load w.fs.part (storeAll (commitWrites w.fs) w.disk)).map _ = _
    have hwrites : commitWrites w.fs = Meta.writes ⟨w.fs.bitmap, w.fs.nodes⟩ w.fs.part w.fs.geom
        ((w.fs.generation + 1) % 2 ^ 64) (1 - w.fs.activeSlot) := rfl
    rw [hwrites, hload]
    rfl
  refine ⟨{ ((Call.fsync handle).exec w).2 with fs }, ?_, hfs⟩
  show (Event.step w.fs.part ((Call.fsync handle).exec w).2 .remount >>= pure) = _
  rw [hstep]
  rfl

/-- A directory is renamed to a path below itself. Another directory with an open file comes
to the path of the first, and the file to the path of what is below it; then the file is
written. -/
def twoNames : List Call :=
  [.mkdir ['a'], .rename ['a'] ['a', '/', 'b'], .mkdir ['x'], .open_ ['x', '/', 'b'] ⟨7⟩,
    .rename ['x'] ['a'], .write 1 [1]]

/-- After a failed `ftruncate_handle`, another file is written. -/
def longFile : List Call := fragmented ++ [.seek 2 0 0, .write 2 [1]]

/-- A state in which the metadata does not pass the strict builder and is about to be written
to the disk, with a block that a degraded mount takes from its node. -/
def Leaking (p : Partition) (w : World) (handle b : ℕ) : Prop :=
  w.fs.part = p ∧ w.fs.geom = Geometry.derive p.blocks ∧ w.disk.faults = [] ∧
    (∀ b < p.blocks, w.disk.bad (p.start + b) = false) ∧ w.fs.dirty = true ∧
    w.fs.readOnly = false ∧ (findHandle w.fs handle).isSome = true ∧
    w.fs.bitmap.length = w.fs.geom.bitmapLen ∧
    (∀ i, (w.fs.nodes i).all (fun n => decide (byteLen n.path ≤ pathSize)) = true) ∧
    passes w.fs.geom w.fs.nodes = false ∧ bitGet w.fs.bitmap b = true ∧
    w.fs.geom.dataStart ≤ b ∧ b < w.fs.geom.totalBlocks ∧
    ∀ i, (salvage w.fs.geom w.fs.nodes i).all (fun n => decide (b ∉ blocksOf n.extents)) = true

instance (p : Partition) (w : World) (handle b : ℕ) : Decidable (Leaking p w handle b) :=
  inferInstanceAs (Decidable (_ ∧ _))

/-- The block has no owner after a restart. -/
theorem Leaking.not_owned {p : Partition} {w : World} {handle b : ℕ}
    (hgeom : validateGeometry p (Geometry.derive p.blocks) = .ok ()) (h : Leaking p w handle b) :
    ∃ w', runEvents p w [.call (.fsync handle), .remount] = .ok w' ∧ ¬Owned w'.fs := by
  obtain ⟨rfl, hderive, hd, hread, hdirty, hro, hopen, hlen, hpaths, hstrict, hbit, hlo, hhi,
    hfree⟩ := h
  have hpath : ∀ i n, w.fs.nodes i = some n → byteLen n.path ≤ pathSize := by
    intro i n hn
    have hi := hpaths i
    rw [hn] at hi
    exact of_decide_eq_true hi
  rw [← hderive] at hgeom
  obtain ⟨w', hrun, hg, hbitmap, hnodes⟩ := restart_degraded hgeom hderive hd hread
    ⟨hlen, hpath⟩ hdirty hro hopen hstrict
  refine ⟨w', hrun, fun howned => ?_⟩
  rw [← hg] at hhi hlo
  rw [← hbitmap] at hbit
  rcases (howned.bit_iff b hhi).mp hbit with hlt | ⟨⟨i, k⟩, ⟨n, e, hn, he, hbe⟩, -⟩
  · omega
  · have hi := hfree i
    rw [← hnodes, hn] at hi
    exact of_decide_eq_true hi (mem_blocksOf.mpr ⟨e, mem_of_getElem? he, hbe⟩)

theorem runEvents_calls (p : Partition) (w : World) (cs : List Call) (es : List Event) :
    runEvents p w (cs.map .call ++ es) = runEvents p (runCalls w cs) es := by
  induction cs generalizing w with
  | nil => rfl
  | cons c cs ih => exact ih (c.exec w).2

/-- **Neither condition can be dropped.** After a rename of a directory below itself, and after
a shrinking `ftruncate_handle` that runs out of extents, a mount drops a node whose blocks stay
in use. -/
theorem run_not_owned :
    boot smallPartition zeroDevice = .ok (smallWorld.fs, smallWorld.disk) ∧
      (∃ w, runEvents smallPartition smallWorld
        (twoNames.map .call ++ [.call (.fsync 1), .remount]) = .ok w ∧ ¬Owned w.fs) ∧
      ∃ w, runEvents smallPartition smallWorld
        (longFile.map .call ++ [.call (.fsync 2), .remount]) = .ok w ∧ ¬Owned w.fs := by
  have htwo : Leaking smallPartition (runCalls smallWorld twoNames) 1 68 := by decide +kernel
  have hlong : Leaking smallPartition (runCalls smallWorld longFile) 2 68 := by decide +kernel
  rw [runEvents_calls, runEvents_calls]
  exact ⟨boot_small, htwo.not_owned validate_small, hlong.not_owned validate_small⟩

end DunitOS.DunitFs
