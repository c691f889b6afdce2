import DunitOS.Fs.DunitFs.Space

/-!
# What a call leaves alone

A call works on one file, but the blocks it frees and takes are those of the whole partition,
and a commit writes the metadata of all files. This file follows a file that a call is *not*
about. The relation `Frame` says that its node and the blocks of its node are what they were,
and that what the disk holds of it still agrees with what is in memory if it did before; it is
reflexive and transitive, every piece of every call satisfies it, and the invariant of the runs
is what keeps the blocks of two files apart at each step.

The outcome is stated for paths and for what is read back under them (`run_undisturbed`). It
rests on the two conditions of a guarded call, of which only the one on renames concerns the
call itself: once two files share a path, a rename of one changes what is read of the other
(`rename_hides_other_file`).
-/

namespace DunitOS.DunitFs

open SysLib Vfs List Option Set Call

open Prog (Ends)

/-! ### The frame of a call -/

/-- **The disk agrees with memory about a file**: the published metadata has the same node at
its index. -/
def Settled (p : Partition) (w : World) (j : Fin maxNodes) : Prop :=
  ∃ m, Published p w.fs.geom w.disk w.fs.generation w.fs.activeSlot m ∧
    Consistent (fun _ => True) ∅ w.fs.geom m.bitmap m.nodes ∧ m.nodes j = w.fs.nodes j

/-- **Nothing happens to a file**: not to its node, not to the blocks of the node, and not to
its agreement with the disk, which a commit brings about. -/
structure Frame (p : Partition) (j : Fin maxNodes) (w t : World) : Prop where
  start_eq : t.fs.partitionStart = w.fs.partitionStart
  node_eq : t.fs.nodes j = w.fs.nodes j
  data_eq : ∀ n, w.fs.nodes j = some n → ∀ b ∈ blocksOf n.extents,
    t.disk.data (w.fs.partitionStart + b) = w.disk.data (w.fs.partitionStart + b)
  settled : Settled p w j ∨ t.fs.generation ≠ w.fs.generation → Settled p t j

variable {p : Partition} {E : Set (Fin maxNodes)} {w t u : World} {i j : Fin maxNodes} {n : Node}

namespace Frame

theorem refl (p : Partition) (j : Fin maxNodes) (w : World) : Frame p j w w :=
  ⟨rfl, rfl, fun _ _ _ _ => rfl, fun h => h.resolve_right fun hne => hne rfl⟩

theorem trans (h1 : Frame p j w t) (h2 : Frame p j t u) : Frame p j w u := by
  refine ⟨h2.start_eq.trans h1.start_eq, h2.node_eq.trans h1.node_eq, fun n hn b hb => ?_,
    fun h => h2.settled ?_⟩
  · have hdata := h2.data_eq n (h1.node_eq.trans hn) b hb
    rw [h1.start_eq] at hdata
    exact hdata.trans (h1.data_eq n hn b hb)
  · rcases eq_or_ne t.fs.generation w.fs.generation with heq | hne
    · rw [← heq] at h
      exact h.imp_left fun hw => h1.settled (.inl hw)
    · exact .inl (h1.settled (.inr hne))

/-- A change in memory that leaves the node alone. -/
theorem setFs (fs : DunitFs) (hm : SameMount w.fs fs) (hnode : fs.nodes j = w.fs.nodes j)
    (clock : ℕ → UInt64) : Frame p j w { w with fs, clock } := by
  refine ⟨congrArg Partition.start hm.part_eq, hnode, fun _ _ _ _ => rfl, fun h => ?_⟩
  obtain ⟨m, hpub, hcons, hmj⟩ := h.resolve_right fun hne => hne hm.generation_eq
  refine ⟨m, ?_, ?_, hmj.trans hnode.symm⟩
  · show Published p fs.geom w.disk fs.generation fs.activeSlot m
    rw [hm.geom_eq, hm.generation_eq, hm.slot_eq]
    exact hpub
  · show Consistent _ ∅ fs.geom m.bitmap m.nodes
    rw [hm.geom_eq]
    exact hcons

/-- A change of another node. -/
theorem setNode (hij : j ≠ i) (o : Option Node) (bitmap : List UInt8) (dirty : Bool)
    (clock : ℕ → UInt64) :
    Frame p j w { w with clock, fs := { DunitFs.setNode w.fs i o with bitmap, dirty } } :=
  setFs { DunitFs.setNode w.fs i o with bitmap, dirty } ⟨rfl, rfl, rfl, rfl⟩
    (Function.update_of_ne hij _ _) clock

/-- The contents of the file are what they were. -/
theorem contents_eq (h : Frame p j w t) (hn : w.fs.nodes j = some n) :
    contents t n = contents w n := by
  show (extentBytes t n.extents).take n.size = (extentBytes w n.extents).take n.size
  rw [extentBytes, h.start_eq]
  refine congrArg (take n.size) (Disk.gather_congr fun c hc => ?_)
  obtain ⟨b, hb, rfl⟩ := mem_map.mp hc
  exact h.data_eq n hn b hb

end Frame

/-! ### The pieces of the calls -/

/-- **A program is framed**: nothing happens to a file, however the program ends. -/
def Framed {α : Type} (p : Partition) (j : Fin maxNodes) (m : FsM α) (w : World) : Prop :=
  Ends (fun _ => Frame p j w) (fun _ => Frame p j w) (m w)

/-- What comes after a framed piece starts where it has left off. -/
theorem Frame.ends {α : Type} {m : FsM α} (h : Frame p j w t) (hm : Framed p j m t) :
    Ends (fun _ => Frame p j w) (fun _ => Frame p j w) (m t) :=
  hm.imp (fun _ _ hu => h.trans hu) fun _ _ hu => h.trans hu

/-- **The blocks of two files are apart.** -/
theorem Inv.notMem_blocks (h : Intact p E w) (hij : j ≠ i)
    (hn : w.fs.nodes i = some n) {b : ℕ} (hb : b ∈ blocksOf n.extents) {m : Node}
    (hm : w.fs.nodes j = some m) : b ∉ blocksOf m.extents := fun hbm =>
  h.sound.consistent.accounted.disjoint j i m n hij hm hn hbm hb

theorem framed_writeRaw (h : Intact p E w) {b : ℕ} (hb : w.fs.geom.dataStart ≤ b)
    (hfree : ∀ m, w.fs.nodes j = some m → b ∉ blocksOf m.extents) {x : Block blockSize} :
    Framed p j (writeRaw b x) w := by
  show Ends _ _ (onDisk (writePartitionBlock w.fs.part b x) w)
  obtain ⟨rfl, hgeom, hrel, -⟩ := h.disk p rfl
  rw [writePartitionBlock]
  split_ifs with hout
  · exact .refl _ j w
  · rw [onDisk_ok (Disk.write_reliable hrel _ _ _)]
    refine ⟨rfl, rfl, fun m hm c hc => ?_, fun hset => ?_⟩
    · refine Disk.data_store_of_ne _ _ fun heq => hfree m hm ?_
      have heq : w.fs.partitionStart + c = w.fs.partitionStart + b := heq
      rwa [← Nat.add_left_cancel heq]
    · obtain ⟨m, hpub, hcons, hmj⟩ := hset.resolve_right fun hne => hne rfl
      exact ⟨m, hpub.store_data h.sound.fits hb x, hcons, hmj⟩

/-- **A commit** leaves every file as it is, and agrees with memory about it. -/
theorem framed_commit (h : Intact p ∅ w) (j : Fin maxNodes) : Framed p j commit w := by
  unfold Framed
  have hg := h.sound.fits
  rcases commit_cases hg with hrun | hrun | hrun
  · rw [hrun]
    exact .refl p j w
  · rw [hrun]
    exact .refl p j w
  obtain ⟨rfl, hgeom, hrel, m, hpub, hm⟩ := h.disk p rfl
  rw [hrun, Disk.writeAll_reliable hrel]
  refine ⟨rfl, rfl, fun n hn b hb => ?_, fun _ => ?_⟩
  · refine Disk.data_storeAll_of_forall_ne _ _ fun x hx => ?_
    have hlt := lt_dataStart_of_mem_commitWrites hg hx
    have hle := (h.sound.consistent.accounted.mem_range hn hb).1
    omega
  · have hcons := h.sound.consistent
    exact ⟨⟨w.fs.bitmap, w.fs.nodes⟩, published_of_writes (m := ⟨w.fs.bitmap, w.fs.nodes⟩) hg
      hpub.readable (Nat.mod_lt _ (Nat.two_pow_pos 64)) (Nat.sub_le 1 _)
      (Mountable.sized (hcons.mountable hg)), hcons, rfl⟩

/-- **The frame of a file rides along** while the nodes at other indices change. -/
theorem rides_frame : Rides (some p) (fun _ => True) E {i | i ≠ j} (Frame p j w) where
  handles t handles nextHandle h :=
    h.trans (.setFs { t.fs with handles, nextHandle } ⟨rfl, rfl, rfl, rfl⟩ rfl t.clock)
  mark t nodes bitmap handles clock hnodes h :=
    h.trans (.setFs { t.fs with nodes, bitmap, handles, dirty := true } ⟨rfl, rfl, rfl, rfl⟩
      (hnodes j fun hne => hne rfl) clock)
  grow i hi n t es u hn hgrown h := by
    obtain ⟨-, bitmap, rfl⟩ := hgrown
    exact h.trans (.setNode (Ne.symm hi) _ bitmap t.fs.dirty t.clock)
  raw i hi n t ht hn h b hb hdata x :=
    h.ends (framed_writeRaw ht hdata (fun m hm => ht.notMem_blocks (Ne.symm hi) hn hb hm))

theorem lasts_frame : Lasts (some p) (fun _ => True) ∅ {i | i ≠ j} (Frame p j w) :=
  ⟨rides_frame, fun _ ht h => h.ends (framed_commit ht j)⟩

/-! ### The calls -/

variable {path : Path}

theorem ne_of_nodeIndex (hn : w.fs.nodes j = some n) (hpath : n.path ≠ clean path)
    (hi : nodeIndex w.fs (clean path) = some i) : j ≠ i := by
  rintro rfl
  obtain ⟨m, hm, hmp⟩ := nodeIndex_some hi
  rw [hn] at hm
  cases hm
  exact hpath (hmp.trans (clean_clean path))

/-- **`ftruncate_handle`** leaves the other files alone, and only its own file may be left
without its blocks when it fails. -/
theorem framed_ftruncateHandle {handle len : ℕ} (h : Intact p ∅ w)
    (hspare : ∀ x, findHandle w.fs handle = some x → x.node ≠ j) :
    Ends (fun _ t => Frame p j w t ∧ ∃ E, j ∉ E ∧ Intact p E t)
      (fun _ t => Frame p j w t ∧ ∃ E, j ∉ E ∧ Intact p E t)
      (ftruncateHandle handle len w) := by
  have hstay : Frame p j w w ∧ ∃ E, j ∉ E ∧ Intact p E w :=
    ⟨.refl p j w, ∅, notMem_empty j, h⟩
  refine ends_ftruncateHandle (M := fun t => Frame p j w t ∧ Intact p ∅ t) (fun _ => hstay)
    (fun x n hx hn hfile => ⟨fun _ => hstay, fun hlt => ?_, fun _ => ?_⟩) fun t ⟨hframe, ht⟩ => ?_
  · have hij : j ≠ x.node := (hspare x hx).symm
    have hframe := shrink_keeps rides_frame hij.symm
      (fun t nodes bitmap clock hnodes ht => ht.trans (.setFs { t.fs with nodes, bitmap }
        ⟨rfl, rfl, rfl, rfl⟩ (hnodes j fun hne => hne rfl) clock)) h hn hfile (.refl p j w) len
    have hinv := h.mono (empty_subset {x.node})
    have hends := shrink_ends hinv hn hfile hlt (.inl (mem_singleton _))
    rcases hrun : shrink x.node len w with ⟨e | u, t⟩
    · exact ⟨hframe.of_error hrun, {x.node}, hij, (hends.of_error hrun).2⟩
    · have hrew : x.node ∈ (∅ : Set (Fin maxNodes)) ∨ (0 < len → rewrites w x.node len = true) :=
        .inr fun hpos => (rewrites_of_shrink x.node hpos).of_ok hrun
      exact ⟨hframe.of_ok hrun, (shrink_ends h hn hfile hlt hrew).of_ok hrun⟩
  · exact (growLoop_safe rides_frame (hspare x hx) _ _ _ w ⟨⟨h, .refl p j w⟩, n, hn, hfile⟩).imp
      (fun _ _ ht => ⟨ht.1.2, ht.1.1⟩) fun _ _ ht => ⟨ht.2.1.2, ∅, notMem_empty j, ht.2.1.1⟩
  have hd : Intact p ∅ { t with fs := setDirty t.fs } :=
    ht.setMeta ht.sound.consistent fun _ hj => hj
  refine (lasts_frame.commit_safe (fun _ => rfl) _
    ⟨hd, lasts_frame.mark t _ _ _ t.clock (fun _ _ => rfl) hframe⟩).imp ?_ ?_
  · exact fun _ u hu => ⟨hu.2, ∅, notMem_empty j, hu.1⟩
  · exact fun _ u hu => ⟨hu.2.2, ∅, notMem_empty j, hu.2.1⟩

/-! ### What is read back under a path -/

/-- The path a call concerns: the one it names, or that of the file it has a handle of. -/
def Call.concerns (w : World) : Call → Option Path
  | open_ path _ | create path | mkdir path | truncate path | remove path | rename path _ =>
    some (clean path)
  | read handle _ | write handle _ | seek handle _ _ | ftruncate handle _ | fsync handle
  | close handle => ((findHandle w.fs handle).bind fun x => w.fs.nodes x.node).map Node.path

/-- Where a file is found after a call: a rename that succeeds moves what is below the renamed
directory. -/
def Call.follow (w : World) (path : Path) : Call → Path
  | rename old new =>
    if (DunitFs.rename old new w).1.isOk then renamed (clean old) (clean new) path else path
  | _ => path

/-- **What is read back of a file**: its size and its bytes. -/
def readFile (w : World) (path : Path) : Option (ℕ × Except Stop (List UInt8)) := do
  let i ← nodeIndex w.fs path
  let n ← w.fs.nodes i
  if n.fileType = .file then some (n.size, (readNode i 0 n.size w).1) else none

/-- **Nothing of a file waits for a commit**: a mount finds the node that is in memory. -/
def Committed (p : Partition) (w : World) (path : Path) : Prop :=
  ∃ w0 i, Event.step p w .remount = .ok w0 ∧ nodeIndex w.fs path = some i ∧
    w0.fs.nodes i = w.fs.nodes i

theorem nodeIndex_of_path {P : Path → Prop} {D : Option Partition} (h : Inv D P E w)
    (hn : w.fs.nodes j = some n) (hpath : n.path = clean path) :
    nodeIndex w.fs path = some j := by
  rcases hi : nodeIndex w.fs path with _ | i
  · exact absurd hpath (nodeIndex_none hi j hn)
  · obtain ⟨m, hm, hmp⟩ := nodeIndex_some hi
    rw [h.sound.consistent.tree.distinct i j m n hm hn (hmp.trans hpath.symm)]

/-- A file that has its blocks is read back in full. -/
theorem readFile_eq (h : Intact p E w) (hj : j ∉ E)
    (hn : w.fs.nodes j = some n) (hfile : n.fileType = .file)
    (hpath : n.path = clean path) : readFile w path = some (n.size, .ok (contents w n)) := by
  have hback := h.sound.consistent.backed j n hn hj
  have hrun : readNode j 0 n.size w = (.ok (slice (contents w n) 0 n.size), w) :=
    readNode_run h hn hback 0 n.size
  have hwhole : slice (contents w n) 0 n.size = contents w n :=
    take_of_length_le (length_contents w hback).le
  simp only [readFile, nodeIndex_of_path h hn hpath, hn, hfile, hrun, hwhole, bind_eq_bind,
    bind_some, if_true]

theorem node_of_readFile {bytes : ℕ × Except Stop (List UInt8)}
    (h : readFile w path = some bytes) : ∃ j n, nodeIndex w.fs path = some j ∧
      w.fs.nodes j = some n ∧ n.path = clean path ∧ n.fileType = .file := by
  obtain ⟨j, hj, h⟩ := bind_eq_some_iff.mp h
  obtain ⟨n, hn, h⟩ := bind_eq_some_iff.mp h
  obtain ⟨m, hm, hpath⟩ := nodeIndex_some hj
  obtain rfl := some.inj (hn.symm.trans hm)
  refine ⟨j, n, hj, hn, hpath, ?_⟩
  by_contra hfile
  rw [if_neg hfile] at h
  cases h

/-- What a call is to leave of a file that it does not concern. -/
structure Spared (p : Partition) (j : Fin maxNodes) (n : Node) (path : Path) (w t : World) :
    Prop where
  sound : ∃ E, j ∉ E ∧ Intact p E t
  node : ∃ n', t.fs.nodes j = some n' ∧ n'.path = path ∧ n'.fileType = n.fileType ∧
    n'.size = n.size ∧ contents t n' = contents w n
  settled : Settled p w j ∨ t.fs.generation ≠ w.fs.generation → Settled p t j

theorem Frame.spared (h : Frame p j w t) (ht : Intact p ∅ t)
    (hn : w.fs.nodes j = some n) : Spared p j n n.path w t :=
  ⟨⟨∅, notMem_empty j, ht⟩, ⟨n, h.node_eq.trans hn, rfl, rfl, rfl, h.contents_eq hn⟩, h.settled⟩

/-- A commit that has something to do ends in a new generation. -/
theorem commit_generation {P : Path → Prop} (h : Inv (some p) P E w) (hdirty : w.fs.dirty = true)
    (hro : w.fs.readOnly = false) : (commit w).2.fs.generation ≠ w.fs.generation := by
  obtain ⟨-, -, hrel, m, hpub, -⟩ := h.disk p rfl
  rw [commit_run hdirty hro h.sound.fits, Disk.writeAll_reliable hrel]
  show (w.fs.generation + 1) % 2 ^ 64 ≠ w.fs.generation
  omega

/-- The state after a call does not depend on how its result is packed. -/
theorem reply_state {α : Type} {m : FsM α} {f : α → Reply} :
    ((m >>= fun a => pure (f a)) w).2 = (m w).2 := by
  rcases hm : m w with ⟨e | a, t⟩
  · rw [Prog.bind_error hm]
  · rw [Prog.bind_ok hm]
    rfl

/-- **The calls that commit**: one that succeeds in making, emptying, moving or removing a file,
and an `fsync` or a `close` that succeeds when a change is marked. -/
def Call.Commits (w : World) (c : Call) : Prop :=
  (c.exec w).1.isOk = true ∧ match c with
    | create _ | mkdir _ | truncate _ | rename _ _ | remove _ => True
    | fsync _ | close _ => w.fs.dirty = true
    | _ => False

/-- A call that succeeds and ends in a commit of a marked change ends in a new generation. -/
theorem generation_reply (p : Partition) {m : FsM Unit} {f : Unit → Reply}
    (hm : (∃ e, m w = (.error e, w)) ∨ ∃ u, m w = commit u ∧ Intact p ∅ u ∧
      u.fs.dirty = true ∧ u.fs.generation = w.fs.generation)
    (hok : ((m >>= fun a => pure (f a)) w).1.isOk = true) :
    ((m >>= fun a => pure (f a)) w).2.fs.generation ≠ w.fs.generation := by
  rw [reply_state]
  rcases hm with ⟨e, hrun⟩ | ⟨u, hrun, hu, hdirty, hgen⟩
  · rw [Prog.bind_error hrun] at hok
    cases hok
  rcases hro : u.fs.readOnly with _ | _
  · rw [hrun, ← hgen]
    exact commit_generation hu hdirty hro
  · have hfail : commit u = (.error (.err .permissionDenied), u) := by
      rw [commit, Prog.get_bind_run, hdirty]
      exact Prog.bind_error (by simp [ensureWritable, hro])
    rw [Prog.bind_error (hrun.trans hfail)] at hok
    cases hok

theorem createNode_commits (path : Path) (fileType : FileType) (h : Intact p ∅ w)
    (ht : fileType ≠ .device) : (∃ e, createNode path fileType w = (.error e, w)) ∨
      ∃ u, createNode path fileType w = commit u ∧ Intact p ∅ u ∧ u.fs.dirty = true ∧
        u.fs.generation = w.fs.generation := by
  refine (@createNode_cases path _ _ _ w fileType h ht trivial).imp ?_ ?_
  · rintro ⟨e, hrun⟩
    exact ⟨_, hrun⟩
  · rintro ⟨i, n, clock, -, hrun, hu⟩
    exact ⟨_, hrun, hu, rfl, rfl⟩

theorem Call.Commits.generation (h : Intact p ∅ w) {c : Call} (hren : c.RenameOk w)
    (hc : c.Commits w) : (c.exec w).2.fs.generation ≠ w.fs.generation := by
  obtain ⟨hok, hc⟩ := hc
  cases c with
  | create path => exact generation_reply p (createNode_commits path .file h (by simp)) hok
  | mkdir path => exact generation_reply p (createNode_commits path .directory h (by simp)) hok
  | truncate path =>
    refine generation_reply p ?_ hok
    rcases truncate_cases h with ⟨e, hrun⟩ | ⟨i, n, now, clock, -, hn, -, hrun, hu⟩
    · exact .inl ⟨_, hrun⟩
    · exact .inr ⟨_, hrun, hu, rfl, by rw [freeExtents_eq hn]; rfl⟩
  | rename old new =>
    refine generation_reply p ?_ hok
    rcases renameNode_cases h hren (fun _ _ => trivial) with
      ⟨e, hrun⟩ | ⟨i, n, now, clock, -, -, -, hrun, hu⟩
    · exact .inl ⟨_, hrun⟩
    · exact .inr ⟨_, hrun, hu, rfl, rfl⟩
  | remove path =>
    refine generation_reply p ?_ hok
    rcases remove_cases path h with ⟨e, hrun⟩ | ⟨i, n, -, hn, hrun, hu⟩
    · exact .inl ⟨_, hrun⟩
    · exact .inr ⟨_, hrun, hu, rfl, by rw [removed, freeExtents_eq hn]; rfl⟩
  | fsync handle =>
    refine generation_reply p (m := DunitFs.fsync handle) ?_ hok
    rw [DunitFs.fsync, getFs_bind_run]
    rcases hx : findHandle w.fs handle with _ | x
    · exact .inl ⟨_, rfl⟩
    · rw [okOr_some_bind]
      exact .inr ⟨w, rfl, h, hc, rfl⟩
  | close handle =>
    refine generation_reply p (m := DunitFs.close handle) ?_ hok
    rw [DunitFs.close, getFs_bind_run]
    rcases hx : findHandle w.fs handle with _ | x
    · exact .inl ⟨_, rfl⟩
    · rw [okOr_some_bind]
      exact .inr ⟨_, rfl, h.setHandles fun y hy => h.sound.handles y (mem_of_mem_eraseP hy), hc,
        rfl⟩
  | open_ | read | write | seek | ftruncate => exact hc.elim

/-- A rename leaves the files alone that it does not concern, but they may move. -/
theorem spared_rename {old new : Path} (h : Intact p ∅ w)
    (hren : RenameOk w.fs old new) (hn : w.fs.nodes j = some n) :
    Spared p j n ((Call.rename old new).follow w n.path) w (renameNode old new w).2 := by
  have hfail : ∀ {e}, renameNode old new w = (.error (.err e), w) →
      Spared p j n ((Call.rename old new).follow w n.path) w (renameNode old new w).2 := by
    intro e hrun
    have hfollow : (Call.rename old new).follow w n.path = n.path := by
      rw [Call.follow, DunitFs.rename, hrun]
      rfl
    rw [hfollow, hrun]
    exact (Frame.refl p j w).spared h hn
  rcases hro : w.fs.readOnly with _ | _
  swap
  · exact hfail (ensureWritable_bind_error hro)
  rcases renameNode_cases h hren (fun _ _ => trivial) with
    ⟨e, hrun⟩ | ⟨i, m, now, clock, -, hm, hmp, hrun, hu⟩
  · exact hfail hrun
  -- the table has changed; its commit succeeds
  obtain ⟨n', hn', hmoved⟩ :=
    (moved_renameTable h.sound.consistent.tree hm (clean new) now).forth j n hn
  have hok := commit_ok hu hro
  have hframe := (framed_commit hu j).state (fun _ _ ht => ht) fun _ _ ht => ht
  have hgen := commit_generation hu rfl hro
  have hinv := (commit_ends (fun _ => rfl) hu).state (fun _ _ ht => ht.1) fun _ _ ht => ht.2.1
  have hfollow : (Call.rename old new).follow w n.path = n'.path := by
    rw [Call.follow, DunitFs.rename, hrun, hok, hmoved.path_eq, hmp]
    rfl
  rw [hfollow, hrun]
  refine ⟨⟨∅, notMem_empty j, hinv⟩, ⟨n', hframe.node_eq.trans hn', rfl, hmoved.type_eq,
    hmoved.size_eq, ?_⟩, fun _ => hframe.settled (.inr hgen)⟩
  rw [hframe.contents_eq hn', contents, contents, hmoved.size_eq, hmoved.extents_eq]
  rfl

/-- **The frame of a call**, whatever call it is but a rename of a directory below itself. -/
theorem exec_spared (h : Intact p ∅ w) (c : Call) (hren : c.RenameOk w)
    (hn : w.fs.nodes j = some n) (hspare : c.concerns w ≠ some n.path) :
    Spared p j n (c.follow w n.path) w (c.exec w).2 := by
  have hhandle : ∀ {handle : ℕ}, ((findHandle w.fs handle).bind fun x => w.fs.nodes x.node).map
      Node.path ≠ some n.path → ∀ x, findHandle w.fs handle = some x → x.node ≠ j := by
    rintro handle hne x hx rfl
    exact hne (by rw [hx, bind_some, hn, map_some])
  have hnew : ∀ i, w.fs.nodes i = none → i ≠ j := by
    rintro i hnone rfl
    rw [hn] at hnone
    cases hnone
  have hindex : ∀ {path : Path}, some (clean path) ≠ some n.path → ∀ t, Frame p j w t → ∀ i,
      nodeIndex t.fs (clean path) = some i → i ≠ j := fun hne t ht i hi =>
    (ne_of_nodeIndex (ht.node_eq.trans hn) (fun heq => hne (congrArg some heq.symm)) hi).symm
  have hrest (hin : c.Within {i | i ≠ j} (Frame p j w) w)
      (hc : ∀ handle len, c ≠ .ftruncate handle len) : Spared p j n n.path w (c.exec w).2 := by
    have hends := c.exec_safe lasts_frame (fun _ => rfl) ⟨h, .refl p j w⟩ c.names_true hren hin
      fun handle len heq => absurd heq (hc handle len)
    obtain ⟨ht, hframe⟩ := hends.state (fun _ _ ht => ht) fun _ _ ht => ht.2
    exact hframe.spared ht hn
  cases c with
  | open_ => exact hrest ⟨hnew, fun _ => hindex hspare⟩ (by simp)
  | create | mkdir => exact hrest hnew (by simp)
  | truncate | remove => exact hrest (hindex hspare w (.refl p j w)) (by simp)
  | write => exact hrest (hhandle hspare) (by simp)
  | read | seek | fsync | close => exact hrest trivial (by simp)
  | ftruncate handle len =>
    obtain ⟨hframe, hsound⟩ := (framed_ftruncateHandle h (hhandle hspare)).state
      (fun _ _ ht => ht) fun _ _ ht => ht
    rw [exec, reply_state]
    exact ⟨hsound, ⟨n, hframe.node_eq.trans hn, rfl, rfl, rfl, hframe.contents_eq hn⟩,
      hframe.settled⟩
  | rename =>
    rw [exec, reply_state]
    exact spared_rename h hren hn

/-! ### After a mount -/

/-- A mount finds the files the disk agrees about as they are. -/
theorem Settled.remount (hgeom : validateGeometry p (Geometry.derive p.blocks) = .ok ())
    (h : Intact p E w) (hset : Settled p w j) :
    ∃ w', Event.step p w .remount = .ok w' ∧ Intact p ∅ w' ∧
      w'.fs.nodes j = w.fs.nodes j ∧ ∀ n, contents w' n = contents w n := by
  obtain ⟨hpart, hgeq, hrel, -⟩ := h.disk p rfl
  obtain ⟨m, hpub, hm, hmj⟩ := hset
  rw [hgeq] at hpub hm
  obtain ⟨hstep, hinv⟩ := remount_published hgeom hpub hm
  refine ⟨_, hstep, hinv hrel, hmj, fun n => ?_⟩
  have hstart : w.fs.partitionStart = p.start := congrArg Partition.start hpart
  rw [contents, contents, extentBytes, extentBytes, hstart]
  rfl

theorem Committed.settled (hgeom : validateGeometry p (Geometry.derive p.blocks) = .ok ())
    (h : Intact p E w) (hc : Committed p w path)
    (hj : nodeIndex w.fs path = some j) : Settled p w j := by
  obtain ⟨w0, i, hstep, hi, hnode⟩ := hc
  obtain rfl := some.inj (hj.symm.trans hi)
  obtain ⟨-, hgeq, -, m, hpub, hm⟩ := h.disk p rfl
  refine ⟨m, hpub, hm, ?_⟩
  rw [hgeq] at hpub hm
  rw [Event.step, load_published hgeom hpub (hm.mountable (fits_of_validateGeometry hgeom))]
    at hstep
  cases hstep
  exact hnode

/-- **A call does not disturb other files.** On a device without faults, after any run of
guarded calls and mounts from the formatting of a partition on, a call that is no rename of a
directory below itself, whether it succeeds or fails, leaves what is read back of every file
that it does not concern as it is; and so does a mount after the call, if nothing of the file
waits for a commit or the call commits: it is one of those that do, or it ends in another
generation. -/
theorem run_undisturbed {d : Device} {s : DunitFs × Device} (hboot : boot p d = .ok s)
    (hd : d.Reliable) (hread : ∀ b < p.blocks, d.bad (p.start + b) = false) (clock : ℕ → UInt64)
    (es : List Event) (hes : GuardedRun p ⟨s.1, s.2, clock⟩ es) :
    ∃ w, runEvents p ⟨s.1, s.2, clock⟩ es = .ok w ∧
      ∀ c : Call, c.RenameOk w → ∀ path bytes, readFile w path = some bytes →
        c.concerns w ≠ some (clean path) →
        readFile (c.exec w).2 (c.follow w (clean path)) = some bytes ∧
        (Committed p w path ∨ c.Commits w ∨ (c.exec w).2.fs.generation ≠ w.fs.generation →
          ∃ w', Event.step p (c.exec w).2 .remount = .ok w' ∧
            readFile w' (c.follow w (clean path)) = some bytes) := by
  have hgeom := (boot_eq_ok hboot).1
  obtain ⟨w, hrun, h⟩ := (inv_boot_reliable hgeom hd hread hboot clock).runEvents hgeom hes
  refine ⟨w, hrun, fun c hren path bytes hbytes hspare => ?_⟩
  obtain ⟨j, n, hj, hn, hpath, hfile⟩ := node_of_readFile hbytes
  obtain rfl : bytes = (n.size, .ok (contents w n)) := by
    rw [readFile_eq h (notMem_empty j) hn hfile hpath] at hbytes
    exact (some.inj hbytes).symm
  rw [← hpath] at hspare ⊢
  obtain ⟨⟨E, hjE, ht⟩, ⟨n', hn', hpath', htype, hsize, hcont⟩, hset⟩ :=
    exec_spared h c hren hn hspare
  have hclean : n'.path = clean (c.follow w n.path) := by
    rw [← hpath']
    exact (trimSlashes_of_trimmed (ht.sound.consistent.tree.trimmed j n' hn')).symm
  rw [← htype] at hfile
  rw [← hsize, ← hcont]
  refine ⟨readFile_eq ht hjE hn' hfile hclean, fun hc => ?_⟩
  obtain ⟨w', hstep, hw', hnode, hsame⟩ := Settled.remount hgeom ht
    (hset (hc.imp (fun hc => hc.settled hgeom h hj) fun hc =>
      hc.elim (fun hc => hc.generation h hren) id))
  refine ⟨w', hstep, ?_⟩
  rw [← hsame]
  exact readFile_eq hw' (notMem_empty j) (hnode.trans hn') hfile hclean

def closedFile : List Call := [.open_ ['f'] ⟨7⟩, .write 1 [1, 2, 3], .close 1]

/-- The file is undisturbed when another one is created. -/
theorem run_undisturbed_create :
    ∃ w w', runEvents smallPartition smallWorld (closedFile.map .call) = .ok w ∧
      readFile ((Call.create ['g']).exec w).2 ['f'] = some (3, .ok [1, 2, 3]) ∧
      Event.step smallPartition ((Call.create ['g']).exec w).2 .remount = .ok w' ∧
      readFile w' ['f'] = some (3, .ok [1, 2, 3]) := by
  obtain ⟨w, hrun, hw⟩ := run_undisturbed boot_small rfl (fun _ _ => rfl) smallWorld.clock
    (closedFile.map .call) ⟨⟨trivial, trivial⟩, ⟨trivial, trivial⟩, ⟨trivial, trivial⟩, trivial⟩
  have heq : runEvents smallPartition smallWorld (closedFile.map .call) =
      .ok (runCalls smallWorld closedFile) := rfl
  obtain rfl : runCalls smallWorld closedFile = w := Except.ok.inj (heq.symm.trans hrun)
  obtain ⟨hnow, hlater⟩ := hw (.create ['g']) trivial ['f'] (3, .ok [1, 2, 3]) (by decide +kernel)
    (by decide)
  obtain ⟨w', hstep, hw'⟩ := hlater (.inr (.inl ⟨by decide +kernel, trivial⟩))
  exact ⟨_, w', heq, hnow, hstep, hw'⟩

/-- Two files come to have one path once the directory of one has moved below itself. -/
def onePath : List Call :=
  [.mkdir ['x'], .mkdir ['x', '/', 'b'], .create ['x', '/', 'b', '/', 'f'], .mkdir ['a'],
    .rename ['a'] ['a', '/', 'b'], .open_ ['a', '/', 'b', '/', 'f'] ⟨7⟩, .write 1 [1, 2, 3]]

/-- **The condition on renames cannot be dropped.** After a rename of a directory below itself,
a rename of `x` succeeds and changes what is read of the file `a/b/f`, which it does not
concern. -/
theorem rename_hides_other_file :
    boot smallPartition zeroDevice = .ok (smallWorld.fs, smallWorld.disk) ∧
      readFile (runCalls smallWorld onePath) ['a', '/', 'b', '/', 'f'] = some (3, .ok [1, 2, 3]) ∧
      (Call.rename ['x'] ['a']).concerns (runCalls smallWorld onePath) = some ['x'] ∧
      ((Call.rename ['x'] ['a']).exec (runCalls smallWorld onePath)).1 = .ok .unit ∧
      readFile ((Call.rename ['x'] ['a']).exec (runCalls smallWorld onePath)).2
        ['a', '/', 'b', '/', 'f'] = some (0, .ok []) := by
  refine ⟨boot_small, ?_⟩
  decide +kernel

end DunitOS.DunitFs
