import DunitOS.Fs.DunitFs.Contents
import DunitOS.Fs.DunitFs.Remount

/-!
# Running out of space

Blocks are given to a file run by run: `alloc_run` finds the first free block and as many free
blocks after it as are wanted, and the run is entered in the file's extents and in the bitmap
before the next one is looked for. Whether the loop reaches its end depends on the free blocks of
the whole partition and on the six extents a file has room for; `placeable` says which it is, on
the bitmap and the extents alone (`allocLoop_run`).

Two consequences of a loop that fails are the subject of this file. The runs it has taken stay
with the file, so that a `write` that does not fit changes nothing only if not even its first
run fits (`write_fails_unchanged_iff`). And an `ftruncate_handle` that shrinks a file gives up
its blocks before it asks for new ones, so that it succeeds only if what is kept can be placed
again (`shrinks_iff_placeable`).
-/

namespace DunitOS.DunitFs

open SysLib Prog Vfs List Option Set Nat

/-! ### What can be placed -/

/-- Whether a run of blocks can be taken and entered in the extents of a file. -/
def firstRun (g : Geometry) (bitmap : List UInt8) (extents : List Extent) (wanted : ℕ) :
    Option (Extent × List Extent) :=
  (allocRun bitmap g wanted).bind fun run => (addRun extents run).map fun es => (run, es)

/-- **Whether blocks can be placed**: run after run, the first free blocks first, without
running out of blocks or of extents. -/
def placeable (g : Geometry) : ℕ → List UInt8 → List Extent → ℕ → Bool
  | 0, _, _, _ => true
  | fuel + 1, bitmap, extents, wanted =>
    if wanted = 0 then true
    else match firstRun g bitmap extents wanted with
      | none => false
      | some (run, es) =>
        placeable g fuel (markUsed bitmap run.1 run.2) es (wanted - run.2)

section

variable {w : World} {i : Fin maxNodes} {n : Node}

variable {x : Extent × List Extent} {wanted : ℕ}

theorem firstRun_some {g : Geometry} {bitmap : List UInt8} {extents : List Extent}
    (h : firstRun g bitmap extents wanted = some x) :
    0 < x.1.2 ∧ (blocksOf x.2).length = (blocksOf extents).length + x.1.2 := by
  obtain ⟨run, hrun, hes⟩ := bind_eq_some_iff.mp h
  obtain ⟨es, hadd, rfl⟩ := map_eq_some_iff.mp hes
  refine ⟨?_, by rw [blocksOf_addRun hadd, length_append, length_range']⟩
  rw [allocRun, map_eq_some_iff] at hrun
  obtain ⟨block, hb, rfl⟩ := hrun
  obtain ⟨hlo, hhi, hfree⟩ := firstFree_some hb
  have hone : ∀ i < 1, bitGet bitmap (block + i) = false := by
    intro i hi
    obtain rfl : i = 0 := by omega
    exact hfree
  exact (extendRun_spec _ (show block + 1 ≤ g.totalBlocks by omega) hone).1

/-- The state in which a run has been given to a node. -/
def grant (w : World) (i : Fin maxNodes) (n : Node) (x : Extent × List Extent) : World :=
  { w with fs := { setNode w.fs i (some { n with extents := x.2 }) with
                   bitmap := markUsed w.fs.bitmap x.1.1 x.1.2 } }

theorem grant_node :
    (grant w i n x).fs.nodes i = some { n with extents := x.2 } := Function.update_self _ _ _

theorem allocLoop_succ (hn : w.fs.nodes i = some n) (fuel : ℕ) (hw : wanted ≠ 0) :
    allocLoop i (fuel + 1) wanted w =
      (firstRun w.fs.geom w.fs.bitmap n.extents wanted).elim (.error (.err .ioError), w)
        fun x => allocLoop i fuel (wanted - x.1.2) (grant w i n x) := by
  rw [allocLoop, if_neg hw]
  show (okOr .ioError (allocRun w.fs.bitmap w.fs.geom wanted) >>= _) w = _
  unfold firstRun
  rcases allocRun w.fs.bitmap w.fs.geom wanted with _ | run
  · rfl
  rw [hn]
  show (okOr .ioError (addRun n.extents run) >>= _) w = _
  rw [bind_some]
  rcases addRun n.extents run with _ | es
  all_goals rfl

/-- **The allocation loop succeeds if its blocks can be placed**, and otherwise fails for lack
of space. -/
theorem allocLoop_run (fuel wanted : ℕ) (hn : w.fs.nodes i = some n) :
    (allocLoop i fuel wanted w).1 =
      if placeable w.fs.geom fuel w.fs.bitmap n.extents wanted then .ok ()
      else .error (.err .ioError) := by
  induction fuel generalizing wanted w n with
  | zero => rfl
  | succ fuel ih =>
    rcases eq_or_ne wanted 0 with rfl | hw
    · rfl
    rw [allocLoop_succ hn fuel hw, placeable, if_neg hw]
    rcases firstRun w.fs.geom w.fs.bitmap n.extents wanted with _ | x
    · rfl
    · exact ih _ grant_node

/-- The blocks of the file only grow in number. -/
theorem allocLoop_blocks (fuel wanted : ℕ) (hn : w.fs.nodes i = some n) :
    ∃ n', (allocLoop i fuel wanted w).2.fs.nodes i = some n' ∧
      (blocksOf n.extents).length ≤ (blocksOf n'.extents).length := by
  induction fuel generalizing wanted w n with
  | zero => exact ⟨n, hn, le_refl _⟩
  | succ fuel ih =>
    rcases eq_or_ne wanted 0 with rfl | hw
    · exact ⟨n, hn, le_refl _⟩
    rw [allocLoop_succ hn fuel hw]
    rcases hrun : firstRun w.fs.geom w.fs.bitmap n.extents wanted with _ | x
    · exact ⟨n, hn, le_refl _⟩
    · obtain ⟨n', hn', hle⟩ := ih (wanted - x.1.2) grant_node
      have hlen := (firstRun_some hrun).2
      have hle : (blocksOf x.2).length ≤ (blocksOf n'.extents).length := hle
      exact ⟨n', hn', by omega⟩

/-- **A loop that takes a first run** leaves the file with more blocks, however it ends. -/
theorem allocLoop_grows (fuel : ℕ) (hw : wanted ≠ 0) (hn : w.fs.nodes i = some n)
    (hrun : firstRun w.fs.geom w.fs.bitmap n.extents wanted = some x) :
    ∃ n', (allocLoop i (fuel + 1) wanted w).2.fs.nodes i = some n' ∧
      (blocksOf n.extents).length < (blocksOf n'.extents).length := by
  obtain ⟨hpos, hlen⟩ := firstRun_some hrun
  rw [allocLoop_succ hn fuel hw, hrun]
  obtain ⟨n', hn', hle⟩ := allocLoop_blocks fuel (wanted - x.1.2) grant_node
  have hle : (blocksOf x.2).length ≤ (blocksOf n'.extents).length := hle
  exact ⟨n', hn', by omega⟩

theorem ensureBlocks_run {needed : ℕ} (hn : w.fs.nodes i = some n) : ensureBlocks i needed w =
      allocLoop i (needed - n.allocatedBlocks) (needed - n.allocatedBlocks) w := by
  show ((okOr .notFound (w.fs.nodes i)) >>= _) w = _
  rw [hn]
  show (if needed ≤ n.allocatedBlocks then pure ()
    else allocLoop i (needed - n.allocatedBlocks) (needed - n.allocatedBlocks) : FsM Unit) w = _
  split_ifs with hle
  · rw [Nat.sub_eq_zero_of_le hle]
    rfl
  · rfl

end

/-! ### What no call changes -/

/-- A property of how the partition is mounted: writable or not, and where. -/
def Steady (I : World → Prop) : Prop :=
  ∀ ⦃w t : World⦄, I w → t.fs.readOnly = w.fs.readOnly → t.fs.part = w.fs.part →
    t.fs.geom = w.fs.geom → I t

namespace Steady

variable {I : World → Prop} {D : Option Partition} {P : Path → Prop} {E S : Set (Fin maxNodes)}
  (hI : Steady I)
include hI

theorem rides : Rides D P E S I where
  handles _ _ _ h := hI h rfl rfl rfl
  mark _ _ _ _ _ _ h := hI h rfl rfl rfl
  grow _ _ _ _ _ _ _ hgrown h := by
    obtain ⟨-, _, rfl⟩ := hgrown
    exact hI h rfl rfl rfl
  raw _ _ _ _ _ _ h b _ _ x := by
    refine (writeRaw_stores b x).imp ?_ ?_
    all_goals
      rintro - t ⟨d, rfl, -⟩
      exact hI h rfl rfl rfl

theorem lasts : Lasts D P E S I := by
  refine ⟨hI.rides, fun t ht h => ?_⟩
  rcases commit_cases ht.sound.fits with hrun | hrun | hrun <;> rw [hrun]
  · exact h
  · exact h
  · rcases Disk.writeAll DunitFsError.io (commitWrites t.fs) t.disk with ⟨_ | _, d⟩
    all_goals exact hI h rfl rfl rfl

/-- **A call does not change how the partition is mounted.** -/
theorem exec {p : Partition} {w : World} (h : Intact p ∅ w) {c : Call} (hc : c.Guarded w)
    (hw : I w) : I (c.exec w).2 := by
  have hends := c.exec_safe hI.lasts (fun _ => rfl) ⟨h, hw⟩ c.names_true hc.1
    (c.within_univ w) ?_
  · exact (hends.state (fun _ _ ht => ht) fun _ _ ht => ht.2).2
  · rintro handle len rfl
    exact ftruncateHandle_safe hI.lasts (fun _ _ => hI.rides) (fun _ _ _ _ _ h => hI h rfl rfl rfl)
      (fun _ => rfl) ⟨h, hw⟩ (.inr hc.2) fun x _ => mem_univ x.node

end Steady

/-! ### A write that does not fit -/

/-- Where a write to a handle starts. -/
def startOf (h : OpenHandle) (n : Node) : ℕ := if h.flags.append then n.size else h.offset

/-- The blocks a file lacks for a write to a handle. -/
def lacking (h : OpenHandle) (n : Node) (input : List UInt8) : ℕ :=
  divCeil (startOf h n + input.length) blockSize - n.allocatedBlocks

section

variable {w : World} {handle : ℕ} {h : OpenHandle} {n : Node} (input : List UInt8)

theorem writeOffset_run (hn : w.fs.nodes h.node = some n) :
    writeOffset h w = (.ok (startOf h n), w) := by
  unfold writeOffset startOf
  split_ifs
  · show (unwrap (w.fs.nodes h.node) >>= _) w = _
    rw [hn]
    rfl
  · rfl

/-- **A write that gets as far as allocating blocks** and fails there does nothing else. -/
theorem write_of_ensureBlocks_error (hh : findHandle w.fs handle = some h)
    (hcan : h.flags.canWrite = true) (hro : w.fs.readOnly = false)
    (hn : w.fs.nodes h.node = some n) (hsum : startOf h n + input.length < 2 ^ 64) {e : Stop}
    {t : World}
    (hrun : allocLoop h.node (lacking h n input) (lacking h n input) w = (.error e, t)) :
    write handle input w = (.error e, t) := by
  have hens : ensureBlocks h.node (divCeil (startOf h n + input.length) blockSize) w =
      (.error e, t) := (ensureBlocks_run hn).trans hrun
  have hnode : writeNode h.node (startOf h n) input w = (.error e, t) := by
    unfold writeNode
    rw [bind_ok (ensureWritable_run hro), if_neg (not_le.mpr hsum)]
    exact bind_error hens
  unfold write
  rw [getFs_bind_run, hh]
  show (if h.flags.canWrite = false then _ else _ : FsM ℕ) w = _
  rw [hcan, if_neg Bool.true_eq_false.mp, bind_ok (writeOffset_run hn)]
  exact bind_error hnode

/-- **A write that does not fit leaves the file system as it was exactly if not even its first
run fits.** In any state, when a write through a handle needs blocks that cannot be placed, it
fails; and the runs that were taken before the loop gave up stay with the file. -/
theorem write_fails_unchanged_iff (hh : findHandle w.fs handle = some h)
    (hcan : h.flags.canWrite = true) (hro : w.fs.readOnly = false)
    (hn : w.fs.nodes h.node = some n) (hsum : startOf h n + input.length < 2 ^ 64)
    (hshort : placeable w.fs.geom (lacking h n input) w.fs.bitmap n.extents
      (lacking h n input) = false) :
    (write handle input w).1 = .error (.err .ioError) ∧
      ((write handle input w).2.fs.nodes = w.fs.nodes ∧
          (write handle input w).2.fs.bitmap = w.fs.bitmap ↔
        firstRun w.fs.geom w.fs.bitmap n.extents (lacking h n input) = none) := by
  have hfail := allocLoop_run (lacking h n input) (lacking h n input) hn
  rw [hshort, if_neg Bool.false_ne_true] at hfail
  have hrun : allocLoop h.node (lacking h n input) (lacking h n input) w =
      (.error (.err .ioError), (allocLoop h.node (lacking h n input) (lacking h n input) w).2) :=
    Prod.ext hfail rfl
  rw [write_of_ensureBlocks_error input hh hcan hro hn hsum hrun]
  -- there is a first round: nothing is lacking in what can be placed
  obtain ⟨fuel, hfuel⟩ : ∃ fuel, lacking h n input = fuel + 1 := by
    refine exists_eq_succ_of_ne_zero fun h0 => ?_
    rw [h0] at hshort
    cases hshort
  rw [hfuel]
  refine ⟨rfl, fun hsame => ?_, fun hnone => ?_⟩
  · by_contra hsome
    obtain ⟨x, hx⟩ := ne_none_iff_exists'.mp hsome
    obtain ⟨n', hn', hlt⟩ := allocLoop_grows fuel (succ_ne_zero fuel) hn hx
    rw [hsame.1, hn] at hn'
    cases hn'
    exact lt_irrefl _ hlt
  · rw [allocLoop_succ hn fuel (succ_ne_zero fuel), hnone]
    exact ⟨rfl, rfl⟩

end

/-- A file is opened, and its handle is moved behind the end of the partition. -/
def farOffset : List Call := [.open_ ['f'] ⟨7⟩, .seek 1 51200 0]

/-- The state in which the far write is made. -/
def farWorld : World := runCalls smallWorld farOffset

/-- **A failed write takes the free space**: there was a free block before it, it reports an
error, and there is no free block after it. -/
theorem failed_write_takes_free_blocks :
    boot smallPartition zeroDevice = .ok (smallWorld.fs, smallWorld.disk) ∧
      (write 1 [1] farWorld).1 = .error (.err .ioError) ∧
      (allocRun farWorld.fs.bitmap farWorld.fs.geom 1).isSome = true ∧
      allocRun (write 1 [1] farWorld).2.fs.bitmap farWorld.fs.geom 1 = none ∧
      (farWorld.fs.nodes 0).map Node.extents = some [] ∧
      ((write 1 [1] farWorld).2.fs.nodes 0).map Node.extents = some [(68, 32)] := by
  refine ⟨boot_small, ?_⟩
  decide +kernel

/-- The state that the failed write leaves. -/
def fullWorld : World := (write 1 [1] farWorld).2

/-- When the space is gone, a second write fails and changes nothing. -/
theorem write_fails_unchanged_iff_full :
    (write 1 [1] fullWorld).1 = .error (.err .ioError) ∧
      (write 1 [1] fullWorld).2.fs.nodes = fullWorld.fs.nodes ∧
      (write 1 [1] fullWorld).2.fs.bitmap = fullWorld.fs.bitmap := by
  have hh : findHandle fullWorld.fs 1 = some ⟨0, 51200, ⟨7⟩⟩ := by decide +kernel
  have hn : fullWorld.fs.nodes 0 = some ⟨['f'], .file, defaultFileMode, 0, 0, 0, [(68, 32)]⟩ := by
    decide +kernel
  obtain ⟨hfail, hiff⟩ := write_fails_unchanged_iff [1] hh rfl (by decide +kernel) hn
    (by decide) (by decide +kernel)
  exact ⟨hfail, hiff.mpr (by decide +kernel)⟩

/-! ### Shrinking -/

section

variable {p : Partition} {P : Path → Prop} {E : Set (Fin maxNodes)} {w : World}
  {i : Fin maxNodes} {n : Node}

/-- **On a device without faults only space can be short** when a file is written. -/
theorem writeNode_result (h : Inv (some p) P E w) (hro : w.fs.readOnly = false)
    (hn : w.fs.nodes i = some n) (hfile : n.fileType = .file) {offset : ℕ} (input : List UInt8)
    (hsum : offset + input.length < 2 ^ 64) :
    (writeNode i offset input w).1 =
      if placeable w.fs.geom (divCeil (offset + input.length) blockSize - n.allocatedBlocks)
        w.fs.bitmap n.extents (divCeil (offset + input.length) blockSize - n.allocatedBlocks)
      then .ok input.length else .error (.err .ioError) := by
  have hends := ensureBlocks_ends (divCeil (offset + input.length) blockSize) h hn hfile
  have hloop := allocLoop_run (divCeil (offset + input.length) blockSize - n.allocatedBlocks)
    (divCeil (offset + input.length) blockSize - n.allocatedBlocks) hn
  rw [← ensureBlocks_run hn] at hloop
  unfold writeNode
  rw [bind_ok (ensureWritable_run hro), if_neg (not_le.mpr hsum)]
  rcases hrun : ensureBlocks i (divCeil (offset + input.length) blockSize) w with ⟨e | u, t⟩
  · rw [hrun] at hloop
    rw [bind_error hrun]
    split_ifs at hloop ⊢ with hplace
    all_goals cases hloop
    rfl
  · rw [hrun] at hloop
    rw [bind_ok hrun]
    split_ifs at hloop ⊢ with hplace
    obtain ⟨ht, es, hgrown, hlen⟩ := hends.of_ok hrun
    obtain ⟨d, hwrite⟩ := writeLoop_run ht hgrown.node (le_of_divCeil_le hlen)
      (show input.length ≤ 0 + input.length by omega)
    rw [bind_ok hwrite]
    show ((unwrap (t.fs.nodes i) >>= _) { t with disk := d } : Except Stop ℕ × World).1 = _
    rw [hgrown.node]
    rfl

/-- **Whether the kept part of a file can be placed again**, once the blocks of the file are
free. -/
def fitsAgain (fs : DunitFs) (n : Node) (len : ℕ) : Bool :=
  placeable fs.geom (divCeil len blockSize) (freeBits fs.bitmap n.extents) []
    (divCeil len blockSize)

variable {len : ℕ}

section

variable (h : Inv (some p) P E w) (hro : w.fs.readOnly = false) (hi : i ∉ E)
  (hn : w.fs.nodes i = some n) (hfile : n.fileType = .file) (hlen : len < n.size)
include h hro hi hn hfile hlen

/-- The kept part of a file is read, and written again if it can be placed once the extents of
the file are free. -/
theorem writeNode_freed : ∃ keep, readNode i 0 len w = (.ok keep, w) ∧
    (writeNode i 0 keep { w with fs := freeExtents i w.fs }).1 =
      if fitsAgain w.fs n len then .ok keep.length else .error (.err .ioError) := by
  have hback := h.sound.consistent.backed i n hn hi
  have hlt := (h.sound.consistent.regular i n hn).size_lt
  have hro1 : (freeExtents i w.fs).readOnly = false := by
    rw [freeExtents_eq hn]
    exact hro
  have hfits : fitsAgain w.fs n len = placeable (freeExtents i w.fs).geom (divCeil len blockSize)
      (freeExtents i w.fs).bitmap [] (divCeil len blockSize) := by
    rw [freeExtents_eq hn]
    rfl
  have hkeep : readNode i 0 len w = (.ok ((contents w n).take len), w) :=
    readNode_run h hn hback 0 len
  have hlength : ((contents w n).take len).length = len := by
    rw [length_take, length_contents w hback]
    omega
  generalize (contents w n).take len = keep at hkeep hlength
  refine ⟨keep, hkeep, ?_⟩
  have hwrite := writeNode_result (h.freeExtents hn) hro1 (nodes_freeExtents hn) hfile keep
    (show 0 + _ < 2 ^ 64 by omega)
  have hneeded : divCeil (0 + keep.length) blockSize - Node.allocatedBlocks
      { n with extents := [] } = divCeil len blockSize := by
    rw [hlength, zero_add]
    rfl
  rwa [hneeded, ← hfits] at hwrite

/-- **The condition of a shrinking `ftruncate_handle`** on a device without faults is that the
kept part can be placed again. -/
theorem rewrites_eq : rewrites w i len = fitsAgain w.fs n len := by
  obtain ⟨keep, hkeep, hwrite⟩ := writeNode_freed h hro hi hn hfile hlen
  rw [rewrites, hkeep]
  show (writeNode i 0 keep { w with fs := freeExtents i w.fs }).1.isOk = _
  rw [hwrite]
  rcases fitsAgain w.fs n len with _ | _
  · rfl
  · rfl

/-- **Shrinking on a device without faults** fails only if the kept part cannot be placed
again. -/
theorem shrink_result :
    (shrink i len w).1 = if fitsAgain w.fs n len then .ok () else .error (.err .ioError) := by
  have hn1 := nodes_freeExtents hn
  unfold shrink
  rcases Nat.eq_zero_or_pos len with rfl | hpos
  · show ((unwrap ((freeExtents i w.fs).nodes i) >>= _) _ : Except Stop Unit × World).1 = _
    rw [hn1]
    rfl
  · obtain ⟨keep, hkeep, hwrite⟩ := writeNode_freed h hro hi hn hfile hlen
    rw [if_pos hpos, bind_ok hkeep, decide_eq_true hpos]
    have hends := writeNode_ends 0 keep (h.freeExtents hn) hn1 hfile
    have hinner {v : World} {m : FsM Unit} : Prog.when true m v = m v := rfl
    -- after the kept part is written, nothing can fail
    rcases hrun : writeNode i 0 keep { w with fs := freeExtents i w.fs } with ⟨e | k, u⟩
    · rw [hrun] at hwrite
      refine (congrArg Prod.fst (bind_error (hinner.trans (bind_error hrun)))).trans ?_
      split_ifs at hwrite ⊢
      all_goals cases hwrite
      rfl
    · rw [hrun] at hwrite
      have hdone := hinner.trans (bind_ok (f := fun _ => pure ()) hrun)
      refine (congrArg Prod.fst (bind_ok hdone)).trans ?_
      split_ifs at hwrite ⊢
      obtain ⟨-, n', hn', -⟩ := hends.of_ok hrun
      show ((unwrap (u.fs.nodes i) >>= _) u : Except Stop Unit × World).1 = _
      rw [hn']
      rfl

end

/-- On a device without faults a commit of a writable file system succeeds. -/
theorem commit_ok (h : Inv (some p) P E w) (hro : w.fs.readOnly = false) :
    (commit w).1 = .ok () := by
  rcases hdirty : w.fs.dirty with _ | _
  · simp [commit, hdirty]
  · rw [commit_run hdirty hro h.sound.fits, Disk.writeAll_reliable (h.disk p rfl).reliable]

theorem steady_writable : Steady fun w => w.fs.readOnly = false :=
  fun _ _ hw hro _ _ => hro.trans hw

variable {handle : ℕ}

/-- **Shrinking through a handle** succeeds exactly if nothing is to be done or the kept part
can be placed again. -/
theorem ftruncateHandle_result (h : Inv (some p) P E w) (hro : w.fs.readOnly = false)
    {x : OpenHandle} (hx : findHandle w.fs handle = some x)
    (hcan : x.flags.canWrite = true) (hn : w.fs.nodes x.node = some n) (hi : x.node ∉ E)
    (hlen : len ≤ n.size) :
    (ftruncateHandle handle len w).1 = .ok () ↔ len = n.size ∨ fitsAgain w.fs n len = true := by
  have hfile : n.fileType = .file := by
    obtain ⟨m, hm, hfile⟩ := h.fileAt_of_findHandle hx
    rw [hn] at hm
    cases hm
    exact hfile
  have hinv := h.mono (subset_insert x.node E)
  unfold ftruncateHandle
  rw [bind_ok (ensureWritable_run hro), getFs_bind_run, hx]
  show ((if x.flags.canWrite = false then _ else _ : FsM Unit) w).1 = _ ↔ _
  rw [hcan, if_neg Bool.true_eq_false.mp, hn]
  show ((if n.fileType ≠ .file then _ else _ : FsM Unit) w).1 = _ ↔ _
  rw [if_neg (not_not.mpr hfile)]
  rcases eq_or_lt_of_le hlen with heq | hlt
  · rw [if_pos heq]
    exact ⟨fun _ => Or.inl heq, fun _ => rfl⟩
  rw [if_neg (Nat.ne_of_lt hlt), if_pos hlt]
  have hshrink := shrink_result h hro hi hn hfile hlt
  have hends := shrink_ends hinv hn hfile hlt (Or.inl (mem_insert _ _))
  have hro' : (shrink x.node len w).2.fs.readOnly = false :=
    (shrink_keeps steady_writable.rides (mem_univ x.node) (fun _ _ _ _ _ hw => hw) h hn hfile hro
      len).state (fun _ _ ht => ht) fun _ _ ht => ht
  rcases hrun : shrink x.node len w with ⟨e | u, t⟩
  · rw [hrun] at hshrink
    rw [bind_error hrun]
    refine ⟨fun hok => (nomatch hok), fun hok => ?_⟩
    rw [if_pos (hok.resolve_left (Nat.ne_of_lt hlt))] at hshrink
    cases hshrink
  · rw [hrun] at hshrink hro'
    rw [bind_ok hrun]
    have ht := hends.of_ok hrun
    refine ⟨fun _ => Or.inr ?_, fun _ => ?_⟩
    · by_contra hfits
      rw [if_neg hfits] at hshrink
      cases hshrink
    · exact commit_ok (ht.setMeta ht.sound.consistent fun j hj => hj) hro'

/-- **What shrinking is to do**: report success, leave the file with the new size and keep the
bytes before it. -/
def Shrinks (w : World) (handle len : ℕ) (i : Fin maxNodes) (n : Node) : Prop :=
  ∃ t n', ftruncateHandle handle len w = (.ok (), t) ∧ t.fs.nodes i = some n' ∧
    n'.path = n.path ∧ n'.size = len ∧ contents t n' = (contents w n).take len

theorem shrinks_iff (h : Intact p ∅ w) (hro : w.fs.readOnly = false) {x : OpenHandle}
    (hx : findHandle w.fs handle = some x)
    (hcan : x.flags.canWrite = true) (hn : w.fs.nodes x.node = some n) (hlen : len ≤ n.size) :
    Shrinks w handle len x.node n ↔ len = n.size ∨ fitsAgain w.fs n len = true := by
  rw [← ftruncateHandle_result h hro hx hcan hn (notMem_empty _) hlen]
  constructor
  · rintro ⟨t, n', hrun, -⟩
    rw [hrun]
  · intro hok
    have hrun : ftruncateHandle handle len w = (.ok (), (ftruncateHandle handle len w).2) :=
      Prod.ext hok rfl
    generalize (ftruncateHandle handle len w).2 = t at hrun
    obtain ⟨n', hc, hpath, -, hbytes⟩ :=
      (ftruncateHandle_wrote h hx hn (notMem_empty _)).of_ok hrun
    have hinv := (ftruncateHandle_ends (fun _ => rfl) h
      (Or.inr (truncateOk_of_ftruncateHandle.of_ok hrun))).of_ok hrun
    have hlength := length_contents w (h.sound.consistent.backed _ n hn (notMem_empty _))
    have hlength' := length_contents t
      (hinv.sound.consistent.backed _ n' hc.node (notMem_empty _))
    have hshort : resize (contents w n) len = (contents w n).take len := by
      rw [resize, Nat.sub_eq_zero_of_le (by omega), replicate_zero, append_nil]
    rw [hshort] at hbytes
    rw [hbytes, length_take] at hlength'
    exact ⟨t, n', hrun, hc.node, hpath, by omega, hbytes⟩

end

variable {p : Partition} {w w' : World}

/-- What a mount finds can be written. -/
theorem Inv.remount_writable (hgeom : validateGeometry p (Geometry.derive p.blocks) = .ok ())
    (h : Intact p ∅ w) (hstep : Event.step p w .remount = .ok w') :
    w'.fs.readOnly = false := by
  obtain ⟨-, hgeq, -, m, hpub, hm⟩ := h.disk p rfl
  rw [hgeq] at hpub hm
  rw [(remount_published hgeom hpub hm).1] at hstep
  cases hstep
  rfl

/-- A run of calls and mounts that starts writable ends so. -/
theorem Inv.runEvents_writable (hgeom : validateGeometry p (Geometry.derive p.blocks) = .ok ())
    (h : Intact p ∅ w) (hro : w.fs.readOnly = false) {es : List Event}
    (hes : GuardedRun p w es) (hrun : DunitFs.runEvents p w es = .ok w') :
    w'.fs.readOnly = false := by
  induction es generalizing w with
  | nil =>
    cases hrun
    exact hro
  | cons e es ih =>
    cases e with
    | call c =>
      obtain ⟨hc, hes⟩ := hes
      exact ih (h.exec hc) (steady_writable.exec h hc hro) hes hrun
    | remount =>
      obtain ⟨w1, hstep, h1⟩ := h.remount hgeom
      rw [DunitFs.runEvents, List.foldlM_cons, hstep] at hrun
      exact ih h1 (h.remount_writable hgeom hstep) (hes w1 hstep) hrun

/-- **Shrinking loses nothing exactly if the kept part can be placed again.** On a device
without faults, after any run of guarded calls and mounts from the formatting of a partition on,
`ftruncate_handle` shrinks a file as it should if and only if there is nothing to do or the
blocks of the kept part, placed first-fit after those of the file are freed, do not run out of
space or of extents. -/
theorem shrinks_iff_placeable {p : Partition} {d : Device} {s : DunitFs × Device}
    (hboot : boot p d = .ok s) (hd : d.Reliable)
    (hread : ∀ b < p.blocks, d.bad (p.start + b) = false) (clock : ℕ → UInt64) (es : List Event)
    (hes : GuardedRun p ⟨s.1, s.2, clock⟩ es) :
    ∃ w, runEvents p ⟨s.1, s.2, clock⟩ es = .ok w ∧
      ∀ handle x n len, findHandle w.fs handle = some x → x.flags.canWrite = true →
        w.fs.nodes x.node = some n → len ≤ n.size →
        (Shrinks w handle len x.node n ↔ len = n.size ∨ fitsAgain w.fs n len = true) := by
  have hgeom := (boot_eq_ok hboot).1
  have hinv := inv_boot_reliable hgeom hd hread hboot clock
  have hro : s.1.readOnly = false := by
    rw [(boot_eq_ok hboot).2]
    rfl
  obtain ⟨w, hrun, hw⟩ := hinv.runEvents hgeom hes
  have hw' := hinv.runEvents_writable hgeom hro hes hrun
  exact ⟨w, hrun, fun handle x n len hx hcan hn hlen => shrinks_iff hw hw' hx hcan hn hlen⟩

/-- A file of three bytes is written and stays open. -/
def shortFile : List Call := [.open_ ['f'] ⟨7⟩, .write 1 [1, 2, 3]]

theorem shrinks_iff_placeable_short :
    ∃ w n, runEvents smallPartition smallWorld (shortFile.map .call) = .ok w ∧
      Shrinks w 1 1 0 n := by
  obtain ⟨w, hrun, hw⟩ := shrinks_iff_placeable boot_small rfl (fun _ _ => rfl) smallWorld.clock
    (shortFile.map .call) ⟨⟨trivial, trivial⟩, ⟨trivial, trivial⟩, trivial⟩
  have heq : runEvents smallPartition smallWorld (shortFile.map .call) =
      .ok (runCalls smallWorld shortFile) := rfl
  obtain rfl : runCalls smallWorld shortFile = w := Except.ok.inj (heq.symm.trans hrun)
  refine ⟨_, _, heq, (hw 1 ⟨0, 3, ⟨7⟩⟩ ⟨['f'], .file, defaultFileMode, 3, 0, 0, [(68, 1)]⟩ 1
    ?_ rfl ?_ (by decide)).mpr (Or.inr ?_)⟩
  all_goals decide +kernel

/-- The state in which the third file of `fragmented` is shrunk. -/
def scattered : World := runCalls smallWorld fragmented.dropLast

/-- **A shrinking that fails loses data**: on a device without faults, in a state that guarded
calls have reached, a file of 3584 bytes is to be cut to 3583. The call reports an error, and the
file still has its old size but one block too few for it. -/
theorem shrinking_loses_data :
    boot smallPartition zeroDevice = .ok (smallWorld.fs, smallWorld.disk) ∧
      scattered.disk.faults = [] ∧
      findHandle scattered.fs 3 = some ⟨2, 3584, ⟨7⟩⟩ ∧
      (scattered.fs.nodes 2).map (fun n => (n.size, n.allocatedBlocks)) = some (3584, 7) ∧
      (ftruncateHandle 3 3583 scattered).1 = .error (.err .ioError) ∧
      ((ftruncateHandle 3 3583 scattered).2.fs.nodes 2).map
        (fun n => (n.size, n.allocatedBlocks)) = some (3584, 6) ∧
      (readNode 2 0 3584 (ftruncateHandle 3 3583 scattered).2).1 = .error (.err .ioError) := by
  refine ⟨boot_small, ?_⟩
  decide +kernel

end DunitOS.DunitFs
