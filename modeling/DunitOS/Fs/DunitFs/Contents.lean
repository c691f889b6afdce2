import DunitOS.Fs.DunitFs.Runs
import DunitOS.SysLib.Scatter

/-!
# The contents of a file

The contents of a file are the bytes in its blocks, cut to its size
(`contents`). On a device without faults the operations on a node have exact
specifications in these terms: `read_node` returns a window of the contents, and `write_node`
overwrites one (`writeNode_wrote`), provided that the window does not start
beyond the end. The source leaves what is between the end of the file and the start of such a
window as it finds it on the disk.

What an operation does to one file, and to nothing else that the file system shows, is
`Wrote`.
-/

namespace DunitOS.DunitFs

open SysLib Prog Vfs List Function Disk Block Nat

/-! ### Plain arrays of bytes -/

/-- An array of bytes with a string stored at an offset. The array grows as far as it must,
with zeros. -/
def overwrite (bytes : List UInt8) (offset : ℕ) (src : List UInt8) : List UInt8 :=
  splice (bytes ++ List.replicate (offset + src.length - bytes.length) 0) offset src

/-- An array of bytes cut off or filled up with zeros. -/
def resize (bytes : List UInt8) (len : ℕ) : List UInt8 :=
  bytes.take len ++ List.replicate (len - bytes.length) 0

variable {offset : ℕ}

/-- **Storing inside the array or at its end**, in a longer string that is cut off. -/
theorem take_splice {raw src : List UInt8} {size : ℕ} (hoff : offset ≤ size)
    (hsize : size ≤ raw.length) (hend : offset + src.length ≤ raw.length) :
    (splice raw offset src).take (max size (offset + src.length)) =
      overwrite (raw.take size) offset src := by
  have hlen : (raw.take size).length = size := length_take_of_le hsize
  have hfit : offset + src.length ≤ (raw.take size ++
      replicate (offset + src.length - (raw.take size).length) (0 : UInt8)).length := by
    rw [length_append, length_replicate, hlen]
    omega
  refine ext_getElem? fun k => ?_
  rw [overwrite, getElem?_take, getElem?_splice _ _ hend, getElem?_splice _ _ hfit, hlen,
    getElem?_append, hlen, getElem?_take, getElem?_replicate]
  split_ifs <;> first | rfl | omega

/-- Storing zeros at the end. -/
theorem overwrite_end (bytes : List UInt8) (k : ℕ) :
    overwrite bytes bytes.length (List.replicate k 0) = bytes ++ List.replicate k 0 := by
  rw [overwrite, length_replicate, Nat.add_sub_cancel_left, splice, take_left,
    length_replicate, drop_eq_nil_of_le (by simp), append_nil]

/-! ### What a file holds -/

/-- The bytes in the blocks of some extents. -/
def extentBytes (w : World) (es : List Extent) : List UInt8 :=
  Disk.gather w.disk ((blocksOf es).map (w.fs.partitionStart + ·))

/-- **The contents of a file.** -/
def contents (w : World) (n : Node) : List UInt8 := (extentBytes w n.extents).take n.size

theorem length_extentBytes (w : World) (es : List Extent) :
    (extentBytes w es).length = (blocksOf es).length * blockSize := by
  rw [extentBytes, length_gather, length_map, mul_comm]

theorem length_contents (w : World) {n : Node} (hn : Backed n) :
    (contents w n).length = n.size := by
  rw [contents, length_take_of_le]
  rwa [length_extentBytes, ← allocatedBlocks_eq]

variable {p : Partition} {D : Option Partition} {P : Path → Prop} {E : Set (Fin maxNodes)}
  {w t u : World} {i : Fin maxNodes} {n : Node}

/-- Every block of the partition can be read. -/
def Readable (w : World) : Prop :=
  ∀ b < w.fs.geom.totalBlocks, w.disk.bad (w.fs.partitionStart + b) = false

variable {b : ℕ}

theorem Readable.readBlock (h : Readable w) (hb : b < w.fs.geom.totalBlocks) :
    readPartitionBlock w.fs.part b w.disk = .ok (w.disk.data (w.fs.partitionStart + b)) :=
  readPartitionBlock_ok (p := w.fs.part) h hb

theorem Inv.readable (h : Inv (some p) P E w) : Readable w := by
  obtain ⟨rfl, -, -, m, hpub, -⟩ := h.disk p rfl
  exact hpub.readable

/-- The block of the partition at a position of a file. -/
theorem Inv.physicalBlock (h : Inv D P E w) (hn : w.fs.nodes i = some n) {pos : ℕ}
    (hpos : pos < (blocksOf n.extents).length * blockSize) :
    ∃ b, n.physicalBlock (pos / blockSize) = some b ∧
      (w.fs.geom.dataStart ≤ b ∧ b < w.fs.geom.totalBlocks) ∧
      ((blocksOf n.extents).map (w.fs.partitionStart + ·))[pos / blockSize]? =
        some (w.fs.partitionStart + b) := by
  have hpos : pos < (blocksOf n.extents).length * 512 := hpos
  have hlt : pos / 512 < (blocksOf n.extents).length := by omega
  have hb := getElem?_eq_getElem hlt
  refine ⟨(blocksOf n.extents)[pos / 512], (physicalBlock_eq _ _).trans hb,
    h.sound.consistent.accounted.mem_range hn (getElem_mem hlt), ?_⟩
  rw [getElem?_map, hb]
  rfl

/-- **A block is written**, or the device fails and nothing is. -/
theorem writeRaw_stores (b : ℕ) (x : Block blockSize) :
    Ends (fun _ t => ∃ d, t = { w with disk := d } ∧ d.bad = w.disk.bad ∧
        d.data = (w.disk.store (w.fs.partitionStart + b) x).data)
      (fun _ t => ∃ d, t = { w with disk := d } ∧ d.bad = w.disk.bad ∧ d.data = w.disk.data)
      (writeRaw b x w) := by
  show Ends _ _ (onDisk (writePartitionBlock w.fs.part b x) w)
  rw [writePartitionBlock]
  split_ifs with hout
  · exact ⟨w.disk, rfl, rfl, rfl⟩
  have hends := write_ends DunitFsError.io (w.fs.part.start + b) x w.disk
  rcases hrun : Disk.write DunitFsError.io (w.fs.part.start + b) x w.disk with ⟨e | _, d⟩
  · rw [onDisk_error hrun]
    exact ⟨d, rfl, (hends.of_error hrun).2, (hends.of_error hrun).1⟩
  · rw [onDisk_ok hrun]
    exact ⟨d, rfl, (hends.of_ok hrun).2, (hends.of_ok hrun).1⟩

/-- A block that is written in part keeps the rest. -/
theorem sectorFor_run (h : Readable w) (hb : b < w.fs.geom.totalBlocks) {within count : ℕ} :
    ∃ s, sectorFor b within count w = (.ok s, w) ∧ ∀ src : List UInt8, src.length = count →
      within + count ≤ blockSize →
      splice s.bytes within src =
        splice (w.disk.data (w.fs.partitionStart + b)).bytes within src := by
  unfold sectorFor
  split_ifs with hpart
  · exact ⟨_, readDataBlock_ok (h.readBlock hb), fun _ _ _ => rfl⟩
  · rw [not_or, not_not, not_not] at hpart
    obtain ⟨rfl, rfl⟩ := hpart
    refine ⟨_, rfl, fun src hsrc _ => ?_⟩
    -- the whole block is overwritten
    rw [splice, splice, take_zero, take_zero, hsrc,
      drop_eq_nil_of_le (by rw [length_bytes]; omega),
      drop_eq_nil_of_le (by rw [length_bytes]; omega)]

variable {fuel : ℕ}

section

variable (h : Inv (some p) P E w)
include h

theorem Inv.writeBlock (hb : b < w.fs.geom.totalBlocks) (x : Block blockSize) :
    writeRaw b x w = (.ok (), { w with disk := w.disk.store (w.fs.partitionStart + b) x }) := by
  have hrel := (h.disk p rfl).reliable
  have hin : ¬w.fs.part.blocks ≤ b := not_le.mpr hb
  rw [writeRaw, get_bind_run, writePartitionBlock, if_neg hin]
  exact onDisk_ok (write_reliable hrel _ _ _)

/-! ### Reading -/

theorem readLoop_step (hn : w.fs.nodes i = some n) {length : ℕ}
    (hfit : offset + length ≤ (blocksOf n.extents).length * blockSize) (fuel : ℕ)
    {acc : List UInt8} (hlt : acc.length < length) :
    ∃ count, 0 < count ∧ acc.length + count ≤ length ∧
      readLoop n offset length (fuel + 1) acc w = readLoop n offset length fuel
        (acc ++ slice (extentBytes w n.extents) (offset + acc.length) count) w := by
  obtain ⟨b, hphys, ⟨-, hb⟩, hblock⟩ := h.physicalBlock hn (show offset + acc.length < _ by omega)
  have hmod := mod_lt (offset + acc.length) (show 0 < blockSize by decide)
  refine ⟨min (length - acc.length) (blockSize - (offset + acc.length) % blockSize), by omega,
    by omega, ?_⟩
  rw [readLoop, if_neg (not_le.mpr hlt), extentBytes, slice_gather hblock (by omega) (by decide)]
  rw [hphys]
  show (readDataBlock b >>= _) w = _
  rw [bind_ok (readDataBlock_ok (h.readable.readBlock hb))]

/-- **The read loop** returns the window that it is asked for. -/
theorem readLoop_run (hn : w.fs.nodes i = some n) {length : ℕ}
    (hfit : offset + length ≤ (blocksOf n.extents).length * blockSize)
    {acc : List UInt8} (hfuel : length ≤ acc.length + fuel) :
    readLoop n offset length fuel acc w = (.ok (acc ++
      slice (extentBytes w n.extents) (offset + acc.length) (length - acc.length)), w) := by
  have hdone : ∀ acc : List UInt8, length ≤ acc.length →
      acc ++ slice (extentBytes w n.extents) (offset + acc.length) (length - acc.length) = acc := by
    intro acc hle
    rw [Nat.sub_eq_zero_of_le hle, slice, take_zero, append_nil]
  induction fuel generalizing acc with
  | zero =>
    rw [hdone acc hfuel]
    rfl
  | succ fuel ih =>
    rcases lt_or_ge acc.length length with hlt | hle
    · obtain ⟨count, hpos, hcount, hstep⟩ := readLoop_step h hn hfit fuel hlt
      have hlen : (slice (extentBytes w n.extents) (offset + acc.length) count).length = count := by
        refine length_slice _ ?_
        rw [length_extentBytes]
        omega
      rw [hstep, ih (by rw [length_append, hlen]; omega), length_append, hlen,
        append_assoc, ← add_assoc, ← slice_add]
      exact congrArg (fun k => (Except.ok (acc ++ slice _ _ k), w)) (by omega)
    · rw [hdone acc hle, readLoop, if_pos hle]
      rfl

/-- **`read_node`** returns a window of the contents. -/
theorem readNode_run (hn : w.fs.nodes i = some n) (hback : Backed n) (offset len : ℕ) :
    readNode i offset len w = (.ok (slice (contents w n) offset len), w) := by
  have hback : n.size ≤ (blocksOf n.extents).length * blockSize := by
    rwa [Backed, allocatedBlocks_eq] at hback
  show (okOr .notFound (w.fs.nodes i) >>= _) w = _
  rw [hn]
  show (if n.size ≤ offset then pure [] else _ : FsM (List UInt8)) w = _
  rw [contents, slice_take]
  split_ifs with hle
  · rw [Nat.sub_eq_zero_of_le hle, Nat.min_zero, slice, take_zero]
    rfl
  · exact (readLoop_run h hn (by omega) (by simp)).trans (by simp)

end

/-! ### Writing -/

/-- Only a device without a promise fails to write a block of the partition. -/
theorem writeRaw_fails (h : Inv D P E w) (hb : b < w.fs.geom.totalBlocks) (x : Block blockSize) :
    Ends (fun _ _ => True) (fun _ _ => D = none) (writeRaw b x w) := by
  cases D with
  | none => rcases writeRaw b x w with ⟨_ | _, _⟩ <;> trivial
  | some p =>
    rw [h.writeBlock hb]
    trivial

/-- **The write loop on any device**: if it succeeds, the input is stored in the blocks of the
file, and on a reliable device it does. -/
theorem writeLoop_stored (h : Inv D P E w) (hread : Readable w) (hn : w.fs.nodes i = some n)
    {input : List UInt8}
    (hfit : offset + input.length ≤ (blocksOf n.extents).length * blockSize) {done : ℕ}
    (hfuel : input.length ≤ done + fuel) :
    Ends (fun _ t => (∃ d, t = { w with disk := d }) ∧ Inv D P E t ∧
        extentBytes t n.extents =
          splice (extentBytes w n.extents) (offset + done) (input.drop done))
      (fun _ _ => D = none) (writeLoop i offset input fuel done w) := by
  induction fuel generalizing done w with
  | zero =>
    refine ⟨⟨_, rfl⟩, h, ?_⟩
    rw [drop_eq_nil_of_le (by omega), splice_nil]
  | succ fuel ih =>
    rw [writeLoop]
    refine Ends.ite (fun hle => ?_) fun hlt => ?_
    · exact ⟨⟨_, rfl⟩, h, by rw [drop_eq_nil_of_le hle, splice_nil]⟩
    obtain ⟨b, hphys, ⟨hdata, hb⟩, hblock⟩ := h.physicalBlock hn (show offset + done < _ by omega)
    have hmod := mod_lt (offset + done) (show 0 < blockSize by decide)
    refine ends_getFs (ends_unwrap hn (ends_okOr
      (fun hno => (Option.some_ne_none b (hphys.symm.trans hno)).elim) fun c hc => ?_))
    obtain rfl : b = c := Option.some.inj (hphys.symm.trans hc)
    generalize hcount : min (input.length - done) (blockSize - (offset + done) % blockSize) = count
    have hlen : (slice input done count).length = count := length_slice _ (by omega)
    obtain ⟨s, hs, hsplice⟩ := sectorFor_run hread hb
    rw [bind_ok hs]
    refine (((writeRaw_ends h hdata _).and (writeRaw_stores b _)).and (writeRaw_fails h hb _)).bind
      ?_ fun _ _ he => he.2
    rintro - t ⟨⟨⟨ht, -⟩, d, rfl, hbad, hstore⟩, -⟩
    have hread' : Readable { w with disk := d } := fun c hc => by rw [hbad]; exact hread c hc
    refine (ih ht hread' hn (show input.length ≤ done + count + fuel by omega)).imp ?_
      fun _ _ he => he
    rintro - u ⟨hdisk, hu, hbytes⟩
    refine ⟨hdisk, hu, hbytes.trans ?_⟩
    -- one chunk is stored by this round, and the rest by those that follow
    have hnodup : ((blocksOf n.extents).map (w.fs.partitionStart + ·)).Nodup :=
      (h.sound.consistent.accounted.nodup i n hn).map fun _ _ => add_left_cancel
    have hchunk : extentBytes { w with disk := d } n.extents =
        splice (extentBytes w n.extents) (offset + done) (slice input done count) := by
      rw [hsplice _ hlen (by omega)] at hstore
      refine (gather_congr fun c _ => congrFun hstore c).trans ?_
      exact gather_store hnodup hblock (by rw [hlen]; omega) (by decide)
    have hsplit : input.drop done = slice input done count ++ input.drop (done + count) := by
      rw [slice, ← drop_drop, take_append_drop]
    rw [hchunk, hsplit, ← splice_splice, hlen, add_assoc]
    rw [hlen, length_drop, length_extentBytes]
    omega

/-- **The write loop** on a reliable device. -/
theorem writeLoop_run (h : Inv (some p) P E w) (hn : w.fs.nodes i = some n) {input : List UInt8}
    (hfit : offset + input.length ≤ (blocksOf n.extents).length * blockSize) {done : ℕ}
    (hfuel : input.length ≤ done + fuel) :
    ∃ d, writeLoop i offset input fuel done w = (.ok (), { w with disk := d }) := by
  have hends := writeLoop_stored h h.readable hn hfit hfuel
  rcases hrun : writeLoop i offset input fuel done w with ⟨_ | _, t⟩ <;> rw [hrun] at hends
  · cases hends
  · obtain ⟨⟨d, rfl⟩, -⟩ := hends
    exact ⟨d, rfl⟩

/-! ### What happens to one file -/

/-- One node has changed, and nothing else that the file system shows. -/
structure Changed (i : Fin maxNodes) (n' : Node) (w t : World) : Prop where
  nodes_eq : t.fs.nodes = Function.update w.fs.nodes i (some n')
  handles_eq : t.fs.handles = w.fs.handles
  nextHandle_eq : t.fs.nextHandle = w.fs.nextHandle

theorem Changed.node {n' : Node} (h : Changed i n' w t) : t.fs.nodes i = some n' := by
  rw [h.nodes_eq, update_self]

theorem Changed.trans {n1 n2 : Node} (h1 : Changed i n1 w t) (h2 : Changed i n2 t u) :
    Changed i n2 w u := by
  refine ⟨?_, h2.handles_eq.trans h1.handles_eq, h2.nextHandle_eq.trans h1.nextHandle_eq⟩
  rw [h2.nodes_eq, h1.nodes_eq, update_idem]

theorem changed_freeExtents (hn : w.fs.nodes i = some n) :
    Changed i { n with extents := [] } w { w with fs := freeExtents i w.fs } := by
  refine ⟨?_, ?_, ?_⟩
  all_goals
    rw [freeExtents_eq hn]

/-- **The bytes of one file have changed**, but not its name, and nothing else that the file
system shows. -/
def Wrote (i : Fin maxNodes) (n : Node) (bytes : List UInt8) (w t : World) : Prop :=
  ∃ n', Changed i n' w t ∧ n'.path = n.path ∧ n'.fileType = n.fileType ∧ contents t n' = bytes

theorem Wrote.refl (hn : w.fs.nodes i = some n) : Wrote i n (contents w n) w w :=
  ⟨n, ⟨by rw [← hn, update_eq_self], rfl, rfl⟩, rfl, rfl, rfl⟩

/-- **`write_node` in blocks**: the file has blocks for all that is written, the old ones
first, and the input is stored in them. -/
theorem writeNode_data (h : Inv D P E w) (hread : Readable w) (hn : w.fs.nodes i = some n)
    (hfile : n.fileType = .file) (offset : ℕ) (input : List UInt8) :
    Ends (fun k t => k = input.length ∧ ∃ es now, blocksOf n.extents <+: blocksOf es ∧
        offset + input.length ≤ (blocksOf es).length * blockSize ∧
        Changed i { n with extents := es, size := max n.size (offset + input.length),
                           mtimeNs := now } w t ∧
        extentBytes t es = splice (extentBytes w es) offset input)
      (fun _ _ => True) (writeNode i offset input w) := by
  refine ends_ensureWritable trivial fun _ => Ends.ite (fun _ => trivial) fun _ => ?_
  refine (ensureBlocks_ends _ h hn hfile).bind ?_ fun _ _ _ => trivial
  rintro - t ⟨ht, es, hgrown, hlen⟩
  have hfit := le_of_divCeil_le hlen
  have hnode := hgrown.node
  obtain ⟨hpre, bitmap, rfl⟩ := hgrown
  refine (writeLoop_stored ht hread hnode hfit (zero_add _).ge).bind ?_ fun _ _ _ => trivial
  rintro - u ⟨⟨d, rfl⟩, -, hbytes⟩
  refine ends_getFs (ends_unwrap hnode (ends_monotonicNs fun now clock => ends_update ?_))
  refine ⟨rfl, es, now, hpre, hfit, ⟨?_, rfl, rfl⟩, hbytes⟩
  simp only [setDirty, setNode, update_idem]

/-- A prefix of the blocks holds a prefix of the bytes. -/
theorem take_extentBytes {es es' : List Extent} (hpre : blocksOf es <+: blocksOf es') {k : ℕ}
    (hk : k ≤ (blocksOf es).length * blockSize) :
    (extentBytes w es').take k = (extentBytes w es).take k := by
  obtain ⟨rest, hrest⟩ := hpre
  rw [extentBytes, ← hrest, map_append, gather_append, take_append_of_le_length]
  · rfl
  · rw [← extentBytes, length_extentBytes]
    exact hk

/-- **`write_node`** stores the input in the contents, unless it starts beyond the end. -/
theorem writeNode_wrote (h : Inv D P E w) (hread : Readable w) (hi : i ∉ E)
    (hn : w.fs.nodes i = some n) (hfile : n.fileType = .file)
    (hoff : offset ≤ n.size) (input : List UInt8) :
    Ends (fun k t => k = input.length ∧ Wrote i n (overwrite (contents w n) offset input) w t)
      (fun _ _ => True) (writeNode i offset input w) := by
  refine (writeNode_data h hread hn hfile offset input).imp ?_ fun _ _ _ => trivial
  rintro k t ⟨rfl, es, now, hpre, hfit, hchanged, hbytes⟩
  refine ⟨rfl, _, hchanged, rfl, rfl, ?_⟩
  have hback := h.sound.consistent.backed i n hn hi
  rw [Backed, allocatedBlocks_eq] at hback
  have hlen := hpre.length_le
  rw [contents, hbytes, take_splice hoff, take_extentBytes hpre hback, contents]
  · rw [length_extentBytes]
    exact hback.trans (mul_le_mul_right _ hlen)
  · rwa [length_extentBytes]

theorem Wrote.trans {n' : Node} {bytes bytes' : List UInt8} (h1 : Wrote i n bytes w t)
    (hn' : t.fs.nodes i = some n') (h2 : Wrote i n' bytes' t u) : Wrote i n bytes' w u := by
  obtain ⟨n1, hc1, hpath1, htype1, -⟩ := h1
  obtain ⟨n2, hc2, hpath2, htype2, hbytes2⟩ := h2
  rw [hc1.node] at hn'
  cases hn'
  exact ⟨n2, hc1.trans hc2, hpath2.trans hpath1, htype2.trans htype1, hbytes2⟩

/-- **The loop of a growing `ftruncate_handle`** appends zeros. -/
theorem growLoop_wrote (hi : i ∉ E) {remaining : ℕ} (hfuel : remaining ≤ fuel)
    (h : Inv (some p) P E w) (hn : w.fs.nodes i = some n) (hfile : n.fileType = .file) :
    Ends (fun _ t => Wrote i n (contents w n ++ List.replicate remaining 0) w t)
      (fun _ _ => True) (growLoop i fuel n.size remaining w) := by
  induction fuel generalizing remaining w n with
  | zero =>
    obtain rfl := le_zero.mp hfuel
    rw [replicate_zero, append_nil]
    exact Wrote.refl hn
  | succ fuel ih =>
    rw [growLoop]
    refine Ends.ite (fun h0 => ?_) fun h0 => ?_
    · subst h0
      rw [replicate_zero, append_nil]
      exact Wrote.refl hn
    generalize hchunk : min remaining blockSize = chunk
    have hpos : 0 < chunk := by
      have : 0 < blockSize := by decide
      omega
    have hlen := length_contents w (h.sound.consistent.backed i n hn hi)
    refine ((writeNode_ends n.size (replicate chunk 0) h hn hfile).and
      (writeNode_wrote h h.readable hi hn hfile le_rfl (replicate chunk 0))).bind ?_
      fun _ _ _ => trivial
    rintro - t ⟨⟨ht, -⟩, -, hwrote⟩
    have hwrote' := hwrote
    obtain ⟨n', hc, -, htype, hbytes⟩ := hwrote'
    rw [← hlen, overwrite_end] at hbytes
    -- the file has grown by the chunk
    have hsize : n'.size = n.size + chunk := by
      rw [← length_contents t (ht.sound.consistent.backed i n' hc.node hi), hbytes,
        length_append, length_replicate, hlen]
    rw [← hsize]
    refine (ih (show remaining - chunk ≤ fuel by omega) ht hc.node (htype.trans hfile)).imp ?_
      fun _ _ _ => trivial
    rintro - u hu
    rw [hbytes, append_assoc, replicate_append_replicate, Nat.add_sub_cancel' (by omega)] at hu
    exact hwrote.trans hc.node hu

/-- **Shrinking** keeps the front of the contents. -/
theorem shrink_wrote (h : Inv (some p) P E w) (hi : i ∉ E) (hn : w.fs.nodes i = some n)
    (hfile : n.fileType = .file) {len : ℕ} (hlen : len < n.size) :
    Ends (fun _ t => Wrote i n ((contents w n).take len) w t) (fun _ _ => True)
      (shrink i len w) := by
  have hback := h.sound.consistent.backed i n hn hi
  have hfree := h.freeExtents hn
  have hn1 := nodes_freeExtents hn
  have hchanged := changed_freeExtents hn
  refine ends_shrink (fun _ _ _ => trivial) (fun h0 => ⟨_, hn1, fun _ _ =>
    ⟨_, hchanged.trans ⟨rfl, rfl, rfl⟩, rfl, rfl, by rw [h0]; rfl⟩⟩) fun _ keep hread => ?_
  have hkeep : (contents w n).take len = keep :=
    Except.ok.inj (congrArg Prod.fst ((readNode_run h hn hback 0 len).symm.trans hread))
  have hlength : keep.length = len := by
    rw [← hkeep, length_take, length_contents w hback]
    omega
  -- the kept part is written into new blocks
  refine (writeNode_data hfree hfree.readable hn1 hfile 0 keep).imp ?_ fun _ _ _ => trivial
  rintro - t ⟨-, es, now, -, -, hc, hbytes⟩
  refine ⟨_, hc.node, fun _ _ => ⟨_, (hchanged.trans hc).trans ⟨rfl, rfl, rfl⟩, rfl, rfl, ?_⟩⟩
  show (extentBytes t es).take len = _
  rw [hkeep, hbytes, splice, take_zero, nil_append, ← hlength, take_left]

/-! ### Committing -/

/-- A commit writes below the data region. -/
theorem lt_dataStart_of_mem_commitWrites {fs : DunitFs} (hg : Fits fs.geom)
    {x : ℕ × Block blockSize} (hx : x ∈ commitWrites fs) :
    x.1 < fs.partitionStart + fs.geom.dataStart := by
  have hbounds := slotStart_bounds hg (1 - fs.activeSlot)
  rcases mem_append.mp hx with hx | hx
  · obtain ⟨k, hk, hk'⟩ := mem_slotWrites hx
    rw [hk']
    show fs.partitionStart + _ + k < _
    omega
  · simp only [mem_cons, not_mem_nil, or_false] at hx
    rcases hx with rfl | rfl
    · show fs.partitionStart + 0 < _
      omega
    · show fs.partitionStart + 1 < _
      omega

/-- **A commit** leaves the files as they are. -/
theorem commit_wrote (h : Inv (some p) P E w) (hn : w.fs.nodes i = some n) :
    Ends (fun _ t => Wrote i n (contents w n) w t) (fun _ _ => True) (commit w) := by
  have hg := h.sound.fits
  rcases commit_cases hg with hrun | hrun | hrun
  · rw [hrun]
    exact Wrote.refl hn
  · rw [hrun]
    trivial
  rw [hrun, writeAll_reliable (h.disk p rfl).reliable]
  refine ⟨n, ⟨?_, rfl, rfl⟩, rfl, rfl, ?_⟩
  · show w.fs.nodes = _
    rw [← hn, update_eq_self]
  · refine congrArg (take n.size) (gather_congr fun c hc => ?_)
    obtain ⟨b, hb, rfl⟩ := mem_map.mp hc
    refine data_storeAll_of_forall_ne _ _ fun x hx => ?_
    have hlt := lt_dataStart_of_mem_commitWrites hg hx
    have hle := (h.sound.consistent.accounted.mem_range hn hb).1
    show x.1 ≠ w.fs.partitionStart + b
    omega

/-- A change that is committed. -/
theorem Wrote.commit {bytes : List UInt8} (h : Wrote i n bytes w t) (ht : Inv (some p) P E t) :
    Ends (fun _ u => Wrote i n bytes w u) (fun _ _ => True) (commit t) := by
  have hwrote := h
  obtain ⟨n', hc, -, -, hbytes⟩ := h
  refine (commit_wrote ht hc.node).imp (fun _ u hu => ?_) fun _ _ _ => trivial
  rw [hbytes] at hu
  exact hwrote.trans hc.node hu

/-- A commit leaves the nodes and the handles as they are. -/
theorem commit_shows (hg : Fits w.fs.geom) :
    Ends (fun _ t => t.fs.nodes = w.fs.nodes ∧ t.fs.handles = w.fs.handles ∧
      t.fs.nextHandle = w.fs.nextHandle) (fun _ _ => True) (commit w) := by
  rcases commit_cases hg with hrun | hrun | hrun
  · rw [hrun]
    exact ⟨rfl, rfl, rfl⟩
  · rw [hrun]
    trivial
  rw [hrun]
  rcases writeAll DunitFsError.io (commitWrites w.fs) w.disk with ⟨_ | _, d⟩
  · trivial
  · exact ⟨rfl, rfl, rfl⟩

/-! ### The operations on a file -/

/-- **A new file** is empty. -/
theorem create_new (hg : Fits w.fs.geom) (path : Path) :
    Ends (fun _ t => ∃ i n, w.fs.nodes i = none ∧ Changed i n w t ∧ n.path = clean path ∧
      contents t n = []) (fun _ _ => True) (create path w) := by
  rcases createNode_run with ⟨e, hrun, -⟩ | ⟨i, hc, hrun⟩
  · rw [create, hrun]
    trivial
  rw [create, hrun]
  refine Ends.imp (commit_shows hg) ?_ fun _ _ _ => trivial
  rintro - t ⟨hnodes, hhandles, hnext⟩
  exact ⟨i, _, Option.isNone_iff_eq_none.mp (position_some hc.free), ⟨hnodes, hhandles, hnext⟩, rfl,
    take_zero⟩

/-- **`truncate`** empties a file. -/
theorem truncate_wrote (h : Inv (some p) P E w) {path : Path}
    (hi : nodeIndex w.fs (clean path) = some i) (hn : w.fs.nodes i = some n) :
    Ends (fun _ t => Wrote i n [] w t) (fun _ _ => True) (truncate path w) := by
  rcases truncate_cases h with ⟨e, hrun⟩ | ⟨i', n', now, clock, hi', hn', -, hrun, hu⟩
  · rw [hrun]
    trivial
  cases hi.symm.trans hi'
  cases hn.symm.trans hn'
  rw [hrun]
  exact Wrote.commit ⟨_, (changed_freeExtents hn).trans ⟨rfl, rfl, rfl⟩, rfl, rfl, take_zero⟩ hu

/-- **`ftruncate_handle`** cuts a file off or fills it up. -/
theorem ftruncateHandle_wrote (h : Inv (some p) P E w) {handle len : ℕ} {x : OpenHandle}
    (hx : findHandle w.fs handle = some x) (hn : w.fs.nodes x.node = some n) (hi : x.node ∉ E) :
    Ends (fun _ t => Wrote x.node n (resize (contents w n) len) w t) (fun _ _ => True)
      (ftruncateHandle handle len w) := by
  have hlen := length_contents w (h.sound.consistent.backed _ n hn hi)
  -- a file that is shrunk may be an exception for now
  refine ends_ftruncateHandle (M := fun t => Inv (some p) P (insert x.node E) t ∧
    Wrote x.node n (resize (contents w n) len) w t) (fun _ => trivial)
    (fun x' n' hx' hn' hfile => ?_) fun t ⟨ht, n', hc, hpath, htype, hbytes⟩ => ?_
  · cases hx.symm.trans hx'
    cases hn.symm.trans hn'
    refine ⟨fun heq => ?_, fun hlt => ?_, fun hlt => ?_⟩
    · have hsame : resize (contents w n) len = contents w n := by
        rw [resize, take_of_length_le (by omega), Nat.sub_eq_zero_of_le (by omega),
          replicate_zero, append_nil]
      rw [hsame]
      exact Wrote.refl hn
    · have hshort : resize (contents w n) len = (contents w n).take len := by
        rw [resize, Nat.sub_eq_zero_of_le (by omega), replicate_zero, append_nil]
      rw [hshort]
      have hinv := h.mono (Set.subset_insert x.node E)
      exact ((shrink_ends hinv hn hfile hlt (Or.inl (Set.mem_insert _ _))).and
        (shrink_wrote h hi hn hfile hlt)).imp (fun _ _ ht => ht) fun _ _ _ => trivial
    · have hlong : resize (contents w n) len = contents w n ++ replicate (len - n.size) 0 := by
        rw [resize, take_of_length_le (by omega), hlen]
      rw [hlong]
      exact ((growLoop_safe lasts_true.toRides (Set.mem_univ x.node) _ _ _ w
        ⟨⟨h, trivial⟩, n, hn, hfile⟩).and (growLoop_wrote hi le_rfl h hn hfile)).imp
        (fun _ _ ht => ⟨ht.1.1.1.mono (Set.subset_insert _ _), ht.2⟩) fun _ _ _ => trivial
  · refine Wrote.commit ⟨n', hc.trans ⟨?_, rfl, rfl⟩, hpath, htype, hbytes⟩
      (ht.setMeta ht.sound.consistent fun j hj => hj)
    show t.fs.nodes = _
    rw [← hc.node, update_eq_self]

end DunitOS.DunitFs
