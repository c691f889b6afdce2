import DunitOS.Fs.DunitFs.Invariant

/-!
# Every call keeps the invariant

One specification for each operation of DunitFS, with a postcondition for its normal exit
and one for its errors, over an arbitrary device. No operation panics, and every exit keeps
`Inv`, with two exceptions that the code does not guard against:

* a rename of a directory to a path below itself, after which its nodes hang below nothing;
* a shrinking `ftruncate_handle` whose rewriting of the kept part fails, after which the
  file is longer than its blocks.

The specifications of these two carry the condition under which the exception does not
arise.
-/

namespace DunitOS.DunitFs

open SysLib Prog Vfs List Option Function Ends Nat

variable {path old new : Path} {fs : DunitFs}

/-! ### Rules for the primitives -/

variable {e : VfsError}

section

variable {α β : Type} {Q : β → World → Prop} {X : Stop → World → Prop} {w : World}

theorem getFs_bind_run (f : DunitFs → FsM β) : (getFs >>= f) w = f w.fs w := rfl

theorem ends_getFs {f : DunitFs → FsM β} (h : Ends Q X (f w.fs w)) : Ends Q X ((getFs >>= f) w) := h

theorem ends_okOr {o : Option α} {f : α → FsM β} (hnone : o = none → X (.err e) w)
    (hsome : ∀ a, o = some a → Ends Q X (f a w)) : Ends Q X ((okOr e o >>= f) w) := by
  cases o with
  | none => exact hnone rfl
  | some a => exact hsome a rfl

theorem okOr_some_bind (e : VfsError) (a : α) (f : α → FsM β) :
    (okOr e (some a) >>= f) w = f a w := rfl

theorem unwrap_some_bind (a : α) (f : α → FsM β) : (unwrap (some a) >>= f) w = f a w := rfl

theorem ends_unwrap {o : Option α} {a : α} {f : α → FsM β} (ho : o = some a)
    (h : Ends Q X (f a w)) : Ends Q X ((unwrap o >>= f) w) := by
  subst ho
  exact h

theorem ends_update {g : DunitFs → DunitFs} {f : Unit → FsM β}
    (h : Ends Q X (f () { w with fs := g w.fs })) : Ends Q X ((update g >>= f) w) := h

theorem ends_monotonicNs {f : UInt64 → FsM β}
    (h : ∀ now clock, Ends Q X (f now { w with clock })) : Ends Q X ((monotonicNs >>= f) w) :=
  h _ _

theorem ensureWritable_run (hro : w.fs.readOnly = false) : ensureWritable w = (.ok (), w) := by
  simp [ensureWritable, hro]

theorem ensureWritable_bind_error {f : Unit → FsM β} (hro : w.fs.readOnly = true) :
    (ensureWritable >>= f) w = (.error (.err .permissionDenied), w) :=
  bind_error (by simp [ensureWritable, hro])

theorem ends_ensureWritable {f : Unit → FsM β} (hro : X (.err .permissionDenied) w)
    (h : w.fs.readOnly = false → Ends Q X (f () w)) : Ends Q X ((ensureWritable >>= f) w) := by
  rcases hw : w.fs.readOnly with _ | _
  · rw [bind_ok (ensureWritable_run hw)]
    exact h hw
  · rw [ensureWritable_bind_error hw]
    exact hro

end

variable {D : Option Partition} {P : Path → Prop} {E : Set (Fin maxNodes)} {w : World}
  {i : Fin maxNodes} {n : Node}

/-- An error is not a panic. -/
theorem fails {I : World → Prop} (h : I w) : Fails I (.err e) w := ⟨by simp, h⟩

theorem fail_ends {β : Type} {Q : β → World → Prop} {I : World → Prop} (h : I w) :
    Ends Q (Fails I) (fail e w) := fails h

/-! ### Allocation -/

/-- A node has got more blocks at its end, and nothing else has changed but the bitmap. -/
def Grown (i : Fin maxNodes) (n : Node) (w : World) (es : List Extent) (t : World) : Prop :=
  blocksOf n.extents <+: blocksOf es ∧ ∃ bitmap,
    t = { w with fs := { setNode w.fs i (some { n with extents := es }) with bitmap } }

theorem Grown.refl (hn : w.fs.nodes i = some n) : Grown i n w n.extents w := by
  refine ⟨prefix_rfl, w.fs.bitmap, ?_⟩
  have hsame : Function.update w.fs.nodes i (some n) = w.fs.nodes := by
    rw [← hn, update_eq_self]
  show w = { w with fs := { w.fs with nodes := Function.update w.fs.nodes i (some n) } }
  rw [hsame]

theorem Grown.node {es : List Extent} {t : World} (h : Grown i n w es t) :
    t.fs.nodes i = some { n with extents := es } := by
  obtain ⟨-, bitmap, rfl⟩ := h
  exact update_self _ _ _

/-- **The allocation loop**: it gives the node the blocks it asks for, or some of them. -/
theorem allocLoop_ends (fuel remaining : ℕ) (hfuel : remaining ≤ fuel) (h : Inv D P E w)
    (hn : w.fs.nodes i = some n) (hfile : n.fileType = .file) :
    Ends (fun _ t => Inv D P E t ∧ ∃ es, Grown i n w es t ∧
        (blocksOf es).length = (blocksOf n.extents).length + remaining)
      (Fails fun t => Inv D P E t ∧ ∃ es, Grown i n w es t) (allocLoop i fuel remaining w) := by
  induction fuel generalizing remaining w n with
  | zero =>
    obtain rfl := le_zero.mp hfuel
    exact ⟨h, n.extents, Grown.refl hn, rfl⟩
  | succ fuel ih =>
    rw [allocLoop]
    refine ite (fun h0 => ?_) fun h0 => ?_
    · subst h0
      exact ⟨h, n.extents, Grown.refl hn, rfl⟩
    have hstay : Inv D P E w ∧ ∃ es, Grown i n w es w := ⟨h, n.extents, Grown.refl hn⟩
    refine ends_getFs (ends_okOr (fun _ => fails hstay) fun run hrun => ?_)
    refine ends_unwrap hn (ends_okOr (fun _ => fails hstay) fun es hadd => ends_update ?_)
    obtain ⟨hpos, hmax, hlo, hhi, hfree⟩ :=
      allocRun_some (pos_of_ne_zero h0) h.sound.fits.data_lt.le hrun
    -- one round: the run belongs to the node now
    have hblocks := blocksOf_addRun hadd
    have hcons := h.sound.consistent.alloc h.sound.fits hn hfile hadd ⟨hpos, hlo, hhi⟩ hfree
    have hinv := @Inv.setMeta D P E E w h _ _ w.fs.dirty hcons fun j hj => hj.update hn rfl
    refine (ih (remaining - run.2) (by omega) hinv (update_self _ _ _) hfile).imp
      ?_ ?_
    · rintro - t ⟨ht, es', ⟨hpre, bitmap, rfl⟩, hlen⟩
      refine ⟨ht, es', ⟨?_, bitmap, ?_⟩, ?_⟩
      · exact (hblocks ▸ prefix_append _ _ : blocksOf n.extents <+: blocksOf es).trans hpre
      · simp only [setNode, update_idem]
      · rw [hlen, hblocks, length_append, length_range']
        omega
    · rintro e t ⟨he, ht, es', hpre, bitmap, rfl⟩
      refine ⟨he, ht, es', ?_, bitmap, ?_⟩
      · exact (hblocks ▸ prefix_append _ _ : blocksOf n.extents <+: blocksOf es).trans hpre
      · simp only [setNode, update_idem]

/-- **`ensure_blocks`** gives a file the blocks it needs, or fails with some of them. -/
theorem ensureBlocks_ends (needed : ℕ) (h : Inv D P E w) (hn : w.fs.nodes i = some n)
    (hfile : n.fileType = .file) :
    Ends (fun _ t => Inv D P E t ∧ ∃ es, Grown i n w es t ∧ needed ≤ (blocksOf es).length)
      (Fails fun t => Inv D P E t ∧ ∃ es, Grown i n w es t) (ensureBlocks i needed w) := by
  have hsome : okOr VfsError.notFound (w.fs.nodes i) w = (.ok n, w) := by rw [hn]; rfl
  have hrun : ensureBlocks i needed w = (if needed ≤ n.allocatedBlocks then pure ()
      else allocLoop i (needed - n.allocatedBlocks) (needed - n.allocatedBlocks) : FsM Unit) w := by
    show ((okOr VfsError.notFound (w.fs.nodes i)) >>= _) w = _
    rw [bind_ok hsome]
  rw [hrun]
  refine ite (fun hle => ?_) fun hlt => ?_
  · exact ⟨h, n.extents, Grown.refl hn, by rwa [← allocatedBlocks_eq]⟩
  · refine (allocLoop_ends _ _ (le_refl _) h hn hfile).imp ?_ fun e t he => he
    rintro - t ⟨ht, es, hes, hlen⟩
    refine ⟨ht, es, hes, ?_⟩
    rw [hlen, ← allocatedBlocks_eq]
    omega

/-! ### Reading and writing blocks -/

variable {b : ℕ}

theorem readDataBlock_ok {x : Block blockSize}
    (h : readPartitionBlock w.fs.part b w.disk = .ok x) : readDataBlock b w = (.ok x, w) := by
  rw [readDataBlock, get_bind_run, h]
  rfl

theorem readDataBlock_error {e : DunitFsError}
    (h : readPartitionBlock w.fs.part b w.disk = .error e) :
    readDataBlock b w = (.error (.err .ioError), w) := by
  rw [readDataBlock, get_bind_run, h]
  rfl

/-- Reading a block changes nothing. -/
theorem readDataBlock_ends :
    Ends (fun _ t => t = w) (Fails (· = w)) (readDataBlock b w) := by
  rcases h : readPartitionBlock w.fs.part b w.disk with e | x
  · rw [readDataBlock_error h]
    exact fails rfl
  · rw [readDataBlock_ok h]
    rfl

theorem sectorFor_ends {b within count : ℕ} :
    Ends (fun _ t => t = w) (Fails (· = w)) (sectorFor b within count w) := by
  exact ite (fun _ => readDataBlock_ends) fun _ => rfl

theorem readLoop_ends {offset length fuel : ℕ} (acc : List UInt8) :
    Ends (fun _ t => t = w) (Fails (· = w)) (readLoop n offset length fuel acc w) := by
  induction fuel generalizing acc with
  | zero => rfl
  | succ fuel ih =>
    rw [readLoop]
    refine ite (fun _ => rfl) fun _ => ?_
    refine ends_okOr (fun _ => fails rfl) fun b _ => ?_
    refine (readDataBlock_ends).bind ?_ fun e t he => he
    rintro x t rfl
    exact ih _

/-- **Reading changes nothing**, on the device or in memory. -/
theorem readNode_ends {offset len : ℕ} :
    Ends (fun _ t => t = w) (Fails (· = w)) (readNode i offset len w) := by
  refine ends_getFs (ends_okOr (fun _ => fails rfl) fun n _ => ?_)
  exact ite (fun _ => rfl) fun _ => readLoop_ends _

/-- Writing a block of the data region keeps the invariant and changes nothing in memory. -/
theorem writeRaw_ends (h : Inv D P E w) (hb : w.fs.geom.dataStart ≤ b) (x : Block blockSize) :
    Ends (fun _ t => Inv D P E t ∧ t.fs = w.fs) (Fails fun t => Inv D P E t ∧ t.fs = w.fs)
      (writeRaw b x w) := by
  show Ends _ _ (onDisk (writePartitionBlock w.fs.part b x) w)
  cases D with
  | none =>
    have hinv : ∀ d, Inv none P E { w with disk := d } := fun d =>
      ⟨h.sound, fun p hp => by cases hp⟩
    rcases hrun : writePartitionBlock w.fs.part b x w.disk with ⟨e | _, d⟩
    · rw [onDisk_error hrun]
      exact ⟨by simp, hinv d, rfl⟩
    · rw [onDisk_ok hrun]
      exact ⟨hinv d, rfl⟩
  | some p =>
    obtain ⟨rfl, hgeom, hrel, m, hpub, hm⟩ := h.disk p rfl
    rw [writePartitionBlock]
    split_ifs with hout
    · exact ⟨by simp, h, rfl⟩
    · rw [onDisk_ok (Disk.write_reliable hrel _ _ _)]
      refine ⟨⟨h.sound, fun q hq => ?_⟩, rfl⟩
      cases hq
      exact ⟨rfl, hgeom, hrel, m, hpub.store_data h.sound.fits hb x, hm⟩

/-- **The rule for the write loop**, which writes to blocks of its node only: it keeps what these
writes keep. -/
theorem writeLoop_keeps {J : World → Prop} {offset : ℕ} {input : List UInt8} (fuel done : ℕ)
    (h : Inv D P E w) (hn : w.fs.nodes i = some n) (hJ : J w)
    (hstep : ∀ t, Inv D P E t → t.fs = w.fs → J t → ∀ b ∈ blocksOf n.extents,
      t.fs.geom.dataStart ≤ b → ∀ x, Ends (fun _ => J) (fun _ => J) (writeRaw b x t)) :
    Ends (fun _ t => (Inv D P E t ∧ t.fs = w.fs) ∧ J t)
      (fun e t => Fails (fun t => Inv D P E t ∧ t.fs = w.fs) e t ∧ J t)
      (writeLoop i offset input fuel done w) := by
  induction fuel generalizing done w with
  | zero => exact ⟨⟨h, rfl⟩, hJ⟩
  | succ fuel ih =>
    rw [writeLoop]
    refine ite (fun _ => ⟨⟨h, rfl⟩, hJ⟩) fun _ => ?_
    refine ends_getFs (ends_unwrap hn (ends_okOr (fun _ => ⟨fails ⟨h, rfl⟩, hJ⟩) fun b hb => ?_))
    rw [physicalBlock_eq] at hb
    have hmem := mem_of_getElem? hb
    have hdata := (h.sound.consistent.accounted.mem_range hn hmem).1
    refine (sectorFor_ends).bind ?_ fun e t he => ?_
    swap
    · obtain ⟨he, rfl⟩ := he
      exact ⟨⟨he, h, rfl⟩, hJ⟩
    rintro x t rfl
    refine ((writeRaw_ends h hdata _).and (hstep t h rfl hJ b hmem hdata _)).bind ?_
      fun e t he => he
    rintro - u ⟨⟨hu, hfs⟩, hJu⟩
    rw [← hfs]
    exact ih _ hu (by rw [hfs]; exact hn) hJu fun v hv hfs' => hstep v hv (hfs'.trans hfs)

theorem writeLoop_ends {offset : ℕ} {input : List UInt8} {fuel done : ℕ} (h : Inv D P E w)
    (hn : w.fs.nodes i = some n) :
    Ends (fun _ t => Inv D P E t ∧ t.fs = w.fs) (Fails fun t => Inv D P E t ∧ t.fs = w.fs)
      (writeLoop i offset input fuel done w) :=
  (writeLoop_keeps (J := fun _ => True) fuel done h hn trivial
    fun t _ _ _ b _ _ x => by rcases writeRaw b x t with ⟨_ | _, _⟩ <;> trivial).imp
    (fun _ _ ht => ht.1) fun _ _ ht => ht.1

theorem le_of_divCeil_le {a k : ℕ} (h : divCeil a blockSize ≤ k) : a ≤ k * blockSize := by
  have h : (a + 512 - 1) / 512 ≤ k := h
  show a ≤ k * 512
  omega

/-- **A condition that rides along** with the invariant: the calls that change the nodes at some
indices keep it, with what they change in memory and with their writes to the blocks of these
nodes. -/
structure Rides (D : Option Partition) (P : Path → Prop) (E S : Set (Fin maxNodes))
    (J : World → Prop) : Prop where
  handles : ∀ t handles nextHandle, J t → J { t with fs := { t.fs with handles, nextHandle } }
  mark : ∀ t nodes bitmap handles clock, (∀ j ∉ S, nodes j = t.fs.nodes j) → J t →
    J { t with clock, fs := { t.fs with nodes, bitmap, handles, dirty := true } }
  grow : ∀ i ∈ S, ∀ n t es u, t.fs.nodes i = some n → Grown i n t es u → J t → J u
  raw : ∀ i ∈ S, ∀ n t, Inv D P E t → t.fs.nodes i = some n → J t → ∀ b ∈ blocksOf n.extents,
    t.fs.geom.dataStart ≤ b → ∀ x, Ends (fun _ => J) (fun _ => J) (writeRaw b x t)

/-- **A condition that lasts**: it rides along, and a commit keeps it. -/
structure Lasts (D : Option Partition) (P : Path → Prop) (E S : Set (Fin maxNodes))
    (J : World → Prop) : Prop extends Rides D P E S J where
  commits : ∀ t, Inv D P E t → J t → Ends (fun _ => J) (fun _ => J) (commit t)

variable {S : Set (Fin maxNodes)} {J : World → Prop}

theorem lasts_true : Lasts D P E S fun _ => True :=
  ⟨⟨fun _ _ _ h => h, fun _ _ _ _ _ _ h => h, fun _ _ _ _ _ _ _ _ h => h,
    fun _ _ _ _ _ _ _ _ _ _ _ => of_forall trivial⟩, fun _ _ _ => of_forall trivial⟩

theorem update_of_notMem {nodes : NodeTable} {o : Option Node} (hi : i ∈ S) :
    ∀ j ∉ S, Function.update nodes i o j = nodes j := fun _ hj =>
  update_of_ne (fun heq => hj (by rwa [heq])) _ _

/-- **The rule for `write_node`**: it keeps a condition that rides along. -/
theorem writeNode_keeps (hJ : Rides D P E S J) (hi : i ∈ S) (offset : ℕ) (input : List UInt8)
    (h : Inv D P E w) (hn : w.fs.nodes i = some n) (hfile : n.fileType = .file) (hw : J w) :
    Ends (fun _ => J) (fun _ => J) (writeNode i offset input w) := by
  refine ends_ensureWritable hw fun _ => ite (fun _ => hw) fun _ => ?_
  refine (ensureBlocks_ends _ h hn hfile).bind ?_ fun e t ⟨_, _, es, hgrown⟩ =>
    hJ.grow i hi n w es t hn hgrown hw
  rintro - t ⟨ht, es, hgrown, -⟩
  have hnode := hgrown.node
  refine (writeLoop_keeps _ _ ht hnode (hJ.grow i hi n w es t hn hgrown hw)
    fun u hu hfs => ?_).bind ?_ fun _ _ hu => hu.2
  · exact hJ.raw i hi _ u hu (by rw [hfs, hnode])
  rintro - u ⟨⟨-, hfs⟩, hu⟩
  rw [← hfs] at hnode
  exact ends_getFs (ends_unwrap hnode (ends_monotonicNs fun now clock =>
    ends_update (hJ.mark u _ _ _ clock (update_of_notMem hi) hu)))

/-- **`write_node`** leaves the file with the blocks it was written to. -/
theorem writeNode_ends (offset : ℕ) (input : List UInt8) (h : Inv D P E w)
    (hn : w.fs.nodes i = some n) (hfile : n.fileType = .file) :
    Ends (fun _ t => Inv D P E t ∧ ∃ n', t.fs.nodes i = some n' ∧ n'.fileType = .file ∧
        offset + input.length ≤ n'.allocatedBlocks * blockSize)
      (Fails fun t => Inv D P E t ∧ FileAt t.fs.nodes i) (writeNode i offset input w) := by
  have hstay : Inv D P E w ∧ FileAt w.fs.nodes i := ⟨h, n, hn, hfile⟩
  refine ends_ensureWritable (fails hstay) fun _ => ?_
  refine ite (fun _ => fail_ends hstay) fun hlt => ?_
  refine (ensureBlocks_ends _ h hn hfile).bind ?_ ?_
  · rintro - t ⟨ht, es, hgrown, hlen⟩
    have hnode := hgrown.node
    refine (writeLoop_ends ht hnode).bind ?_ ?_
    · rintro - u ⟨hu, hfs⟩
      rw [← hfs] at hnode
      refine ends_getFs (ends_unwrap hnode (ends_monotonicNs fun now clock => ends_update ?_))
      have hreg := hu.sound.consistent.regular i _ hnode
      have hend : offset + input.length ≤
          Node.allocatedBlocks { n with extents := es } * blockSize := by
        refine le_of_divCeil_le ?_
        rwa [allocatedBlocks_eq]
      -- the size stays below the blocks, old and new
      refine ⟨(hu.setClock clock).setMeta (hu.sound.consistent.touch hnode rfl rfl rfl
        ⟨hreg.not_device, hreg.count_le, fun hd => ?_, ?_⟩ (fun j _ hj => hj) fun hi => ?_)
        fun j hj => hj.update hnode rfl, _, update_self _ _ _, hfile, hend⟩
      · have hd : n.fileType = .directory := hd
        rw [hfile] at hd
        cases hd
      · exact max_lt hreg.size_lt (not_le.mp hlt)
      · exact max_le (hu.sound.consistent.backed i _ hnode hi) hend
    · rintro e u ⟨he, hu, hfs⟩
      rw [← hfs] at hnode
      exact ⟨he, hu, _, hnode, hfile⟩
  · rintro e t ⟨he, ht, es, hgrown⟩
    exact ⟨he, ht, _, hgrown.node, hfile⟩

/-! ### Creating, removing and renaming -/

/-- A call that never panics and keeps a property, whatever the state it starts from. -/
def Safe {α : Type} (I : World → Prop) (m : FsM α) : Prop :=
  ∀ w, I w → Ends (fun _ => I) (Fails I) (m w)

/-- The invariant, and a condition along with it. -/
abbrev Along (D : Option Partition) (P : Path → Prop) (E : Set (Fin maxNodes)) (J : World → Prop)
    (w : World) : Prop := Inv D P E w ∧ J w

theorem Lasts.commit_safe (hJ : Lasts D P E S J) (hDE : D ≠ none → E = ∅) :
    Safe (Along D P E J) commit := fun t ht =>
  ((commit_ends hDE ht.1).and (hJ.commits t ht.1 ht.2)).imp (fun _ _ hu => ⟨hu.1.1, hu.2⟩)
    fun _ _ hu => ⟨hu.1.1, hu.1.2.1, hu.2⟩

theorem clean_clean (path : Path) : clean (clean path) = clean path := trimSlashes_trimSlashes path

theorem trimmed_clean (hne : clean path ≠ []) : Trimmed (clean path) :=
  (trimSlashes_eq_nil_or_trimmed path).resolve_left hne

/-- What the checks of `createNode` let pass. -/
structure Creates (fs : DunitFs) (path : Path) (i : Fin maxNodes) : Prop where
  writable : fs.readOnly = false
  ne_nil : clean path ≠ []
  fits : byteLen (clean path) ≤ pathSize
  parent : parentExists fs (clean path) = true
  absent : nodeIndex fs (clean path) = none
  free : freeNodeIndex fs = some i

/-- The node that is created. -/
def newNode (path : Path) (fileType : FileType) (now : UInt64) : Node :=
  ⟨clean path, fileType, if fileType = .directory then defaultDirMode else defaultFileMode, 0, now,
    now, []⟩

/-- **What creating a node does**, in any state: it is refused, or it commits a table with one node
more. -/
theorem createNode_run {fileType : FileType} :
    (∃ e, createNode path fileType w = (.error (.err e), w) ∧ ∀ i, ¬Creates w.fs path i) ∨
    ∃ i, Creates w.fs path i ∧ createNode path fileType w = commit { w with
      clock := fun k => w.clock (k + 1)
      fs := setDirty (setNode w.fs i (some (newNode path fileType (w.clock 0)))) } := by
  unfold createNode
  rcases hro : w.fs.readOnly with _ | _
  swap
  · refine .inl ⟨_, ensureWritable_bind_error hro, fun i hc => ?_⟩
    rw [hc.writable] at hro
    cases hro
  rw [bind_ok (ensureWritable_run hro), getFs_bind_run]
  by_cases hpath : clean path = [] ∨ pathSize < byteLen (clean path) ∨
      parentExists w.fs (clean path) = false
  · refine .inl ⟨.invalidPath, by rw [if_pos hpath]; rfl, fun i hc => ?_⟩
    rcases hpath with h | h | h
    · exact hc.ne_nil h
    · exact not_le.mpr h hc.fits
    · rw [hc.parent] at h
      cases h
  by_cases hnew : (nodeIndex w.fs (clean path)).isSome = true
  · refine .inl ⟨.alreadyExists, by rw [if_neg hpath, if_pos hnew]; rfl, fun i hc => ?_⟩
    rw [hc.absent] at hnew
    cases hnew
  rw [if_neg hpath, if_neg hnew]
  rw [not_or, not_or, not_lt, Bool.not_eq_false] at hpath
  rw [Bool.not_eq_true, Option.isSome_eq_false_iff, Option.isNone_iff_eq_none] at hnew
  rcases hi : freeNodeIndex w.fs with _ | i
  · refine .inl ⟨_, rfl, fun i hc => ?_⟩
    rw [hc.free] at hi
    cases hi
  exact .inr ⟨i, ⟨hro, hpath.1, hpath.2.1, hpath.2.2, hnew, hi⟩, rfl⟩

/-- **What creating a node does**: it fails at once, or it commits a table with one node
more. -/
theorem createNode_cases {fileType : FileType} (h : Inv D P E w)
    (ht : fileType ≠ .device) (hP : P (clean path)) :
    (∃ e, createNode path fileType w = (.error (.err e), w)) ∨ ∃ i n clock,
      w.fs.nodes i = none ∧ createNode path fileType w =
        commit { w with clock, fs := setDirty (setNode w.fs i (some n)) } ∧
      Inv D P E { w with clock, fs := setDirty (setNode w.fs i (some n)) } := by
  rcases createNode_run with ⟨e, hrun, -⟩ | ⟨i, hc, hrun⟩
  · exact .inl ⟨e, hrun⟩
  have htrim := trimmed_clean hc.ne_nil
  have hfree : w.fs.nodes i = none := Option.isNone_iff_eq_none.mp (position_some hc.free)
  refine .inr ⟨i, newNode path fileType (w.clock 0), fun k => w.clock (k + 1), hfree, hrun, ?_⟩
  have hcons := h.sound.consistent.insertNode (n := newNode path fileType (w.clock 0))
    hfree htrim hc.fits (fun j m hm => by
      have hj := nodeIndex_none hc.absent j hm
      rwa [clean_clean] at hj)
    (fun q hq hb => isDir_of_parentExists h.sound.consistent.tree htrim hc.parent hq hb) ht rfl rfl
    hP
  refine (h.setClock fun k => w.clock (k + 1)).setMeta hcons ?_
  rintro j ⟨m, hm, hfile⟩
  have hj : j ≠ i := by
    rintro rfl
    rw [hfree] at hm
    cases hm
  exact ⟨m, (update_of_ne hj _ _).trans hm, hfile⟩

theorem createNode_safe (hJ : Lasts D P E S J) (hDE : D ≠ none → E = ∅)
    {fileType : FileType} (ht : fileType ≠ .device) (hP : P (clean path)) (h : Along D P E J w)
    (hS : ∀ i, w.fs.nodes i = none → i ∈ S) :
    Stays (Along D P E J) (createNode path fileType w) := by
  rcases createNode_cases h.1 ht hP with ⟨e, hrun⟩ | ⟨i, n, clock, hfree, hrun, hu⟩
  · rw [hrun]
    exact fails h
  · rw [hrun]
    exact hJ.commit_safe hDE _ ⟨hu, hJ.mark w _ _ _ clock (update_of_notMem (hS i hfree)) h.2⟩

variable {path : Path}

theorem setNode_freeExtents (hn : fs.nodes i = some n) (o : Option Node) :
    setNode (freeExtents i fs) i o = { fs with
        bitmap := freeBits fs.bitmap n.extents
        nodes := Function.update fs.nodes i o } := by
  simp only [freeExtents, hn, setNode, update_idem]

/-- The file system without a file: its blocks are free and its handles are closed. -/
def removed (fs : DunitFs) (i : Fin maxNodes) : DunitFs :=
  let fs := setNode (freeExtents i fs) i none
  setDirty { fs with handles := fs.handles.filter fun h => decide (h.2.node ≠ i) }

/-- What the checks of `remove` let pass. -/
structure Removes (fs : DunitFs) (path : Path) (i : Fin maxNodes) (n : Node) : Prop where
  writable : fs.readOnly = false
  found : nodeIndex fs (clean path) = some i
  node : fs.nodes i = some n
  isFile : n.fileType = .file

/-- **What removing a file does**, in any state: it is refused, or it commits a table without the
file. -/
theorem remove_run :
    (∃ e, remove path w = (.error (.err e), w) ∧ ∀ i n, ¬Removes w.fs path i n) ∨
    ∃ i n, Removes w.fs path i n ∧ remove path w = commit { w with fs := removed w.fs i } := by
  unfold remove
  rcases hro : w.fs.readOnly with _ | _
  swap
  · refine .inl ⟨_, ensureWritable_bind_error hro, fun i n hr => ?_⟩
    rw [hr.writable] at hro
    cases hro
  rw [bind_ok (ensureWritable_run hro), getFs_bind_run]
  rcases hi : nodeIndex w.fs (clean path) with _ | i
  · refine .inl ⟨_, rfl, fun i n hr => ?_⟩
    rw [hr.found] at hi
    cases hi
  obtain ⟨n, hn, -⟩ := nodeIndex_some hi
  rw [okOr_some_bind, hn, unwrap_some_bind]
  by_cases hfile : n.fileType = .file
  swap
  · refine .inl ⟨.isADirectory, by rw [if_pos hfile]; rfl, fun i' n' hr => ?_⟩
    obtain rfl := some.inj (hi.symm.trans hr.found)
    obtain rfl := some.inj (hn.symm.trans hr.node)
    exact hfile hr.isFile
  · refine .inr ⟨i, n, ⟨hro, hi, hn, hfile⟩, ?_⟩
    rw [if_neg (not_not.mpr hfile)]
    rfl

/-- **What removing a file does**: it fails at once, or it commits a table without the
file. -/
theorem remove_cases (path : Path) (h : Inv D P E w) :
    (∃ e, remove path w = (.error (.err e), w)) ∨ ∃ i n,
      nodeIndex w.fs (clean path) = some i ∧ w.fs.nodes i = some n ∧
      remove path w = commit { w with fs := removed w.fs i } ∧
      Inv D P E { w with fs := removed w.fs i } := by
  rcases remove_run with ⟨e, hrun, -⟩ | ⟨i, n, hr, hrun⟩
  · exact .inl ⟨e, hrun⟩
  have hn := hr.node
  have hfile := hr.isFile
  refine .inr ⟨i, n, hr.found, hn, hrun, ?_⟩
  have hcons := h.sound.consistent.removeNode hn (by rw [hfile]; simp)
  -- the handles that are left are on other nodes
  have hhandles : ∀ x ∈ w.fs.handles.filter (fun x => decide (x.2.node ≠ i)),
      FileAt (Function.update w.fs.nodes i none) x.2.node := by
    intro x hx
    obtain ⟨hx, hxi⟩ := mem_filter.mp hx
    rw [decide_eq_true_eq] at hxi
    obtain ⟨m, hm, hm'⟩ := h.sound.handles x hx
    exact ⟨m, by rwa [update_of_ne hxi], hm'⟩
  have hsound : Sound P E { w.fs with
      bitmap := freeBits w.fs.bitmap n.extents
      nodes := Function.update w.fs.nodes i none
      handles := w.fs.handles.filter fun x => decide (x.2.node ≠ i)
      dirty := true } := ⟨h.sound.fits, hcons, hhandles⟩
  rw [removed, setNode_freeExtents hn]
  exact h.setFs ⟨rfl, rfl, rfl, rfl⟩ hsound

theorem remove_safe (hJ : Lasts D P E S J) (hDE : D ≠ none → E = ∅)
    (h : Along D P E J w) (hS : ∀ i, nodeIndex w.fs (clean path) = some i → i ∈ S) :
    Stays (Along D P E J) (remove path w) := by
  rcases remove_cases path h.1 with ⟨e, hrun⟩ | ⟨i, n, hi, hn, hrun, hu⟩
  · rw [hrun]
    exact fails h
  · rw [hrun]
    refine hJ.commit_safe hDE _ ⟨hu, ?_⟩
    rw [removed, setNode_freeExtents hn]
    exact hJ.mark w _ _ _ w.clock (update_of_notMem (hS i hi)) h.2

/-- **The condition of a rename**: a directory does not move below itself. -/
def RenameOk (fs : DunitFs) (old new : Path) : Prop :=
  ∀ i n, fs.nodes i = some n → n.path = clean old → n.fileType = .directory →
    ¬Below (clean old) (clean new)

/-- What the check of the children says. -/
theorem byteLen_of_childrenFit {s : Path} {nodes : NodeTable}
    (h : childrenFit old new nodes = true) {j : Fin maxNodes} {m : Node} (hm : nodes j = some m)
    (hs : m.path = old ++ '/' :: s) : byteLen (new ++ '/' :: s) ≤ pathSize := by
  have hj := all_eq_true.mp h j (mem_finRange j)
  rw [hm, bind_some, hs, movedPath_below] at hj
  simpa using hj

theorem movedPath_self : movedPath old new old = none := by
  rcases h : movedPath old new old with _ | p
  · rfl
  · obtain ⟨s, hs, -⟩ := movedPath_some h
    simp at hs

/-- What the checks of `renameNode` let pass. -/
structure Renames (fs : DunitFs) (old new : Path) (i : Fin maxNodes) (n : Node) : Prop where
  writable : fs.readOnly = false
  found : nodeIndex fs (clean old) = some i
  node : fs.nodes i = some n
  ne_nil : clean new ≠ []
  fits : byteLen (clean new) ≤ pathSize
  absent : nodeIndex fs (clean new) = none
  parent : parentExists fs (clean new) = true
  children : n.fileType = .directory → childrenFit (clean old) (clean new) fs.nodes = true

theorem Renames.path_eq (h : Renames fs old new i n) : n.path = clean old := by
  obtain ⟨n', hn', hpath⟩ := nodeIndex_some h.found
  obtain rfl := some.inj (h.node.symm.trans hn')
  rwa [clean_clean] at hpath

/-- **What renaming a node does**, in any state: it is refused, or it commits a table in which the
node and what is below it have moved. -/
theorem renameNode_run :
    (∃ e, renameNode old new w = (.error (.err e), w) ∧ ∀ i n, ¬Renames w.fs old new i n) ∨
    ∃ i n, Renames w.fs old new i n ∧ renameNode old new w = commit { w with
      clock := fun k => w.clock (k + 1)
      fs := { w.fs with nodes := renameTable i n (clean new) (w.clock 0) w.fs.nodes
                        dirty := true } } := by
  unfold renameNode
  rcases hro : w.fs.readOnly with _ | _
  swap
  · refine .inl ⟨_, ensureWritable_bind_error hro, fun i n hr => ?_⟩
    rw [hr.writable] at hro
    cases hro
  rw [bind_ok (ensureWritable_run hro), getFs_bind_run]
  rcases hi : nodeIndex w.fs (clean old) with _ | i
  · refine .inl ⟨_, rfl, fun i n hr => ?_⟩
    rw [hr.found] at hi
    cases hi
  obtain ⟨n, hn, hpath⟩ := nodeIndex_some hi
  rw [clean_clean] at hpath
  rw [okOr_some_bind]
  split_ifs with hnew hfree hparent
  · refine .inl ⟨_, rfl, fun i n hr => ?_⟩
    rcases hnew with h | h
    · exact hr.ne_nil h
    · exact not_le.mpr h hr.fits
  · refine .inl ⟨_, rfl, fun i n hr => ?_⟩
    rw [hr.absent] at hfree
    cases hfree
  · refine .inl ⟨_, rfl, fun i n hr => ?_⟩
    rw [hr.parent] at hparent
    cases hparent
  rw [not_or, not_lt] at hnew
  rw [Bool.not_eq_true, Option.isSome_eq_false_iff, Option.isNone_iff_eq_none] at hfree
  rw [Bool.not_eq_false] at hparent
  rw [hn, unwrap_some_bind]
  by_cases hfit : n.fileType = .directory ∧ childrenFit (clean old) (clean new) w.fs.nodes = false
  · refine .inl ⟨.invalidPath, by rw [if_pos hfit]; rfl, fun i' n' hr => ?_⟩
    obtain rfl := some.inj (hi.symm.trans hr.found)
    obtain rfl := some.inj (hn.symm.trans hr.node)
    rw [hr.children hfit.1] at hfit
    cases hfit.2
  -- the node itself is still where it was
  have hn1 : (if n.fileType = .directory then moveChildren (clean old) (clean new) w.fs.nodes
      else w.fs.nodes) i = some n := by
    split_ifs with hdir
    · rw [moveChildren, hn, map_some, hpath, movedPath_self, getD_none, ← hpath]
    · exact hn
  refine .inr ⟨i, n, ⟨hro, hi, hn, hnew.1, hnew.2, hfree, hparent, fun hdir => ?_⟩, ?_⟩
  · rw [not_and, Bool.not_eq_false] at hfit
    exact hfit hdir
  · rw [if_neg hfit]
    show (unwrap ((if n.fileType = .directory then moveChildren (clean old) (clean new) w.fs.nodes
      else w.fs.nodes) i) >>= _) _ = _
    rw [hn1, renameTable, hpath]
    rfl

/-- **What renaming a node does**: it fails at once, or it commits a table in which the node
and what is below it have moved. -/
theorem renameNode_cases (h : Inv D P E w) (hok : RenameOk w.fs old new)
    (hP : ∀ q, P q → P (renamed (clean old) (clean new) q)) :
    (∃ e, renameNode old new w = (.error (.err e), w)) ∨ ∃ i n now clock,
      nodeIndex w.fs (clean old) = some i ∧ w.fs.nodes i = some n ∧ n.path = clean old ∧
      renameNode old new w = commit { w with
        clock, fs := { w.fs with nodes := renameTable i n (clean new) now w.fs.nodes
                                 dirty := true } } ∧
      Inv D P E { w with
        clock, fs := { w.fs with nodes := renameTable i n (clean new) now w.fs.nodes
                                 dirty := true } } := by
  rcases renameNode_run with ⟨e, hrun, -⟩ | ⟨i, n, hr, hrun⟩
  · exact .inl ⟨e, hrun⟩
  have hn := hr.node
  have hpath := hr.path_eq
  have htree := h.sound.consistent.tree
  refine .inr ⟨i, n, w.clock 0, fun k => w.clock (k + 1), hr.found, hn, hpath, hrun, ?_⟩
  have hcons := h.sound.consistent.renameNode hn (trimmed_clean hr.ne_nil) hr.fits
    (fun j m hm => by
      have hj := nodeIndex_none hr.absent j hm
      rwa [clean_clean] at hj)
    (fun q hq hb => isDir_of_parentExists htree (trimmed_clean hr.ne_nil) hr.parent hq hb)
    (fun hdir => by
      rw [hpath]
      exact hok i n hn hpath hdir)
    (fun j m s hm hs => by
      have hdir := htree.directory_of_below hn hm ⟨s, hs⟩
      exact byteLen_of_childrenFit (hr.children hdir) hm (hpath ▸ hs))
    (fun q hq => by
      rw [hpath]
      exact hP q hq) (w.clock 0)
  refine (h.setClock fun k => w.clock (k + 1)).setMeta hcons fun j hj => ?_
  obtain ⟨m, hm, hfile⟩ := hj
  obtain ⟨m', hm', hmm⟩ := (moved_renameTable htree hn (clean new) (w.clock 0)).forth j m hm
  exact ⟨m', hm', hmm.type_eq.trans hfile⟩

theorem renameNode_safe (hJ : Lasts D P E S J) (hDE : D ≠ none → E = ∅) {old new : Path}
    (h : Along D P E J w) (hok : RenameOk w.fs old new)
    (hP : ∀ q, P q → P (renamed (clean old) (clean new) q)) (hS : S = Set.univ) :
    Stays (Along D P E J) (renameNode old new w) := by
  rcases renameNode_cases h.1 hok hP with ⟨e, hrun⟩ | ⟨i, n, now, clock, -, -, -, hrun, hu⟩
  · rw [hrun]
    exact fails h
  · rw [hrun]
    refine hJ.commit_safe hDE _ ⟨hu, hJ.mark w _ _ _ clock (fun j hj => ?_) h.2⟩
    rw [hS] at hj
    exact absurd (Set.mem_univ j) hj

/-! ### Truncating -/

theorem freeExtents_eq (hn : fs.nodes i = some n) : freeExtents i fs = { fs with
      bitmap := freeBits fs.bitmap n.extents
      nodes := Function.update fs.nodes i (some { n with extents := [] }) } := by
  simp only [freeExtents, hn, setNode]

theorem nodes_freeExtents (hn : fs.nodes i = some n) :
    (freeExtents i fs).nodes i = some { n with extents := [] } := by
  rw [freeExtents_eq hn]
  exact update_self _ _ _

/-- Freeing the extents of a node keeps the invariant, with the node as an exception. -/
theorem Inv.freeExtents (h : Inv D P E w) (hn : w.fs.nodes i = some n) :
    Inv D P (insert i E) { w with fs := freeExtents i w.fs } := by
  rw [freeExtents_eq hn]
  exact h.setMeta (h.sound.consistent.freeNode hn) fun j hj => hj.update hn rfl

/-- Setting the size of a node to one that its blocks hold ends the exception. -/
theorem Inv.setSize (h : Inv D P (insert i E) w) (hn : w.fs.nodes i = some n)
    (hfile : n.fileType = .file) {size : ℕ} (hlt : size < 2 ^ 64)
    (hle : i ∉ E → size ≤ n.allocatedBlocks * blockSize) (now : UInt64) (dirty : Bool) :
    Inv D P E { w with
      fs := { setNode w.fs i (some { n with size, mtimeNs := now }) with dirty } } := by
  have hreg := h.sound.consistent.regular i n hn
  refine h.setMeta (h.sound.consistent.touch hn rfl rfl rfl
    ⟨hreg.not_device, hreg.count_le, fun hd => ?_, hlt⟩
    (fun j hj hE => hE.resolve_left hj) hle) fun j hj => hj.update hn rfl
  have hd : n.fileType = .directory := hd
  rw [hfile] at hd
  cases hd

/-- **An emptied file**: its extents are freed and its size is nothing. -/
theorem Inv.empty (h : Inv D P E w) (hn : w.fs.nodes i = some n) (hfile : n.fileType = .file)
    (now : UInt64) (clock : ℕ → UInt64) :
    Inv D P E { w with clock, fs := setDirty (setNode (DunitFs.freeExtents i w.fs) i
      (some { n with extents := [], size := 0, mtimeNs := now })) } := by
  exact ((h.freeExtents hn).setClock clock).setSize (nodes_freeExtents hn) hfile
    (Nat.two_pow_pos 64) (fun _ => Nat.zero_le _) now true

/-- Every file stays a file. -/
def KeepsFiles (w t : World) : Prop := ∀ j, FileAt w.fs.nodes j → FileAt t.fs.nodes j

/-- **What emptying a file does**: it fails at once, or it commits a table in which the file is
empty. -/
theorem truncate_cases (h : Inv D P E w) :
    (∃ e, truncate path w = (.error (.err e), w)) ∨ ∃ i n now clock,
      nodeIndex w.fs (clean path) = some i ∧ w.fs.nodes i = some n ∧ n.fileType = .file ∧
      truncate path w = commit { w with clock, fs := setDirty (setNode (freeExtents i w.fs) i
        (some { n with extents := [], size := 0, mtimeNs := now })) } ∧
      Inv D P E { w with clock, fs := setDirty (setNode (freeExtents i w.fs) i
        (some { n with extents := [], size := 0, mtimeNs := now })) } := by
  unfold truncate
  rcases hro : w.fs.readOnly with _ | _
  swap
  · exact .inl ⟨_, ensureWritable_bind_error hro⟩
  rw [bind_ok (ensureWritable_run hro), getFs_bind_run]
  rcases hi : nodeIndex w.fs (clean path) with _ | i
  · exact .inl ⟨_, rfl⟩
  obtain ⟨n, hn, -⟩ := nodeIndex_some hi
  rw [okOr_some_bind, hn, unwrap_some_bind]
  by_cases hfile : n.fileType = .file
  swap
  · exact .inl ⟨.isADirectory, by rw [if_pos hfile]; rfl⟩
  refine .inr ⟨i, n, w.clock 0, fun k => w.clock (k + 1), rfl, hn, hfile, ?_, h.empty hn hfile _ _⟩
  rw [if_neg (not_not.mpr hfile)]
  show (unwrap ((freeExtents i w.fs).nodes i) >>= _) _ = _
  rw [nodes_freeExtents hn]
  rfl

/-- **`truncate`** keeps the invariant and what lasts, and every file stays a file. -/
theorem truncate_safe (hJ : Lasts D P E S J) (hDE : D ≠ none → E = ∅)
    (h : Along D P E J w) (hS : ∀ i, nodeIndex w.fs (clean path) = some i → i ∈ S) :
    Stays (fun t => Along D P E J t ∧ KeepsFiles w t) (truncate path w) := by
  rcases truncate_cases h.1 with ⟨e, hrun⟩ | ⟨i, n, now, clock, hi, hn, -, hrun, hu⟩
  · rw [hrun]
    exact ⟨by simp, h, fun _ hj => hj⟩
  rw [setNode_freeExtents hn] at hrun hu
  rw [hrun]
  refine ((commit_ends hDE hu).and (hJ.commits _ hu (hJ.mark w _ _ _ clock
    (update_of_notMem (hS i hi)) h.2))).imp ?_ ?_
  · rintro - t ⟨⟨ht, hkeep⟩, hJt⟩
    exact ⟨⟨ht, hJt⟩, fun j hj => by rw [hkeep]; exact hj.update hn rfl⟩
  · rintro e t ⟨⟨he, ht, hkeep⟩, hJt⟩
    exact ⟨he, ⟨ht, hJt⟩, fun j hj => by rw [hkeep]; exact hj.update hn rfl⟩

/-! ### Calls on handles -/

variable {handle : ℕ}

theorem mem_of_findHandle {h : OpenHandle}
    (hh : findHandle fs handle = some h) : (handle, h) ∈ fs.handles := by
  obtain ⟨l, r, hl, -⟩ := lookup_eq_some_iff.mp hh
  rw [hl]
  simp

/-- Moving a handle leaves it on its node. -/
theorem mem_setOffset {offset : ℕ} {hs : List (ℕ × OpenHandle)} {x : ℕ × OpenHandle}
    (hx : x ∈ setOffset handle offset hs) : ∃ y ∈ hs, y.2.node = x.2.node := by
  induction hs with
  | nil => cases hx
  | cons y hs ih =>
    rw [setOffset, modifyHandle] at hx
    split_ifs at hx
    · rcases mem_cons.mp hx with rfl | hx
      · exact ⟨y, mem_cons_self, rfl⟩
      · exact ⟨x, mem_cons_of_mem _ hx, rfl⟩
    · rcases mem_cons.mp hx with rfl | hx
      · exact ⟨y, mem_cons_self, rfl⟩
      · obtain ⟨z, hz, hzx⟩ := ih hx
        exact ⟨z, mem_cons_of_mem _ hz, hzx⟩

/-- Moving a handle keeps the invariant. -/
theorem Inv.setOffset (h : Inv D P E w) (handle offset : ℕ) :
    Inv D P E { w with fs := { w.fs with handles := setOffset handle offset w.fs.handles } } := by
  refine h.setHandles fun x hx => ?_
  obtain ⟨y, hy, hyx⟩ := mem_setOffset hx
  rw [← hyx]
  exact h.sound.handles y hy

theorem Inv.fileAt_of_findHandle (h : Inv D P E w) {x : OpenHandle}
    (hx : findHandle w.fs handle = some x) : FileAt w.fs.nodes x.node :=
  h.sound.handles _ (mem_of_findHandle hx)

theorem read_safe (hJ : Rides D P E S J) {handle len : ℕ} :
    Safe (Along D P E J) (read handle len) := by
  intro w h
  refine ends_getFs (ends_okOr (fun _ => fails h) fun x hx => ?_)
  refine ite (fun _ => fails h) fun _ => readNode_ends.bind ?_ ?_
  · rintro data t rfl
    exact ends_update ⟨h.1.setOffset _ _, hJ.handles t _ t.fs.nextHandle h.2⟩
  · rintro e t ⟨he, rfl⟩
    exact ⟨he, h⟩

theorem writeOffset_ends {x : OpenHandle} (hx : FileAt w.fs.nodes x.node) :
    Ends (fun _ t => t = w) (Fails (· = w)) (writeOffset x w) := by
  obtain ⟨n, hn, -⟩ := hx
  exact ite (fun _ => ends_getFs (ends_unwrap hn rfl)) fun _ => rfl

theorem write_safe (hJ : Rides D P E S J) (handle : ℕ) (input : List UInt8) (h : Along D P E J w)
    (hS : ∀ x, findHandle w.fs handle = some x → x.node ∈ S) :
    Stays (Along D P E J) (write handle input w) := by
  refine ends_getFs (ends_okOr (fun _ => fails h) fun x hx => ?_)
  refine ite (fun _ => fails h) fun _ => ?_
  have hfile := h.1.fileAt_of_findHandle hx
  refine (writeOffset_ends hfile).bind ?_ ?_
  · rintro offset t rfl
    obtain ⟨n, hn, hn'⟩ := hfile
    refine ((writeNode_ends offset input h.1 hn hn').and
      (writeNode_keeps hJ (hS x hx) offset input h.1 hn hn' h.2)).bind ?_
      fun e u hu => ⟨hu.1.1, hu.1.2.1, hu.2⟩
    rintro written u ⟨⟨hu, -⟩, hJu⟩
    exact ends_update ⟨hu.setOffset _ _, hJ.handles u _ u.fs.nextHandle hJu⟩
  · rintro e t ⟨he, rfl⟩
    exact ⟨he, h⟩

theorem close_safe (hJ : Lasts D P E S J) (hDE : D ≠ none → E = ∅) (handle : ℕ) :
    Safe (Along D P E J) (close handle) := by
  intro w h
  refine ends_getFs (ends_okOr (fun _ => fails h) fun x _ => ends_update ?_)
  refine hJ.commit_safe hDE _ ⟨h.1.setHandles fun y hy => ?_, hJ.handles w _ w.fs.nextHandle h.2⟩
  exact h.1.sound.handles y (mem_of_mem_eraseP hy)

theorem fsync_safe (hJ : Lasts D P E S J) (hDE : D ≠ none → E = ∅) (handle : ℕ) :
    Safe (Along D P E J) (fsync handle) := by
  intro w h
  exact ends_getFs (ends_okOr (fun _ => fails h) fun x _ => hJ.commit_safe hDE _ h)

theorem seek_safe (hJ : Rides D P E S J) (handle : ℕ) {offset : ℤ} {whence : ℕ} :
    Safe (Along D P E J) (seek handle offset whence) := by
  intro w h
  refine ends_getFs (ends_okOr (fun _ => fails h) fun x _ => ?_)
  refine ends_okOr (fun _ => fails h) fun n _ => ends_okOr (fun _ => fails h) fun base _ => ?_
  exact ite (fun _ => fails h) fun _ =>
    ends_update ⟨h.1.setOffset _ _, hJ.handles w _ w.fs.nextHandle h.2⟩

/-! ### Opening -/

theorem openIndex_some {flags : OpenFlags} (h : nodeIndex w.fs path = some i) :
    openIndex path flags w = (.ok i, w) := by
  rw [openIndex, getFs_bind_run, h]
  rfl

theorem openIndex_none {flags : OpenFlags} (h : nodeIndex w.fs path = none) :
    openIndex path flags w = (if flags.create = false then fail .notFound else do
      create path
      let fs ← getFs
      okOr .ioError (nodeIndex fs path)) w := by
  rw [openIndex, getFs_bind_run, h]

theorem openIndex_safe (hJ : Lasts D P E S J) (hDE : D ≠ none → E = ∅) {flags : OpenFlags}
    (hP : flags.create = true → P (clean path)) (h : Along D P E J w)
    (hS : ∀ i, w.fs.nodes i = none → i ∈ S) :
    Ends (fun i t => Along D P E J t ∧ ∃ n, t.fs.nodes i = some n) (Fails (Along D P E J))
      (openIndex path flags w) := by
  rcases hi : nodeIndex w.fs path with _ | i
  · rw [openIndex_none hi]
    refine ite (fun _ => fails h) fun hc => ?_
    refine (createNode_safe hJ hDE (by simp) (hP (by simpa using hc)) h hS).bind ?_ ?_
    · rintro - t ht
      refine ends_getFs ?_
      rcases hj : nodeIndex t.fs path with _ | j
      · exact fails ht
      · obtain ⟨n, hn, -⟩ := nodeIndex_some hj
        exact ⟨ht, n, hn⟩
    · exact fun e t he => he
  · rw [openIndex_some hi]
    obtain ⟨n, hn, -⟩ := nodeIndex_some hi
    exact ⟨h, n, hn⟩

theorem startOffset_ends {flags : OpenFlags} (hn : w.fs.nodes i = some n) :
    Ends (fun _ t => t = w) (Fails (· = w)) (startOffset i flags w) := by
  exact ends_getFs (ite (fun _ => rfl) fun _ => ends_unwrap hn rfl)

theorem open_safe (hJ : Lasts D P E S J) (hDE : D ≠ none → E = ∅) {flags : OpenFlags}
    (hP : flags.create = true → P (clean path)) (h : Along D P E J w)
    (hS : ∀ i, w.fs.nodes i = none → i ∈ S)
    (hS' : flags.trunc = true → ∀ t, J t → ∀ i, nodeIndex t.fs (clean path) = some i → i ∈ S) :
    Stays (Along D P E J) (open_ path flags w) := by
  refine ite (fun _ => fails h) fun _ => ends_getFs ?_
  refine ite (fun _ => fails h) fun _ => ?_
  refine (openIndex_safe hJ hDE (by rwa [clean_clean]) h hS).bind ?_ fun e t he => he
  rintro i t ⟨ht, n, hn⟩
  refine ends_getFs (ends_unwrap hn (ite (fun _ => fails ht) fun hfile => ?_))
  rw [not_not] at hfile
  refine (when (fun htrunc => truncate_safe hJ hDE ht
    (by rw [clean_clean]; exact hS' htrunc t ht.2)) fun _ => ⟨ht, fun _ hj => hj⟩).bind ?_
    fun e u hu => ⟨hu.1, hu.2.1⟩
  rintro - u ⟨hu, hfiles⟩
  obtain ⟨m, hm, hm'⟩ := hfiles i ⟨n, hn, hfile⟩
  refine (startOffset_ends hm).bind ?_ ?_
  · rintro offset v rfl
    refine ends_getFs (ends_update ⟨hu.1.setHandles fun x hx => ?_, hJ.handles v _ _ hu.2⟩)
    rcases mem_append.mp hx with hx | hx
    · exact hu.1.sound.handles x hx
    · rw [mem_singleton.mp hx]
      exact ⟨m, hm, hm'⟩
  · rintro e v ⟨he, rfl⟩
    exact ⟨he, hu⟩

/-! ### Setting the length -/

theorem growLoop_safe (hJ : Rides D P E S J) (hi : i ∈ S) (fuel offset remaining : ℕ) :
    Safe (fun w => Along D P E J w ∧ FileAt w.fs.nodes i) (growLoop i fuel offset remaining) := by
  induction fuel generalizing offset remaining with
  | zero => exact fun w h => h
  | succ fuel ih =>
    intro w h
    rw [growLoop]
    refine ite (fun _ => h) fun _ => ?_
    obtain ⟨hinv, n, hn, hfile⟩ := h
    refine ((writeNode_ends offset _ hinv.1 hn hfile).and
      (writeNode_keeps hJ hi offset _ hinv.1 hn hfile hinv.2)).bind ?_
      fun e t he => ⟨he.1.1, ⟨he.1.2.1, he.2⟩, he.1.2.2⟩
    rintro - t ⟨⟨ht, n', hn', hfile', -⟩, hJt⟩
    exact ih _ _ t ⟨⟨ht, hJt⟩, n', hn', hfile'⟩

/-- Whether the kept part of a file that is shrunk, once it is read and the extents are
freed, can be written again. -/
def rewrites (w : World) (i : Fin maxNodes) (len : ℕ) : Bool :=
  match readNode i 0 len w with
  | (.ok keep, t) => (writeNode i 0 keep { t with fs := freeExtents i t.fs }).1.isOk
  | (.error _, _) => true

/-- The length of what is read from the start of a file. -/
theorem readLoop_length {n : Node} {offset length fuel : ℕ} {acc : List UInt8}
    (hfuel : length ≤ acc.length + fuel) :
    Ends (fun data _ => length ≤ data.length) (fun _ _ => True)
      (readLoop n offset length fuel acc w) := by
  induction fuel generalizing acc with
  | zero => exact hfuel
  | succ fuel ih =>
    rw [readLoop]
    refine ite (fun hle => hle) fun hlt => ?_
    refine ends_okOr (fun _ => trivial) fun b _ => ?_
    refine (readDataBlock_ends).bind ?_ fun e t _ => trivial
    rintro x t rfl
    refine ih ?_
    have hx : x.bytes.length = 512 := x.length_bytes
    rw [length_append, slice, length_take, length_drop, hx]
    show length ≤ acc.length + min (min (length - acc.length) (512 - (offset + acc.length) % 512))
      (512 - (offset + acc.length) % 512) + fuel
    omega

variable {len : ℕ}

theorem readNode_length (hn : w.fs.nodes i = some n) (hlen : len ≤ n.size) :
    Ends (fun data _ => len ≤ data.length) (fun _ _ => True) (readNode i 0 len w) := by
  refine ends_getFs (ends_okOr (fun _ => trivial) fun m hm => ?_)
  rw [hn] at hm
  cases hm
  refine ite (fun h0 => ?_) fun h0 => ?_
  · show len ≤ 0
    omega
  · refine (readLoop_length (by simp)).imp (fun data t h => ?_) fun _ _ h => h
    rwa [Nat.sub_zero, min_eq_left hlen] at h

/-- **The rule for `shrink`**: the kept part is read, and written again once the extents are
free. -/
theorem ends_shrink {Q : World → Prop} {X : Stop → World → Prop}
    (hread : ∀ e t, Fails (· = w) e t → X e t)
    (hzero : len = 0 → ∃ n', (freeExtents i w.fs).nodes i = some n' ∧ ∀ now clock, Q { w with
      fs := setNode (freeExtents i w.fs) i (some { n' with size := len, mtimeNs := now }), clock })
    (hwrite : 0 < len → ∀ keep, readNode i 0 len w = (.ok keep, w) →
      Ends (fun _ u => ∃ n', u.fs.nodes i = some n' ∧ ∀ now clock, Q { u with
        fs := setNode u.fs i (some { n' with size := len, mtimeNs := now }), clock }) X
      (writeNode i 0 keep { w with fs := freeExtents i w.fs })) :
    Ends (fun _ => Q) X (shrink i len w) := by
  have hkeep : Ends (fun keep t => t = w ∧ (0 < len → readNode i 0 len w = (.ok keep, w)))
      (Fails (· = w)) ((if 0 < len then readNode i 0 len else pure []) w) := by
    refine ite (fun _ => ?_) fun h0 => ⟨rfl, fun hc => absurd hc h0⟩
    have hstate : Ends _ _ (readNode i 0 len w) := readNode_ends
    rcases hrun : readNode i 0 len w with ⟨e | keep, t⟩
    · exact hstate.of_error hrun
    · obtain rfl := hstate.of_ok hrun
      exact ⟨rfl, fun _ => rfl⟩
  refine hkeep.bind ?_ hread
  rintro keep t ⟨rfl, hrun⟩
  refine ends_update (bind (Q := fun _ u => ∃ n', u.fs.nodes i = some n' ∧ ∀ now clock, Q { u with
      fs := setNode u.fs i (some { n' with size := len, mtimeNs := now }), clock })
    (when (fun hpos => ?_) fun h0 => hzero (by simpa using h0)) ?_ fun _ _ hx => hx)
  · have hpos : 0 < len := by simpa using hpos
    exact (hwrite hpos keep (hrun hpos)).bind (fun _ _ hu => hu) fun _ _ hx => hx
  · rintro - u ⟨n', hn', hq⟩
    exact ends_getFs (ends_unwrap hn' (ends_monotonicNs hq))

theorem rewrites_of_error {keep : List UInt8} {e : Stop} {u : World}
    (hrun : readNode i 0 len w = (.ok keep, w))
    (hwrite : writeNode i 0 keep { w with fs := freeExtents i w.fs } = (.error e, u)) :
    rewrites w i len ≠ true := by
  rw [rewrites, hrun]
  simp only [hwrite]
  exact Bool.false_ne_true

/-- **What `shrink` keeps**: a condition that rides along and does not depend on the mark. -/
theorem shrink_keeps (hJ : Rides D P (insert i E) S J) (hi : i ∈ S)
    (hset : ∀ t nodes bitmap clock, (∀ j ∉ S, nodes j = t.fs.nodes j) → J t →
      J { t with clock, fs := { t.fs with nodes, bitmap } })
    (h : Inv D P E w) (hn : w.fs.nodes i = some n) (hfile : n.fileType = .file) (hw : J w)
    (len : ℕ) : Ends (fun _ => J) (fun _ => J) (shrink i len w) := by
  have hfree := h.freeExtents hn
  have hn1 := nodes_freeExtents hn
  have hw1 : J { w with fs := freeExtents i w.fs } := by
    rw [freeExtents_eq hn]
    exact hset w _ _ w.clock (update_of_notMem hi) hw
  refine ends_shrink (fun _ _ he => he.2 ▸ hw) (fun _ => ⟨_, hn1, fun _ clock =>
    hset _ _ _ clock (update_of_notMem hi) hw1⟩) fun _ keep _ => ?_
  refine ((writeNode_ends 0 keep hfree hn1 hfile).and
    (writeNode_keeps hJ hi 0 keep hfree hn1 hfile hw1)).imp ?_ fun _ _ hu => hu.2
  rintro - u ⟨⟨-, n', hn', -⟩, hu⟩
  exact ⟨n', hn', fun _ clock => hset u _ _ clock (update_of_notMem hi) hu⟩

theorem shrink_ends (h : Inv D P E w) (hn : w.fs.nodes i = some n)
    (hfile : n.fileType = .file) (hlen : len < n.size)
    (hok : i ∈ E ∨ (0 < len → rewrites w i len = true)) :
    Stays (Inv D P E) (shrink i len w) := by
  have hlt := (h.sound.consistent.regular i n hn).size_lt
  have hfree := h.freeExtents hn
  have hn1 := nodes_freeExtents hn
  refine ends_shrink (fun e t he => ⟨he.1, he.2 ▸ h⟩) (fun h0 => ⟨_, hn1, fun now clock =>
    (hfree.setClock clock).setSize hn1 hfile (by omega) (fun _ => by omega) now _⟩)
    fun hpos keep hrun => ?_
  have hkeep : len ≤ keep.length := (readNode_length hn hlen.le).of_ok hrun
  have hwrite := writeNode_ends 0 keep hfree hn1 hfile
  rcases hw : writeNode i 0 keep { w with fs := DunitFs.freeExtents i w.fs } with ⟨e | k, u⟩
  · obtain ⟨he, hu, -⟩ := hwrite.of_error hw
    rcases hok with hi | hok
    · rw [Set.insert_eq_of_mem hi] at hu
      exact ⟨he, hu⟩
    · exact absurd (hok hpos) (rewrites_of_error hrun hw)
  · -- the blocks hold the kept part
    obtain ⟨hu, n', hn', hfile', hle⟩ := hwrite.of_ok hw
    exact ⟨n', hn', fun now clock =>
      (hu.setClock clock).setSize hn' hfile' (by omega) (fun _ => by omega) now u.fs.dirty⟩

/-- **The condition of an `ftruncate_handle`**: if it shrinks the file, but not to nothing,
the kept part can be written again. On a device without faults this is `fitsAgain`, a condition
on the bitmap and the extents before the call (`rewrites_eq`). -/
def truncateOk (w : World) (handle len : ℕ) : Bool :=
  match findHandle w.fs handle with
  | none => true
  | some x =>
    match w.fs.nodes x.node with
    | none => true
    | some n => if 0 < len ∧ len < n.size then rewrites w x.node len else true

/-- **The rule of `ftruncate_handle`**: it is refused, it has nothing to do, or it changes the
length of a file and commits. -/
theorem ends_ftruncateHandle {Q : Unit → World → Prop} {X : Stop → World → Prop}
    {M : World → Prop} (hfail : ∀ e, X (.err e) w)
    (hset : ∀ x n, findHandle w.fs handle = some x → w.fs.nodes x.node = some n →
      n.fileType = .file → (len = n.size → Q () w) ∧
        (len < n.size → Ends (fun _ => M) X (shrink x.node len w)) ∧
        (n.size < len → Ends (fun _ => M) X
          (growLoop x.node (len - n.size) n.size (len - n.size) w)))
    (hcommit : ∀ t, M t → Ends Q X (commit { t with fs := setDirty t.fs })) :
    Ends Q X (ftruncateHandle handle len w) := by
  refine ends_ensureWritable (hfail _) fun _ => ends_getFs ?_
  refine ends_okOr (fun _ => hfail _) fun x hx => ite (fun _ => hfail _) fun _ => ?_
  refine ends_okOr (fun _ => hfail _) fun n hn => ite (fun _ => hfail _) fun hfile => ?_
  obtain ⟨hsame, hshrink, hgrow⟩ := hset x n hx hn (not_not.mp hfile)
  refine ite hsame fun hne => ?_
  refine bind ?_ (fun _ t ht => ends_update (hcommit t ht)) fun _ _ ht => ht
  exact ite hshrink fun hle => hgrow (lt_of_le_of_ne (not_lt.mp hle) (Ne.symm hne))

theorem ftruncateHandle_safe (hJ : Lasts D P E S J) (hshrink : ∀ i ∈ S, Rides D P (insert i E) S J)
    (hset : ∀ t nodes bitmap clock, (∀ j ∉ S, nodes j = t.fs.nodes j) → J t →
      J { t with clock, fs := { t.fs with nodes, bitmap } })
    (hDE : D ≠ none → E = ∅) (h : Along D P E J w)
    (hok : E = Set.univ ∨ truncateOk w handle len = true)
    (hS : ∀ x, findHandle w.fs handle = some x → x.node ∈ S) :
    Stays (Along D P E J) (ftruncateHandle handle len w) := by
  refine ends_ftruncateHandle (M := Along D P E J) (fun _ => fails h)
    (fun x n hx hn hfile => ⟨fun _ => h, fun hlt => ?_, fun _ => ?_⟩) fun t ⟨ht, hJt⟩ => ?_
  · have hrew : x.node ∈ E ∨ (0 < len → rewrites w x.node len = true) := by
      rcases hok with rfl | hok
      · exact .inl (Set.mem_univ _)
      · refine .inr fun hpos => ?_
        simpa only [truncateOk, hx, hn, hpos, hlt, and_self, if_true] using hok
    exact ((shrink_ends h.1 hn hfile hlt hrew).and (shrink_keeps (hshrink x.node (hS x hx))
      (hS x hx) hset h.1 hn hfile h.2 len)).imp (fun _ _ ht => ht)
      fun _ _ ht => ⟨ht.1.1, ht.1.2, ht.2⟩
  · exact (growLoop_safe hJ.toRides (hS x hx) _ _ _ w ⟨h, n, hn, hfile⟩).imp
      (fun _ _ ht => ht.1) fun _ _ ht => ⟨ht.1, ht.2.1⟩
  · refine hJ.commit_safe hDE _ ⟨?_, hJ.mark t _ _ _ t.clock (fun _ _ => rfl) hJt⟩
    exact ht.setMeta ht.sound.consistent fun j hj => hj

theorem ftruncateHandle_ends (hDE : D ≠ none → E = ∅) (h : Inv D P E w)
    (hok : E = Set.univ ∨ truncateOk w handle len = true) :
    Stays (Inv D P E) (ftruncateHandle handle len w) :=
  (ftruncateHandle_safe lasts_true (fun _ _ => lasts_true.toRides) (fun _ _ _ _ _ h => h) hDE
    ⟨h, trivial⟩ hok fun x _ => Set.mem_univ x.node).imp (fun _ _ ht => ht.1)
    fun _ _ ht => ⟨ht.1, ht.2.1⟩

/-- **A shrinking that succeeds** has written the kept part again. -/
theorem rewrites_of_shrink (i : Fin maxNodes) (hpos : 0 < len) :
    Ends (fun _ _ => rewrites w i len = true) (fun _ _ => True) (shrink i len w) := by
  unfold shrink
  rw [if_pos hpos]
  rcases hread : readNode i 0 len w with ⟨e | keep, t⟩
  · rw [bind_error hread]
    trivial
  rw [bind_ok hread]
  refine ends_update ?_
  rw [decide_eq_true hpos]
  rcases hwrite : writeNode i 0 keep { t with fs := freeExtents i t.fs } with ⟨e | k, u⟩
  · have hfail : (do
        let _ ← writeNode i 0 keep
        pure () : FsM Unit) { t with fs := freeExtents i t.fs } = (.error e, u) :=
      bind_error hwrite
    rw [Prog.when, if_pos rfl, bind_error hfail]
    trivial
  · refine of_forall ?_
    simp only [rewrites, hread, hwrite]
    rfl

/-- **An `ftruncate_handle` that succeeds** meets its condition. -/
theorem truncateOk_of_ftruncateHandle :
    Ends (fun _ _ => truncateOk w handle len = true) (fun _ _ => True)
      (ftruncateHandle handle len w) := by
  refine ends_ftruncateHandle (fun _ => trivial)
    (fun x n hx hn _ => ?_) fun _ ht => of_forall ht
  have hother : ¬(0 < len ∧ len < n.size) → truncateOk w handle len = true := fun hc => by
    simp only [truncateOk, hx, hn, if_neg hc]
  refine ⟨fun heq => hother (by omega), fun hlt => ?_, fun hlt => of_forall (hother ?_)⟩
  · by_cases hpos : 0 < len
    · refine (rewrites_of_shrink x.node hpos).imp (fun _ _ ht => ?_) fun _ _ ht => ht
      simpa only [truncateOk, hx, hn, if_pos (And.intro hpos hlt)] using ht
    · exact of_forall (hother fun hc => hpos hc.1)
  · exact fun hc => absurd hlt (lt_asymm hc.2)

end DunitOS.DunitFs
