import DunitOS.Fs.DunitFs.Mount
import DunitOS.SysLib.Count

/-!
# The checker agrees with the loader

`fsck` looks at a partition the way `load` does, but
where the loader gives up at the first damaged record the checker counts: damaged
records, pairs of nodes of one path, pairs of nodes that share a block. Its verdict
is a prediction of what the loader will do.

The prediction is right (`fsck_agrees_load`) because a slot whose
counters are all zero is exactly one that the strict builder accepts
(`isClean_scanSlot_iff`). The counters have 32 bits, so this needs
that the loops are too short for one of them to come round to zero.
-/

namespace DunitOS.DunitFs

open SysLib Vfs List Except

/-! ### Scanning a slot -/

/-- What a scan of a slot counts. -/
structure SlotScan where
  nodesTotal : UInt32 := 0
  nodesOk : UInt32 := 0
  nodesCorrupt : UInt32 := 0
  duplicatePaths : UInt32 := 0
  extentErrors : UInt32 := 0
  bitmapErrors : UInt32 := 0
  deriving DecidableEq, Repr

def SlotScan.isClean (scan : SlotScan) : Bool :=
  scan.nodesCorrupt == 0 && scan.extentErrors == 0 && scan.duplicatePaths == 0

/-- One round of the first loop of `scan_slot`: classify a record, and keep its node if
it is intact. -/
def scanEntry (g : Geometry) (image : List UInt8) (st : SlotScan × NodeTable)
    (i : Fin maxNodes) : SlotScan × NodeTable :=
  let entry := entryAt g image i
  if getLe entry 0 1 = 0 then st else
  let scan := { st.1 with nodesTotal := st.1.nodesTotal + 1 }
  if getLe entry nodeCrcOffset 4 ≠ (crc32 (entry.take nodeCrcOffset)).toNat then
    ({ scan with nodesCorrupt := scan.nodesCorrupt + 1 }, st.2)
  else match decodeNode entry g with
    | .ok node =>
      ({ scan with nodesOk := scan.nodesOk + 1 }, Function.update st.2 i (some node))
    | .error _ => ({ scan with nodesCorrupt := scan.nodesCorrupt + 1 }, st.2)

/-- The pairs of an index and an earlier one, in the order of the second loop. -/
def earlierPairs : List (Fin maxNodes × Fin maxNodes) :=
  (List.finRange maxNodes).flatMap fun i =>
    ((List.finRange maxNodes).filter fun j => decide (j < i)).map fun j => (i, j)

/-- One round of the second loop of `scan_slot`: compare a node with an earlier one. -/
def scanPair (good : NodeTable) (scan : SlotScan) (ij : Fin maxNodes × Fin maxNodes) : SlotScan :=
  match good ij.1, good ij.2 with
  | some node, some prev =>
    let scan :=
      if prev.path = node.path then { scan with duplicatePaths := scan.duplicatePaths + 1 }
      else scan
    if extentsOverlap node prev then { scan with extentErrors := scan.extentErrors + 1 } else scan
  | _, _ => scan

/-- The bitmap that the extents of a node table ask for. -/
def expectedBitmap (g : Geometry) (good : NodeTable) : List UInt8 :=
  ((List.finRange maxNodes).filterMap good).foldl
    (fun bitmap node => node.extents.foldl (fun b e => markUsed b e.1 e.2) bitmap)
    (List.replicate g.bitmapLen 0)

/-- One round of the last loop of `scan_slot`: a block in use that the bitmap has free. -/
def scanBit (expected bitmap : List UInt8) (scan : SlotScan) (block : ℕ) : SlotScan :=
  if bitGet expected block && !bitGet bitmap block then
    { scan with bitmapErrors := scan.bitmapErrors + 1 }
  else scan

def scanSlot (g : Geometry) (image : List UInt8) : SlotScan :=
  let bitmap := image.take g.bitmapLen
  let (scan, good) := (List.finRange maxNodes).foldl (scanEntry g image) ({}, fun _ => none)
  let scan := earlierPairs.foldl (scanPair good) scan
  (List.range' g.dataStart (g.totalBlocks - g.dataStart)).foldl
    (scanBit (expectedBitmap g good) bitmap) scan

/-! ### The report -/

inductive FsckVerdict where
  | clean
  | degraded
  | unrecoverable
  deriving DecidableEq, Repr

structure FsckReport where
  primaryOk : Bool := false
  backupOk : Bool := false
  slotCrcOk : Bool := false
  generation : ℕ := 0
  scan : SlotScan := {}
  verdict : FsckVerdict := .unrecoverable

/-- **Check a partition.** The report is about the generation the loader will mount. The
source selects the intact slots with a second copy of the loader's code, which is
`validSlots` here. -/
def fsck (p : Partition) (d : Device) : FsckReport :=
  let geom := Geometry.derive p.blocks
  match validateGeometry p geom with
  | .error _ => {}
  | .ok () =>
    let report : FsckReport :=
      { primaryOk := (candidate p geom d primarySb).isSome
        backupOk := (candidate p geom d backupSb).isSome }
    let valid := validSlots p geom d
    match valid.head? with
    | none => report
    | some first =>
      match valid.find? fun v => (scanSlot geom v.2).isClean with
      | some (sb, image) =>
        { report with
          slotCrcOk := true
          generation := sb.generation
          scan := scanSlot geom image
          verdict := .clean }
      | none =>
        { report with
          slotCrcOk := true
          generation := first.1.generation
          scan := scanSlot geom first.2
          verdict := .degraded }

/-! ### What the first loop finds -/

section

variable {g : Geometry} {image : List UInt8}

variable (st : SlotScan × NodeTable)

/-- The round of the scan, by what the loader makes of the record. -/
theorem scanEntry_eq (i : Fin maxNodes) :
    scanEntry g image st i = match decodeEntry g (entryAt g image i) with
      | .ok none => st
      | .ok (some node) =>
        ({ st.1 with nodesTotal := st.1.nodesTotal + 1, nodesOk := st.1.nodesOk + 1 },
          Function.update st.2 i (some node))
      | .error _ =>
        ({ st.1 with nodesTotal := st.1.nodesTotal + 1
                     nodesCorrupt := st.1.nodesCorrupt + 1 }, st.2) := by
  unfold scanEntry decodeEntry
  by_cases h0 : getLe (entryAt g image i) 0 1 = 0
  · simp only [h0, if_true]
  · simp only [h0, if_false]
    split_ifs with hcrc
    · rfl
    · cases decodeNode (entryAt g image i) g <;> rfl

/-- Whether the record at an index is damaged. -/
def damaged (g : Geometry) (image : List UInt8) (i : Fin maxNodes) : Bool :=
  (decodeEntry g (entryAt g image i)).toOption.isNone

theorem nodesCorrupt_scanEntry (i : Fin maxNodes) : (scanEntry g image st i).1.nodesCorrupt =
      if damaged g image i then st.1.nodesCorrupt + 1 else st.1.nodesCorrupt := by
  rw [scanEntry_eq, damaged]
  rcases decodeEntry g (entryAt g image i) with e | _ | node <;> rfl

theorem duplicatePaths_scanEntry (i : Fin maxNodes) :
    (scanEntry g image st i).1.duplicatePaths = st.1.duplicatePaths := by
  rw [scanEntry_eq]
  rcases decodeEntry g (entryAt g image i) with e | _ | node <;> rfl

theorem extentErrors_scanEntry (i : Fin maxNodes) :
    (scanEntry g image st i).1.extentErrors = st.1.extentErrors := by
  rw [scanEntry_eq]
  rcases decodeEntry g (entryAt g image i) with e | _ | node <;> rfl

/-- The table after the first loop holds the nodes of the intact records. -/
theorem good_foldl_scanEntry (l : List (Fin maxNodes)) (st : SlotScan × NodeTable)
    (hst : ∀ i ∈ l, st.2 i = none) (hl : l.Nodup) (i : Fin maxNodes) :
    (l.foldl (scanEntry g image) st).2 i =
      if i ∈ l then (decodeEntry g (entryAt g image i)).toOption.join else st.2 i := by
  induction l generalizing st with
  | nil => simp
  | cons j l ih =>
    obtain ⟨hj, hl⟩ := nodup_cons.mp hl
    -- one round sets the entry it looks at and leaves the others
    have hstep : ∀ k, (scanEntry g image st j).2 k =
        if k = j then (decodeEntry g (entryAt g image j)).toOption.join else st.2 k := by
      intro k
      rw [scanEntry_eq]
      rcases eq_or_ne k j with rfl | hk
      · rcases decodeEntry g (entryAt g image k) with e | _ | node <;>
          simp [Except.toOption, hst k mem_cons_self]
      · rcases decodeEntry g (entryAt g image j) with e | _ | node <;> simp [hk]
    have hne : ∀ k ∈ l, k ≠ j := fun k hk hkj => hj (hkj ▸ hk)
    rw [foldl_cons, ih _ (fun k hk => by
      rw [hstep, if_neg (hne k hk), hst k (mem_cons_of_mem _ hk)]) hl, hstep]
    by_cases hi : i ∈ l
    · rw [if_pos hi, if_pos (mem_cons_of_mem _ hi)]
    · rcases eq_or_ne i j with rfl | hij
      · simp [hi]
      · simp [hi, hij]

end

/-! ### What the second loop finds -/

section

variable {good : NodeTable}

/-- Two nodes of a table have one path. -/
def samePath (good : NodeTable) (ij : Fin maxNodes × Fin maxNodes) : Bool :=
  match good ij.1, good ij.2 with
  | some node, some prev => decide (prev.path = node.path)
  | _, _ => false

/-- Two nodes of a table share a block. -/
def shareBlock (good : NodeTable) (ij : Fin maxNodes × Fin maxNodes) : Bool :=
  match good ij.1, good ij.2 with
  | some node, some prev => extentsOverlap node prev
  | _, _ => false

variable (scan : SlotScan)

/-- A pair adds to two of the counters. -/
theorem scanPair_eq (ij : Fin maxNodes × Fin maxNodes) : scanPair good scan ij = { scan with
      duplicatePaths := if samePath good ij then scan.duplicatePaths + 1 else scan.duplicatePaths
      extentErrors :=
        if shareBlock good ij then scan.extentErrors + 1 else scan.extentErrors } := by
  unfold scanPair samePath shareBlock
  rcases good ij.1 with _ | node <;> rcases good ij.2 with _ | prev <;> try rfl
  by_cases hp : prev.path = node.path <;> by_cases ho : extentsOverlap node prev <;>
    simp [hp, ho]

theorem mem_earlierPairs {i j : Fin maxNodes} : (i, j) ∈ earlierPairs ↔ j < i := by
  simp [earlierPairs]

theorem length_earlierPairs : earlierPairs.length = 2016 := by
  decide +kernel

/-- The nodes of a table are consistent when no pair of them is counted. -/
theorem verifyConsistency_iff : verifyConsistency good = true ↔
    (∀ ij ∈ earlierPairs, shareBlock good ij = false) ∧
      ∀ ij ∈ earlierPairs, samePath good ij = false := by
  have hpair : verifyConsistency good = true ↔
      ∀ ij ∈ earlierPairs, shareBlock good ij = false ∧ samePath good ij = false := by
    simp only [verifyConsistency, all_eq_true, mem_finRange, true_implies]
    refine ⟨fun h ⟨i, j⟩ hij => ?_, fun h i j => ?_⟩
    · have := h i j
      rw [if_pos (mem_earlierPairs.mp hij)] at this
      revert this
      unfold shareBlock samePath conflict
      rcases good i with _ | node <;> rcases good j with _ | prev <;> simp
      exact fun hp ho => ⟨ho, fun hc => hp hc.symm⟩
    · split_ifs with hij
      · have := h (i, j) (mem_earlierPairs.mpr hij)
        revert this
        unfold shareBlock samePath conflict
        rcases good i with _ | node <;> rcases good j with _ | prev <;> simp
        exact fun ho hp => ⟨fun hc => hp hc.symm, ho⟩
      · rfl
  rw [hpair]
  exact ⟨fun h => ⟨fun ij hij => (h ij hij).1, fun ij hij => (h ij hij).2⟩,
    fun h ij hij => ⟨h.1 ij hij, h.2 ij hij⟩⟩

end

/-! ### Clean slots -/

/-- The nodes of the intact records of a slot. -/
def goodNodes (g : Geometry) (image : List UInt8) : NodeTable :=
  fun i => (decodeEntry g (entryAt g image i)).toOption.join

/-- **A clean scan**: no record is damaged and the nodes are consistent. -/
theorem isClean_scanSlot (g : Geometry) (image : List UInt8) :
    (scanSlot g image).isClean = true ↔
      (∀ i, damaged g image i = false) ∧ verifyConsistency (goodNodes g image) = true := by
  have hgood : ((finRange maxNodes).foldl (scanEntry g image) ({}, fun _ => none)).2 =
      goodNodes g image := by
    funext i
    rw [good_foldl_scanEntry _ _ (fun _ _ => rfl) (nodup_finRange _),
      if_pos (mem_finRange i)]
    rfl
  -- the last loop touches none of the three counters of the verdict
  have hbit : ∀ {c : SlotScan → UInt32} {e b : List UInt8} (_ : ∀ s k, c (scanBit e b s k) = c s)
      (l : List ℕ) (s : SlotScan), c (l.foldl (scanBit e b) s) = c s :=
    fun h l s => foldl_frame h l s
  have hlen : earlierPairs.length < UInt32.size := by
    rw [length_earlierPairs]
    decide
  have hframe {c : SlotScan → UInt32} (h : ∀ st i, c (scanEntry g image st i).1 = c st.1)
      (h0 : c {} = 0) :
      c ((finRange maxNodes).foldl (scanEntry g image) ({}, fun _ => none)).1 = 0 :=
    (foldl_frame (c := fun st : SlotScan × NodeTable => c st.1) h _ _).trans h0
  unfold scanSlot SlotScan.isClean
  simp only [Bool.and_eq_true, beq_iff_eq]
  rw [hbit (c := SlotScan.nodesCorrupt) (fun s k => by unfold scanBit; split <;> rfl),
    hbit (c := SlotScan.extentErrors) (fun s k => by unfold scanBit; split <;> rfl),
    hbit (c := SlotScan.duplicatePaths) (fun s k => by unfold scanBit; split <;> rfl),
    foldl_frame (c := SlotScan.nodesCorrupt) fun s ij => by rw [scanPair_eq],
    foldl_counter_eq_zero_iff (c := SlotScan.extentErrors) (p := shareBlock _)
      (fun s ij => by rw [scanPair_eq]) (hframe extentErrors_scanEntry rfl) hlen,
    foldl_counter_eq_zero_iff (c := SlotScan.duplicatePaths) (p := samePath _)
      (fun s ij => by rw [scanPair_eq]) (hframe duplicatePaths_scanEntry rfl) hlen,
    foldl_counter_eq_zero_iff (c := fun st : SlotScan × NodeTable => st.1.nodesCorrupt)
      nodesCorrupt_scanEntry rfl (by rw [length_finRange]; decide),
    hgood, verifyConsistency_iff, and_assoc]
  simp only [mem_finRange, true_implies]

/-- **Clean is what the strict builder accepts.** -/
theorem isClean_scanSlot_iff (p : Partition) (g : Geometry) (sb : SuperBlock)
    (image : List UInt8) :
    (scanSlot g image).isClean = (fromSlot p g sb image).toOption.isSome := by
  rw [Bool.eq_iff_iff, isClean_scanSlot]
  by_cases hd : ∀ i, damaged g image i = false
  · -- every record reads, so the table fills with the nodes the scan kept
    have hok : ∀ i : Fin maxNodes,
        decodeEntry g (entryAt g image i) = .ok (goodNodes g image i) := by
      intro i
      have := hd i
      rcases he : decodeEntry g (entryAt g image i) with e | o
      · simp [damaged, he, Except.toOption] at this
      · simp [goodNodes, he, Except.toOption]
    rw [fromSlot, fillTable_ok _ hok]
    by_cases hv : verifyConsistency (goodNodes g image) = true
    · simp [hd, hv, Except.toOption]
    · simp [hv, Except.toOption]
  · obtain ⟨i, hi⟩ := not_forall.mp hd
    have hbad : ∃ e, decodeEntry g (entryAt g image i) = .error e := by
      rcases he : decodeEntry g (entryAt g image i) with e | o
      · exact ⟨e, rfl⟩
      · simp [damaged, he, Except.toOption] at hi
    obtain ⟨e, he⟩ := hbad
    obtain ⟨-, e', -, hfill⟩ :=
      fillTable_error (f := fun i : Fin maxNodes => decodeEntry g (entryAt g image i))
        (fun _ => none) ⟨i, e, he⟩
    rw [fromSlot, hfill]
    simp [hd, Except.toOption]

/-- What the strict builder returns. -/
theorem fromSlot_ok {p : Partition} {g : Geometry} {sb : SuperBlock} {image : List UInt8}
    {fs : DunitFs} (h : fromSlot p g sb image = .ok fs) :
    fs.generation = sb.generation ∧ fs.readOnly = false := by
  unfold fromSlot at h
  split at h
  · cases h
  · split_ifs at h
    cases h
    exact ⟨rfl, rfl⟩

/-! ### Agreement -/

/-- The slot the loader builds strictly from is the first clean one. -/
theorem findSome?_fromSlot (p : Partition) (g : Geometry) (valid : List (SuperBlock × List UInt8)) :
    (valid.findSome? fun v => (fromSlot p g v.1 v.2).toOption) =
      (valid.find? fun v => (scanSlot g v.2).isClean).bind
        fun v => (fromSlot p g v.1 v.2).toOption := by
  have h : ∀ v : SuperBlock × List UInt8,
      (scanSlot g v.2).isClean = (fromSlot p g v.1 v.2).toOption.isSome :=
    fun v => isClean_scanSlot_iff p g v.1 v.2
  exact findSome?_eq_find?_bind h valid

/-- **The checker and the loader agree on every disk**: the verdict says whether the
loader mounts read-write, read-only or not at all, and the generation reported is the
one mounted. -/
theorem fsck_agrees_load (p : Partition) (d : Device) :
    ((fsck p d).verdict = .clean ↔ ∃ fs, load p d = .ok fs ∧ fs.readOnly = false) ∧
    ((fsck p d).verdict = .degraded ↔ ∃ fs, load p d = .ok fs ∧ fs.readOnly = true) ∧
    ((fsck p d).verdict = .unrecoverable ↔ ∃ e, load p d = .error e) ∧
    ∀ fs, load p d = .ok fs → (fsck p d).generation = fs.generation := by
  unfold fsck load
  rcases hgeom : validateGeometry p (Geometry.derive p.blocks) with e | _
  · simp [hgeom]
  · simp only [hgeom]
    generalize Geometry.derive p.blocks = g
    rw [findSome?_fromSlot]
    generalize validSlots p g d = valid
    rcases hfind : valid.find? fun v => (scanSlot g v.2).isClean with _ | ⟨sb, image⟩
    · -- no clean slot: the newest intact one is mounted degraded, if there is one
      rcases valid.head? with _ | ⟨sb, image⟩
      · simp [hfind]
      · simp [hfind, fromSlotDegraded, ofTable]
    · have hclean := find?_some hfind
      rw [isClean_scanSlot_iff p g sb image] at hclean
      obtain ⟨first, hfirst⟩ : ∃ first, valid.head? = some first := by
        cases valid with
        | nil => simp at hfind
        | cons v => exact ⟨v, rfl⟩
      rcases hfs : fromSlot p g sb image with e | fs
      · simp [hfs, Except.toOption] at hclean
      · obtain ⟨hgen, hro⟩ := fromSlot_ok hfs
        simp [hfirst, hfind, hfs, Except.toOption, hgen, hro]

end DunitOS.DunitFs
