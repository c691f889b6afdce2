import DunitOS.Fs.DunitFs.Ops

/-!
# Which node owns which block

The extents of a node stand for a list of blocks, in the order of the file
(`blocksOf`). In these terms the operations on extents are simple: block
`l` of the file is entry `l` of the list, allocating a run appends it to the list whether
it becomes an extent of its own or continues the last one, and freeing empties the list.

`Accounted` is the block accounting of a file system: a block is marked
in the bitmap exactly when it belongs to the metadata region or to a node, and no block
belongs to two nodes or twice to one.
-/

namespace DunitOS.DunitFs

open SysLib Vfs List Function Option

variable {es es' : List Extent} {run : Extent}

/-! ### The blocks of a list of extents -/

/-- The blocks of a list of extents, in the order of the file. -/
def blocksOf (extents : List Extent) : List ℕ := extents.flatMap fun e => List.range' e.1 e.2

@[simp] theorem blocksOf_nil : blocksOf [] = [] := rfl

@[simp] theorem blocksOf_cons (e : Extent) :
    blocksOf (e :: es) = List.range' e.1 e.2 ++ blocksOf es := rfl

theorem blocksOf_append (es fs : List Extent) :
    blocksOf (es ++ fs) = blocksOf es ++ blocksOf fs := flatMap_append

theorem mem_blocksOf {b : ℕ} : b ∈ blocksOf es ↔ ∃ e ∈ es, e.1 ≤ b ∧ b < e.1 + e.2 := by
  simp [blocksOf, mem_flatMap, mem_range'_1]

theorem length_blocksOf (es : List Extent) : (blocksOf es).length = (es.map Prod.snd).sum := by
  simp [blocksOf, length_flatMap]

/-- **A block of the file is an entry of the list.** -/
theorem physicalFrom_eq (acc logical : ℕ) (h : acc ≤ logical) :
    Node.physicalFrom logical acc es = (blocksOf es)[logical - acc]? := by
  induction es generalizing acc with
  | nil => rfl
  | cons e es ih =>
    obtain ⟨start, len⟩ := e
    rw [Node.physicalFrom, blocksOf_cons]
    split_ifs with hlt
    · rw [getElem?_append_left (by rw [length_range']; omega),
        getElem?_range' (by omega)]
      simp
    · rw [ih (acc + len) (by omega), getElem?_append_right (by rw [length_range']; omega),
        length_range']
      exact congrArg ((blocksOf es)[·]?) (by omega)

theorem physicalBlock_eq (n : Node) (logical : ℕ) :
    n.physicalBlock logical = (blocksOf n.extents)[logical]? :=
  physicalFrom_eq 0 logical (Nat.zero_le _)

/-- **Giving a run to a node appends its blocks**, whichever way it is done. -/
theorem blocksOf_addRun (h : addRun es run = some es') :
    blocksOf es' = blocksOf es ++ List.range' run.1 run.2 := by
  unfold addRun at h
  rcases hl : es.getLast? with _ | last
  · rw [hl] at h
    cases h
    rw [getLast?_eq_none_iff.mp hl]
    simp
  · rw [hl] at h
    obtain ⟨init, rfl⟩ : ∃ init, es = init ++ [last] := ⟨_, (dropLast_append_getLast? last hl).symm⟩
    simp only [dropLast_concat] at h
    split_ifs at h with hadj hfull
    · cases h
      -- the run continues the last extent
      rw [blocksOf_append, blocksOf_append, append_assoc]
      refine congrArg (blocksOf init ++ ·) ?_
      simp only [blocksOf_cons, blocksOf_nil, append_nil, ← hadj]
      exact range'_append_1.symm
    · cases h
      rw [blocksOf_append]
      simp

/-- A node never gets more than six extents. -/
theorem length_addRun (h : addRun es run = some es')
    (hes : es.length ≤ maxExtents) : es'.length ≤ maxExtents := by
  unfold addRun at h
  rcases hl : es.getLast? with _ | last
  · rw [hl] at h
    cases h
    exact Nat.succ_le_succ (Nat.zero_le 5)
  · rw [hl] at h
    have hne : es ≠ [] := by
      rintro rfl
      cases hl
    have hpos : 0 < es.length := length_pos_iff.mpr hne
    simp only at h
    split_ifs at h with hadj hfull
    · cases h
      rw [length_append, length_dropLast, length_singleton]
      omega
    · cases h
      rw [length_append, length_singleton]
      omega

/-- Extents stay nonempty runs of the data region when such a run is added. -/
theorem inside_addRun {lo hi : ℕ} (h : addRun es run = some es')
    (hes : ∀ e ∈ es, 0 < e.2 ∧ lo ≤ e.1 ∧ e.1 + e.2 ≤ hi)
    (hrun : 0 < run.2 ∧ lo ≤ run.1 ∧ run.1 + run.2 ≤ hi) :
    ∀ e ∈ es', 0 < e.2 ∧ lo ≤ e.1 ∧ e.1 + e.2 ≤ hi := by
  unfold addRun at h
  rcases hl : es.getLast? with _ | last
  · rw [hl] at h
    cases h
    intro e he
    rw [mem_singleton.mp he]
    exact hrun
  · rw [hl] at h
    have hlast := hes last (mem_of_getLast? hl)
    simp only at h
    split_ifs at h with hadj hfull
    · cases h
      intro e he
      rcases mem_append.mp he with he | he
      · exact hes e (dropLast_subset _ he)
      · rw [mem_singleton.mp he]
        simp only
        omega
    · cases h
      intro e he
      rcases mem_append.mp he with he | he
      · exact hes e he
      · rw [mem_singleton.mp he]
        exact hrun

/-- Freeing extents clears the bits of their blocks and no others. -/
theorem bitGet_freeBits {bitmap : List UInt8} {b : ℕ} :
    bitGet (freeBits bitmap es) b = true ↔ bitGet bitmap b = true ∧ b ∉ blocksOf es := by
  induction es generalizing bitmap with
  | nil => simp [freeBits]
  | cons e es ih =>
    have hstep : freeBits bitmap (e :: es) = freeBits (markFree bitmap e.1 e.2) es := rfl
    rw [hstep, ih, bitGet_markFree, blocksOf_cons, mem_append, not_or, mem_range'_1, and_assoc]

@[simp] theorem length_freeBits {bitmap : List UInt8} :
    (freeBits bitmap es).length = bitmap.length := by
  induction es generalizing bitmap with
  | nil => rfl
  | cons e es ih =>
    have hstep : freeBits bitmap (e :: es) = freeBits (markFree bitmap e.1 e.2) es := rfl
    rw [hstep, ih, length_markFree]

/-! ### The allocator -/

section

variable {bitmap : List UInt8}

theorem firstFree_some {fuel block b : ℕ} (h : firstFree bitmap fuel block = some b) :
    block ≤ b ∧ b < block + fuel ∧ bitGet bitmap b = false := by
  induction fuel generalizing block with
  | zero => cases h
  | succ fuel ih =>
    rw [firstFree] at h
    split_ifs at h with hbit
    · obtain ⟨h1, h2, h3⟩ := ih h
      exact ⟨by omega, by omega, h3⟩
    · cases h
      exact ⟨Nat.le_refl _, by omega, by simpa using hbit⟩

/-- The run that is extended stays free, inside the partition and within its bound. -/
theorem extendRun_spec {total block : ℕ} (fuel : ℕ) {len : ℕ} (hlen : block + len ≤ total)
    (hfree : ∀ i < len, bitGet bitmap (block + i) = false) :
    len ≤ extendRun bitmap total block fuel len ∧
      extendRun bitmap total block fuel len ≤ len + fuel ∧
      block + extendRun bitmap total block fuel len ≤ total ∧
      ∀ i < extendRun bitmap total block fuel len, bitGet bitmap (block + i) = false := by
  induction fuel generalizing len with
  | zero => exact ⟨Nat.le_refl _, Nat.le_refl _, hlen, hfree⟩
  | succ fuel ih =>
    rw [extendRun]
    split_ifs with hc
    · have hfree' : ∀ i < len + 1, bitGet bitmap (block + i) = false := by
        intro i hi
        rcases Nat.lt_succ_iff_lt_or_eq.mp hi with hlt | rfl
        · exact hfree i hlt
        · exact hc.2
      obtain ⟨h1, h2, h3, h4⟩ := ih (by omega) hfree'
      exact ⟨by omega, by omega, h3, h4⟩
    · exact ⟨Nat.le_refl _, by omega, hlen, hfree⟩

/-- **What the allocator returns**: a nonempty run of free blocks of the data region, of at
most the length asked for. -/
theorem allocRun_some {g : Geometry} {max : ℕ} {run : Extent} (hmax : 0 < max)
    (hg : g.dataStart ≤ g.totalBlocks) (h : allocRun bitmap g max = some run) :
    0 < run.2 ∧ run.2 ≤ max ∧ g.dataStart ≤ run.1 ∧ run.1 + run.2 ≤ g.totalBlocks ∧
      ∀ b, run.1 ≤ b → b < run.1 + run.2 → bitGet bitmap b = false := by
  rw [allocRun, map_eq_some_iff] at h
  obtain ⟨block, hb, rfl⟩ := h
  obtain ⟨h1, h2, h3⟩ := firstFree_some hb
  have hone : ∀ i < 1, bitGet bitmap (block + i) = false := by
    intro i hi
    obtain rfl : i = 0 := by omega
    exact h3
  obtain ⟨e1, e2, e3, e4⟩ := extendRun_spec (max - 1) (show block + 1 ≤ g.totalBlocks by omega) hone
  refine ⟨by omega, by omega, h1, e3, fun b hb1 hb2 => ?_⟩
  have := e4 (b - block) (by omega)
  rwa [Nat.add_sub_cancel' hb1] at this

end

/-! ### Block accounting -/

/-- **The block accounting of a file system**: the bitmap marks the metadata region and the
blocks of the nodes, and every block has one owner at most. -/
structure Accounted (g : Geometry) (bitmap : List UInt8) (nodes : NodeTable) : Prop where
  length_bitmap : bitmap.length = g.bitmapLen
  bit_iff : ∀ b < g.totalBlocks, bitGet bitmap b = true ↔
    b < g.dataStart ∨ ∃ i n, nodes i = some n ∧ b ∈ blocksOf n.extents
  inside : ∀ i n, nodes i = some n → ∀ e ∈ n.extents,
    0 < e.2 ∧ g.dataStart ≤ e.1 ∧ e.1 + e.2 ≤ g.totalBlocks
  nodup : ∀ i n, nodes i = some n → (blocksOf n.extents).Nodup
  disjoint : ∀ i j n n', i ≠ j → nodes i = some n → nodes j = some n' →
    (blocksOf n.extents).Disjoint (blocksOf n'.extents)

/-- A block of another node than `i`. -/
def Elsewhere (nodes : NodeTable) (i : Fin maxNodes) (b : ℕ) : Prop :=
  ∃ j m, j ≠ i ∧ nodes j = some m ∧ b ∈ blocksOf m.extents

theorem exists_block_iff {nodes : NodeTable} {i : Fin maxNodes} {b : ℕ} :
    (∃ j m, nodes j = some m ∧ b ∈ blocksOf m.extents) ↔
      (∃ m, nodes i = some m ∧ b ∈ blocksOf m.extents) ∨ Elsewhere nodes i b := by
  constructor
  · rintro ⟨j, m, hm, hb⟩
    rcases eq_or_ne j i with rfl | hj
    · exact .inl ⟨m, hm, hb⟩
    · exact .inr ⟨j, m, hj, hm, hb⟩
  · rintro (⟨m, hm, hb⟩ | ⟨j, m, -, hm, hb⟩)
    · exact ⟨i, m, hm, hb⟩
    · exact ⟨j, m, hm, hb⟩

namespace Accounted

variable {g : Geometry} {bitmap : List UInt8} {nodes : NodeTable} (h : Accounted g bitmap nodes)
variable {i : Fin maxNodes} {n : Node}
include h

/-- The blocks of a node lie in the data region. -/
theorem mem_range (hn : nodes i = some n) {b : ℕ}
    (hb : b ∈ blocksOf n.extents) : g.dataStart ≤ b ∧ b < g.totalBlocks := by
  obtain ⟨e, he, h1, h2⟩ := mem_blocksOf.mp hb
  obtain ⟨-, h3, h4⟩ := h.inside i n hn e he
  omega

/-- Only the extents of the nodes matter to the accounting. -/
theorem congr {nodes' : NodeTable}
    (hsame : ∀ j, (nodes' j).map Node.extents = (nodes j).map Node.extents) :
    Accounted g bitmap nodes' := by
  have hback : ∀ j m', nodes' j = some m' → ∃ m, nodes j = some m ∧ m.extents = m'.extents := by
    intro j m' hm'
    have hj := hsame j
    rw [hm', map_some] at hj
    exact map_eq_some_iff.mp hj.symm
  refine ⟨h.length_bitmap, fun b hb => ?_, fun j m' hm' => ?_, fun j m' hm' => ?_,
    fun j k m1 m2 hjk h1 h2 => ?_⟩
  · rw [h.bit_iff b hb]
    refine or_congr_right ⟨?_, ?_⟩
    · rintro ⟨j, m, hm, hbm⟩
      have hj := hsame j
      rw [hm, map_some] at hj
      obtain ⟨m', hm', he⟩ := map_eq_some_iff.mp hj
      exact ⟨j, m', hm', by rwa [he]⟩
    · rintro ⟨j, m', hm', hbm⟩
      obtain ⟨m, hm, he⟩ := hback j m' hm'
      exact ⟨j, m, hm, by rwa [he]⟩
  · obtain ⟨m, hm, he⟩ := hback j m' hm'
    rw [← he]
    exact h.inside j m hm
  · obtain ⟨m, hm, he⟩ := hback j m' hm'
    rw [← he]
    exact h.nodup j m hm
  · obtain ⟨m1', hm1, he1⟩ := hback j m1 h1
    obtain ⟨m2', hm2, he2⟩ := hback k m2 h2
    rw [← he1, ← he2]
    exact h.disjoint j k m1' m2' hjk hm1 hm2

/-- Replacing a node by one with the same extents keeps the accounting. -/
theorem update_same {n' : Node} (hn : nodes i = some n) (hext : n'.extents = n.extents) :
    Accounted g bitmap (Function.update nodes i (some n')) := by
  refine h.congr fun j => ?_
  rcases eq_or_ne j i with rfl | hj
  · rw [update_self, hn, map_some, map_some, hext]
  · rw [update_of_ne hj]

theorem bit_at (i : Fin maxNodes) {b : ℕ} (hb : b < g.totalBlocks) : bitGet bitmap b = true ↔
      b < g.dataStart ∨ (∃ m, nodes i = some m ∧ b ∈ blocksOf m.extents) ∨ Elsewhere nodes i b := by
  rw [h.bit_iff b hb, exists_block_iff]

theorem not_elsewhere (hn : nodes i = some n) {b : ℕ} (hb : b ∈ blocksOf n.extents) :
    ¬Elsewhere nodes i b := by
  rintro ⟨j, m, hj, hm, hbm⟩
  exact h.disjoint i j n m hj.symm hn hm hb hbm

/-- **One node is replaced**: its new blocks must be marked, and nobody else's. -/
theorem replace {bitmap' : List UInt8} {o : Option Node} (hlen : bitmap'.length = g.bitmapLen)
    (hbit : ∀ b < g.totalBlocks, bitGet bitmap' b = true ↔
      b < g.dataStart ∨ (∃ m, o = some m ∧ b ∈ blocksOf m.extents) ∨ Elsewhere nodes i b)
    (hinside : ∀ m, o = some m → ∀ e ∈ m.extents,
      0 < e.2 ∧ g.dataStart ≤ e.1 ∧ e.1 + e.2 ≤ g.totalBlocks)
    (hnodup : ∀ m, o = some m → (blocksOf m.extents).Nodup)
    (hown : ∀ m, o = some m → ∀ b ∈ blocksOf m.extents, ¬Elsewhere nodes i b) :
    Accounted g bitmap' (Function.update nodes i o) := by
  refine ⟨hlen, fun b hb => ?_, fun j m hm => ?_, fun j m hm => ?_,
    fun j k m1 m2 hjk h1 h2 b hb1 hb2 => ?_⟩
  · rw [hbit b hb, exists_block_iff, update_self]
    refine or_congr_right (or_congr_right (exists_congr fun j => exists_congr fun m =>
      and_congr_right fun hj => ?_))
    rw [update_of_ne hj]
  · rcases eq_or_ne j i with rfl | hj
    · exact hinside m (by rwa [update_self] at hm)
    · exact h.inside j m (by rwa [update_of_ne hj] at hm)
  · rcases eq_or_ne j i with rfl | hj
    · exact hnodup m (by rwa [update_self] at hm)
    · exact h.nodup j m (by rwa [update_of_ne hj] at hm)
  · rcases eq_or_ne j i with rfl | hj
    · rw [update_self] at h1
      rw [update_of_ne hjk.symm] at h2
      exact hown m1 h1 b hb1 ⟨k, m2, hjk.symm, h2, hb2⟩
    rw [update_of_ne hj] at h1
    rcases eq_or_ne k i with rfl | hk
    · rw [update_self] at h2
      exact hown m2 h2 b hb2 ⟨j, m1, hj, h1, hb1⟩
    · rw [update_of_ne hk] at h2
      exact h.disjoint j k m1 m2 hjk h1 h2 hb1 hb2

/-- **Allocating a run**: free blocks of the data region become blocks of one node. -/
theorem alloc (hg : g.totalBlocks ≤ 8 * g.bitmapLen) {i : Fin maxNodes} {n n' : Node}
    (hn : nodes i = some n) {run : Extent} (hadd : addRun n.extents run = some n'.extents)
    (hrun : 0 < run.2 ∧ g.dataStart ≤ run.1 ∧ run.1 + run.2 ≤ g.totalBlocks)
    (hfree : ∀ b, run.1 ≤ b → b < run.1 + run.2 → bitGet bitmap b = false) :
    Accounted g (markUsed bitmap run.1 run.2) (Function.update nodes i (some n')) := by
  have hblocks := blocksOf_addRun hadd
  have hfit : run.1 + run.2 ≤ 8 * bitmap.length := by
    rw [h.length_bitmap]
    omega
  -- no node owns a block of the run, since the run was free
  have hfresh : ∀ b ∈ range' run.1 run.2, b ∉ blocksOf n.extents ∧ ¬Elsewhere nodes i b := by
    intro b hb
    rw [mem_range'_1] at hb
    have hno := (h.bit_at i (show b < g.totalBlocks by omega)).not.mp
      (by rw [hfree b hb.1 hb.2]; decide)
    rw [not_or, not_or] at hno
    exact ⟨fun hbn => hno.2.1 ⟨n, hn, hbn⟩, hno.2.2⟩
  refine h.replace (by rw [length_markUsed, h.length_bitmap]) (fun b hb => ?_) ?_ ?_ ?_
  · rw [bitGet_markUsed hfit, h.bit_at i hb, hn]
    simp only [some.injEq, exists_eq_left', hblocks, mem_append, mem_range'_1]
    tauto
  · rintro m ⟨⟩
    exact inside_addRun hadd (h.inside i n hn) hrun
  · rintro m ⟨⟩
    rw [hblocks]
    exact (h.nodup i n hn).append nodup_range' fun b hb hbr => (hfresh b hbr).1 hb
  · rintro m ⟨⟩ b hb
    rw [hblocks] at hb
    rcases mem_append.mp hb with hb | hb
    · exact h.not_elsewhere hn hb
    · exact (hfresh b hb).2

/-- **Freeing a node**: its blocks become free, whether the node stays without blocks or
goes. -/
theorem free (hn : nodes i = some n) {o : Option Node} (ho : ∀ m, o = some m → m.extents = []) :
    Accounted g (freeBits bitmap n.extents) (Function.update nodes i o) := by
  have hnone : ∀ m, o = some m → ∀ b, b ∉ blocksOf m.extents := fun m hm => by simp [ho m hm]
  refine h.replace (by rw [length_freeBits, h.length_bitmap]) (fun b hb => ?_)
    (fun m hm => by simp [ho m hm]) (fun m hm => by simp [ho m hm])
    fun m hm b hb => absurd hb (hnone m hm b)
  rw [bitGet_freeBits, h.bit_at i hb, hn]
  constructor
  · rintro ⟨hlt | ⟨m, ⟨⟩, hbm⟩ | he, hnot⟩
    · exact .inl hlt
    · exact absurd hbm hnot
    · exact .inr (.inr he)
  · rintro (hlt | ⟨m, hm, hbm⟩ | he)
    · refine ⟨.inl hlt, fun hbn => ?_⟩
      have := (h.mem_range hn hbn).1
      omega
    · exact absurd hbm (hnone m hm b)
    · exact ⟨.inr (.inr he), fun hbn => h.not_elsewhere hn hbn he⟩

/-- **A new node without blocks** changes nothing in the accounting. -/
theorem insert (hfree : nodes i = none) {n : Node} (hn : n.extents = []) :
    Accounted g bitmap (Function.update nodes i (some n)) := by
  refine h.replace h.length_bitmap (fun b hb => ?_) ?_ ?_ ?_
  · rw [h.bit_at i hb, hfree]
    simp [hn]
  all_goals
    rintro m ⟨⟩
    simp [hn]

end Accounted

end DunitOS.DunitFs
