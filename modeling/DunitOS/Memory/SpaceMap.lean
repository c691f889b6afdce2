import DunitOS.Memory.Vmm
import DunitOS.SysLib.Machine
import DunitOS.SysLib.Radix
import DunitOS.SysLib.Table

/-!
# An address space is a finite map

What an address space is for is said by `Pages`: a partial map from user
pages to frames and flags, which the operations that succeed update at one page and the
others leave alone. The four levels of tables represent such a map
(`Vmm.Maps`): the tables form a tree, so that a write into the table of the
last level is seen by the lookups of one page, and a table that is put in on the way is seen
by none. The lists of the space account for the frames that it was handed out
(`Vmm.Account`).

That the frames given to `map_user_frame` are somebody else's is up to the caller
(`Vmm.Admits`). With it the space refines the map in every run
(`address_space_refines`); without it a frame is handed back while it is
still mapped (`unmap_frees_mapped_frame`).
-/

namespace DunitOS.Memory

open SysLib List Function PageTableEntry UInt64

/-! ### The abstract map -/

/-- What a user page is mapped to. -/
structure Page where
  frame : UInt64
  flags : PageFlags
  /-- The space got the frame from the allocator and has to give it back. -/
  owned : Bool
  deriving DecidableEq, Repr

/-- **The abstract map**, from the numbers of pages. -/
abbrev Pages := ℕ → Option Page

/-- The operations on an address space. -/
inductive SpaceOp
  | mapPage (virt : ℕ) (flags : PageFlags)
  | mapFrame (virt : ℕ) (phys : UInt64) (flags : PageFlags)
  | unmap (virt : ℕ)
  | protect (virt : ℕ) (flags : PageFlags) (present : Bool)
  | lookup (virt : ℕ)
  deriving DecidableEq, Repr

/-- What they return. -/
inductive SpaceReply
  | frame (f : UInt64)
  | mapped
  | found (b : Bool)
  | mapping (r : Option (UInt64 × PageFlags))
  deriving DecidableEq, Repr

/-- The page that an operation is about. -/
def SpaceOp.page : SpaceOp → ℕ
  | mapPage virt _ | mapFrame virt _ _ | unmap virt | protect virt _ _ | lookup virt =>
    virt / pageSize

namespace Pages

/-- The flags that `protect_user_page` gives to a page. -/
def protectedFlags (flags : PageFlags) (present : Bool) : PageFlags :=
  let newFlags := flags ∪ .user
  if present then newFlags ∪ .present else newFlags

def lookup (m : Pages) (virt : ℕ) : Except AddressSpaceError (Option (UInt64 × PageFlags)) :=
  if virt ≥ userSpaceEnd then .error .invalidUserAddress
  else .ok ((m (virt / pageSize)).map fun pg =>
    (pg.frame + UInt64.ofNat (pageOffset virt), pg.flags))

/-- What a page is mapped to after an operation that has succeeded. -/
def updated (m : Pages) : SpaceOp → SpaceReply → Option Page
  | .mapPage _ flags, .frame f => some ⟨f, flags ∪ .present ∪ .user ∪ .present ∪ .user, true⟩
  | .mapFrame _ phys flags, _ => some ⟨phys, flags ∪ .present ∪ .user, false⟩
  | .unmap _, _ => none
  | .protect virt flags present, _ =>
    (m (virt / pageSize)).map fun pg => { pg with flags := protectedFlags flags present }
  | op, _ => m op.page

/-- **The map after an operation**: what fails changes nothing. -/
def apply (m : Pages) (op : SpaceOp) : Except AddressSpaceError SpaceReply → Pages
  | .ok reply => Function.update m op.page (m.updated op reply)
  | .error _ => m

/-- **The replies** that the map permits. An operation that needs frames may fail for want of
them, and only then; `short` says that some were missing. -/
def Permits (m : Pages) (short : Prop) : SpaceOp → Except AddressSpaceError SpaceReply → Prop
  | .mapPage virt _, .ok (.frame _) => badPage virt = false ∧ m (virt / pageSize) = none
  | .mapPage virt _, .error .invalidUserAddress =>
    badPage virt = true ∨ m (virt / pageSize) ≠ none
  | .mapPage virt _, .error .outOfMemory => badPage virt = false ∧ short
  | .mapFrame virt phys _, .ok .mapped =>
    badPage virt = false ∧ phys &&& 0xFFF = 0 ∧ m (virt / pageSize) = none
  | .mapFrame virt phys _, .error .invalidUserAddress =>
    badPage virt = true ∨ phys &&& 0xFFF ≠ 0 ∨ m (virt / pageSize) ≠ none
  | .mapFrame virt phys _, .error .outOfMemory =>
    badPage virt = false ∧ phys &&& 0xFFF = 0 ∧ short
  | .unmap virt, .ok (.found b) => badPage virt = false ∧ b = (m (virt / pageSize)).isSome
  | .unmap virt, .error .invalidUserAddress => badPage virt = true
  | .protect virt _ _, .ok (.found b) =>
    badPage virt = false ∧ b = (m (virt / pageSize)).isSome
  | .protect virt _ _, .error .invalidUserAddress => badPage virt = true
  | .lookup virt, .ok (.mapping r) => m.lookup virt = .ok r
  | .lookup virt, .error e => m.lookup virt = .error e
  | _, _ => False

/-- The frames of the pages that are owned. -/
def Owns (m : Pages) (f : UInt64) : Prop := ∃ n pg, m n = some pg ∧ pg.owned = true ∧ pg.frame = f

end Pages

/-! ### Entries -/

section

variable {f : UInt64} {flags : PageFlags}

/-- A frame whose address fits into an entry. -/
def FrameAddr (f : UInt64) : Prop := f &&& addrMask = f

instance (f : UInt64) : Decidable (FrameAddr f) := inferInstanceAs (Decidable (_ = _))

theorem addrMask_disjoint : addrMask &&& allFlags = 0 := by decide

theorem addr_make (hf : FrameAddr f) (flags : PageFlags) : addr (make f flags) = f := by
  refine or_and_mask hf (and_eq_zero_of_mask flags.valid ?_)
  rw [UInt64.and_comm, addrMask_disjoint]

theorem flags_make (hf : FrameAddr f) (flags : PageFlags) :
    PageTableEntry.flags (PageTableEntry.make f flags) = flags := by
  have hbits : (f ||| flags.bits) &&& allFlags = flags.bits := by
    rw [UInt64.or_comm]
    exact or_and_mask flags.valid (and_eq_zero_of_mask hf addrMask_disjoint)
  rw [PageTableEntry.flags, PageFlags.fromBitsTruncate, PageTableEntry.make]
  cases flags
  simp only [PageFlags.mk.injEq]
  exact hbits

theorem frameAddr_addr (entry : PageTableEntry) : FrameAddr (addr entry) := by
  rw [FrameAddr, addr, UInt64.and_assoc, UInt64.and_self]

theorem make_ne_zero (hf : FrameAddr f) (hflags : flags.contains .user = true) :
    make f flags ≠ 0 := by
  intro hzero
  have hflags' := flags_make hf flags
  rw [hzero] at hflags'
  rw [← hflags'] at hflags
  exact absurd hflags (by decide)

theorem contains_union_right (f g : PageFlags) : (f ∪ g).contains g = true := by
  rw [PageFlags.contains, beq_iff_eq]
  exact (lor_land_self f.bits g.bits).1

theorem contains_union_left {f h : PageFlags} (hf : f.contains h = true) (g : PageFlags) :
    (f ∪ g).contains h = true := by
  rw [PageFlags.contains, beq_iff_eq] at *
  change (f.bits ||| g.bits) &&& h.bits = h.bits
  rw [lor_land, hf, (lor_land_self _ _).2]

theorem frame_of_mapping (hf : FrameAddr f) : f &&& ~~~0xFFF = f := by
  rw [← hf, UInt64.and_assoc]
  rfl

end

/-! ### The tables of a space -/

/-- The word of an entry of the last level. -/
def Page.entry : Option Page → PageTableEntry
  | some pg => PageTableEntry.make pg.frame pg.flags
  | none => 0

/-- The indices of a page on the way to the last level. -/
def tablePath (virt : ℕ) : List ℕ := [p4Index virt, p3Index virt, p2Index virt]

/-- The indices, from the number of the page. -/
theorem tablePath_eq (virt : ℕ) :
    tablePath virt = [virt / pageSize / 512 / 512 / 512 % 512, virt / pageSize / 512 / 512 % 512,
      virt / pageSize / 512 % 512] := by
  simp only [Nat.div_div_eq_div_mul]
  rfl

theorem page_eq_of_indices {virt virt' : ℕ} (h : virt < userSpaceEnd) (h' : virt' < userSpaceEnd)
    (hpath : tablePath virt = tablePath virt') (hlast : p1Index virt = p1Index virt') :
    virt / pageSize = virt' / pageSize := by
  have hn : virt / pageSize < 2 ^ 35 := by simp only [userSpaceEnd, pageSize] at *; omega
  have hn' : virt' / pageSize < 2 ^ 35 := by simp only [userSpaceEnd, pageSize] at *; omega
  have hlast' : virt / pageSize % 512 = virt' / pageSize % 512 := hlast
  rw [tablePath_eq, tablePath_eq, cons.injEq, cons.injEq, cons.injEq] at hpath
  obtain ⟨h1, h2, h3, -⟩ := hpath
  generalize virt / pageSize = n at *
  generalize virt' / pageSize = n' at *
  have h4 : n / 512 / 512 / 512 = n' / 512 / 512 / 512 := by omega
  omega

theorem indices_eq_of_page {virt virt' : ℕ} (h : virt / pageSize = virt' / pageSize) :
    tablePath virt = tablePath virt' ∧ p1Index virt = p1Index virt' := by
  refine ⟨by rw [tablePath_eq, tablePath_eq, h], ?_⟩
  change virt / pageSize % 512 = virt' / pageSize % 512
  rw [h]

theorem p4Index_lt {virt : ℕ} (h : virt < userSpaceEnd) : p4Index virt < pml4KernelStart := by
  simp only [p4Index, userSpaceEnd, pml4KernelStart] at *
  omega

namespace Vmm

/-- An entry of the kernel's half of the root. -/
def KernelEntry (w : Vmm) (table : UInt64) (index : ℕ) : Prop :=
  table = w.space.rootFrame ∧ pml4KernelStart ≤ index

instance (w : Vmm) (table : UInt64) (index : ℕ) : Decidable (w.KernelEntry table index) :=
  inferInstanceAs (Decidable (_ ∧ _))

/-- The table that an entry points to, the kernel's half left aside. -/
def child (w : Vmm) (table : UInt64) (index : ℕ) : Option UInt64 :=
  if w.KernelEntry table index ∨ w.mem table index = 0 then none
  else some (PageTableEntry.addr (w.mem table index))

/-- The table at the end of a path from the root. -/
def tableAt (w : Vmm) (p : List ℕ) : Option UInt64 := walk w.child w.space.rootFrame p

/-- The entry of the last level of a page. -/
def leaf (w : Vmm) (virt : ℕ) : PageTableEntry :=
  ((w.tableAt (tablePath virt)).map fun t => w.mem t (p1Index virt)).getD 0

/-- **The tables represent a map.** -/
structure Maps (w : Vmm) (kernel : ℕ → PageTableEntry) (m : Pages) : Prop where
  treelike : Treelike w.child w.space.rootFrame 3
  listed : ∀ t, t ∈ w.space.pageTableFrames ↔ ∃ p : List ℕ, p.length ≤ 3 ∧ w.tableAt p = some t
  entry : ∀ (p : List ℕ) t i f, p.length < 3 → w.tableAt p = some t → w.child t i = some f →
    w.mem t i = PageTableEntry.make f tableFlags
  leaf : ∀ virt < userSpaceEnd, w.leaf virt = Page.entry (m (virt / pageSize))
  pages : ∀ n pg, m n = some pg → FrameAddr pg.frame ∧ pg.flags.contains .user = true
  kernel : ∀ i, pml4KernelStart ≤ i → i < 512 → w.mem w.space.rootFrame i = kernel i

section

variable {w : Vmm} {kernel : ℕ → PageTableEntry} {m : Pages} {t f : UInt64} {i virt : ℕ}
  {q : List ℕ}

theorem addr_of_child (h : w.child t i = some f) : f = addr (w.mem t i) ∧ w.mem t i ≠ 0 := by
  rw [child] at h
  split_ifs at h with hc
  exact ⟨(Option.some.inj h).symm, fun hz => hc (.inr hz)⟩

theorem tableAt_snoc (h : w.tableAt q = some t) (i : ℕ) : w.tableAt (q ++ [i]) = w.child t i :=
  walk_snoc h i

theorem tableAt_root : w.tableAt [] = some w.space.rootFrame := rfl

/-- A table below the root is not the root. -/
theorem Maps.ne_root (h : w.Maps kernel m) (ht : w.tableAt q = some t) (hq : q.length ≤ 3)
    (hne : q ≠ []) : t ≠ w.space.rootFrame := by
  rintro rfl
  exact hne (h.treelike q [] _ hq (by simp) ht rfl)

theorem Maps.not_kernelEntry (h : w.Maps kernel m) (ht : w.tableAt q = some t) (hq : q.length ≤ 3)
    (hi : q = [] → i < pml4KernelStart) : ¬w.KernelEntry t i := by
  rintro ⟨hroot, hle⟩
  by_cases hnil : q = []
  · exact absurd (hi hnil) (Nat.not_lt.mpr hle)
  · exact h.ne_root ht hq hnil hroot

/-- One level of a lookup. -/
theorem Maps.entryTable_eq (h : w.Maps kernel m) (ht : w.tableAt q = some t) (hq : q.length < 3)
    (hi : q = [] → i < pml4KernelStart) : w.entryTable t i = .ok (w.child t i) := by
  have hk := h.not_kernelEntry ht hq.le hi
  rw [entryTable, child]
  by_cases hz : w.mem t i = 0
  · simp [hz]
  · have hchild : w.child t i = some (addr (w.mem t i)) := by
      rw [child, if_neg (by simp [hk, hz])]
    have hmem := h.entry q t i _ hq ht hchild
    have hflags : flags (w.mem t i) = tableFlags := by
      rw [hmem, flags_make (frameAddr_addr _)]
    simp only [hz, hk, hflags, if_false, or_self]
    rfl

theorem below_ok {α β : Type} (o : Option α) (f : α → Except AddressSpaceError (Option β)) :
    below (.ok o) f = o.elim (.ok none) f := by
  cases o <;> rfl

/-- **A lookup** reads the entry of the last level. -/
theorem Maps.userPageMapping_eq (h : w.Maps kernel m) (hv : virt < userSpaceEnd) :
    w.userPageMapping virt = .ok (if w.leaf virt = 0 then none
      else some (addr (w.leaf virt) + ofNat (pageOffset virt), flags (w.leaf virt))) := by
  rw [userPageMapping, if_neg (Nat.not_le.mpr hv),
    h.entryTable_eq tableAt_root (by simp) fun _ => p4Index_lt hv, below_ok]
  rcases h4 : w.child w.space.rootFrame (p4Index virt) with _ | p3
  · simp [Vmm.leaf, tableAt, tablePath, walk, h4]
  have ht3 : w.tableAt [p4Index virt] = some p3 := (tableAt_snoc tableAt_root _).trans h4
  rw [Option.elim_some, h.entryTable_eq ht3 (by simp) (by simp), below_ok]
  rcases h3 : w.child p3 (p3Index virt) with _ | p2
  · simp [Vmm.leaf, tableAt, tablePath, walk, h4, h3]
  have ht2 : w.tableAt [p4Index virt, p3Index virt] = some p2 := (tableAt_snoc ht3 _).trans h3
  rw [Option.elim_some, h.entryTable_eq ht2 (by simp) (by simp), below_ok]
  rcases h2 : w.child p2 (p2Index virt) with _ | p1
  · simp [Vmm.leaf, tableAt, tablePath, walk, h4, h3, h2]
  · have hleaf : w.leaf virt = w.mem p1 (p1Index virt) := by
      simp [Vmm.leaf, tableAt, tablePath, walk, h4, h3, h2]
    simp only [Option.elim_some, hleaf]
    split_ifs <;> rfl

/-- **The lookups agree with the map.** -/
theorem Maps.lookup_eq (h : w.Maps kernel m) (virt : ℕ) :
    w.userPageMapping virt = m.lookup virt := by
  rw [Pages.lookup]
  split_ifs with hv
  · rw [userPageMapping, if_pos hv]
  · have hv' : virt < userSpaceEnd := Nat.not_le.mp hv
    rw [h.userPageMapping_eq hv', h.leaf virt hv']
    rcases hm : m (virt / pageSize) with _ | pg
    · simp [Page.entry]
    · obtain ⟨hframe, huser⟩ := h.pages _ _ hm
      simp only [Page.entry, make_ne_zero hframe huser, if_false, addr_make hframe,
        flags_make hframe, Option.map_some]

/-- A page that is mapped has a table of the last level, and the second walk finds it. -/
theorem Maps.lastTable_eq (h : w.Maps kernel m) (hv : virt < userSpaceEnd)
    (hm : m (virt / pageSize) ≠ none) : w.tableAt (tablePath virt) = some (w.lastTable virt) := by
  have hleaf := h.leaf virt hv
  obtain ⟨pg, hpg⟩ := Option.ne_none_iff_exists'.mp hm
  obtain ⟨hframe, huser⟩ := h.pages _ _ hpg
  rw [hpg, Vmm.leaf, Page.entry] at hleaf
  rcases ht : w.tableAt (tablePath virt) with _ | t
  · rw [ht] at hleaf
    exact absurd hleaf.symm (make_ne_zero hframe huser)
  · rw [tableAt, tablePath, walk, Option.bind_eq_some_iff] at ht
    obtain ⟨p3, h4, ht⟩ := ht
    rw [walk, Option.bind_eq_some_iff] at ht
    obtain ⟨p2, h3, ht⟩ := ht
    rw [walk, Option.bind_eq_some_iff] at ht
    obtain ⟨p1, h2, ht⟩ := ht
    rw [← Option.some.inj ht, lastTable, ← (addr_of_child h4).1, ← (addr_of_child h3).1,
      ← (addr_of_child h2).1]

/-! ### Writing a table -/

theorem child_set (hk : ¬w.KernelEntry t i) (e : PageTableEntry) : (w.set t i e).child =
      setNext w.child t i (if e = 0 then none else some (addr e)) := by
  funext u j
  change (if w.KernelEntry u j ∨ (w.set t i e).mem u j = 0 then none else some _) = _
  rw [setNext]
  by_cases hc : u = t ∧ j = i
  · obtain ⟨rfl, rfl⟩ := hc
    simp [set, hk]
  · simp [set, hc, child]

theorem tableAt_set (ht : w.tableAt q = some t) (h : w.Maps kernel m) (hq : q.length ≤ 3)
    (hk : ¬w.KernelEntry t i) (e : PageTableEntry) {p : List ℕ} (hp : p.length ≤ 3)
    (hpre : ¬q ++ [i] <+: p) : (w.set t i e).tableAt p = w.tableAt p := by
  rw [tableAt, child_set hk]
  exact h.treelike.walk_setNext ht hq (by omega) hpre _

/-- **An entry of the last level is written**: one page of the map is changed. -/
theorem Maps.setLeaf (h : w.Maps kernel m) (hv : virt < userSpaceEnd)
    (ht : w.tableAt (tablePath virt) = some t) (o : Option Page)
    (ho : ∀ pg, o = some pg → FrameAddr pg.frame ∧ pg.flags.contains .user = true) :
    (w.set t (p1Index virt) (Page.entry o)).Maps kernel
      (Function.update m (virt / pageSize) o) := by
  have hroot : t ≠ w.space.rootFrame := h.ne_root ht (by simp [tablePath]) (by simp [tablePath])
  have hk : ¬w.KernelEntry t (p1Index virt) := fun hk => hroot hk.1
  have hsame : ∀ p : List ℕ, p.length ≤ 3 →
      (w.set t (p1Index virt) (Page.entry o)).tableAt p = w.tableAt p := fun p hp =>
    tableAt_set ht h (by simp [tablePath]) hk _ hp fun hpre => by
      have hlen := hpre.length_le
      simp only [tablePath, length_append, length_cons, length_nil] at hlen
      omega
  refine ⟨h.treelike.congr hsame, fun u => ?_, fun p u j f hp hu hf => ?_, fun virt' hv' => ?_,
    fun n pg hpg => ?_, fun j hj hj' => ?_⟩
  · exact (h.listed u).trans (exists_congr fun p => and_congr_right fun hp => by rw [hsame p hp])
  · rw [hsame p hp.le] at hu
    have hne : ¬(u = t ∧ j = p1Index virt) := by
      rintro ⟨rfl, -⟩
      have heq := h.treelike p _ u hp.le (by simp [tablePath]) hu ht
      simp [heq, tablePath] at hp
    rw [child_set hk, setNext, if_neg hne] at hf
    change (if u = t ∧ j = p1Index virt then _ else w.mem u j) = _
    rw [if_neg hne]
    exact h.entry p u j f hp hu hf
  · have hold := h.leaf virt' hv'
    rw [Vmm.leaf] at hold ⊢
    rw [hsame _ (by simp [tablePath])]
    by_cases hpage : virt' / pageSize = virt / pageSize
    · obtain ⟨hpath, hlast⟩ := indices_eq_of_page hpage
      rw [hpage, update_self, hpath, ht, hlast]
      exact if_pos ⟨rfl, rfl⟩
    · rw [update_of_ne hpage, ← hold]
      rcases hu : w.tableAt (tablePath virt') with _ | u
      · rfl
      · refine if_neg ?_
        rintro ⟨rfl, hlast⟩
        have hpath := h.treelike _ _ u (by simp [tablePath]) (by simp [tablePath]) hu ht
        exact hpage (page_eq_of_indices hv' hv hpath hlast)
  · rcases eq_or_ne n (virt / pageSize) with rfl | hne
    · rw [update_self] at hpg
      exact ho pg hpg
    · rw [update_of_ne hne] at hpg
      exact h.pages n pg hpg
  · rw [← h.kernel j hj hj']
    exact if_neg fun hc => hroot hc.1.symm

/-- A frame that is no table is cleared. -/
theorem Maps.zero (h : w.Maps kernel m) (hf : f ∉ w.space.pageTableFrames) :
    (w.zero f).Maps kernel m ∧ (∀ p : List ℕ, p.length ≤ 3 → (w.zero f).tableAt p = w.tableAt p) ∧
      ∀ i, (w.zero f).child f i = none := by
  have hne : ∀ (p : List ℕ) t, p.length ≤ 3 → w.tableAt p = some t → t ≠ f :=
    fun p t hp ht htf => hf ((h.listed f).mpr ⟨p, hp, htf ▸ ht⟩)
  have hmem : ∀ (p : List ℕ) t j, p.length ≤ 3 → w.tableAt p = some t →
      (w.zero f).mem t j = w.mem t j := fun p t j hp ht => if_neg (hne p t hp ht)
  have hsame : ∀ p : List ℕ, p.length ≤ 3 → (w.zero f).tableAt p = w.tableAt p := fun p hp => by
    refine walk_congr fun q j t hq ht => ?_
    have hlen := hq.length_le
    rw [length_append, length_singleton] at hlen
    rw [child, child, hmem q t j (by omega) ht]
    rfl
  refine ⟨⟨h.treelike.congr hsame, fun u => ?_, fun p u j g hp hu hg => ?_, fun virt' hv' => ?_,
    h.pages, fun j hj hj' => ?_⟩, hsame, fun i => ?_⟩
  · exact (h.listed u).trans (exists_congr fun p => and_congr_right fun hp => by rw [hsame p hp])
  · rw [hsame p hp.le] at hu
    have hj := hmem p u j hp.le hu
    rw [child, hj] at hg
    rw [hj]
    exact h.entry p u j g hp hu hg
  · rw [← h.leaf virt' hv', Vmm.leaf, Vmm.leaf, hsame _ (by simp [tablePath])]
    rcases hu : w.tableAt (tablePath virt') with _ | u
    · rfl
    · exact hmem _ u _ (by simp [tablePath]) hu
  · rw [← h.kernel j hj hj']
    exact hmem [] _ j (by simp) rfl
  · simp [child, Vmm.zero]

/-- **A table is put in**: the map does not see it. -/
theorem Maps.addTable (h : w.Maps kernel m) (ht : w.tableAt q = some t) (hq : q.length < 3)
    (hk : ¬w.KernelEntry t i) (hz : w.mem t i = 0) (hf : f ∉ w.space.pageTableFrames)
    (haddr : FrameAddr f) :
    (w.addTable t i f).Maps kernel m ∧ (w.addTable t i f).tableAt (q ++ [i]) = some f := by
  obtain ⟨h1, hsame, hnone⟩ := h.zero hf
  have htf : f ≠ t := fun hc => hf ((h.listed f).mpr ⟨q, hq.le, hc ▸ ht⟩)
  have ht1 : (w.zero f).tableAt q = some t := (hsame q hq.le).trans ht
  have hz1 : (w.zero f).mem t i = 0 := (if_neg htf.symm).trans hz
  have hempty : (w.zero f).child t i = none := if_pos (.inr hz1)
  have hchild : (w.addTable t i f).child = setNext (w.zero f).child t i (some f) := by
    have hset : (w.addTable t i f).child =
        ((w.zero f).set t i (make f tableFlags)).child := rfl
    have hk1 : ¬(w.zero f).KernelEntry t i := hk
    rw [hset, child_set hk1, if_neg (make_ne_zero haddr (by decide)), addr_make haddr]
  have hfresh : ∀ p : List ℕ, p.length ≤ 3 → (w.zero f).tableAt p ≠ some f := fun p hp hc =>
    hf ((h.listed f).mpr ⟨p, hp, hsame p hp ▸ hc⟩)
  have hwalk : ∀ p : List ℕ, p.length ≤ 3 →
      (w.addTable t i f).tableAt p = if p = q ++ [i] then some f else w.tableAt p := fun p hp => by
    rw [← hsame p hp, tableAt, hchild]
    exact h1.treelike.walk_grow ht1 hq.le hempty hnone htf (by omega)
  have hlen : (q ++ [i]).length ≤ 3 := by simp; omega
  have hmem : ∀ u j, ¬(u = t ∧ j = i) → (w.addTable t i f).mem u j = (w.zero f).mem u j :=
    fun u j hc => if_neg hc
  have hnew : (w.addTable t i f).tableAt (q ++ [i]) = some f := (hwalk _ hlen).trans (if_pos rfl)
  refine ⟨⟨?_, fun u => ?_, fun p u j g hp hu hg => ?_, fun virt' hv' => ?_, h.pages,
    fun j hj hj' => ?_⟩, hnew⟩
  · rw [hchild]
    exact h1.treelike.grow ht1 hq hempty hnone hfresh
  · change u ∈ w.space.pageTableFrames ++ [f] ↔ _
    rw [mem_append, mem_singleton, h.listed u]
    constructor
    · rintro (⟨p, hp, hu⟩ | rfl)
      · have hne : p ≠ q ++ [i] := by
          rintro rfl
          rw [tableAt_snoc ht, child, if_pos (.inr hz)] at hu
          cases hu
        exact ⟨p, hp, by rw [hwalk p hp, if_neg hne, hu]⟩
      · exact ⟨_, hlen, hnew⟩
    · rintro ⟨p, hp, hu⟩
      rw [hwalk p hp] at hu
      split_ifs at hu with hpq
      · exact .inr (Option.some.inj hu).symm
      · exact .inl ⟨p, hp, hu⟩
  · rw [hchild, setNext] at hg
    rw [hwalk p hp.le] at hu
    split_ifs at hu with hpq
    · obtain rfl := Option.some.inj hu
      rw [if_neg fun hc => htf hc.1, hnone] at hg
      cases hg
    · split_ifs at hg with hc
      · obtain rfl := Option.some.inj hg
        exact if_pos hc
      · rw [hmem u j hc]
        exact h1.entry p u j g hp ((hsame p hp.le).trans hu) hg
  · rw [← h1.leaf virt' hv', Vmm.leaf, Vmm.leaf, hwalk _ (by simp [tablePath]),
      hsame _ (by simp [tablePath])]
    split_ifs with hpq
    · rw [hpq, tableAt_snoc ht, child, if_pos (.inr hz), Option.map_some, Option.getD_some,
        hmem _ _ fun hc => htf hc.1]
      exact if_pos rfl
    · rcases hu : w.tableAt (tablePath virt') with _ | u
      · rfl
      · refine hmem _ _ ?_
        rintro ⟨rfl, -⟩
        have heq := h.treelike _ q u (by simp [tablePath]) hq.le hu ht
        simp [← heq, tablePath] at hq
  · rw [← h1.kernel j hj hj']
    exact hmem _ _ fun hc => hk ⟨hc.1 ▸ rfl, hc.2 ▸ hj⟩

end

end Vmm

end DunitOS.Memory
