import DunitOS.Kernel.Keeping

/-!
# No page is writable and executable

Every path by which a process gets a page, or the access to one is changed, goes through
four operations of the address space, with flags that say that the page is not executable
whenever they say that it is writable (`Safe`). For the segments of an image
that share a page this is the last step of the merge; for `mmap` and `mprotect` it is the
test of the access asked for; the other paths never ask for a page that can be executed.
The invariant is then kept by every call, whatever the rest of the system does between
(`no_page_writable_and_executable`).
-/

namespace DunitOS.Kernel

open SysLib Memory Prog Option Process Space Keeps

/-! ### Flags -/

/-- Flags that do not allow both. -/
def Safe (f : PageFlags) : Prop := f.contains .writable = true → f.contains .noExecute = true

instance (f : PageFlags) : Decidable (Safe f) := inferInstanceAs (Decidable (_ → _))

/-- Flags other than the one for writing may be added. -/
theorem Safe.union {f g : PageFlags} (h : Safe f) (hg : g.bits &&& PageFlags.writable.bits = 0) :
    Safe (f ∪ g) := by
  intro hw
  have hsame : (f ∪ g).contains .writable = f.contains .writable := by
    rw [PageFlags.contains, PageFlags.contains]
    change ((f.bits ||| g.bits) &&& _ == _) = _
    rw [lor_land, hg, UInt64.or_zero]
  exact contains_union_left (h (hsame ▸ hw)) g

theorem safe_pageFlags {writable executable : Bool} (h : ¬(writable = true ∧ executable = true)) :
    Safe (Process.pageFlags writable executable) := by
  cases writable <;> cases executable
  · decide
  · decide
  · decide
  · exact absurd ⟨rfl, rfl⟩ h

theorem safe_of_writable_wins {f : PageFlags} :
    Safe (if f.contains .writable then f ∪ .noExecute else f) := by
  split
  · exact fun _ => contains_union_right _ _
  · intro hw
    contradiction

/-- **The merge**: a page that two segments share is not executable if it is writable. -/
theorem safe_mergedFlags {existing flags : PageFlags} : Safe (Elf.mergedFlags existing flags) :=
  safe_of_writable_wins

theorem safe_segmentFlags {ph : ProgramHeader}
    (h : (ph.pFlags &&& pfW != 0 && ph.pFlags &&& pfX != 0) = false) :
    Safe (Elf.segmentFlags ph) := by
  rw [Elf.segmentFlags]
  rw [Bool.and_eq_false_iff] at h
  rcases h with h | h
  · simp only [h, Bool.false_eq_true, if_false]
    split <;> decide
  · simp only [beq_iff_eq.mpr (bne_eq_false_iff_eq.mp h), if_true]
    split <;> decide

/-! ### Pages -/

/-- **W^X**: no page is present, writable and executable at once. -/
def WriteXorExecute (m : Pages) : Prop :=
  ∀ n pg, m n = some pg →
    ¬(pg.flags.contains .present = true ∧ pg.flags.contains .writable = true ∧
      pg.flags.contains .noExecute = false)

/-- The flags of all pages are safe. -/
def SafePages (m : Pages) : Prop := ∀ n pg, m n = some pg → Safe pg.flags

theorem SafePages.writeXorExecute {m : Pages} (h : SafePages m) : WriteXorExecute m := by
  rintro n pg hpg ⟨-, hw, hx⟩
  rw [h n pg hpg hw] at hx
  cases hx

theorem SafePages.update {m : Pages} (h : SafePages m) {o : Option Page} (n : ℕ)
    (ho : ∀ pg, o = some pg → Safe pg.flags) : SafePages (Function.update m n o) :=
  fun n' pg hpg => by
    rcases update_eq_some hpg with ⟨-, hpg⟩ | ⟨-, hpg⟩
    · exact ho pg hpg
    · exact h n' pg hpg

/-- The state of an address space with safe pages. -/
def SafeSpace (s : Space) : Prop := SafePages s.1

variable {flags : PageFlags}

variable (virt : ℕ)

namespace Space

theorem keeps_nextFrame : Keeps SafeSpace nextFrame := fun s hs => by
  rw [nextFrame]
  split <;> exact hs

theorem keeps_commit {op : SpaceOp} {reply : SpaceReply}
    (h : ∀ m : Pages, SafePages m → ∀ pg, m.updated op reply = some pg → Safe pg.flags) :
    Keeps SafeSpace (commit op reply) :=
  modify fun s hs => SafePages.update hs _ (h s.1 hs)

theorem safe_mapped (h : Safe flags) : Safe (flags ∪ .present ∪ .user) :=
  (h.union (by decide)).union (by decide)

theorem keeps_mapUserPage (h : Safe flags) : Keeps SafeSpace (mapUserPage virt flags) := by
  refine (Keeps.refuse _ _).bind fun _ => keeps_nextFrame.bind fun frame => Keeps.get.bind fun s =>
    (Keeps.refuse _ _).bind fun _ => (keeps_commit fun m _ pg hpg => ?_).bind fun _ => Keeps.pure _
  obtain rfl := some.inj hpg
  exact safe_mapped (safe_mapped h)

theorem keeps_mapUserFrame (phys : UInt64) (h : Safe flags) :
    Keeps SafeSpace (mapUserFrame virt phys flags) := by
  refine (Keeps.refuse _ _).bind fun _ => keeps_nextFrame.bind fun _ => Keeps.get.bind fun s =>
    (Keeps.refuse _ _).bind fun _ => keeps_commit fun m _ pg hpg => ?_
  obtain rfl := some.inj hpg
  exact safe_mapped h

theorem keeps_unmapUserPage : Keeps SafeSpace (unmapUserPage virt) :=
  (Keeps.refuse _ _).bind fun _ => Keeps.get.bind fun _ =>
    (keeps_commit fun _ _ _ hpg => by cases hpg).bind fun _ => .pure _

theorem safe_protectedFlags (h : Safe flags) {present : Bool} :
    Safe (Pages.protectedFlags flags present) := by
  cases present with
  | false => exact h.union (by decide)
  | true => exact (h.union (by decide)).union (by decide)

theorem keeps_protectUserPage (h : Safe flags) (present : Bool) :
    Keeps SafeSpace (protectUserPage virt flags present) := by
  refine (Keeps.refuse _ _).bind fun _ => Keeps.get.bind fun s =>
    (keeps_commit fun m _ pg hpg => ?_).bind fun _ => Keeps.pure _
  rw [Pages.updated, map_eq_some_iff] at hpg
  obtain ⟨pg0, -, rfl⟩ := hpg
  exact safe_protectedFlags h

end Space

/-! ### Processes -/

/-- The pages of a process, if it still has an address space, are safe. -/
def SafeCell (c : Cell) : Prop := ∀ m, c.proc.pages = some m → SafePages m

namespace Process

theorem keeps_onSpace {α : Type} {m : Space.M α} (h : Keeps SafeSpace m) :
    Keeps SafeCell (onSpace m) := by
  intro c hc pages hpages
  rw [onSpace] at hpages
  rcases hp : c.proc.pages with _ | pages0
  · simp only [hp] at hpages
    cases hpages
  · simp only [hp] at hpages
    obtain rfl := some.inj hpages
    exact h (pages0, c.sys.answers) (hc pages0 hp)

/-- **The memory calls** keep the pages safe. -/
theorem stable_safe : Stable SafeSpace SafeCell where
  onSpace h := keeps_onSpace h
  unmap := keeps_unmapUserPage
  bar page := keeps_protectUserPage page (by decide) false
  record _ hpages _ hc m hm := hc m (hpages ▸ hm)
  retain _ _ hc := hc
  release _ _ hc := hc

theorem creates_safe : Creates SafeCell where
  alloc _ hc := hc
  short _ hc := hc

theorem blind_safe : Blind SafeCell where
  table _ hc := hc
  device _ _ hc := hc

theorem keeps_mapData (page : ℕ) :
    Keeps SafeSpace (Space.mapUserPage page (pageFlags true false)) :=
  keeps_mapUserPage page (safe_pageFlags (by decide))

/-- A shared buffer is never executable. -/
theorem keeps_mapSharedVm {id addr : ℕ} {writable : Bool} :
    Keeps SafeCell (mapSharedVm id addr writable) :=
  stable_safe.mapSharedVm fun _ _ _ _ page frame _ =>
    keeps_mapUserFrame page frame (safe_pageFlags fun hc => by cases hc.2)

theorem keeps_handleMap (handle : Handle) {addr len : ℕ} :
    Keeps SafeCell (handleMap handle addr len) := by
  refine get.bind fun c => ?_
  rcases c.proc.handleTable.require handle rightMap with e | ⟨_ | _ | _ | _ | id, rights⟩
  · exact stop _
  · exact keeps_mapErr (stable_safe.mapAnonymous _ _ _ _ keeps_mapData)
  · exact stop _
  · exact stop _
  · exact stop _
  · exact keeps_mapErr keeps_mapSharedVm

end Process

/-! ### Images and system calls -/

namespace Elf

theorem keeps_ensureProcessPage (h : Safe flags) :
    Keeps SafeSpace (ensureProcessPage virt flags) := by
  refine Keeps.get.bind fun s => (Keeps.ofExcept _).bind fun r => ?_
  rcases r with _ | ⟨phys, existing⟩
  · exact (keeps_mapUserPage virt h).bind fun _ => Keeps.pure ()
  · exact (keeps_protectUserPage virt safe_mergedFlags true).bind
      fun _ => Keeps.pure ()

variable (dataLen : ℕ)

theorem keeps_loadSegmentProcess (ph : ProgramHeader) :
    Keeps SafeSpace (loadSegmentProcess dataLen ph) := by
  refine (Keeps.refuse _ _).bind fun _ => (Keeps.refuse _ _).bind fun _ =>
    (Keeps.refuse _ _).bind fun _ => (Keeps.ofExcept _).bind fun pageEnd =>
    Keeps.refuse_bind fun hwx => Keeps.forEach fun page _ => ?_
  exact keeps_ensureProcessPage page (safe_segmentFlags hwx)

theorem keeps_loadIntoProcessAddressSpace {phs : List ProgramHeader}
    (h : wantsExecutableStack phs = false) :
    Keeps SafeSpace (loadIntoProcessAddressSpace dataLen phs) := by
  rw [loadIntoProcessAddressSpace, h]
  refine (forEach fun ph _ =>
    ite (pure ()) (keeps_loadSegmentProcess dataLen ph)).bind fun _ =>
    forEach fun page _ => keeps_ensureProcessPage page ?_
  decide

/-- **An image** without an executable stack. -/
theorem keeps_prepareProcessElf {phs : List ProgramHeader}
    (h : wantsExecutableStack phs = false) : Keeps SafeCell (prepareProcessElf dataLen phs) :=
  stable_safe.prepareProcessElf keeps_mapData
    (keeps_loadIntoProcessAddressSpace dataLen h)

end Elf

/-- **Every system call** keeps the pages safe. -/
theorem SysCall.keeps_exec (c : SysCall) : Keeps SafeCell c.exec := fun s hs => by
  refine stable_safe.exec blind_safe
    (fun page w x h => keeps_mapUserPage page (safe_pageFlags h)) c hs fun hspecial => ?_
  cases c with
  | handleCreateShared len =>
    exact keeps_done (keeps_mapErr (blind_safe.handleCreateShared creates_safe len)) s hs
  | handleMap handle addr len =>
    exact keeps_done (keeps_mapErr (keeps_handleMap handle)) s hs
  | sharedVmCreate length =>
    exact keeps_done (keeps_mapErr (stable_safe.createSharedVm creates_safe length)) s hs
  | sharedVmMap =>
    exact keeps_done ((Keeps.refuse _ _).bind fun _ =>
      keeps_mapErr keeps_mapSharedVm) s hs
  | mprotect =>
    exact Keeps.refuse_bind (fun hok => keeps_mapErr (stable_safe.protectRange _ _ fun _ _ page _ =>
        keeps_protectUserPage page (safe_pageFlags (not_both_of_badProt hok)) _))
      s hs
  | _ => cases hspecial

theorem SysCall.safe_run (c : SysCall) {s : Cell} (h : SafeCell s) : SafeCell (c.run s) := by
  have hexec := c.keeps_exec s h
  rw [run]
  split
  · exact h
  · next hrun => rwa [hrun] at hexec

/-- A call of a process, in whatever state the rest of the system has brought what is shared
and the handles of the process by then. -/
def Process.callIn (proc : Process) (e : Sys × HandleTable × SysCall) : Process :=
  (e.2.2.run ⟨{ proc with handleTable := e.2.1 }, e.1⟩).proc

/-- **W^X.** A process is made of an image that does not ask for an executable stack and then
makes system calls, with anything done by others in between: none of its pages is ever
present, writable and executable. -/
theorem no_page_writable_and_executable (pid : ProcessId) (sys : Sys) (dataLen : ℕ)
    (phs : List ProgramHeader) (hstack : Elf.wantsExecutableStack phs = false)
    (calls : List (Sys × HandleTable × SysCall)) (m : Pages)
    (hm : (calls.foldl Process.callIn
      (Elf.prepareProcessElf dataLen phs ⟨Process.new pid, sys⟩).2.proc).pages = some m) :
    WriteXorExecute m := by
  have hnew : SafeCell ⟨new pid, sys⟩ := fun m hm n pg hpg => by
    rw [← some.inj hm] at hpg
    cases hpg
  have hstart := Elf.keeps_prepareProcessElf dataLen hstack _ hnew
  have hrun := foldl_induct (P := fun p : Process => ∀ m, p.pages = some m → SafePages m)
    (fun p (e : Sys × HandleTable × SysCall) hp =>
      e.2.2.safe_run (s := ⟨{ p with handleTable := e.2.1 }, e.1⟩) hp) calls hstart
  exact (hrun m hm).writeXorExecute

/-- An image whose code and data meet in the page at `0x401000`. -/
def codeAndData : List ProgramHeader :=
  [⟨ptLoad, pfX ||| 4, 0, 0x400000, 0x1800, 0x1800, 4096⟩,
    ⟨ptLoad, pfW ||| 4, 0x1800, 0x401800, 0x800, 0x800, 4096⟩]

/-- Frames for it, and for some pages more. -/
def spareSys : Sys where
  objects := ∅
  nextSharedVmId := 1
  displayOwner := 0
  inputOwner := 0
  answers := (List.range' 1 30).map fun n => some (UInt64.ofNat (n * 4096))
  held := []
  underflow := false

/-- Code that is written and then made executable, as a loader of modules does it. -/
def writeThenRun : List (Sys × HandleTable × SysCall) :=
  [(spareSys, HandleTable.new, .mmap 0 4096 3 34 .unusable 0),
    (spareSys, HandleTable.new, .mprotect userMmapBase 4096 5)]

/-- Whether a page can be written to and whether it cannot be executed. -/
def accessAt (m : Pages) (n : ℕ) : Option (Bool × Bool) :=
  (m n).map fun pg => (pg.flags.contains .writable, pg.flags.contains .noExecute)

/-- The page that the segments share can be written to and not executed; the one that the
process has made executable cannot be written to. -/
theorem no_page_writable_and_executable_writeThenRun :
    ∃ m, (writeThenRun.foldl Process.callIn (Elf.prepareProcessElf 0x2000 codeAndData
        ⟨Process.new 1, spareSys⟩).2.proc).pages = some m ∧
      accessAt m 0x401 = some (true, true) ∧ accessAt m 0x1000000 = some (false, false) ∧
      WriteXorExecute m := by
  have hrun : ((writeThenRun.foldl callIn
      (Elf.prepareProcessElf 0x2000 codeAndData ⟨new 1, spareSys⟩).2.proc).pages.map
      fun m => (accessAt m 0x401, accessAt m 0x1000000)) =
      some (some (true, true), some (false, false)) := by
    decide +kernel
  obtain ⟨m, hm, hpages⟩ := map_eq_some_iff.mp hrun
  obtain ⟨h1, h2⟩ := Prod.mk.inj hpages
  exact ⟨m, hm, h1, h2,
    no_page_writable_and_executable 1 spareSys 0x2000 codeAndData (by decide) writeThenRun m hm⟩

end DunitOS.Kernel
