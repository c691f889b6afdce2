import DunitOS.Kernel.Keeping

/-!
# Read-only capabilities to shared buffers

A handle to a shared buffer without the right to write maps it read-only. The right is
looked at when the buffer is mapped and never again: `mprotect` makes the pages writable
later on (`mprotect_makes_buffer_writable`), and `shared_vm_map` maps a
buffer by its id without asking for a handle.

What does hold is that these are the only two ways. The frames of a buffer belong to no
other buffer and are not handed out while it is registered, so that a page of a process on
one of them was mapped as a page of that buffer; as long as the process maps it through
read-only handles only and does not ask for write access to such pages, none of them is
writable (`read_only_of_no_grant`).
-/

namespace DunitOS.Kernel

open SysLib Std Memory Prog List Option Process Kernel.System Space Sys HandleTable System Keeps

open ExtTreeMap (getElem?_insert_self getElem?_erase_self)

/-! ### Frames of buffers -/

namespace Sys

/-- Only the counts of objects change. -/
def SameFrames (s s' : Sys) : Prop :=
  s'.nextSharedVmId = s.nextSharedVmId ∧ s'.answers = s.answers ∧
    ∀ (id : ℕ) (ob' : SharedVmObject), s'.objects[id]? = some ob' →
      ∃ ob, s.objects[id]? = some ob ∧ ob'.frames = ob.frames

theorem SameFrames.refl (s : Sys) : SameFrames s s := ⟨rfl, rfl, fun _ ob h => ⟨ob, h, rfl⟩⟩

theorem SameFrames.trans {s s' s'' : Sys} (h : SameFrames s s') (h' : SameFrames s' s'') :
    SameFrames s s'' :=
  ⟨h'.1.trans h.1, h'.2.1.trans h.2.1, fun id ob'' hob => by
    obtain ⟨ob', hob', hf'⟩ := h'.2.2 id ob'' hob
    obtain ⟨ob, hob, hf⟩ := h.2.2 id ob' hob'
    exact ⟨ob, hob, hf'.trans hf⟩⟩

theorem sameFrames_retain {s : Sys} {id n : ℕ} : SameFrames s (s.sharedVmRetain id n) := by
  refine ⟨rfl, rfl, fun id' ob' h => ?_⟩
  rw [sharedVmRetain] at h
  rcases hob : s.objects[id]? with _ | ob
  · rw [modify_of_none hob] at h
    exact ⟨ob', h, rfl⟩
  · rw [modify_eq_insert hob] at h
    rcases of_getElem?_insert h with ⟨rfl, rfl⟩ | ⟨-, h⟩
    · exact ⟨ob, hob, rfl⟩
    · exact ⟨ob', h, rfl⟩

theorem sameFrames_release {s : Sys} {id n : ℕ} : SameFrames s (s.sharedVmRelease id n) := by
  rw [sharedVmRelease]
  rcases hob : s.objects[id]? with _ | ob
  · exact SameFrames.refl s
  · simp only
    split_ifs
    · refine ⟨rfl, rfl, fun id' ob' h => ?_⟩
      exact ⟨ob', (of_getElem?_erase h).2, rfl⟩
    · refine ⟨rfl, rfl, fun id' ob' h => ?_⟩
      rcases of_getElem?_insert h with ⟨rfl, rfl⟩ | ⟨-, h⟩
      · exact ⟨ob, hob, rfl⟩
      · exact ⟨ob', h, rfl⟩

theorem sameFrames_setOwner {s : Sys} {d : Device} {o : ProcessId} :
    SameFrames s (s.setOwner d o) := by
  cases d <;> exact ⟨rfl, rfl, fun _ ob h => ⟨ob, h, rfl⟩⟩

theorem sameFrames_dropObject {pid : ProcessId} (s : Sys) (object : HandleObject) :
    SameFrames s (dropObject pid s object) := by
  cases object with
  | display => exact sameFrames_setOwner
  | input => exact sameFrames_setOwner
  | sharedFrames id => exact sameFrames_release
  | _ => exact SameFrames.refl s

theorem sameFrames_foldl {α : Type} {f : Sys → α → Sys} (hf : ∀ s a, SameFrames s (f s a))
    (l : List α) {s : Sys} : SameFrames s (l.foldl f s) :=
  foldl_induct (fun s' a h => h.trans (hf s' a)) l
    (SameFrames.refl s)

theorem sameFrames_releaseVmResources {c : Cell} : SameFrames c.sys (releaseVmResources c).sys :=
  ((sameFrames_foldl (fun s e => sameFrames_release) c.proc.sharedPages.toList).trans
    (sameFrames_foldl (fun s id => sameFrames_release) c.proc.sharedOwned)).trans
    (sameFrames_foldl (fun s => sameFrames_dropObject s)
      c.proc.handleTable.drainObjects)

/-- **The frames of a buffer are its own**: no other buffer has one, and the allocator is not
going to hand one out. -/
structure Apart (o : ℕ) (F : List UInt64) (s : Sys) : Prop where
  own : ∀ ob : SharedVmObject, s.objects[o]? = some ob → ob.frames = F
  others : ∀ (id : ℕ) (ob : SharedVmObject), id ≠ o → s.objects[id]? = some ob →
    ∀ f ∈ ob.frames, f ∉ F
  answers : ∀ f, some f ∈ s.answers → f ∉ F
  old : o < s.nextSharedVmId
  ids : ∀ (id : ℕ) (ob : SharedVmObject), s.objects[id]? = some ob → id < s.nextSharedVmId

theorem Apart.same {o : ℕ} {F : List UInt64} {s s' : Sys} (h : Apart o F s)
    (hsame : SameFrames s s') : Apart o F s' where
  own ob hob := by
    obtain ⟨ob0, hob0, hf⟩ := hsame.2.2 o ob hob
    rw [hf, h.own ob0 hob0]
  others id ob hne hob f hf := by
    obtain ⟨ob0, hob0, hf0⟩ := hsame.2.2 id ob hob
    exact h.others id ob0 hne hob0 f (hf0 ▸ hf)
  answers f hf := h.answers f (hsame.2.1 ▸ hf)
  old := hsame.1 ▸ h.old
  ids id ob hob := by
    obtain ⟨ob0, hob0, -⟩ := hsame.2.2 id ob hob
    exact hsame.1 ▸ h.ids id ob0 hob0

/-- Ids are handed out in order. -/
theorem ids_insert {objects : ExtTreeMap ℕ SharedVmObject} {next : ℕ}
    (h : ∀ (id : ℕ) (ob : SharedVmObject), objects[id]? = some ob → id < next)
    (new : SharedVmObject) (id : ℕ) (ob : SharedVmObject)
    (hob : (objects.insert next new)[id]? = some ob) : id < next + 1 := by
  rcases of_getElem?_insert hob with ⟨rfl, -⟩ | ⟨-, hob⟩
  · exact Nat.lt_succ_self _
  · exact Nat.lt_succ_of_lt (h id ob hob)

end Sys

/-! ### Pages of a process -/

/-- What the pages of an address space satisfy, while the frames to come are others. -/
structure Watch (W : ℕ → Page → Prop) (F : List UInt64) (s : Space) : Prop where
  pages : ∀ n pg, s.1 n = some pg → W n pg
  answers : ∀ f, some f ∈ s.2 → f ∉ F

/-- A property of pages that frames from the allocator have, whatever the access, and that
pages keep that lose all access. -/
structure Watchable (W : ℕ → Page → Prop) (F : List UInt64) : Prop where
  fresh : ∀ n f flags, f ∉ F → W n ⟨f, flags, true⟩
  bar : ∀ n pg, W n pg → W n { pg with flags := Pages.protectedFlags .noExecute false }

variable {answers : List (Option UInt64)}

namespace Watch

variable {W : ℕ → Page → Prop} {F : List UInt64} {s : Space}

theorem update (h : Watch W F s) {n : ℕ} {o : Option Page} (ho : ∀ pg, o = some pg → W n pg)
    (hsub : ∀ f, some f ∈ answers → some f ∈ s.2) :
    Watch W F (Function.update s.1 n o, answers) := by
  refine ⟨fun n' pg hpg => ?_, fun f hf => h.answers f (hsub f hf)⟩
  rcases update_eq_some hpg with ⟨heq, hnew⟩ | ⟨-, hold⟩
  · exact heq ▸ ho pg hnew
  · exact h.pages n' pg hold

theorem shorten (h : Watch W F s) : Watch W F (s.1, s.2.tail) :=
  ⟨h.pages, fun f hf => h.answers f (mem_of_mem_tail hf)⟩

theorem mapUserPage (hW : Watchable W F) (virt : ℕ) (flags : PageFlags) :
    Keeps (Watch W F) (Space.mapUserPage virt flags) := fun s hs => by
  rcases mapUserPage_cases virt flags s with
    ⟨-, hrun⟩ | ⟨-, ⟨-, hrun⟩ | ⟨frame, hhead, ⟨-, hrun⟩ | ⟨-, hrun⟩⟩⟩
  · rwa [hrun]
  · rw [hrun]
    exact hs.shorten
  · rw [hrun]
    exact hs.shorten
  · rw [hrun]
    refine hs.update (fun pg hpg => ?_) fun f hf => mem_of_mem_tail hf
    rw [← some.inj hpg]
    exact hW.fresh _ frame _ (hs.answers frame (mem_of_mem_head? hhead))

theorem mapUserFrame {virt : ℕ} {phys : UInt64} {flags : PageFlags}
    (h : W (virt / pageSize) ⟨phys, flags ∪ .present ∪ .user, false⟩) :
    Keeps (Watch W F) (Space.mapUserFrame virt phys flags) := fun s hs => by
  rcases mapUserFrame_cases virt phys flags s with
    ⟨-, hrun⟩ | ⟨-, -, ⟨-, hrun⟩ | ⟨-, ⟨-, hrun⟩ | ⟨-, hrun⟩⟩⟩
  · rwa [hrun]
  · rw [hrun]
    exact hs.shorten
  · rw [hrun]
    exact hs.shorten
  · rw [hrun]
    refine hs.update (fun pg hpg => ?_) fun f hf => mem_of_mem_tail hf
    rwa [← some.inj hpg]

theorem unmapUserPage (virt : ℕ) : Keeps (Watch W F) (Space.unmapUserPage virt) := fun s hs => by
  rcases unmapUserPage_cases virt s with ⟨-, hrun⟩ | ⟨-, hrun⟩
  · rwa [hrun]
  · rw [hrun]
    exact hs.update (fun pg hpg => by cases hpg) fun _ hf => hf

theorem protectUserPage {virt : ℕ} {flags : PageFlags} {present : Bool}
    (h : ∀ pg, W (virt / pageSize) pg →
      W (virt / pageSize) { pg with flags := Pages.protectedFlags flags present }) :
    Keeps (Watch W F) (Space.protectUserPage virt flags present) := fun s hs => by
  rcases protectUserPage_cases virt flags present s with ⟨-, hrun⟩ | ⟨-, hrun⟩
  · rwa [hrun]
  · rw [hrun]
    refine hs.update (fun pg hpg => ?_) fun _ hf => hf
    rw [Pages.updated, map_eq_some_iff] at hpg
    obtain ⟨pg0, hpg0, rfl⟩ := hpg
    exact h pg0 (hs.pages _ pg0 hpg0)

end Watch

/-- **A process under watch**: its pages satisfy a property, and the frames of the buffer are
apart. -/
structure Watched (W : ℕ → Page → Prop) (o : ℕ) (F : List UInt64) (c : Cell) : Prop where
  apart : c.sys.Apart o F
  pages : ∀ m, c.proc.pages = some m → ∀ n pg, m n = some pg → W n pg

namespace Watched

variable {W : ℕ → Page → Prop} {o : ℕ} {F : List UInt64} {c : Cell}

theorem same (h : Watched W o F c) {p : Process} {s : Sys} (hp : p.pages = c.proc.pages)
    (hs : Sys.SameFrames c.sys s) : Watched W o F ⟨p, s⟩ :=
  ⟨h.apart.same hs, fun m hm => h.pages m (hp ▸ hm)⟩

theorem stable (hW : Watchable W F) : Stable (Watch W F) (Watched W o F) where
  onSpace {α m} hm c hc := by
    rw [onSpace]
    split
    · exact hc
    · next pages hpages =>
      have hw := hm (pages, c.sys.answers) ⟨hc.pages pages hpages, hc.apart.answers⟩
      refine ⟨⟨hc.apart.own, hc.apart.others, hw.answers, hc.apart.old, hc.apart.ids⟩,
        fun m' hm' => ?_⟩
      rw [← some.inj hm']
      exact hw.pages
  unmap := .unmapUserPage
  bar page := .protectUserPage (hW.bar _)
  record _ hpages _ hc := hc.same hpages (Sys.SameFrames.refl _)
  retain id n hc := hc.same rfl sameFrames_retain
  release id n hc := hc.same rfl sameFrames_release

theorem creates : Creates (Watched W o F) where
  alloc {c n frames answers} htake hc := by
    have hans := takeFrames_some htake
    refine ⟨⟨fun ob hob => ?_, fun id ob hne hob f hf => ?_, fun f hf => ?_, ?_,
      ids_insert hc.apart.ids _⟩, hc.pages⟩
    · rw [created, getElem?_insert_of_ne (Nat.ne_of_gt hc.apart.old)] at hob
      exact hc.apart.own ob hob
    · rcases of_getElem?_insert hob with ⟨-, rfl⟩ | ⟨-, hob⟩
      · refine hc.apart.answers f ?_
        rw [hans]
        exact mem_append_left _ (mem_map_of_mem hf)
      · exact hc.apart.others id ob hne hob f hf
    · refine hc.apart.answers f ?_
      rw [hans]
      exact mem_append_right _ hf
    · exact Nat.lt_succ_of_lt hc.apart.old
  short htake hc := ⟨⟨hc.apart.own, hc.apart.others,
    fun f hf => hc.apart.answers f ((takeFrames_none htake).mem hf), hc.apart.old,
    hc.apart.ids⟩, hc.pages⟩

theorem blind : Blind (Watched W o F) where
  table _ hc := hc.same rfl (Sys.SameFrames.refl _)
  device d owner hc := hc.same rfl sameFrames_setOwner

end Watched

/-! ### Pages that are not writable -/

/-- A page that is not writable if its frame is one of the buffer. -/
def ReadOnlyOn (F : List UInt64) (_n : ℕ) (pg : Page) : Prop :=
  pg.frame ∈ F → pg.flags.contains .writable = false

theorem watchable_readOnlyOn (F : List UInt64) : Watchable (ReadOnlyOn F) F where
  fresh _ _ _ hf h := absurd h hf
  bar _ _ _ _ := by
    change (Pages.protectedFlags .noExecute false).contains .writable = false
    decide

theorem watchable_true (F : List UInt64) : Watchable (fun _ _ => True) F :=
  ⟨fun _ _ _ _ => trivial, fun _ _ _ => trivial⟩

theorem watchable_notMem {F : List UInt64} : Watchable (fun _ pg => pg.frame ∉ F) F :=
  ⟨fun _ _ _ hf => hf, fun _ _ h => h⟩

/-- Whether the handles to a buffer that are in the table do not allow to write. -/
def HandleTable.readOnlyTo (t : HandleTable) (o : ℕ) : Bool :=
  t.entries.toList.all fun e => e.2.object != .sharedFrames o || e.2.rights &&& rightWrite == 0

theorem HandleTable.readOnlyTo_iff {t : HandleTable} {o : ℕ} (h : t.readOnlyTo o = true)
    {handle : Handle} {rights : Rights}
    (he : t.entries[handle]? = some ⟨.sharedFrames o, rights⟩) : rights &&& rightWrite = 0 := by
  rw [readOnlyTo, List.all_eq_true] at h
  have hentry := h _ (ExtTreeMap.mem_toList_iff_getElem?_eq_some.mpr he)
  simpa using hentry

/-- The pages that `mprotect` works on. -/
def rangePages (addr length : ℕ) : List ℕ :=
  (vmRangeEnd addr length).toOption.elim [] fun stop => pagesOf addr stop

/-- Whether a call asks for write access to pages of the buffer, without a handle. -/
def SysCall.grantsWrite (o : ℕ) (F : List UInt64) (proc : Process) : SysCall → Bool
  | .mprotect addr length prot =>
    prot &&& protWrite != 0 && (rangePages addr length).any fun page =>
      (proc.pages.bind fun m => m (page / pageSize)).any fun pg => F.contains pg.frame
  | .sharedVmMap id _ prot => id == o && prot &&& 2 != 0
  | _ => false

section

variable {o : ℕ} {F : List UInt64}

open Watched

/-- A buffer is mapped, the one under watch without access to write. -/
theorem watched_mapSharedVm {id addr : ℕ} {writable : Bool} (h : id = o → writable = false) :
    Keeps (Watched (ReadOnlyOn F) o F) (mapSharedVm id addr writable) := by
  refine (stable (watchable_readOnlyOn F)).mapSharedVm
    fun c object hc hobj page frame hframe => .mapUserFrame fun hmem => ?_
  rcases eq_or_ne id o with heq | hne
  · rw [h heq]
    change (pageFlags false false ∪ .present ∪ .user).contains .writable = false
    decide
  · exact absurd hmem (hc.apart.others id object hne hobj frame hframe)

/-- Access to pages that are not of the buffer is changed. -/
theorem watched_protectRange {addr length : ℕ} {writable executable present : Bool} {c : Cell}
    (hc : Watched (ReadOnlyOn F) o F c)
    (h : writable = true → ∀ page ∈ rangePages addr length, ∀ m pg, c.proc.pages = some m →
      m (page / pageSize) = some pg → pg.frame ∉ F) :
    Watched (ReadOnlyOn F) o F
      (protectRange addr length writable executable present c).2 := by
  cases writable with
  | false =>
    refine (stable (watchable_readOnlyOn F)).protectRange addr length
      (fun _ _ page _ => .protectUserPage fun pg _ _ => ?_) c hc
    change (Pages.protectedFlags (pageFlags false executable) present).contains
      .writable = false
    cases executable <;> cases present <;> decide
  | true =>
    -- The pages of the range stay pages of other frames throughout.
    let W : ℕ → Page → Prop := fun n pg => ReadOnlyOn F n pg ∧
      ((∃ page ∈ rangePages addr length, page / pageSize = n) → pg.frame ∉ F)
    have hW : Watchable W F := ⟨fun n f flags hf => ⟨fun h => absurd h hf, fun _ => hf⟩,
      fun n pg hpg => ⟨(watchable_readOnlyOn F).bar n pg hpg.1, hpg.2⟩⟩
    have hstart : Watched W o F c := by
      refine ⟨hc.apart, fun m hm n pg hpg => ⟨hc.pages m hm n pg hpg, ?_⟩⟩
      rintro ⟨page, hpage, rfl⟩
      exact h rfl page hpage m pg hm hpg
    have hend : Watched W o F
        (protectRange addr length true executable present c).2 := by
      refine (stable hW).protectRange addr length (fun stop hstop page hpage =>
        Watch.protectUserPage fun pg hpg => ?_) c hstart
      have hother : pg.frame ∉ F := hpg.2 ⟨page, by rwa [rangePages, hstop], rfl⟩
      exact ⟨fun hmem => absurd hmem hother, fun _ => hother⟩
    exact ⟨hend.apart, fun m hm n pg hpg => (hend.pages m hm n pg hpg).1⟩

/-- **The calls of the process** under watch. -/
theorem SysCall.watched_exec (c : SysCall) {s : Cell} (hs : Watched (ReadOnlyOn F) o F s)
    (hro : s.proc.handleTable.readOnlyTo o = true) (hgrant : c.grantsWrite o F s.proc = false) :
    Watched (ReadOnlyOn F) o F (c.exec s).2 := by
  have hW := watchable_readOnlyOn F
  have S := stable (o := o) hW
  refine S.exec blind (fun page _ _ _ => Watch.mapUserPage hW page _) c hs
    fun hdelicate => ?_
  cases c with
  | handleCreateShared len =>
    exact keeps_done (keeps_mapErr (Watched.blind.handleCreateShared Watched.creates len)) s hs
  | sharedVmCreate length =>
    exact keeps_done (keeps_mapErr (S.createSharedVm Watched.creates length)) s hs
  | handleMap handle =>
    rw [exec, done_snd, mapErr_snd, Process.handleMap, get_bind_run]
    rcases hreq : s.proc.handleTable.require handle rightMap with
      e | ⟨_ | _ | _ | _ | id, rights⟩
    · exact hs
    · exact keeps_mapErr (S.mapAnonymous _ _ _ _ fun page => Watch.mapUserPage hW page _) s hs
    · exact hs
    · exact hs
    · exact hs
    · refine keeps_mapErr (watched_mapSharedVm ?_) s hs
      rintro rfl
      rw [readOnlyTo_iff hro (require_ok hreq).1]
      rfl
  | sharedVmMap =>
    refine keeps_done ((Keeps.refuse _ _).bind fun _ =>
      keeps_mapErr (watched_mapSharedVm fun hid => ?_)) s hs
    rw [grantsWrite, hid, beq_self_eq_true, Bool.true_and] at hgrant
    exact hgrant
  | mprotect =>
    rw [exec, sysMprotect, refuse_bind_run]
    split_ifs
    · exact hs
    · rw [mapErr_snd]
      refine watched_protectRange hs fun hw page hpage m pg hm hpg hF => ?_
      rw [grantsWrite, hw, Bool.true_and, List.any_eq_false] at hgrant
      refine hgrant page hpage ?_
      simp [hm, hpg, hF]
  | _ => cases hdelicate

/-- **The calls of another process** leave the frames of the buffer apart. -/
theorem SysCall.apart_exec (c : SysCall) {s : Cell} (hs : Watched (fun _ _ => True) o F s) :
    Watched (fun _ _ => True) o F (c.exec s).2 := by
  have hW := watchable_true F
  have S := stable (o := o) hW
  refine S.exec_of_not_creates blind (.mapUserPage hW)
    (fun _ _ _ => .mapUserFrame trivial)
    (fun _ _ _ => .protectUserPage fun _ _ => trivial) c hs fun hcreate => ?_
  cases c with
  | handleCreateShared len =>
    exact keeps_done (keeps_mapErr (Watched.blind.handleCreateShared Watched.creates len)) s hs
  | sharedVmCreate length =>
    exact keeps_done (keeps_mapErr (S.createSharedVm Watched.creates length)) s hs
  | _ => cases hcreate

end

/-! ### Before the buffer is there -/

/-- The buffer has not been created. -/
structure Unborn (o : ℕ) (c : Cell) : Prop where
  next : c.sys.nextSharedVmId ≤ o
  ids : ∀ (id : ℕ) (ob : SharedVmObject), c.sys.objects[id]? = some ob → id < c.sys.nextSharedVmId

namespace Unborn

variable {o : ℕ} {c : Cell}

theorem same (h : Unborn o c) {p : Process} {s : Sys} (hs : Sys.SameFrames c.sys s) :
    Unborn o ⟨p, s⟩ := by
  refine ⟨hs.1 ▸ h.next, fun id ob hob => ?_⟩
  obtain ⟨ob0, hob0, -⟩ := hs.2.2 id ob hob
  exact hs.1 ▸ h.ids id ob0 hob0

theorem absent (h : Unborn o c) : c.sys.objects[o]? = none := by
  rcases hob : c.sys.objects[o]? with _ | ob
  · rfl
  · exact absurd (h.ids o ob hob) (Nat.not_lt.mpr h.next)

theorem stable : Stable (fun _ => True) (Unborn o) where
  onSpace {α m} _ c hc := by
    rw [onSpace]
    split
    · exact hc
    · exact ⟨hc.next, hc.ids⟩
  unmap _ _ _ := trivial
  bar _ _ _ := trivial
  record _ _ _ hc := hc.same (Sys.SameFrames.refl _)
  retain id n hc := hc.same sameFrames_retain
  release id n hc := hc.same sameFrames_release

theorem blind : Blind (Unborn o) where
  table _ hc := hc.same (Sys.SameFrames.refl _)
  device d owner hc := hc.same sameFrames_setOwner

end Unborn

/-! ### Creation -/

/-- **What the creation of a buffer leaves**: the pages are as before, and there is at most
one new object, with frames that the allocator has answered. -/
structure Born (s c : Cell) : Prop where
  pages : c.proc.pages = s.proc.pages
  objects : (c.sys.objects = s.sys.objects ∧ c.sys.nextSharedVmId = s.sys.nextSharedVmId) ∨
    ∃ frames, (∀ f ∈ frames, some f ∈ s.sys.answers) ∧
      c.sys.objects = s.sys.objects.insert s.sys.nextSharedVmId ⟨frames, 1⟩ ∧
      c.sys.nextSharedVmId = s.sys.nextSharedVmId + 1

theorem born_allocSharedVmObject {length : ℕ} {s : Cell} :
    Born s (allocSharedVmObject length s).2 := by
  rcases allocSharedVmObject_cases length s with
    ⟨e, hrun⟩ | ⟨n, answers, ⟨-, hrun⟩ | ⟨frames, htake, hrun⟩⟩
  · rw [hrun]
    exact ⟨rfl, Or.inl ⟨rfl, rfl⟩⟩
  · rw [hrun]
    exact ⟨rfl, Or.inl ⟨rfl, rfl⟩⟩
  · rw [hrun]
    refine ⟨rfl, Or.inr ⟨frames, fun f hf => ?_, rfl, rfl⟩⟩
    rw [takeFrames_some htake]
    exact mem_append_left _ (mem_map_of_mem hf)

theorem born_publish {s : Cell} {object : HandleObject} {rights : Rights} :
    Keeps (Born s) (publish object rights) := fun c hc => by
  rcases publish_cases object rights c with hrun | ⟨new, table, -, hrun⟩
  · rwa [hrun]
  · rw [hrun]
    exact ⟨hc.pages, hc.objects⟩

theorem SysCall.born_exec {c : SysCall} (hc : c.creates = true) {s : Cell} :
    Born s (c.exec s).2 := by
  have hsame : Born s s := ⟨rfl, Or.inl ⟨rfl, rfl⟩⟩
  cases c with
  | handleCreateShared len =>
    have halloc : ∀ f : ProcessError → HandleError,
        Born s (mapErr f (allocSharedVmObject len) s).2 := fun f => by
      rw [mapErr_snd]
      exact born_allocSharedVmObject
    rw [exec, done_snd, mapErr_snd, Process.handleCreateShared, get_bind_run, refuse_bind_run]
    cases s.proc.isKernel with
    | true => exact hsame
    | false =>
      rw [if_neg Bool.false_ne_true]
      delta P
      exact after (halloc _) fun id => born_publish
  | sharedVmCreate length =>
    have htail : ∀ id : ℕ, Keeps (Born s) (do
        Prog.modify fun c : Cell =>
          { c with proc := { c.proc with sharedOwned := c.proc.sharedOwned ++ [id] } }
        pure id : P ProcessError ℕ) :=
      fun id => (modify fun c hc => ⟨hc.pages, hc.objects⟩).bind fun _ => pure _
    rw [exec, done_snd, mapErr_snd, createSharedVm, get_bind_run, refuse_bind_run]
    cases s.proc.isKernel || length == 0 with
    | true => exact hsame
    | false =>
      rw [if_neg Bool.false_ne_true]
      delta P
      exact after born_allocSharedVmObject fun id => htail id
  | _ => cases hc

/-! ### Loading -/

/-- The loader maps frames from the allocator only. -/
theorem Watch.loadIntoProcessAddressSpace (F : List UInt64) (dataLen : ℕ)
    (phs : List ProgramHeader) :
    Keeps (Watch (fun _ pg => pg.frame ∉ F) F) (Elf.loadIntoProcessAddressSpace dataLen phs) := by
  have hensure : ∀ virt flags, Keeps (Watch (fun _ pg => pg.frame ∉ F) F)
      (Elf.ensureProcessPage virt flags) := by
    intro virt flags
    refine Keeps.get.bind fun s => (Keeps.ofExcept _).bind fun r => ?_
    rcases r with _ | ⟨phys, existing⟩
    · exact (Watch.mapUserPage watchable_notMem virt flags).bind fun _ => pure ()
    · exact (Watch.protectUserPage fun _ h => h).bind fun _ => pure ()
  have hsegment : ∀ ph, Keeps (Watch (fun _ pg => pg.frame ∉ F) F)
      (Elf.loadSegmentProcess dataLen ph) := fun ph =>
    (Keeps.refuse _ _).bind fun _ => (Keeps.refuse _ _).bind fun _ => (Keeps.refuse _ _).bind
      fun _ => (Keeps.ofExcept _).bind fun _ => (Keeps.refuse _ _).bind fun _ =>
      forEach fun page _ => hensure page _
  exact (forEach fun ph _ => ite (pure ()) (hsegment ph)).bind fun _ =>
    forEach fun page _ => hensure page _

/-! ### The system -/

namespace System

def framesOf (s : System) (o : ℕ) : List UInt64 :=
  (s.sys.objects[o]?.map fun ob => ob.frames).getD []

/-- Whether the process that an event is about asks for write access without a handle. -/
def grantsWrite (s : System) (p : ProcessId) (o : ℕ) : Event → Bool
  | .call pid c => pid == p &&
    (s.processes[p]?.any fun r => c.grantsWrite o (s.framesOf o) r.proc)
  | _ => false

/-- Whether an event may create a buffer. -/
def Event.creates : Event → Bool
  | .call _ c => c.creates
  | _ => false

/-- The handles of a process to a buffer do not allow to write. -/
def readOnlyHandles (s : System) (p : ProcessId) (o : ℕ) : Bool :=
  s.processes[p]?.all fun r => r.proc.handleTable.readOnlyTo o

/-- Whether none of the frames that the allocator answers is one of a buffer. -/
def freshAnswers (s : System) (answers : List (Option UInt64)) : Bool :=
  answers.all fun a => a.all fun f => s.sys.objects.toList.all fun e => !e.2.frames.contains f

/-- **The steps of the run**: the process holds read-only handles to the buffer at most and
does not ask for write access in another way. The allocator hands out no frame of a buffer,
and none for a new buffer that the process has mapped. -/
structure Admits (p : ProcessId) (o : ℕ) (s : System) (e : Step) : Prop where
  handles : s.readOnlyHandles p o = true
  grant : s.grantsWrite p o e.event = false
  buffers : s.freshAnswers e.answers = true
  unmapped : e.event.creates = true → ∀ f, some f ∈ e.answers → ∀ r m n pg,
    s.processes[p]? = some r → r.proc.pages = some m → m n = some pg → pg.frame ≠ f

theorem freshAnswers_iff {s : System}
    (h : s.freshAnswers answers = true) {f : UInt64} (hf : some f ∈ answers) {id : ℕ}
    {ob : SharedVmObject} (hob : s.sys.objects[id]? = some ob) : f ∉ ob.frames := by
  rw [freshAnswers, List.all_eq_true] at h
  have hall := h _ hf
  rw [Option.all_some, List.all_eq_true] at hall
  simpa using hall (id, ob) (ExtTreeMap.mem_toList_iff_getElem?_eq_some.mpr hob)

/-- The invariant: no other buffer has a frame of the buffer, and no page of the process on
one of them is writable. -/
structure Kept (p : ProcessId) (o : ℕ) (s : System) : Prop where
  ids : ∀ (id : ℕ) (ob : SharedVmObject), s.sys.objects[id]? = some ob → id < s.sys.nextSharedVmId
  alone : ∀ (ob : SharedVmObject), s.sys.objects[o]? = some ob →
    ∀ (id : ℕ) (ob' : SharedVmObject), id ≠ o → s.sys.objects[id]? = some ob' →
      ∀ f ∈ ob'.frames, f ∉ ob.frames
  pages : ∀ (ob : SharedVmObject) r m, s.sys.objects[o]? = some ob → s.processes[p]? = some r →
    r.proc.pages = some m → ∀ n pg, m n = some pg → ReadOnlyOn ob.frames n pg

namespace Kept

variable {p : ProcessId} {o : ℕ} {s : System} {c : Cell}

/-- The frames of the buffer, once it has been created, are apart. -/
theorem apart (h : s.Kept p o)
    (hfresh : s.freshAnswers answers = true) (hold : o < s.sys.nextSharedVmId) :
    Sys.Apart o (s.framesOf o) { s.sys with answers := answers } where
  own ob hob := by
    rw [framesOf, show s.sys.objects[o]? = some ob from hob]
    rfl
  others id ob hne hob f hf hF := by
    rcases ho : s.sys.objects[o]? with _ | ob0
    · rw [framesOf, ho] at hF
      cases hF
    · rw [framesOf, ho] at hF
      exact h.alone ob0 ho id ob hne hob f hf hF
  answers f hf hF := by
    rcases ho : s.sys.objects[o]? with _ | ob0
    · rw [framesOf, ho] at hF
      cases hF
    · rw [framesOf, ho] at hF
      exact freshAnswers_iff hfresh hf ho hF
  old := hold
  ids := h.ids

variable {processes : ExtTreeMap ProcessId Record} {next : ProcessId}

/-- From what is shared, and the pages of the process. -/
theorem of_apart {F : List UInt64} {sys : Sys} (h : sys.Apart o F)
    (hpages : ∀ (r : Record) m, processes[p]? = some r → r.proc.pages = some m →
      ∀ n pg, m n = some pg → ReadOnlyOn F n pg) : Kept p o ⟨processes, next, sys⟩ where
  ids := h.ids
  alone ob hob id ob' hne hob' f hf := by
    rw [h.own ob hob]
    exact h.others id ob' hne hob' f hf
  pages ob r m hob hr hm := by
    rw [h.own ob hob]
    exact hpages r m hr hm

theorem of_unborn (h : Unborn o c) : Kept p o ⟨processes, next, c.sys⟩ where
  ids := h.ids
  alone ob hob := by cases h.absent.symm.trans hob
  pages ob r m hob := by cases h.absent.symm.trans hob

theorem readOnlyOn (h : s.Kept p o) {r : Record} {m : Pages} (hr : s.processes[p]? = some r)
    (hm : r.proc.pages = some m) (n : ℕ) (pg : Page) (hpg : m n = some pg) :
    ReadOnlyOn (s.framesOf o) n pg := by
  rcases ho : s.sys.objects[o]? with _ | ob
  · rw [framesOf, ho]
    intro hmem
    cases hmem
  · rw [framesOf, ho]
    exact h.pages ob r m ho hr hm n pg hpg

variable {pid : ProcessId}

/-- A process is put back after it has worked, or for the first time. -/
theorem put (h : s.Kept p o) (hc : c.sys.Apart o (s.framesOf o)) (alive : Bool)
    (next : ProcessId) (hpages : pid = p → ∀ m, c.proc.pages = some m → ∀ n pg, m n = some pg →
      ReadOnlyOn (s.framesOf o) n pg) :
    Kept p o ⟨s.processes.insert pid ⟨c.proc, alive⟩, next, c.sys⟩ := by
  refine of_apart hc fun r m hr hm => ?_
  rcases of_getElem?_insert hr with ⟨heq, rfl⟩ | ⟨-, hr⟩
  · exact hpages heq m hm
  · exact h.readOnlyOn hr hm

variable {e : Step}

omit s in
/-- A process that is put back with its pages maps what it has mapped. -/
theorem mapped_of_insert {r0 r1 r : Record} {m : Pages} (hr0 : processes[pid]? = some r0)
    (hr : (processes.insert pid r1)[p]? = some r) (hm : r.proc.pages = some m)
    (hpages : r1.proc.pages = r0.proc.pages) :
    ∃ r0 : Record, processes[p]? = some r0 ∧ r0.proc.pages = some m := by
  rcases of_getElem?_insert hr with ⟨rfl, rfl⟩ | ⟨-, hr⟩
  · exact ⟨r0, hr0, hpages ▸ hm⟩
  · exact ⟨r, hr, hm⟩

section

variable (h : s.Kept p o)

include h

/-- A new buffer, with frames that nobody has. -/
theorem born (ha : Admits p o s e) (hcreate : e.event.creates = true)
    (hnext : s.sys.nextSharedVmId ≤ o) {proc : Process} {alive : Bool}
    (hr : s.processes[pid]? = some ⟨proc, alive⟩)
    (hborn : Born ⟨proc, (s.supply e.answers).sys⟩ c) :
    Kept p o ⟨s.processes.insert pid ⟨c.proc, true⟩, s.nextPid, c.sys⟩ := by
  rcases hborn.objects with ⟨hobj, hid⟩ | ⟨frames, hframes, hobj, hid⟩
  · exact of_unborn ⟨hid ▸ hnext, by rw [hobj, hid]; exact h.ids⟩
  · have hids : ∀ (id : ℕ) (ob : SharedVmObject), c.sys.objects[id]? = some ob →
        id < c.sys.nextSharedVmId := by
      rw [hobj, hid]
      exact ids_insert h.ids _
    rcases eq_or_ne s.sys.nextSharedVmId o with rfl | hne
    · have hnew : ∀ ob : SharedVmObject, c.sys.objects[s.sys.nextSharedVmId]? = some ob →
          ob.frames = frames := by
        intro ob hob
        rw [hobj] at hob
        rw [← some.inj (hob.symm.trans getElem?_insert_self).symm]
      refine ⟨hids, fun ob hob id ob' hne hob' f hf hF => ?_,
        fun ob r m hob hr' hm n pg hpg hF => ?_⟩
      · have hob0 : s.sys.objects[id]? = some ob' := by
          rw [← getElem?_insert_of_ne hne.symm]
          exact (congrArg (fun t : ExtTreeMap ℕ SharedVmObject => t[id]?) hobj).symm.trans hob'
        rw [hnew ob hob] at hF
        exact freshAnswers_iff ha.buffers (hframes f hF) hob0 hf
      · rw [hnew ob hob] at hF
        obtain ⟨r0, hr0, hm0⟩ := mapped_of_insert hr hr' hm hborn.pages
        exact absurd rfl (ha.unmapped hcreate pg.frame (hframes _ hF) r0 m n pg hr0 hm0 hpg)
    · exact of_unborn ⟨by rw [hid]; exact Nat.lt_of_le_of_ne hnext hne, hids⟩

theorem call (ha : Admits p o s e) {c : SysCall}
    (he : e.event = .call pid c) : (s.step e).Kept p o := by
  have hsame : (s.supply e.answers).Kept p o := ⟨h.ids, h.alone, h.pages⟩
  rw [step, he]
  change ((s.supply e.answers).onProcess pid c.run true).Kept p o
  rw [onProcess]
  split
  swap
  · exact hsame
  next proc hr =>
  rcases c.run_cases ⟨proc, (s.supply e.answers).sys⟩ with hrun | ⟨res, -, hexec⟩
  · -- The record of the process is what it was.
    have hback : (s.supply e.answers).processes.insert pid ⟨proc, true⟩ = s.processes :=
      insert_of_getElem? hr
    simp only [hrun, hback]
    exact hsame
  have hcell : c.run ⟨proc, (s.supply e.answers).sys⟩ =
      (c.exec ⟨proc, (s.supply e.answers).sys⟩).2 := by rw [hexec]
  simp only [hcell]
  by_cases hold : o < s.sys.nextSharedVmId
  · have hapart := h.apart ha.buffers hold
    rcases eq_or_ne pid p with rfl | hne
    · have hgrant := ha.grant
      have hro := ha.handles
      have hr' : s.processes[pid]? = some ⟨proc, true⟩ := hr
      rw [he, grantsWrite, beq_self_eq_true, Bool.true_and, hr', Option.any_some] at hgrant
      rw [readOnlyHandles, hr', Option.all_some] at hro
      have hw := c.watched_exec (s := ⟨proc, (s.supply e.answers).sys⟩)
        ⟨hapart, fun m hm => h.readOnlyOn hr hm⟩ hro hgrant
      exact h.put hw.apart true s.nextPid fun _ => hw.pages
    · have hw := c.apart_exec (s := ⟨proc, (s.supply e.answers).sys⟩)
        ⟨hapart, fun _ _ _ _ _ => trivial⟩
      exact h.put hw.apart true s.nextPid fun heq => absurd heq hne
  · have hunborn : Unborn o ⟨proc, (s.supply e.answers).sys⟩ := ⟨Nat.not_lt.mp hold, h.ids⟩
    cases hcreate : c.creates with
    | true =>
      exact h.born ha (by rw [he]; exact hcreate) (Nat.not_lt.mp hold) hr (c.born_exec hcreate)
    | false =>
      refine of_unborn (Unborn.stable.exec_of_not_creates Unborn.blind (fun _ _ _ _ => trivial)
        (fun _ _ _ _ _ => trivial) (fun _ _ _ _ _ => trivial) c hunborn fun htrue => ?_)
      rw [hcreate] at htrue
      cases htrue

theorem spawn
    (hfresh : s.freshAnswers answers = true) (dataLen : ℕ) (phs : List ProgramHeader) :
    ((s.supply answers).spawn dataLen phs).Kept p o := by
  have hunmapped : ∀ m : Pages, (new s.nextPid).pages = some m → ∀ n pg, m n ≠ some pg := by
    intro m hm n pg hpg
    rw [← some.inj hm] at hpg
    cases hpg
  by_cases hold : o < s.sys.nextSharedVmId
  · have hload := (Watched.stable watchable_notMem).prepareProcessElf
      (fun page => .mapUserPage watchable_notMem page _)
      (.loadIntoProcessAddressSpace (s.framesOf o) dataLen phs)
      ⟨new s.nextPid, (s.supply answers).sys⟩
      ⟨h.apart hfresh hold, fun m hm n pg hpg => absurd hpg (hunmapped m hm n pg)⟩
    rw [System.spawn]
    split
    · next hrun =>
      rw [show (s.supply answers).nextPid = s.nextPid from rfl] at hrun
      rw [hrun] at hload
      exact h.put hload.apart true _ fun _ m hm n pg hpg hmem =>
        absurd hmem (hload.pages m hm n pg hpg)
    · next c hrun =>
      rw [show (s.supply answers).nextPid = s.nextPid from rfl] at hrun
      rw [hrun] at hload
      exact of_apart (hload.apart.same sameFrames_releaseVmResources) fun r m hr hm =>
        h.readOnlyOn hr hm
  · have hload : Unborn o (Elf.prepareProcessElf dataLen phs
        ⟨new s.nextPid, (s.supply answers).sys⟩).2 :=
      Unborn.stable.prepareProcessElf (fun _ _ _ => trivial) (fun _ _ => trivial)
        ⟨new s.nextPid, (s.supply answers).sys⟩ ⟨Nat.not_lt.mp hold, h.ids⟩
    rw [System.spawn]
    split
    · next hrun =>
      rw [show (s.supply answers).nextPid = s.nextPid from rfl] at hrun
      rw [hrun] at hload
      exact of_unborn hload
    · next c hrun =>
      rw [show (s.supply answers).nextPid = s.nextPid from rfl] at hrun
      rw [hrun] at hload
      exact of_unborn (hload.same
        sameFrames_releaseVmResources)

/-- What is shared changes in its counts only, and the process maps nothing new. -/
theorem same {sys : Sys} (hsys : Sys.SameFrames s.sys sys)
    (hpages : ∀ (r : Record) m, processes[p]? = some r → r.proc.pages = some m →
      ∃ r0, s.processes[p]? = some r0 ∧ r0.proc.pages = some m) :
    Kept p o ⟨processes, next, sys⟩ := by
  refine ⟨fun id ob hob => ?_, fun ob hob id ob' hne hob' f hf => ?_, fun ob r m hob hr hm => ?_⟩
  · obtain ⟨ob0, hob0, -⟩ := hsys.2.2 id ob hob
    exact hsys.1 ▸ h.ids id ob0 hob0
  · obtain ⟨ob0, hob0, hF⟩ := hsys.2.2 o ob hob
    obtain ⟨ob1, hob1, hF'⟩ := hsys.2.2 id ob' hob'
    rw [hF]
    exact h.alone ob0 hob0 id ob1 hne hob1 f (hF' ▸ hf)
  · obtain ⟨ob0, hob0, hF⟩ := hsys.2.2 o ob hob
    obtain ⟨r0, hr0, hm0⟩ := hpages r m hr hm
    rw [hF]
    exact h.pages ob0 r0 m hob0 hr0 hm0

theorem transfer (pid : ProcessId) (handle : Handle) (target : ProcessId) :
    (s.transfer pid handle target).Kept p o := by
  rcases s.transfer_cases pid handle target with
    hsame | ⟨proc, entry, table, r, new, table', hproc, -, -, hr, -, heq⟩
  · rwa [hsame]
  · rw [heq]
    refine h.same (Sys.SameFrames.refl _) fun r' m hr' hm => ?_
    obtain ⟨r1, hr1, hm1⟩ := mapped_of_insert hr hr' hm rfl
    exact mapped_of_insert hproc hr1 hm1 rfl

theorem finish (pid : ProcessId) : (s.onProcess pid releaseVmResources false).Kept p o := by
  rw [onProcess]
  split
  · next proc hr =>
    refine h.same sameFrames_releaseVmResources fun r m hr' hm => ?_
    rcases of_getElem?_insert hr' with ⟨-, rfl⟩ | ⟨-, hr'⟩
    · cases hm
    · exact ⟨r, hr', hm⟩
  · exact h

theorem reap (pid : ProcessId) : (s.reap pid).Kept p o := by
  rw [System.reap]
  rcases hr : s.processes[pid]? with _ | r0
  · exact h
  · refine h.same sameFrames_releaseVmResources fun r m hr' hm => ?_
    exact ⟨r, (of_getElem?_erase hr').2, hm⟩

theorem step (ha : Admits p o s e) : (s.step e).Kept p o := by
  have hsame : (s.supply e.answers).Kept p o := ⟨h.ids, h.alone, h.pages⟩
  cases hev : e.event with
  | call => exact h.call ha hev
  | spawn dataLen phs =>
    rw [System.step, hev]
    exact h.spawn ha.buffers dataLen phs
  | transfer pid handle target =>
    rw [System.step, hev]
    exact hsame.transfer pid handle target
  | finish pid =>
    rw [System.step, hev]
    exact hsame.finish pid
  | reap pid =>
    rw [System.step, hev]
    exact hsame.reap pid

end

end Kept

end System

/-- **The mappings are read-only**: no page of the process on a frame of the buffer is
present and writable. -/
def ReadOnlyMappings (p : ProcessId) (o : ℕ) (s : System) : Prop :=
  ∀ (ob : SharedVmObject) (r : Record) m n pg, s.sys.objects[o]? = some ob →
    s.processes[p]? = some r → r.proc.pages = some m → m n = some pg → pg.frame ∈ ob.frames →
    ¬(pg.flags.contains .present = true ∧ pg.flags.contains .writable = true)

theorem kept_boot {p : ProcessId} {o : ℕ} : boot.Kept p o := by
  refine ⟨fun id ob hob => ?_, fun ob hob => ?_, fun ob r m hob => ?_⟩ <;>
    rw [boot, ExtTreeMap.getElem?_empty] at hob <;> cases hob

/-- **A read-only capability stays read-only** in every run in which the process asks for
write access to the buffer neither through `mprotect` nor through `shared_vm_map`. -/
theorem read_only_of_no_grant {p : ProcessId} {o : ℕ} {steps : List System.Step}
    (h : Along (System.Admits p o) System.step System.boot steps) :
    ReadOnlyMappings p o (steps.foldl System.step System.boot) := by
  have hkept := Along.foldl (fun _ _ hs hok => hs.step hok) h kept_boot
  rintro ob r m n pg hob hr hm hpg hmem ⟨-, hw⟩
  rw [hkept.pages ob r m hob hr hm n pg hpg hmem] at hw
  cases hw

/-- A buffer is shared read-only: the first process creates it, narrows the rights of a
duplicate and passes that on to the second, which maps the buffer. -/
def shareReadOnly : List System.Step :=
  [⟨.spawn 0 [], stackAnswers 1⟩, ⟨.call 1 (.handleCreateShared 4096), [some 0x100000]⟩,
    ⟨.call 1 (.handleDup 1 (rightRead ||| rightMap ||| rightTransfer)), []⟩,
    ⟨.spawn 0 [], stackAnswers 17⟩, ⟨.transfer 1 2 2, []⟩,
    ⟨.call 2 (.handleMap 1 0 4096), [some 0x200000]⟩]

/-- What a page of a process is mapped to: the frame, and whether it is present and
writable. -/
def System.mappingAt (s : System) (p : ProcessId) (n : ℕ) : Option (UInt64 × Bool × Bool) :=
  (s.processes[p]?.bind fun r => r.proc.pages.bind fun m => m n).map fun pg =>
    (pg.frame, pg.flags.contains .present, pg.flags.contains .writable)

theorem read_only_of_no_grant_shareReadOnly :
    (shareReadOnly.foldl System.step System.boot).mappingAt 2 0x1000000 =
        some (0x100000, true, false) ∧
      ReadOnlyMappings 2 1 (shareReadOnly.foldl System.step System.boot) := by
  have hgone : ∀ {s : System}, s.processes[2]?.isNone = true → ∀ r, s.processes[2]? ≠ some r := by
    intro s hs r hr
    rw [hr] at hs
    cases hs
  refine ⟨by decide +kernel, read_only_of_no_grant ⟨⟨?_, ?_, ?_, nofun⟩, ⟨?_, ?_, ?_, ?_⟩,
    ⟨?_, ?_, ?_, nofun⟩, ⟨?_, ?_, ?_, nofun⟩, ⟨?_, ?_, ?_, nofun⟩, ⟨?_, ?_, ?_, nofun⟩, trivial⟩⟩
  all_goals first
    | decide +kernel
    | exact fun _ f _ r m n pg hr => absurd hr (hgone (by decide +kernel) r)

/-- After that the second process changes the access to the page. -/
def shareThenProtect : List System.Step :=
  shareReadOnly ++ [⟨.call 2 (.mprotect userMmapBase 4096 3), []⟩]

/-- **`mprotect` makes a buffer writable** for a process that has never held a handle with
the right to write. -/
theorem mprotect_makes_buffer_writable :
    ((List.range (shareThenProtect.length + 1)).all fun k =>
        ((shareThenProtect.take k).foldl System.step System.boot).readOnlyHandles 2 1) = true ∧
      ¬ReadOnlyMappings 2 1 (shareThenProtect.foldl System.step System.boot) := by
  refine ⟨by decide +kernel, fun hro => ?_⟩
  generalize hs : shareThenProtect.foldl step boot = s at hro
  have hmap : s.mappingAt 2 0x1000000 = some (0x100000, true, true) := by
    rw [← hs]
    decide +kernel
  have hob : s.sys.objects[1]?.map (fun ob => ob.frames) = some [0x100000] := by
    rw [← hs]
    decide +kernel
  rw [mappingAt, map_eq_some_iff] at hmap
  obtain ⟨pg, hpg, hflags⟩ := hmap
  obtain ⟨r, hr, hbind⟩ := bind_eq_some_iff.mp hpg
  obtain ⟨m, hm, hn⟩ := bind_eq_some_iff.mp hbind
  obtain ⟨ob, hob, hframes⟩ := map_eq_some_iff.mp hob
  obtain ⟨hframe, haccess⟩ := Prod.mk.inj hflags
  refine hro ob r m _ pg hob hr hm hn ?_ (Prod.mk.inj haccess)
  rw [hframes, hframe]
  exact mem_singleton_self _

end DunitOS.Kernel
