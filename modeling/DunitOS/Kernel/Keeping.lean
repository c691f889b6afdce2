import DunitOS.Kernel.System

/-!
# What the memory calls keep

The calls that map memory touch a process in few ways: they work on the address space, they
change the books of the process, and they create, retain and release shared buffers. A
property of a process and what is shared that none of these breaks (`Stable`)
is kept by every such call, as long as the pages that the call maps are harmless. The
lemmas here go through the calls once, for any such property; the property of the address
space that goes with it is a parameter as well.
-/

namespace DunitOS.Kernel

open SysLib Memory Prog List Process Space

variable {I : Cell → Prop}

/-- **A property that the memory calls keep**, with the property of address spaces that has
to be kept for it. -/
structure Stable (J : Space → Prop) (I : Cell → Prop) : Prop where
  onSpace : ∀ {α : Type} {m : Space.M α}, Keeps J m → Keeps I (onSpace m)
  unmap : ∀ page, Keeps J (unmapUserPage page)
  /-- Access to a page is taken away. -/
  bar : ∀ page, Keeps J (protectUserPage page .noExecute false)
  /-- The books of a process: all but its pages and handles. -/
  record : ∀ {c : Cell} {p : Process}, p.pid = c.proc.pid → p.pages = c.proc.pages →
    p.handleTable = c.proc.handleTable → I c → I ⟨p, c.sys⟩
  retain : ∀ {c : Cell} (id n : ℕ), I c → I ⟨c.proc, c.sys.sharedVmRetain id n⟩
  release : ∀ {c : Cell} (id n : ℕ), I c → I ⟨c.proc, c.sys.sharedVmRelease id n⟩

/-- A property that the creation of a shared buffer keeps. -/
structure Creates (I : Cell → Prop) : Prop where
  /-- A new shared buffer. -/
  alloc : ∀ {c : Cell} {n : ℕ} {frames : List UInt64} {answers : List (Option UInt64)},
    Sys.takeFrames n c.sys.answers = (some frames, answers) → I c →
      I (created c frames answers)
  /-- The frames did not suffice for one. -/
  short : ∀ {c : Cell} {n : ℕ} {answers : List (Option UInt64)},
    Sys.takeFrames n c.sys.answers = (none, answers) → I c →
      I ⟨c.proc, { c.sys with answers := answers }⟩

/-- A property that does not depend on the handles of the process or on who owns the
devices. -/
structure Blind (I : Cell → Prop) : Prop where
  table : ∀ {c : Cell} (t : HandleTable), I c → I (withTable c t)
  device : ∀ {c : Cell} (d : Device) (owner : ProcessId), I c → I ⟨c.proc, c.sys.setOwner d owner⟩

/-! ### Any property -/

variable {present : Bool} {flags : PageFlags}

section

variable {σ ε ε' α : Type}
variable {J : Space → Prop}

theorem mapErr_snd (f : ε → ε') (m : Prog σ ε α) (s : σ) : (mapErr f m s).2 = (m s).2 := by
  rw [mapErr]
  rcases m s with ⟨e | a, t⟩ <;> rfl

theorem done_snd (m : P ε α) (s : Cell) : (done m s).2 = (m s).2 := by
  rw [done]
  rcases hrun : m s with ⟨e | a, t⟩
  · rw [bind_error hrun]
  · rw [bind_ok hrun]
    rfl

theorem keeps_mapErr {I : σ → Prop} {f : ε → ε'} {m : Prog σ ε α} (h : Keeps I m) :
    Keeps I (mapErr f m) := fun s hs => by
  rw [mapErr_snd]
  exact h s hs

variable {I : Cell → Prop}

theorem keeps_done {m : P ε α} (h : Keeps I m) : Keeps I (done m) :=
  h.bind fun _ => .pure ()

theorem keeps_asRange (r : Except AddressSpaceError α) : Keeps I (asRange r) := by
  cases r with
  | error => exact .stop _
  | ok a => exact .pure a

theorem keeps_mapAll {one : ℕ → Space.M Unit} (h : ∀ page, Keeps J (one page))
    (hun : ∀ page, Keeps J (unmapUserPage page)) (rest done : List ℕ) :
    Keeps J (mapAll one done rest) := by
  induction rest generalizing done with
  | nil => exact .pure ()
  | cons page rest ih =>
    intro s hs
    have hone := h page s hs
    rcases hrun : one page s with ⟨e | a, t⟩
    · -- The pages mapped so far are taken away again.
      rw [hrun] at hone
      simp only [mapAll, hrun]
      exact foldl_induct (fun t p ht => hun p t ht) done hone
    · rw [hrun] at hone
      simp only [mapAll, hrun]
      exact ih _ t hone

theorem keeps_protectAll {pages : List ℕ}
    (h : ∀ page ∈ pages, Keeps J (protectUserPage page flags present)) :
    Keeps J (protectAll flags present pages) :=
  Keeps.forEach fun page hpage => (h page hpage).bind fun _ => .pure ()

theorem keeps_anyMapped (pages : List ℕ) : Keeps J (anyMapped pages) :=
  fun _ hs => hs

theorem keeps_allMapped (pages : List ℕ) : Keeps J (allMapped pages) :=
  fun _ hs => hs

end

theorem Creates.allocSharedVmObject (C : Creates I) (length : ℕ) :
    Keeps I (allocSharedVmObject length) := by
  refine (Keeps.ofExcept _).bind fun length => (Keeps.refuse _ _).bind fun _ =>
    Keeps.get_bind fun c hc => ?_
  rcases htake : Sys.takeFrames (length / pageSize) c.sys.answers with ⟨_ | frames, answers⟩
  · exact C.short htake hc
  · exact C.alloc htake hc

namespace Stable

variable {J : Space → Prop} {I : Cell → Prop} (S : Stable J I)

include S

theorem modify {ε : Type} {g : Cell → Process} (h : ∀ c, (g c).pid = c.proc.pid ∧
    (g c).pages = c.proc.pages ∧ (g c).handleTable = c.proc.handleTable) :
    Keeps I (Prog.modify fun c => ⟨g c, c.sys⟩ : P ε Unit) :=
  Keeps.modify fun c hc => S.record (h c).1 (h c).2.1 (h c).2.2 hc

theorem protectPages (pages : List ℕ) : Keeps I (Process.protectPages pages) :=
  (S.onSpace (keeps_protectAll fun page _ => S.bar page)).bind keeps_asRange

theorem sealMapping (start stop mapLength : ℕ) (guarded accessible : Bool) :
    Keeps I (Process.sealMapping start stop mapLength guarded accessible) :=
  (Keeps.when (S.protectPages _)).bind fun _ =>
    (Keeps.when ((S.protectPages _).bind fun _ => S.modify (by intro; exact ⟨rfl, rfl, rfl⟩))).bind
      fun _ => .pure _

variable {executable writable : Bool}

theorem mapAnonymous (addr length : ℕ) (guarded accessible : Bool)
    (h : ∀ page, Keeps J (mapUserPage page (pageFlags writable executable))) :
    Keeps I (Process.mapAnonymous addr length writable executable guarded accessible) := by
  have hmap : ∀ pages : List ℕ, Keeps J (mapAll (fun page => do
      let _ ← mapUserPage page (pageFlags writable executable)) [] pages) :=
    fun pages => keeps_mapAll (fun page => (h page).bind fun _ => .pure ()) S.unmap pages []
  exact Keeps.get.bind fun c => (Keeps.refuse _ _).bind fun _ => (Keeps.ofExcept _).bind fun _ =>
    (Keeps.refuse _ _).bind fun _ => (Keeps.refuse _ _).bind fun _ =>
    (S.onSpace (keeps_anyMapped _)).bind fun _ => (Keeps.refuse _ _).bind fun _ =>
    (S.onSpace (hmap _)).bind fun _ => (Keeps.refuse _ _).bind fun _ =>
    (Keeps.when (S.modify (by intro; exact ⟨rfl, rfl, rfl⟩))).bind fun _ => S.sealMapping _ _ _ _ _

theorem createSharedVm (C : Creates I) (length : ℕ) : Keeps I (Process.createSharedVm length) :=
  Keeps.get.bind fun _ => (Keeps.refuse _ _).bind fun _ => (C.allocSharedVmObject length).bind
    fun _ => (S.modify (by intro; exact ⟨rfl, rfl, rfl⟩)).bind fun _ => .pure _

theorem closeSharedVm (id : ℕ) : Keeps I (Process.closeSharedVm id) := by
  refine Keeps.get.bind fun c => ?_
  rcases c.proc.sharedOwned.idxOf? id with _ | index
  · exact Keeps.stop _
  · exact Keeps.modify fun c hc =>
      S.record (c := ⟨c.proc, c.sys.sharedVmRelease id 1⟩) rfl rfl rfl (S.release id 1 hc)

theorem releaseAndStop {α : Type} (id count : ℕ) (e : ProcessError) :
    Keeps I (Process.releaseAndStop id count e : P ProcessError α) :=
  (Keeps.modify fun _ hc => S.release id count hc).bind fun _ => Keeps.stop _

theorem mapFrames {frames : List (ℕ × UInt64)}
    (h : ∀ page, ∀ e ∈ frames, Keeps J (mapUserFrame page e.2 flags)) :
    Keeps J (Process.mapFrames flags frames) := by
  refine keeps_mapAll (fun page => Keeps.get.bind fun s => (Keeps.refuse _ _).bind fun _ => ?_)
    S.unmap _ _
  rcases hlook : frames.lookup page with _ | frame
  · exact Keeps.pure ()
  · obtain ⟨l1, l2, rfl, -⟩ := lookup_eq_some_iff.mp hlook
    exact h page (page, frame) (mem_append_right _ mem_cons_self)

theorem mapSharedVm {id addr : ℕ}
    (h : ∀ c object, I c → c.sys.objects[id]? = some object → ∀ page, ∀ frame ∈ object.frames,
      Keeps J (mapUserFrame page frame (pageFlags writable false))) :
    Keeps I (Process.mapSharedVm id addr writable) := by
  refine Keeps.get_bind fun c hc => ?_
  refine (Keeps.refuse _ _).bind (fun _ => ?_) c hc
  rcases hobj : c.sys.objects[id]? with _ | object
  · exact Keeps.stop _
  · refine (Keeps.modify fun _ hs => S.retain id _ hs).bind fun _ =>
      Keeps.ite (S.releaseAndStop _ _ _) (Keeps.ite (S.releaseAndStop _ _ _) ?_)
    refine (S.onSpace (S.mapFrames fun page e he => ?_)).bind fun mapped => ?_
    · exact h c object hc hobj page e.2 (of_mem_zip he).2
    · cases mapped with
      | error => exact S.releaseAndStop _ _ _
      | ok _ => exact (S.modify (by intro; exact ⟨rfl, rfl, rfl⟩)).bind fun _ => Keeps.pure _

theorem unmapOne (page : ℕ) : Keeps I (Process.unmapOne page) := by
  refine (S.onSpace (S.unmap page)).bind fun r => (keeps_asRange r).bind fun _ =>
    Keeps.get.bind fun c => ?_
  rcases c.proc.sharedPages[page]? with _ | id
  · exact .pure ()
  · exact .modify fun c hc =>
      S.record (c := ⟨c.proc, c.sys.sharedVmRelease id 1⟩) rfl rfl rfl (S.release id 1 hc)

theorem unmapRange (start length : ℕ) : Keeps I (Process.unmapRange start length) := by
  refine (Keeps.ofExcept _).bind fun stop => Keeps.get.bind fun c => ?_
  rcases guardOf start stop c.proc.guardRegions.toList with _ | guard
  · exact Keeps.stop _
  · refine (S.onSpace (keeps_allMapped _)).bind fun _ => (Keeps.refuse _ _).bind fun _ =>
      (Keeps.forEach fun page _ => S.unmapOne page).bind fun _ => ?_
    rcases guard with _ | ⟨usable, len⟩
    · exact Keeps.pure ()
    · exact (S.onSpace (S.unmap _)).bind fun _ => (S.onSpace (S.unmap _)).bind fun _ =>
        S.modify (by intro; exact ⟨rfl, rfl, rfl⟩)

theorem protectRange (start length : ℕ)
    (h : ∀ stop, vmRangeEnd start length = .ok stop → ∀ page ∈ pagesOf start stop, Keeps J
      (protectUserPage page (pageFlags writable executable) present)) :
    Keeps I (Process.protectRange start length writable executable present) :=
  Keeps.ofExcept_bind fun stop hstop => Keeps.get.bind fun _ => (Keeps.refuse _ _).bind fun _ =>
    (S.onSpace (keeps_allMapped _)).bind fun _ => (Keeps.refuse _ _).bind fun _ =>
    (S.onSpace (keeps_protectAll (h stop hstop))).bind keeps_asRange

section

variable (hdata : ∀ page, Keeps J (mapUserPage page (pageFlags true false)))

include hdata

theorem allocateTlsInstance : Keeps I Process.allocateTlsInstance :=
  Keeps.get.bind fun _ => Keeps.ite (Keeps.pure _) ((Keeps.ofExcept _).bind fun _ =>
    (S.mapAnonymous _ _ _ _ hdata).bind fun _ => .pure _)

theorem installTlsTemplate (imageLen memSize align : ℕ) :
    Keeps I (Process.installTlsTemplate imageLen memSize align) :=
  (Keeps.refuse _ _).bind fun _ => (S.modify (by intro; exact ⟨rfl, rfl, rfl⟩)).bind fun _ =>
    (S.allocateTlsInstance hdata).bind fun _ => .pure _

theorem installInitialTls (dataLen : ℕ) (phs : List ProgramHeader) :
    Keeps I (Elf.installInitialTls dataLen phs) := by
  rw [Elf.installInitialTls]
  generalize phs.filter (fun ph => ph.pType == ptTls) = headers
  rcases headers with _ | ⟨ph, _ | ⟨_, _⟩⟩
  · exact .pure ()
  · exact (Keeps.ofExcept _).bind fun _ => S.installTlsTemplate hdata _ _ _
  · exact .stop _

theorem prepareProcessElf {dataLen : ℕ} {phs : List ProgramHeader}
    (h : Keeps J (Elf.loadIntoProcessAddressSpace dataLen phs)) :
    Keeps I (Elf.prepareProcessElf dataLen phs) :=
  (S.onSpace h).bind fun r => (keeps_asRange r).bind fun _ => S.installInitialTls hdata dataLen phs

theorem createUserThread (taken : Bool) : Keeps I (Kernel.createUserThread taken) :=
  (keeps_mapErr (S.allocateTlsInstance hdata)).bind fun r => .ite (.pure ())
    ((Keeps.when (Keeps.modify fun c hc => S.unmapRange r.1 r.2 c hc)).bind fun _ => Keeps.stop _)

end

/-- **`mmap`**, once the access asked for is found to be possible. -/
theorem sysMmap (addr length : ℕ) {prot : UInt32} (flags : UInt32) (file : Backing) (offset : ℕ)
    (h : badProt prot = false → ∀ page, Keeps J (mapUserPage page
      (pageFlags (prot &&& protWrite != 0) (prot &&& protExec != 0)))) :
    Keeps I (Kernel.sysMmap addr length prot flags file offset) := by
  refine Keeps.refuse_bind fun hok => ?_
  rw [Bool.or_eq_false_iff, Bool.or_eq_false_iff] at hok
  have hmap := h hok.1.2
  refine Keeps.ite ?_ ?_
  · exact (Keeps.refuse _ _).bind fun _ => keeps_mapErr (S.mapAnonymous _ _ _ _ hmap)
  · refine (Keeps.refuse _ _).bind fun _ => (Keeps.refuse _ _).bind fun _ =>
      (Keeps.refuse _ _).bind fun _ => (keeps_mapErr (S.mapAnonymous _ _ _ _ hmap)).bind fun base =>
      Keeps.ite ?_ (Keeps.pure _)
    exact (Keeps.modify fun c hc => S.unmapRange base length c hc).bind fun _ => Keeps.stop _

end Stable

/-! ### Calls on handles -/

namespace Blind

variable {J : Space → Prop} {I : Cell → Prop} (B : Blind I)

include B

theorem publish (object : HandleObject) (rights : Rights) :
    Keeps I (Process.publish object rights) := fun c hc => by
  rcases publish_cases object rights c with hrun | ⟨new, table, -, hrun⟩
  · rwa [hrun]
  · rw [hrun]
    exact B.table table hc

theorem handleCreateShared (C : Creates I) (len : ℕ) : Keeps I (Process.handleCreateShared len) :=
  Keeps.get.bind fun _ => (Keeps.refuse _ _).bind fun _ =>
    (keeps_mapErr (C.allocSharedVmObject len)).bind fun _ => B.publish _ _

theorem handleAcquire (d : Device) : Keeps I (Process.handleAcquire d) := by
  refine Keeps.get.bind fun c => ?_
  rcases Sys.tryAcquire (c.sys.owner d) c.proc.pid with _ | owner
  · exact Keeps.stop _
  · exact (Keeps.modify fun c hc => B.device d owner hc).bind fun _ => B.publish _ _

variable (S : Stable J I)

include S

theorem handleDup (handle : Handle) (rights : Rights) :
    Keeps I (Process.handleDup handle rights) := fun c hc => by
  rcases handleDup_cases rights handle c with
    ⟨e, hrun⟩ | ⟨entry, new, table, -, -, -, hrun⟩
  · rwa [hrun]
  · rw [hrun]
    have htable := B.table table hc
    cases entry.object with
    | sharedFrames id => exact S.retain id 1 htable
    | _ => exact htable

theorem dropObject (pid : ProcessId) (object : HandleObject) {c : Cell} (hc : I c) :
    I ⟨c.proc, Process.dropObject pid c.sys object⟩ := by
  cases object with
  | display => exact B.device .display _ hc
  | input => exact B.device .input _ hc
  | sharedFrames id => exact S.release id 1 hc
  | _ => exact hc

theorem handleClose (handle : Handle) : Keeps I (Process.handleClose handle) := fun c hc => by
  rcases handleClose_cases handle c with ⟨e, hrun⟩ | ⟨entry, table, -, hrun⟩
  · rwa [hrun]
  · rw [hrun]
    exact B.dropObject S c.proc.pid entry.object (B.table table hc)

end Blind

/-- The calls that create a shared buffer, map one or change the access to pages. -/
def SysCall.isDelicate : SysCall → Bool
  | .handleCreateShared _ | .sharedVmCreate _ | .handleMap .. | .sharedVmMap .. | .mprotect .. =>
    true
  | _ => false

variable {s : Cell} {J : Space → Prop}

/-- **The other calls** keep what does not depend on handles. -/
theorem Stable.exec (S : Stable J I) (B : Blind I)
    (hmap : ∀ page writable executable, ¬(writable = true ∧ executable = true) →
      Keeps J (mapUserPage page (pageFlags writable executable)))
    (c : SysCall) (hs : I s) (hdelicate : c.isDelicate = true → I (c.exec s).2) :
    I (c.exec s).2 := by
  have hdata := fun page => hmap page true false (by decide)
  cases c with
  | handleCreateMemory =>
    exact keeps_done (keeps_mapErr ((Keeps.refuse _ _).bind fun _ => B.publish _ _)) s hs
  | handleCreateEndpoint => exact keeps_done (keeps_mapErr (B.publish _ _)) s hs
  | handleDup handle rights => exact keeps_done (keeps_mapErr (B.handleDup S handle rights)) s hs
  | handleClose handle => exact keeps_mapErr (B.handleClose S handle) s hs
  | handleDisplayAcquire => exact keeps_done (keeps_mapErr (B.handleAcquire .display)) s hs
  | handleInputAcquire => exact keeps_done (keeps_mapErr (B.handleAcquire .input)) s hs
  | sharedVmClose id => exact keeps_mapErr (S.closeSharedVm id) s hs
  | mmap addr length prot flags file offset =>
    exact keeps_done (S.sysMmap addr length flags file offset fun hok page =>
      hmap page _ _ (not_both_of_badProt hok)) s hs
  | munmap addr length => exact keeps_mapErr (S.unmapRange addr length) s hs
  | threadCreate taken => exact S.createUserThread hdata taken s hs
  | threadJoin base length => exact keeps_mapErr (S.unmapRange base length) s hs
  | handleCreateShared | sharedVmCreate | handleMap | sharedVmMap | mprotect => exact hdelicate rfl

/-- The calls that create a shared buffer. -/
def SysCall.creates : SysCall → Bool
  | .handleCreateShared _ | .sharedVmCreate _ => true
  | _ => false

/-- **All calls but the creation of buffers** keep what does not depend on handles, if no page
matters. -/
theorem Stable.exec_of_not_creates (S : Stable J I)
    (B : Blind I) (hpage : ∀ page flags, Keeps J (mapUserPage page flags))
    (hframe : ∀ page frame flags, Keeps J (mapUserFrame page frame flags))
    (hprotect : ∀ page flags present, Keeps J (protectUserPage page flags present))
    (c : SysCall) (hs : I s) (hcreate : c.creates = true → I (c.exec s).2) :
    I (c.exec s).2 := by
  have hshared : ∀ id addr writable, Keeps I (Process.mapSharedVm id addr writable) :=
    fun _ _ _ => S.mapSharedVm fun _ _ _ _ page frame _ => hframe page frame _
  refine S.exec B (fun page _ _ _ => hpage page _) c hs fun hdelicate => ?_
  cases c with
  | handleCreateShared | sharedVmCreate => exact hcreate rfl
  | handleMap handle =>
    refine keeps_done (keeps_mapErr (Keeps.get.bind fun c => ?_)) s hs
    rcases c.proc.handleTable.require handle rightMap with e | ⟨_ | _ | _ | _ | id, rights⟩
    · exact Keeps.stop _
    · exact keeps_mapErr (S.mapAnonymous _ _ _ _ fun page => hpage page _)
    · exact Keeps.stop _
    · exact Keeps.stop _
    · exact Keeps.stop _
    · exact keeps_mapErr (hshared _ _ _)
  | sharedVmMap =>
    exact keeps_done ((Keeps.refuse _ _).bind fun _ => keeps_mapErr (hshared _ _ _)) s hs
  | mprotect =>
    exact (Keeps.refuse _ _).bind (fun _ => keeps_mapErr (S.protectRange _ _
      fun _ _ page _ => hprotect page _ _)) s hs
  | _ => cases hdelicate

end DunitOS.Kernel
