import DunitOS.Kernel.Keeping

/-!
# The display and the input are exclusive

There is one owner of the display and one of the input, a word each; what a process holds is
handles. A process should hold a handle to a device if and only if it is the owner
(`Exclusive`). Handles to a device can neither be duplicated nor passed on,
but the owner may acquire the device once more and then has two of them. To close one makes
the device free while the other is still there, and the next process to ask for it becomes
an owner besides (`two_holders_of_the_display`).

When nobody acquires what they hold already there is one handle to each device that has an
owner, it is the owner's, and the two never part
(`exclusive_of_firstAcquire`).
-/

namespace DunitOS.Kernel

open SysLib Std Memory Prog Option Process Kernel.System Sys HandleTable System Nat Keeps

/-! ### Owners -/

namespace Sys

theorem owner_setOwner (s : Sys) (d d' : Device) (o : ProcessId) :
    (s.setOwner d o).owner d' = if d' = d then o else s.owner d' := by
  cases d <;> cases d' <;> rfl

@[simp] theorem owner_sharedVmRetain {s : Sys} {id n : ℕ} {d : Device} :
    (s.sharedVmRetain id n).owner d = s.owner d := by
  cases d <;> rfl

@[simp] theorem owner_sharedVmRelease {s : Sys} (id n : ℕ) {d : Device} :
    (s.sharedVmRelease id n).owner d = s.owner d := by
  rw [sharedVmRelease]
  split
  · rfl
  · split <;> cases d <;> rfl

end Sys

namespace Process

theorem owner_dropObject (pid : ProcessId) (s : Sys) (object : HandleObject) (d : Device) :
    (dropObject pid s object).owner d =
      if object = d.object then Sys.release (s.owner d) pid else s.owner d := by
  cases object with
  | sharedFrames =>
    rw [dropObject, owner_sharedVmRelease]
    cases d <;> rfl
  | display | input | memory | endpoint => cases d <;> rfl

theorem release_release (owner pid : ProcessId) :
    Sys.release (Sys.release owner pid) pid = Sys.release owner pid := by
  rw [release, release]
  split_ifs <;> simp_all

theorem owner_foldl_dropObject (pid : ProcessId) (l : List HandleObject) (s : Sys) (d : Device) :
    (l.foldl (dropObject pid) s).owner d =
      if d.object ∈ l then Sys.release (s.owner d) pid else s.owner d := by
  induction l generalizing s with
  | nil => simp
  | cons o l ih =>
    rw [List.foldl_cons, ih, owner_dropObject]
    by_cases ho : o = d.object
    · simp [ho, release_release]
    · simp [ho, Ne.symm ho]

/-- At the end of a process its devices are free, and only these. -/
theorem owner_releaseVmResources (c : Cell) (d : Device) : (releaseVmResources c).sys.owner d =
      if 0 < c.proc.handleTable.countOf d.object then Sys.release (c.sys.owner d) c.proc.pid
      else c.sys.owner d := by
  have hpages := foldl_frame (c := fun s : Sys => s.owner d)
    (fun s e => owner_sharedVmRelease e.2 1) c.proc.sharedPages.toList c.sys
  have howned := foldl_frame (c := fun s : Sys => s.owner d)
    (f := fun s id => s.sharedVmRelease id 1)
    (fun s id => owner_sharedVmRelease id 1) c.proc.sharedOwned
  rw [releaseVmResources, owner_foldl_dropObject, howned, hpages]
  simp only [← count_drainObjects, List.count_pos_iff]

end Process

/-! ### One process -/

/-- **What one process has to do with a device**: it holds one handle if it is the owner and
none otherwise, and has not changed what the device is to the others. -/
structure Sole (d : Device) (p w : ProcessId) (c : Cell) : Prop where
  pid : c.proc.pid = p
  held : c.proc.handleTable.countOf d.object = if c.sys.owner d = p then 1 else 0
  elsewhere : ∀ q, q ≠ 0 → q ≠ p → (c.sys.owner d = q ↔ w = q)

namespace Sole

variable {d : Device} {p w : ProcessId} {c c' : Cell}

theorem congr (h : Sole d p w c) (hpid : c'.proc.pid = c.proc.pid)
    (hcount : c'.proc.handleTable.countOf d.object = c.proc.handleTable.countOf d.object)
    (howner : c'.sys.owner d = c.sys.owner d) : Sole d p w c' :=
  ⟨hpid.trans h.pid, by rw [hcount, howner, h.held], by rw [howner]; exact h.elsewhere⟩

theorem stable : Stable (fun _ => True) (Sole d p w) where
  onSpace {α m} _ c hc := by
    rw [onSpace]
    split
    · exact hc
    · exact hc.congr rfl rfl (by cases d <;> rfl)
  unmap _ _ _ := trivial
  bar _ _ _ := trivial
  record hpid _ htable hc := hc.congr hpid (by rw [htable]) rfl
  retain id n hc := hc.congr rfl rfl owner_sharedVmRetain
  release id n hc := hc.congr rfl rfl (owner_sharedVmRelease id n)

theorem creates : Creates (Sole d p w) where
  alloc _ hc := hc.congr rfl rfl (by cases d <;> rfl)
  short _ hc := hc.congr rfl rfl (by cases d <;> rfl)

/-- The owner loses the device with the handle. -/
theorem give (h : Sole d p w c) (hp : p ≠ 0) (hpid : c'.proc.pid = p)
    (hcount : c'.proc.handleTable.countOf d.object = 0)
    (howner : c'.sys.owner d = Sys.release (c.sys.owner d) p) : Sole d p w c' := by
  have hfree : c'.sys.owner d ≠ p := by
    rw [howner, release]
    split_ifs with ho
    · exact hp.symm
    · exact ho
  refine ⟨hpid, by rw [hcount, if_neg hfree], fun q hq hqp => ?_⟩
  rw [← h.elsewhere q hq hqp, howner, release]
  split_ifs with ho
  · rw [ho]
    exact ⟨fun h0 => absurd h0.symm hq, fun h0 => absurd h0.symm hqp⟩
  · rfl

theorem releaseVmResources (h : Sole d p w c) (hp : p ≠ 0) :
    Sole d p w (releaseVmResources c) ∧ (releaseVmResources c).sys.owner d ≠ p := by
  have hcount : (Process.releaseVmResources c).proc.handleTable.countOf d.object = 0 :=
    sumOver_empty _
  have howner := owner_releaseVmResources c d
  rw [h.held, h.pid] at howner
  have hrel : (Process.releaseVmResources c).sys.owner d = release (c.sys.owner d) p := by
    rw [howner, release]
    split_ifs <;> simp_all
  have hsole : Sole d p w (Process.releaseVmResources c) := h.give hp h.pid hcount hrel
  refine ⟨hsole, fun ho => ?_⟩
  have hheld := hsole.held
  rw [hcount, if_pos ho] at hheld
  cases hheld

end Sole

theorem ne_object_of_not_singleton {object : HandleObject}
    (h : Process.HandleObject.isSingleton object = false) (d : Device) : object ≠ d.object := by
  rintro rfl
  cases d <;> cases h

namespace Sole

variable {d : Device} {p w : ProcessId} {c : Cell}

/-- A handle to something else. -/
theorem publish {object : HandleObject} (rights : Rights) (h : object ≠ d.object) :
    Keeps (Sole d p w) (publish object rights) := fun c hc => by
  rcases publish_cases object rights c with hrun | ⟨new, table, hins, hrun⟩
  · rw [hrun]
    exact hc
  · rw [hrun]
    refine hc.congr rfl ?_ rfl
    rw [withTable, countOf_insert hins, if_neg h, zero_add]

theorem handleDup (handle : Handle) (rights : Rights) :
    Keeps (Sole d p w) (handleDup handle rights) := fun c hc => by
  rcases handleDup_cases rights handle c with
    ⟨e, hrun⟩ | ⟨entry, new, table, hentry, hsing, hdup, hrun⟩
  · rw [hrun]
    exact hc
  · rw [hrun]
    refine hc.congr rfl ?_ ?_
    · rw [withTable, countOf_duplicate hdup hentry,
        if_neg (ne_object_of_not_singleton hsing d), zero_add]
    · cases entry.object with
      | sharedFrames id => exact owner_sharedVmRetain
      | _ => rfl

/-- **A handle is closed**: with the one to the device the device is free. -/
theorem handleClose (hp : p ≠ 0) (handle : Handle) :
    Keeps (Sole d p w) (handleClose handle) := fun c hc => by
  rcases handleClose_cases handle c with ⟨e, hrun⟩ | ⟨entry, table, hrem, hrun⟩
  · rw [hrun]
    exact hc
  · rw [hrun]
    have hcount := countOf_remove hrem d.object
    have howner := owner_dropObject c.proc.pid c.sys entry.object d
    by_cases ho : entry.object = d.object
    · have hheld := hc.held
      rw [if_pos ho] at hcount howner
      have hlast : table.countOf d.object = 0 := by
        split_ifs at hheld <;> omega
      exact hc.give hp hc.pid hlast (hc.pid ▸ howner)
    · rw [if_neg ho, zero_add] at hcount
      rw [if_neg ho] at howner
      exact hc.congr rfl hcount howner

/-- **A device is acquired** by a process that does not hold it. -/
theorem handleAcquire (hc : Sole d p w c) (d' : Device)
    (hfirst : c.proc.handleTable.countOf d'.object = 0) {r : Except HandleError Handle} {c' : Cell}
    (hrun : handleAcquire d' c = (r, c')) (hr : r ≠ .error .noReturn) :
    Sole d p w c' := by
  rcases handleAcquire_cases c d' with
    ⟨e, hrun'⟩ | ⟨hfree, ⟨c1, hrun'⟩ | ⟨new, table, hins, hrun'⟩⟩
  · obtain ⟨-, rfl⟩ := Prod.mk.inj (hrun.symm.trans hrun')
    exact hc
  · exact absurd (Prod.mk.inj (hrun.symm.trans hrun')).1 hr
  · obtain ⟨-, rfl⟩ := Prod.mk.inj (hrun.symm.trans hrun')
    have hcount := countOf_insert hins d.object
    have howner := owner_setOwner c.sys d' d c.proc.pid
    rw [hc.pid] at howner hfree
    by_cases hd : d = d'
    · subst hd
      rw [if_pos rfl, hfirst] at hcount
      rw [if_pos rfl] at howner
      refine ⟨hc.pid, ?_, fun q hq hqp => ?_⟩
      · rw [hc.pid, howner, if_pos rfl]
        exact hcount
      · rw [← hc.elsewhere q hq hqp, hc.pid, howner]
        constructor
        · exact fun h0 => absurd h0.symm hqp
        · rintro rfl
          rcases hfree with h0 | h0
          · exact absurd h0 hq
          · exact h0.symm
    · have hobj : d'.object ≠ d.object := by
        cases d <;> cases d' <;> first | exact absurd rfl hd | decide
      rw [if_neg hobj, zero_add] at hcount
      rw [if_neg hd] at howner
      exact hc.congr rfl hcount (hc.pid ▸ howner)

end Sole

/-! ### System calls -/

/-- The device that a call asks for. -/
def SysCall.acquires : SysCall → Option Device
  | .handleDisplayAcquire => some .display
  | .handleInputAcquire => some .input
  | _ => none

section

variable {d : Device} {p w : ProcessId}

theorem keeps_true {σ ε α : Type} {m : Prog σ ε α} : Keeps (fun _ => True) m := fun _ _ => trivial

theorem SysCall.sole_exec (hp : p ≠ 0) (c : SysCall) (hc : c.acquires = none) :
    Keeps (Sole d p w) c.exec := by
  have S := Sole.stable (d := d) (p := p) (w := w)
  cases c with
  | handleCreateMemory =>
    exact keeps_done (keeps_mapErr ((Keeps.refuse _ _).bind fun _ =>
      Sole.publish _ (by cases d <;> exact nofun)))
  | handleCreateEndpoint =>
    exact keeps_done (keeps_mapErr (Sole.publish _ (by cases d <;> exact nofun)))
  | handleCreateShared len =>
    exact keeps_done (keeps_mapErr (Keeps.get.bind fun _ => (Keeps.refuse _ _).bind fun _ =>
      (keeps_mapErr (Sole.creates.allocSharedVmObject len)).bind fun _ =>
      Sole.publish _ (by cases d <;> exact nofun)))
  | handleDup handle rights => exact keeps_done (keeps_mapErr (Sole.handleDup handle rights))
  | handleClose handle => exact keeps_mapErr (Sole.handleClose hp handle)
  | handleMap handle =>
    refine keeps_done (keeps_mapErr (get.bind fun c => ?_))
    rcases c.proc.handleTable.require handle rightMap with e | ⟨_ | _ | _ | _ | id, rights⟩
    · exact stop _
    · exact keeps_mapErr (S.mapAnonymous _ _ _ _ fun _ => keeps_true)
    · exact stop _
    · exact stop _
    · exact stop _
    · exact keeps_mapErr (S.mapSharedVm fun _ _ _ _ _ _ _ => keeps_true)
  | handleDisplayAcquire | handleInputAcquire => cases hc
  | sharedVmCreate length => exact keeps_done (keeps_mapErr (S.createSharedVm Sole.creates length))
  | sharedVmClose id => exact keeps_mapErr (S.closeSharedVm id)
  | sharedVmMap =>
    exact keeps_done ((Keeps.refuse _ _).bind fun _ =>
      keeps_mapErr (S.mapSharedVm fun _ _ _ _ _ _ _ => keeps_true))
  | mmap addr length prot flags file offset =>
    exact keeps_done (S.sysMmap addr length flags file offset fun _ _ => keeps_true)
  | munmap addr length => exact keeps_mapErr (S.unmapRange addr length)
  | mprotect =>
    exact (Keeps.refuse _ _).bind fun _ => keeps_mapErr (S.protectRange _ _
      fun _ _ _ _ => keeps_true)
  | threadCreate taken => exact S.createUserThread (fun _ => keeps_true) taken
  | threadJoin base length => exact keeps_mapErr (S.unmapRange base length)

/-- **Every call** that does not acquire what the process holds. -/
theorem SysCall.sole_run (hp : p ≠ 0) (c : SysCall) {s : Cell} (hs : Sole d p w s)
    (hfirst : ∀ d', c.acquires = some d' → s.proc.handleTable.countOf d'.object = 0) :
    Sole d p w (c.run s) := by
  rcases c.run_cases s with hsame | ⟨r, hr, hexec⟩
  · rwa [hsame]
  · cases hacq : c.acquires with
    | none =>
      have hkeep := c.sole_exec hp hacq s hs
      rwa [hexec] at hkeep
    | some d' =>
      have hdone : done (mapErr Errno.handle (handleAcquire d')) s = (r, c.run s) := by
        rw [← hexec]
        cases c <;> first | cases hacq; rfl | cases hacq
      rcases hrun : handleAcquire d' s with ⟨e | new, s'⟩
      · have heq : done (mapErr Errno.handle (handleAcquire d')) s =
            (.error (.handle e), s') := by
          rw [done, bind_error (by rw [mapErr, hrun])]
        obtain ⟨rfl, hs'⟩ := Prod.mk.inj (hdone.symm.trans heq)
        rw [hs']
        exact hs.handleAcquire d' (hfirst d' hacq) hrun fun h => hr (by rw [Except.error.inj h])
      · have heq : done (mapErr Errno.handle (handleAcquire d')) s = (.ok (), s') := by
          rw [done, bind_ok (by rw [mapErr, hrun])]
          rfl
        rw [(Prod.mk.inj (hdone.symm.trans heq)).2]
        exact hs.handleAcquire d' (hfirst d' hacq) hrun (by simp)

end

/-! ### The system -/

namespace System

/-- The number of handles to a device that a process holds. -/
def handlesOf (s : System) (d : Device) (pid : ProcessId) : ℕ :=
  (s.processes[pid]?.map fun r => r.proc.handleTable.countOf d.object).getD 0

/-- The process that an event makes ask for a device. -/
def Event.acquires : Event → Option (ProcessId × Device)
  | .call pid c => c.acquires.map fun d => (pid, d)
  | _ => none

/-- Whether nobody asks for a device that they hold. -/
def firstAcquire (s : System) (e : Step) : Bool :=
  e.event.acquires.all fun a => s.handlesOf a.2 a.1 == 0

/-- The invariant: each device has at most one handle, and it is the owner's. -/
structure Ruled (s : System) : Prop where
  next : s.nextPid ≠ 0
  pids : ∀ pid r, s.processes[pid]? = some r → r.proc.pid = pid ∧ pid ≠ 0 ∧ pid < s.nextPid
  held : ∀ d pid r, s.processes[pid]? = some r →
    r.proc.handleTable.countOf d.object = if s.sys.owner d = pid then 1 else 0
  live : ∀ d, s.sys.owner d ≠ 0 → ∃ r, s.processes[s.sys.owner d]? = some r

end System

/-- **Exclusive**: a process holds a handle to a device if and only if it is its owner. -/
def Exclusive (s : System) : Prop :=
  ∀ d pid, pid ≠ 0 → (0 < s.handlesOf d pid ↔ s.sys.owner d = pid)

namespace System.Ruled

variable {s : System} {pid : ProcessId} {r : Record} {c : Cell}

section

variable (h : s.Ruled)

include h

theorem exclusive : Exclusive s := by
  intro d pid hpid
  rcases hr : s.processes[pid]? with _ | r
  · rw [handlesOf, hr]
    refine ⟨fun h0 => absurd h0 (lt_irrefl 0), fun ho => ?_⟩
    obtain ⟨r, hr'⟩ := h.live d (ho ▸ hpid)
    rw [ho, hr] at hr'
    cases hr'
  · rw [handlesOf, hr, map_some, getD_some, h.held d pid r hr]
    split_ifs with ho <;> simp [ho]

theorem sole (hr : s.processes[pid]? = some r) {d : Device} :
    Sole d pid (s.sys.owner d) ⟨r.proc, s.sys⟩ :=
  ⟨(h.pids pid r hr).1, h.held d pid r hr, fun _ _ _ => Iff.rfl⟩

theorem supply (answers : List (Option UInt64)) : (s.supply answers).Ruled where
  next := h.next
  pids := h.pids
  held d pid r hr := by
    have hh := h.held d pid r hr
    cases d <;> exact hh
  live d hd := by
    have hh := h.live d
    cases d <;> exact hh hd

/-- A process is put back after it has worked, or for the first time. -/
theorem put (hpid : pid ≠ 0) {next : ProcessId} (hlt : pid < next)
    (hnext : s.nextPid ≤ next) (hc : ∀ d, Sole d pid (s.sys.owner d) c) (alive : Bool) :
    Ruled ⟨s.processes.insert pid ⟨c.proc, alive⟩, next, c.sys⟩ where
  next := ne_of_gt (zero_lt_of_lt hlt)
  pids q r hr := by
    rcases of_getElem?_insert hr with ⟨rfl, rfl⟩ | ⟨-, hr⟩
    · exact ⟨(hc .display).pid, hpid, hlt⟩
    · obtain ⟨h1, h2, h3⟩ := h.pids q r hr
      exact ⟨h1, h2, Nat.lt_of_lt_of_le h3 hnext⟩
  held d q r hr := by
    rcases of_getElem?_insert hr with ⟨rfl, rfl⟩ | ⟨hne, hr⟩
    · exact (hc d).held
    · rw [h.held d q r hr]
      exact if_congr ((hc d).elsewhere q (h.pids q r hr).2.1 hne.symm).symm rfl rfl
  live d hd := by
    rcases eq_or_ne pid (c.sys.owner d) with heq | hne
    · exact ⟨⟨c.proc, alive⟩, by rw [← heq, ExtTreeMap.getElem?_insert_self]⟩
    · have howner := ((hc d).elsewhere _ hd hne.symm).mp rfl
      obtain ⟨r, hr⟩ := h.live d (howner ▸ hd)
      exact ⟨r, by rw [getElem?_insert_of_ne hne, ← howner, hr]⟩

/-- A process is taken off the table. -/
theorem drop {next : ProcessId} (hnext : s.nextPid ≤ next)
    (hc : ∀ d, Sole d pid (s.sys.owner d) c ∧ c.sys.owner d ≠ pid) :
    Ruled ⟨s.processes.erase pid, next, c.sys⟩ := by
  have hpos : 0 < next := Nat.lt_of_lt_of_le (Nat.pos_of_ne_zero h.next) hnext
  refine ⟨ne_of_gt hpos, fun q r hr => ?_, fun d q r hr => ?_, fun d hd => ?_⟩
  · obtain ⟨h1, h2, h3⟩ := h.pids q r (of_getElem?_erase hr).2
    exact ⟨h1, h2, Nat.lt_of_lt_of_le h3 hnext⟩
  · obtain ⟨hne, hr⟩ := of_getElem?_erase hr
    rw [h.held d q r hr]
    exact if_congr ((hc d).1.elsewhere q (h.pids q r hr).2.1 hne.symm).symm rfl rfl
  · have howner := ((hc d).1.elsewhere _ hd (hc d).2).mp rfl
    obtain ⟨r, hr⟩ := h.live d (howner ▸ hd)
    exact ⟨r, by rw [getElem?_erase_of_ne (hc d).2.symm, ← howner, hr]⟩

theorem onProcess {f : Cell → Cell} (alive : Bool)
    (hf : ∀ r, s.processes[pid]? = some r → ∀ d, Sole d pid (s.sys.owner d) (f ⟨r.proc, s.sys⟩)) :
    (s.onProcess pid f alive).Ruled := by
  rw [System.onProcess]
  split
  · next proc hr =>
    obtain ⟨-, hpid, hlt⟩ := h.pids pid _ hr
    exact h.put hpid hlt (Nat.le_refl _) (hf _ hr) alive
  · exact h

theorem reap (pid : ProcessId) : (s.reap pid).Ruled := by
  rw [System.reap]
  rcases hr : s.processes[pid]? with _ | r
  · exact h
  · exact h.drop (Nat.le_refl _) fun d =>
      (h.sole hr).releaseVmResources (h.pids pid r hr).2.1

/-- A new process holds nothing, and owns nothing. -/
theorem spawn (dataLen : ℕ) (phs : List ProgramHeader) : (s.spawn dataLen phs).Ruled := by
  have hnone : s.processes[s.nextPid]? = none := by
    rcases hr : s.processes[s.nextPid]? with _ | r
    · rfl
    · exact absurd (h.pids _ r hr).2.2 (lt_irrefl _)
  have hnew : ∀ d, Sole d s.nextPid (s.sys.owner d) ⟨new s.nextPid, s.sys⟩ := by
    intro d
    refine ⟨rfl, ?_, fun _ _ _ => Iff.rfl⟩
    rw [if_neg fun ho => ?_]
    · exact sumOver_empty _
    · obtain ⟨r, hr⟩ := h.live d (ho ▸ h.next)
      rw [ho, hnone] at hr
      cases hr
  have hload : ∀ d, Sole d s.nextPid (s.sys.owner d)
      (Elf.prepareProcessElf dataLen phs ⟨new s.nextPid, s.sys⟩).2 := fun d =>
    Sole.stable.prepareProcessElf (fun _ => keeps_true) keeps_true _ (hnew d)
  rw [System.spawn]
  split
  · next hrun =>
    rw [hrun] at hload
    exact h.put h.next (lt_succ_self _) (le_succ _) hload true
  · next hrun =>
    rw [hrun] at hload
    have hgone := h.drop (le_succ s.nextPid) fun d => (hload d).releaseVmResources h.next
    rwa [erase_of_none hnone] at hgone

theorem transfer (pid : ProcessId) (handle : Handle) (target : ProcessId) :
    (s.transfer pid handle target).Ruled := by
  rcases s.transfer_cases pid handle target with
    hsame | ⟨proc, entry, table, r, new, table', hproc, hsing, hrem, hr, hins, heq⟩
  · rwa [hsame]
  · rw [heq]
    obtain ⟨-, hpid, hlt⟩ := h.pids pid _ hproc
    have hne := ne_object_of_not_singleton hsing
    have htaken : System.Ruled ⟨s.processes.insert pid ⟨{ proc with handleTable := table }, true⟩,
        s.nextPid, s.sys⟩ := by
      refine h.put (c := ⟨{ proc with handleTable := table }, s.sys⟩) hpid hlt (Nat.le_refl _)
        (fun d => (h.sole hproc).congr rfl ?_ rfl) true
      rw [← countOf_remove hrem, if_neg (hne d), zero_add]
    obtain ⟨-, htarget, hlt'⟩ := htaken.pids target r hr
    refine htaken.put (c := ⟨{ r.proc with handleTable := table' }, s.sys⟩) htarget hlt'
      (Nat.le_refl _) (fun d => (htaken.sole hr).congr rfl ?_ rfl) r.alive
    rw [countOf_insert hins, if_neg (hne d), zero_add]

theorem step {e : Step} (hfirst : s.firstAcquire e = true) : (s.step e).Ruled := by
  have hs := h.supply e.answers
  rw [System.step]
  cases hev : e.event with
  | spawn dataLen phs => exact hs.spawn dataLen phs
  | call pid c =>
    refine hs.onProcess true fun r hr d => c.sole_run (hs.pids pid r hr).2.1 (hs.sole hr) ?_
    intro d' hd'
    have hzero : s.handlesOf d' pid = 0 := by
      simpa [firstAcquire, hev, Event.acquires, hd'] using hfirst
    have hr' : s.processes[pid]? = some r := hr
    rwa [handlesOf, hr', map_some, getD_some] at hzero
  | transfer pid handle target => exact hs.transfer pid handle target
  | finish pid =>
    exact hs.onProcess false fun r hr d =>
      ((hs.sole hr).releaseVmResources (hs.pids pid r hr).2.1).1
  | reap pid => exact hs.reap pid

end

end System.Ruled

theorem ruled_boot : boot.Ruled := by
  refine ⟨by decide, fun pid r hr => ?_, fun d pid r hr => ?_, fun d hd => ?_⟩
  · rw [boot, ExtTreeMap.getElem?_empty] at hr
    cases hr
  · rw [boot, ExtTreeMap.getElem?_empty] at hr
    cases hr
  · cases d <;> exact absurd rfl hd

/-- **The display and the input are exclusive** in every run in which no process acquires a
device that it holds already. -/
theorem exclusive_of_firstAcquire {steps : List System.Step}
    (h : Along (fun s e => System.firstAcquire s e = true) System.step System.boot steps) :
    Exclusive (steps.foldl System.step System.boot) :=
  (Along.foldl (fun _ _ hs hok => hs.step hok) h ruled_boot).exclusive

/-- Two processes; the first acquires the display and gives it up again, and then the second
acquires it. -/
def handOver : List System.Step :=
  [⟨.spawn 0 [], stackAnswers 1⟩, ⟨.spawn 0 [], stackAnswers 17⟩,
    ⟨.call 1 .handleDisplayAcquire, []⟩, ⟨.call 1 (.handleClose 1), []⟩,
    ⟨.call 2 .handleDisplayAcquire, []⟩]

theorem exclusive_of_firstAcquire_handOver :
    (handOver.foldl System.step System.boot).sys.displayOwner = 2 ∧
      Exclusive (handOver.foldl System.step System.boot) :=
  ⟨by decide +kernel, exclusive_of_firstAcquire (by decide +kernel)⟩

/-- The same, but the first process has acquired the display twice and closes one handle. -/
def acquireTwice : List System.Step :=
  [⟨.spawn 0 [], stackAnswers 1⟩, ⟨.spawn 0 [], stackAnswers 17⟩,
    ⟨.call 1 .handleDisplayAcquire, []⟩, ⟨.call 1 .handleDisplayAcquire, []⟩,
    ⟨.call 1 (.handleClose 1), []⟩, ⟨.call 2 .handleDisplayAcquire, []⟩]

/-- **Two processes hold the display**, and one of them is not the owner. -/
theorem two_holders_of_the_display :
    (acquireTwice.foldl System.step System.boot).handlesOf .display 1 = 1 ∧
      (acquireTwice.foldl System.step System.boot).handlesOf .display 2 = 1 ∧
      (acquireTwice.foldl System.step System.boot).sys.displayOwner = 2 ∧
      ¬Exclusive (acquireTwice.foldl System.step System.boot) := by
  have h1 : (acquireTwice.foldl step boot).handlesOf .display 1 = 1 := by
    decide +kernel
  have howner : (acquireTwice.foldl step boot).sys.displayOwner = 2 := by
    decide +kernel
  refine ⟨h1, by decide +kernel, howner, fun hex => ?_⟩
  have hiff := (hex .display 1 (by decide)).mp (lt_of_lt_of_eq one_pos h1.symm)
  rw [owner, howner] at hiff
  cases hiff

end DunitOS.Kernel
