import DunitOS.Kernel.Process

/-!
# Joining a thread

`wait_thread` of `kernel/src/process/mod.rs` hands the status of a finished thread to its process.
It takes the record of the thread out of the table first and unmaps the memory of the thread after
that, memory which the program could have unmapped or cut itself. If this is not possible the call
fails, and the record is gone together with the status.

`join_iff` says that a status is handed over exactly if every page of that memory is
still mapped and it does not cut a region that has guards.
-/

namespace DunitOS.Kernel

open SysLib Prog Std Memory List

/-! ### The call -/

inductive ProcessState
  | prepared
  | ready
  | running
  | blocked
  | dead
  | reaped
  deriving DecidableEq

/-- The errors of `wait_thread`; those of the calls on memory are among them. -/
inductive JoinError
  | noCurrentProcess
  | noSuchProcess
  | notChild
  | notRunnable
  | processNotPrepared
  | memory (e : ProcessError)
  deriving DecidableEq

/-- A `ProcessRecord`, with `tls_allocation` from the thread that it holds. Nothing here depends
on what a status is. -/
structure ProcessRecord (σ : Type) where
  pid : ProcessId
  owner : Option ProcessId
  state : ProcessState
  status : Option σ
  tlsAllocation : Option (ℕ × ℕ)

/-- The table of the processes and threads, who is running, and what `current_process_mut` finds. -/
structure Threads (σ : Type) where
  table : List (ProcessRecord σ)
  currentTid : Option ProcessId
  currentProcess : Option Cell

namespace Threads

variable {σ : Type}

def record (s : Threads σ) (pid : ProcessId) : Option (ProcessRecord σ) :=
  s.table.find? (·.pid == pid)

def ownerOf (s : Threads σ) (entity : ProcessId) : Option ProcessId :=
  (s.record entity).map fun r => r.owner.getD entity

def currentPid (s : Threads σ) : Option ProcessId := s.currentTid.bind s.ownerOf

/-- `unmap_range` for the current process. -/
def unmapRange (base length : ℕ) (cell : Cell) : Prog (Threads σ) JoinError Unit := fun s =>
  match Process.unmapRange base length cell with
  | (.ok _, cell) => (.ok (), { s with currentProcess := some cell })
  | (.error e, cell) => (.error (.memory e), { s with currentProcess := some cell })

def waitThread (tid : ProcessId) : Prog (Threads σ) JoinError σ := do
  let s ← Prog.get
  let owner ← ofExcept (s.currentPid.elim (.error .noCurrentProcess) .ok)
  refuse (s.currentTid == some tid) .notChild
  let record ← ofExcept ((s.record tid).elim (.error .noSuchProcess) .ok)
  refuse (record.owner != some owner) .notChild
  refuse (record.state != .dead) .notRunnable
  let status ← ofExcept (record.status.elim (.error .processNotPrepared) .ok)
  Prog.modify fun s => { s with table := s.table.eraseP (·.pid == tid) }
  match record.tlsAllocation, s.currentProcess with
  | some (base, length), some cell => unmapRange base length cell
  | _, _ => pure ()
  return status

/-- **A finished thread of the caller** that has not been joined. -/
structure Finished (s : Threads σ) (tid : ProcessId) (status : σ) (r : ProcessRecord σ) : Prop where
  found : s.record tid = some r
  owned : ∃ owner, s.currentPid = some owner ∧ r.owner = some owner
  other : s.currentTid ≠ some tid
  dead : r.state = .dead
  status_eq : r.status = some status

/-- **A join does what it should**: it returns the status and removes the record, and if it fails
the record is still there. -/
def Joins (s : Threads σ) (tid : ProcessId) (status : σ) (r : ProcessRecord σ) : Prop :=
  (waitThread tid s).1 = .ok status ∧
    (waitThread tid s).2.table = s.table.eraseP (·.pid == tid) ∧
    ∀ e, (waitThread tid s).1 = .error e → (waitThread tid s).2.record tid = some r

end Threads

/-! ### When a range can be unmapped -/

/-- **A region with guards is not cut** by a range: the range leaves it alone with its guards, or
is the region itself. -/
def Uncut (start stop : ℕ) (region : ℕ × ℕ) : Prop :=
  start < region.1 + region.2 + pageSize → region.1 - pageSize < stop →
    start = region.1 ∧ stop = region.1 + region.2

/-- **A range is whole**: it lies where programs map memory, it cuts no region with guards, and
every page of it is mapped. -/
def Whole (c : Cell) (start length : ℕ) : Prop :=
  ∃ stop, vmRangeEnd start length = .ok stop ∧
    (∀ region ∈ c.proc.guardRegions.toList, Uncut start stop region) ∧
    ∃ m, c.proc.pages = some m ∧ ∀ page ∈ pagesOf start stop, m (page / pageSize) ≠ none

/-- **A thread's memory is whole**, if it has any and its process is there. -/
def Threads.WholeMemory {σ : Type} (s : Threads σ) (r : ProcessRecord σ) : Prop :=
  ∀ base length cell, r.tlsAllocation = some (base, length) → s.currentProcess = some cell →
    Whole cell base length

namespace Process

theorem guardOf_eq_none_iff {start stop : ℕ} {regions : List (ℕ × ℕ)} :
    guardOf start stop regions = none ↔ ¬∀ region ∈ regions, Uncut start stop region := by
  induction regions with
  | nil => simp [guardOf]
  | cons region regions ih =>
    obtain ⟨usable, len⟩ := region
    rw [forall_mem_cons, Uncut, guardOf]
    split_ifs with hin hcut
    · exact iff_of_true rfl fun hall => by have := hall.1 hin.1 hin.2; omega
    · rw [not_or, not_not, not_not] at hcut
      rw [and_iff_right fun _ _ => hcut, ← ih]
      rcases guardOf start stop regions with _ | _ | g <;> simp
    · rw [and_iff_right fun h h' => absurd ⟨h, h'⟩ hin, ih]

/-- The pages of a range of user memory can be unmapped. -/
theorem badPage_of_mem {start length stop page : ℕ} (h : vmRangeEnd start length = .ok stop)
    (hp : page ∈ pagesOf start stop) : badPage page = false := by
  rw [vmRangeEnd] at h
  split_ifs at h with hbad
  rw [not_or, not_or, not_not, Nat.not_lt] at hbad
  rcases hround : roundUp length with _ | len
  · rw [hround] at h
    cases h
  rw [hround] at h
  dsimp only at h
  split_ifs at h with hend
  cases h
  obtain ⟨i, hi, rfl⟩ := mem_range'.mp hp
  rw [badPage, Bool.or_eq_false_iff, Bool.or_eq_false_iff, beq_eq_false_iff_ne,
    decide_eq_false_iff_not, bne_eq_false_iff_eq]
  simp only [userMmapBase, userMmapEnd, userSpaceEnd, pageSize] at *
  omega

/-- A program on the address space. -/
theorem ends_onSpace {α β : Type} {c : Cell} {R : β → Cell → Prop} {E : ProcessError → Cell → Prop}
    {m : Space.M α} {f : Except AddressSpaceError α → P ProcessError β}
    (hnone : c.proc.pages = none → E .noAddressSpace c)
    (h : ∀ pages, c.proc.pages = some pages →
      Ends R E (f (m (pages, c.sys.answers)).1
        ⟨{ c.proc with pages := some (m (pages, c.sys.answers)).2.1 },
          { c.sys with answers := (m (pages, c.sys.answers)).2.2 }⟩)) :
    Ends R E ((onSpace m >>= f) c) := by
  rcases hp : c.proc.pages with _ | pages
  · have hrun : onSpace m c = (.error .noAddressSpace, c) := by rw [onSpace, hp]
    rw [bind_error hrun]
    exact hnone hp
  · have hrun : onSpace m c = (.ok (m (pages, c.sys.answers)).1,
        ⟨{ c.proc with pages := some (m (pages, c.sys.answers)).2.1 },
          { c.sys with answers := (m (pages, c.sys.answers)).2.2 }⟩) := by rw [onSpace, hp]
    rw [bind_ok hrun]
    exact h pages hp

theorem unmapOne_ends {page : ℕ} (h : badPage page = false) {c : Cell}
    (hc : c.proc.pages.isSome = true) :
    Ends (fun _ t => t.proc.pages.isSome = true) (fun _ _ => False) (unmapOne page c) := by
  rw [unmapOne]
  refine ends_onSpace (fun hnone => by rw [hnone] at hc; cases hc) fun m _ => ?_
  rcases Space.unmapUserPage_cases page (m, c.sys.answers) with ⟨hbad, -⟩ | ⟨-, hrun⟩
  · exact absurd hbad (by rw [h]; decide)
  rw [hrun]
  dsimp only [asRange]
  rw [pure_bind_run, get_bind_run]
  dsimp only
  rcases c.proc.sharedPages[page]? with _ | id
  · rfl
  · rfl

/-- Pages that can be unmapped are, one after the other. -/
theorem forEach_ends {pages : List ℕ} (h : ∀ p ∈ pages, badPage p = false) {c : Cell}
    (hc : c.proc.pages.isSome = true) :
    Ends (fun _ t => t.proc.pages.isSome = true) (fun _ _ => False) (forEach unmapOne pages c) := by
  induction pages generalizing c with
  | nil => exact hc
  | cons p pages ih =>
    refine (unmapOne_ends (h p mem_cons_self) hc).bind ?_ fun _ _ hno => hno
    exact fun _ t ht => ih (fun q hq => h q (mem_cons_of_mem p hq)) ht

/-- **`unmap_range` succeeds for a whole range**, and for no other. -/
theorem unmapRange_ends (start length : ℕ) (c : Cell) :
    Ends (fun _ _ => Whole c start length) (fun _ _ => ¬Whole c start length)
      (unmapRange start length c) := by
  rw [unmapRange]
  refine Ends.ofExcept (fun e he => ?_) fun stop hstop => ?_
  · rintro ⟨stop, hstop, -⟩
    rw [he] at hstop
    cases hstop
  rw [get_bind_run]
  rcases hguard : guardOf start stop c.proc.guardRegions.toList with _ | guard
  · rintro ⟨stop', hstop', hg, -⟩
    obtain rfl := Except.ok.inj (hstop.symm.trans hstop')
    exact guardOf_eq_none_iff.mp hguard hg
  dsimp only
  refine ends_onSpace (fun hnone => ?_) fun m hm => ?_
  · rintro ⟨-, -, -, m, hm, -⟩
    rw [hnone] at hm
    cases hm
  rw [allMapped]
  refine Ends.refuse (fun hno => ?_) fun hall => ?_
  · -- a page of the range is not mapped
    rintro ⟨stop', hstop', -, m', hm', hmapped⟩
    obtain rfl := Except.ok.inj (hstop.symm.trans hstop')
    obtain rfl := Option.some.inj (hm.symm.trans hm')
    have hyes : (pagesOf start stop).all (fun page => Space.isMapped page (m, c.sys.answers)) =
        true := all_eq_true.mpr fun page hp => Space.isMapped_eq_true.mpr (hmapped page hp)
    rw [hyes] at hno
    cases hno
  have hwhole : Whole c start length := by
    refine ⟨stop, hstop, by_contra fun hcut => ?_, m, hm, fun page hp => ?_⟩
    · cases hguard.symm.trans (guardOf_eq_none_iff.mpr hcut)
    rcases hyes : (pagesOf start stop).all (fun page => Space.isMapped page (m, c.sys.answers)) with
      _ | _
    · rw [hyes] at hall
      cases hall
    · exact Space.isMapped_eq_true.mp (all_eq_true.mp hyes page hp)
  refine (forEach_ends (fun p hp => badPage_of_mem hstop hp) rfl).bind ?_ fun _ _ hno => hno.elim
  rintro - t ht
  rcases guard with _ | ⟨usable, len⟩
  · exact hwhole
  refine ends_onSpace (fun hnone => by rw [hnone] at ht; cases ht) fun _ _ => ?_
  refine ends_onSpace (fun hnone => ?_) fun _ _ => hwhole
  cases hnone

end Process

/-! ### The join of a finished thread -/

namespace Threads

variable {σ : Type} {s : Threads σ} {tid : ProcessId} {status : σ} {r : ProcessRecord σ}

/-- **The join of a finished thread**: its record is removed, and the status is returned unless its
memory is not whole. -/
theorem Finished.waitThread_ends (h : Finished s tid status r) :
    Ends (fun a t => a = status ∧ t.table = s.table.eraseP (·.pid == tid) ∧ s.WholeMemory r)
      (fun _ _ => ¬s.WholeMemory r) (waitThread tid s) := by
  obtain ⟨owner, hpid, howner⟩ := h.owned
  rw [waitThread, get_bind_run, hpid]
  refine Ends.ofExcept (fun _ he => by cases he) fun _ hok => ?_
  cases hok
  refine Ends.refuse (fun hself => absurd (eq_of_beq hself) h.other) fun _ => ?_
  rw [h.found]
  refine Ends.ofExcept (fun _ he => by cases he) fun _ hok => ?_
  cases hok
  refine Ends.refuse (fun hno => absurd howner (bne_iff_ne.mp hno)) fun _ => ?_
  refine Ends.refuse (fun hno => absurd h.dead (bne_iff_ne.mp hno)) fun _ => ?_
  rw [h.status_eq]
  refine Ends.ofExcept (fun _ he => by cases he) fun _ hok => ?_
  cases hok
  rw [modify_bind_run]
  rcases htls : r.tlsAllocation with _ | ⟨base, length⟩
  · exact ⟨rfl, rfl, fun _ _ _ hsome => by rw [htls] at hsome; cases hsome⟩
  rcases hcell : s.currentProcess with _ | cell
  · exact ⟨rfl, rfl, fun _ _ _ _ hsome => by rw [hcell] at hsome; cases hsome⟩
  dsimp only
  have hends := Process.unmapRange_ends base length cell
  rcases hrun : Process.unmapRange base length cell with ⟨e | u, t⟩
  · rw [bind_error (by rw [unmapRange, hrun])]
    exact fun hwhole => hends.of_error hrun (hwhole base length cell htls hcell)
  · rw [bind_ok (by rw [unmapRange, hrun])]
    refine ⟨rfl, rfl, fun base' length' cell' htls' hcell' => ?_⟩
    cases htls.symm.trans htls'
    cases hcell.symm.trans hcell'
    exact hends.of_ok hrun

end Threads

/-- **When the status of a finished thread is handed over**: if the thread has no memory of its own
or all of that is still mapped and cuts no region with guards. Otherwise the status is lost. -/
theorem join_iff {σ : Type} (s : Threads σ) (tid : ProcessId) (status : σ) (r : ProcessRecord σ)
    (h : s.Finished tid status r) : s.Joins tid status r ↔ s.WholeMemory r := by
  have hends := h.waitThread_ends
  rw [Threads.Joins]
  rcases hrun : Threads.waitThread tid s with ⟨e | a, t⟩ <;> rw [hrun] at hends
  · refine iff_of_false (fun hjoins => ?_) hends
    cases hjoins.1
  · obtain ⟨rfl, htable, hwhole⟩ := hends
    refine iff_of_true ⟨rfl, htable, fun e he => ?_⟩ hwhole
    cases he

/-- The process 1 with its finished thread 2, which has some memory of its own or none. -/
def finishedThread (tls : Option (ℕ × ℕ)) (cell : Cell) : Threads ℤ :=
  ⟨[⟨1, none, .running, none, none⟩, ⟨2, some 1, .dead, some 7, tls⟩], some 1, some cell⟩

theorem finished_finishedThread (tls : Option (ℕ × ℕ)) (cell : Cell) :
    (finishedThread tls cell).Finished 2 7 ⟨2, some 1, .dead, some 7, tls⟩ :=
  ⟨rfl, ⟨1, rfl, rfl⟩, fun hno => absurd (Option.some.inj hno) (by decide), rfl, rfl⟩

/-- A process whose threads have memory of their own, and an allocator with frames. -/
def tlsCell : Cell :=
  ⟨{ Process.new 1 with tlsMemSize := 8 },
    ⟨∅, 1, 0, 0, [some 4096, some 8192, some 12288], [], false⟩⟩

/-- The memory of a thread that was just created is whole, and its status is handed over. -/
theorem join_iff_created :
    let tls := ((userMmapBase, pageSize) : ℕ × ℕ)
    let created := Process.allocateTlsInstance tlsCell
    created.1 = .ok tls ∧
      (finishedThread (some tls) created.2).Joins 2 7 ⟨2, some 1, .dead, some 7, some tls⟩ := by
  refine ⟨rfl, (join_iff _ _ _ _ (finished_finishedThread _ _)).mpr ?_⟩
  rintro base length cell htls hcell
  cases htls
  cases hcell
  refine ⟨userMmapBase + pageSize, rfl, fun _ hno => ?_, _, rfl, fun page hp => ?_⟩
  · cases hno
  · rw [mem_singleton.mp hp]
    exact Option.some_ne_none _

/-- **A status that is lost**: the program unmaps the memory of its thread, and the join fails. The
thread is not in the table any more. -/
theorem join_loses_status :
    let tls := ((userMmapBase, pageSize) : ℕ × ℕ)
    let created := Process.allocateTlsInstance tlsCell
    let cut := Process.unmapRange tls.1 tls.2 created.2
    let s := finishedThread (some tls) cut.2
    created.1 = .ok tls ∧ cut.1 = .ok () ∧
      s.Finished 2 7 ⟨2, some 1, .dead, some 7, some tls⟩ ∧
      (s.waitThread 2).1 = .error (.memory .invalidMemoryRange) ∧
      (s.waitThread 2).2.record 2 = none :=
  ⟨rfl, rfl, finished_finishedThread _ _, rfl, rfl⟩

end DunitOS.Kernel
