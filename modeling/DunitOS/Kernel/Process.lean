import DunitOS.Kernel.Handle
import DunitOS.Memory.SpaceRuns

/-!
# Processes: memory and capabilities

The model of the part of `kernel/src/process/mod.rs` that maps memory and keeps the
references to shared buffers. An address space is the finite map that the page tables
realise (`DunitOS.Memory.Pages`, `Space.simulates_tables`); the pages that an
operation of it asks the physical allocator for are answered from a list, a missing answer being a
failure.

A shared buffer is an object of a global registry with a count of references. References
are held by the ids that a process owns, by the pages that it maps and by its handles.
`Sys` is what the processes share: the registry, the owners of the display
and of the input, and the frames that were handed out for shared buffers (`held`). Ids of
objects and processes come from 64-bit counters, which are taken not to wrap.
-/

namespace DunitOS.Kernel

open SysLib Prog Std Memory HandleTable

/-! ### The address space of a process -/

/-- The pages, and what the allocator will answer. -/
abbrev Space := Pages × List (Option UInt64)

namespace Space

abbrev M := Prog Space AddressSpaceError

/-- Whether a page is mapped, for a caller that drops the error. -/
def isMapped (virt : ℕ) (s : Space) : Bool := (s.1 (virt / pageSize)).isSome

/-- The answer to a request that needs frames. -/
def nextFrame : M UInt64 := fun s =>
  match s.2 with
  | some frame :: answers => (.ok frame, (s.1, answers))
  | none :: answers => (.error .outOfMemory, (s.1, answers))
  | [] => (.error .outOfMemory, s)

/-- Put an operation that has succeeded into effect. -/
def commit (op : SpaceOp) (reply : SpaceReply) : M Unit :=
  Prog.modify fun s => (s.1.apply op (.ok reply), s.2)

/-- The frames are asked for before the page is looked at. -/
def mapUserPage (virt : ℕ) (flags : PageFlags) : M UInt64 := do
  refuse (badPage virt) .invalidUserAddress
  let frame ← nextFrame
  let s ← Prog.get
  refuse (isMapped virt s) .invalidUserAddress
  commit (.mapPage virt flags) (.frame frame)
  return frame

def mapUserFrame (virt : ℕ) (phys : UInt64) (flags : PageFlags) : M Unit := do
  refuse (badPage virt || phys &&& 0xFFF != 0) .invalidUserAddress
  let _ ← nextFrame
  let s ← Prog.get
  refuse (isMapped virt s) .invalidUserAddress
  commit (.mapFrame virt phys flags) .mapped

def unmapUserPage (virt : ℕ) : M Bool := do
  refuse (badPage virt) .invalidUserAddress
  let s ← Prog.get
  commit (.unmap virt) (.found (isMapped virt s))
  return isMapped virt s

def protectUserPage (virt : ℕ) (flags : PageFlags) (present : Bool) : M Bool := do
  refuse (badPage virt) .invalidUserAddress
  let s ← Prog.get
  commit (.protect virt flags present) (.found (isMapped virt s))
  return isMapped virt s

def exec : SpaceOp → M SpaceReply
  | .mapPage virt flags => do return .frame (← mapUserPage virt flags)
  | .mapFrame virt phys flags => do
    mapUserFrame virt phys flags
    return .mapped
  | .unmap virt => do return .found (← unmapUserPage virt)
  | .protect virt flags present => do return .found (← protectUserPage virt flags present)
  | .lookup virt => do
    let s ← Prog.get
    return .mapping (← ofExcept (s.1.lookup virt))

theorem isMapped_eq_true {virt : ℕ} {s : Space} :
    isMapped virt s = true ↔ s.1 (virt / pageSize) ≠ none := Option.isSome_iff_ne_none

theorem isMapped_eq_false {virt : ℕ} {s : Space} :
    isMapped virt s = false ↔ s.1 (virt / pageSize) = none :=
  Option.isSome_eq_false_iff.trans Option.isNone_iff_eq_none

/-- The allocator has a frame or not. -/
theorem nextFrame_cases (s : Space) :
    (∃ frame, s.2.head? = some (some frame) ∧ nextFrame s = (.ok frame, (s.1, s.2.tail))) ∨
      (s.2.head?.join = none ∧ nextFrame s = (.error .outOfMemory, (s.1, s.2.tail))) := by
  obtain ⟨m, _ | ⟨_ | frame, answers⟩⟩ := s
  · exact .inr ⟨rfl, rfl⟩
  · exact .inr ⟨rfl, rfl⟩
  · exact .inl ⟨frame, rfl, rfl⟩

theorem mapUserPage_cases (virt : ℕ) (flags : PageFlags) (s : Space) :
    (badPage virt = true ∧ mapUserPage virt flags s = (.error .invalidUserAddress, s)) ∨
    (badPage virt = false ∧
      ((s.2.head?.join = none ∧ mapUserPage virt flags s = (.error .outOfMemory, (s.1, s.2.tail))) ∨
        ∃ frame, s.2.head? = some (some frame) ∧
          ((s.1 (virt / pageSize) ≠ none ∧
              mapUserPage virt flags s = (.error .invalidUserAddress, (s.1, s.2.tail))) ∨
            (s.1 (virt / pageSize) = none ∧ mapUserPage virt flags s = (.ok frame,
              (s.1.apply (.mapPage virt flags) (.ok (.frame frame)), s.2.tail)))))) := by
  rw [mapUserPage, refuse_bind_run]
  cases badPage virt with
  | true => exact .inl ⟨rfl, rfl⟩
  | false =>
    refine .inr ⟨rfl, ?_⟩
    rcases nextFrame_cases s with ⟨frame, hhead, hrun⟩ | ⟨hhead, hrun⟩
    · refine .inr ⟨frame, hhead, ?_⟩
      rw [if_neg Bool.false_ne_true, bind_ok hrun, get_bind_run, refuse_bind_run]
      cases hmap : isMapped virt (s.1, s.2.tail) with
      | true => exact .inl ⟨isMapped_eq_true.mp hmap, rfl⟩
      | false => exact .inr ⟨isMapped_eq_false.mp hmap, rfl⟩
    · exact .inl ⟨hhead, bind_error hrun⟩

theorem mapUserFrame_cases (virt : ℕ) (phys : UInt64) (flags : PageFlags) (s : Space) :
    ((badPage virt = true ∨ phys &&& 0xFFF ≠ 0) ∧
      mapUserFrame virt phys flags s = (.error .invalidUserAddress, s)) ∨
    (badPage virt = false ∧ phys &&& 0xFFF = 0 ∧
      ((s.2.head?.join = none ∧
          mapUserFrame virt phys flags s = (.error .outOfMemory, (s.1, s.2.tail))) ∨
        (s.2.head?.join ≠ none ∧
          ((s.1 (virt / pageSize) ≠ none ∧
              mapUserFrame virt phys flags s = (.error .invalidUserAddress, (s.1, s.2.tail))) ∨
            (s.1 (virt / pageSize) = none ∧ mapUserFrame virt phys flags s =
              (.ok (), (s.1.apply (.mapFrame virt phys flags) (.ok .mapped), s.2.tail))))))) := by
  rw [mapUserFrame, refuse_bind_run]
  cases hbad : badPage virt || phys &&& 0xFFF != 0 with
  | true => exact .inl ⟨by rwa [Bool.or_eq_true, bne_iff_ne] at hbad, rfl⟩
  | false =>
    rw [Bool.or_eq_false_iff, bne_eq_false_iff_eq] at hbad
    refine .inr ⟨hbad.1, hbad.2, ?_⟩
    rcases nextFrame_cases s with ⟨frame, hhead, hrun⟩ | ⟨hhead, hrun⟩
    · refine .inr ⟨by rw [hhead]; exact Option.some_ne_none _, ?_⟩
      rw [if_neg Bool.false_ne_true, bind_ok hrun, get_bind_run, refuse_bind_run]
      cases hmap : isMapped virt (s.1, s.2.tail) with
      | true => exact .inl ⟨isMapped_eq_true.mp hmap, rfl⟩
      | false => exact .inr ⟨isMapped_eq_false.mp hmap, rfl⟩
    · exact .inl ⟨hhead, bind_error hrun⟩

theorem unmapUserPage_cases (virt : ℕ) (s : Space) :
    (badPage virt = true ∧ unmapUserPage virt s = (.error .invalidUserAddress, s)) ∨
    (badPage virt = false ∧ unmapUserPage virt s = (.ok (isMapped virt s),
      (s.1.apply (.unmap virt) (.ok (.found (isMapped virt s))), s.2))) := by
  rw [unmapUserPage, refuse_bind_run]
  cases badPage virt with
  | true => exact .inl ⟨rfl, rfl⟩
  | false => exact .inr ⟨rfl, rfl⟩

theorem protectUserPage_cases (virt : ℕ) (flags : PageFlags) (present : Bool) (s : Space) :
    (badPage virt = true ∧ protectUserPage virt flags present s = (.error .invalidUserAddress, s)) ∨
    (badPage virt = false ∧ protectUserPage virt flags present s = (.ok (isMapped virt s),
      (s.1.apply (.protect virt flags present) (.ok (.found (isMapped virt s))), s.2))) := by
  rw [protectUserPage, refuse_bind_run]
  cases badPage virt with
  | true => exact .inl ⟨rfl, rfl⟩
  | false => exact .inr ⟨rfl, rfl⟩

/-- An operation gives a reply for some answers of the allocator, and changes the pages as the map
is changed. -/
def Gives (m : Pages) (op : SpaceOp) (r : Except AddressSpaceError SpaceReply) : Prop :=
  ∃ answers, ∀ rest, exec op (m, answers ++ rest) = (r, (m.apply op r, rest))

section

variable {m : Pages} {short : Prop} {r : Except AddressSpaceError SpaceReply} {virt : ℕ}
  {flags : PageFlags}

theorem mapPage_gives (h : m.Permits short (.mapPage virt flags) r) :
    Gives m (.mapPage virt flags) r := by
  rcases r with (_ | _ | _ | _) | (f | _ | _ | _) <;> try exact h.elim
  · refine ⟨[none], fun rest => ?_⟩
    rcases mapUserPage_cases virt flags (m, none :: rest) with
      ⟨hbad, -⟩ | ⟨-, ⟨-, hrun⟩ | ⟨frame, hhead, -⟩⟩
    · cases h.1.symm.trans hbad
    · exact bind_error hrun
    · cases hhead
  · by_cases hbad : badPage virt = true
    · refine ⟨[], fun rest => ?_⟩
      rcases mapUserPage_cases virt flags (m, rest) with ⟨-, hrun⟩ | ⟨hpage, -⟩
      · exact bind_error hrun
      · cases hpage.symm.trans hbad
    · -- the frame is there, and the page is taken
      refine ⟨[some 0], fun rest => ?_⟩
      rcases mapUserPage_cases virt flags (m, some 0 :: rest) with
        ⟨hno, -⟩ | ⟨-, ⟨hno, -⟩ | ⟨frame, -, ⟨-, hrun⟩ | ⟨hfree, -⟩⟩⟩
      · exact absurd hno hbad
      · cases hno
      · exact bind_error hrun
      · exact absurd hfree (h.resolve_left hbad)
  · refine ⟨[some f], fun rest => ?_⟩
    rcases mapUserPage_cases virt flags (m, some f :: rest) with
      ⟨hbad, -⟩ | ⟨-, ⟨hno, -⟩ | ⟨frame, hhead, ⟨hmap, -⟩ | ⟨-, hrun⟩⟩⟩
    · cases h.1.symm.trans hbad
    · cases hno
    · exact absurd h.2 hmap
    · cases hhead
      exact bind_ok hrun

theorem mapFrame_gives {phys : UInt64} (h : m.Permits short (.mapFrame virt phys flags) r) :
    Gives m (.mapFrame virt phys flags) r := by
  rcases r with (_ | _ | _ | _) | (_ | _ | _ | _) <;> try exact h.elim
  · refine ⟨[none], fun rest => ?_⟩
    rcases mapUserFrame_cases virt phys flags (m, none :: rest) with
      ⟨hbad, -⟩ | ⟨-, -, ⟨-, hrun⟩ | ⟨hno, -⟩⟩
    · exact absurd hbad (not_or.mpr ⟨by rw [h.1]; decide, not_not_intro h.2.1⟩)
    · exact bind_error hrun
    · exact absurd rfl hno
  · by_cases hbad : badPage virt = true ∨ phys &&& 0xFFF ≠ 0
    · refine ⟨[], fun rest => ?_⟩
      rcases mapUserFrame_cases virt phys flags (m, rest) with ⟨-, hrun⟩ | ⟨hpage, hphys, -⟩
      · exact bind_error hrun
      · exact absurd hbad (not_or.mpr ⟨by rw [hpage]; decide, not_not_intro hphys⟩)
    · refine ⟨[some 0], fun rest => ?_⟩
      rcases mapUserFrame_cases virt phys flags (m, some 0 :: rest) with
        ⟨hno, -⟩ | ⟨-, -, ⟨hno, -⟩ | ⟨-, ⟨-, hrun⟩ | ⟨hfree, -⟩⟩⟩
      · exact absurd hno hbad
      · cases hno
      · exact bind_error hrun
      · exact absurd hfree ((or_assoc.mpr h).resolve_left hbad)
  · obtain ⟨hpage, hphys, hfree⟩ := h
    refine ⟨[some 0], fun rest => ?_⟩
    rcases mapUserFrame_cases virt phys flags (m, some 0 :: rest) with
      ⟨hbad, -⟩ | ⟨-, -, ⟨hno, -⟩ | ⟨-, ⟨hmap, -⟩ | ⟨-, hrun⟩⟩⟩
    · exact absurd hbad (not_or.mpr ⟨by rw [hpage]; decide, not_not_intro hphys⟩)
    · cases hno
    · exact absurd hfree hmap
    · exact bind_ok hrun

/-- **Each reply that the map permits is given.** -/
theorem Gives.of_permits {op : SpaceOp} (h : m.Permits short op r) : Gives m op r := by
  cases op with
  | mapPage => exact mapPage_gives h
  | mapFrame => exact mapFrame_gives h
  | unmap virt =>
    refine ⟨[], fun rest => ?_⟩
    rcases unmapUserPage_cases virt (m, rest) with ⟨hbad, hrun⟩ | ⟨hpage, hrun⟩
    · rcases r with (_ | _ | _ | _) | (_ | _ | _ | _) <;> try exact h.elim
      · exact bind_error hrun
      · cases hbad.symm.trans h.1
    · rcases r with (_ | _ | _ | _) | (_ | _ | b | _) <;> try exact h.elim
      · cases hpage.symm.trans h
      · rw [h.2]
        exact bind_ok hrun
  | protect virt flags present =>
    refine ⟨[], fun rest => ?_⟩
    rcases protectUserPage_cases virt flags present (m, rest) with ⟨hbad, hrun⟩ | ⟨hpage, hrun⟩
    · rcases r with (_ | _ | _ | _) | (_ | _ | _ | _) <;> try exact h.elim
      · exact bind_error hrun
      · cases hbad.symm.trans h.1
    · rcases r with (_ | _ | _ | _) | (_ | _ | b | _) <;> try exact h.elim
      · cases hpage.symm.trans h
      · rw [h.2]
        exact bind_ok hrun
  | lookup virt =>
    refine ⟨[], fun rest => ?_⟩
    rw [exec, get_bind_run, List.nil_append]
    rcases r with e | (_ | _ | _ | r) <;> try exact h.elim
    · rw [show m.lookup virt = .error e from h]
      rfl
    · rw [show m.lookup virt = .ok r from h]
      exact congrArg (fun m => (Except.ok (SpaceReply.mapping r), (m, rest)))
        (Function.update_eq_self _ _).symm

end

/-- What a run of operations returns, and the space after it. -/
def run : List SpaceOp → Space → List (Except AddressSpaceError SpaceReply) × Space
  | [], s => ([], s)
  | op :: ops, s =>
    let t := run ops (exec op s).2
    ((exec op s).1 :: t.1, t.2)

/-- **A run of the tables is one of the space**, from where the tables realise its pages. -/
theorem run_of_tables {root : UInt64} {kernel : ℕ → PageTableEntry} {s : Vmm × Pages}
    (h : s.1.Inv root kernel s.2 [] []) {calls : List Vmm.SpaceCall}
    (hcalls : Along Vmm.Admits Vmm.step s calls) :
    ∃ answers, run (calls.map (·.op)) (s.2, answers) =
      (Vmm.replies s calls, ((calls.foldl Vmm.step s).2, [])) := by
  induction calls generalizing s with
  | nil => exact ⟨[], rfl⟩
  | cons c calls ih =>
    obtain ⟨hinv, hpermits⟩ := h.step hcalls.1
    obtain ⟨first, hfirst⟩ := Gives.of_permits hpermits
    obtain ⟨rest, hrest⟩ := ih hinv hcalls.2
    refine ⟨first ++ rest, ?_⟩
    rw [List.map_cons, run, hfirst rest]
    exact congrArg (fun t : List _ × Space => ((s.1.call c).1 :: t.1, t.2)) hrest

/-- **The page tables are simulated by the map that processes are modelled with.** Every run of a
new space whose calls come with frames that are not in use, and that is given frames of others
only, is matched by a run of the map: for some answers of the allocator the same operations return
the same, errors included, and at the end every address is looked up with the same result. -/
theorem simulates_tables (mem : UInt64 → ℕ → PageTableEntry) {kernelRoot root : UInt64}
    (hne : root ≠ kernelRoot) {calls : List Vmm.SpaceCall}
    (h : Along Vmm.Admits Vmm.step (Vmm.boot mem kernelRoot root, fun _ => none) calls) :
    ∃ answers t, run (calls.map (·.op)) (fun _ => none, answers) =
        (Vmm.replies (Vmm.boot mem kernelRoot root, fun _ => none) calls, t) ∧
      ∀ virt, (calls.foldl Vmm.step (Vmm.boot mem kernelRoot root, fun _ => none)).1.userPageMapping
        virt = t.1.lookup virt := by
  have hboot := Vmm.inv_boot mem hne
  obtain ⟨answers, hrun⟩ := run_of_tables hboot h
  have hinv := Along.foldl (P := fun s => s.1.Inv root (mem kernelRoot) s.2 [] [])
    (fun s c hs hok => (hs.step hok).1) h hboot
  exact ⟨answers, _, hrun, hinv.maps.lookup_eq⟩

theorem simulates_tables_mapAndUnmap :
    ∃ answers t, run (mapAndUnmap.map (·.op)) (fun _ => none, answers) =
        ([.ok (.frame 0x5000), .ok .mapped, .ok (.found true), .ok (.found true)], t) ∧
      t.1.lookup 0x400000 = .ok none := by
  obtain ⟨answers, t, hrun, hlook⟩ := simulates_tables (fun _ _ => 7) (by decide) admits_mapAndUnmap
  have hreplies : Vmm.replies (Vmm.boot (fun _ _ => 7) 0x8000 0x1000, fun _ => none) mapAndUnmap =
      [.ok (.frame 0x5000), .ok .mapped, .ok (.found true), .ok (.found true)] := by
    decide +kernel
  refine ⟨answers, t, hreplies ▸ hrun, (hlook 0x400000).symm.trans ?_⟩
  decide +kernel

/-- Run a program and go on whatever it returns. -/
def ignore {α : Type} (m : M α) (s : Space) : Space := (m s).2

end Space

/-! ### Shared buffers -/

structure SharedVmObject where
  frames : List UInt64
  refs : ℕ
  deriving DecidableEq, Repr

/-- What the processes share. -/
structure Sys where
  objects : ExtTreeMap ℕ SharedVmObject
  nextSharedVmId : ℕ
  /-- `DISPLAY_MASTER_OWNER`; zero is nobody. -/
  displayOwner : ProcessId
  /-- `INPUT_MASTER_OWNER`; zero is nobody. -/
  inputOwner : ProcessId
  /-- What the physical allocator will answer. -/
  answers : List (Option UInt64)
  /-- The frames that are out for shared buffers. -/
  held : List UInt64
  /-- A count of references has been taken below zero. -/
  underflow : Bool

namespace Sys

def sharedVmRelease (s : Sys) (id count : ℕ) : Sys :=
  match s.objects[id]? with
  | none => s
  | some object =>
    let s := { s with underflow := s.underflow || object.refs < count }
    if object.refs - count = 0 then
      { s with objects := s.objects.erase id, held := object.frames.foldl List.erase s.held }
    else { s with objects := s.objects.insert id { object with refs := object.refs - count } }

/-- Add references to an object. -/
def sharedVmRetain (s : Sys) (id count : ℕ) : Sys :=
  { s with objects := s.objects.modify id fun o => { o with refs := o.refs + count } }

/-- The loop that takes the frames of a buffer; on failure they are handed back. -/
def takeFrames : ℕ → List (Option UInt64) → Option (List UInt64) × List (Option UInt64)
  | 0, answers => (some [], answers)
  | n + 1, some frame :: answers =>
    let (frames, answers) := takeFrames n answers
    (frames.map (frame :: ·), answers)
  | _ + 1, none :: answers => (none, answers)
  | _ + 1, [] => (none, [])

/-- The frames of a buffer are the first answers. -/
theorem takeFrames_some {n : ℕ} {answers answers' : List (Option UInt64)}
    {frames : List UInt64} (h : takeFrames n answers = (some frames, answers')) :
    answers = frames.map some ++ answers' := by
  induction n generalizing answers frames with
  | zero =>
    obtain ⟨hframes, rfl⟩ := Prod.mk.inj h
    rw [← Option.some.inj hframes]
    rfl
  | succ n ih =>
    rcases answers with _ | ⟨_ | frame, answers⟩
    · cases h
    · cases h
    · rw [takeFrames] at h
      rcases hrest : takeFrames n answers with ⟨_ | rest, left⟩
      · rw [hrest] at h
        cases h
      · rw [hrest] at h
        obtain ⟨hframes, rfl⟩ := Prod.mk.inj h
        rw [← Option.some.inj hframes, ih hrest]
        rfl

theorem takeFrames_none {n : ℕ} {answers answers' : List (Option UInt64)}
    (h : takeFrames n answers = (none, answers')) : answers' <:+ answers := by
  induction n generalizing answers with
  | zero => cases h
  | succ n ih =>
    rcases answers with _ | ⟨_ | frame, answers⟩
    · rw [(Prod.mk.inj h).2]
    · rw [← (Prod.mk.inj h).2]
      exact List.suffix_cons _ _
    · rw [takeFrames] at h
      rcases hrest : takeFrames n answers with ⟨_ | rest, left⟩
      · rw [hrest] at h
        obtain ⟨-, rfl⟩ := Prod.mk.inj h
        exact (ih hrest).trans (List.suffix_cons _ _)
      · rw [hrest] at h
        cases h

/-- `compare_exchange` of an owner from nobody, idempotent for the owner. -/
def tryAcquire (owner pid : ProcessId) : Option ProcessId :=
  if owner = 0 then some pid else if owner = pid then some owner else none

/-- `release_display` and `release_input`. -/
def release (owner pid : ProcessId) : ProcessId := if owner = pid then 0 else owner

def owner (s : Sys) : Device → ProcessId
  | .display => s.displayOwner
  | .input => s.inputOwner

def setOwner (s : Sys) (d : Device) (owner : ProcessId) : Sys :=
  match d with
  | .display => { s with displayOwner := owner }
  | .input => { s with inputOwner := owner }

end Sys

/-! ### Processes -/

inductive ProcessError
  | noAddressSpace
  | invalidUserContext
  | invalidMemoryRange
  | addressInUse
  | outOfMemory
  | notRunnable
  deriving DecidableEq, Repr

structure Process where
  pid : ProcessId
  isKernel : Bool
  /-- `address_space`. -/
  pages : Option Pages
  nextMmapAddr : ℕ
  sharedOwned : List ℕ
  sharedPages : ExtTreeMap ℕ ℕ
  guardRegions : ExtTreeMap ℕ ℕ
  handleTable : HandleTable
  tlsMemSize : ℕ
  tlsAlign : ℕ

/-- A process at work on what is shared. -/
structure Cell where
  proc : Process
  sys : Sys

abbrev P (ε : Type) := Prog Cell ε

def mapErr {σ ε ε' α : Type} (f : ε → ε') (m : Prog σ ε α) : Prog σ ε' α := fun s =>
  match m s with
  | (.ok a, s) => (.ok a, s)
  | (.error e, s) => (.error (f e), s)

def userMmapBase : ℕ := 0x0000001000000000

def userMmapEnd : ℕ := 0x0000700000000000

def pagesOf (start stop : ℕ) : List ℕ := List.range' start ((stop - start) / pageSize) pageSize

/-- `checked_add` of a page less one, rounded down. -/
def roundUp (length : ℕ) : Option ℕ :=
  if length + (pageSize - 1) < 2 ^ 64 then some ((length + (pageSize - 1)) / pageSize * pageSize)
  else none

def vmRangeEnd (start length : ℕ) : Except ProcessError ℕ :=
  if start < userMmapBase ∨ start % pageSize ≠ 0 ∨ length = 0 then .error .invalidMemoryRange
  else match roundUp length with
    | none => .error .invalidMemoryRange
    | some length =>
      if start + length > userMmapEnd then .error .invalidMemoryRange else .ok (start + length)

namespace Process

def new (pid : ProcessId) : Process where
  pid := pid
  isKernel := false
  pages := some fun _ => none
  nextMmapAddr := userMmapBase
  sharedOwned := []
  sharedPages := ∅
  guardRegions := ∅
  handleTable := HandleTable.new
  tlsMemSize := 0
  tlsAlign := 1

/-- Run a program on the address space; it has to be there. -/
def onSpace {α : Type} (m : Space.M α) : P ProcessError (Except AddressSpaceError α) := fun c =>
  match c.proc.pages with
  | none => (.error .noAddressSpace, c)
  | some pages =>
    let (r, (pages, answers)) := m (pages, c.sys.answers)
    (.ok r, ⟨{ c.proc with pages := some pages }, { c.sys with answers := answers }⟩)

/-- Map the pages of a list; on failure those that were mapped before are unmapped. -/
def mapAll (one : ℕ → Space.M Unit) (done : List ℕ) : List ℕ → Space.M Unit
  | [] => pure ()
  | page :: rest => fun s =>
    match one page s with
    | (.ok _, s) => mapAll one (done ++ [page]) rest s
    | (.error e, s) => (.error e, done.foldl (fun s p => Space.ignore (Space.unmapUserPage p) s) s)

def allMapped (pages : List ℕ) : Space.M Bool := fun s =>
  (.ok (pages.all fun page => Space.isMapped page s), s)

def anyMapped (pages : List ℕ) : Space.M Bool := fun s =>
  (.ok (pages.any fun page => Space.isMapped page s), s)

/-- Change the access to the pages of a list. -/
def protectAll (flags : PageFlags) (present : Bool) (pages : List ℕ) : Space.M Unit :=
  forEach (fun page => do let _ ← Space.protectUserPage page flags present) pages

def pageFlags (writable executable : Bool) : PageFlags :=
  (if writable then .writable else .fromBitsTruncate 0) ∪
    (if executable then .fromBitsTruncate 0 else .noExecute)

/-- An error of the address space, for a caller that reports a bad range. -/
def asRange {α : Type} : Except AddressSpaceError α → P ProcessError α
  | .ok a => pure a
  | .error _ => stop .invalidMemoryRange

/-- Take the access to pages away. -/
def protectPages (pages : List ℕ) : P ProcessError Unit := do
  asRange (← onSpace (protectAll .noExecute false pages))

/-- The end of `map_anonymous`: pages without access, and the two guards. -/
def sealMapping (start stop mapLength : ℕ) (guarded accessible : Bool) : P ProcessError ℕ := do
  let first := if guarded then start + pageSize else start
  let last := if guarded then stop - pageSize else stop
  when (!accessible) (protectPages (pagesOf first last))
  when guarded do
    protectPages [start, stop - pageSize]
    Prog.modify fun c => { c with proc := { c.proc with
      guardRegions := c.proc.guardRegions.insert (start + pageSize) mapLength } }
  return first

def mapAnonymous (requestedAddr length : ℕ) (writable executable guarded accessible : Bool) :
    P ProcessError ℕ := do
  let c ← Prog.get
  refuse (c.proc.isKernel || length == 0) .invalidMemoryRange
  let mapLength ← ofExcept ((roundUp length).elim (.error .invalidMemoryRange) .ok)
  let totalLength := if guarded then mapLength + 2 * pageSize else mapLength
  let start := if requestedAddr = 0 then c.proc.nextMmapAddr else requestedAddr
  refuse (requestedAddr != 0 && requestedAddr % pageSize != 0) .invalidMemoryRange
  let stop := start + totalLength
  refuse (start < userMmapBase || stop > userMmapEnd) .invalidMemoryRange
  let pages := pagesOf start stop
  let used ← onSpace (anyMapped pages)
  refuse (used matches .ok true) .addressInUse
  let flags := pageFlags writable executable
  let mapped ← onSpace (mapAll (fun page => do let _ ← Space.mapUserPage page flags) [] pages)
  refuse (mapped matches .error _) .outOfMemory
  when (requestedAddr == 0)
    (Prog.modify fun c => { c with proc := { c.proc with nextMmapAddr := stop } })
  sealMapping start stop mapLength guarded accessible

def allocSharedVmObject (length : ℕ) : P ProcessError ℕ := do
  let length ← ofExcept ((roundUp length).elim (.error .invalidMemoryRange) .ok)
  refuse (length == 0 || length > 16 * 1024 * 1024) .invalidMemoryRange
  let c ← Prog.get
  let (frames, answers) := Sys.takeFrames (length / pageSize) c.sys.answers
  match frames with
  | none =>
    Prog.modify fun c => { c with sys := { c.sys with answers := answers } }
    stop .outOfMemory
  | some frames =>
    let id := c.sys.nextSharedVmId
    Prog.modify fun c => { c with sys := { c.sys with
      answers := answers
      held := frames ++ c.sys.held
      nextSharedVmId := id + 1
      objects := c.sys.objects.insert id ⟨frames, 1⟩ } }
    return id

def createSharedVm (length : ℕ) : P ProcessError ℕ := do
  let c ← Prog.get
  refuse (c.proc.isKernel || length == 0) .invalidMemoryRange
  let id ← allocSharedVmObject length
  Prog.modify fun c => { c with proc := { c.proc with sharedOwned := c.proc.sharedOwned ++ [id] } }
  return id

def closeSharedVm (id : ℕ) : P ProcessError Unit := do
  let c ← Prog.get
  match c.proc.sharedOwned.idxOf? id with
  | none => stop .invalidMemoryRange
  | some index =>
    Prog.modify fun c => ⟨{ c.proc with sharedOwned := swapRemove c.proc.sharedOwned index },
      c.sys.sharedVmRelease id 1⟩

/-- Give references back and fail. -/
def releaseAndStop {α : Type} (id count : ℕ) (e : ProcessError) : P ProcessError α := do
  Prog.modify fun c => { c with sys := c.sys.sharedVmRelease id count }
  stop e

/-- Map the frames of a buffer at consecutive pages. -/
def mapFrames (flags : PageFlags) (frames : List (ℕ × UInt64)) : Space.M Unit :=
  mapAll (fun page => do
    let s ← Prog.get
    refuse (Space.isMapped page s) .invalidUserAddress
    match frames.lookup page with
    | some frame => Space.mapUserFrame page frame flags
    | none => pure ()) [] (frames.map Prod.fst)

def mapSharedVm (id requestedAddr : ℕ) (writable : Bool) : P ProcessError ℕ := do
  let c ← Prog.get
  refuse c.proc.isKernel .invalidUserContext
  match c.sys.objects[id]? with
  | none => stop .invalidMemoryRange
  | some object =>
    let frames := object.frames
    Prog.modify fun c => { c with sys := c.sys.sharedVmRetain id frames.length }
    let start := if requestedAddr = 0 then c.proc.nextMmapAddr else requestedAddr
    let stop := start + frames.length * pageSize
    if ¬(start ≥ userMmapBase ∧ start % pageSize = 0 ∧ stop ≤ userMmapEnd) then
      releaseAndStop id frames.length .invalidMemoryRange
    else if c.proc.pages.isNone then releaseAndStop id frames.length .noAddressSpace
    else
      let pages := pagesOf start stop
      let mapped ← onSpace (mapFrames (pageFlags writable false) (pages.zip frames))
      if mapped matches .error _ then releaseAndStop id frames.length .addressInUse
      else
        Prog.modify fun c => { c with proc := { c.proc with
          sharedPages := pages.foldl (fun t page => t.insert page id) c.proc.sharedPages
          nextMmapAddr := if requestedAddr = 0 then stop else c.proc.nextMmapAddr } }
        return start

/-- What `unmap_range` makes of the guarded regions: `none` if the range cuts one. -/
def guardOf (start stop : ℕ) : List (ℕ × ℕ) → Option (Option (ℕ × ℕ))
  | [] => some none
  | (usable, len) :: rest =>
    if start < usable + len + pageSize ∧ stop > usable - pageSize then
      if start ≠ usable ∨ stop ≠ usable + len then none
      else match guardOf start stop rest with
        | none => none
        | some none => some (some (usable, len))
        | some (some g) => some (some g)
    else guardOf start stop rest

/-- One page of `unmap_range`. -/
def unmapOne (page : ℕ) : P ProcessError Unit := do
  let _ ← asRange (← onSpace (Space.unmapUserPage page))
  let c ← Prog.get
  match c.proc.sharedPages[page]? with
  | none => pure ()
  | some id => Prog.modify fun c =>
    ⟨{ c.proc with sharedPages := c.proc.sharedPages.erase page }, c.sys.sharedVmRelease id 1⟩

def unmapRange (start length : ℕ) : P ProcessError Unit := do
  let stop ← ofExcept (vmRangeEnd start length)
  let c ← Prog.get
  match guardOf start stop c.proc.guardRegions.toList with
  | none => Prog.stop .invalidMemoryRange
  | some guard =>
    let pages := pagesOf start stop
    let mapped ← onSpace (allMapped pages)
    refuse (mapped matches .ok false) .invalidMemoryRange
    forEach unmapOne pages
    match guard with
    | none => pure ()
    | some (usable, len) => do
      let _ ← onSpace (Space.unmapUserPage (usable - pageSize))
      let _ ← onSpace (Space.unmapUserPage (usable + len))
      Prog.modify fun c => { c with proc := { c.proc with
        guardRegions := c.proc.guardRegions.erase usable } }

def protectRange (start length : ℕ) (writable executable present : Bool) :
    P ProcessError Unit := do
  let stop ← ofExcept (vmRangeEnd start length)
  let c ← Prog.get
  refuse (c.proc.guardRegions.toList.any fun (usable, len) =>
    (start ≤ usable - pageSize && stop > usable - pageSize) ||
      (start ≤ usable + len && stop > usable + len)) .invalidMemoryRange
  let pages := pagesOf start stop
  let mapped ← onSpace (allMapped pages)
  refuse (mapped matches .ok false) .invalidMemoryRange
  asRange (← onSpace (protectAll (pageFlags writable executable) present pages))

/-- `allocate_tls_instance`: the base and the length of the mapping. -/
def allocateTlsInstance : P ProcessError (ℕ × ℕ) := do
  let c ← Prog.get
  if c.proc.tlsMemSize = 0 then return (0, 0)
  else
    let tlsSize := (c.proc.tlsMemSize + (c.proc.tlsAlign - 1)) / c.proc.tlsAlign * c.proc.tlsAlign
    let mappedLength ← ofExcept ((roundUp (tlsSize + 8)).elim (.error .invalidMemoryRange) .ok)
    let base ← mapAnonymous 0 mappedLength true false false true
    return (base, mappedLength)

def installTlsTemplate (imageLen memSize align : ℕ) : P ProcessError Unit := do
  refuse (imageLen > memSize || memSize == 0 || align != 2 ^ align.log2) .invalidMemoryRange
  Prog.modify fun c => { c with proc := { c.proc with
    tlsMemSize := memSize
    tlsAlign := max align 1 } }
  let _ ← allocateTlsInstance

/-- The objects of a process, one after the other, at its end. -/
def dropObject (pid : ProcessId) (s : Sys) : HandleObject → Sys
  | .display => s.setOwner .display (Sys.release (s.owner .display) pid)
  | .input => s.setOwner .input (Sys.release (s.owner .input) pid)
  | .sharedFrames id => s.sharedVmRelease id 1
  | _ => s

def releaseVmResources (c : Cell) : Cell where
  proc := { c.proc with
    pages := none
    sharedPages := ∅
    sharedOwned := []
    guardRegions := ∅
    handleTable := { c.proc.handleTable with entries := ∅ } }
  sys :=
    let s := c.proc.sharedPages.toList.foldl (fun s e => s.sharedVmRelease e.2 1) c.sys
    let s := c.proc.sharedOwned.foldl (fun s id => s.sharedVmRelease id 1) s
    c.proc.handleTable.drainObjects.foldl (dropObject c.proc.pid) s

/-- The object that a creation registers, and the state after it. -/
def created (c : Cell) (frames : List UInt64) (answers : List (Option UInt64)) : Cell :=
  ⟨c.proc, { c.sys with
    answers := answers
    held := frames ++ c.sys.held
    nextSharedVmId := c.sys.nextSharedVmId + 1
    objects := c.sys.objects.insert c.sys.nextSharedVmId ⟨frames, 1⟩ }⟩

/-- **What the creation of a buffer does**: the answers are used up, and with frames enough
there is a new object. -/
theorem allocSharedVmObject_cases (length : ℕ) (c : Cell) :
    (∃ e, allocSharedVmObject length c = (.error e, c)) ∨
    ∃ n answers, (Sys.takeFrames n c.sys.answers = (none, answers) ∧ allocSharedVmObject length c =
        (.error .outOfMemory, ⟨c.proc, { c.sys with answers := answers }⟩)) ∨
      ∃ frames, Sys.takeFrames n c.sys.answers = (some frames, answers) ∧
        allocSharedVmObject length c = (.ok c.sys.nextSharedVmId, created c frames answers) := by
  rw [allocSharedVmObject]
  rcases roundUp length with _ | length
  · exact .inl ⟨_, rfl⟩
  · rw [Option.elim_some, ofExcept_ok, pure_bind_run, refuse_bind_run]
    cases length == 0 || length > 16 * 1024 * 1024 with
    | true => exact .inl ⟨_, rfl⟩
    | false =>
      rw [if_neg Bool.false_ne_true, get_bind_run]
      rcases htake : Sys.takeFrames (length / pageSize) c.sys.answers with ⟨_ | frames, answers⟩
      · exact .inr ⟨_, answers, .inl ⟨htake, rfl⟩⟩
      · exact .inr ⟨_, answers, .inr ⟨frames, htake, rfl⟩⟩

/-! ### Handles of a process -/

/-- Put an object into the table. -/
def publish (object : HandleObject) (rights : Rights) : P HandleError Handle := do
  let c ← Prog.get
  match c.proc.handleTable.insert object rights with
  | none => stop .noReturn
  | some (handle, table) =>
    Prog.modify fun c => { c with proc := { c.proc with handleTable := table } }
    return handle

def handleCreateMemory (len : ℕ) : P HandleError Handle := do
  refuse (len == 0 || len > maxMemoryObject) .tooLarge
  publish (.memory (List.replicate len 0)) (rightRead ||| rightWrite ||| rightMap ||| rightTransfer)

def handleCreateEndpoint (target : ProcessId) : P HandleError Handle :=
  publish (.endpoint target) (rightSignal ||| rightTransfer)

/-- The two objects that there is one of. -/
def HandleObject.isSingleton : HandleObject → Bool
  | .display | .input => true
  | _ => false

def handleDup (handle : Handle) (newRights : Rights) : P HandleError Handle := do
  let c ← Prog.get
  refuse ((c.proc.handleTable.entries[handle]?.map fun e =>
    HandleObject.isSingleton e.object).getD false) .wrongType
  match c.proc.handleTable.duplicate handle newRights with
  | .error e => stop e
  | .ok (new, table) =>
    Prog.modify fun c => { c with proc := { c.proc with handleTable := table } }
    match table.entries[new]? with
    | some ⟨.sharedFrames id, _⟩ =>
      Prog.modify fun c => { c with sys := c.sys.sharedVmRetain id 1 }
    | _ => pure ()
    return new

def handleCreateShared (len : ℕ) : P HandleError Handle := do
  let c ← Prog.get
  refuse c.proc.isKernel .wrongType
  let id ← mapErr (fun e => if e = .outOfMemory then .mapFailed else .tooLarge)
    (allocSharedVmObject len)
  publish (.sharedFrames id) (rightRead ||| rightWrite ||| rightMap ||| rightTransfer)

def handleClose (handle : Handle) : P HandleError Unit := do
  let c ← Prog.get
  match c.proc.handleTable.remove handle with
  | .error e => stop e
  | .ok (entry, table) => Prog.modify fun c =>
    ⟨{ c.proc with handleTable := table }, dropObject c.proc.pid c.sys entry.object⟩

def handleMap (handle : Handle) (addr len : ℕ) : P HandleError ℕ := do
  let c ← Prog.get
  match c.proc.handleTable.require handle rightMap with
  | .error e => stop e
  | .ok ⟨.sharedFrames id, rights⟩ =>
    mapErr (fun _ => .mapFailed) (mapSharedVm id addr (rights &&& rightWrite != 0))
  | .ok ⟨.memory _, _⟩ =>
    mapErr (fun _ => .mapFailed) (mapAnonymous addr (max len 1) true false false true)
  | .ok _ => stop .wrongType

/-- Become the owner of a device and get a handle to it. -/
def handleAcquire (d : Device) : P HandleError Handle := do
  let c ← Prog.get
  match Sys.tryAcquire (c.sys.owner d) c.proc.pid with
  | none => stop .displayBusy
  | some owner =>
    Prog.modify fun c => { c with sys := c.sys.setOwner d owner }
    publish d.object d.right

def handleDisplayAcquire : P HandleError Handle := handleAcquire .display

def handleInputAcquire : P HandleError Handle := handleAcquire .input

def handleTakeForTransfer (handle : Handle) : P HandleError HandleEntry := do
  let c ← Prog.get
  let entry ← ofExcept (c.proc.handleTable.require handle rightTransfer)
  refuse (HandleObject.isSingleton entry.object) .wrongType
  match c.proc.handleTable.remove handle with
  | .error e => stop e
  | .ok (entry, table) =>
    Prog.modify fun c => { c with proc := { c.proc with handleTable := table } }
    return entry

/-! ### What the calls on handles do -/

section

variable (object : HandleObject) (rights : Rights) (handle : Handle) (c : Cell)

/-- The process with another table of handles. -/
def withTable (table : HandleTable) : Cell := ⟨{ c.proc with handleTable := table }, c.sys⟩

theorem publish_cases : publish object rights c = (.error .noReturn, c) ∨
    ∃ new table, c.proc.handleTable.insert object rights = some (new, table) ∧
      publish object rights c = (.ok new, withTable c table) := by
  rw [publish, get_bind_run]
  rcases hins : c.proc.handleTable.insert object rights with _ | ⟨new, table⟩
  · exact .inl rfl
  · exact .inr ⟨new, table, rfl, rfl⟩

/-- What a new handle to an object adds. -/
def retainObject (s : Sys) : HandleObject → Sys
  | .sharedFrames id => s.sharedVmRetain id 1
  | _ => s

theorem handleDup_cases : (∃ e, handleDup handle rights c = (.error e, c)) ∨
    ∃ entry new table, c.proc.handleTable.entries[handle]? = some entry ∧
      HandleObject.isSingleton entry.object = false ∧
      c.proc.handleTable.duplicate handle rights = .ok (new, table) ∧
      handleDup handle rights c =
        (.ok new, { withTable c table with sys := retainObject c.sys entry.object }) := by
  rw [handleDup, get_bind_run, refuse_bind_run]
  cases hsing : ((c.proc.handleTable.entries[handle]?.map fun e =>
    HandleObject.isSingleton e.object).getD false) with
  | true => exact .inl ⟨_, rfl⟩
  | false =>
    rcases hdup : c.proc.handleTable.duplicate handle rights with e | ⟨new, table⟩
    · exact .inl ⟨e, rfl⟩
    · obtain ⟨entry, hentry, -, -, hent⟩ := duplicate_ok hdup
      rw [hentry] at hsing
      refine .inr ⟨entry, new, table, hentry, hsing, rfl, ?_⟩
      have hnew : table.entries[new]? =
          some ⟨entry.object, rights &&& rightsAll &&& rightsAll⟩ := by
        rw [hent, ExtTreeMap.getElem?_insert_self]
      simp only [hnew]
      cases entry.object <;> rfl

theorem handleClose_cases : (∃ e, handleClose handle c = (.error e, c)) ∨
    ∃ entry table, c.proc.handleTable.remove handle = .ok (entry, table) ∧ handleClose handle c =
        (.ok (), { withTable c table with sys := dropObject c.proc.pid c.sys entry.object }) := by
  rw [handleClose, get_bind_run]
  rcases hrem : c.proc.handleTable.remove handle with e | ⟨entry, table⟩
  · exact .inl ⟨e, rfl⟩
  · exact .inr ⟨entry, table, rfl, rfl⟩

theorem handleTakeForTransfer_cases : (∃ e, handleTakeForTransfer handle c = (.error e, c)) ∨
    ∃ entry table, HandleObject.isSingleton entry.object = false ∧
      c.proc.handleTable.remove handle = .ok (entry, table) ∧
      handleTakeForTransfer handle c = (.ok entry, withTable c table) := by
  rw [handleTakeForTransfer, get_bind_run]
  rcases hreq : c.proc.handleTable.require handle rightTransfer with e | entry
  · exact .inl ⟨e, rfl⟩
  · rw [ofExcept_ok, pure_bind_run, refuse_bind_run]
    cases hsing : HandleObject.isSingleton entry.object with
    | true => exact .inl ⟨_, rfl⟩
    | false =>
      rcases hrem : c.proc.handleTable.remove handle with e | ⟨entry', table⟩
      · exact .inl ⟨e, rfl⟩
      · obtain rfl := Option.some.inj
          ((require_ok hreq).1.symm.trans (remove_ok hrem).1)
        exact .inr ⟨entry, table, hsing, rfl, rfl⟩

theorem tryAcquire_some {owner pid o : ProcessId} (h : Sys.tryAcquire owner pid = some o) :
    o = pid ∧ (owner = 0 ∨ owner = pid) := by
  rw [Sys.tryAcquire] at h
  split_ifs at h with h0 hpid
  · exact ⟨(Option.some.inj h).symm, .inl h0⟩
  · exact ⟨(Option.some.inj h).symm.trans hpid, .inr hpid⟩

/-- **What the acquisition of a device does**; if the table has no place for the handle the
call does not return. -/
theorem handleAcquire_cases (d : Device) : (∃ e, handleAcquire d c = (.error e, c)) ∨
    (c.sys.owner d = 0 ∨ c.sys.owner d = c.proc.pid) ∧
      ((∃ c', handleAcquire d c = (.error .noReturn, c')) ∨
        ∃ new table, c.proc.handleTable.insert d.object d.right = some (new, table) ∧
          handleAcquire d c =
            (.ok new, { withTable c table with sys := c.sys.setOwner d c.proc.pid })) := by
  rw [handleAcquire, get_bind_run]
  rcases hacq : Sys.tryAcquire (c.sys.owner d) c.proc.pid with _ | owner
  · exact .inl ⟨_, rfl⟩
  · obtain ⟨rfl, hfree⟩ := tryAcquire_some hacq
    refine .inr ⟨hfree, ?_⟩
    rcases publish_cases d.object d.right ⟨c.proc, c.sys.setOwner d c.proc.pid⟩ with
      hrun | ⟨new, table, hins, hrun⟩
    · exact .inl ⟨_, hrun⟩
    · exact .inr ⟨new, table, hins, hrun⟩

end

end Process

end DunitOS.Kernel
