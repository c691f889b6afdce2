import Mathlib.Algebra.Group.Nat.Defs
import Mathlib.Data.List.Induction

/-!
# Pipes

`kernel/src/pipe.rs`: a pipe is a buffer of bytes with two counts of references, one for its read
end and one for its write end, and it is there as long as one of them is not zero. The readiness
that `poll` reports is computed by code of its own.

What a pipe should do is said by a *ledger*, which is kept from the outside: from the calls and
their results alone it knows the bytes that were accepted, the bytes that were read, and how many
references there are. `run_queued` says that every pipe is the bounded queue of its
ledger, in any run of calls in which no end has `2 ^ 32` references at once.
-/

namespace DunitOS.Pipes

open List Pipes Nat

/-! ### The registry -/

/-- The greatest number of bytes in a pipe. -/
def capacity : ℕ := 64 * 1024

structure Pipe where
  buf : List UInt8
  readRefs : ℕ
  writeRefs : ℕ
  deriving DecidableEq

structure Registry where
  pipes : ℕ → Option Pipe
  nextId : ℕ

def empty : Registry := ⟨fun _ => none, 1⟩

inductive PipeRead where
  | data (bytes : List UInt8)
  | wouldBlock
  | eof
  deriving DecidableEq

inductive PipeWrite where
  | wrote (n : ℕ)
  | wouldBlock
  | broken
  deriving DecidableEq

/-- Put a pipe at an identifier. -/
def Registry.set (reg : Registry) (id : ℕ) (pipe : Option Pipe) : Registry :=
  { reg with pipes := Function.update reg.pipes id pipe }

/-- A new pipe with one reference to each end. The counter of identifiers wraps. -/
def create (reg : Registry) : ℕ × Registry :=
  (reg.nextId, { reg.set reg.nextId (some ⟨[], 1, 1⟩) with nextId := (reg.nextId + 1) % 2 ^ 64 })

/-- One more reference to an end. The counts are numbers of 32 bits, and wrap. -/
def retain (id : ℕ) (writeEnd : Bool) (reg : Registry) : Registry :=
  match reg.pipes id with
  | some pipe => reg.set id (some
      (if writeEnd then { pipe with writeRefs := (pipe.writeRefs + 1) % 2 ^ 32 }
      else { pipe with readRefs := (pipe.readRefs + 1) % 2 ^ 32 }))
  | none => reg

/-- One reference less to an end, and whether the other end has to be woken. -/
def release (id : ℕ) (writeEnd : Bool) (reg : Registry) : Bool × Registry :=
  match reg.pipes id with
  | some pipe =>
    let pipe := if writeEnd then { pipe with writeRefs := pipe.writeRefs - 1 }
      else { pipe with readRefs := pipe.readRefs - 1 }
    let wake := if writeEnd then pipe.writeRefs == 0 else pipe.readRefs == 0
    (wake, reg.set id (if pipe.readRefs = 0 ∧ pipe.writeRefs = 0 then none else some pipe))
  | none => (false, reg)

def isReadable (id : ℕ) (reg : Registry) : Bool :=
  match reg.pipes id with
  | some pipe => !pipe.buf.isEmpty || pipe.writeRefs == 0
  | none => true

def isWritable (id : ℕ) (reg : Registry) : Bool :=
  match reg.pipes id with
  | some pipe => pipe.readRefs == 0 || decide (pipe.buf.length < capacity)
  | none => true

def writeClosed (id : ℕ) (reg : Registry) : Bool :=
  match reg.pipes id with
  | some pipe => pipe.writeRefs == 0
  | none => true

/-- Read as many bytes as there are, and not more than asked for. -/
def read (id len : ℕ) (reg : Registry) : PipeRead × Registry :=
  match reg.pipes id with
  | none => (.eof, reg)
  | some pipe =>
    if pipe.buf = [] then (if pipe.writeRefs = 0 then .eof else .wouldBlock, reg)
    else
      let n := min len pipe.buf.length
      (.data (pipe.buf.take n), reg.set id (some { pipe with buf := pipe.buf.drop n }))

/-- Write as many bytes as there is room for. -/
def write (id : ℕ) (bytes : List UInt8) (reg : Registry) : PipeWrite × Registry :=
  match reg.pipes id with
  | none => (.broken, reg)
  | some pipe =>
    if pipe.readRefs = 0 then (.broken, reg)
    else
      let space := capacity - pipe.buf.length
      if space = 0 then (.wouldBlock, reg)
      else
        let n := min space bytes.length
        (.wrote n, reg.set id (some { pipe with buf := pipe.buf ++ bytes.take n }))

/-! ### Readiness -/

def pollIn : UInt16 := 0x001

def pollOut : UInt16 := 0x004

def pollHup : UInt16 := 0x010

def pollNval : UInt16 := 0x020

/-- What a descriptor of a process stands for. -/
inductive FdTarget where
  | stdin
  | stdout
  | stderr
  | vfs (descriptor : ℕ)
  | pipe (id : ℕ) (write : Bool)
  deriving DecidableEq

/-- A bit of the answer of `poll`, if a condition holds. -/
def bitIf (c : Bool) (bit : UInt16) : UInt16 := if c then bit else 0

/-- **The readiness of one descriptor.** A negative one is ignored. -/
def pollOne (fdTable : ℕ → Option FdTarget) (fd : ℤ) (events : UInt16) (reg : Registry) : UInt16 :=
  let wants (bit : UInt16) : Bool := events &&& bit != 0
  if fd < 0 then 0
  else match fdTable fd.toNat with
    | none => pollNval
    | some .stdin => bitIf (wants pollIn) pollIn
    | some .stdout => bitIf (wants pollOut) pollOut
    | some .stderr => bitIf (wants pollOut) pollOut
    | some (.vfs _) => bitIf (wants pollIn) pollIn ||| bitIf (wants pollOut) pollOut
    | some (.pipe id false) =>
      bitIf (wants pollIn && isReadable id reg) pollIn ||| bitIf (writeClosed id reg) pollHup
    | some (.pipe id true) => bitIf (wants pollOut && isWritable id reg) pollOut

/-! ### Calls and their history -/

inductive Op where
  | create
  | retain (id : ℕ) (writeEnd : Bool)
  | release (id : ℕ) (writeEnd : Bool)
  | read (id len : ℕ)
  | write (id : ℕ) (bytes : List UInt8)
  deriving DecidableEq

inductive Result where
  | created (id : ℕ)
  | retained
  | released (wake : Bool)
  | read (r : PipeRead)
  | written (r : PipeWrite)
  deriving DecidableEq

def Op.exec (op : Op) (reg : Registry) : Result × Registry :=
  match op with
  | create => ((.created (Pipes.create reg).1), (Pipes.create reg).2)
  | retain id writeEnd => (.retained, Pipes.retain id writeEnd reg)
  | release id writeEnd =>
    (.released (Pipes.release id writeEnd reg).1, (Pipes.release id writeEnd reg).2)
  | read id len => (.read (Pipes.read id len reg).1, (Pipes.read id len reg).2)
  | write id bytes => (.written (Pipes.write id bytes reg).1, (Pipes.write id bytes reg).2)

/-- **The ledger of a pipe**: the bytes that were accepted and those that were read since the pipe
was created, and the references to its ends. -/
structure Ledger where
  sent : List UInt8 := []
  got : List UInt8 := []
  readers : ℕ := 0
  writers : ℕ := 0
  deriving DecidableEq

namespace Ledger

/-- The pipe is there. -/
def live (l : Ledger) : Bool := l.readers != 0 || l.writers != 0

/-- What a call and its result say of the pipe with an identifier. A pipe that is not there gets no
references. -/
def note (id : ℕ) (l : Ledger) : Op → Result → Ledger
  | .create, .created i => if i = id then { readers := 1, writers := 1 } else l
  | .retain i writeEnd, _ =>
    if i = id ∧ l.live then
      (if writeEnd then { l with writers := l.writers + 1 }
      else { l with readers := l.readers + 1 })
    else l
  | .release i writeEnd, _ =>
    if i = id then
      (if writeEnd then { l with writers := l.writers - 1 }
      else { l with readers := l.readers - 1 })
    else l
  | .read i _, .read (.data bytes) => if i = id then { l with got := l.got ++ bytes } else l
  | .write i bytes, .written (.wrote n) =>
    if i = id then { l with sent := l.sent ++ bytes.take n } else l
  | _, _ => l

/-- The bytes that are in the pipe: those that were accepted and not read, while it is there. -/
def queued (l : Ledger) : List UInt8 := if l.live then l.sent.drop l.got.length else []

/-- **What a read returns**: bytes from the front of the queue. It ends only if there are none and
no one can write any. -/
def read (l : Ledger) (len : ℕ) : PipeRead :=
  if l.queued ≠ [] then .data (l.queued.take len)
  else if l.writers = 0 then .eof
  else .wouldBlock

/-- **What a write returns**: as many bytes are accepted as there is room for. It fails only if no
one can read them. -/
def write (l : Ledger) (bytes : List UInt8) : PipeWrite :=
  if l.readers = 0 then .broken
  else if l.queued.length = capacity then .wouldBlock
  else .wrote (min bytes.length (capacity - l.queued.length))

end Ledger

/-- The registry and the ledgers after a run of calls. -/
def run (ops : List Op) : Registry × (ℕ → Ledger) :=
  ops.foldl (fun s op =>
    let r := op.exec s.1
    (r.2, fun id => (s.2 id).note id op r.1)) (empty, fun _ => {})

/-- No end of a pipe has too many references for its count. -/
def Counted (ledgers : ℕ → Ledger) : Prop :=
  ∀ id, (ledgers id).readers < 2 ^ 32 ∧ (ledgers id).writers < 2 ^ 32

/-! ### A pipe and its ledger -/

/-- **A pipe is the bounded queue of its ledger.** -/
structure Refines (reg : Registry) (id : ℕ) (l : Ledger) : Prop where
  got_prefix : l.got <+: l.sent
  length_le : l.queued.length ≤ capacity
  read_eq : ∀ len, (read id len reg).1 = l.read len
  write_eq : ∀ bytes, (write id bytes reg).1 = l.write bytes

/-- What ties the pipe with an identifier to its ledger. -/
def Tied (pipe : Option Pipe) (l : Ledger) : Prop :=
  match pipe with
  | some p => l.sent = l.got ++ p.buf ∧ p.buf.length ≤ capacity ∧ p.readRefs = l.readers ∧
      p.writeRefs = l.writers ∧ l.live = true
  | none => l.got <+: l.sent ∧ l.readers = 0 ∧ l.writers = 0

open Ledger

theorem Tied.refines {reg : Registry} {id : ℕ} {l : Ledger} (h : Tied (reg.pipes id) l) :
    Refines reg id l := by
  rcases hp : reg.pipes id with _ | p
  · rw [hp] at h
    obtain ⟨hpre, hr, hw⟩ := h
    have hq : l.queued = [] := by
      rw [queued, live, hr, hw]
      rfl
    refine ⟨hpre, by rw [hq]; exact zero_le _, fun len => ?_, fun bytes => ?_⟩
    · rw [read, hp, Ledger.read, hq, if_neg (not_not.mpr rfl), if_pos hw]
    · rw [write, hp, Ledger.write, if_pos hr]
  · rw [hp] at h
    obtain ⟨hsent, hlen, hr, hw, hlive⟩ := h
    have hq : l.queued = p.buf := by
      rw [queued, if_pos hlive, hsent, drop_left]
    refine ⟨⟨p.buf, hsent.symm⟩, by rwa [hq], fun len => ?_, fun bytes => ?_⟩
    · rw [read, hp, Ledger.read, hq]
      by_cases hnil : p.buf = []
      · simp only [hnil, if_true, ne_eq, not_true, if_false, hw]
      · simp only [hnil, if_false, ne_eq, not_false_iff, if_true]
        rw [← take_eq_take_min]
    · rw [write, hp, Ledger.write, hq]
      by_cases hr0 : p.readRefs = 0
      · simp only [hr0, if_true, ← hr]
      · have hfull : capacity - p.buf.length = 0 ↔ p.buf.length = capacity := by omega
        simp only [hr0, ← hr, if_false, hfull, Nat.min_comm]
        split_ifs <;> rfl

/-! ### One call -/

section

variable {reg : Registry} {id : ℕ} {l : Ledger}

theorem Registry.set_self (reg : Registry) (id : ℕ) (pipe : Option Pipe) :
    (reg.set id pipe).pipes id = pipe := Function.update_self _ _ _

theorem Registry.set_of_ne {i : ℕ} (h : i ≠ id) (pipe : Option Pipe) :
    (reg.set i pipe).pipes id = reg.pipes id := Function.update_of_ne h.symm _ _

open Registry

theorem Tied.create (h : Tied (reg.pipes id) l) :
    Tied ((create reg).2.pipes id) (l.note id .create (.created (create reg).1)) := by
  show Tied ((reg.set reg.nextId _).pipes id) (if reg.nextId = id then _ else l)
  by_cases hi : reg.nextId = id
  · rw [if_pos hi, ← hi, set_self]
    exact ⟨rfl, zero_le _, rfl, rfl, rfl⟩
  · rwa [if_neg hi, set_of_ne hi]

theorem Tied.retain (h : Tied (reg.pipes id) l) (i : ℕ) (writeEnd : Bool)
    (hcount : (l.note id (.retain i writeEnd) .retained).readers < 2 ^ 32 ∧
      (l.note id (.retain i writeEnd) .retained).writers < 2 ^ 32) :
    Tied ((retain i writeEnd reg).pipes id) (l.note id (.retain i writeEnd) .retained) := by
  rw [note] at hcount ⊢
  by_cases hi : i = id
  swap
  · rw [if_neg fun hc => hi hc.1, Pipes.retain]
    rcases reg.pipes i with _ | p
    · exact h
    · rwa [set_of_ne hi]
  subst hi
  rcases hp : reg.pipes i with _ | p
  · rw [hp] at h
    have hdead : ¬(i = i ∧ l.live = true) := by
      rw [live, h.2.1, h.2.2]
      exact fun hc => (nomatch hc.2)
    rw [if_neg hdead, retain]
    simp only [hp]
    exact h
  · rw [hp] at h
    obtain ⟨hsent, hlen, hr, hw, hlive⟩ := h
    rw [if_pos ⟨rfl, hlive⟩] at hcount ⊢
    rw [retain]
    simp only [hp]
    rw [set_self]
    cases writeEnd with
    | true =>
      refine ⟨hsent, hlen, hr, ?_, ?_⟩
      · show (p.writeRefs + 1) % 2 ^ 32 = l.writers + 1
        rw [hw]
        exact mod_eq_of_lt hcount.2
      · show (l.readers != 0 || l.writers + 1 != 0) = true
        simp
    | false =>
      refine ⟨hsent, hlen, ?_, hw, ?_⟩
      · show (p.readRefs + 1) % 2 ^ 32 = l.readers + 1
        rw [hr]
        exact mod_eq_of_lt hcount.1
      · show (l.readers + 1 != 0 || l.writers != 0) = true
        simp

/-- A pipe whose references are counted as in its ledger, and that is dropped without them. -/
theorem tied_drop {p : Pipe} (hsent : l.sent = l.got ++ p.buf) (hlen : p.buf.length ≤ capacity)
    (hr : p.readRefs = l.readers) (hw : p.writeRefs = l.writers) :
    Tied (if p.readRefs = 0 ∧ p.writeRefs = 0 then none else some p) l := by
  by_cases hnone : p.readRefs = 0 ∧ p.writeRefs = 0
  · rw [if_pos hnone]
    exact ⟨⟨p.buf, hsent.symm⟩, hr ▸ hnone.1, hw ▸ hnone.2⟩
  · rw [if_neg hnone]
    refine ⟨hsent, hlen, hr, hw, ?_⟩
    rw [live, Bool.or_eq_true, bne_iff_ne, bne_iff_ne, ← hr, ← hw]
    exact not_and_or.mp hnone

section

variable (h : Tied (reg.pipes id) l)

include h

theorem Tied.release (i : ℕ) (writeEnd : Bool) (r : Result) :
    Tied ((release i writeEnd reg).2.pipes id) (l.note id (.release i writeEnd) r) := by
  rw [note]
  by_cases hi : i = id
  swap
  · rw [if_neg hi, Pipes.release]
    rcases reg.pipes i with _ | p
    · exact h
    · rwa [set_of_ne hi]
  subst hi
  rw [if_pos rfl, release]
  rcases hp : reg.pipes i with _ | p
  · rw [hp] at h
    simp only [hp]
    cases writeEnd with
    | true => exact ⟨h.1, h.2.1, Nat.sub_eq_zero_of_le (Nat.le_succ_of_le (Nat.le_of_eq h.2.2))⟩
    | false => exact ⟨h.1, Nat.sub_eq_zero_of_le (Nat.le_succ_of_le (Nat.le_of_eq h.2.1)), h.2.2⟩
  · rw [hp] at h
    obtain ⟨hsent, hlen, hr, hw, -⟩ := h
    simp only
    rw [set_self]
    cases writeEnd with
    | true => exact tied_drop hsent hlen hr (congrArg (· - 1) hw)
    | false => exact tied_drop hsent hlen (congrArg (· - 1) hr) hw

theorem Tied.read (i len : ℕ) :
    Tied ((read i len reg).2.pipes id) (l.note id (.read i len) (.read (read i len reg).1)) := by
  rw [Pipes.read]
  rcases hp : reg.pipes i with _ | p
  · exact h
  by_cases hnil : p.buf = []
  · simp only [hnil, if_true]
    by_cases hw : p.writeRefs = 0
    · rwa [if_pos hw]
    · rwa [if_neg hw]
  simp only [hnil, if_false]
  rw [note]
  by_cases hi : i = id
  · subst hi
    rw [hp] at h
    obtain ⟨hsent, hlen, hr, hw, hlive⟩ := h
    rw [if_pos rfl, set_self]
    refine ⟨?_, ?_, hr, hw, hlive⟩
    · rw [append_assoc, take_append_drop]
      exact hsent
    · rw [length_drop]
      exact Nat.le_trans (Nat.sub_le _ _) hlen
  · rwa [if_neg hi, set_of_ne hi]

theorem Tied.write (i : ℕ) (bytes : List UInt8) :
    Tied ((write i bytes reg).2.pipes id)
      (l.note id (.write i bytes) (.written (write i bytes reg).1)) := by
  rw [Pipes.write]
  rcases hp : reg.pipes i with _ | p
  · exact h
  by_cases hread : p.readRefs = 0
  · simp only [hread, if_true]
    exact h
  by_cases hspace : capacity - p.buf.length = 0
  · simp only [hread, if_false, hspace, if_true]
    exact h
  simp only [hread, if_false, hspace]
  rw [note]
  by_cases hi : i = id
  · subst hi
    rw [hp] at h
    obtain ⟨hsent, hlen, hr, hw, hlive⟩ := h
    rw [if_pos rfl, set_self]
    refine ⟨?_, ?_, hr, hw, hlive⟩
    · rw [hsent, append_assoc]
    · rw [length_append, length_take]
      omega
  · rwa [if_neg hi, set_of_ne hi]

/-- **One call** leaves a pipe and its ledger tied. -/
theorem Tied.exec (op : Op)
    (hcount : (l.note id op (op.exec reg).1).readers < 2 ^ 32 ∧
      (l.note id op (op.exec reg).1).writers < 2 ^ 32) :
    Tied ((op.exec reg).2.pipes id) (l.note id op (op.exec reg).1) := by
  cases op with
  | create => exact h.create
  | retain i writeEnd => exact h.retain i writeEnd hcount
  | release i writeEnd => exact h.release i writeEnd _
  | read i len => exact h.read i len
  | write i bytes => exact h.write i bytes

end

end

/-! ### Runs -/

theorem run_concat (ops : List Op) (op : Op) : run (ops ++ [op]) =
    ((op.exec (run ops).1).2, fun id => ((run ops).2 id).note id op (op.exec (run ops).1).1) := by
  rw [run, foldl_append]
  rfl

/-- **Pipes and their ledgers stay tied** in any run of calls without too many references. -/
theorem run_tied (ops : List Op) (hcount : ∀ pre, pre <+: ops → Counted (run pre).2) (id : ℕ) :
    Tied ((run ops).1.pipes id) ((run ops).2 id) := by
  induction ops using reverseRecOn with
  | nil => exact ⟨prefix_refl _, rfl, rfl⟩
  | append_singleton ops op ih =>
    have hlast := hcount _ (prefix_refl _) id
    rw [run_concat] at hlast ⊢
    exact (ih fun pre hpre => hcount pre (hpre.trans (prefix_append ops [op]))).exec op hlast

/-! ### Readiness and what it promises -/

section

variable {reg : Registry} {id : ℕ} {l : Ledger}

theorem isReadable_iff : isReadable id reg = true ↔ (read id 1 reg).1 ≠ .wouldBlock := by
  rw [isReadable, read]
  rcases reg.pipes id with _ | p
  · simp
  by_cases hnil : p.buf = []
  · by_cases hw : p.writeRefs = 0
    · simp [hnil, hw]
    · simp [hnil, hw]
  · simp [hnil]

theorem isWritable_iff (b : UInt8) :
    isWritable id reg = true ↔ (write id [b] reg).1 ≠ .wouldBlock := by
  rw [isWritable, write]
  rcases reg.pipes id with _ | p
  · simp
  by_cases hr : p.readRefs = 0
  · simp [hr]
  by_cases hspace : capacity - p.buf.length = 0
  · have hfull : ¬p.buf.length < capacity := by omega
    simp [hr, hspace, hfull]
  · have hroom : p.buf.length < capacity := by omega
    simp [hr, hspace, hroom]

theorem Tied.writeClosed_iff (h : Tied (reg.pipes id) l) :
    writeClosed id reg = true ↔ l.writers = 0 := by
  rw [writeClosed]
  rcases hp : reg.pipes id with _ | p
  · rw [hp] at h
    simp [h.2.2]
  · rw [hp] at h
    simp [← h.2.2.2.1]

/-- **What the bits of `poll` say of a pipe.** On a descriptor of the read end, `POLLIN` is set if
it is asked for and a read of one byte would not block, and `POLLHUP` if there are no references to
the write end. On one of the write end, `POLLOUT` is set if it is asked for and a write of one byte
would not block. No other bit is ever set. -/
structure Ready (reg : Registry) (id : ℕ) (l : Ledger) : Prop where
  read_end : ∀ (fdTable : ℕ → Option FdTarget) (fd : ℕ) (events : UInt16),
    fdTable fd = some (.pipe id false) →
    (pollOne fdTable fd events reg &&& pollIn ≠ 0 ↔
      events &&& pollIn ≠ 0 ∧ (read id 1 reg).1 ≠ .wouldBlock) ∧
    (pollOne fdTable fd events reg &&& pollHup ≠ 0 ↔ l.writers = 0) ∧
    pollOne fdTable fd events reg &&& ~~~(pollIn ||| pollHup) = 0
  write_end : ∀ (fdTable : ℕ → Option FdTarget) (fd : ℕ) (events : UInt16) (b : UInt8),
    fdTable fd = some (.pipe id true) →
    (pollOne fdTable fd events reg &&& pollOut ≠ 0 ↔
      events &&& pollOut ≠ 0 ∧ (write id [b] reg).1 ≠ .wouldBlock) ∧
    pollOne fdTable fd events reg &&& ~~~pollOut = 0

/-- Two bits that are set under conditions can be told apart. -/
theorem bits_in_hup : ∀ a b : Bool,
    ((bitIf a pollIn ||| bitIf b pollHup) &&& pollIn ≠ 0 ↔ a = true) ∧
      ((bitIf a pollIn ||| bitIf b pollHup) &&& pollHup ≠ 0 ↔ b = true) ∧
      (bitIf a pollIn ||| bitIf b pollHup) &&& ~~~(pollIn ||| pollHup) = 0 := by
  decide

theorem bits_out : ∀ a : Bool,
    (bitIf a pollOut &&& pollOut ≠ 0 ↔ a = true) ∧ bitIf a pollOut &&& ~~~pollOut = 0 := by
  decide

theorem Tied.ready (h : Tied (reg.pipes id) l) : Ready reg id l := by
  constructor
  · intro fdTable fd events hfd
    have hpoll : pollOne fdTable fd events reg =
        bitIf (events &&& pollIn != 0 && isReadable id reg) pollIn |||
          bitIf (writeClosed id reg) pollHup := by
      rw [pollOne, if_neg (Int.not_lt.mpr (Int.natCast_nonneg fd)), Int.toNat_natCast, hfd]
    obtain ⟨hin, hhup, hrest⟩ := bits_in_hup (events &&& pollIn != 0 && isReadable id reg)
      (writeClosed id reg)
    rw [hpoll]
    refine ⟨hin.trans ?_, hhup.trans h.writeClosed_iff, hrest⟩
    rw [Bool.and_eq_true, bne_iff_ne, isReadable_iff]
  · intro fdTable fd events b hfd
    have hpoll : pollOne fdTable fd events reg =
        bitIf (events &&& pollOut != 0 && isWritable id reg) pollOut := by
      rw [pollOne, if_neg (Int.not_lt.mpr (Int.natCast_nonneg fd)), Int.toNat_natCast, hfd]
    obtain ⟨hout, hrest⟩ := bits_out (events &&& pollOut != 0 && isWritable id reg)
    rw [hpoll]
    refine ⟨hout.trans ?_, hrest⟩
    rw [Bool.and_eq_true, bne_iff_ne, isWritable_iff b]

end

/-- **Pipes are bounded queues**, in any run of calls in which no end has `2 ^ 32` references at
once, and `poll` tells what a read or a write of one byte would do. -/
theorem run_queued (ops : List Op) (hcount : ∀ pre, pre <+: ops → Counted (run pre).2) (id : ℕ) :
    Refines (run ops).1 id ((run ops).2 id) ∧ Ready (run ops).1 id ((run ops).2 id) :=
  ⟨(run_tied ops hcount id).refines, (run_tied ops hcount id).ready⟩

/-- A call makes at most one reference to each end. -/
theorem Ledger.note_refs_le (l : Ledger) (id : ℕ) (op : Op) (r : Result) {n : ℕ}
    (h : l.readers ≤ n ∧ l.writers ≤ n) :
    (l.note id op r).readers ≤ n + 1 ∧ (l.note id op r).writers ≤ n + 1 := by
  have hsub : ∀ {k}, k ≤ n → k - 1 ≤ n + 1 := fun hk => by omega
  have hkeep : ∀ {k}, k ≤ n → k ≤ n + 1 := le_succ_of_le
  unfold note
  split
  · split_ifs
    · exact ⟨le_add_left 1 n, le_add_left 1 n⟩
    · exact ⟨hkeep h.1, hkeep h.2⟩
  · split_ifs
    · exact ⟨hkeep h.1, succ_le_succ h.2⟩
    · exact ⟨succ_le_succ h.1, hkeep h.2⟩
    · exact ⟨hkeep h.1, hkeep h.2⟩
  · split_ifs
    · exact ⟨hkeep h.1, hsub h.2⟩
    · exact ⟨hsub h.1, hkeep h.2⟩
    · exact ⟨hkeep h.1, hkeep h.2⟩
  · split_ifs <;> exact ⟨hkeep h.1, hkeep h.2⟩
  · split_ifs <;> exact ⟨hkeep h.1, hkeep h.2⟩
  · exact ⟨hkeep h.1, hkeep h.2⟩

theorem run_refs_le (ops : List Op) (id : ℕ) :
    ((run ops).2 id).readers ≤ ops.length ∧ ((run ops).2 id).writers ≤ ops.length := by
  induction ops using reverseRecOn with
  | nil => exact ⟨Nat.le_refl _, Nat.le_refl _⟩
  | append_singleton ops op ih =>
    rw [run_concat, length_append]
    exact note_refs_le _ id op _ ih

/-- A run with less than `2 ^ 32` calls has no end with too many references. -/
theorem counted_of_length {ops : List Op} (h : ops.length < 2 ^ 32) {pre : List Op}
    (hpre : pre <+: ops) : Counted (run pre).2 := by
  intro id
  have hle := run_refs_le pre id
  have hlen := hpre.length_le
  omega

/-- A pipe is created, two bytes are written and one is read. -/
def oneByteLeft : List Op := [.create, .write 1 [7, 8], .read 1 1]

/-- The other byte is still there. -/
theorem run_queued_oneByteLeft :
    (read 1 5 (run oneByteLeft).1).1 = ((run oneByteLeft).2 1).read 5 ∧
      ((run oneByteLeft).2 1).read 5 = .data [8] := by
  have hlen : oneByteLeft.length < 2 ^ 32 := by decide
  exact ⟨(run_queued oneByteLeft (fun _ => counted_of_length hlen) 1).1.read_eq 5, by decide⟩

/-- A pipe is created, and references to its write end are made. -/
def manyWriters (n : ℕ) : List Op := .create :: List.replicate n (.retain 1 true)

theorem run_manyWriters (n : ℕ) : (run (manyWriters n)).1.pipes 1 = some ⟨[], 1, (1 + n) % 2 ^ 32⟩ ∧
    (run (manyWriters n)).2 1 = ⟨[], [], 1, 1 + n⟩ := by
  induction n with
  | zero => exact ⟨rfl, rfl⟩
  | succ n ih =>
    have hsucc : manyWriters (n + 1) = manyWriters n ++ [.retain 1 true] := by
      rw [manyWriters, replicate_succ', manyWriters, cons_append]
    rw [hsucc, run_concat]
    constructor
    · show (retain 1 true (run (manyWriters n)).1).pipes 1 = _
      rw [retain, ih.1]
      simp only [if_true]
      rw [Registry.set_self]
      have hmod : ((1 + n) % 2 ^ 32 + 1) % 2 ^ 32 = (1 + (n + 1)) % 2 ^ 32 := by omega
      rw [hmod]
    · show ((run (manyWriters n)).2 1).note 1 (.retain 1 true) .retained = _
      rw [ih.2]
      rfl

/-- **Where the bits and the counts say something else.** A pipe with one byte in it and a writer
can be read, and `POLLHUP` is not set; nor is any bit if none is asked for. And with `2 ^ 32`
references to its write end, a pipe without bytes reports the end to its readers. -/
theorem hup_and_wrapped_count :
    (read 1 1 (run [.create, .write 1 [7]]).1).1 = .data [7] ∧
      pollOne (fun _ => some (.pipe 1 false)) 3 (pollIn ||| pollHup)
        (run [.create, .write 1 [7]]).1 = pollIn ∧
      pollOne (fun _ => some (.pipe 1 false)) 3 0 (run [.create, .write 1 [7]]).1 = 0 ∧
      (read 1 1 (run (manyWriters (2 ^ 32 - 1))).1).1 = .eof ∧
      ((run (manyWriters (2 ^ 32 - 1))).2 1).writers = 2 ^ 32 := by
  obtain ⟨hpipe, hledger⟩ := run_manyWriters (2 ^ 32 - 1)
  refine ⟨by decide, by decide, by decide, ?_, ?_⟩
  · rw [read, hpipe]
    rfl
  · rw [hledger]
    rfl

end DunitOS.Pipes
