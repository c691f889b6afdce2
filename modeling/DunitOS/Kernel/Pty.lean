import DunitOS.SysLib.Bytes

/-!
# Pseudo terminals

`kernel/src/pty/mod.rs`: a pseudo terminal has two rings of bounded size, one in each direction, and
a line that is being edited. What the master types goes to the ring of the slave at once, or, in
canonical mode, to the line, which goes to the ring as a whole when it ends. The mode is in the
attributes of the terminal, which the slave can replace between any two calls.

What the slave should read is said by a *ledger*, which is kept from the calls and their results:
the bytes that were accepted, less those that were erased from their line, and the bytes that were
read. `kept_iff` says which calls keep the terminal to its ledger. The ring of the
slave can be too full for a line that ends, although the call says that it was accepted, and a line
that was begun in canonical mode stays behind when the mode changes and bytes are typed after it.
The two rings are bounded and the line is not: what bounds it is how often the master ends it
(`buffered_le_of_typed`).
-/

namespace DunitOS.Ptys

open List SysLib Nat

/-! ### A terminal and its calls -/

/-- The greatest number of bytes in a ring. -/
def ringCap : ℕ := 8192

def termiosSize : ℕ := 60

/-- A pseudo terminal. The attributes are a record of bytes. -/
structure Pty where
  master : ℕ
  slave : Option ℕ := none
  toSlave : List UInt8 := []
  toMaster : List UInt8 := []
  termios : List UInt8
  canon : List UInt8 := []
  deriving DecidableEq

/-- No flags are set, so that input is neither edited nor echoed. -/
def rawTermios : List UInt8 :=
  splice (splice (replicate termiosSize 0) (17 + 2) [0x7f]) (17 + 6) [1]

def termiosLflag (t : List UInt8) : ℕ := getLe t 12 4

namespace Pty

def canonical (pty : Pty) : Bool := termiosLflag pty.termios &&& 0o2 != 0

def echo (pty : Pty) : Bool := termiosLflag pty.termios &&& 0o10 != 0

/-- The character that erases, besides the backspace. -/
def eraseChar (pty : Pty) : UInt8 := pty.termios.getD (17 + 2) 0

/-- The bytes that the kernel holds for a terminal. -/
def buffered (pty : Pty) : ℕ := pty.canon.length + pty.toSlave.length + pty.toMaster.length

end Pty

def create (master : ℕ) : Pty := { master, termios := rawTermios }

/-- How many bytes a ring has room for. -/
def ringRoom (ring data : List UInt8) : ℕ := min (ringCap - ring.length) data.length

/-- The bytes that there is no room for are dropped. -/
def ringPush (ring data : List UInt8) : List UInt8 := ring ++ data.take (ringRoom ring data)

/-- Bytes for the master, if input is echoed. -/
def echoed (pty : Pty) (data : List UInt8) : List UInt8 :=
  if pty.echo then ringPush pty.toMaster data else pty.toMaster

/-- What a typed byte is: in canonical mode it edits the line or ends it. -/
inductive Key where
  | erase
  | edit
  | lineEnd
  | raw

def Pty.key (pty : Pty) (b : UInt8) : Key :=
  if pty.canonical then
    if b = pty.eraseChar ∨ b = 8 then .erase else if b = 10 then .lineEnd else .edit
  else .raw

/-- **One typed byte**, where it is not passed on as it is. -/
def typeByte (pty : Pty) (b : UInt8) : Pty :=
  match pty.key b with
  | .erase =>
    { pty with
      canon := pty.canon.dropLast
      toMaster := if pty.canon = [] then pty.toMaster else echoed pty [8, 32, 8] }
  | .edit => { pty with canon := pty.canon ++ [b], toMaster := echoed pty [b] }
  | .lineEnd =>
    { pty with
      canon := []
      toMaster := echoed pty [b]
      toSlave := ringPush pty.toSlave (pty.canon ++ [b]) }
  | .raw => { pty with toSlave := ringPush pty.toSlave [b], toMaster := echoed pty [b] }

/-- Type bytes: how many were accepted, if the caller is the master. -/
def masterWrite (master : ℕ) (data : List UInt8) (pty : Pty) : Option ℕ × Pty :=
  if pty.master ≠ master then (none, pty)
  else if pty.canonical = false ∧ pty.echo = false then
    (some (ringRoom pty.toSlave data), { pty with toSlave := ringPush pty.toSlave data })
  else (some data.length, data.foldl typeByte pty)

/-- Take output: the bytes, and whether the slave is gone and there will be no more. -/
def masterRead (master len : ℕ) (slaveGone : Bool) (pty : Pty) :
    Option (List UInt8 × Bool) × Pty :=
  if pty.master ≠ master then (none, pty)
  else
    let rest := pty.toMaster.drop len
    (some (pty.toMaster.take len, pty.slave.isSome && slaveGone && rest.isEmpty),
      { pty with toMaster := rest })

/-- The slave replaces the attributes, or the first of their bytes. -/
def setTermios (pid : ℕ) (blob : List UInt8) (pty : Pty) : Bool × Pty :=
  if pty.slave ≠ some pid then (false, pty)
  else (true, { pty with termios := splice pty.termios 0 (blob.take termiosSize) })

inductive SlaveRead where
  | data (bytes : List UInt8)
  | wouldBlock
  | eof
  deriving DecidableEq

/-- The bytes of a ring up to the first line end, that one included. -/
def oneLine : List UInt8 → List UInt8
  | [] => []
  | b :: bs => if b = 10 then [b] else b :: oneLine bs

/-- The input that a read gets: at most one line in canonical mode. -/
def slaveInput (pty : Pty) (len : ℕ) : List UInt8 :=
  if pty.canonical then oneLine (pty.toSlave.take len) else pty.toSlave.take len

def slaveReadStdin (pid len : ℕ) (masterGone : Bool) (pty : Pty) : Option SlaveRead × Pty :=
  if pty.slave ≠ some pid then (none, pty)
  else
    let data := slaveInput pty len
    (some (if data ≠ [] then .data data else if masterGone then .eof else .wouldBlock),
      { pty with toSlave := pty.toSlave.drop data.length })

def slaveWriteStdout (pid : ℕ) (data : List UInt8) (pty : Pty) : Bool × Pty :=
  if pty.slave ≠ some pid then (false, pty)
  else (true, { pty with toMaster := ringPush pty.toMaster data })

def attachSlave (master slave : ℕ) (pty : Pty) : Bool × Pty :=
  if pty.master ≠ master then (false, pty) else (true, { pty with slave := some slave })

inductive Call where
  | attachSlave (master slave : ℕ)
  | masterWrite (master : ℕ) (data : List UInt8)
  | masterRead (master len : ℕ) (slaveGone : Bool)
  | slaveReadStdin (pid len : ℕ) (masterGone : Bool)
  | slaveWriteStdout (pid : ℕ) (data : List UInt8)
  | setTermios (pid : ℕ) (blob : List UInt8)
  deriving DecidableEq

def Call.exec (pty : Pty) : Call → Pty
  | attachSlave master slave => (Ptys.attachSlave master slave pty).2
  | masterWrite master data => (Ptys.masterWrite master data pty).2
  | masterRead master len slaveGone => (Ptys.masterRead master len slaveGone pty).2
  | slaveReadStdin pid len masterGone => (Ptys.slaveReadStdin pid len masterGone pty).2
  | slaveWriteStdout pid data => (Ptys.slaveWriteStdout pid data pty).2
  | setTermios pid blob => (Ptys.setTermios pid blob pty).2

/-- The bytes that a call of the master accepts, as it says itself. -/
def accepted (master : ℕ) (data : List UInt8) (pty : Pty) : List UInt8 :=
  data.take ((masterWrite master data pty).1.getD 0)

/-! ### The ledger -/

/-- **The ledger of a terminal**: the bytes that the slave has to be given, the bytes of the line
that can still be erased, and the bytes that the slave was given. -/
structure Ledger where
  sent : List UInt8 := []
  line : List UInt8 := []
  got : List UInt8 := []
  deriving DecidableEq

/-- A byte that was accepted. In canonical mode it belongs to the line until that ends; and what was
typed before is sent before. -/
def Ledger.type (pty : Pty) (l : Ledger) (b : UInt8) : Ledger :=
  match pty.key b with
  | .erase => { l with line := l.line.dropLast }
  | .edit => { l with line := l.line ++ [b] }
  | .lineEnd | .raw => { l with sent := l.sent ++ (l.line ++ [b]), line := [] }

/-- What a call says of the input. -/
def Ledger.note (pty : Pty) (l : Ledger) : Call → Ledger
  | .masterWrite master data => (accepted master data pty).foldl (Ledger.type pty) l
  | .slaveReadStdin pid len masterGone =>
    match (slaveReadStdin pid len masterGone pty).1 with
    | some (.data bytes) => { l with got := l.got ++ bytes }
    | _ => l
  | _ => l

def step (s : Pty × Ledger) (c : Call) : Pty × Ledger := (c.exec s.1, s.2.note s.1 c)

/-- A new terminal and its ledger after a run of calls. -/
def run (master : ℕ) (calls : List Call) : Pty × Ledger := calls.foldl step (create master, {})

/-- **The terminal keeps what it accepted**: what the slave was given and what it can be given is
what was sent, and the line is the line. -/
def Kept (s : Pty × Ledger) : Prop := s.2.got ++ s.1.toSlave = s.2.sent ∧ s.1.canon = s.2.line

instance (s : Pty × Ledger) : Decidable (Kept s) := inferInstanceAs (Decidable (_ ∧ _))

/-- There is room for a byte: for the whole line, if it ends, and no line is left behind. -/
def Room (pty : Pty) (b : UInt8) : Prop :=
  match pty.key b with
  | .erase | .edit => True
  | .lineEnd => pty.toSlave.length + pty.canon.length < ringCap
  | .raw => pty.toSlave.length < ringCap ∧ pty.canon = []

/-- There is room for one byte after the other. -/
def Roomy (pty : Pty) : List UInt8 → Prop
  | [] => True
  | b :: bs => Room pty b ∧ Roomy (typeByte pty b) bs

/-- There is room for what a call accepts. -/
def Call.Fits (pty : Pty) : Call → Prop
  | masterWrite master data => Roomy pty (accepted master data pty)
  | _ => True

/-! ### Rings -/

theorem ringRoom_le {ring data : List UInt8} : ringRoom ring data ≤ data.length :=
  min_le_right _ _

theorem length_ringPush (ring data : List UInt8) :
    (ringPush ring data).length = ring.length + ringRoom ring data := by
  rw [ringPush, length_append, length_take, min_eq_left ringRoom_le]

variable {ring : List UInt8}

theorem length_ringPush_le {data : List UInt8} (h : ring.length ≤ ringCap) :
    (ringPush ring data).length ≤ ringCap := by
  rw [length_ringPush, ringRoom]
  omega

/-- Everything is pushed just if there is room for it. -/
theorem ringPush_eq_append_iff {data : List UInt8} (h : data ≠ []) :
    ringPush ring data = ring ++ data ↔ ring.length + data.length ≤ ringCap := by
  have hpos := length_pos_of_ne_nil h
  constructor
  · intro heq
    have hlen := congrArg length heq
    rw [length_ringPush, length_append, ringRoom] at hlen
    omega
  · intro hroom
    rw [ringPush, ringRoom, min_eq_right (by omega), take_length]

/-- **Pushing bytes is pushing one after the other**, as far as there is room. -/
theorem ringPush_cons {b : UInt8} {bs : List UInt8}
    (h : ring.length < ringCap) : ringPush ring (b :: bs) = ringPush (ringPush ring [b]) bs ∧
      ringRoom ring (b :: bs) = ringRoom (ringPush ring [b]) bs + 1 := by
  have hone : ringPush ring [b] = ring ++ [b] := (ringPush_eq_append_iff (cons_ne_nil b [])).mpr h
  have hroom : ringRoom ring (b :: bs) = ringRoom (ringPush ring [b]) bs + 1 := by
    rw [hone, ringRoom, ringRoom, length_append, length_cons, length_singleton]
    omega
  refine ⟨?_, hroom⟩
  rw [ringPush, hroom, take_succ_cons, hone, ringPush, append_assoc, singleton_append]

/-! ### One byte -/

section

variable {pty : Pty} {l : Ledger}

/-- A typed byte leaves the attributes as they are. -/
theorem typeByte_termios {b : UInt8} : (typeByte pty b).termios = pty.termios := by
  rw [typeByte]
  cases pty.key b <;> rfl

theorem canonical_typeByte (b : UInt8) :
    (typeByte pty b).canonical = pty.canonical := by
  rw [Pty.canonical, typeByte_termios, Pty.canonical]

theorem canonical_of_key {b : UInt8} :
    (pty.key b = .raw → pty.canonical = false) ∧ (pty.key b = .lineEnd → pty.canonical = true) := by
  rw [Pty.key]
  rcases pty.canonical
  · exact ⟨fun _ => rfl, fun h => by cases h⟩
  · refine ⟨fun h => ?_, fun _ => rfl⟩
    rw [if_pos rfl] at h
    split_ifs at h

open Ledger

/-- **A byte is kept just if there is room for it.** -/
theorem kept_typeByte_iff (h : Kept (pty, l)) {b : UInt8} :
    Kept (typeByte pty b, l.type pty b) ↔ Room pty b := by
  obtain ⟨hsent, hline⟩ : l.got ++ pty.toSlave = l.sent ∧ pty.canon = l.line := h
  have hpush (data : List UInt8) : l.got ++ ringPush pty.toSlave data = l.sent ++ data ↔
      ringPush pty.toSlave data = pty.toSlave ++ data := by
    rw [← hsent, append_assoc, append_right_inj]
  rw [Kept, typeByte, type, Room]
  cases pty.key b with
  | erase => exact iff_of_true ⟨hsent, congrArg dropLast hline⟩ trivial
  | edit => exact iff_of_true ⟨hsent, congrArg (· ++ [b]) hline⟩ trivial
  | lineEnd =>
    rw [← hline, hpush, ringPush_eq_append_iff (by simp), length_append]
    exact and_iff_left rfl
  | raw =>
    refine and_congr_left fun hnil => ?_
    rw [← hline, hnil, nil_append, hpush, ringPush_eq_append_iff (cons_ne_nil b [])]
    rfl

/-- Bytes are missing that were sent, and none is left in the line to come in their place. -/
def Lost (pty : Pty) (l : Ledger) : Prop :=
  l.got.length + pty.toSlave.length < l.sent.length ∧
    (pty.canonical = true → pty.canon.length ≤ l.line.length)

/-- What is lost is not found again while the mode stays the same. -/
theorem Lost.typed (h : Lost pty l) (b : UInt8) : Lost (typeByte pty b) (l.type pty b) := by
  obtain ⟨hlt, hle⟩ := h
  have hpush (data : List UInt8) : (ringPush pty.toSlave data).length ≤
      pty.toSlave.length + data.length := by
    rw [length_ringPush]
    exact Nat.add_le_add_left ringRoom_le _
  rw [Lost, canonical_typeByte, typeByte, type]
  cases hk : pty.key b with
  | erase =>
    refine ⟨hlt, fun hc => ?_⟩
    rw [length_dropLast, length_dropLast]
    exact Nat.sub_le_sub_right (hle hc) 1
  | edit =>
    refine ⟨hlt, fun hc => ?_⟩
    rw [length_append, length_append]
    exact Nat.add_le_add_right (hle hc) _
  | lineEnd =>
    have hline := hpush (pty.canon ++ [b])
    have hle := hle ((canonical_of_key).2 hk)
    refine ⟨?_, fun _ => zero_le _⟩
    simp only [length_append] at hline ⊢
    omega
  | raw =>
    have hone := hpush [b]
    refine ⟨?_, fun hc => absurd hc (by rw [(canonical_of_key).1 hk]; decide)⟩
    simp only [length_append] at hone ⊢
    omega

/-- A byte that there is no room for is lost. -/
theorem lost_typeByte (h : Kept (pty, l)) {b : UInt8} (hroom : ¬Room pty b) :
    Lost (typeByte pty b) (l.type pty b) := by
  obtain ⟨hsent, hline⟩ : l.got ++ pty.toSlave = l.sent ∧ pty.canon = l.line := h
  have hlen := congrArg length hsent
  rw [length_append] at hlen
  rw [Room] at hroom
  rw [Lost, canonical_typeByte, typeByte, type, ← hline]
  rcases hk : pty.key b <;> rw [hk] at hroom
  · exact absurd trivial hroom
  · exact absurd trivial hroom
  · refine ⟨?_, fun _ => le_rfl⟩
    simp only [length_ringPush, ringRoom, length_append, length_singleton] at hroom ⊢
    omega
  · refine ⟨?_, fun hc => absurd hc (by rw [(canonical_of_key).1 hk]; decide)⟩
    simp only [length_ringPush, ringRoom, length_append, length_singleton]
    by_cases hnil : pty.canon = []
    · have hfull : ¬pty.toSlave.length < ringCap := fun hlt => hroom ⟨hlt, hnil⟩
      omega
    · have hpos := length_pos_of_ne_nil hnil
      omega

end

/-! ### One call -/

variable {pty : Pty} {s : Pty × Ledger}

section

variable {pty : Pty} {l : Ledger}

theorem type_congr {pty' : Pty} (h : pty'.termios = pty.termios) (l : Ledger) (b : UInt8) :
    l.type pty' b = l.type pty b := by
  rw [Ledger.type, Ledger.type, Pty.key, Pty.key, Pty.canonical, Pty.canonical, Pty.eraseChar,
    Pty.eraseChar, h]

theorem foldl_type_congr {pty' : Pty} (h : pty'.termios = pty.termios) (bs : List UInt8)
    : bs.foldl (Ledger.type pty') l = bs.foldl (Ledger.type pty) l := by
  rw [funext fun l => funext (type_congr h l)]

theorem Lost.foldl (h : Lost pty l) (bs : List UInt8) :
    Lost (bs.foldl typeByte pty) (bs.foldl (Ledger.type pty) l) := by
  induction bs generalizing pty l with
  | nil => exact h
  | cons b _ ih =>
    have hbs := ih (h.typed b)
    rwa [foldl_type_congr typeByte_termios] at hbs

/-- **Bytes are kept just if there is room for one after the other.** -/
theorem kept_foldl_iff (h : Kept (pty, l)) {bs : List UInt8} :
    Kept (bs.foldl typeByte pty, bs.foldl (Ledger.type pty) l) ↔ Roomy pty bs := by
  induction bs generalizing pty l with
  | nil => exact ⟨fun _ => trivial, fun _ => h⟩
  | cons b bs ih =>
    rw [foldl_cons, foldl_cons, Roomy, ← foldl_type_congr typeByte_termios]
    by_cases hroom : Room pty b
    · rw [ih ((kept_typeByte_iff h).mpr hroom)]
      exact ⟨fun hbs => ⟨hroom, hbs⟩, fun hbs => hbs.2⟩
    · have hlost := (Lost.foldl (lost_typeByte h hroom) bs).1
      refine ⟨fun hk => ?_, fun hbs => absurd hbs.1 hroom⟩
      rw [← length_append] at hlost
      exact absurd (congrArg length hk.1) hlost.ne

/-- In raw mode, bytes that are not echoed are typed one after the other. -/
theorem foldl_typeByte_raw (hc : pty.canonical = false) (he : pty.echo = false)
    {data : List UInt8} : (data.take (ringRoom pty.toSlave data)).foldl typeByte pty =
      { pty with toSlave := ringPush pty.toSlave data } := by
  induction data generalizing pty with
  | nil => rw [take_nil, ringPush, take_nil, append_nil]; rfl
  | cons b bs ih =>
    by_cases hlt : pty.toSlave.length < ringCap
    · have hone : typeByte pty b = { pty with toSlave := ringPush pty.toSlave [b] } := by
        have hkey : pty.key b = .raw := by
          rw [Pty.key, hc]
          rfl
        rw [typeByte, hkey]
        dsimp only
        rw [echoed, he]
        rfl
      obtain ⟨hpush, hroom⟩ := ringPush_cons hlt
      rw [hroom, take_succ_cons, foldl_cons, hpush, hone]
      exact @ih { pty with toSlave := ringPush pty.toSlave [b] } hc he
    · have hroom : ringRoom pty.toSlave (b :: bs) = 0 := by
        rw [ringRoom]
        omega
      rw [ringPush, hroom, take_zero, append_nil]
      rfl

/-- **What a master writes is typed byte by byte**, as far as it is accepted. -/
theorem masterWrite_eq_foldl (master : ℕ) (data : List UInt8) :
    (masterWrite master data pty).2 = (accepted master data pty).foldl typeByte pty := by
  rw [accepted, masterWrite]
  by_cases hm : pty.master ≠ master
  · rw [if_pos hm]
    rfl
  rw [if_neg hm]
  by_cases hraw : pty.canonical = false ∧ pty.echo = false
  · rw [if_pos hraw]
    exact (foldl_typeByte_raw hraw.1 hraw.2).symm
  · rw [if_neg hraw]
    show _ = (data.take data.length).foldl typeByte pty
    rw [take_length]

theorem oneLine_prefix {bs : List UInt8} : oneLine bs <+: bs := by
  induction bs with
  | nil => exact prefix_rfl
  | cons b bs ih =>
    rw [oneLine]
    split_ifs
    · exact ⟨bs, rfl⟩
    · exact (prefix_cons_inj b).mpr ih

theorem slaveInput_prefix {len : ℕ} : slaveInput pty len <+: pty.toSlave := by
  rw [slaveInput]
  split_ifs
  · exact oneLine_prefix.trans <| take_prefix len _
  · exact take_prefix len _

/-- **What a call can do**: it types what it accepts, or it takes bytes off the ring of the slave,
most often none, and adds to the other ring what there is room for. -/
theorem step_cases (c : Call) :
    (∃ bs, step (pty, l) c = (bs.foldl typeByte pty, bs.foldl (Ledger.type pty) l) ∧
      c.Fits pty = Roomy pty bs) ∨
    (c.Fits pty ∧ ∃ bs rest, pty.toSlave = bs ++ rest ∧ (step (pty, l) c).1.toSlave = rest ∧
      (step (pty, l) c).1.canon = pty.canon ∧ (step (pty, l) c).2 = { l with got := l.got ++ bs } ∧
      (pty.toMaster.length ≤ ringCap → (step (pty, l) c).1.toMaster.length ≤ ringCap)) := by
  have hquiet : l = { l with got := l.got ++ [] } := by rw [append_nil]
  cases c with
  | masterWrite master data =>
    refine .inl ⟨accepted master data pty, ?_, rfl⟩
    rw [step, Call.exec, masterWrite_eq_foldl]
    rfl
  | slaveReadStdin pid len masterGone =>
    refine .inr ⟨trivial, ?_⟩
    rw [step, Call.exec, Ledger.note, slaveReadStdin]
    by_cases hp : pty.slave ≠ some pid
    · rw [if_pos hp]
      exact ⟨[], _, rfl, rfl, rfl, hquiet, id⟩
    rw [if_neg hp]
    obtain ⟨rest, hrest⟩ := slaveInput_prefix
    refine ⟨slaveInput pty len, rest, hrest.symm, ?_, rfl, ?_, id⟩
    · show pty.toSlave.drop (slaveInput pty len).length = rest
      rw [← hrest, drop_left]
    · by_cases hnil : slaveInput pty len = []
      · simp only [hnil, ne_eq, not_true, if_false]
        cases masterGone <;> exact hquiet
      · simp only [hnil, ne_eq, not_false_iff, if_true]
  | attachSlave =>
    rw [step, Call.exec, attachSlave]
    split_ifs <;> exact .inr ⟨trivial, [], _, rfl, rfl, rfl, hquiet, id⟩
  | masterRead _ len =>
    rw [step, Call.exec, masterRead]
    split_ifs
    · exact .inr ⟨trivial, [], _, rfl, rfl, rfl, hquiet, id⟩
    · refine .inr ⟨trivial, [], _, rfl, rfl, rfl, hquiet, fun hle => ?_⟩
      show (pty.toMaster.drop len).length ≤ _
      rw [length_drop]
      omega
  | slaveWriteStdout _ data =>
    rw [step, Call.exec, slaveWriteStdout]
    split_ifs
    · exact .inr ⟨trivial, [], _, rfl, rfl, rfl, hquiet, id⟩
    · exact .inr ⟨trivial, [], _, rfl, rfl, rfl, hquiet, length_ringPush_le⟩
  | setTermios =>
    rw [step, Call.exec, setTermios]
    split_ifs <;> exact .inr ⟨trivial, [], _, rfl, rfl, rfl, hquiet, id⟩

/-- **A call is kept just if there is room for what it accepts.** -/
theorem kept_step_iff (h : Kept s) {c : Call} : Kept (step s c) ↔ c.Fits s.1 := by
  obtain ⟨pty, l⟩ := s
  rcases step_cases c with ⟨bs, heq, hfits⟩ | ⟨hfits, bs, rest, hs, hrest, hc, hl, -⟩
  · rw [heq, hfits]
    exact kept_foldl_iff h
  · refine ⟨fun _ => hfits, fun _ => ⟨?_, ?_⟩⟩
    · rw [hl, hrest, ← h.1]
      rw [hs, append_assoc]
    · rw [hl, hc]
      exact h.2

end

/-! ### Runs -/

theorem kept_foldl_step_iff (h : Kept s) {calls : List Call} :
    (∀ k, Kept ((calls.take k).foldl step s)) ↔
      ∀ (k : ℕ) (c : Call), calls[k]? = some c → c.Fits ((calls.take k).foldl step s).1 := by
  induction calls generalizing s with
  | nil => simp [h]
  | cons c _ ih =>
    constructor
    · intro hk k d hd
      have hc := hk 1
      cases k with
      | zero => exact (kept_step_iff h).mp (by rwa [← Option.some.inj hd])
      | succ k => exact (ih hc).mp (fun k => hk (k + 1)) k d hd
    · intro hfits k
      have hc := (kept_step_iff h).mpr (hfits 0 c rfl)
      cases k with
      | zero => exact h
      | succ k => exact (ih hc).mpr (fun k d hd => hfits (k + 1) d hd) k

/-- **What a terminal accepts is read once and in order, just if no call leaves a line behind and
the ring has room for each line that ends.** After each call of a run, the slave was given, or can
be given, what the calls of the master said that they accepted, less what was erased from its
line. -/
theorem kept_iff (master : ℕ) (calls : List Call) :
    (∀ k, Kept (run master (calls.take k))) ↔
      ∀ (k : ℕ) (c : Call), calls[k]? = some c → c.Fits (run master (calls.take k)).1 :=
  kept_foldl_step_iff ⟨rfl, rfl⟩

/-- Attributes with the flag of canonical mode. -/
def canonicalBlob : List UInt8 := replicate 12 0 ++ [2, 0, 0, 0]

/-- The flags of raw mode. -/
def rawBlob : List UInt8 := replicate 16 0

/-- A byte that is typed after a change of the mode is read before one that was typed before it:
`a` is typed in canonical mode and `b` in raw mode, and the slave is given `b` first. -/
theorem run_overtaken :
    (run 1 [.attachSlave 1 2, .setTermios 2 canonicalBlob, .masterWrite 1 [97],
      .setTermios 2 rawBlob, .masterWrite 1 [98], .slaveReadStdin 2 8 false,
      .setTermios 2 canonicalBlob, .masterWrite 1 [10], .slaveReadStdin 2 8 false]).2 =
        { sent := [97, 98, 10], line := [], got := [98, 97, 10] } := by
  decide +kernel

/-! ### The size of the buffers -/

/-- The rings are not longer than they may be. -/
def Ringed (pty : Pty) : Prop := pty.toSlave.length ≤ ringCap ∧ pty.toMaster.length ≤ ringCap

theorem Ringed.typeByte (h : Ringed pty) (b : UInt8) : Ringed (typeByte pty b) := by
  have hecho (data : List UInt8) : (echoed pty data).length ≤ ringCap := by
    rw [echoed]
    split_ifs
    · exact length_ringPush_le h.2
    · exact h.2
  rw [Ptys.typeByte]
  cases pty.key b with
  | erase =>
    refine ⟨h.1, ?_⟩
    split_ifs
    · exact h.2
    · exact hecho _
  | edit => exact ⟨h.1, hecho _⟩
  | lineEnd | raw => exact ⟨length_ringPush_le h.1, hecho _⟩

theorem Ringed.foldl (h : Ringed pty) (bs : List UInt8) : Ringed (bs.foldl Ptys.typeByte pty) := by
  induction bs generalizing pty with
  | nil => exact h
  | cons b _ ih => exact ih (h.typeByte b)

/-- **No call makes a ring too long.** -/
theorem Ringed.step (h : Ringed s.1) (c : Call) : Ringed (step s c).1 := by
  obtain ⟨pty, l⟩ := s
  rcases step_cases c with ⟨bs, heq, -⟩ | ⟨-, bs, rest, hs, hrest, -, -, hmaster⟩
  · rw [heq]
    exact h.foldl bs
  · refine ⟨?_, hmaster h.2⟩
    have hle : pty.toSlave.length ≤ ringCap := h.1
    rw [hs, length_append] at hle
    rw [hrest]
    omega

theorem ringed_run (master : ℕ) (calls : List Call) : Ringed (run master calls).1 := by
  have hstart : Ringed (create master, ({} : Ledger)).1 := ⟨zero_le _, zero_le _⟩
  rw [run]
  generalize (create master, ({} : Ledger)) = s at hstart ⊢
  induction calls generalizing s with
  | nil => exact hstart
  | cons c _ ih => exact ih _ (hstart.step c)

/-- The bytes of the line, counted from what is typed: an end of line starts the count again, and
in raw mode nothing is counted. -/
def Pty.count (pty : Pty) (n : ℕ) (b : UInt8) : ℕ :=
  match pty.key b with
  | .lineEnd => 0
  | .raw => n
  | .erase | .edit => n + 1

/-- The count after a call. -/
def Call.count (pty : Pty) (n : ℕ) : Call → ℕ
  | .masterWrite master data => if pty.master = master then data.foldl pty.count n else n
  | _ => n

/-- **The bytes typed in canonical mode since the last end of line**, after a run of calls. -/
def typedFrom (s : Pty × Ledger) (n : ℕ) : List Call → ℕ
  | [] => n
  | c :: calls => typedFrom (step s c) (c.count s.1 n) calls

section

variable {n : ℕ}

theorem count_congr {pty' : Pty} (h : pty'.termios = pty.termios) : pty'.count = pty.count := by
  funext n b
  rw [Pty.count, Pty.count, Pty.key, Pty.key, Pty.canonical, Pty.canonical, Pty.eraseChar,
    Pty.eraseChar, h]

theorem foldl_count_raw (hc : pty.canonical = false) (bs : List UInt8) :
    bs.foldl pty.count n = n := by
  induction bs with
  | nil => rfl
  | cons b bs ih =>
    have hb : pty.count n b = n := by
      rw [Pty.count, Pty.key, hc]
      rfl
    rw [foldl_cons, hb, ih]

/-- A byte adds to the line what it adds to the count. -/
theorem canon_typeByte_le (h : pty.canon.length ≤ n) (b : UInt8) :
    (typeByte pty b).canon.length ≤ pty.count n b := by
  rw [typeByte, Pty.count]
  cases pty.key b with
  | erase =>
    show pty.canon.dropLast.length ≤ n + 1
    rw [length_dropLast]
    omega
  | edit =>
    show (pty.canon ++ [b]).length ≤ n + 1
    rw [length_append, length_singleton]
    omega
  | lineEnd => exact zero_le _
  | raw => exact h

theorem canon_foldl_le (h : pty.canon.length ≤ n) (bs : List UInt8) :
    (bs.foldl typeByte pty).canon.length ≤ bs.foldl pty.count n := by
  induction bs generalizing pty n with
  | nil => exact h
  | cons b bs ih =>
    have hbs := ih (canon_typeByte_le h b)
    rwa [count_congr typeByte_termios] at hbs

/-- **The step lemma**: the line is not longer than the count. -/
theorem canon_exec_le (h : pty.canon.length ≤ n) (c : Call) :
    (c.exec pty).canon.length ≤ c.count pty n := by
  cases c with
  | masterWrite master data =>
    show (masterWrite master data pty).2.canon.length ≤
      if pty.master = master then data.foldl pty.count n else n
    rw [masterWrite]
    by_cases hm : pty.master = master
    · rw [if_neg (not_not_intro hm), if_pos hm]
      by_cases hraw : pty.canonical = false ∧ pty.echo = false
      · rw [if_pos hraw, foldl_count_raw hraw.1]
        exact h
      · rw [if_neg hraw]
        exact canon_foldl_le h data
    · rw [if_pos hm, if_neg hm]
      exact h
  | attachSlave => rw [Call.exec, attachSlave]; split_ifs <;> exact h
  | masterRead => rw [Call.exec, masterRead]; split_ifs <;> exact h
  | slaveReadStdin => rw [Call.exec, slaveReadStdin]; split_ifs <;> exact h
  | slaveWriteStdout => rw [Call.exec, slaveWriteStdout]; split_ifs <;> exact h
  | setTermios => rw [Call.exec, setTermios]; split_ifs <;> exact h

/-- **The run lemma.** -/
theorem canon_foldl_step_le (h : s.1.canon.length ≤ n) (calls : List Call) :
    (calls.foldl step s).1.canon.length ≤ typedFrom s n calls := by
  induction calls generalizing s n with
  | nil => exact h
  | cons c calls ih => exact ih (canon_exec_le h c)

end

/-- **The bytes of a terminal are bounded where lines end**: if in canonical mode the master types
no more than `n` times the capacity of a ring without an end of line, the kernel holds no more than
`n + 2` times that capacity. Where the canonical mode is never set, `n` is `0`. -/
theorem buffered_le_of_typed (master : ℕ) {calls : List Call} {n : ℕ}
    (h : typedFrom (create master, {}) 0 calls ≤ n * ringCap) :
    (run master calls).1.buffered ≤ (n + 2) * ringCap := by
  obtain ⟨hslave, hmaster⟩ := ringed_run master calls
  have hline : (run master calls).1.canon.length ≤ typedFrom (create master, {}) 0 calls :=
    canon_foldl_step_le (s := (create master, {})) (zero_le _) calls
  rw [Pty.buffered, add_mul]
  omega

/-- A line is typed, erased in part and ended, and another one is begun. -/
def twoLines : List Call :=
  [.attachSlave 1 2, .setTermios 2 canonicalBlob, .masterWrite 1 [97, 98, 8, 10],
    .masterWrite 1 [99, 100, 101]]

theorem buffered_le_of_typed_lines :
    (run 1 twoLines).1.canon = [99, 100, 101] ∧ (run 1 twoLines).1.toSlave = [97, 10] ∧
      typedFrom (create 1, {}) 0 twoLines = 3 ∧ (run 1 twoLines).1.buffered ≤ 3 * ringCap :=
  ⟨by decide +kernel, by decide +kernel, by decide +kernel,
    buffered_le_of_typed 1 (n := 1) (by decide +kernel)⟩

/-- In canonical mode a line that does not end is kept as a whole. -/
theorem canon_foldl_typeByte (hc : pty.canonical = true) {b : UInt8}
    (he : pty.eraseChar ≠ b) (h8 : b ≠ 8) (h10 : b ≠ 10) (n : ℕ) :
    ((replicate n b).foldl typeByte pty).canon.length = pty.canon.length + n := by
  induction n generalizing pty with
  | zero => rfl
  | succ _ ih =>
    have hkey : pty.key b = .edit := by
      rw [Pty.key, if_pos hc, if_neg (not_or.mpr ⟨he.symm, h8⟩), if_neg h10]
    rw [replicate_succ, foldl_cons, ih (by rwa [canonical_typeByte])
      (by rwa [Pty.eraseChar, typeByte_termios]), typeByte, hkey]
    rw [length_append, length_singleton]
    omega

/-- The bytes of a terminal are not bounded: a line need not end. -/
theorem buffered_unbounded : ¬∃ m, ∀ calls, (run 1 calls).1.buffered ≤ m * ringCap := by
  rintro ⟨m, hm⟩
  let start := run 1 [.attachSlave 1 2, .setTermios 2 canonicalBlob]
  let line : List UInt8 := replicate (m * ringCap + 1) 97
  have hle : (masterWrite 1 line start.1).2.buffered ≤ m * ringCap :=
    hm [.attachSlave 1 2, .setTermios 2 canonicalBlob, .masterWrite 1 line]
  have hwrite : masterWrite 1 line start.1 = (some line.length, line.foldl typeByte start.1) := by
    rw [masterWrite, if_neg (by decide +kernel), if_neg (by decide +kernel)]
  have hline : (line.foldl typeByte start.1).canon.length = m * ringCap + 1 := by
    rw [canon_foldl_typeByte (by decide +kernel) (by decide +kernel) (by decide) (by decide)]
    exact zero_add _
  rw [hwrite, Pty.buffered, hline] at hle
  omega

end DunitOS.Ptys
