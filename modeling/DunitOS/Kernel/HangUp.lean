import DunitOS.Kernel.Reading
import DunitOS.SysLib.Machine

/-!
# The end of a pseudo terminal

When the master of a pseudo terminal closes it or exits, `close` and `on_process_exit` of
`kernel/src/pty/mod.rs` remove it from the table, and the input that its slave has not read with it.
A later `read` of the slave finds no pseudo terminal and turns to the console. In the other
direction, the master is told that its slave is gone only when the record of the slave is, which
stays until somebody has waited for it.

`hang_up_iff` says what comes of this: over a whole history, the two ends are
answered as they should be just if at each read of such a slave no input was left and the console
has nothing to do with the slave, and no master reads from a slave that is still to be waited for.
-/

namespace DunitOS.Reading

open SysLib Prog List Option

open Ptys (Pty slaveInput)

/-! ### Histories -/

/-- The kernel in the course of a history. A pseudo terminal that is *hung up* is remembered by its
slave, with the input that the slave is still to get. -/
structure History where
  kernel : Kernel
  hung : ℕ → Option Pty := fun _ => none
  exited : List ℕ := []

/-- What happens: the current process closes a pseudo terminal, exits, reads its standard input or
reads as a master. Everything else is a change of the kernel, whatever it may be. -/
inductive Event
  | close (id : ℕ)
  | exit (status : ℤ × ℤ)
  | stdin (buf count : ℕ)
  | ptyRead (id buf count : ℕ)
  | other (k : Kernel)

namespace History

/-- Pseudo terminals are removed from the table. -/
def drop (p : ℕ × Pty → Bool) (s : History) : History :=
  { s with
    kernel := { s.kernel with ptys := s.kernel.ptys.filter fun q => !p q }
    hung := fun pid =>
      ((s.kernel.ptys.find? fun q => p q && q.2.slave == some pid).map Prod.snd).or (s.hung pid) }

def step (s : History) : Event → History
  | .close id => s.drop fun q => q.1 == id && some q.2.master == s.kernel.current
  | .exit status =>
    let t := s.drop fun q => some q.2.master == s.kernel.current
    -- the record stays for the parent
    let table := t.kernel.table.map fun r =>
      if some r.pid = s.kernel.current then { r with status := some status, hasRun := true } else r
    { t with kernel := { t.kernel with table }, exited := s.kernel.current.toList ++ s.exited }
  | .stdin buf count =>
    { s with
      kernel := (readStdin buf count s.kernel).2
      hung := fun pid =>
        if some pid = s.kernel.current then
          (s.hung pid).map fun pty =>
            { pty with toSlave := pty.toSlave.drop (slaveInput pty count).length }
        else s.hung pid }
  | .ptyRead id buf count => { s with kernel := (sysPtyRead id buf count s.kernel).2 }
  | .other k => { s with kernel := k }

/-- The current process is the master of a slave that has exited, and has read all of its output. -/
def Drained (s : History) (id slave : ℕ) : Prop :=
  ∃ i pty, findById s.kernel id = some (i, pty) ∧ s.kernel.current = some pty.master ∧
    pty.slave = some slave ∧ slave ∈ s.exited ∧ pty.toMaster = []

/-- A process is the slave of one pseudo terminal only: `pty_spawn` attaches a process that it has
just made. -/
def Attached (s : History) (_e : Event) : Prop :=
  ∀ q ∈ s.kernel.ptys, ∀ pid, q.2.slave = some pid → s.hung pid = none

end History

/-- The bytes that a call hands out; at an end there are none. -/
def Taken.bytes : Taken → Option (List UInt8)
  | .reply 0 => some []
  | .deliver [(_, data)] _ => some data
  | _ => none

namespace Event

variable (s : History)

/-- **A right answer**: a slave without a master gets the input that is left and then the end, and
leaves the input of the console alone; a master without a slave is told so once it has all the
output. -/
def Right : Event → Prop
  | stdin buf count => ∀ pid pty, s.kernel.current = some pid → s.hung pid = some pty → count ≠ 0 →
      ∃ taken k, readStdin buf count s.kernel = (.ok taken, k) ∧
        taken.bytes = some (slaveInput pty count) ∧ k.terminal = s.kernel.terminal
  | ptyRead id buf count => ∀ slave, s.Drained id slave → count ≠ 0 →
      validateUserRange buf count = .ok () → (sysPtyRead id buf count s.kernel).1 = .error .epipe
  | _ => True

/-- **When an answer is right**: the console has no line for the slave, which does not write to it,
and no input was left. And the record of a slave is gone when its master reads. -/
def Quiet : Event → Prop
  | stdin _ count => ∀ pid pty, s.kernel.current = some pid → s.hung pid = some pty → count ≠ 0 →
      ¬(s.kernel.waitingPid = pid ∧ s.kernel.terminal.ready = true) ∧
        s.kernel.foreground = false ∧ slaveInput pty count = []
  | ptyRead id buf count => ∀ slave, s.Drained id slave → count ≠ 0 →
      validateUserRange buf count = .ok () → processExists s.kernel slave = false
  | _ => True

end Event

/-! ### The answers -/

variable {s : History} {pid : ℕ} {pty : Pty}

/-- A slave that has lost its pseudo terminal reads from the console. -/
theorem readStdin_of_hung {e : Event} (h : s.Attached e) (hcur : s.kernel.current = some pid)
    (hhung : s.hung pid = some pty) (buf count : ℕ) :
    readStdin buf count s.kernel = terminalStdin buf count s.kernel := by
  have hnone : findBySlave s.kernel = none := by
    rw [findBySlave, hcur, bind_some, ptyAt, findIdx?_eq_none_iff.mpr, bind_none]
    intro q hq
    refine beq_eq_false_iff_ne.mpr fun hslave => ?_
    rw [h q hq pid hslave] at hhung
    cases hhung
  rw [readStdin, get_bind_run, hnone]

theorem right_stdin_iff {buf count : ℕ} (h : s.Attached (.stdin buf count)) :
    (Event.stdin buf count).Right s ↔ (Event.stdin buf count).Quiet s := by
  refine forall_congr' fun pid => forall_congr' fun pty => forall_congr' fun hcur =>
    forall_congr' fun hhung => forall_congr' fun _ => ?_
  rw [readStdin_of_hung h hcur hhung, terminalStdin, get_bind_run, hcur]
  dsimp only
  by_cases hready : s.kernel.waitingPid = pid ∧ s.kernel.terminal.ready = true
  · rw [if_pos hready]
    -- the line that was ready for the slave is gone
    refine iff_of_false ?_ fun hno => hno.1 hready
    rintro ⟨taken, k, hread, -, hterminal⟩
    cases hread
    rw [← hterminal] at hready
    cases hready.2
  · rw [if_neg hready]
    cases s.kernel.foreground with
    | true =>
      refine iff_of_false ?_ fun hno => by cases hno.2.1
      rintro ⟨_, _, ⟨⟩, -⟩
    | false =>
      refine ⟨?_, fun hleft => ⟨_, _, rfl, congrArg some hleft.2.2.symm, rfl⟩⟩
      rintro ⟨taken, k, hread, hbytes, -⟩
      cases hread
      exact ⟨hready, rfl, (some.inj hbytes).symm⟩

theorem right_ptyRead_iff (id buf count : ℕ) :
    (Event.ptyRead id buf count).Right s ↔ (Event.ptyRead id buf count).Quiet s := by
  refine forall_congr' fun slave => forall_congr' fun hdrained => forall_congr' fun hcount =>
    forall_congr' fun hrange => ?_
  obtain ⟨i, pty, hfind, hcur, hslave, -, hempty⟩ := hdrained
  have hpid : currentPid s.kernel = (.ok pty.master, s.kernel) := by
    rw [currentPid, get_bind_run, hcur]
    rfl
  rw [sysPtyRead, if_neg hcount, hrange]
  show ((currentPid >>= _) s.kernel).1 = _ ↔ _
  rw [bind_ok hpid, get_bind_run, hfind]
  dsimp only
  rw [if_neg (not_not.mpr rfl), hslave, hempty, take_nil, drop_nil, modify_bind_run,
    map_some, getD_some]
  cases processExists s.kernel slave with
  | true =>
    rw [if_neg fun hno => by cases hno.2.1]
    exact iff_of_false (fun hno => by cases hno) fun hno => by cases hno
  | false =>
    rw [if_pos ⟨rfl, rfl, rfl⟩]
    exact iff_of_true rfl rfl

/-- **When both ends of a pseudo terminal learn of the end**, over every history. -/
theorem hang_up_iff (k : Kernel) (events : List Event)
    (h : Along History.Attached History.step { kernel := k } events) :
    Along (fun s e => e.Right s) History.step { kernel := k } events ↔
      Along (fun s e => e.Quiet s) History.step { kernel := k } events := by
  refine along_congr (fun s e hs => ?_) h
  cases e with
  | stdin => exact right_stdin_iff hs
  | ptyRead => exact right_ptyRead_iff _ _ _
  | close | exit | other => exact Iff.rfl

/-- A process with a pseudo terminal whose slave, process 2, has exited. -/
def masterOf (input : List UInt8) : Kernel :=
  { pipeReader with
    ptys := [(1, { Ptys.create 1 with slave := some 2, toSlave := input })]
    table := [⟨⟨2, none, .dead, some (0, 0), none⟩, some 1, true, true, [], []⟩] }

/-- A slave with nothing left to read gets the end. -/
theorem hang_up_iff_closed : Along (fun s e => e.Right s) History.step { kernel := masterOf [] }
    [.close 1, .other { pipeReader with current := some 2 }, .stdin 4096 8] := by
  refine (hang_up_iff (masterOf []) [_, _, _]
    ⟨fun _ _ _ _ => rfl, fun q hq => ?_, fun q hq => ?_, trivial⟩).mpr
    ⟨trivial, trivial, fun pid pty hcur hhung _ => ?_, trivial⟩
  · cases hq
  · cases hq
  · cases hcur
    cases hhung
    exact ⟨by decide, rfl, rfl⟩

/-- **Ends that are not seen**: a byte that was typed before the pseudo terminal was closed is lost,
a slave that writes to the console is told to try again, and a master is not told that its slave
has exited. -/
theorem hang_up_unseen :
    let s := History.step { kernel := masterOf [97] } (.close 1)
    let t := s.step (.other { s.kernel with current := some 2 })
    t.hung 2 = some { Ptys.create 1 with slave := some 2, toSlave := [97] } ∧
      ¬Event.Right t (.stdin 4096 8) ∧
      (readStdin 4096 8 t.kernel).1 = .ok (.reply 0) ∧
      (readStdin 4096 8 { t.kernel with foreground := true }).1 = .error .eagain ∧
      (sysPtyRead 1 4096 8 (masterOf [])).1 = .ok (.deliver [(4096, [])] 0) := by
  refine ⟨rfl, fun hright => ?_, rfl, rfl, rfl⟩
  obtain ⟨taken, k, hread, hbytes, -⟩ := hright 2 _ rfl rfl (by decide)
  cases hread
  cases hbytes

end DunitOS.Reading
