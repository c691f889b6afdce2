import DunitOS.Gui.Focus
import Mathlib.Algebra.Order.BigOperators.Group.List

/-!
# The memory budget of the server

The protocol bounds the memory that the buffers of one connection pin, and the memory that those of
all connections pin together. The server checks the first bound at every IMPORT_BUFFER and knows
nothing of the second. An import that passes the checks adds the size of its backing to the sum, and
nothing else adds anything (`Server.Wf.exec_pinned`). Hence the sum is within its bound
along a run exactly if no import comes that passes the checks although it exceeds that bound
(`run_budget_iff`), which is certain only as long as there are at most two connections
(`run_pinned`).
-/

namespace DunitOS.Gui

open Server List Item UInt64 Nat

open SysLib Std Prog

/-- The bytes that all connections together may pin. -/
def maxBackingBytesServer : ℕ := 512 * 1024 * 1024

/-- The bytes that the buffers of a connection pin. -/
def Connection.pinned (c : Connection) : ℕ := sumOver Object.pinned c.objects

/-- **The bytes that all buffers of all connections pin.** -/
def Server.pinned (s : Server) : ℕ := sumOver Connection.pinned s.conns

/-- The checks of IMPORT_BUFFER on what is asked for: the object is new, the pixels have a format
and a size that there is, and they lie in the backing. -/
def Connection.ValidImport (c : Connection) (object : ObjectId) (size : UInt64) : Request → Prop
  | .importBuffer width height stride fmt offset =>
    c.checkFresh object = .ok () ∧ checkFormat fmt c.argbEnabled = .ok () ∧
      (dimOk width = true ∧ dimOk height = true) ∧
      (stride % 4 = 0 ∧ offset % 4 = 0 ∧ width * 4 ≤ stride) ∧
      (Arm.pixelsEnd width height stride offset).any (· ≤ size) = true
  | _ => False

/-- The limits that IMPORT_BUFFER is held to. -/
def Connection.WithinLimits (c : Connection) (size : UInt64) : Request → Prop
  | .importBuffer _ _ stride _ _ => stride ≤ maxStride ∧ size ≤ maxBackingBytes ∧
      c.buffers < maxBuffers ∧ c.backingBytes + size ≤ maxBackingBytesConn
  | _ => False

/-- **A valid import** of a backing of some size: a packet of the version of the server, under a
serial that goes on, on a connection that has said HELLO, which asks for what there is. -/
structure Server.Imports (s : Server) (call : Call) (k : ConnId) (c : Connection) (header : Header)
    (req : Request) (size : UInt64) : Prop where
  delivered : ∃ packet, call = .deliver k packet (some size) ∧
    readRequest packet = some (header, req)
  conn_eq : s.conns[k]? = some c
  active : c.phase = .active
  major_eq : header.major = versionMajor
  serial_lt : c.lastClientSerial < header.serial
  valid : c.ValidImport header.object size req

/-- **A valid import exceeds the budget of the server** and no limit that is checked. -/
def Server.ExceedsBudget (s : Server) (call : Call) : Prop :=
  ∃ k c header req size, s.Imports call k c header req size ∧ c.WithinLimits size req ∧
    maxBackingBytesServer < s.pinned + size.toNat

/-! ### One connection -/

section

variable {k : ConnId} {now : UInt64} {c c' : Connection} {items : List Item}

theorem Connection.Wf.pinned_eq (h : c.Wf) : c.pinned = c.backingBytes.toNat :=
  h.tally.backing_eq.symm

/-- **A request**: an import adds its backing, and any other adds nothing. -/
theorem Effect.backing {header : Header} {cap : Option UInt64} {req : Request} {x y : Ctx}
    {batch : Batch} (h : Effect k now header cap req x batch y) (hx : x.conn.Wf) :
    (∃ width height stride format offset, req = .importBuffer width height stride format offset ∧
      y.conn.backingBytes.toNat = x.conn.backingBytes.toNat + (cap.getD 0).toNat) ∨
    (∀ width height stride format offset, req ≠ .importBuffer width height stride format offset) ∧
      y.conn.backingBytes.toNat ≤ x.conn.backingBytes.toNat := by
  cases h with
  | importBuffer width height stride format offset _ _ _ _ hobject =>
    refine .inl ⟨width, height, stride, format, offset, rfl, ?_⟩
    have hle := le_iff_toNat_le.mp hx.tally.backing_le
    have hcap := le_iff_toNat_le.mp hobject
    have h1 : maxBackingBytesConn.toNat = 268435456 := rfl
    have h2 : maxBackingBytes.toNat = 67108864 := rfl
    show (x.conn.backingBytes + cap.getD 0).toNat = _
    rw [UInt64.toNat_add, mod_eq_of_lt (by omega)]
  | @destroySurface x s _ _ _ hr1 hr2 =>
    obtain ⟨o1, h₁⟩ := (Arm.cancels x.conn s).exists_eq
    obtain ⟨o2, h₂⟩ := (Arm.gives { x.conn with objects := o1 } s).exists_eq
    rw [hr1, h₁] at hr2
    rw [hr2, h₂]
    exact .inr ⟨by simp, Nat.le_refl _⟩
  | @destroyBuffer x b hb =>
    refine .inr ⟨by simp, ?_⟩
    have hsum := sumOver_erase Object.pinned hb
    have htotal := hx.tally.backing_eq
    have hle : b.backing ≤ x.conn.backingBytes := by
      rw [le_iff_toNat_le, htotal, ← hsum]
      exact le_add_right _ _
    show (x.conn.backingBytes - b.backing).toNat ≤ _
    rw [UInt64.toNat_sub_of_le _ _ hle]
    exact sub_le _ _
  | @commitUnmap x s _ _ _ _ _ _ _ _ hr =>
    obtain ⟨o, h⟩ := (Arm.gives (x.conn.putSurface header.object s.unmapped) s).exists_eq
    rw [hr, h]
    exact .inr ⟨by simp, Nat.le_refl _⟩
  | @commitMap _ s _ _ _ _ _ _ _ _ _ _ hr =>
    obtain ⟨o, h⟩ := (Connection.replaces _ s).exists_eq
    rw [hr, h]
    exact .inr ⟨by simp, Nat.le_refl _⟩
  | _ => exact .inr ⟨by simp, Nat.le_refl _⟩

/-- **A step**: unless an import was accepted, nothing is added. -/
theorem Step.backing_le (h : Step k now c items c') (hc : c.Wf)
    (hno : ∀ header width height stride format offset,
      .accepted header (.importBuffer width height stride format offset) ∉ items) :
    c'.backingBytes.toNat ≤ c.backingBytes.toNat := by
  cases h with
  | @accept header _ _ x _ _ _ _ _ _ _ hx he =>
    have hwf : x.conn.Wf := by
      rw [hx]
      exact ⟨hc.links, hc.tally⟩
    rcases he.backing hwf with ⟨width, height, stride, format, offset, rfl, -⟩ | ⟨-, hle⟩
    · exact absurd mem_cons_self (hno header width height stride format offset)
    · rw [hx] at hle
      exact hle
  | _ => exact Nat.le_refl _

end

/-! ### All connections -/

section

variable {s : Server} {call : Call}

/-- **Without an import nothing is added.** -/
theorem Server.Wf.pinned_le (h : s.Wf) (hno : ∀ k header width height stride format offset,
      .accepted header (.importBuffer width height stride format offset) ∉
        (s.exec call).1.items k) : (s.exec call).2.pinned ≤ s.pinned := by
  refine sumOver_le fun k => ?_
  have hwf' := h.exec call k
  have hno := hno k
  rcases exec_step with ⟨-, hnew⟩ | ⟨-, hp⟩
  · rw [weightAt, hnew]
    exact zero_le _
  · rw [weightAt, weightAt]
    generalize hc : s.conns[k]? = o at hp
    generalize (s.exec call).1.items k = items at hp hno
    generalize (s.exec call).2.conns[k]? = o' at hp hwf' ⊢
    cases hp with
    | absent | absentMark _ => exact Nat.le_refl _
    | removed => exact zero_le _
    | @step c c' _ hstep =>
      show c'.pinned ≤ c.pinned
      rw [(hwf' c' rfl).pinned_eq, (h k c hc).pinned_eq]
      exact hstep.backing_le (h k c hc) hno

/-- Where a connection is replaced, the sum changes by the difference. -/
theorem pinned_insert {s' : Server} {k : ConnId} {c c' : Connection} (hc : s.conns[k]? = some c)
    (hconns : s'.conns = s.conns.insert k c') : s'.pinned + c.pinned = s.pinned + c'.pinned := by
  have herase : s'.conns.erase k = s.conns.erase k := by
    rw [hconns]
    refine ExtTreeMap.ext_getElem? fun a => ?_
    by_cases ha : k = a
    · subst ha
      rw [ExtTreeMap.getElem?_erase_self, ExtTreeMap.getElem?_erase_self]
    · rw [getElem?_erase_of_ne ha, getElem?_erase_of_ne ha, getElem?_insert_of_ne ha]
  have h := sumOver_erase Connection.pinned hc
  have h' := sumOver_erase Connection.pinned (t := s'.conns)
    (by rw [hconns, ExtTreeMap.getElem?_insert_self])
  rw [herase] at h'
  rw [pinned, pinned]
  omega

/-- What was accepted was asked for and answered. -/
theorem accepted_of_mem_items {k : ConnId} {header : Header} {req : Request}
    (h : .accepted header req ∈ (s.exec call).1.items k) :
    ∃ packet cap, call = .deliver k packet cap ∧
      (s.exec call).1.sent.any (fun p => p.event.isSuccess) = true ∧
      readRequest packet = some (header, req) := by
  have hsent : ∀ (p : Packet → Bool) (l : List Packet),
      accepted header req ∉ (l.filter p).map sent := fun p l hmem => by
    obtain ⟨q, -, hq⟩ := mem_map.mp hmem
    cases hq
  rw [Seen.items] at h
  rcases mem_append.mp h with h | h
  swap
  · exact absurd h (hsent _ _)
  cases call with
  | deliver conn packet cap =>
    simp only [exec, Seen.ofPackets] at h ⊢
    by_cases hk : conn = k
    · subst hk
      rw [if_pos rfl, received] at h
      split_ifs at h with hempty hany
      · cases h
      · split at h
        · next header' req' hread =>
          cases mem_singleton.mp h
          exact ⟨packet, cap, rfl, hany, hread⟩
        · cases h
      · cases mem_singleton.mp h
    · rw [if_neg hk] at h
      cases h
  | composite => cases mem_singleton.mp h
  | disconnectPeer =>
    simp only [exec] at h
    split_ifs at h
    · cases mem_singleton.mp h
    · cases h
  | tick nowNs =>
    have h : accepted header req ∈
        if k ∈ (s.tick nowNs).1 then [removed] else [] := h
    by_cases hk : k ∈ (s.tick nowNs).1
    · rw [if_pos hk] at h
      cases mem_singleton.mp h
    · rw [if_neg hk] at h
      cases h
  | _ => cases h

/-! ### Imports -/

section

variable {packet : List UInt8} {x : Ctx} {header : Header}
  {width height stride format : UInt32} {offset size : UInt64}

/-- **The checks of IMPORT_BUFFER**: what is valid and within the limits is imported, and what is
valid and not within the limits is refused as such. -/
theorem importBuffer_ends :
    Ends (fun _ _ =>
        x.conn.ValidImport header.object size (.importBuffer width height stride format offset) ∧
        x.conn.WithinLimits size (.importBuffer width height stride format offset))
      (fun e y => y = x ∧
        (x.conn.ValidImport header.object size (.importBuffer width height stride format offset) →
          e = .limitExceeded ∧
          ¬x.conn.WithinLimits size (.importBuffer width height stride format offset)))
      (Arm.importBuffer header.object header.serial width height stride format offset (some size)
        x) := by
  refine Ends.ofExcept (fun e he => ⟨rfl, fun hv => ?_⟩) fun _ hfresh =>
    Ends.ofExcept (fun e he => ⟨rfl, fun hv => ?_⟩) fun _ hformat =>
    Ends.refuse (fun hbad => ⟨rfl, fun hv => ?_⟩) fun hdim =>
    Ends.refuse (fun hbad => ⟨rfl, fun hv => ?_⟩) fun hstride =>
    Ends.refuse (fun hbad => ⟨rfl, fun _ => ⟨rfl, fun hin => ?_⟩⟩) fun hlimit =>
    Ends.refuse (fun hbad => ⟨rfl, fun hv => ?_⟩) fun hend =>
    Ends.refuse (fun hbad => ⟨rfl, fun _ => ⟨rfl, fun hin => ?_⟩⟩) fun hcount =>
    Ends.refuse (fun hbad => ⟨rfl, fun _ => ⟨rfl, fun hin => ?_⟩⟩) fun hsum => ?_
  · cases he.symm.trans hv.1
  · cases he.symm.trans hv.2.1
  · obtain ⟨-, -, ⟨hw, hh⟩, -⟩ := hv
    rw [hw, hh] at hbad
    cases hbad
  · obtain ⟨-, -, -, ⟨hs, ho, hle⟩, -⟩ := hv
    simp only [Bool.or_eq_true, bne_iff_ne, decide_eq_true_eq] at hbad
    exact hbad.elim (fun h => h.elim (absurd hs) (absurd ho)) fun h =>
      absurd h (UInt32.not_lt.mpr hle)
  · simp only [Bool.or_eq_true, decide_eq_true_eq] at hbad
    exact hbad.elim (UInt32.not_lt.mpr hin.1) (UInt64.not_lt.mpr hin.2.1)
  · have hfit := hv.2.2.2.2
    rw [Option.getD_some, hfit] at hbad
    cases hbad
  · exact Nat.not_lt.mpr (of_decide_eq_true hbad) hin.2.2.1
  · exact UInt64.not_lt.mpr hin.2.2.2 (of_decide_eq_true hbad)
  · simp only [Bool.not_eq_false', Bool.and_eq_true, Bool.or_eq_false_iff, bne_eq_false_iff_eq,
      decide_eq_false_iff_not, UInt32.not_lt, UInt64.not_lt] at hdim hstride hlimit hend
    exact ⟨⟨hfresh, hformat, hdim, ⟨hstride.1.1, hstride.1.2, hstride.2⟩, hend⟩, hlimit.1, hlimit.2,
      Nat.not_le.mp (of_decide_eq_false hcount), UInt64.not_lt.mp (of_decide_eq_false hsum)⟩

/-- **A packet that asks for an import** gets to the checks of IMPORT_BUFFER, or it is refused
before. -/
theorem pipeline_import (k : ConnId) (now : UInt64) (cap : Option UInt64)
    (hread : readRequest packet = some (header, .importBuffer width height stride format offset)) :
    (cap.isSome = true ∧ header.major = versionMajor ∧ x.conn.lastClientSerial < header.serial ∧
        x.conn.phase ≠ .new) ∧
      pipeline k now packet cap x = answer header.object header.serial false
        (Arm.importBuffer header.object header.serial width height stride format offset cap)
        (x.noted header.serial) ∨
    ¬(cap.isSome = true ∧ header.major = versionMajor ∧ x.conn.lastClientSerial < header.serial ∧
        x.conn.phase ≠ .new) ∧
      (pipeline k now packet cap x).1.1.any (fun e => e.2.isSuccess) = false := by
  rw [readRequest] at hread
  split at hread
  swap
  · cases hread
  next header' hd =>
  split at hread
  swap
  · cases hread
  next op hop =>
  split at hread
  swap
  · cases hread
  next req hdec =>
  cases hread
  obtain rfl : op = .importBuffer := (opcode_of_decode hdec).symm
  rw [pipeline, hd]
  dsimp only
  rw [← Opcode.raw_of_fromU16 hop, beq_self_eq_true]
  by_cases hcap : true ≠ cap.isSome
  · rw [if_pos hcap]
    exact .inr ⟨fun h => hcap h.1.symm, rfl⟩
  by_cases hmajor : header.major ≠ versionMajor
  · rw [if_neg hcap, if_pos hmajor]
    exact .inr ⟨fun h => hmajor h.2.1, rfl⟩
  by_cases hser : header.serial = 0 ∨ header.serial ≤ x.conn.lastClientSerial
  · rw [if_neg hcap, if_neg hmajor, if_pos hser]
    refine .inr ⟨fun h => ?_, rfl⟩
    rcases hser with hzero | hle
    · exact UInt64.not_lt_zero (hzero ▸ h.2.2.1)
    · exact UInt64.not_lt.mpr hle h.2.2.1
  rw [if_neg hcap, if_neg hmajor, if_neg hser, interpret, hop]
  dsimp only
  by_cases hnew : x.conn.phase = .new
  · rw [if_neg (by decide), if_pos ⟨hnew, by decide⟩]
    exact .inr ⟨fun h => h.2.2.2 hnew, rfl⟩
  · rw [if_neg (by decide), if_neg fun h => hnew h.1, if_neg fun h => absurd h.2 (by decide), hdec]
    exact .inl ⟨⟨(not_not.mp hcap).symm, not_not.mp hmajor,
      UInt64.not_le.mp (not_or.mp hser).2, hnew⟩, rfl⟩

/-- **A valid import** has its effect, or exceeds a limit and is refused. -/
theorem pipeline_valid (k : ConnId) (now : UInt64) {req : Request}
    (hread : readRequest packet = some (header, req))
    (hmajor : header.major = versionMajor) (hser : x.conn.lastClientSerial < header.serial)
    (hnew : x.conn.phase ≠ .new) (hvalid : x.conn.ValidImport header.object size req) :
    (¬x.conn.WithinLimits size req ∧ pipeline k now packet (some size) x =
        (error header.object header.serial .limitExceeded false, x.noted header.serial)) ∨
      (x.conn.WithinLimits size req ∧ ∃ batch y,
        Effect k now header (some size) req (x.noted header.serial) batch y ∧
        pipeline k now packet (some size) x = ((batch, false), y)) := by
  cases req with
  | importBuffer width height stride fmt offset =>
    rcases pipeline_import k now (some size) hread with ⟨-, hp⟩ | ⟨hno, -⟩
    swap
    · exact absurd ⟨rfl, hmajor, hser, hnew⟩ hno
    rw [hp, answer]
    rcases hrun : Arm.importBuffer header.object header.serial width height stride fmt offset
      (some size) (x.noted header.serial) with ⟨e | batch, y⟩
    · obtain ⟨rfl, hlimit⟩ := importBuffer_ends.of_error hrun
      obtain ⟨rfl, hout⟩ := hlimit hvalid
      exact .inl ⟨hout, rfl⟩
    · exact .inr ⟨(importBuffer_ends.of_ok hrun).2, batch, y,
        (importBuffer_settles offset).of_ok hrun, rfl⟩
  | _ => exact hvalid.elim

end

theorem Server.Imports.open_ {k : ConnId} {c : Connection} {header : Header} {req : Request}
    {size : UInt64} (h : s.Imports call k c header req size) :
    c.phase ≠ .new ∧ c.phase ≠ .closed := by
  rw [h.active]
  decide

/-- **A valid import within the limits** adds its backing to the sum. -/
theorem Server.Imports.pinned_eq {k : ConnId} {c : Connection} {header : Header} {req : Request}
    {size : UInt64} (hi : s.Imports call k c header req size) (h : s.Wf)
    (hin : c.WithinLimits size req) : (s.exec call).2.pinned = s.pinned + size.toNat := by
  obtain ⟨packet, rfl, hread⟩ := hi.delivered
  have hc := hi.conn_eq
  rcases pipeline_valid (x := ⟨c, s.nextClientId, s.seat⟩) k s.nowNs hread
    hi.major_eq hi.serial_lt hi.open_.1 hi.valid with ⟨hno, -⟩ | ⟨-, batch, y, he, hp⟩
  · exact absurd hin hno
  have hr := deliver_run hc hi.open_.2 packet (some size) hp
  have hwf := h.exec (.deliver k packet (some size)) k
  show (s.deliver k packet (some size)).2.pinned = _
  have hexec : (s.exec (.deliver k packet (some size))).2 =
    (s.deliver k packet (some size)).2 := rfl
  rw [hexec, hr] at hwf
  rw [hr]
  have hx : ((⟨c, s.nextClientId, s.seat⟩ : Ctx).noted header.serial).conn.Wf :=
    ⟨(h k c hc).links, (h k c hc).tally⟩
  rcases he.backing hx with ⟨_, _, _, _, _, -, hback⟩ | ⟨hno, -⟩
  · have hins : pinned { s with
        nextClientId := y.nextClientId
        conns := s.conns.insert k (y.conn.bump batch.length)
        seat := y.seat } + c.pinned = s.pinned + (y.conn.bump batch.length).pinned :=
      pinned_insert hc rfl
    have hwf' : (y.conn.bump batch.length).Wf := hwf _ ExtTreeMap.getElem?_insert_self
    rw [hwf'.pinned_eq, (h k c hc).pinned_eq] at hins
    have hback : (y.conn.bump batch.length).backingBytes.toNat =
        c.backingBytes.toNat + size.toNat := hback
    refine Nat.add_right_cancel (hins.trans ?_)
    omega
  · have hvalid := hi.valid
    cases req with
    | importBuffer width height stride fmt offset =>
      exact absurd rfl (hno width height stride fmt offset)
    | _ => exact hvalid.elim

/-- **An import that was accepted** was valid and within the limits. -/
theorem imports_of_accepted {k : ConnId} {header : Header} {width height stride fmt : UInt32}
    {offset : UInt64} (hmem : .accepted header (.importBuffer width height stride fmt offset) ∈
      (s.exec call).1.items k) :
    ∃ k c header req size, s.Imports call k c header req size ∧ c.WithinLimits size req := by
  obtain ⟨packet, cap, rfl, hany, hread⟩ := accepted_of_mem_items hmem
  have hany : (s.deliver k packet cap).1.any (fun p => p.event.isSuccess) = true := hany
  rcases deliver_cases s k packet cap with hr | ⟨c, hc, hopen⟩
  · rw [hr] at hany
    cases hany
  rw [deliver_run hc hopen packet cap rfl, any_isSuccess_numbered] at hany
  rcases pipeline_import (x := ⟨c, s.nextClientId, s.seat⟩) k s.nowNs cap hread with
    ⟨⟨hcap, hmajor, hser, hnew⟩, hp⟩ | ⟨-, hno⟩
  swap
  · rw [hno] at hany
    cases hany
  obtain ⟨size, rfl⟩ := Option.isSome_iff_exists.mp hcap
  rw [hp, answer] at hany
  rcases hrun : Arm.importBuffer header.object header.serial width height stride fmt offset
    (some size) ((⟨c, s.nextClientId, s.seat⟩ : Ctx).noted header.serial) with ⟨e | batch, y⟩
  · rw [hrun] at hany
    cases hany
  have hactive : c.phase = .active := by
    cases hphase : c.phase with
    | new => exact absurd hphase hnew
    | active => rfl
    | closed => exact absurd hphase hopen
  obtain ⟨hvalid, hin⟩ := importBuffer_ends.of_ok hrun
  exact ⟨k, c, header, _, size, ⟨⟨packet, rfl, hread⟩, hc, hactive, hmajor, hser, hvalid⟩, hin⟩

/-- **What a call does to the sum**: a valid import within the limits adds its backing, and nothing
else adds anything. -/
theorem Server.Wf.exec_pinned (h : s.Wf) (call : Call) :
    (∃ k c header req size, s.Imports call k c header req size ∧ c.WithinLimits size req ∧
      (s.exec call).2.pinned = s.pinned + size.toNat) ∨
    (s.exec call).2.pinned ≤ s.pinned := by
  by_cases hex : ∃ k c header req size, s.Imports call k c header req size ∧ c.WithinLimits size req
  · obtain ⟨k, c, header, req, size, hi, hin⟩ := hex
    exact .inl ⟨k, c, header, req, size, hi, hin, hi.pinned_eq h hin⟩
  · refine .inr (h.pinned_le fun k header width height stride fmt offset hmem => hex ?_)
    exact imports_of_accepted hmem

end

/-- **What the protocol asks of a call**: the sum stays within the budget, and a valid import that
would exceed it is answered with LIMIT_EXCEEDED and creates no object. -/
structure Server.BudgetOk (s : Server) (call : Call) : Prop where
  bounded : (s.exec call).2.pinned ≤ maxBackingBytesServer
  refused : ∀ k c header req size, s.Imports call k c header req size →
    maxBackingBytesServer < s.pinned + size.toNat →
    (s.exec call).1.sent = [⟨k, header.object, c.nextServerSerial,
        .error header.serial ErrorCode.limitExceeded.code 0⟩] ∧
      (s.exec call).2.conns[k]?.map Connection.objects = some c.objects

theorem Server.Wf.budgetOk_iff {s : Server} (h : s.Wf) (hs : s.pinned ≤ maxBackingBytesServer)
    (call : Call) : s.BudgetOk call ↔ ¬s.ExceedsBudget call := by
  constructor
  · rintro hok ⟨k, c, header, req, size, hi, hin, hlt⟩
    have hle := hok.bounded
    rw [hi.pinned_eq h hin] at hle
    exact Nat.not_le.mpr hlt hle
  · intro hno
    refine ⟨?_, fun k c header req size hi hlt => ?_⟩
    · rcases h.exec_pinned call with ⟨k, c, header, req, size, hi, hin, heq⟩ | hle
      · rw [heq]
        exact Nat.le_of_not_lt fun hlt => hno ⟨k, c, header, req, size, hi, hin, hlt⟩
      · exact hle.trans hs
    · obtain ⟨packet, rfl, hread⟩ := hi.delivered
      rcases pipeline_valid (x := ⟨c, s.nextClientId, s.seat⟩) k s.nowNs hread
        hi.major_eq hi.serial_lt hi.open_.1 hi.valid with ⟨-, hp⟩ | ⟨hin, -⟩
      · have hr := deliver_run hi.conn_eq hi.open_.2 packet (some size) hp
        show (s.deliver k packet (some size)).1 = _ ∧
          (s.deliver k packet (some size)).2.conns[k]?.map Connection.objects = _
        rw [hr]
        exact ⟨rfl, congrArg (Option.map Connection.objects) ExtTreeMap.getElem?_insert_self⟩
      · exact absurd ⟨k, c, header, req, size, hi, hin, hlt⟩ hno

/-- **The budget is kept along a run exactly if no valid import comes that exceeds it** and none of
the limits that are checked. -/
theorem run_budget_iff (calls : List Call) :
    EveryCall Server.BudgetOk Server.new calls ↔
      EveryCall (fun s call => ¬s.ExceedsBudget call) Server.new calls := by
  have hnew : new.Wf ∧ new.pinned ≤ maxBackingBytesServer :=
    ⟨wf_new, by rw [pinned, new, sumOver_empty]; exact zero_le _⟩
  constructor
  · refine EveryCall.imp (I := fun s => s.Wf ∧ s.pinned ≤ maxBackingBytesServer)
      (fun s call hs hok => ?_) hnew
    exact ⟨(hs.1.budgetOk_iff hs.2 call).mp hok, hs.1.exec call, hok.bounded⟩
  · refine EveryCall.imp (I := fun s => s.Wf ∧ s.pinned ≤ maxBackingBytesServer)
      (fun s call hs hno => ?_) hnew
    have hok := (hs.1.budgetOk_iff hs.2 call).mpr hno
    exact ⟨hok, hs.1.exec call, hok.bounded⟩

/-- **Two connections cannot exceed the budget**: each of them pins at most half of it. -/
theorem run_pinned (calls : List Call) :
    (run calls).2.pinned ≤ (run calls).2.conns.size * maxBackingBytesConn.toNat := by
  have hle : ∀ n ∈ (run calls).2.conns.toList.map (fun e => e.2.pinned),
      n ≤ maxBackingBytesConn.toNat := fun n hn => by
    obtain ⟨⟨k, c⟩, hmem, rfl⟩ := mem_map.mp hn
    have hwf := wf_run calls (ExtTreeMap.mem_toList_iff_getElem?_eq_some.mp hmem)
    rw [hwf.pinned_eq]
    exact le_iff_toNat_le.mp hwf.tally.backing_le
  have hsum := sum_le_card_nsmul _ _ hle
  rw [length_map, ExtTreeMap.length_toList] at hsum
  exact hsum

/-- Three clients; the third imports although the first two have used up the budget. -/
def threeClients : List Call :=
  [.connect, .connect, .connect] ++
    ([1, 2, 3].map fun k => .request k 0 1 (.hello 0 0 0 0)) ++
    ([1, 2].flatMap fun k => [1, 2, 3, 4].map fun i =>
      .request k i (i + 1) (.importBuffer 16 16 64 1 0) (some maxBackingBytes)) ++
    [.request 3 1 2 (.importBuffer 16 16 64 1 0) (some maxBackingBytes)]

/-- The buffers of three connections pin 576 MiB. -/
theorem threeClients_exceed : (run threeClients).2.pinned = 576 * 1024 * 1024 ∧
    maxBackingBytesServer < (run threeClients).2.pinned := by
  have h : (run threeClients).2.pinned = 576 * 1024 * 1024 := by decide +kernel
  rw [h]
  exact ⟨rfl, by decide⟩

end DunitOS.Gui
