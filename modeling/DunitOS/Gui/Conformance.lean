import DunitOS.Gui.Objects
import DunitOS.Gui.Replies

/-!
# Conforming requests

What the protocol demands of a packet (`Conforming`): version 1.0 in the header, the
object zero for the requests on the connection and only for these, and a payload that is the one
of its opcode to the byte. The server answers in the affirmative only packets whose major version
and payload are right and whose object is not zero where it has to be another
(`Granted`), but it looks neither at the minor version nor at the object of HELLO and
DISCONNECT. An accepted packet is conforming exactly if those two are right
(`accepted_conforming_iff`).
-/

namespace DunitOS.Gui

open SysLib Std Server Header Request Opcode

variable {packet : List UInt8} {header : Header} {req : Request} {k : ConnId}

/-- The requests on the connection itself. -/
def Opcode.OnConnection (op : Opcode) : Prop := op = .hello ∨ op = .disconnect

/-- The fields of a header and the payload are those of a request. -/
structure Conforms (packet : List UInt8) (header : Header) (req : Request) : Prop where
  decoded : Header.decode packet = .ok header
  major : header.major = versionMajor
  minor : header.minor = versionMinor
  opcode : Opcode.fromU16 header.opcodeRaw = some req.opcode
  object : header.object = 0 ↔ req.opcode.OnConnection
  carried : req.Carried
  payload : packet.drop headerLen = req.payload

/-- **A conforming request** of version 1.0. -/
def Conforming (packet : List UInt8) : Prop := ∃ header req, Conforms packet header req

/-- **What the server makes sure of** before it answers in the affirmative. -/
structure Granted (packet : List UInt8) (header : Header) (req : Request) : Prop where
  decoded : Header.decode packet = .ok header
  major : header.major = versionMajor
  opcode : Opcode.fromU16 header.opcodeRaw = some req.opcode
  object : ¬req.opcode.OnConnection → header.object ≠ 0
  carried : req.Carried
  payload : packet.drop headerLen = req.payload

/-- The fields that the decoder reads. -/
theorem Header.decode_fields
    (h : Header.decode packet = .ok header) : header.minor = rdU16 packet 6 ∧
      header.opcodeRaw = rdU16 packet 8 ∧ header.object = rdU64 packet 16 := by
  rw [decode] at h
  split_ifs at h
  cases h
  exact ⟨rfl, rfl, rfl⟩

/-- The opcode of a request on the connection is one of two numbers. -/
theorem Opcode.onConnection_iff {v : UInt16} {op : Opcode} (h : fromU16 v = some op) :
    op.OnConnection ↔ v = hello.raw ∨ v = disconnect.raw := by
  have heq : ∀ op' : Opcode, op = op' ↔ v = op'.raw := fun op' => by
    rw [← raw_of_fromU16 h]
    refine ⟨fun ho => by rw [ho], fun ho => ?_⟩
    have hsome := fromU16_raw op
    rw [ho, fromU16_raw] at hsome
    exact (Option.some.inj hsome).symm
  rw [OnConnection, heq, heq]

/-- **The two fields that nobody looks at** are right: the minor version, and the object of HELLO
and DISCONNECT. -/
def FieldsOk (packet : List UInt8) : Prop :=
  rdU16 packet 6 = 0 ∧ (rdU16 packet 8 = Opcode.hello.raw ∨
    rdU16 packet 8 = Opcode.disconnect.raw → rdU64 packet 16 = 0)

instance (packet : List UInt8) : Decidable (FieldsOk packet) :=
  inferInstanceAs (Decidable (_ ∧ (_ → _)))

theorem Conforming.fieldsOk (h : Conforming packet) : FieldsOk packet := by
  obtain ⟨header, req, hc⟩ := h
  obtain ⟨hminor, hopcode, hobject⟩ := decode_fields hc.decoded
  have hop := onConnection_iff hc.opcode
  rw [hopcode] at hop
  refine ⟨hminor.symm.trans hc.minor, fun hon => ?_⟩
  rw [← hobject]
  exact hc.object.mpr (hop.mpr hon)

/-- What is granted is conforming if the two fields are right. -/
theorem Granted.conforming
    (h : Granted packet header req) (hf : FieldsOk packet) : Conforming packet := by
  obtain ⟨hminor, hopcode, hobject⟩ := decode_fields h.decoded
  have hop := onConnection_iff h.opcode
  rw [hopcode] at hop
  refine ⟨header, req, h.decoded, h.major, hminor.trans hf.1, h.opcode, ⟨fun hzero => ?_,
    fun hon => hobject.trans (hf.2 (hop.mp hon))⟩, h.carried, h.payload⟩
  exact not_not.mp fun hoff => h.object hoff hzero

/-! ### What is accepted -/

theorem readRequest_eq_some
    (h : readRequest packet = some (header, req)) : Header.decode packet = .ok header ∧
      fromU16 header.opcodeRaw = some req.opcode ∧ req.Carried ∧
      packet.drop headerLen = req.payload := by
  rw [readRequest] at h
  rcases hd : decode packet with e | header'
  · rw [hd] at h
    cases h
  rw [hd] at h
  dsimp only at h
  rcases hop : fromU16 header'.opcodeRaw with _ | op
  · rw [hop] at h
    cases h
  rw [hop] at h
  dsimp only at h
  rcases hreq : decode op (packet.drop headerLen) with e | req'
  · rw [hreq] at h
    cases h
  rw [hreq] at h
  cases h
  obtain ⟨rfl, hcarried, hpayload⟩ := decode_eq_ok_iff.mp hreq
  exact ⟨rfl, hop, hcarried, hpayload⟩

/-- Only HELLO is accepted on the object zero: no object has that id. -/
theorem Effect.object_ne_zero {now : UInt64} {cap : Option UInt64} {x y : Ctx} {batch : Batch}
    (h : Effect k now header cap req x batch y)
    (hx : x.conn.Wf) (hreq : req.opcode ≠ .hello) : header.object ≠ 0 := by
  have hlive : ∀ {o : Object}, x.conn.objects[header.object]? = some o → header.object ≠ 0 :=
    fun ho => (hx.tally.ids _ _ ho).1
  cases h with
  | hello => exact absurd rfl hreq
  | createSurface _ _ _ _ hne | importBuffer _ _ _ _ _ hne => exact hne
  | destroyBuffer hb => exact hlive hb
  | destroySurface hs | setTitle _ hs | setAppId _ hs | ackConfigure hs | attachNothing hs
  | attachSome _ hs | commitUnmap hs | commitMap hs => exact hlive hs

/-- The major version is checked before anything is answered in the affirmative. -/
theorem pipeline_major {now : UInt64} {cap : Option UInt64} {x : Ctx}
    (hd : Header.decode packet = .ok header)
    (h : (pipeline k now packet cap x).1.1.any fun e => e.2.isSuccess) :
    header.major = versionMajor := by
  by_contra hmajor
  rw [pipeline, hd] at h
  dsimp only at h
  by_cases hcap : (header.opcodeRaw == importBuffer.raw) ≠ cap.isSome
  · rw [if_pos hcap] at h
    cases h
  · rw [if_neg hcap, if_pos hmajor] at h
    cases h

/-- **What is answered in the affirmative** is granted. -/
theorem deliver_granted {s : Server} (hwf : ∀ c, s.conns[k]? = some c → c.Wf)
    {packet : List UInt8} {cap : Option UInt64}
    (h : ∃ p ∈ (s.deliver k packet cap).1, p.event.isSuccess = true) :
    ∃ header req, Granted packet header req := by
  obtain ⟨p, hp, hsuccess⟩ := h
  rcases hc : s.conns[k]? with _ | c
  · rw [deliver, hc] at hp
    cases hp
  by_cases hclosed : c.phase = .closed
  · rw [deliver, hc] at hp
    dsimp only at hp
    rw [if_pos hclosed] at hp
    cases hp
  rw [deliver, hc] at hp
  dsimp only at hp
  rw [if_neg hclosed, Connection.send_eq] at hp
  have hany : (pipeline k s.nowNs packet cap ⟨c, s.nextClientId, s.seat⟩).1.1.any
      fun e => e.2.isSuccess := by
    rw [← any_isSuccess_numbered k]
    exact List.any_eq_true.mpr ⟨p, hp, hsuccess⟩
  have hmajor : ∀ header, decode packet = .ok header → header.major = versionMajor :=
    fun header hd => pipeline_major hd hany
  -- an error is not a success, so that the packet is DISCONNECT or a request that has its effect
  have ha := pipeline_answered k s.nowNs packet cap ⟨c, s.nextClientId, s.seat⟩
  generalize pipeline k s.nowNs packet cap ⟨c, s.nextClientId, s.seat⟩ = r at ha hany
  cases ha with
  | undecodable | rejected | refused => cases hany
  | disconnected header hread =>
    obtain ⟨hd, hop, hcarried, hpayload⟩ := readRequest_eq_some hread
    exact ⟨header, .disconnect, hd, hmajor header hd, hop,
      fun hoff => absurd (Or.inr rfl) hoff, hcarried, hpayload⟩
  | accepted header req _ _ hread _ _ _ _ he =>
    obtain ⟨hd, hop, hcarried, hpayload⟩ := readRequest_eq_some hread
    refine ⟨header, req, hd, hmajor header hd, hop, fun hoff => ?_, hcarried, hpayload⟩
    have hx : ((⟨c, s.nextClientId, s.seat⟩ : Ctx).noted header.serial).conn.Wf :=
      ⟨(hwf c hc).links, (hwf c hc).tally⟩
    exact he.object_ne_zero hx fun hhello => hoff (Or.inl hhello)

/-- **Which accepted packets are conforming**: in every state that can be reached, those whose
minor version is zero and, if they are HELLO or DISCONNECT, whose object is zero. -/
theorem accepted_conforming_iff (calls : List Call) (k : ConnId) (packet : List UInt8)
    (cap : Option UInt64)
    (h : ∃ p ∈ ((run calls).2.deliver k packet cap).1, p.event.isSuccess = true) :
    Conforming packet ↔ FieldsOk packet := by
  obtain ⟨header, req, hg⟩ := deliver_granted (fun c hc => wf_run calls hc) h
  exact ⟨Conforming.fieldsOk, hg.conforming⟩

theorem accepted_conforming_iff_hello :
    Conforming ((Request.hello 0 0 0 0).encode 0 1) := by
  refine (accepted_conforming_iff [.connect] 1 _ none ?_).mpr ?_
  · decide +kernel
  · decide +kernel

/-- A packet with another minor version in its header. -/
def withMinor (minor : UInt16) (packet : List UInt8) : List UInt8 :=
  putLe packet 6 2 minor.toNat

/-- HELLO is accepted with another minor version or another object, and so is DISCONNECT. -/
theorem accepted_not_conforming :
    (∃ p ∈ ((run [.connect]).2.deliver 1
        (withMinor 7 ((Request.hello 0 0 0 0).encode 0 1)) none).1, p.event.isSuccess = true) ∧
      ¬Conforming (withMinor 7 ((Request.hello 0 0 0 0).encode 0 1)) ∧
    (∃ p ∈ ((run [.connect]).2.deliver 1 ((Request.hello 0 0 0 0).encode 5 1) none).1,
        p.event.isSuccess = true) ∧ ¬Conforming ((Request.hello 0 0 0 0).encode 5 1) ∧
    (∃ p ∈ ((run [.connect, .request 1 0 1 (.hello 0 0 0 0)]).2.deliver 1
        (Request.disconnect.encode 5 2) none).1, p.event.isSuccess = true) ∧
      ¬Conforming (Request.disconnect.encode 5 2) := by
  have hnot : ∀ packet, ¬FieldsOk packet → ¬Conforming packet :=
    fun packet hf hc => hf hc.fieldsOk
  refine ⟨by decide +kernel, hnot _ (by decide +kernel), by decide +kernel,
    hnot _ (by decide +kernel), by decide +kernel, hnot _ (by decide +kernel)⟩

end DunitOS.Gui
