import DunitOS.Gui.Focus

/-!
# The destroy barrier

Once the RESULT of a DESTROY_SURFACE or a DESTROY_BUFFER has been sent, the id is dead on
its connection: no packet names it any more, except the ERROR that a request gets which
names it, and no request creates an object with it again. The protocol of one id
(`Barrier`) says so, and every connection of every run keeps to it in which no
connection gets an id in use (`run_barrier`).

The places that remember an id are the objects of the connection, with the references
among them, and the seat. The seat is the one that can be left behind: when a connection
takes over the id of another, the surface that has the focus is none of its own, and
input for it passes the barrier (`barrier_passed`).
-/

namespace DunitOS.Gui

open Server UInt64 List Connection

open SysLib Std

/-! ### The protocol of one id -/

/-- The state of an id: not destroyed, being destroyed by a request, or dead; a dead id may
be named in answer to a request. -/
inductive Barrier
  | alive
  | dying (serial : UInt64)
  | dead (asked : Option UInt64)
  deriving DecidableEq, Repr

/-- Whether a request destroys its object. -/
def Request.destroys : Request → Bool
  | .destroySurface | .destroyBuffer => true
  | _ => false

/-- Whether a request creates its object. -/
def Request.creates : Request → Bool
  | .createSurface .. | .importBuffer .. => true
  | _ => false

theorem Request.opcode_of_creates {req : Request} (h : req.creates = true) :
    req.opcode ≠ .hello := by
  cases req <;> simp_all [Request.creates, Request.opcode]

namespace Barrier

/-- The serial of a packet that names an id. -/
def asks (i : ObjectId) (packet : List UInt8) : Option UInt64 :=
  match Header.decode packet with
  | .ok header => if header.object = i then some header.serial else none
  | .error _ => none

/-- A packet to the client that names the id. -/
def onEvent : Barrier → Event → Option Barrier
  | alive, _ => some alive
  | dying serial, ev => if ev = .result serial then some (dead none) else some (dying serial)
  | dead asked, .error request _ _ => if asked = some request then some (dead none) else none
  | dead _, _ => none

def read (i : ObjectId) (q : Barrier) (e : ObjectId × Event) : Option Barrier :=
  if e.1 = i then q.onEvent e.2 else some q

/-- An accepted request. -/
def onRequest (i : ObjectId) (header : Header) (req : Request) : Barrier → Option Barrier
  | alive => if header.object = i ∧ req.destroys = true then some (dying header.serial)
    else some alive
  | dying serial => some (dying serial)
  | dead _ => if header.object = i ∧ req.creates = true then none else some (dead none)

/-- **The protocol of one id.** -/
def step (i : ObjectId) (q : Barrier) : Item → Option Barrier
  | .accepted header req => q.onRequest i header req
  | .refused packet => match q with
    | dead _ => some (dead (asks i packet))
    | q => some q
  | .composite | .removed => some q
  | .sent p => q.read i (p.object, p.event)

end Barrier

open Barrier

/-! ### Requests -/

/-- **A dead id**: it names nothing, and is not fresh. -/
structure Dead (c : Connection) (i : ObjectId) : Prop where
  ne_zero : i ≠ 0
  le : i ≤ c.idWatermark
  none : c.objects[i]? = none

section

variable {k : ConnId} {now : UInt64} {header : Header} {cap : Option UInt64} {req : Request}
  {x y : Ctx} {batch : Batch} {i : ObjectId}

variable {c : Connection}

theorem Dead.ne_of_live {j : ObjectId} {o : Object} (h : Dead c i)
    (hj : c.objects[j]? = some o) : j ≠ i := by
  rintro rfl
  rw [h.none] at hj
  cases hj

theorem Dead.ne_of_fresh {j : ObjectId} (h : Dead c i) (hj : c.idWatermark < j) : j ≠ i := by
  rintro rfl
  exact not_lt.mpr h.le hj

section

variable (h : Effect k now header cap req x batch y)

include h

/-- The object of an accepted request is new or there, except that of HELLO, which is not
looked at. -/
theorem Effect.object :
    req.opcode = .hello ∨ x.conn.idWatermark < header.object ∨
      ∃ o, x.conn.objects[header.object]? = some o := by
  cases h with
  | hello => exact .inl rfl
  | createSurface _ _ _ _ _ hfresh => exact .inr (.inl hfresh)
  | importBuffer _ _ _ _ _ _ hfresh =>
    exact .inr (.inl hfresh)
  | destroyBuffer hb => exact .inr (.inr ⟨_, hb⟩)
  | destroySurface hs | setTitle title hs | setAppId appId hs | ackConfigure hs
  | attachNothing hs | attachSome damage hs | commitUnmap hs | commitMap hs =>
    exact .inr (.inr ⟨_, hs⟩)

/-- **No accepted request names a dead id.** -/
theorem Effect.object_ne (hi : Dead x.conn i) (hreq : req.opcode ≠ .hello) : header.object ≠ i := by
  rcases h.object with h | h | ⟨o, h⟩
  · exact absurd h hreq
  · exact hi.ne_of_fresh h
  · exact hi.ne_of_live h

/-- No answer to an accepted request names a dead id. -/
theorem Effect.batch_ne (hi : Dead x.conn i) : ∀ e ∈ batch, e.1 ≠ i := by
  intro e he
  by_cases hreq : req.opcode = .hello
  · cases h <;> try cases hreq
    rw [mem_singleton.mp he]
    exact Ne.symm hi.ne_zero
  · have hobject := h.object_ne hi hreq
    cases h.parts e he with
    | welcome => exact Ne.symm hi.ne_zero
    | release _ _ hb => exact hi.ne_of_live hb
    | _ => exact hobject

end

theorem objects_givesUp_of_none {r : Connection × Batch} (hr : c.GivesUp r)
    (h : c.objects[i]? = none) : r.1.objects[i]? = none := by
  rcases hr with rfl | ⟨id, commit, rfl⟩
  · exact h
  rw [release_fst]
  by_cases hid : some id = some i
  · cases hid
    rw [getElem?_freeRef_self, h]
    rfl
  · exact (getElem?_freeRef_of_ne hid).trans h

/-- **A dead id stays dead.** -/
theorem Effect.dead (h : Effect k now header cap req x batch y) (hi : Dead x.conn i) :
    Dead y.conn i := by
  refine ⟨hi.ne_zero, le_trans hi.le h.kept.idWatermark, ?_⟩
  have hput : ∀ {c : Connection} {j : ObjectId} {o : Object}, c.objects[i]? = none → j ≠ i →
      (c.objects.insert j o)[i]? = none := fun hc hj => (getElem?_insert_of_ne hj).trans hc
  cases h with
  | hello | setTitle | setAppId => exact hi.none
  | createSurface role width height format hne hfresh
  | importBuffer _ _ _ _ _ _ hfresh =>
    exact hput hi.none (hi.ne_of_fresh hfresh)
  | destroyBuffer hb => exact (getElem?_erase_of_ne (hi.ne_of_live hb)).trans hi.none
  | @destroySurface _ s hs _ _ hr1 hr2 =>
    subst hr2
    subst hr1
    exact (getElem?_erase_of_ne (hi.ne_of_live hs)).trans
      (objects_givesUp_of_none (Arm.gives _ s) (objects_givesUp_of_none (Arm.cancels _ s) hi.none))
  | ackConfigure hs | attachNothing hs => exact hput hi.none (hi.ne_of_live hs)
  | attachSome _ hs _ _ hb =>
    exact hput (hput hi.none (hi.ne_of_live hb)) (hi.ne_of_live hs)
  | @commitUnmap _ s _ hs _ _ _ _ _ _ hr =>
    subst hr
    exact objects_givesUp_of_none (Arm.gives _ s) (hput hi.none (hi.ne_of_live hs))
  | @commitMap _ s _ _ hs _ _ hb _ _ _ _ hr =>
    subst hr
    exact objects_givesUp_of_none (replaces _ s)
      (hput (hput hi.none (hi.ne_of_live hb)) (hi.ne_of_live hs))

/-- A request that destroys its object: the RESULT is the last word, and the id is dead
then. -/
theorem Effect.destroyed (h : Effect k now header cap req x batch y) (hx : x.conn.Wf)
    (hreq : req.destroys = true) : Dead y.conn header.object ∧
      ∃ front, batch = front ++ [(header.object, .result header.serial)] ∧
        ∀ e ∈ front, ∀ serial, e.2 ≠ .result serial := by
  have hdead : ∀ {o : Object}, x.conn.objects[header.object]? = some o →
      header.object ≠ 0 ∧ header.object ≤ y.conn.idWatermark := fun ho =>
    ⟨(hx.tally.ids _ _ ho).1, le_trans (hx.tally.ids _ _ ho).2 h.kept.idWatermark⟩
  have hrelease : ∀ {c : Connection} {e : ObjectId × Event}, Releases c e →
      ∀ serial, e.2 ≠ .result serial := by
    rintro c e ⟨⟨commit, he⟩, -⟩ serial hserial
    rw [he] at hserial
    cases hserial
  cases h with
  | destroyBuffer hb =>
    exact ⟨⟨(hdead hb).1, (hdead hb).2, ExtTreeMap.getElem?_erase_self⟩, [], rfl, by simp⟩
  | @destroySurface _ _ hs _ _ hr1 hr2 =>
    refine ⟨⟨(hdead hs).1, (hdead hs).2, ExtTreeMap.getElem?_erase_self⟩, _, rfl,
      fun e he serial => ?_⟩
    subst hr2
    subst hr1
    simp only [mem_append] at he
    rcases he with ((he | he) | he) | he
    · rcases Seat.of_mem_dropSurface he with rfl | rfl <;> simp
    · exact hrelease ((Arm.cancels _ _).releases he) serial
    · exact hrelease ((Arm.gives _ _).releases he) serial
    · obtain ⟨commit, -, rfl⟩ := Arm.of_mem_discarded he
      simp
  | _ => cases hreq

end

/-! ### Steps -/

/-- The state of an id between two calls: it is not destroyed yet, or it is dead. -/
def Barrier.Holds (i : ObjectId) (q : Barrier) (c : Connection) : Prop :=
  q = .alive ∨ ∃ asked, q = .dead asked ∧ Dead c i

namespace Barrier

variable {i : ObjectId} {q : Barrier} {batch : Batch}

theorem leads_alive : Leads (read i) alive batch alive :=
  leads_of_silent fun e _ => by
    rw [read]
    split_ifs <;> rfl

theorem leads_of_ne (h : ∀ e ∈ batch, e.1 ≠ i) : Leads (read i) q batch q :=
  leads_of_silent fun e he => if_neg (h e he)

theorem leads_dying {serial : UInt64} (h : ∀ e ∈ batch, ∀ serial, e.2 ≠ .result serial) :
    Leads (read i) (dying serial) batch (dying serial) := by
  refine leads_of_silent fun e he => ?_
  rw [read]
  split_ifs
  · exact if_neg (h e he serial)
  · rfl

end Barrier

section

variable {k : ConnId} {now : UInt64} {c c' : Connection} {items : List Item} {i : ObjectId}
  {q : Barrier}

/-- What a call has to say of an id that is not destroyed yet. -/
theorem Step.barrier_alive (h : Step k now c items c') (hc : c.Wf) :
    ∃ q, Leads (step i) .alive items q ∧ q.Holds i c' := by
  have hsends : ∀ batch, Leads (step i) .alive (c.sends k batch) .alive := fun batch =>
    leads_sends (fun _ _ => rfl) leads_alive
  cases h with
  | @accept header _ req x _ batch _ _ _ _ _ hx he =>
    by_cases hdestroy : header.object = i ∧ req.destroys = true
    · obtain ⟨rfl, hreq⟩ := hdestroy
      have hxc : x.conn.Wf := by
        rw [hx]
        exact ⟨hc.links, hc.tally⟩
      obtain ⟨hdead, front, rfl, hfront⟩ := he.destroyed hxc hreq
      have hmark : step header.object .alive (.accepted header req) =
          some (.dying header.serial) := if_pos ⟨rfl, hreq⟩
      have hresult : read header.object (.dying header.serial)
          (header.object, .result header.serial) = some (.dead none) := by
        simp [Barrier.read, Barrier.onEvent]
      exact ⟨.dead none, leads_cons hmark (leads_sends (fun _ _ => rfl)
        ((leads_dying hfront).append (leads_singleton hresult))),
        .inr ⟨none, rfl, hdead.ne_zero, hdead.le, hdead.none⟩⟩
    · exact ⟨.alive, leads_cons (if_neg hdestroy) (hsends batch), .inl rfl⟩
  | idle => exact ⟨.alive, leads_nil, .inl rfl⟩
  | pass => exact ⟨.alive, leads_singleton rfl, .inl rfl⟩
  | reconfigure | input | overflow => exact ⟨.alive, hsends _, .inl rfl⟩
  | disconnect =>
    exact ⟨.alive, leads_cons (if_neg fun h => by cases h.2) (hsends _), .inl rfl⟩
  | _ => exact ⟨.alive, leads_cons rfl (hsends _), .inl rfl⟩

/-- An error that answers a packet may name what the packet names. -/
theorem Barrier.leads_refused {packet : List UInt8} {object request : UInt64}
    (hf : Faults packet object request) (hi : i ≠ 0) {code fatal : UInt32}
    {asked : Option UInt64} : ∃ asked', Leads (step i) (.dead asked)
      (.refused packet :: c.sends k [(object, .error request code fatal)]) (.dead asked') := by
  have hsends : ∀ {q q' : Barrier}, q.read i (object, .error request code fatal) = some q' →
      Leads (step i) q (c.sends k [(object, .error request code fatal)]) q' := fun h =>
    leads_sends (fun _ _ => rfl) (leads_singleton h)
  rcases hf with ⟨e, hd, rfl, rfl⟩ | ⟨header, hd, rfl, rfl⟩
  · exact ⟨_, leads_cons rfl (hsends (if_neg (Ne.symm hi)))⟩
  · by_cases ho : header.object = i
    · have hasks : asks i packet = some header.serial := by
        rw [asks, hd]
        exact if_pos ho
      have hmark : step i (.dead asked) (.refused packet) =
          some (.dead (some header.serial)) := by rw [← hasks]; rfl
      exact ⟨none, leads_cons hmark (hsends ((if_pos ho).trans (if_pos rfl)))⟩
    · exact ⟨_, leads_cons rfl (hsends (if_neg ho))⟩

/-- **What a call has to say of a dead id**: nothing, if the input events it passes are for
surfaces that are there. -/
theorem Step.barrier_dead (h : Step k now c items c') (hi : Dead c i)
    (hinput : ∀ p, .sent p ∈ items → p.event.isInput = true → ∃ o, c.objects[p.object]? = some o)
    (asked : Option UInt64) :
    ∃ asked', Leads (step i) (.dead asked) items (.dead asked') ∧ Dead c' i := by
  have hsends : ∀ {batch} asked, (∀ e ∈ batch, e.1 ≠ i) →
      Leads (step i) (.dead asked) (c.sends k batch) (.dead asked) := fun asked hb =>
    leads_sends (fun _ _ => rfl) (leads_of_ne hb)
  have hzero : ∀ {ev : Event}, ∀ e ∈ [((0 : ObjectId), ev)], e.1 ≠ i := fun e he => by
    rw [mem_singleton.mp he]
    exact Ne.symm hi.ne_zero
  cases h with
  | idle => exact ⟨asked, leads_nil, hi⟩
  | refuse e _ hd =>
    obtain ⟨asked', hl⟩ := leads_refused (.inr ⟨_, hd, rfl, rfl⟩)
      hi.ne_zero
    exact ⟨asked', hl, hi.ne_zero, hi.le, hi.none⟩
  | reject e _ _ _ hfault =>
    obtain ⟨asked', hl⟩ := leads_refused hfault hi.ne_zero
    exact ⟨asked', hl, hi.ne_zero, hi.le, hi.none⟩
  | disconnect =>
    exact ⟨none, leads_cons (if_neg fun h => by cases h.2) (hsends none hzero), hi.ne_zero, hi.le,
      hi.none⟩
  | @accept header _ req x _ _ _ _ _ _ _ hx he =>
    have hix : Dead x.conn i := by
      rw [hx]
      exact ⟨hi.ne_zero, hi.le, hi.none⟩
    have hdead := he.dead hix
    have hcreate : ¬(header.object = i ∧ req.creates = true) := by
      rintro ⟨ho, hreq⟩
      exact he.object_ne hix (Request.opcode_of_creates hreq) ho
    exact ⟨none, leads_cons (if_neg hcreate) (hsends none (he.batch_ne hix)), hdead.ne_zero,
      hdead.le, hdead.none⟩
  | composite =>
    refine ⟨asked, leads_cons rfl (hsends asked fun e he => ?_), hi.ne_zero, hi.le, ?_⟩
    · obtain ⟨s, ho, -⟩ := of_mem_frames he
      exact hi.ne_of_live ho
    · exact ExtTreeMap.getElem?_map.trans (congrArg (Option.map Object.unframed) hi.none)
  | pass => exact ⟨asked, leads_singleton rfl, hi⟩
  | reconfigure _ _ _ _ _ hs =>
    refine ⟨asked, hsends asked fun e he => ?_, hi.ne_zero, hi.le, ?_⟩
    · rw [mem_singleton.mp he]
      exact hi.ne_of_live hs
    · exact (getElem?_insert_of_ne (hi.ne_of_live hs)).trans hi.none
  | input _ _ hin =>
    refine ⟨asked, hsends asked fun e he => ?_, hi.ne_zero, hi.le, hi.none⟩
    obtain ⟨n, hn⟩ := mem_sends he
    obtain ⟨o, ho⟩ := hinput _ hn (hin e he)
    exact hi.ne_of_live ho
  | overflow => exact ⟨asked, hsends asked hzero, hi.ne_zero, hi.le, hi.none⟩

end

/-! ### Where input goes -/

section

variable {s : Server}

theorem Server.aims_numbered {k : ConnId} {batch : Batch}
    (h : ∀ e ∈ batch, e.2.isInput = true → s.isMapped (k, e.1) = true) {n : UInt64} :
    s.Aims (numbered k n batch) := fun p hp hin => by
  obtain ⟨rfl, he⟩ := of_mem_numbered hp
  exact h _ he hin

/-- The leave events of a surface are for what has the focus. -/
theorem Server.Focused.isMapped_of_mem_dropSurface (hs : s.Focused) {t : Target}
    {e : ObjectId × Event} (h : e ∈ (s.seat.dropSurface t).2) : s.isMapped (t.1, e.1) = true := by
  rw [Seat.dropSurface_snd] at h
  rcases mem_append.mp h with h | h <;> split_ifs at h with hfocus
  · rw [mem_singleton.mp h]
    exact hs.pointer t hfocus
  · cases h
  · rw [mem_singleton.mp h]
    exact hs.keyboard t hfocus
  · cases h

theorem Server.Focused.aims_deliver (hs : s.Focused) {conn : ConnId}
    (hwf : ∀ c, s.conns[conn]? = some c → c.Wf) (packet : List UInt8) (cap : Option UInt64) :
    s.Aims (s.deliver conn packet cap).1 := by
  rcases deliver_cases s conn packet cap with hr | ⟨c, hc, hopen⟩
  · rw [hr]
    exact aims_nil
  · obtain ⟨r, ha, hr⟩ := deliver_eq hc hopen packet cap
    have hsilent : ∀ {batch : Batch} {e : ObjectId × Event}, (∀ e ∈ batch, e.2.isSilent = true) →
        e ∈ batch → e.2.isInput = true → s.isMapped (conn, e.1) = true := fun h he hin =>
      absurd hin (Event.not_isInput_of_isSilent (h _ he))
    rw [hr]
    refine aims_numbered (fun e he hin => ?_)
    cases ha with
    | accepted header _ _ _ _ _ _ _ _ heff =>
      have hx : (Ctx.noted ⟨c, s.nextClientId, s.seat⟩ header.serial).conn.Wf :=
        ⟨(hwf c hc).links, (hwf c hc).tally⟩
      rcases heff.seat hx with h | h
      · exact hsilent h.silent he hin
      · obtain ⟨-, ⟨before, after, rfl, hbefore, hafter⟩, -⟩ := h
        rcases mem_append.mp he with he | he
        · rcases mem_append.mp he with he | he
          · exact hsilent hbefore he hin
          · exact hs.isMapped_of_mem_dropSurface he
        · exact hsilent hafter he hin
    | _ =>
      rw [mem_singleton.mp he] at hin
      cases hin

/-- **Input events are for mapped surfaces**, whatever the call. -/
theorem Server.Focused.aims (hs : s.Focused) (hwf : s.Wf) (call : Call) :
    s.Aims (s.exec call).1.sent := by
  by_cases hplain : call.isPlain = true
  · obtain ⟨r, hr, hobeys⟩ := hs.obeys hplain
    rw [hr]
    exact hobeys.aims
  cases call with
  | connect | disconnectPeer | tick => exact aims_nil
  | deliver conn packet cap => exact hs.aims_deliver (fun c hc => hwf conn c hc) packet cap
  | composite => exact (s.quiet_composite.obeys hs).aims
  | _ => exact absurd rfl hplain

end

/-! ### Runs -/

/-- The items of a call that are packets are those it returned. -/
theorem mem_sent_of_mem_items {o : Seen} {k : ConnId} {p : Packet} (h : .sent p ∈ o.items k) :
    p ∈ o.sent ∧ p.conn = k := by
  rw [Seen.items] at h
  rcases mem_append.mp h with h | h
  · have hmark : ∀ packet sent, .sent p ∉ received packet sent := fun packet sent hmem => by
      rw [received] at hmem
      split_ifs at hmem
      · cases hmem
      · rcases hread : readRequest packet with _ | r <;> simp [hread] at hmem
      · simp at hmem
    split at h <;> first | (split_ifs at h <;> simp [hmark] at h) | simp at h
  · obtain ⟨p', hp', heq⟩ := mem_map.mp h
    cases heq
    simpa using mem_filter.mp hp'

/-- What each id of a connection has gone through. -/
def Server.Barred (s : Server) (t : List Seen) : Prop :=
  ∀ (k : ConnId) (i : ObjectId), ∃ q, Leads (Barrier.step i) .alive (life k t) q ∧
    ∀ c, s.conns[k]? = some c → q.Holds i c

/-- **The step lemma**: a call that aims its input right keeps to the protocol of every id. -/
theorem Server.Barred.exec {s : Server} {t : List Seen} (h : s.Barred t) (hs : s.Focused)
    (hwf : s.Wf) (call : Call) : (s.exec call).2.Barred (t ++ [(s.exec call).1]) := by
  intro k i
  obtain ⟨q, hq, hholds⟩ := h k i
  rw [life_snoc]
  rcases exec_step with ⟨ho, -⟩ | ⟨ho, hp⟩
  · rw [if_pos ho]
    exact ⟨.alive, leads_nil, fun c _ => .inl rfl⟩
  · rw [if_neg ho]
    have haims : ∀ p, .sent p ∈ (s.exec call).1.items k → p.event.isInput = true →
        s.isMapped (k, p.object) = true := fun p hp hin => by
      obtain ⟨hsent, rfl⟩ := mem_sent_of_mem_items hp
      exact hs.aims hwf call p hsent hin
    generalize hold : s.conns[k]? = old at hp
    generalize (s.exec call).2.conns[k]? = new at hp
    generalize (s.exec call).1.items k = items at hp haims
    cases hp with
    | absent => exact ⟨q, hq.append leads_nil, fun c hc => by cases hc⟩
    | absentMark hmark =>
      exact ⟨q, hq.append (leads_singleton (by rcases hmark with rfl | rfl <;> rfl)),
        fun c hc => by cases hc⟩
    | removed c => exact ⟨q, hq.append (leads_singleton rfl), fun c hc => by cases hc⟩
    | @step c _ _ hstep =>
      rcases hholds c hold with rfl | ⟨asked, rfl, hdead⟩
      · obtain ⟨q', hl, hq'⟩ := hstep.barrier_alive (hwf k c hold)
        exact ⟨q', hq.append hl, fun c1 hc1 => by cases hc1; exact hq'⟩
      · have hinput : ∀ p, .sent p ∈ items → p.event.isInput = true →
            ∃ o, c.objects[p.object]? = some o := fun p hp hin => by
          obtain ⟨c1, hc1, -, v, hv, -⟩ := isMapped_iff.mp (haims p hp hin)
          cases hold.symm.trans hc1
          exact ⟨_, hv⟩
        obtain ⟨asked', hl, hdead'⟩ := hstep.barrier_dead hdead hinput asked
        exact ⟨_, hq.append hl, fun c1 hc1 => by
          cases hc1
          exact .inr ⟨asked', rfl, hdead'⟩⟩

/-- **The destroy barrier holds in every run in which no connection gets an id that is in
use.** -/
theorem run_barrier (calls : List Call) (h : EveryCall Server.OpensFresh Server.new calls)
    (k : ConnId) (i : ObjectId) :
    ∃ q, Leads (Barrier.step i) .alive (life k (run calls).1) q := by
  have hnew : new.Wf ∧ new.Right [] ∧ new.Barred [] :=
    ⟨wf_new, right_new, fun k i => ⟨.alive, leads_nil, fun c _ => .inl rfl⟩⟩
  obtain ⟨-, -, hb⟩ := everyCall_induct (P := fun t s => s.Wf ∧ s.Right t ∧ s.Barred t)
    (fun t s call hP hok => ⟨hP.1.exec call, hP.2.1.exec hP.1 hok, hP.2.2.exec hP.2.1.1 hP.1 call⟩)
    calls hnew h
  obtain ⟨q, hq, -⟩ := hb k i
  exact ⟨q, hq⟩

theorem run_barrier_lastFrame : EveryCall Server.OpensFresh Server.new lastFrame ∧
    (∃ q, Leads (Barrier.step 1) .alive (life 1 (run lastFrame).1) q) ∧
    ∃ q, Leads (Barrier.step 2) .alive (life 1 (run lastFrame).1) q :=
  have hfresh : EveryCall Server.OpensFresh Server.new lastFrame := by decide +kernel
  ⟨hfresh, run_barrier lastFrame hfresh 1 1, run_barrier lastFrame hfresh 1 2⟩

/-! ### Wrapped connection ids -/

/-- A new client with the id of the one that holds the pointer, which imports and destroys a
buffer. -/
def successor : List Call :=
  [.connect, .request 1 0 1 (.hello 0 0 0 0),
    .request 1 1 2 (.importBuffer 16 16 64 1 0) (some 4096), .request 1 1 3 .destroyBuffer,
    .pointerMotion 7 7]

/-- **Input passes the barrier** when a connection takes over the id of another: the pointer
is on a surface of the old client, and its motion is sent under the id of a buffer that the
new one has destroyed. -/
theorem barrier_passed : ¬∃ q, Leads (Barrier.step 1) .alive
    (life 1 (run (wrapIds successor)).1) q := by
  obtain ⟨t, ht⟩ := run_wrapIds successor
  rw [ht, runFrom_eq t]
  have hnone : (life 1 (runFrom ([], wrapped) successor).1).foldlM (step 1) .alive =
      none := by decide +kernel
  rintro ⟨q, hq⟩
  rw [successor, runFrom_nil_cons] at hq hnone
  rw [Leads, life_of_opened rfl, hnone] at hq
  cases hq

end DunitOS.Gui
