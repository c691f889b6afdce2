import DunitOS.Gui.Steps

/-!
# Replies

Every packet that reaches an open connection is answered by exactly one reply, WELCOME,
RESULT or ERROR, which names the serial of the packet. The reply leads the batch, except
that DESTROY_SURFACE puts it last, behind the events that take leave of the surface
(`deliver_replied`). A recoverable error is all that happens: the rest of the
server stays as it was (`deliver_recoverable`).

The packets of one connection are numbered in the order in which they are sent, whichever
call sends them, and none is sent once the connection is closed
(`run_replies`). The numbers are of 64 bits, and start over after the last.
The requests that are accepted follow the protocol (`run_ordered`).
-/

namespace DunitOS.Gui

open SysLib Std List Connection UInt64 Header Request

variable {batch : Batch} {k : ConnId}

/-! ### The reply to a request -/

/-- The request that an event answers, if it is a reply. -/
def Event.request : Event → Option UInt64
  | .welcome request .. => some request
  | .result request => some request
  | .error request .. => some request
  | _ => none

/-- A batch without a reply. -/
def Unasked (batch : Batch) : Prop := ∀ e ∈ batch, e.2.request = none

theorem Unasked.append {b b' : Batch} (h : Unasked b) (h' : Unasked b') : Unasked (b ++ b') :=
  fun e he => (mem_append.mp he).elim (h e) (h' e)

theorem unasked_dropSurface {seat : Seat} {tgt : Target} : Unasked (seat.dropSurface tgt).2 :=
  fun e he => by rcases Seat.of_mem_dropSurface he with rfl | rfl <;> rfl

theorem unasked_givesUp {c : Connection} {r : Connection × Batch} (h : c.GivesUp r) :
    Unasked r.2 := fun e he => by
  obtain ⟨⟨commit, hev⟩, -⟩ := h.releases he
  rw [hev]
  rfl

theorem unasked_discarded {obj now : UInt64} {token : Option UInt64} :
    Unasked (Arm.discarded obj now token) :=
  fun e he => by
    obtain ⟨commit, -, rfl⟩ := Arm.of_mem_discarded he
    rfl

/-- A reply that leads its batch. -/
def Leading (e : ObjectId × Event) (batch : Batch) : Prop :=
  ∃ rest, batch = e :: rest ∧ Unasked rest

/-- A reply that ends its batch. -/
def Trailing (e : ObjectId × Event) (batch : Batch) : Prop :=
  ∃ rest, batch = rest ++ [e] ∧ Unasked rest

theorem leading_singleton {e : ObjectId × Event} : Leading e [e] :=
  ⟨[], rfl, fun _ he => (by cases he)⟩

theorem trailing_singleton {e : ObjectId × Event} : Trailing e [e] :=
  ⟨[], rfl, fun _ he => (by cases he)⟩

variable {e : ObjectId × Event}

section

variable {k : ConnId} {now : UInt64} {header : Header} {cap : Option UInt64} {req : Request}
  {x y : Ctx} {batch : Batch}

/-- **An accepted request is answered once**, first of all or, for DESTROY_SURFACE, last. -/
theorem Effect.reply (h : Effect k now header cap req x batch y) :
    ∃ e : ObjectId × Event, e.2.request = some header.serial ∧
      (req = .destroySurface → Trailing e batch) ∧ (req ≠ .destroySurface → Leading e batch) := by
  cases h with
  | createSurface =>
    refine ⟨_, rfl, fun h => (by cases h), fun _ => ⟨_, rfl, fun e he => ?_⟩⟩
    rw [mem_singleton.mp he]
    rfl
  | destroySurface _ _ _ hr1 hr2 =>
    refine ⟨(header.object, .result header.serial), rfl, fun _ => ⟨_, rfl, ?_⟩,
      fun h => absurd rfl h⟩
    subst hr1
    subst hr2
    exact ((unasked_dropSurface.append (unasked_givesUp (Arm.cancels _ _))).append
      (unasked_givesUp (Arm.gives _ _))).append unasked_discarded
  | commitUnmap _ _ _ _ _ _ _ hr =>
    refine ⟨_, rfl, fun h => (by cases h), fun _ => ⟨_, rfl, ?_⟩⟩
    subst hr
    exact (unasked_dropSurface.append (unasked_givesUp (Arm.gives _ _))).append
      unasked_discarded
  | commitMap _ _ _ _ _ _ _ _ hr =>
    refine ⟨_, rfl, fun h => (by cases h), fun _ => ⟨_, rfl, ?_⟩⟩
    subst hr
    exact unasked_givesUp (replaces _ _)
  | _ => exact ⟨_, rfl, fun h => (by cases h), fun _ => leading_singleton⟩

/-- An accepted request is not answered with an error. -/
theorem Effect.not_error (h : Effect k now header cap req x batch y)
    (he : e ∈ batch) (request : UInt64) (code fatal : UInt32) :
    e.2 ≠ .error request code fatal := by
  intro herr
  obtain ⟨object, ev⟩ := e
  obtain rfl : ev = .error request code fatal := herr
  cases h.parts _ he

end

/-! ### The reply to a packet -/

/-- The serial of a packet, or zero if its header cannot be read. -/
def requestOf (packet : List UInt8) : UInt64 :=
  match Header.decode packet with
  | .ok header => header.serial
  | .error _ => 0

/-- Whether a packet is a well-formed DESTROY_SURFACE. -/
def asksDestroySurface (packet : List UInt8) : Prop :=
  ∃ header, readRequest packet = some (header, .destroySurface)

/-- **What is returned for a packet**: one reply to it, at its place. -/
structure Replied (packet : List UInt8) (out : List Packet) : Prop where
  once : out.filterMap (fun p => p.event.request) = [requestOf packet]
  last : asksDestroySurface packet → ∃ p rest, out = rest ++ [p] ∧ p.event.request.isSome
  first : ¬asksDestroySurface packet → ∃ p rest, out = p :: rest ∧ p.event.request.isSome

theorem filterMap_request_numbered {n : UInt64} :
    (numbered k n batch).filterMap (fun p => p.event.request) =
      batch.filterMap fun e => e.2.request := by
  induction batch generalizing n with
  | nil => rfl
  | cons _ _ ih => rw [numbered, filterMap_cons, filterMap_cons, ih]

theorem Unasked.filterMap_eq (h : Unasked batch) :
    batch.filterMap (fun e => e.2.request) = [] := filterMap_eq_nil_iff.mpr h

variable {ser : UInt64}

theorem Leading.numbered
    (h : Leading e batch) (he : e.2.request = some ser) (k : ConnId) (n : UInt64) :
    (numbered k n batch).filterMap (fun p => p.event.request) = [ser] ∧
      ∃ p rest, numbered k n batch = p :: rest ∧ p.event.request.isSome := by
  obtain ⟨rest, rfl, hrest⟩ := h
  refine ⟨?_, _, _, rfl, by rw [he]; rfl⟩
  rw [filterMap_request_numbered, filterMap_cons, he, hrest.filterMap_eq]

theorem Trailing.numbered
    (h : Trailing e batch) (he : e.2.request = some ser) (k : ConnId) (n : UInt64) :
    (numbered k n batch).filterMap (fun p => p.event.request) = [ser] ∧
      ∃ p rest, numbered k n batch = rest ++ [p] ∧ p.event.request.isSome := by
  obtain ⟨rest, rfl, hrest⟩ := h
  refine ⟨?_, ⟨k, e.1, n + ofNat rest.length, e.2⟩, Gui.numbered k n rest, ?_, by rw [he]; rfl⟩
  · rw [filterMap_request_numbered, filterMap_append, hrest.filterMap_eq, filterMap_cons, he]
    rfl
  · rw [numbered_append]
    rfl

section

variable {s : Server} {conn : ConnId} {c : Connection} {packet : List UInt8} {cap : Option UInt64}

/-- A single packet is at any place. -/
theorem replied_singleton {object : UInt64} {ev : Event} (h : ev.request = some (requestOf packet))
    {n : UInt64} : Replied packet (numbered k n [(object, ev)]) where
  once := (leading_singleton.numbered h k n).1
  last _ := (trailing_singleton.numbered h k n).2
  first _ := (leading_singleton.numbered h k n).2

/-- **Every packet on an open connection is answered once**, at the right place. -/
theorem deliver_replied (hc : s.conns[conn]? = some c) (hopen : c.phase ≠ .closed) :
    Replied packet (s.deliver conn packet cap).1 := by
  obtain ⟨r, ha, hr⟩ := deliver_eq hc hopen packet cap
  rw [hr]
  have hrequest : ∀ {header}, decode packet = .ok header →
      requestOf packet = header.serial := fun h => by rw [requestOf, h]
  have hdecode : ∀ {header req}, readRequest packet = some (header, req) →
      decode packet = .ok header := fun {header req} h => by
    rw [readRequest] at h
    rcases hd : decode packet with e | header'
    · rw [hd] at h
      cases h
    · rw [hd] at h
      dsimp only at h
      split at h
      · split at h
        · cases h
          rfl
        · cases h
      · cases h
  cases ha with
  | undecodable _ hd => exact replied_singleton (by rw [requestOf, hd]; rfl)
  | rejected header e last hd | refused header e hd =>
    exact replied_singleton (by rw [hrequest hd]; rfl)
  | disconnected _ hread =>
    exact replied_singleton (by rw [hrequest (hdecode hread)]; rfl)
  | accepted header req batch y hread hne hser hnew hactive he =>
    have hser := hrequest (hdecode hread)
    obtain ⟨e, hrep, hlast, hfirst⟩ := he.reply
    by_cases hreq : req = .destroySurface
    · obtain ⟨h1, h2⟩ := (hlast hreq).numbered hrep conn y.conn.nextServerSerial
      exact ⟨by rw [hser]; exact h1, fun _ => h2, fun h => absurd ⟨header, hreq ▸ hread⟩ h⟩
    · obtain ⟨h1, h2⟩ := (hfirst hreq).numbered hrep conn y.conn.nextServerSerial
      refine ⟨by rw [hser]; exact h1, ?_, fun _ => h2⟩
      rintro ⟨header', h'⟩
      rw [hread] at h'
      cases h'
      exact absurd rfl hreq

/-- **A recoverable error is all that happens**: an ERROR that is not fatal leaves the
whole server as it was, but for the two serials of the connection. -/
theorem deliver_recoverable (s : Server) (conn : ConnId) (packet : List UInt8)
    (cap : Option UInt64) (p : Packet) (request : UInt64) (code : UInt32)
    (hp : p ∈ (s.deliver conn packet cap).1) (hev : p.event = .error request code 0) :
    ∃ c header, s.conns[conn]? = some c ∧ Header.decode packet = .ok header ∧
      (s.deliver conn packet cap).2 =
        { s with
          conns := s.conns.insert conn { c with
              lastClientSerial := header.serial
              nextServerSerial := c.nextServerSerial + 1 } } := by
  rcases deliver_cases s conn packet cap with hr | ⟨c, hc, hopen⟩
  · rw [hr] at hp
    cases hp
  · obtain ⟨r, ha, hr⟩ := deliver_eq hc hopen packet cap
    rw [hr] at hp ⊢
    have he := (of_mem_numbered hp).2
    rw [hev] at he
    cases ha with
    | refused header _ hd => exact ⟨c, header, hc, hd, rfl⟩
    | accepted _ _ _ _ _ _ _ _ _ h =>
      exact absurd rfl (h.not_error he request code 0)
    | _ => cases (Prod.mk.inj (mem_singleton.mp he)).2

end

/-- A title for a surface that is not there. -/
theorem deliver_recoverable_missing :
    (⟨1, 9, 2, .error 2 ErrorCode.staleObject.code 0⟩ : Packet) ∈
        ((run (firstFrame.take 2)).2.deliver 1 (Request.encode (.setTitle []) 9 2) none).1 ∧
      ∃ c header, (run (firstFrame.take 2)).2.conns[(1 : ConnId)]? = some c ∧
        Header.decode (Request.encode (.setTitle []) 9 2) = .ok header ∧
        ((run (firstFrame.take 2)).2.deliver 1 (Request.encode (.setTitle []) 9 2) none).2 =
          { (run (firstFrame.take 2)).2 with
            conns := (run (firstFrame.take 2)).2.conns.insert 1 { c with
                lastClientSerial := header.serial
                nextServerSerial := c.nextServerSerial + 1 } } := by
  have h : (⟨1, 9, 2, .error 2 ErrorCode.staleObject.code 0⟩ : Packet) ∈
      ((run (firstFrame.take 2)).2.deliver 1 (encode (.setTitle []) 9 2) none).1 := by
    decide +kernel
  exact ⟨h, deliver_recoverable _ 1 _ none _ 2 _ h rfl⟩

/-! ### Numbers -/

/-- The header serials of the packets that were sent. -/
def sentSerials (l : List Item) : List UInt64 :=
  l.filterMap fun
    | .sent p => some p.serial
    | _ => none

/-- Serials that follow one another, from one on. -/
def serialsFrom (n : UInt64) (len : ℕ) : List UInt64 :=
  (List.range len).map fun j => n + UInt64.ofNat j

theorem serialsFrom_succ (n : UInt64) (len : ℕ) :
    serialsFrom n (len + 1) = n :: serialsFrom (n + 1) len := by
  rw [serialsFrom, range_succ_eq_map, map_cons, map_map, serialsFrom]
  refine congrArg₂ _ (by simp) (map_congr_left fun j _ => ?_)
  have hj : ofNat (j + 1) = 1 + ofNat j := by rw [Nat.add_comm, ofNat_add]; rfl
  rw [Function.comp_apply, hj, UInt64.add_assoc]

theorem serialsFrom_add (n : UInt64) (a b : ℕ) :
    serialsFrom n (a + b) = serialsFrom n a ++ serialsFrom (n + ofNat a) b := by
  rw [serialsFrom, range_add, map_append, map_map, serialsFrom, serialsFrom]
  refine congrArg₂ _ rfl (map_congr_left fun j _ => ?_)
  rw [Function.comp_apply, UInt64.ofNat_add, UInt64.add_assoc]

theorem sentSerials_append (l m : List Item) :
    sentSerials (l ++ m) = sentSerials l ++ sentSerials m := filterMap_append

theorem sentSerials_sends (k : ConnId) (c : Connection) (batch : Batch) :
    sentSerials (c.sends k batch) = serialsFrom c.nextServerSerial batch.length := by
  rw [sends]
  generalize c.nextServerSerial = n
  induction batch generalizing n with
  | nil => rfl
  | cons _ _ ih =>
    rw [length_cons, serialsFrom_succ, ← ih (n + 1)]
    rfl

variable {c c' : Connection} {items : List Item} {now : UInt64}

/-- **Each step numbers on.** -/
theorem Step.sentSerials_eq (h : Step k now c items c') :
    ∃ n : ℕ, sentSerials items = serialsFrom c.nextServerSerial n ∧
      c'.nextServerSerial = c.nextServerSerial + ofNat n := by
  have hsends := fun batch => sentSerials_sends k c batch
  have hzero : c.nextServerSerial = c.nextServerSerial + ofNat 0 := by simp
  cases h with
  | idle | pass => exact ⟨0, rfl, hzero⟩
  | accept _ _ _ _ _ hx he =>
    refine ⟨_, hsends _, ?_⟩
    rw [bump, he.kept.nextServerSerial, hx]
  | composite | input => exact ⟨_, hsends _, rfl⟩
  | _ => exact ⟨_, hsends _, rfl⟩

/-- The packets of a connection are numbered from one on. -/
theorem run_sentSerials {calls : List Call} :
    ∃ n, sentSerials (life k (run calls).1) = serialsFrom 1 n ∧
      ∀ c, (run calls).2.conns[k]? = some c → c.nextServerSerial = 1 + ofNat n := by
  have key := life_induct
    (R := fun _ l c => ∃ n, sentSerials l = serialsFrom 1 n ∧ c.nextServerSerial = 1 + ofNat n)
    (G := fun _ l => ∃ n, sentSerials l = serialsFrom 1 n)
    (fun _ _ => ⟨0, rfl, rfl⟩)
    (fun k now l c items c' ⟨n, hl, hc⟩ h => by
      obtain ⟨m, hm, hc'⟩ := h.sentSerials_eq
      refine ⟨n + m, ?_, by rw [hc', hc, UInt64.ofNat_add, UInt64.add_assoc]⟩
      rw [sentSerials_append, hl, hm, hc, serialsFrom_add])
    (fun _ => ⟨0, rfl⟩)
    (fun k l c ⟨n, hl, _⟩ => ⟨n, by rw [sentSerials_append, hl]; exact append_nil _⟩)
    (fun k l a ha ⟨n, hl⟩ => by
      refine ⟨n, ?_⟩
      rw [sentSerials_append, hl]
      rcases ha with rfl | rfl <;> exact append_nil _)
    calls k
  rcases key with ⟨c, hc, n, hl, hn⟩ | ⟨hnone, n, hl⟩
  · exact ⟨n, hl, fun c' hc' => Option.some.inj (hc.symm.trans hc') ▸ hn⟩
  · exact ⟨n, hl, fun c hc => by rw [hnone] at hc; cases hc⟩

/-! ### The order of the requests -/

/-- **The protocol of a client**: HELLO comes first and is not repeated, and nothing follows
DISCONNECT. -/
def Phase.step (p : Phase) : Item → Option Phase
  | .accepted _ req => match p, req.opcode with
    | .new, .hello => some .active
    | .new, _ | .active, .hello | .closed, _ => none
    | .active, .disconnect => some .closed
    | .active, _ => some .active
  | _ => some p

/-- As long as a connection is open, its phase is the state of the protocol. -/
theorem Step.ordered {p : Phase} (h : Step k now c items c')
    (hp : c.phase = p ∨ c.phase = .closed) :
    ∃ q, Leads Phase.step p items q ∧ (c'.phase = q ∨ c'.phase = .closed) := by
  have hsends : ∀ q (batch : Batch), Leads Phase.step q (c.sends k batch) q := fun q batch =>
    leads_of_silent fun a ha => by
      obtain ⟨_, -, rfl⟩ := mem_map.mp ha
      rfl
  cases h with
  | idle => exact ⟨p, leads_nil, hp⟩
  | pass => exact ⟨p, leads_singleton rfl, hp⟩
  | refuse | composite => exact ⟨p, leads_cons rfl (hsends _ _), hp⟩
  | reject => exact ⟨p, leads_cons rfl (hsends _ _), .inr rfl⟩
  | disconnect hopen _ _ hold =>
    obtain rfl := hp.resolve_right hopen
    refine ⟨.closed, leads_cons ?_ (hsends _ _), .inl rfl⟩
    rcases hp : c.phase
    · exact absurd hp hold
    · rfl
    · exact absurd hp hopen
  | @accept header _ req _ y _ hopen _ _ hnew hactive hx he =>
    obtain rfl := hp.resolve_right hopen
    refine ⟨y.conn.phase, leads_cons ?_ (hsends _ _), .inl rfl⟩
    rw [he.kept.phase, hx]
    rcases hp : c.phase
    · simp [Phase.step, hnew hp]
    · have hne := hactive hp
      cases he <;> first | rfl | exact absurd rfl hne
    · exact absurd hp hopen
  | overflow => exact ⟨p, hsends _ _, .inr rfl⟩
  | _ => exact ⟨p, hsends _ _, hp⟩

/-- **In every run the requests that are accepted on a connection follow the protocol.** -/
theorem run_ordered (calls : List Call) (k : ConnId) :
    ∃ p, Leads Phase.step .new (life k (run calls).1) p := by
  refine history_induct
    (R := fun _ l c => ∃ p, Leads Phase.step .new l p ∧ (c.phase = p ∨ c.phase = .closed))
    (G := fun _ l => ∃ p, Leads Phase.step .new l p) (fun _ _ => ⟨_, leads_nil, .inl rfl⟩) ?_
    (fun _ => ⟨_, leads_nil⟩) (fun _ _ _ h => h.imp fun _ h => h.1) ?_
  · rintro k now l c items c' ⟨p, hl, hp⟩ h
    obtain ⟨q, hq, hc⟩ := h.ordered hp
    exact ⟨q, hl.append hq, hc⟩
  · rintro k l a ha ⟨p, hl⟩
    refine ⟨p, hl.append (leads_singleton ?_)⟩
    rcases ha with rfl | rfl <;> rfl

/-! ### The end -/

/-- A connection that is closed, or gone. -/
def Server.Ended (s : Server) (k : ConnId) : Prop :=
  ∀ c, s.conns[k]? = some c → c.phase = .closed

/-- **A closed connection stays closed** and sends nothing. -/
theorem Step.of_closed (h : Step k now c items c') (hc : c.phase = .closed) :
    c'.phase = .closed ∧ ∀ p, Item.sent p ∉ items := by
  cases h with
  | idle => exact ⟨hc, fun p hp => by cases hp⟩
  | pass => exact ⟨hc, fun p hp => by simp at hp⟩
  | composite hactive => exact absurd (hc.symm.trans hactive) (by simp)
  | reconfigure _ _ _ _ hactive =>
    exact absurd (hc.symm.trans hactive) (by simp)
  | input _ hopen =>
    rcases hopen with rfl | hopen
    · exact ⟨hc, fun p hp => by cases hp⟩
    · exact absurd hc hopen
  | refuse e hopen | reject e last hopen | disconnect hopen | accept hopen | overflow hopen =>
    exact absurd hc hopen

variable {s : Server}

/-- One call on a server where a connection has ended. -/
theorem exec_of_ended {call : Call} (h : s.Ended k) (hopened : (s.exec call).1.opened ≠ some k) :
    (s.exec call).2.Ended k ∧ ∀ p ∈ (s.exec call).1.sent, p.conn ≠ k := by
  have hitems : ∀ p ∈ (s.exec call).1.sent, p.conn = k → Item.sent p ∈ (s.exec call).1.items k := by
    intro p hp hk
    refine mem_append_right _ (mem_map.mpr ⟨p, mem_filter.mpr ⟨hp, ?_⟩, rfl⟩)
    simpa using hk
  rcases exec_step with ⟨ho, -⟩ | ⟨-, hp⟩
  · exact absurd ho hopened
  · rw [Server.Ended] at h ⊢
    generalize s.conns[k]? = old at hp h
    generalize (s.exec call).1.items k = items at hp hitems
    generalize (s.exec call).2.conns[k]? = next at hp ⊢
    cases hp with
    | absent => exact ⟨fun c hc => (by cases hc), fun p hp hk => by cases hitems p hp hk⟩
    | absentMark ha =>
      refine ⟨fun c hc => (by cases hc), fun p hp hk => ?_⟩
      have := mem_singleton.mp (hitems p hp hk)
      rcases ha with rfl | rfl <;> cases this
    | removed c =>
      refine ⟨fun c hc => (by cases hc), fun p hp hk => ?_⟩
      cases mem_singleton.mp (hitems p hp hk)
    | step hs =>
      obtain ⟨hc', hsent⟩ := hs.of_closed (h _ rfl)
      exact ⟨fun c hc => Option.some.inj hc ▸ hc', fun p hp hk => hsent p (hitems p hp hk)⟩

/-- Nothing is sent on a connection that has ended, however long the run, unless its id
is given to a new one. -/
theorem runFrom_of_ended {calls : List Call} (h : s.Ended k)
    (hopened : ∀ o ∈ (runFrom ([], s) calls).1, o.opened ≠ some k) :
    ∀ o ∈ (runFrom ([], s) calls).1, ∀ p ∈ o.sent, p.conn ≠ k := by
  induction calls generalizing s with
  | nil => exact fun o ho => (by cases ho)
  | cons _ _ ih =>
    rw [runFrom_nil_cons] at hopened ⊢
    obtain ⟨hended, hsent⟩ := exec_of_ended h (hopened _ mem_cons_self)
    intro o ho
    rcases mem_cons.mp ho with rfl | ho
    · exact hsent
    · exact ih hended (fun o ho => hopened o (mem_cons_of_mem _ ho)) o ho

/-- **The replies of every run**: each packet on an open connection is answered once, at
the right place, with its serial, or with zero if its header cannot be read; the packets of
each connection are numbered from one on, as 64-bit numbers; and a connection that is
closed, or gone, is never heard of again. -/
theorem run_replies (calls : List Call) (k : ConnId) :
    (∀ (c : Connection) (packet : List UInt8) (cap : Option UInt64),
      (run calls).2.conns[k]? = some c → c.phase ≠ .closed →
        Replied packet ((run calls).2.deliver k packet cap).1) ∧
    (∃ n, sentSerials (life k (run calls).1) = (List.range n).map fun j => UInt64.ofNat (j + 1)) ∧
    ((run calls).2.Ended k → ∀ rest : List Call,
      (∀ o ∈ (runFrom ([], (run calls).2) rest).1, o.opened ≠ some k) →
        ∀ o ∈ (runFrom ([], (run calls).2) rest).1, ∀ p ∈ o.sent, p.conn ≠ k) := by
  refine ⟨fun c packet cap hc hopen => deliver_replied hc hopen, ?_,
    fun hended rest hopened => runFrom_of_ended hended hopened⟩
  obtain ⟨n, hn, -⟩ := run_sentSerials
  refine ⟨n, hn.trans (map_congr_left fun j _ => ?_)⟩
  rw [Nat.add_comm, ofNat_add]
  rfl

/-- A packet whose header can be read, with the serial zero, is answered as if it could
not. -/
theorem deliver_serial_zero :
    ∃ (c : Connection) (header : Header), (run [.connect]).2.conns[(1 : ConnId)]? = some c ∧
      c.phase ≠ .closed ∧ Header.decode (Request.encode .disconnect 0 0) = .ok header ∧
      ((run [.connect]).2.deliver 1 (Request.encode .disconnect 0 0) none).1.filterMap
        (fun p => p.event.request) = [0] := by
  refine ⟨new 0, ⟨1, 0, 2, 32, 0, 0⟩, ?_, ?_, ?_, ?_⟩
  · rfl
  · decide
  · decide +kernel
  · decide +kernel

end DunitOS.Gui
