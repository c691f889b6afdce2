import DunitOS.Gui.Codec
import DunitOS.Gui.Effects
import DunitOS.Gui.Runs
import DunitOS.SysLib.Monitor

/-!
# One call, seen from one connection

A call of the server can do only so much to a connection, and
`Step` lists it: a packet of the client is accepted, refused or
ends the connection; a composition tick completes its frame callbacks; a surface is
reconfigured; input events pass; or nothing happens. `exec_step` says that
every call of the server, seen from any connection, is one of these, or opens the
connection, or removes it. The induction rule `life_induct` and its two
special cases carry a property of one connection and its history along every run.
-/

namespace DunitOS.Gui

open Server List Option Connection Object Seen UInt64 Header

open SysLib Std

open ExtTreeMap (getElem?_insert_self getElem?_erase_self)

variable {k : ConnId} {batch : Batch} {c : Connection}

/-! ### Numbering a batch -/

/-- The packets of a batch that is numbered from a serial on. -/
def numbered (k : ConnId) : UInt64 → Batch → List Packet
  | _, [] => []
  | n, (object, ev) :: rest => ⟨k, object, n, ev⟩ :: numbered k (n + 1) rest

/-- The connection after some packets have been sent on it. -/
def Connection.bump (n : ℕ) (c : Connection) : Connection :=
  { c with nextServerSerial := c.nextServerSerial + UInt64.ofNat n }

@[simp] theorem Connection.bump_zero (c : Connection) : c.bump 0 = c := by
  simp [bump]

theorem Connection.bump_bump (m n : ℕ) (c : Connection) : (c.bump m).bump n = c.bump (m + n) := by
  simp only [bump, UInt64.ofNat_add, UInt64.add_assoc]

theorem Connection.send_eq (k : ConnId) (batch : Batch) (c : Connection) :
    c.send k batch = (numbered k c.nextServerSerial batch, c.bump batch.length) := by
  induction batch generalizing c with
  | nil => simp [send, numbered]
  | cons _ _ ih =>
    have hb : ({ c with nextServerSerial := c.nextServerSerial + 1 } : Connection) = c.bump 1 := rfl
    rw [send, ih, hb, bump_bump, length_cons, Nat.add_comm]
    rfl

theorem of_mem_numbered {n : UInt64} {p : Packet} (h : p ∈ numbered k n batch) :
    p.conn = k ∧ (p.object, p.event) ∈ batch := by
  induction batch generalizing n with
  | nil => cases h
  | cons _ _ ih =>
    rcases mem_cons.mp h with rfl | h
    · exact ⟨rfl, mem_cons_self⟩
    · exact (ih h).imp_right (mem_cons_of_mem _)

theorem filter_numbered_self (k : ConnId) (n : UInt64) (batch : Batch) :
    (numbered k n batch).filter (fun p => p.conn = k) = numbered k n batch :=
  filter_eq_self.mpr fun _ hp => by simpa using (of_mem_numbered hp).1

theorem filter_numbered_of_ne {k' : ConnId} (hne : k ≠ k') {n : UInt64} :
    (numbered k n batch).filter (fun p => p.conn = k') = [] := by
  refine filter_eq_nil_iff.mpr fun p hp => ?_
  rw [(of_mem_numbered hp).1]
  simpa using hne

theorem numbered_append (k : ConnId) (n : UInt64) (b b' : Batch) :
    numbered k n (b ++ b') = numbered k n b ++ numbered k (n + ofNat b.length) b' := by
  induction b generalizing n with
  | nil => simp [numbered]
  | cons _ b ih =>
    have hn : n + 1 + ofNat b.length = n + ofNat (b.length + 1) := by
      rw [Nat.add_comm, UInt64.ofNat_add, UInt64.add_assoc]
      rfl
    rw [cons_append, numbered, ih, length_cons, hn]
    rfl

/-! ### Answering a packet -/

/-- The context of a packet whose header serial has been accepted. -/
def Ctx.noted (x : Ctx) (ser : UInt64) : Ctx :=
  { x with conn := { x.conn with lastClientSerial := ser } }

/-- **What becomes of a packet**: it is answered by one error, which tears the connection
down or not, or it is DISCONNECT, or it is a request that has its effect. -/
inductive Answered (k : ConnId) (now : UInt64) (packet : List UInt8) (cap : Option UInt64)
    (x : Ctx) : Emit × Ctx → Prop
  | undecodable (e : WireError) (hd : Header.decode packet = .error e) :
    Answered k now packet cap x (error 0 0 e.code true, x)
  | rejected (header : Header) (e : ErrorCode) (last : UInt64)
      (hd : Header.decode packet = .ok header) (hlast : x.conn.lastClientSerial ≤ last) :
    Answered k now packet cap x (error header.object header.serial e true, x.noted last)
  | refused (header : Header) (e : ErrorCode) (hd : Header.decode packet = .ok header)
      (hne : header.serial ≠ 0) (hser : x.conn.lastClientSerial < header.serial) :
    Answered k now packet cap x
      (error header.object header.serial e false, x.noted header.serial)
  | disconnected (header : Header) (hread : readRequest packet = some (header, .disconnect))
      (hne : header.serial ≠ 0) (hser : x.conn.lastClientSerial < header.serial)
      (hold : x.conn.phase ≠ .new) :
    Answered k now packet cap x
      (([(0, .result header.serial)], true), x.noted header.serial)
  | accepted (header : Header) (req : Request) (batch : Batch) (y : Ctx)
      (hread : readRequest packet = some (header, req)) (hne : header.serial ≠ 0)
      (hser : x.conn.lastClientSerial < header.serial)
      (hnew : x.conn.phase = .new → req.opcode = .hello)
      (hactive : x.conn.phase = .active → req.opcode ≠ .hello)
      (he : Effect k now header cap req (x.noted header.serial) batch y) :
    Answered k now packet cap x ((batch, false), y)

variable {req : Request}

section

variable {k : ConnId} {now : UInt64} {packet : List UInt8} {cap : Option UInt64} {x : Ctx}
  {header : Header}

/-- A successful decode carries the opcode it was asked for. -/
theorem opcode_of_decode {op : Opcode} {payload : List UInt8}
    (h : Request.decode op payload = .ok req) : req.opcode = op := (decode_eq_ok_iff.mp h).1

theorem interpret_answered (hd : decode packet = .ok header) (hne : header.serial ≠ 0)
    (hser : x.conn.lastClientSerial < header.serial) :
    Answered k now packet cap x (interpret k now header packet cap (x.noted header.serial)) := by
  have hle : x.conn.lastClientSerial ≤ header.serial := le_of_lt hser
  rw [interpret]
  rcases hop : Opcode.fromU16 header.opcodeRaw with _ | op
  · dsimp only
    split_ifs
    · exact .refused header _ hd hne hser
    · exact .rejected header _ _ hd hle
  · dsimp only
    split_ifs with h1 h2 h3
    · exact .rejected header _ _ hd hle
    · exact .rejected header _ _ hd hle
    · exact .refused header _ hd hne hser
    · rcases hdec : Request.decode op (packet.drop headerLen) with e | req
      · dsimp only
        rcases he : (e.code == ErrorCode.malformed) with _ | _
        · exact .refused header _ hd hne hser
        · exact .rejected header _ _ hd hle
      · have hread : readRequest packet = some (header, req) := by
          simp only [readRequest, hd, hop, hdec]
        have hreq := opcode_of_decode hdec
        dsimp only
        rcases dispatch_cases k now header cap (x.noted header.serial) req with
          ⟨e, fatal, -, hr⟩ | ⟨rfl, hr⟩ | ⟨batch, y, he, hr⟩
        · rw [hr]
          cases fatal with
          | false => exact .refused header _ hd hne hser
          | true => exact .rejected header _ _ hd hle
        · rw [hr]
          exact .disconnected header hread hne hser fun hn => h2 ⟨hn, hreq ▸ nofun⟩
        · rw [hr]
          refine .accepted header req batch y hread hne hser (fun hn => ?_) (fun ha => ?_) he
          · rw [hreq]
            exact not_not.mp fun h => h2 ⟨hn, h⟩
          · rw [hreq]
            exact fun h => h3 ⟨ha, h⟩

/-- **Every packet is answered** in one of these ways. -/
theorem pipeline_answered (k : ConnId) (now : UInt64) (packet : List UInt8) (cap : Option UInt64)
    (x : Ctx) : Answered k now packet cap x (pipeline k now packet cap x) := by
  rw [pipeline]
  rcases hd : decode packet with e | header
  · exact .undecodable e hd
  · have hrej : ∀ e, Answered k now packet cap x (error header.object header.serial e true, x) :=
      fun e => Answered.rejected header e x.conn.lastClientSerial hd UInt64.le_rfl
    dsimp only
    split_ifs with h1 h2 h3
    · exact hrej _
    · exact hrej _
    · exact hrej _
    · obtain ⟨hne, hle⟩ := not_or.mp h3
      exact interpret_answered hd hne (not_le.mp hle)

end

/-! ### What can happen to a connection -/

/-- Input events, the only ones that other connections' doings can cause. -/
def Event.isInput : Event → Bool
  | .pointerEnter .. | .pointerLeave | .pointerMotion .. | .pointerButton .. => true
  | .pointerAxis .. => true
  | .keyEnter _ | .keyLeave | .key .. | .textInput .. => true
  | _ => false

/-- An object after a composition tick. -/
def Object.unframed : Object → Object
  | surface s => surface { s with framePending := false }
  | buffer b => buffer b

/-- The events of the frame callbacks that wait on a connection. -/
def Connection.frames (now : UInt64) (c : Connection) : Batch :=
  c.objects.toList.filterMap fun e =>
    match e.2 with
    | .surface s =>
      if s.framePending then some (e.1, .frameDone s.frameToken now s.frameStatus) else none
    | .buffer _ => none

/-- The connection after a composition tick, before its packets are counted. -/
def Connection.composed (c : Connection) : Connection :=
  { c with objects := c.objects.map fun _ o => o.unframed }

/-- The items of a batch that is sent on a connection. -/
def Connection.sends (k : ConnId) (c : Connection) (batch : Batch) : List Item :=
  (numbered k c.nextServerSerial batch).map Item.sent

theorem Connection.of_mem_sends {a : Item}
    (h : a ∈ c.sends k batch) : ∃ e ∈ batch, ∃ n, a = .sent ⟨k, e.1, n, e.2⟩ := by
  obtain ⟨p, hp, rfl⟩ := mem_map.mp h
  obtain ⟨rfl, he⟩ := of_mem_numbered hp
  exact ⟨_, he, p.serial, rfl⟩

theorem Connection.mem_sends {e : ObjectId × Event}
    (h : e ∈ batch) : ∃ n, Item.sent ⟨k, e.1, n, e.2⟩ ∈ c.sends k batch := by
  rw [sends]
  generalize c.nextServerSerial = n
  induction batch generalizing n with
  | nil => cases h
  | cons _ _ ih =>
    rcases mem_cons.mp h with rfl | h
    · exact ⟨n, mem_cons_self⟩
    · obtain ⟨n', hn⟩ := ih h (n + 1)
      exact ⟨n', mem_cons_of_mem _ hn⟩

/-- A frame callback that is completed is one that waits. -/
theorem Connection.of_mem_frames {now : UInt64} {e : ObjectId × Event} (h : e ∈ c.frames now) :
    ∃ s, c.objects[e.1]? = some (.surface s) ∧ e.2 = .frameDone s.frameToken now s.frameStatus := by
  obtain ⟨⟨id, s | b⟩, hmem, ho⟩ := mem_filterMap.mp h
  · dsimp only at ho
    split_ifs at ho
    cases ho
    exact ⟨s, ExtTreeMap.mem_toList_iff_getElem?_eq_some.mp hmem, rfl⟩
  · cases ho

variable {batch : Batch}

/-- **A monitor that looks only at objects and events** reads a batch as it is. -/
theorem leads_sends {σ : Type} {step : σ → Item → Option σ} {read : σ → ObjectId × Event → Option σ}
    (h : ∀ q p, step q (.sent p) = read q (p.object, p.event)) {q q' : σ}
    (hb : Leads read q batch q') :
    Leads step q (c.sends k batch) q' := by
  rw [sends]
  generalize c.nextServerSerial = n
  induction batch generalizing q n with
  | nil => exact hb
  | cons _ _ ih =>
    rw [Leads, foldlM_cons] at hb
    obtain ⟨q1, h1, h2⟩ := bind_eq_some_iff.mp hb
    exact leads_cons ((h q _).trans h1) (ih h2 (n + 1))

/-- The header object and request field of the error a packet is rejected with. -/
def Faults (packet : List UInt8) (object request : UInt64) : Prop :=
  (∃ e, Header.decode packet = .error e ∧ object = 0 ∧ request = 0) ∨
  ∃ header, Header.decode packet = .ok header ∧ object = header.object ∧ request = header.serial

/-- **What one call can do to a connection** that stays. -/
inductive Step (k : ConnId) (now : UInt64) : Connection → List Item → Connection → Prop
  | idle (c : Connection) : Step k now c [] c
  /-- A recoverable error. -/
  | refuse {c : Connection} {packet : List UInt8} {header : Header} (e : ErrorCode)
      (hopen : c.phase ≠ .closed) (hd : Header.decode packet = .ok header)
      (hne : header.serial ≠ 0) (hser : c.lastClientSerial < header.serial) :
    Step k now c
      (.refused packet :: c.sends k [(header.object, .error header.serial e.code 0)])
      (({ c with lastClientSerial := header.serial } : Connection).bump 1)
  /-- A fatal error. -/
  | reject {c : Connection} {packet : List UInt8} {object request : UInt64} (e : ErrorCode)
      (last : UInt64) (hopen : c.phase ≠ .closed) (hle : c.lastClientSerial ≤ last)
      (hfault : Faults packet object request) :
    Step k now c (.refused packet :: c.sends k [(object, .error request e.code 1)])
      ({ c.bump 1 with lastClientSerial := last, phase := .closed })
  | disconnect {c : Connection} {header : Header} (hopen : c.phase ≠ .closed)
      (hne : header.serial ≠ 0) (hser : c.lastClientSerial < header.serial)
      (hold : c.phase ≠ .new) :
    Step k now c (.accepted header .disconnect :: c.sends k [(0, .result header.serial)])
      ({ c.bump 1 with lastClientSerial := header.serial, phase := .closed })
  | accept {c : Connection} {header : Header} {cap : Option UInt64} {req : Request} {x y : Ctx}
      {batch : Batch} (hopen : c.phase ≠ .closed) (hne : header.serial ≠ 0)
      (hser : c.lastClientSerial < header.serial)
      (hnew : c.phase = .new → req.opcode = .hello)
      (hactive : c.phase = .active → req.opcode ≠ .hello)
      (hx : x.conn = { c with lastClientSerial := header.serial })
      (he : Effect k now header cap req x batch y) :
    Step k now c (.accepted header req :: c.sends k batch) (y.conn.bump batch.length)
  | composite {c : Connection} (hactive : c.phase = .active) :
    Step k now c (.composite :: c.sends k (c.frames now)) (c.composed.bump (c.frames now).length)
  | pass {c : Connection} (hpassive : c.phase ≠ .active) : Step k now c [.composite] c
  | reconfigure {c : Connection} {id : ObjectId} {s : Surface} (width height scale state : UInt32)
      (hactive : c.phase = .active) (hs : c.objects[id]? = some (.surface s)) :
    Step k now c (c.sends k [(id, .configure width height scale state)])
      ((c.putSurface id
        { s with width, height, scale, state, latestToken := c.nextServerSerial }).bump 1)
  | input {c : Connection} (batch : Batch) (hopen : batch = [] ∨ c.phase ≠ .closed)
      (hinput : ∀ e ∈ batch, e.2.isInput = true) :
    Step k now c (c.sends k batch) (c.bump batch.length)
  | overflow {c : Connection} (hopen : c.phase ≠ .closed) :
    Step k now c (c.sends k [(0, .error 0 ErrorCode.limitExceeded.code 1)])
      ({ c.bump 1 with phase := .closed })

/-- What one call can do to a connection, or to its absence. -/
inductive Passage (k : ConnId) (now : UInt64) :
    Option Connection → List Item → Option Connection → Prop
  | absent : Passage k now none [] none
  | absentMark {a : Item} (h : a = .composite ∨ a = .removed) : Passage k now none [a] none
  | removed (c : Connection) : Passage k now (some c) [.removed] none
  | step {c c' : Connection} {l : List Item} (h : Step k now c l c') :
    Passage k now (some c) l (some c')

/-! ### Input events -/

/-- **Only input events pass**: each connection gets a batch of them, in its own
numbering, and is not changed otherwise. -/
structure Relays (t : ExtTreeMap ConnId Connection) (out : List Packet)
    (t' : ExtTreeMap ConnId Connection) : Prop where
  absent : ∀ k, t[k]? = none → t'[k]? = none ∧ out.filter (fun p => p.conn = k) = []
  present : ∀ k c, t[k]? = some c → ∃ batch : Batch, (batch = [] ∨ c.phase ≠ .closed) ∧
    (∀ e ∈ batch, e.2.isInput = true) ∧
    out.filter (fun p => p.conn = k) = numbered k c.nextServerSerial batch ∧
    t'[k]? = some (c.bump batch.length)

namespace Relays

variable {t t' t'' : ExtTreeMap ConnId Connection} {out out' : List Packet}

theorem refl (t : ExtTreeMap ConnId Connection) : Relays t [] t where
  absent _ h := ⟨h, rfl⟩
  present k c h := ⟨[], .inl rfl, by simp, rfl, by simpa using h⟩

theorem trans (h : Relays t out t') (h' : Relays t' out' t'') : Relays t (out ++ out') t'' where
  absent k hk := by
    obtain ⟨hk', hout⟩ := h.absent k hk
    obtain ⟨hk'', hout'⟩ := h'.absent k hk'
    exact ⟨hk'', by rw [filter_append, hout, hout', append_nil]⟩
  present k c hk := by
    obtain ⟨b, hb, hin, hout, hk'⟩ := h.present k c hk
    obtain ⟨b', hb', hin', hout', hk''⟩ := h'.present k _ hk'
    refine ⟨b ++ b', ?_, fun e he => ?_, ?_, ?_⟩
    · rcases hb with rfl | hb
      · simpa [bump] using hb'
      · exact .inr hb
    · exact (mem_append.mp he).elim (hin e) (hin' e)
    · rw [filter_append, hout, hout', numbered_append]
      rfl
    · rw [hk'', bump_bump, length_append]

/-- A connection that only relays makes a step. -/
theorem passage {now : UInt64} (h : Relays t out t') :
    Passage k now t[k]? ((out.filter fun p => p.conn = k).map Item.sent) t'[k]? := by
  rcases hk : t[k]? with _ | c
  · obtain ⟨hk', hout⟩ := h.absent k hk
    rw [hk', hout]
    exact .absent
  · obtain ⟨batch, hopen, hin, hout, hk'⟩ := h.present k c hk
    rw [hk', hout]
    exact .step (.input batch hopen hin)

end Relays

variable {ev : Event}

open Relays

section

variable {s : Server} {conn : ConnId} {t target : Option Target} {modifiers : UInt32}
  {pressed : Bool} {now : UInt64}

/-- The packets of a call and the server after it: nothing but input events. -/
abbrev Server.Relayed (s : Server) (r : List Packet × Server) : Prop :=
  Relays s.conns r.1 r.2.conns

/-- The packets of a call and the server after it, seen from one connection. -/
abbrev Server.Passes (s : Server) (k : ConnId) (now : UInt64) (r : List Packet × Server) : Prop :=
  Passage k now s.conns[k]? ((r.1.filter fun p => p.conn = k).map Item.sent) r.2.conns[k]?

/-- One event to one connection. -/
theorem emitTo_relays {obj : ObjectId} (hev : ev.isInput = true) :
    s.Relayed (s.emitTo conn obj ev) := by
  rw [emitTo]
  rcases hc : s.conns[conn]? with _ | c
  · exact refl _
  · dsimp only
    split_ifs with hp
    · exact refl _
    · rw [send_eq]
      refine ⟨fun k hk => ?_, fun k c' hk => ?_⟩
      · have hne : conn ≠ k := by
          rintro rfl
          rw [hc] at hk
          cases hk
        exact ⟨by rw [getElem?_insert_of_ne hne, hk], filter_numbered_of_ne hne⟩
      · by_cases hne : conn = k
        · subst hne
          obtain rfl : c = c' := some.inj (hc.symm.trans hk)
          exact ⟨[(obj, ev)], .inr hp, by simpa using hev, filter_numbered_self _ _ _,
            getElem?_insert_self⟩
        · exact ⟨[], .inl rfl, by simp, filter_numbered_of_ne hne,
            by rw [getElem?_insert_of_ne hne, hk]; simp⟩

theorem emitToTarget_relays (hev : ev.isInput = true) : s.Relayed (s.emitToTarget t ev) := by
  cases t with
  | none => exact refl _
  | some t => exact emitTo_relays hev

/-- The seat has no say in it. -/
theorem emitToTarget_relays_seat {seat : Seat} (hev : ev.isInput = true) :
    s.Relayed (emitToTarget { s with seat } t ev) :=
  emitToTarget_relays (s := { s with seat }) hev

theorem setPointerFocus_relays {x y : Int32} : s.Relayed (s.setPointerFocus target x y) := by
  rw [setPointerFocus]
  split_ifs with h1
  · exact refl _
  · dsimp only
    split_ifs with h2
    · exact refl _
    · exact (emitToTarget_relays rfl).trans (emitToTarget_relays_seat rfl)

theorem setKeyboardFocus_relays : s.Relayed (s.setKeyboardFocus target modifiers) := by
  rw [setKeyboardFocus]
  split_ifs with h2
  · exact refl _
  · exact (emitToTarget_relays rfl).trans (emitToTarget_relays_seat rfl)

theorem pointerButton_relays {button : UInt32} :
    s.Relayed (s.pointerButton button pressed) := by
  rw [pointerButton]
  rcases s.pointerTarget with _ | t
  · exact refl _
  · dsimp only
    have h := @emitTo_relays (.pointerButton s.nowNs button (asU32 pressed))
      { s with seat := pushButton s.seat t button pressed } t.1 t.2 rfl
    split_ifs with hempty
    · exact h
    · exact h

theorem textInput_relays {text : List Char} : s.Relayed (s.textInput text) := by
  rw [textInput]
  rcases s.seat.keyboardFocus with _ | t
  · exact refl _
  · dsimp only
    split_ifs
    · exact refl _
    · exact emitTo_relays rfl

/-! ### Keys -/

theorem inputOverflow_passage : s.Passes k now (s.inputOverflow conn) := by
  rw [Passes, inputOverflow, emitTo]
  rcases hc : s.conns[conn]? with _ | c
  · dsimp only
    rw [hc]
    exact (refl s.conns).passage
  · dsimp only
    by_cases hp : c.phase = .closed
    · rw [if_pos hp]
      rw [hc]
      -- Closing a closed connection changes nothing, so the two inserts cancel.
      have hsame : ({ c with phase := .closed } : Connection) = c := by rw [← hp]
      dsimp only
      rw [hsame, insert_of_getElem? hc]
      exact (refl s.conns).passage
    · rw [if_neg hp, send_eq]
      rw [getElem?_insert_self]
      dsimp only
      rw [insert_insert]
      by_cases hne : conn = k
      · subst hne
        rw [hc, filter_numbered_self, getElem?_insert_self]
        exact .step (.overflow hp)
      · rw [filter_numbered_of_ne hne, getElem?_insert_of_ne hne]
        exact (refl s.conns).passage

theorem key_passage {usage : UInt32} {repeat_ : Bool} :
    s.Passes k now (s.key usage pressed modifiers repeat_) := by
  have hidle : s.Passes k now ([], s) := (refl s.conns).passage
  have hsend : ∀ (seat : Seat) (t : Target) (ev : Event), ev.isInput = true →
      s.Passes k now (emitTo { s with seat } t.1 t.2 ev) :=
    fun seat t ev hev => (emitTo_relays (s := { s with seat }) hev).passage
  have hover : ∀ (seat : Seat) (t : Target), s.Passes k now (inputOverflow { s with seat } t.1) :=
    fun seat t => inputOverflow_passage (s := { s with seat })
  rw [key]
  rcases s.seat.keyboardFocus with _ | t
  · exact hidle
  · dsimp only
    split_ifs
    · exact hsend _ t _ rfl
    · exact hidle
    · exact hsend _ t _ rfl
    · exact hover _ t
    · exact hsend _ t _ rfl
    · exact hsend _ t _ rfl
    · exact hidle

end

/-! ### Packets of the client -/

variable {header : Header}

/-- Every accepted request is answered in the affirmative. -/
theorem Effect.exists_isSuccess {now : UInt64} {cap : Option UInt64} {x y : Ctx}
    (h : Effect k now header cap req x batch y) : ∃ e ∈ batch, e.2.isSuccess = true := by
  cases h with
  | hello => exact ⟨_, mem_singleton_self _, rfl⟩
  | _ => exact ⟨(header.object, .result header.serial), by simp, rfl⟩

theorem any_isSuccess_numbered (k : ConnId) (n : UInt64) (batch : Batch) :
    (numbered k n batch).any (fun p => p.event.isSuccess) = batch.any fun e => e.2.isSuccess := by
  induction batch generalizing n with
  | nil => rfl
  | cons _ _ ih => rw [numbered, any_cons, any_cons, ih]

theorem received_numbered_success {packet : List UInt8}
    (hread : readRequest packet = some (header, req)) (k : ConnId) (n : UInt64)
    (h : ∃ e ∈ batch, e.2.isSuccess = true) :
    received packet (numbered k n batch) = [.accepted header req] := by
  have hany : (numbered k n batch).any (fun p => p.event.isSuccess) = true := by
    rw [any_isSuccess_numbered]
    exact any_eq_true.mpr h
  have hne : (numbered k n batch).isEmpty = false := by
    rcases hn : numbered k n batch with _ | _
    · rw [hn] at hany
      cases hany
    · rfl
  rw [received, hne, hany, hread]
  rfl

/-- The items of a packet that a client sends. -/
def deliverItems (k conn : ConnId) (packet : List UInt8) (sent : List Packet) : List Item :=
  (if conn = k then received packet sent else []) ++ (sent.filter fun p => p.conn = k).map Item.sent

/-- What `deliver` returns, and what it leaves, for an open connection. -/
theorem deliver_run {s : Server} {conn : ConnId} (hc : s.conns[conn]? = some c)
    (hopen : c.phase ≠ .closed) (packet : List UInt8) (cap : Option UInt64) {r : Emit × Ctx}
    (hr : pipeline conn s.nowNs packet cap ⟨c, s.nextClientId, s.seat⟩ = r) :
    s.deliver conn packet cap = (numbered conn r.2.conn.nextServerSerial r.1.1, { s with
      nextClientId := r.2.nextClientId
      conns := s.conns.insert conn
        (if r.1.2 then { r.2.conn.bump r.1.1.length with phase := .closed }
          else r.2.conn.bump r.1.1.length)
      seat := if r.1.2 then r.2.seat.dropConn conn else r.2.seat }) := by
  rw [deliver, hc]
  dsimp only
  rw [if_neg hopen, send_eq, hr]

theorem deliver_eq {s : Server} {conn : ConnId} (hc : s.conns[conn]? = some c)
    (hopen : c.phase ≠ .closed) (packet : List UInt8) (cap : Option UInt64) :
    ∃ r : Emit × Ctx, Answered conn s.nowNs packet cap ⟨c, s.nextClientId, s.seat⟩ r ∧
      s.deliver conn packet cap = (numbered conn r.2.conn.nextServerSerial r.1.1, { s with
            nextClientId := r.2.nextClientId
            conns := s.conns.insert conn
              (if r.1.2 then { r.2.conn.bump r.1.1.length with phase := .closed }
                else r.2.conn.bump r.1.1.length)
            seat := if r.1.2 then r.2.seat.dropConn conn else r.2.seat }) :=
  ⟨_, pipeline_answered conn s.nowNs packet cap ⟨c, s.nextClientId, s.seat⟩,
    deliver_run hc hopen packet cap rfl⟩

/-- Nothing happens unless the connection is open. -/
theorem deliver_cases (s : Server) (conn : ConnId) (packet : List UInt8) (cap : Option UInt64) :
    s.deliver conn packet cap = ([], s) ∨ ∃ c, s.conns[conn]? = some c ∧ c.phase ≠ .closed := by
  rw [deliver]
  rcases s.conns[conn]? with _ | c
  · exact .inl rfl
  · by_cases hclosed : c.phase = .closed
    · exact .inl (if_pos hclosed)
    · exact .inr ⟨c, rfl, hclosed⟩

theorem deliver_passage {s : Server} {conn : ConnId} {packet : List UInt8} {cap : Option UInt64} :
    Passage k s.nowNs s.conns[k]? (deliverItems k conn packet (s.deliver conn packet cap).1)
      (s.deliver conn packet cap).2.conns[k]? := by
  -- A packet that is not looked at is no item of anyone.
  have hidle : Passage k s.nowNs s.conns[k]? (deliverItems k conn packet []) s.conns[k]? := by
    simpa [deliverItems, received] using (refl s.conns).passage
  rcases deliver_cases s conn packet cap with hr | ⟨c, hc, hp⟩
  · rw [hr]
    exact hidle
  · obtain ⟨r, ha, hr⟩ := deliver_eq hc hp packet cap
    rw [hr]
    by_cases hne : conn = k
    · subst hne
      rw [hc]
      dsimp only [deliverItems]
      rw [if_pos rfl, filter_numbered_self, getElem?_insert_self]
      cases ha with
      | undecodable e hd =>
        exact .step (.reject e.code c.lastClientSerial hp UInt64.le_rfl (.inl ⟨e, hd, rfl, rfl⟩))
      | rejected header e last hd hlast =>
        exact .step (.reject e last hp hlast (.inr ⟨header, hd, rfl, rfl⟩))
      | refused _ e hd hne hser => exact .step (.refuse e hp hd hne hser)
      | disconnected _ hread hne hser hold =>
        rw [received_numbered_success hread _ _ ⟨_, mem_singleton_self _, rfl⟩]
        exact .step (.disconnect hp hne hser hold)
      | accepted _ _ _ _ hread hne hser hnew hactive he =>
        rw [received_numbered_success hread _ _ he.exists_isSuccess, he.kept.nextServerSerial]
        exact .step (.accept hp hne hser hnew hactive rfl he)
    · dsimp only [deliverItems]
      rw [if_neg hne, filter_numbered_of_ne hne, getElem?_insert_of_ne hne]
      exact (refl s.conns).passage

/-! ### Composition -/

/-- One surface after a composition tick. -/
def Connection.clearFrame (c : Connection) (id : ObjectId) : Connection :=
  match c.surfaceOf id with
  | .ok s => c.putSurface id { s with framePending := false }
  | .error _ => c

theorem Connection.objects_clearFrame (c : Connection) (id a : ObjectId) :
    (c.clearFrame id).objects[a]? =
      if id = a then c.objects[a]?.map Object.unframed else c.objects[a]? := by
  rw [clearFrame]
  rcases hs : c.surfaceOf id with e | s
  · have hno : ∀ s, c.objects[id]? ≠ some (.surface s) := fun s h => by
      rw [surfaceOf_eq_ok.mpr h] at hs
      cases hs
    split_ifs with ha
    · subst ha
      rcases ho : c.objects[id]? with _ | ⟨s | b⟩
      · rfl
      · exact absurd ho (hno s)
      · rfl
    · rfl
  · have ho := surfaceOf_eq_ok.mp hs
    dsimp only [putSurface]
    split_ifs with ha
    · subst ha
      rw [getElem?_insert_self, ho]
      rfl
    · rw [getElem?_insert_of_ne ha]

theorem Connection.clearFrame_eq (c : Connection) {id : ObjectId} :
    c.clearFrame id = { c with objects := (c.clearFrame id).objects } := by
  rw [clearFrame]
  split <;> rfl

/-- **A composition tick clears the frame callbacks of the surfaces it names.** -/
theorem Connection.foldl_clearFrame {ids : List ObjectId} (c : Connection) :
    ∃ o : ExtTreeMap ObjectId Object, ids.foldl clearFrame c = { c with objects := o } ∧
      ∀ a, o[a]? = if a ∈ ids then c.objects[a]?.map Object.unframed else c.objects[a]? := by
  induction ids generalizing c with
  | nil => exact ⟨c.objects, rfl, fun a => by simp⟩
  | cons id ids ih =>
    obtain ⟨o, ho, hget⟩ := ih (c.clearFrame id)
    refine ⟨o, ?_, fun a => ?_⟩
    · rw [foldl_cons, ho, clearFrame_eq c]
    · have hidem : ∀ x : Option Object, (x.map unframed).map unframed = x.map unframed := by
        rintro (_ | ⟨s | b⟩) <;> rfl
      rw [hget, objects_clearFrame]
      by_cases h1 : id = a
      · subst h1
        by_cases h2 : id ∈ ids <;> simp [h2, hidem]
      · have h1' : ¬a = id := fun h => h1 h.symm
        simp [h1, h1']

/-- The packet of a frame callback. -/
def frameEvent (now : UInt64) (e : ConnId × ObjectId × UInt64 × UInt32) : ObjectId × Event :=
  (e.2.1, .frameDone e.2.2.1 now e.2.2.2)

section

variable {s : Server} {k : ConnId} {c : Connection}

theorem nowNs_emitTo {conn : ConnId} {obj : ObjectId} :
    (s.emitTo conn obj ev).2.nowNs = s.nowNs := by
  rw [emitTo]
  rcases s.conns[conn]? with _ | c
  · rfl
  · dsimp only
    split_ifs <;> rfl

theorem frameDone_of_ne {conn : ConnId} (hne : conn ≠ k) {id : ObjectId} {token : UInt64}
    {status : UInt32} :
    (s.frameDone conn id token status).1.filter (fun p => p.conn = k) = [] ∧
      (s.frameDone conn id token status).2.conns[k]? = s.conns[k]? := by
  have hemit : ∀ (s' : Server) (ev : Event), s'.conns[k]? = s.conns[k]? →
      (s'.emitTo conn id ev).1.filter (fun p => p.conn = k) = [] ∧
        (s'.emitTo conn id ev).2.conns[k]? = s.conns[k]? := by
    intro s' ev hs'
    rw [emitTo]
    rcases s'.conns[conn]? with _ | c
    · exact ⟨rfl, hs'⟩
    · dsimp only
      split_ifs
      · exact ⟨rfl, hs'⟩
      · rw [send_eq]
        exact ⟨filter_numbered_of_ne hne, by rw [getElem?_insert_of_ne hne, hs']⟩
  rw [frameDone]
  refine hemit _ _ ?_
  rcases s.conns[conn]? with _ | c
  · rfl
  · dsimp only
    rcases c.surfaceOf id with e | sf
    · rfl
    · exact getElem?_insert_of_ne hne

theorem frameDone_self (hc : s.conns[k]? = some c) (hp : c.phase ≠ .closed) {id : ObjectId}
    {token : UInt64} {status : UInt32} :
    (s.frameDone k id token status).1 =
        numbered k c.nextServerSerial [(id, .frameDone token s.nowNs status)] ∧
      (s.frameDone k id token status).2.conns[k]? = some ((c.clearFrame id).bump 1) := by
  have hemit : ∀ (s' : Server) (ev : Event), s'.conns[k]? = some (c.clearFrame id) →
      (s'.emitTo k id ev).1 = numbered k c.nextServerSerial [(id, ev)] ∧
        (s'.emitTo k id ev).2.conns[k]? = some ((c.clearFrame id).bump 1) := by
    intro s' ev hs'
    have hphase : (c.clearFrame id).phase ≠ .closed := by
      rwa [clearFrame_eq]
    have hserial : (c.clearFrame id).nextServerSerial = c.nextServerSerial := by
      rw [clearFrame_eq]
    rw [emitTo, hs']
    dsimp only
    rw [if_neg hphase, send_eq, hserial]
    exact ⟨rfl, getElem?_insert_self⟩
  rw [frameDone]
  refine hemit _ _ ?_
  rw [hc, clearFrame]
  dsimp only
  rcases c.surfaceOf id with e | sf
  · exact hc
  · exact getElem?_insert_self

theorem nowNs_frameDone {conn : ConnId} {id : ObjectId} {token : UInt64}
    {status : UInt32} : (s.frameDone conn id token status).2.nowNs = s.nowNs := by
  rw [frameDone, nowNs_emitTo]

/-- A tick that has nothing for a connection leaves it alone. -/
theorem framesDone_of_ne {l : List (ConnId × ObjectId × UInt64 × UInt32)} (s : Server)
    (hl : ∀ e ∈ l, e.1 ≠ k) :
    (s.framesDone l).1.filter (fun p => p.conn = k) = [] ∧
      (s.framesDone l).2.conns[k]? = s.conns[k]? := by
  induction l generalizing s with
  | nil => exact ⟨rfl, rfl⟩
  | cons e _ ih =>
    obtain ⟨conn, id, token, status⟩ := e
    obtain ⟨h1, h2⟩ := frameDone_of_ne (hl _ mem_cons_self)
    obtain ⟨h3, h4⟩ := ih (s.frameDone conn id token status).2 fun e he =>
      hl e (mem_cons_of_mem _ he)
    rw [framesDone]
    exact ⟨by rw [filter_append, h1, h3, append_nil], h4.trans h2⟩

/-- **A tick, seen from one connection**: the callbacks of that connection, in order. -/
theorem framesDone_conn (l : List (ConnId × ObjectId × UInt64 × UInt32)) (s : Server)
    (c : Connection) (hc : s.conns[k]? = some c) (hp : c.phase ≠ .closed) :
    (s.framesDone l).1.filter (fun p => p.conn = k) = numbered k c.nextServerSerial
          ((l.filter fun e => e.1 = k).map (frameEvent s.nowNs)) ∧
      (s.framesDone l).2.conns[k]? =
        some ((((l.filter fun e => e.1 = k).map fun e => e.2.1).foldl clearFrame c).bump
          (l.filter fun e => e.1 = k).length) := by
  induction l generalizing s c with
  | nil => exact ⟨rfl, by simpa [framesDone] using hc⟩
  | cons e l ih =>
    obtain ⟨conn, id, token, status⟩ := e
    rw [framesDone]
    rw [filter_append]
    by_cases hne : conn = k
    · subst hne
      obtain ⟨h₁, h2⟩ := frameDone_self hc hp
      have hp' : ((c.clearFrame id).bump 1).phase ≠ .closed := by
        rw [clearFrame_eq]
        exact hp
      obtain ⟨h3, h4⟩ := ih _ _ h2 hp'
      have hserial : ((c.clearFrame id).bump 1).nextServerSerial =
          c.nextServerSerial + ofNat 1 := by
        rw [clearFrame_eq]
        rfl
      have hbump : ∀ (ids : List ObjectId) (c : Connection),
          ids.foldl clearFrame (c.bump 1) = (ids.foldl clearFrame c).bump 1 := by
        intro ids
        induction ids with
        | nil => exact fun _ => rfl
        | cons i _ ih' =>
          intro c
          have h1 : (c.bump 1).clearFrame i = (c.clearFrame i).bump 1 := by
            have hsame : (c.bump 1).surfaceOf i = c.surfaceOf i := rfl
            rw [clearFrame, clearFrame, hsame]
            split <;> rfl
          rw [foldl_cons, h1, ih', foldl_cons]
      have hfilter : ((conn, id, token, status) :: l).filter (fun e => e.1 = conn) =
          (conn, id, token, status) :: l.filter fun e => e.1 = conn := by simp
      rw [h₁, h3, h4, filter_numbered_self, nowNs_frameDone, hserial, hbump, bump_bump, hfilter]
      refine ⟨?_, by rw [map_cons, foldl_cons, length_cons, Nat.add_comm]⟩
      rw [map_cons, ← singleton_append, numbered_append]
      rfl
    · obtain ⟨h₁, h2⟩ := frameDone_of_ne hne
      obtain ⟨h3, h4⟩ := ih _ c (h2.trans hc) hp
      have hfilter : ((conn, id, token, status) :: l).filter (fun e => e.1 = k) =
          l.filter fun e => e.1 = k := by simp [hne]
      rw [h₁, h3, h4, nowNs_frameDone, hfilter]
      exact ⟨rfl, rfl⟩

end

variable {k : ConnId}

/-- The entries of one key in a list that is put together key by key. -/
theorem filter_flatMap_key {β γ : Type} {l : List (ConnId × β)} {g : ConnId → β → List (ConnId × γ)}
    (hg : ∀ a b, ∀ e ∈ g a b, e.1 = a) (hl : l.Pairwise fun a b => ¬compare a.1 b.1 = .eq) {c : β}
    (hmem : (k, c) ∈ l) :
    (l.flatMap fun e => g e.1 e.2).filter (fun e => e.1 = k) = g k c := by
  have hsame : ∀ b, (g k b).filter (fun e => e.1 = k) = g k b := fun b =>
    filter_eq_self.mpr fun e he => by simpa using hg k b e he
  have hother : ∀ a b, a ≠ k → (g a b).filter (fun e => e.1 = k) = [] := fun a b hne =>
    filter_eq_nil_iff.mpr fun e he => by simpa [hg a b e he] using hne
  induction l with
  | nil => cases hmem
  | cons e l ih =>
    obtain ⟨hhead, htail⟩ := pairwise_cons.mp hl
    rw [flatMap_cons, filter_append]
    rcases mem_cons.mp hmem with rfl | hmem
    · have hrest : (l.flatMap fun e => g e.1 e.2).filter (fun e => e.1 = k) = [] := by
        refine filter_eq_nil_iff.mpr fun e he => ?_
        obtain ⟨e', he', hin⟩ := mem_flatMap.mp he
        have hne : k ≠ e'.1 := by simpa using hhead e' he'
        rw [hg _ _ e hin]
        simpa using hne.symm
      rw [hsame, hrest, append_nil]
    · have hne : e.1 ≠ k := by simpa using hhead _ hmem
      rw [hother _ _ hne, ih htail hmem, nil_append]

theorem waitingFrames_conn (k : ConnId) (c : Connection) : ∀ e ∈ waitingFrames k c, e.1 = k := by
  intro e he
  rw [waitingFrames] at he
  split_ifs at he with hp
  · cases he
  · obtain ⟨⟨id, o⟩, -, ho⟩ := mem_filterMap.mp he
    rcases o with s | b
    · dsimp only at ho
      split_ifs at ho
      exact (some.inj ho) ▸ rfl
    · cases ho

theorem frames_eq (hactive : c.phase = .active) (now : UInt64) :
    (waitingFrames k c).map (frameEvent now) = c.frames now := by
  rw [waitingFrames, if_neg (by rw [hactive]; simp), frames, map_filterMap]
  refine congrArg (fun f => c.objects.toList.filterMap f) (funext fun e => ?_)
  obtain ⟨id, s | b⟩ := e
  · dsimp only
    split_ifs <;> rfl
  · rfl

theorem mem_waitingFrames_iff (hactive : c.phase = .active)
    {id : ObjectId} : id ∈ (waitingFrames k c).map (fun e => e.2.1) ↔
      ∃ s, c.objects[id]? = some (.surface s) ∧ s.framePending = true := by
  rw [waitingFrames, if_neg (by rw [hactive]; simp), map_filterMap, mem_filterMap]
  constructor
  · rintro ⟨⟨a, s | b⟩, hmem, hsome⟩
    · dsimp only at hsome
      split_ifs at hsome with hf
      · obtain rfl : a = id := by simpa using hsome
        exact ⟨s, ExtTreeMap.mem_toList_iff_getElem?_eq_some.mp hmem, hf⟩
      · simp at hsome
    · simp at hsome
  · rintro ⟨s, hs, hf⟩
    exact ⟨(id, .surface s), ExtTreeMap.mem_toList_iff_getElem?_eq_some.mpr hs, by simp [hf]⟩

theorem foldl_clearFrame_eq_composed (hactive : c.phase = .active) :
    ((waitingFrames k c).map fun e => e.2.1).foldl clearFrame c = c.composed := by
  obtain ⟨o, ho, hget⟩ := foldl_clearFrame c
  rw [ho, composed]
  congr 1
  refine ExtTreeMap.ext_getElem? fun a => ?_
  rw [hget, ExtTreeMap.getElem?_map]
  split_ifs with ha
  · rfl
  · rw [mem_waitingFrames_iff hactive] at ha
    rcases hobj : c.objects[a]? with _ | ⟨s | b⟩
    · rfl
    · have hf : s.framePending = false := by
        simpa using fun h => ha ⟨s, hobj, h⟩
      rw [map_some, unframed, ← hf]
    · rfl

/-- **A composition tick, seen from one connection.** -/
theorem composite_passage {s : Server} : Passage k s.nowNs s.conns[k]?
      (.composite :: (s.composite.1.filter fun p => p.conn = k).map Item.sent)
      s.composite.2.conns[k]? := by
  rw [composite]
  rcases hc : s.conns[k]? with _ | c
  · obtain ⟨h1, h2⟩ := framesDone_of_ne (k := k) s
      (l := s.conns.toList.flatMap fun e => waitingFrames e.1 e.2) fun e he => by
        obtain ⟨⟨a, c⟩, hmem, hin⟩ := mem_flatMap.mp he
        rintro rfl
        rw [waitingFrames_conn a c e hin, ExtTreeMap.mem_toList_iff_getElem?_eq_some.mp hmem] at hc
        cases hc
    rw [h1, h2, hc]
    exact .absentMark (.inl rfl)
  · have hmem := ExtTreeMap.mem_toList_iff_getElem?_eq_some.mpr hc
    have hfilter := filter_flatMap_key waitingFrames_conn ExtTreeMap.distinct_keys_toList hmem
    by_cases hactive : c.phase = .active
    · obtain ⟨h1, h2⟩ := framesDone_conn
        (s.conns.toList.flatMap fun e => waitingFrames e.1 e.2) s c hc
        (by rw [hactive]; simp)
      have hlen : (waitingFrames k c).length = (c.frames s.nowNs).length := by
        rw [← frames_eq hactive, length_map]
      rw [h1, h2, hfilter, frames_eq hactive, foldl_clearFrame_eq_composed hactive, hlen]
      exact .step (.composite hactive)
    -- A connection that is not active waits for no frame: the tick passes it by.
    · have hnil : waitingFrames k c = [] := by
        rw [waitingFrames, if_pos hactive]
      obtain ⟨h1, h2⟩ := framesDone_of_ne (k := k) s
        (l := s.conns.toList.flatMap fun e => waitingFrames e.1 e.2) fun e he hek => by
          have : e ∈ (s.conns.toList.flatMap fun e => waitingFrames e.1 e.2).filter
              fun e => e.1 = k := mem_filter.mpr ⟨he, by simpa using hek⟩
          rw [hfilter, hnil] at this
          cases this
      rw [h1, h2, hc]
      exact .step (.pass hactive)

/-! ### The other calls -/

theorem reconfigure_passage {s : Server} {conn : ConnId} {surface : ObjectId}
    {width height scale state : UInt32} {now : UInt64} :
    s.Passes k now (s.reconfigure conn surface width height scale state) := by
  have hidle : s.Passes k now ([], s) := (refl s.conns).passage
  rw [Passes, reconfigure]
  split_ifs with hdim
  · exact hidle
  · rcases hc : s.conns[conn]? with _ | c
    · exact hidle
    · dsimp only
      split_ifs with hactive
      · rcases hs : c.surfaceOf surface with e | sf
        · exact hidle
        · dsimp only
          rw [emitTo]
          rw [getElem?_insert_self]
          dsimp only
          rw [if_neg (by rw [putSurface, hactive]; simp), send_eq, insert_insert]
          by_cases hne : conn = k
          · subst hne
            rw [hc, filter_numbered_self, getElem?_insert_self]
            exact .step (.reconfigure _ _ _ _ hactive (surfaceOf_eq_ok.mp hs))
          · rw [filter_numbered_of_ne hne, getElem?_insert_of_ne hne]
            exact hidle
      · exact hidle

theorem getElem?_foldl_erase {ids : List ConnId} {t : ExtTreeMap ConnId Connection} :
    (ids.foldl (fun t id => t.erase id) t)[k]? = if k ∈ ids then none else t[k]? := by
  induction ids generalizing t with
  | nil => simp
  | cons id _ ih =>
    rw [foldl_cons, ih]
    by_cases hk : id = k
    · subst hk
      simp
    · have hk' : ¬k = id := fun h => hk h.symm
      rw [getElem?_erase_of_ne hk]
      simp [hk']

variable {t t' : ExtTreeMap ConnId Connection}

/-- A connection that is left alone. -/
theorem passage_of_eq {now : UInt64} (h : t'[k]? = t[k]?) : Passage k now t[k]? [] t'[k]? := by
  rw [h]
  rcases t[k]? with _ | c
  · exact .absent
  · exact .step (.idle c)

/-- A connection that may be removed. -/
theorem passage_of_gone {now : UInt64} {P : Prop} [Decidable P]
    (h : t'[k]? = if P then none else t[k]?) :
    Passage k now t[k]? (if P then [.removed] else []) t'[k]? := by
  split_ifs at h ⊢
  · rw [h]
    rcases t[k]? with _ | c
    · exact .absentMark (.inr rfl)
    · exact .removed c
  · exact passage_of_eq h

theorem items_of_packets {call : Call} {sent : List Packet} (h : call.isPlain = true) :
    (⟨call, none, [], sent⟩ : Seen).items k = (sent.filter fun p => p.conn = k).map Item.sent := by
  cases call <;> first | rfl | cases h

/-- **Every call, seen from any connection**: it opens the connection, or is one of the
steps. -/
theorem exec_step {s : Server} {call : Call} : ((s.exec call).1.opened = some k ∧
      (s.exec call).2.conns[k]? = some (new s.nowNs)) ∨
    ((s.exec call).1.opened ≠ some k ∧
      Passage k s.nowNs s.conns[k]? ((s.exec call).1.items k) (s.exec call).2.conns[k]?) := by
  have hsent : ∀ {c : Call} {r : List Packet × Server}, c.isPlain = true →
      s.exec c = ofPackets c r → s.Passes k s.nowNs r →
      (s.exec c).1.opened ≠ some k ∧
        Passage k s.nowNs s.conns[k]? ((s.exec c).1.items k) (s.exec c).2.conns[k]? := by
    intro c r hc hr h
    rw [hr, ofPackets, items_of_packets hc]
    exact ⟨by simp, h⟩
  cases call with
  | connect =>
    simp only [exec, connect]
    split_ifs with hfull
    · exact .inr ⟨by simp, passage_of_eq rfl⟩
    · dsimp only
      by_cases hk : s.nextConn = k
      · subst hk
        exact .inl ⟨rfl, getElem?_insert_self⟩
      · exact .inr ⟨by simpa using hk, passage_of_eq (getElem?_insert_of_ne hk)⟩
  | disconnectPeer conn =>
    refine .inr ⟨by simp [exec], ?_⟩
    rw [show (s.exec (.disconnectPeer conn)).1.items k = _ from append_nil _]
    refine passage_of_gone ?_
    split_ifs with hk
    · exact hk ▸ getElem?_erase_self
    · exact getElem?_erase_of_ne hk
  | tick nowNs =>
    refine .inr ⟨by simp [exec], ?_⟩
    rw [show (s.exec (.tick nowNs)).1.items k = _ from append_nil _]
    exact passage_of_gone getElem?_foldl_erase
  | deliver conn packet cap =>
    refine .inr ⟨by simp [exec, ofPackets], ?_⟩
    have h := @deliver_passage k s conn packet cap
    simpa [exec, ofPackets, items, deliverItems] using h
  | composite =>
    refine .inr ⟨by simp [exec, ofPackets], ?_⟩
    simpa [exec, ofPackets, items] using composite_passage
  | reconfigure => exact .inr (hsent rfl rfl reconfigure_passage)
  | setPointerFocus => exact .inr (hsent rfl rfl setPointerFocus_relays.passage)
  | pointerMotion | pointerAxis =>
    exact .inr (hsent rfl rfl (emitToTarget_relays rfl).passage)
  | pointerButton => exact .inr (hsent rfl rfl pointerButton_relays.passage)
  | setKeyboardFocus => exact .inr (hsent rfl rfl setKeyboardFocus_relays.passage)
  | key => exact .inr (hsent rfl rfl key_passage)
  | textInput => exact .inr (hsent rfl rfl textInput_relays.passage)

/-! ### Carrying a property along a run -/

variable {R : ConnId → List Item → Connection → Prop}

variable {G : ConnId → List Item → Prop}

/-- **The induction for connections and their histories**: `R` relates a connection to its
history as long as there is the connection, and `G` is what remains of it afterwards. -/
theorem life_induct (hnew : ∀ k now, R k [] (new now))
    (hstep : ∀ k now l c items c', R k l c → Step k now c items c' → R k (l ++ items) c')
    (hnil : ∀ k, G k []) (hgone : ∀ k l c, R k l c → G k (l ++ [.removed]))
    (hmark : ∀ k l a, a = .composite ∨ a = .removed → G k l → G k (l ++ [a]))
    (calls : List Call) (k : ConnId) :
    (∃ c, (run calls).2.conns[k]? = some c ∧ R k (life k (run calls).1) c) ∨
      ((run calls).2.conns[k]? = none ∧ G k (life k (run calls).1)) := by
  refine run_induct (P := fun t s => (∃ c, s.conns[k]? = some c ∧ R k (life k t) c) ∨
    (s.conns[k]? = none ∧ G k (life k t))) ?_ ?_ calls
  · exact .inr ⟨ExtTreeMap.getElem?_empty, hnil k⟩
  · intro t s call ih
    rw [life_snoc]
    rcases exec_step with ⟨ho, hnew'⟩ | ⟨ho, hp⟩
    · rw [if_pos ho]
      exact .inl ⟨_, hnew', hnew k s.nowNs⟩
    · rw [if_neg ho]
      -- From here on only the passage counts, not the call that caused it.
      generalize s.conns[k]? = old at hp ih
      generalize (s.exec call).1.items k = items at hp ⊢
      generalize (s.exec call).2.conns[k]? = next at hp ⊢
      cases hp with
      | absent =>
        rcases ih with ⟨c, hc, -⟩ | ⟨-, hG⟩
        · cases hc
        · exact .inr ⟨rfl, by simpa using hG⟩
      | absentMark ha =>
        rcases ih with ⟨c, hc, -⟩ | ⟨-, hG⟩
        · cases hc
        · exact .inr ⟨rfl, hmark k _ _ ha hG⟩
      | removed =>
        rcases ih with ⟨c', hc, hR⟩ | ⟨hc, -⟩
        · exact .inr ⟨rfl, hgone k _ _ hR⟩
        · cases hc
      | @step _ c' _ h =>
        rcases ih with ⟨c1, hc, hR⟩ | ⟨hc, -⟩
        · obtain rfl := some.inj hc
          exact .inl ⟨c', rfl, hstep k s.nowNs _ _ _ _ hR h⟩
        · cases hc

/-- **The induction for one connection** that is still there. -/
theorem conn_induct (hnew : ∀ k now, R k [] (new now))
    (hstep : ∀ k now l c items c', R k l c → Step k now c items c' → R k (l ++ items) c')
    (calls : List Call) {c : Connection}
    (hc : (run calls).2.conns[k]? = some c) : R k (life k (run calls).1) c := by
  rcases life_induct (G := fun _ _ => True) hnew hstep (fun _ => trivial) (fun _ _ _ _ => trivial)
    (fun _ _ _ _ _ => trivial) calls k with ⟨c', hc', hR⟩ | ⟨hnone, -⟩
  · obtain rfl := some.inj (hc.symm.trans hc')
    exact hR
  · rw [hc] at hnone
    cases hnone

/-- **The induction for histories**: what a connection has to do with its history, and
what is left of it in the end. -/
theorem history_induct (hnew : ∀ k now, R k [] (new now))
    (hstep : ∀ k now l c items c', R k l c → Step k now c items c' → R k (l ++ items) c')
    (hnil : ∀ k, G k []) (hG : ∀ k l c, R k l c → G k l)
    (hmark : ∀ k l a, a = .composite ∨ a = .removed → G k l → G k (l ++ [a]))
    {calls : List Call} : G k (life k (run calls).1) := by
  rcases life_induct hnew hstep hnil (fun k l c h => hmark k l _ (.inr rfl) (hG k l c h)) hmark
    calls k with ⟨c, -, hR⟩ | ⟨-, hG'⟩
  · exact hG k _ c hR
  · exact hG'

end DunitOS.Gui
