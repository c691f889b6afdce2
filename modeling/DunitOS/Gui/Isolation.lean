import DunitOS.Gui.Focus

/-!
# Clients do not affect each other

Connections share the seat, the allocator of client ids and the clock. What a client sends
changes nothing of the other connections, nor of what their surfaces hold of the seat; and
what it gets in return depends on nothing but its own connection, the clock, the next
client id and whether its surfaces have the focus (`deliver_isolated`). The
second part compares two runs, from servers that look alike to the client.
-/

namespace DunitOS.Gui

open Server Seat Arm

open SysLib Prog Std

/-! ### What a client can see -/

/-- Two seats that are alike to a client: its surfaces have the focus in both or in
neither. -/
structure Seat.Alike (k : ConnId) (seat seat' : Seat) : Prop where
  pointer : ∀ i, seat'.pointerFocus = some (k, i) ↔ seat.pointerFocus = some (k, i)
  keyboard : ∀ i, seat'.keyboardFocus = some (k, i) ↔ seat.keyboardFocus = some (k, i)

/-- Two states that a request of a client can find, alike to the client. -/
structure Ctx.Alike (k : ConnId) (x x' : Ctx) : Prop where
  conn : x'.conn = x.conn
  nextClientId : x'.nextClientId = x.nextClientId
  seat : x.seat.Alike k x'.seat

/-- Two servers that are alike to a client. -/
structure Server.Alike (k : ConnId) (s s' : Server) : Prop where
  conn : s'.conns[k]? = s.conns[k]?
  nowNs : s'.nowNs = s.nowNs
  nextClientId : s'.nextClientId = s.nextClientId
  seat : s.seat.Alike k s'.seat

section

variable {k : ConnId} {x x' : Ctx} {seat seat' : Seat}

theorem Seat.Alike.dropSurface_snd (h : seat.Alike k seat') (i : ObjectId) :
    (seat'.dropSurface (k, i)).2 = (seat.dropSurface (k, i)).2 := by
  rw [Seat.dropSurface_snd, Seat.dropSurface_snd]
  simp only [h.pointer, h.keyboard]

theorem Seat.focus_dropSurface (seat : Seat) {tgt : Target} :
    (seat.dropSurface tgt).1.pointerFocus =
      (if seat.pointerFocus = some tgt then none else seat.pointerFocus) ∧
    (seat.dropSurface tgt).1.keyboardFocus =
      if seat.keyboardFocus = some tgt then none else seat.keyboardFocus := by
  by_cases hp : seat.pointerFocus = some tgt <;> by_cases hg : seat.grab = some tgt <;>
    by_cases hk : seat.keyboardFocus = some tgt <;> simp [dropSurface, hp, hg, hk]

/-- After a surface has been dropped the seats are still alike. -/
theorem Seat.Alike.dropSurface_fst (h : seat.Alike k seat') (i : ObjectId) :
    (seat.dropSurface (k, i)).1.Alike k (seat'.dropSurface (k, i)).1 := by
  refine ⟨fun j => ?_, fun j => ?_⟩
  · rw [(focus_dropSurface _).1, (focus_dropSurface _).1]
    simp only [h.pointer i]
    split_ifs
    · rfl
    · exact h.pointer j
  · rw [(focus_dropSurface _).2, (focus_dropSurface _).2]
    simp only [h.keyboard i]
    split_ifs
    · rfl
    · exact h.keyboard j

theorem agrees_setConn (h : x.Alike k x') {c : Connection} :
    Agrees (Ctx.Alike k) (setConn c) (setConn c) x x' :=
  .modify ⟨rfl, h.nextClientId, h.seat⟩

/-- The end of most requests. -/
theorem agrees_settle (h : x.Alike k x') {c : Connection} {batch : Batch} :
    Agrees (Ctx.Alike k) (do setConn c; pure batch : Arm) (do setConn c; pure batch) x x' :=
  .bind (agrees_setConn h) fun _ _ _ h => .pure h batch

/-- **A request that runs alike** from states that are alike to the client. -/
def RunsAlike (k : ConnId) (m : Arm) : Prop :=
  ∀ ⦃x x'⦄, x.Alike k x' → Agrees (Ctx.Alike k) m m x x'

theorem agrees_hello {ser : UInt64} {minMinor maxMinor : UInt16} {offered required : UInt64} :
    RunsAlike k (hello ser minMinor maxMinor offered required) := by
  intro x x' h
  refine .refuse_bind h ?_
  refine .refuse_bind h ?_
  refine .refuse_bind h (.get_bind ?_)
  rw [h.nextClientId]
  refine .bind (.modify ⟨?_, ?_, h.seat⟩) fun _ _ _ h => .pure h _
  · dsimp only
    rw [h.conn, h.nextClientId]
  · dsimp only
    rw [h.nextClientId]

theorem agrees_createSurface {obj ser : UInt64} {role width height format : UInt32} :
    RunsAlike k (createSurface obj ser role width height format) := by
  intro x x' h
  refine .get_bind ?_
  rw [h.conn]
  refine .ofExcept_bind h fun _ => ?_
  refine .refuse_bind h ?_
  refine .ofExcept_bind h fun _ => ?_
  refine .refuse_bind h ?_
  exact .refuse_bind h (agrees_settle h)

theorem agrees_destroySurface {now obj ser : UInt64} :
    RunsAlike k (destroySurface k now obj ser) := by
  intro x x' h
  refine .get_bind ?_
  dsimp only
  rw [h.conn, h.seat.dropSurface_snd]
  have hseat := h.seat.dropSurface_fst obj
  refine .ofExcept_bind h fun s => ?_
  exact .bind (.modify ⟨rfl, h.nextClientId, hseat⟩) fun _ _ _ h => .pure h _

theorem agrees_setText {obj ser : UInt64} {ok : Bool} : RunsAlike k (setText obj ser ok) := by
  intro x x' h
  refine .get_bind ?_
  rw [h.conn]
  refine .ofExcept_bind h fun _ => ?_
  exact .refuse_bind h (.pure h _)

theorem agrees_ackConfigure {obj ser configure : UInt64} :
    RunsAlike k (ackConfigure obj ser configure) := by
  intro x x' h
  refine .get_bind ?_
  rw [h.conn]
  refine .ofExcept_bind h fun s => ?_
  exact .refuse_bind h (agrees_settle h)

theorem agrees_importBuffer {obj ser : UInt64} {width height stride format : UInt32}
    {offset : UInt64} {cap : Option UInt64} :
    RunsAlike k (importBuffer obj ser width height stride format offset cap) := by
  intro x x' h
  refine .get_bind ?_
  rw [h.conn]
  refine .ofExcept_bind h fun _ => ?_
  refine .ofExcept_bind h fun _ => ?_
  refine .refuse_bind h ?_
  refine .refuse_bind h ?_
  refine .refuse_bind h ?_
  refine .refuse_bind h ?_
  refine .refuse_bind h ?_
  exact .refuse_bind h (agrees_settle h)

theorem agrees_destroyBuffer {obj ser : UInt64} : RunsAlike k (destroyBuffer obj ser) := by
  intro x x' h
  refine .get_bind ?_
  rw [h.conn]
  refine .ofExcept_bind h fun b => ?_
  exact .refuse_bind h (agrees_settle h)

theorem agrees_attachBuffer {obj ser buffer : UInt64} {damage : List Rect} :
    RunsAlike k (attachBuffer obj ser buffer damage) := by
  intro x x' h
  refine .get_bind ?_
  rw [h.conn]
  refine .ofExcept_bind h fun s => ?_
  split_ifs
  · refine .get_bind ?_
    rw [h.conn]
    refine .refuse_bind h ?_
    exact .refuse_bind h (agrees_settle h)
  · refine .get_bind ?_
    rw [h.conn]
    refine .ofExcept_bind h fun b => ?_
    refine .refuse_bind h ?_
    refine .refuse_bind h ?_
    refine .refuse_bind h ?_
    exact .refuse_bind h (agrees_settle h)

theorem agrees_commitUnmap {now obj ser : UInt64} {frameCallback : UInt32} {s : Surface} :
    RunsAlike k (commitUnmap k now obj ser frameCallback s) := by
  intro x x' h
  refine .get_bind ?_
  dsimp only
  rw [h.conn, h.seat.dropSurface_snd]
  have hseat := h.seat.dropSurface_fst obj
  exact .bind (.modify ⟨rfl, h.nextClientId, hseat⟩) fun _ _ _ h => .pure h _

theorem agrees_commitMap {obj ser : UInt64} {frameCallback : UInt32} {s : Surface} :
    RunsAlike k (commitMap obj ser frameCallback s) := by
  intro x x' h
  refine .get_bind ?_
  rw [h.conn]
  refine .ofExcept_bind h fun b => ?_
  refine .ofExcept_bind h fun px => ?_
  exact .refuse_bind h (agrees_settle h)

theorem agrees_commit {now obj ser configure : UInt64} {frameCallback : UInt32} :
    RunsAlike k (commit k now obj ser configure frameCallback) := by
  intro x x' h
  refine .refuse_bind h (.get_bind ?_)
  rw [h.conn]
  refine .ofExcept_bind h fun s => ?_
  refine .refuse_bind h ?_
  refine .refuse_bind h ?_
  refine .refuse_bind h ?_
  split_ifs
  · exact agrees_commitUnmap h
  · exact agrees_commitMap h

/-! ### Packets -/

/-- Two answers that are alike to the client: the same packets, and states that are alike. -/
def Answer.Alike (k : ConnId) (r r' : Emit × Ctx) : Prop := r'.1 = r.1 ∧ r.2.Alike k r'.2

theorem answer_alike {m : Arm} (hm : RunsAlike k m) (h : x.Alike k x') {obj ser : UInt64}
    {fatal : Bool} : Answer.Alike k (answer obj ser fatal m x) (answer obj ser fatal m x') := by
  obtain ⟨hr, hR⟩ := hm h
  rw [answer, answer]
  rcases hm : m x with ⟨e | batch, y⟩ <;> rcases hm' : m x' with ⟨e' | batch', y'⟩ <;>
    rw [hm, hm'] at hr hR <;> cases hr
  · exact ⟨rfl, hR⟩
  · exact ⟨rfl, hR⟩

theorem dispatch_alike (h : x.Alike k x') {now : UInt64} (header : Header) {req : Request}
    {cap : Option UInt64} :
    Answer.Alike k (dispatch k now header req cap x) (dispatch k now header req cap x') := by
  cases req with
  | hello => exact answer_alike agrees_hello h
  | disconnect => exact ⟨rfl, h⟩
  | createSurface => exact answer_alike agrees_createSurface h
  | destroySurface => exact answer_alike agrees_destroySurface h
  | setTitle | setAppId => exact answer_alike agrees_setText h
  | ackConfigure => exact answer_alike agrees_ackConfigure h
  | importBuffer => exact answer_alike agrees_importBuffer h
  | destroyBuffer => exact answer_alike agrees_destroyBuffer h
  | attachBuffer => exact answer_alike agrees_attachBuffer h
  | commit => exact answer_alike agrees_commit h

theorem interpret_alike (h : x.Alike k x') {now : UInt64} (header : Header) {packet : List UInt8}
    {cap : Option UInt64} :
    Answer.Alike k (interpret k now header packet cap x)
      (interpret k now header packet cap x') := by
  rw [interpret, interpret]
  rcases Opcode.fromU16 header.opcodeRaw with _ | op
  · dsimp only
    split_ifs
    · exact ⟨rfl, h⟩
    · exact ⟨rfl, h⟩
  · dsimp only
    rw [h.conn]
    split_ifs
    · exact ⟨rfl, h⟩
    · exact ⟨rfl, h⟩
    · exact ⟨rfl, h⟩
    · rcases Request.decode op (packet.drop headerLen) with e | req
      · exact ⟨rfl, h⟩
      · exact dispatch_alike h header

theorem pipeline_alike (h : x.Alike k x') {now : UInt64} {packet : List UInt8}
    {cap : Option UInt64} :
    Answer.Alike k (pipeline k now packet cap x) (pipeline k now packet cap x') := by
  rw [pipeline, pipeline]
  rcases Header.decode packet with e | header
  · exact ⟨rfl, h⟩
  · dsimp only
    rw [h.conn]
    split_ifs
    · exact ⟨rfl, h⟩
    · exact ⟨rfl, h⟩
    · exact ⟨rfl, h⟩
    · have h' : Ctx.Alike k (x.noted header.serial)
          { x' with conn := { x.conn with lastClientSerial := header.serial } } :=
        ⟨rfl, h.nextClientId, h.seat⟩
      exact interpret_alike h' header

end

theorem Seat.dropConn_not_holds (seat : Seat) (k : ConnId) (i : ObjectId) :
    (seat.dropConn k).pointerFocus ≠ some (k, i) ∧
      (seat.dropConn k).keyboardFocus ≠ some (k, i) := by
  have hholds : ∀ {o : Option Target}, holds o k = false → o ≠ some (k, i) := by
    rintro o ho rfl
    simp [holds] at ho
  rcases hp : holds seat.pointerFocus k <;> rcases hg : holds seat.grab k <;>
    rcases hk : holds seat.keyboardFocus k <;>
    simp [dropConn, hp, hg, hk, hholds]

/-- **A client gets the same answer from servers that are alike to it.** -/
theorem deliver_alike {k : ConnId} {s s' : Server} (h : s.Alike k s') (packet : List UInt8)
    (cap : Option UInt64) :
    (s'.deliver k packet cap).1 = (s.deliver k packet cap).1 ∧
      (s.deliver k packet cap).2.Alike k (s'.deliver k packet cap).2 := by
  rw [deliver, deliver, h.conn]
  rcases hc : s.conns[k]? with _ | c
  · exact ⟨rfl, h⟩
  · dsimp only
    by_cases hclosed : c.phase = .closed
    · rw [if_pos hclosed, if_pos hclosed]
      exact ⟨rfl, h⟩
    · have hx : Ctx.Alike k ⟨c, s.nextClientId, s.seat⟩ ⟨c, s'.nextClientId, s'.seat⟩ :=
        ⟨rfl, h.nextClientId, h.seat⟩
      obtain ⟨hemit, hctx⟩ := pipeline_alike hx
      rw [if_neg hclosed, if_neg hclosed, h.nowNs]
      generalize pipeline k s.nowNs packet cap ⟨c, s.nextClientId, s.seat⟩ = r at hemit hctx ⊢
      generalize pipeline k s.nowNs packet cap ⟨c, s'.nextClientId, s'.seat⟩ = r' at hemit hctx ⊢
      rw [hemit, hctx.conn]
      refine ⟨rfl, ?_, rfl, hctx.nextClientId, ?_⟩
      · dsimp only
        rw [ExtTreeMap.getElem?_insert_self, ExtTreeMap.getElem?_insert_self]
      · dsimp only
        split_ifs
        · exact ⟨fun i => iff_of_false (r'.2.seat.dropConn_not_holds k i).1
            (r.2.seat.dropConn_not_holds k i).1, fun i =>
            iff_of_false (r'.2.seat.dropConn_not_holds k i).2 (r.2.seat.dropConn_not_holds k i).2⟩
        · exact hctx.seat

/-! ### What a client can do to the others -/

/-- What the surfaces of other connections hold of the seat stays. -/
structure Seat.KeepsOthers (k : ConnId) (seat seat' : Seat) : Prop where
  pointer : ∀ t : Target, t.1 ≠ k → (seat'.pointerFocus = some t ↔ seat.pointerFocus = some t) ∧
    (seat.pointerFocus = some t → seat'.grab = seat.grab ∧ seat'.buttons = seat.buttons)
  grab : ∀ t : Target, t.1 ≠ k → (seat'.grab = some t ↔ seat.grab = some t) ∧
    (seat.grab = some t → seat'.buttons = seat.buttons)
  keyboard : ∀ t : Target, t.1 ≠ k →
    (seat'.keyboardFocus = some t ↔ seat.keyboardFocus = some t) ∧
    (seat.keyboardFocus = some t →
      seat'.heldKeys = seat.heldKeys ∧ seat'.modifiers = seat.modifiers)

theorem Seat.keepsOthers_forget {k : ConnId} {seat : Seat} {P : Target → Bool}
    (hP : ∀ t, P t = true → t.1 = k)
    (hgrab : ∀ t, seat.grab = some t → seat.pointerFocus = some t) :
    Seat.KeepsOthers k seat (seat.forget P) := by
  have hany : ∀ {o : Option Target} {t : Target}, t.1 ≠ k → o = some t → o.any P = false := by
    rintro o t ht rfl
    simpa using fun h => ht (hP t h)
  have hkeep : ∀ (o o' : Option Target) {t : Target}, t.1 ≠ k → (o' = some t → o = some t) →
      ((if o.any P then none else o') = some t ↔ o' = some t) := by
    intro o o' t ht ho
    refine ⟨fun h => ?_, fun h => ?_⟩
    · split_ifs at h
      exact h
    · rw [hany ht (ho h)]
      exact h
  rw [forget_eq]
  refine ⟨fun t ht => ⟨hkeep _ _ ht id, fun h => ?_⟩, fun t ht => ⟨hkeep _ _ ht (hgrab t), fun h =>
    ?_⟩, fun t ht => ⟨hkeep _ _ ht id, fun h => ?_⟩⟩ <;> dsimp only
  · rw [hany ht h]
    exact ⟨rfl, rfl⟩
  · rw [hany ht (hgrab t h)]
    rfl
  · rw [hany ht h]
    exact ⟨rfl, rfl⟩

/-- The seat after a request: as it was, or without one surface of the client. -/
theorem Effect.seat_eq {k : ConnId} {now : UInt64} {header : Header} {cap : Option UInt64}
    {req : Request} {x y : Ctx} {batch : Batch} (h : Effect k now header cap req x batch y) :
    y.seat = x.seat ∨ y.seat = (x.seat.dropSurface (k, header.object)).1 := by
  cases h with
  | destroySurface | commitUnmap => exact Or.inr rfl
  | _ => exact Or.inl rfl

theorem Seat.forget_nothing (seat : Seat) : (seat.forget fun _ => false) = seat := by
  rcases hp : seat.pointerFocus <;> rcases hk : seat.keyboardFocus <;> simp [forget, hp, hk]

/-- **What a packet does to the seat**: the client's own part may be forgotten. -/
theorem deliver_seat {s : Server} (h : s.seat.GrabsFocus) {k : ConnId} {packet : List UInt8}
    {cap : Option UInt64} : ∃ P : Target → Bool, (∀ t, P t = true → t.1 = k) ∧
      (s.deliver k packet cap).2.seat = s.seat.forget P := by
  have hsame : ∃ P : Target → Bool, (∀ t, P t = true → t.1 = k) ∧ s.seat = s.seat.forget P :=
    ⟨fun _ => false, fun t ht => (by cases ht), s.seat.forget_nothing.symm⟩
  have hconn : ∃ P : Target → Bool, (∀ t, P t = true → t.1 = k) ∧
      s.seat.dropConn k = s.seat.forget P :=
    ⟨fun t => t.1 == k, fun t ht => by simpa using ht, dropConn_eq h k⟩
  rcases deliver_cases s k packet cap with hr | ⟨c, hc, hopen⟩
  · rw [hr]
    exact hsame
  · obtain ⟨r, ha, hr⟩ := deliver_eq hc hopen packet cap
    rw [hr]
    cases ha with
    | undecodable | rejected | disconnected => exact hconn
    | refused => exact hsame
    | accepted header _ _ _ _ _ _ _ _ he =>
      rcases he.seat_eq with hy | hy <;> rw [hy]
      · exact hsame
      · refine ⟨fun t => t == (k, header.object), fun t ht => ?_, dropSurface_eq h _⟩
        rw [beq_iff_eq.mp ht]

theorem deliver_conns {s : Server} {k k' : ConnId} (hne : k' ≠ k) {packet : List UInt8}
    {cap : Option UInt64} : (s.deliver k packet cap).2.conns[k']? = s.conns[k']? := by
  rcases deliver_cases s k packet cap with hr | ⟨c, hc, hopen⟩
  · rw [hr]
  · obtain ⟨r, -, hr⟩ := deliver_eq hc hopen packet cap
    rw [hr]
    exact getElem?_insert_of_ne (Ne.symm hne)

/-! ### The grab and the focus -/

section

variable {s : Server}

theorem Seat.GrabsFocus.afterButton {seat : Seat} {t : Target} (h : seat.GrabsFocus)
    (ht : seat.grab.or seat.pointerFocus = some t) (button : UInt32) (pressed : Bool) :
    (seat.afterButton t button pressed).GrabsFocus := by
  intro u hu
  have hfocus : (seat.afterButton t button pressed).pointerFocus = seat.pointerFocus := by
    rw [Seat.afterButton, pushButton]
    split_ifs <;> rfl
  rw [hfocus]
  rcases hg : seat.grab with _ | g
  · rw [hg, Option.none_or] at ht
    rw [Seat.afterButton, pushButton, hg] at hu
    split_ifs at hu <;> simp_all
  · have hgu : seat.grab = some u := by
      rw [Seat.afterButton, pushButton, hg] at hu
      split_ifs at hu <;> simp_all
    exact h u hgu

/-- **What a call can do to the seat.** -/
inductive Seat.Change (call : Call) (seat : Seat) : Seat → Prop
  | same : Change call seat seat
  | forget {seat' : Seat} (h : Change call seat seat') (P : Target → Bool) :
    Change call seat (seat'.forget P)
  | point (hgrab : seat.grab = none) (o : Option Target) :
    Change call seat { seat with pointerFocus := o, buttons := [] }
  | keys (o : Option Target) (held : List UInt32) (modifiers : UInt32) :
    Change call seat { seat with keyboardFocus := o, heldKeys := held, modifiers }
  | button {t : Target} {button : UInt32} {pressed : Bool}
    (hcall : call = .pointerButton button pressed)
    (ht : seat.grab.or seat.pointerFocus = some t) :
    Change call seat (seat.afterButton t button pressed)

section

variable {call : Call} {seat seat' : Seat}

theorem Seat.Change.of_eq (h : seat' = seat) : seat.Change call seat' := h ▸ .same

theorem Seat.Change.grabsFocus (hc : seat.Change call seat') (h : seat.GrabsFocus) :
    seat'.GrabsFocus := by
  induction hc with
  | same | keys => exact h
  | forget _ P ih => exact ih.forget P
  | point hgrab => exact fun t ht => by cases hgrab.symm.trans ht
  | button _ ht => exact h.afterButton ht _ _

theorem Seat.Change.dropConns (hc : seat.Change call seat') (h : seat.GrabsFocus)
    (ids : List ConnId) : seat.Change call (ids.foldl Seat.dropConn seat') := by
  induction ids generalizing seat' with
  | nil => exact hc
  | cons _ _ ih =>
    refine ih ?_
    rw [dropConn_eq (hc.grabsFocus h)]
    exact hc.forget _

end

theorem Server.seat_exec (h : s.seat.GrabsFocus) (call : Call) :
    s.seat.Change call (s.exec call).2.seat := by
  cases call with
  | connect =>
    simp only [exec, connect]
    split_ifs <;> exact .same
  | disconnectPeer conn => exact Seat.Change.same.dropConns h [conn]
  | tick nowNs => exact Seat.Change.same.dropConns h (s.tick nowNs).1
  | deliver conn packet cap =>
    obtain ⟨P, -, hP⟩ := deliver_seat h
    rw [show (s.exec (.deliver conn packet cap)).2.seat = _ from hP]
    exact .forget .same P
  | composite => exact .of_eq s.quiet_composite.seat
  | reconfigure conn surface width height scale state =>
    exact .of_eq (s.quiet_reconfigure conn surface width height scale state).seat
  | setPointerFocus =>
    simp only [exec, Seen.ofPackets, setPointerFocus]
    split_ifs with hgrab
    · exact .same
    · exact .same
    · rw [seat_emitToTarget, seat_emitToTarget]
      exact .point (by simpa using hgrab) _
  | pointerMotion | pointerAxis => exact .of_eq (s.seat_emitToTarget _ _)
  | pointerButton button pressed =>
    show s.seat.Change _ (s.pointerButton button pressed).2.seat
    rcases ht : s.pointerTarget with _ | t
    · rw [pointerButton, ht]
      exact .same
    · rw [pointerButton_eq ht, seat_emitToTarget]
      exact .button rfl ht
  | setKeyboardFocus =>
    simp only [exec, Seen.ofPackets, setKeyboardFocus]
    split_ifs
    · exact .same
    · rw [seat_emitToTarget, seat_emitToTarget]
      exact .keys _ _ _
  | key usage pressed modifiers repeat_ =>
    have hkeys : ∀ held, s.seat.Change (.key usage pressed modifiers repeat_)
        { s.seat with heldKeys := held, modifiers } :=
      fun held => .keys s.seat.keyboardFocus held modifiers
    show s.seat.Change _ (s.key usage pressed modifiers repeat_).2.seat
    rcases s.key_cases usage pressed modifiers repeat_ with hr | ⟨t, -, ⟨keys, -, hr⟩ | hr⟩ <;>
      rw [hr]
    · exact hkeys s.seat.heldKeys
    · rw [seat_emitTo]
      exact hkeys keys
    · rw [inputOverflow]
      rw [seat_emitTo]
      exact (hkeys s.seat.heldKeys).dropConns h [t.1]
  | textInput =>
    simp only [exec, Seen.ofPackets, textInput]
    split
    · exact .same
    · split_ifs
      · exact .same
      · exact .of_eq (s.seat_emitTo _ _ _)

/-- **No call lets something grab the pointer that it is not on.** -/
theorem Seat.GrabsFocus.exec (h : s.seat.GrabsFocus) (call : Call) :
    (s.exec call).2.seat.GrabsFocus :=
  (s.seat_exec h call).grabsFocus h

end

/-- **A client cannot affect the others**: whatever it sends, the other connections stay as
they are, with what they hold of the seat, and the packets it gets in return are the same
from every server that is alike to it. -/
theorem deliver_isolated (calls : List Call) (k : ConnId) (packet : List UInt8)
    (cap : Option UInt64) :
    (∀ k', k' ≠ k →
      ((run calls).2.deliver k packet cap).2.conns[k']? = (run calls).2.conns[k']?) ∧
    Seat.KeepsOthers k (run calls).2.seat ((run calls).2.deliver k packet cap).2.seat ∧
    ∀ s' : Server, (run calls).2.Alike k s' →
      (s'.deliver k packet cap).1 = ((run calls).2.deliver k packet cap).1 := by
  have hgrab : (run calls).2.seat.GrabsFocus :=
    run_induct (P := fun _ s => s.seat.GrabsFocus) (fun t ht => by cases ht)
      (fun _ _ call h => h.exec call) calls
  refine ⟨fun k' hne => deliver_conns hne, ?_,
    fun s' h => (deliver_alike h packet cap).1⟩
  obtain ⟨P, hP, hseat⟩ := deliver_seat hgrab
  rw [hseat]
  exact keepsOthers_forget hP hgrab

end DunitOS.Gui
