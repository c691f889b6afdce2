import DunitOS.Gui.Isolation

/-!
# The limits of the seat

The protocol bounds what the seat holds: at most 256 keys and five buttons, and an event beyond
that ends the connection that has the focus. The server keeps the first bound and not the second.

`Server.Attended` is what every call preserves: what has the focus belongs to a
connection that is open, so that there is someone to be told, and no more than 256 keys are held.
The buttons stay within their bound exactly as long as nobody presses a sixth one
(`seat_bounded_iff`).
-/

namespace DunitOS.Gui

open Server List Seat Seen Nat

open SysLib Std

/-- The number of buttons that the protocol admits. -/
abbrev maxButtons : ℕ := 5

/-! ### Open connections -/

def Server.Open (s : Server) (k : ConnId) : Prop := ∃ c, s.conns[k]? = some c ∧ c.phase ≠ .closed

/-- No connection is closed or taken away. -/
def Server.KeepsOpen (s s' : Server) : Prop := ∀ k, s.Open k → s'.Open k

section

variable {s s' s'' : Server}

theorem Server.KeepsOpen.trans (h : s.KeepsOpen s') (h' : s'.KeepsOpen s'') : s.KeepsOpen s'' :=
  fun k hk => h' k (h k hk)

/-- An open connection may be replaced by another one. -/
theorem Server.keepsOpen_insert {k : ConnId} {c : Connection}
    (hconns : s'.conns = s.conns.insert k c) (hc : c.phase ≠ .closed) : s.KeepsOpen s' := by
  rintro k' ⟨c', hget, hopen⟩
  by_cases hk : k = k'
  · subst hk
    exact ⟨c, by rw [hconns, ExtTreeMap.getElem?_insert_self], hc⟩
  · exact ⟨c', by rw [hconns, getElem?_insert_of_ne hk, hget], hopen⟩

theorem Server.keepsOpen_emitTo (s : Server) (k : ConnId) (obj : ObjectId) (ev : Event) :
    s.KeepsOpen (s.emitTo k obj ev).2 := by
  rw [emitTo]
  rcases hget : s.conns[k]? with _ | c
  · exact fun _ h => h
  · dsimp only
    split_ifs with hclosed
    · exact fun _ h => h
    · refine keepsOpen_insert rfl ?_
      rw [Connection.send_eq]
      exact hclosed

theorem Server.keepsOpen_emitToTarget (s : Server) (t : Option Target) (ev : Event) :
    s.KeepsOpen (s.emitToTarget t ev).2 := by
  rcases t with _ | t
  · exact fun _ h => h
  · exact s.keepsOpen_emitTo t.1 t.2 ev

/-- A surface of an open connection may be replaced. -/
theorem Server.keepsOpen_put {c : Connection} {k : ConnId} (hget : s.conns[k]? = some c)
    (id : ObjectId) (v : Surface) :
    s.KeepsOpen { s with conns := s.conns.insert k (c.putSurface id v) } := by
  rintro k' ⟨c', hget', hopen⟩
  by_cases hk : k = k'
  · subst hk
    obtain rfl := Option.some.inj (hget.symm.trans hget')
    exact ⟨_, ExtTreeMap.getElem?_insert_self, hopen⟩
  · exact ⟨c', (getElem?_insert_of_ne hk).trans hget', hopen⟩

theorem Server.keepsOpen_composite (s : Server) : s.KeepsOpen s.composite.2 := by
  rintro k ⟨c, hget, hopen⟩
  obtain ⟨-, hconn⟩ := framesDone_conn _ s c hget hopen
  obtain ⟨o, ho, -⟩ := Connection.foldl_clearFrame c
  rw [ho] at hconn
  exact ⟨_, hconn, hopen⟩

theorem Server.keepsOpen_reconfigure (s : Server) (k : ConnId) (id : ObjectId)
    (width height scale state : UInt32) :
    s.KeepsOpen (s.reconfigure k id width height scale state).2 := by
  rw [reconfigure]
  split_ifs
  · exact fun _ h => h
  · rcases hget : s.conns[k]? with _ | c
    · exact fun _ h => h
    · dsimp only
      split_ifs
      · rcases hv : c.surfaceOf id with e | v
        · exact fun _ h => h
        · exact (keepsOpen_put hget id _).trans (keepsOpen_emitTo _ k id _)
      · exact fun _ h => h

end

/-! ### What has the focus is there -/

/-- Something has the pointer or the keyboard. -/
def Seat.Names (seat : Seat) (t : Target) : Prop :=
  seat.pointerFocus = some t ∨ seat.keyboardFocus = some t

/-- **What has the focus belongs to an open connection**, and the keys are within their bound. -/
structure Server.Attended (s : Server) : Prop where
  grab : s.seat.GrabsFocus
  named : ∀ t, s.seat.Names t → s.Open t.1
  keys : s.seat.heldKeys.length ≤ maxHeldKeys

theorem Server.attended_new : new.Attended where
  grab _ h := by cases h
  named t h := by rcases h with h | h <;> cases h
  keys := zero_le _

variable {seat : Seat} {t : Target}

theorem Seat.names_forget {P : Target → Bool}
    (h : (seat.forget P).Names t) : seat.Names t ∧ P t = false := by
  rw [forget_eq] at h
  rcases h with h | h <;> dsimp only at h
  · split_ifs at h with hp
    exact ⟨.inl h, by simpa [h] using hp⟩
  · split_ifs at h with hp
    exact ⟨.inr h, by simpa [h] using hp⟩

namespace Server.Attended

variable {s s' : Server}

/-- Connections may be closed if the seat forgets them. -/
theorem forget (h : s.Attended) {P : Target → Bool} (hseat : s'.seat = s.seat.forget P)
    (hopen : ∀ t, P t = false → s.Open t.1 → s'.Open t.1) : s'.Attended where
  grab := by
    rw [hseat]
    exact h.grab.forget P
  named t ht := by
    rw [hseat] at ht
    obtain ⟨ht, hP⟩ := names_forget ht
    exact hopen t hP (h.named t ht)
  keys := by
    rw [hseat, forget_eq]
    dsimp only
    split_ifs
    · exact zero_le _
    · exact h.keys

/-- The seat stays, and so do the connections. -/
theorem keep (h : s.Attended) (hseat : s'.seat = s.seat) (hopen : s.KeepsOpen s') : s'.Attended :=
  h.forget (hseat.trans s.seat.forget_nothing.symm) fun t _ => hopen t.1

/-- The seat is changed and a packet sent. -/
theorem emit (hgrab : seat.GrabsFocus)
    (hnames : ∀ t, seat.Names t → s.Open t.1) (hkeys : seat.heldKeys.length ≤ maxHeldKeys)
    (o : Option Target) (ev : Event) :
    (emitToTarget { s with seat } o ev).2.Attended := by
  have hopen := keepsOpen_emitToTarget { s with seat } o ev
  have hseat := seat_emitToTarget { s with seat } o ev
  refine ⟨?_, fun t ht => ?_, ?_⟩
  · rw [hseat]
    exact hgrab
  · rw [hseat] at ht
    exact hopen t.1 (hnames t ht)
  · rw [hseat]
    exact hkeys

theorem open_of_isMapped (h : s.isMapped t = true) : s.Open t.1 := by
  obtain ⟨c, hget, hactive, -⟩ := isMapped_iff.mp h
  exact ⟨c, hget, by rw [hactive]; decide⟩

section

variable (h : s.Attended)

include h

theorem disconnectPeer (k : ConnId) : (s.disconnectPeer k).Attended := by
  refine h.forget (dropConn_eq h.grab k) fun t ht ⟨c, hget, hopen⟩ => ⟨c, ?_, hopen⟩
  have hne : k ≠ t.1 := fun hk => by simp [hk] at ht
  exact (getElem?_erase_of_ne hne).trans hget

theorem tick (nowNs : UInt64) : (s.tick nowNs).2.Attended := by
  have hfold : ∀ (ids : List ConnId) (s : Server), s.Attended →
      (ids.foldl Server.disconnectPeer s).Attended := by
    intro ids
    induction ids with
    | nil => exact fun s h => h
    | cons id _ ih => exact fun s h => ih _ (h.disconnectPeer id)
  have h' := hfold (s.tick nowNs).1 s h
  rw [foldl_disconnectPeer_eq] at h'
  exact ⟨h'.grab, h'.named, h'.keys⟩

theorem connect : s.connect.2.Attended := by
  rw [Server.connect]
  split_ifs
  · exact h
  · exact h.keep rfl (keepsOpen_insert rfl (by simp [Connection.new]))

/-- A packet: a connection that is closed is forgotten. -/
theorem deliver (k : ConnId) (packet : List UInt8) (cap : Option UInt64) :
    (s.deliver k packet cap).2.Attended := by
  rcases deliver_cases s k packet cap with hr | ⟨c, hc, hopen⟩
  · rw [hr]
    exact h
  obtain ⟨r, ha, hr⟩ := deliver_eq hc hopen packet cap
  rw [hr]
  have hclosed : ∀ (c' : Connection) (n : UInt64), Server.Attended
      { s with nextClientId := n, conns := s.conns.insert k c', seat := s.seat.dropConn k } := by
    refine fun c' n => h.forget (dropConn_eq h.grab k) fun t ht ⟨d, hget, hd⟩ => ⟨d, ?_, hd⟩
    have hne : k ≠ t.1 := fun hk => by simp [hk] at ht
    exact (getElem?_insert_of_ne hne).trans hget
  cases ha with
  | undecodable | rejected | disconnected => exact hclosed _ _
  | refused => exact h.keep rfl (keepsOpen_insert rfl hopen)
  | accepted _ _ batch y _ _ _ _ _ he =>
    have hphase : y.conn.phase ≠ .closed := by
      rw [he.kept.phase]
      split_ifs
      · decide
      · exact hopen
    have hkeeps : s.KeepsOpen { s with
        nextClientId := y.nextClientId
        conns := s.conns.insert k (y.conn.bump batch.length)
        seat := y.seat } := keepsOpen_insert rfl hphase
    rcases he.seat_eq with hy | hy
    · exact h.keep hy hkeeps
    · exact h.forget (hy.trans (dropSurface_eq h.grab _)) fun t _ => hkeeps t.1

theorem setPointerFocus (target : Option Target) (x y : Int32) :
    (s.setPointerFocus target x y).2.Attended := by
  have hgrab := h.grab.exec (.setPointerFocus target x y)
  simp only [exec, ofPackets] at hgrab
  rw [Server.setPointerFocus] at hgrab ⊢
  split_ifs at hgrab ⊢
  · exact h
  · dsimp only at hgrab ⊢
    split_ifs at hgrab ⊢ with hsame
    · exact h
    · have h1 : (s.emitToTarget s.seat.pointerFocus .pointerLeave).2.Attended :=
        emit h.grab h.named h.keys _ _
      have hopen := s.keepsOpen_emitToTarget s.seat.pointerFocus .pointerLeave
      rw [seat_emitToTarget] at hgrab
      refine emit hgrab (fun t ht => ?_) h1.keys _ _
      rcases ht with ht | ht
      · exact hopen _ (open_of_isMapped (of_filter_isMapped ht))
      · exact h1.named t (.inr ht)

theorem setKeyboardFocus (target : Option Target) (modifiers : UInt32) :
    (s.setKeyboardFocus target modifiers).2.Attended := by
  rw [Server.setKeyboardFocus]
  split_ifs
  · exact h
  · have h1 : (s.emitToTarget s.seat.keyboardFocus .keyLeave).2.Attended :=
      emit h.grab h.named h.keys _ _
    have hopen := s.keepsOpen_emitToTarget s.seat.keyboardFocus .keyLeave
    refine emit ?_ (fun t ht => ?_) ?_ _ _
    · exact h1.grab
    · rcases ht with ht | ht
      · exact h1.named t (.inl ht)
      · exact hopen _ (open_of_isMapped (of_filter_isMapped ht))
    · exact zero_le _

theorem pointerButton (button : UInt32) (pressed : Bool) :
    (s.pointerButton button pressed).2.Attended := by
  rcases ht : s.pointerTarget with _ | t
  · rw [Server.pointerButton, ht]
    exact h
  · rw [pointerButton_eq ht]
    have hsame : (s.seat.afterButton t button pressed).pointerFocus = s.seat.pointerFocus ∧
        (s.seat.afterButton t button pressed).keyboardFocus = s.seat.keyboardFocus ∧
        (s.seat.afterButton t button pressed).heldKeys = s.seat.heldKeys := by
      rw [afterButton, pushButton]
      split_ifs <;> exact ⟨rfl, rfl, rfl⟩
    refine emit (h.grab.afterButton ht button pressed) (fun u hu => h.named u ?_) ?_ _ _
    · rwa [Seat.Names, hsame.1, hsame.2.1] at hu
    · rw [hsame.2.2]
      exact h.keys

/-- **The end of a connection** through too many keys: it is told, it is closed, and the seat
forgets it. -/
theorem inputOverflow_eq (ht : s.seat.Names t) :
    ∃ c, s.conns[t.1]? = some c ∧ s.inputOverflow t.1 =
      ([⟨t.1, 0, c.nextServerSerial, .error 0 ErrorCode.limitExceeded.code 1⟩], { s with
          conns := s.conns.insert t.1 { c.bump 1 with phase := .closed }
          seat := s.seat.forget fun u => u.1 == t.1 }) := by
  obtain ⟨c, hget, hopen⟩ := h.named t ht
  refine ⟨c, hget, ?_⟩
  rw [inputOverflow, emitTo_of_open hget hopen]
  rw [ExtTreeMap.getElem?_insert_self, dropConn_eq h.grab]
  dsimp only
  rw [insert_insert]

end

end Server.Attended

/-! ### Events beyond a bound -/

/-- A fresh press while as many keys are held as may be. -/
def Server.KeyOverflow (s : Server) (usage : UInt32) (pressed repeat_ : Bool) : Prop :=
  s.seat.keyboardFocus.isSome = true ∧ pressed = true ∧ repeat_ = false ∧
    usage ∉ s.seat.heldKeys ∧ maxHeldKeys ≤ s.seat.heldKeys.length

/-- A press of a button while five others are held. -/
def Server.ButtonOverflow (s : Server) : Call → Prop
  | .pointerButton button pressed => s.pointerTarget.isSome = true ∧ pressed = true ∧
    button ∉ s.seat.buttons ∧ maxButtons ≤ s.seat.buttons.length
  | _ => False

instance (s : Server) (call : Call) : Decidable (s.ButtonOverflow call) := by
  unfold Server.ButtonOverflow
  split <;> infer_instance

/-- An event that would exceed one of the bounds. -/
def Server.Overflows (s : Server) : Call → Prop
  | .key usage pressed _ repeat_ => s.KeyOverflow usage pressed repeat_
  | call => s.ButtonOverflow call

/-- Where an event goes. -/
def Server.inputTarget (s : Server) : Call → Option Target
  | .key .. => s.seat.keyboardFocus
  | _ => s.pointerTarget

/-- **The connection that has the focus is ended**: it is told so, it is closed, and nothing of the
seat is left to it. -/
structure Server.TearsDown (s : Server) (call : Call) (t : Target) : Prop where
  told : ∃ n, (s.exec call).1.sent = [⟨t.1, 0, n, .error 0 ErrorCode.limitExceeded.code 1⟩]
  closed : ¬(s.exec call).2.Open t.1
  focus : ∀ u, (s.exec call).2.seat.Names u ∨ (s.exec call).2.seat.grab = some u → u.1 ≠ t.1
  keys : ∀ u, s.seat.keyboardFocus = some u → u.1 = t.1 → (s.exec call).2.seat.heldKeys = []
  buttons : ∀ u, s.seat.pointerFocus = some u → u.1 = t.1 → (s.exec call).2.seat.buttons = []

structure Seat.Bounded (seat : Seat) : Prop where
  keys : seat.heldKeys.length ≤ maxHeldKeys
  buttons : seat.buttons.length ≤ maxButtons

/-- **What the protocol asks of an event**: the seat stays within its bounds, and an event that
would exceed them ends the connection that has the focus. -/
structure Server.SeatOk (s : Server) (call : Call) : Prop where
  bounded : (s.exec call).2.seat.Bounded
  torn : s.Overflows call → ∃ t, s.inputTarget call = some t ∧ s.TearsDown call t

variable {pressed repeat_ : Bool} {usage : UInt32}

/-- **A key beyond the bound** is one that the server treats as such. -/
theorem Server.key_of_overflow {s : Server}
    (h : s.KeyOverflow usage pressed repeat_) {modifiers : UInt32} :
    ∃ t, s.seat.keyboardFocus = some t ∧ s.key usage pressed modifiers repeat_ =
        inputOverflow { s with seat := { s.seat with modifiers } } t.1 := by
  obtain ⟨hfocus, rfl, rfl, hheld, hmax⟩ := h
  obtain ⟨t, ht⟩ := Option.isSome_iff_exists.mp hfocus
  refine ⟨t, ht, ?_⟩
  have hcontains : s.seat.heldKeys.contains usage = false := by simpa using hheld
  rw [key]
  simp only [ht, hcontains, hmax, if_true, if_false, Bool.false_eq_true]

/-- **A key within the bound**: whatever is held afterwards is within it too. -/
theorem Server.key_of_not_overflow {s : Server}
    (hkeys : s.seat.heldKeys.length ≤ maxHeldKeys) (h : ¬s.KeyOverflow usage pressed repeat_)
    {modifiers : UInt32} :
    ∃ keys o ev, keys.length ≤ maxHeldKeys ∧ s.key usage pressed modifiers repeat_ =
      emitToTarget { s with seat := { s.seat with modifiers, heldKeys := keys } } o ev := by
  have hidle : ∃ keys o ev, keys.length ≤ maxHeldKeys ∧
      (([], { s with seat := { s.seat with modifiers } }) : List Packet × Server) =
        emitToTarget { s with seat := { s.seat with modifiers, heldKeys := keys } } o ev :=
    ⟨s.seat.heldKeys, none, .keyLeave, hkeys, rfl⟩
  rw [key]
  dsimp only
  split
  · exact hidle
  next t ht =>
    split_ifs with hp hr hh hh hmax hh
    · exact ⟨s.seat.heldKeys, some t, _, hkeys, rfl⟩
    · exact hidle
    · exact ⟨s.seat.heldKeys, some t, _, hkeys, rfl⟩
    · exact absurd ⟨by rw [ht]; rfl, hp, by simpa using hr, by simpa using hh, hmax⟩ h
    · refine ⟨s.seat.heldKeys ++ [usage], some t, _, ?_, rfl⟩
      rw [length_append]
      exact Nat.lt_of_not_le hmax
    · exact ⟨_, some t, _, (length_filter_le _ _).trans hkeys, rfl⟩
    · exact hidle

section

variable {s : Server}

theorem Server.Attended.setModifiers (h : s.Attended) (modifiers : UInt32) :
    Server.Attended { s with seat := { s.seat with modifiers } } :=
  ⟨h.grab, h.named, h.keys⟩

/-- **What becomes of a key beyond the bound.** -/
theorem Server.Attended.tearsDown (h : s.Attended) {modifiers : UInt32}
    (hover : s.KeyOverflow usage pressed repeat_) :
    ∃ t, s.seat.keyboardFocus = some t ∧
      s.TearsDown (.key usage pressed modifiers repeat_) t := by
  obtain ⟨t, ht, hkey⟩ := key_of_overflow hover
  have h' := h.setModifiers modifiers
  obtain ⟨c, -, hover⟩ := h'.inputOverflow_eq (.inr ht)
  rw [hover] at hkey
  have hconns : (s.exec (.key usage pressed modifiers repeat_)).2.conns =
      s.conns.insert t.1 { c.bump 1 with phase := .closed } := congrArg (fun r => r.2.conns) hkey
  have hseat : (s.exec (.key usage pressed modifiers repeat_)).2.seat =
      Seat.forget (fun u => u.1 == t.1) { s.seat with modifiers } :=
    congrArg (fun r => r.2.seat) hkey
  refine ⟨t, ht, ⟨c.nextServerSerial, congrArg (fun r => r.1) hkey⟩, ?_, fun u hu hut => ?_,
    fun u hu hut => ?_, fun u hu hut => ?_⟩
  · rintro ⟨c', hget', hopen⟩
    rw [hconns, ExtTreeMap.getElem?_insert_self] at hget'
    cases hget'
    exact hopen rfl
  · -- what grabs the pointer has it, so that both were forgotten
    have hnames : (s.exec (.key usage pressed modifiers repeat_)).2.seat.Names u := by
      rcases hu with hu | hu
      · exact hu
      · rw [hseat] at hu ⊢
        exact .inl (Seat.GrabsFocus.forget (show Seat.GrabsFocus { s.seat with modifiers }
          from h.grab) _ u hu)
    rw [hseat] at hnames
    have hP := (names_forget hnames).2
    simp [hut] at hP
  · simp [hseat, forget_eq, hu, hut]
  · simp [hseat, forget_eq, hu, hut]

theorem Server.Attended.key (h : s.Attended) (usage : UInt32) (pressed : Bool) (modifiers : UInt32)
    (repeat_ : Bool) : (s.key usage pressed modifiers repeat_).2.Attended := by
  have h' := h.setModifiers modifiers
  by_cases hover : s.KeyOverflow usage pressed repeat_
  · obtain ⟨t, ht, hkey⟩ := key_of_overflow hover
    obtain ⟨c, hget, hover⟩ := h'.inputOverflow_eq (.inr ht)
    rw [hkey, hover]
    refine h'.forget rfl fun u hu ⟨d, hget, hd⟩ => ⟨d, ?_, hd⟩
    have hne : t.1 ≠ u.1 := fun htu => by simp [htu] at hu
    exact (getElem?_insert_of_ne hne).trans hget
  · obtain ⟨keys, o, ev, hkeys, hkey⟩ := key_of_not_overflow h.keys hover
    rw [hkey]
    refine emit ?_ ?_ ?_ o ev
    · exact h.grab
    · exact h.named
    · exact hkeys

theorem Server.Attended.textInput (h : s.Attended) (text : List Char) :
    (s.textInput text).2.Attended := by
  rw [Server.textInput]
  rcases ht : s.seat.keyboardFocus with _ | t
  · exact h
  · dsimp only
    split_ifs
    · exact h
    · exact emit h.grab h.named h.keys (some t) _

/-- **Every call finds someone to be told**, and keeps the keys within their bound. -/
theorem Server.Attended.exec (h : s.Attended) (call : Call) : (s.exec call).2.Attended := by
  cases call with
  | connect => exact h.connect
  | disconnectPeer k => exact h.disconnectPeer k
  | tick nowNs => exact h.tick nowNs
  | deliver k packet cap => exact h.deliver k packet cap
  | composite => exact h.keep s.quiet_composite.seat s.keepsOpen_composite
  | reconfigure k id width height scale state =>
    exact h.keep (s.quiet_reconfigure k id width height scale state).seat
      (s.keepsOpen_reconfigure k id width height scale state)
  | setPointerFocus target x y => exact h.setPointerFocus target x y
  | pointerMotion | pointerAxis => exact emit h.grab h.named h.keys _ _
  | pointerButton button pressed => exact h.pointerButton button pressed
  | setKeyboardFocus target modifiers => exact h.setKeyboardFocus target modifiers
  | key usage pressed modifiers repeat_ => exact h.key usage pressed modifiers repeat_
  | textInput text => exact h.textInput text

/-! ### Buttons -/

theorem Seat.length_afterButton (seat : Seat) (t : Target) (button : UInt32) (pressed : Bool) :
    (pressed = true → button ∈ seat.buttons) ∧
        (seat.afterButton t button pressed).buttons.length ≤ seat.buttons.length ∨
      pressed = true ∧ button ∉ seat.buttons ∧
        (seat.afterButton t button pressed).buttons.length = seat.buttons.length + 1 := by
  have hbuttons : (seat.afterButton t button pressed).buttons =
      (pushButton seat t button pressed).buttons := by
    rw [afterButton]
    split_ifs <;> rfl
  rw [hbuttons, pushButton]
  by_cases hp : pressed = true
  · rw [if_pos hp]
    by_cases hin : seat.buttons.contains button = true
    · exact .inl ⟨fun _ => by simpa using hin, by rw [if_pos hin]⟩
    · exact .inr ⟨hp, by simpa using hin, by rw [if_neg hin, length_append]; rfl⟩
  · rw [if_neg hp]
    exact .inl ⟨fun h => absurd h hp, length_filter_le _ _⟩

theorem Seat.length_forget (seat : Seat) {P : Target → Bool} :
    (seat.forget P).buttons.length ≤ seat.buttons.length := by
  rw [forget_eq]
  dsimp only
  split_ifs
  · exact zero_le _
  · exact Nat.le_refl _

/-- **Only a press makes the buttons more.** -/
theorem Server.length_buttons_exec (h : s.Attended) {call : Call}
    (hno : ∀ button pressed, call ≠ .pointerButton button pressed) :
    (s.exec call).2.seat.buttons.length ≤ s.seat.buttons.length := by
  have hchange := s.seat_exec h.grab call
  generalize (s.exec call).2.seat = seat at hchange ⊢
  induction hchange with
  | same | keys => exact Nat.le_refl _
  | forget _ P ih => exact (Seat.length_forget _).trans ih
  | point => exact zero_le _
  | button hcall => exact absurd hcall (hno _ _)

/-- **A button**: the buttons stay within their bound unless it is a sixth one, and then they do
not. -/
theorem Server.pointerButton_bounded_iff (hb : s.seat.buttons.length ≤ maxButtons)
    (button : UInt32) (pressed : Bool) :
    (s.pointerButton button pressed).2.seat.buttons.length ≤ maxButtons ↔
      ¬s.ButtonOverflow (.pointerButton button pressed) := by
  rcases ht : s.pointerTarget with _ | t
  · rw [pointerButton, ht, Server.ButtonOverflow, ht]
    simpa using hb
  · rw [pointerButton_eq ht, seat_emitToTarget, Server.ButtonOverflow, ht]
    rcases s.seat.length_afterButton t button pressed with ⟨hold, hle⟩ | ⟨hp, hnew, hlen⟩
    · refine ⟨?_, fun _ => hle.trans hb⟩
      rintro - ⟨-, hp, hnew, -⟩
      exact hnew (hold hp)
    · rw [hlen]
      refine ⟨fun hlt => ?_, fun hno => ?_⟩
      · rintro ⟨-, -, -, hmax⟩
        omega
      · exact Nat.lt_of_not_le fun hmax => hno ⟨rfl, hp, hnew, hmax⟩

/-- One event of a run that is within its bounds: what the protocol asks of it is met exactly if it
is not the press of a sixth button. -/
theorem Server.Attended.seatOk_iff (h : s.Attended) (hb : s.seat.buttons.length ≤ maxButtons)
    (call : Call) : s.SeatOk call ↔ ¬s.ButtonOverflow call := by
  have hkeys := (h.exec call).keys
  have hother : (∀ button pressed, call ≠ .pointerButton button pressed) →
      (s.exec call).2.seat.buttons.length ≤ maxButtons := fun hno =>
    (s.length_buttons_exec h hno).trans hb
  by_cases hbutton : ∃ button pressed, call = .pointerButton button pressed
  · obtain ⟨button, pressed, rfl⟩ := hbutton
    have hiff := s.pointerButton_bounded_iff hb button pressed
    exact ⟨fun hok => hiff.mp hok.bounded.buttons,
      fun hno => ⟨⟨hkeys, hiff.mpr hno⟩, fun hover => absurd hover hno⟩⟩
  have hno : ∀ button pressed, call ≠ .pointerButton button pressed :=
    fun button pressed hcall => hbutton ⟨button, pressed, hcall⟩
  have hnot : ¬s.ButtonOverflow call := fun hover => by
    cases call with
    | pointerButton button pressed => exact hno button pressed rfl
    | _ => exact hover
  refine ⟨fun _ => hnot, fun _ => ⟨⟨hkeys, hother hno⟩, fun hover => ?_⟩⟩
  cases call with
  | key => exact h.tearsDown hover
  | _ => exact absurd hover hnot

end

/-- What holds of a server whose calls were all within the bounds. -/
def Server.Within (s : Server) : Prop := s.Attended ∧ s.seat.buttons.length ≤ maxButtons

theorem Server.within_new : new.Within := ⟨attended_new, zero_le _⟩

/-- A run within the bounds has no sixth button. -/
theorem EveryCall.not_buttonOverflow {calls : List Call} (h : EveryCall Server.SeatOk new calls) :
    EveryCall (fun s call => ¬s.ButtonOverflow call) new calls := by
  refine EveryCall.imp (fun s call hs hok => ?_) within_new h
  exact ⟨(hs.1.seatOk_iff hs.2 call).mp hok, hs.1.exec call, hok.bounded.buttons⟩

/-- **The seat is within its bounds along a run exactly if nobody presses a sixth button**
while five others are held: then each call leaves at most 256 keys and five buttons, and an event
beyond a bound ends the connection that has the focus. -/
theorem seat_bounded_iff (calls : List Call) :
    EveryCall Server.SeatOk Server.new calls ↔
      EveryCall (fun s call => ¬s.ButtonOverflow call) Server.new calls := by
  refine ⟨EveryCall.not_buttonOverflow, ?_⟩
  refine EveryCall.imp (fun s call hs hno => ?_) within_new
  have hok := (hs.1.seatOk_iff hs.2 call).mpr hno
  exact ⟨hok, hs.1.exec call, hok.bounded.buttons⟩

/-- After any run what has the focus belongs to an open connection, a grab is on what has the
focus, and the keys are within their bound, whatever is pressed. -/
theorem run_attended (calls : List Call) : (run calls).2.Attended :=
  run_induct (P := fun _ s => s.Attended) attended_new (fun _ _ call h => h.exec call) calls

/-- A surface that has the pointer, and six buttons. -/
def sixButtons : List Call :=
  firstFrame ++ [.setPointerFocus (some (1, 1)) 0 0] ++
    (List.range 6).map fun i => .pointerButton (UInt32.ofNat i) true

/-- Six buttons are held, and the connection that has the pointer is still open. -/
theorem sixButtons_held : (run sixButtons).2.seat.buttons.length = 6 ∧
    ¬EveryCall Server.SeatOk Server.new sixButtons := by
  refine ⟨by decide +kernel, fun h => ?_⟩
  exact absurd h.not_buttonOverflow (by decide +kernel)

end DunitOS.Gui
