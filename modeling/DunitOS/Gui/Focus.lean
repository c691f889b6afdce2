import DunitOS.Gui.Objects
import DunitOS.Gui.Replies

/-!
# Focus

Input goes to the surface that has the focus, and the seat that says which one that is
belongs to no connection: it has to be told when a surface is unmapped or destroyed and
when a connection goes, in all the places where that happens.

As long as no connection takes the id of another that is still there, the seat is right at
all times, and each client sees its part of it: the protocol of one surface
(`Session`) admits pointer events only after an ENTER and before the LEAVE,
keys likewise, and a key is released only after it was pressed in the same session
(`run_focused`). Connection ids are numbers of 32 bits that wrap. A new
connection can get the id of the one that holds the focus, and with it the focus
(`focus_not_kept`).
-/

namespace DunitOS.Gui

open Server Seat List Option Connection Seen

open SysLib Std

variable {s : Server}

/-! ### The protocol of one surface -/

/-- Whether the pointer is on a surface, and the keys that are held on it if it has the
keyboard. -/
structure Session where
  pointer : Bool
  keys : Option (List UInt32)
  deriving DecidableEq, Repr

namespace Session

/-- Neither the pointer nor the keyboard. -/
def away : Session := ⟨false, none⟩

/-- A key goes down or up: only what is held can be released. -/
def onKey (usage : UInt32) (pressed : Bool) (held : List UInt32) : Option (List UInt32) :=
  if pressed then some (if held.contains usage then held else held ++ [usage])
  else if held.contains usage then some (held.filter (· != usage)) else none

/-- An event for the surface. -/
def onEvent (q : Session) : Event → Option Session
  | .pointerEnter .. => if q.pointer then none else some { q with pointer := true }
  | .pointerLeave => if q.pointer then some { q with pointer := false } else none
  | .pointerMotion .. | .pointerButton .. | .pointerAxis .. => if q.pointer then some q else none
  | .keyEnter _ => if q.keys.isSome then none else some { q with keys := some [] }
  | .keyLeave => if q.keys.isSome then some { q with keys := none } else none
  | .key _ usage pressed _ _ =>
    (q.keys.bind (onKey usage (pressed == 1))).map fun held => { q with keys := some held }
  | .textInput .. => if q.keys.isSome then some q else none
  | _ => some q

theorem onEvent_pointerEnter (q : Session) (x y : Int32) : q.onEvent (.pointerEnter x y) =
    if q.pointer then none else some { q with pointer := true } := rfl

theorem onEvent_pointerLeave (q : Session) : q.onEvent .pointerLeave =
    if q.pointer then some { q with pointer := false } else none := rfl

theorem onEvent_keyEnter (q : Session) (modifiers : UInt32) : q.onEvent (.keyEnter modifiers) =
    if q.keys.isSome then none else some { q with keys := some [] } := rfl

theorem onEvent_keyLeave (q : Session) : q.onEvent .keyLeave =
    if q.keys.isSome then some { q with keys := none } else none := rfl

theorem onEvent_key (q : Session) (timeNs : UInt64) (usage pressed modifiers repeat_ : UInt32) :
    q.onEvent (.key timeNs usage pressed modifiers repeat_) =
      (q.keys.bind (onKey usage (pressed == 1))).map fun held => { q with keys := some held } :=
  rfl

/-- A packet to the client: a fatal error ends everything. -/
def onPacket (i object : ObjectId) (q : Session) : Event → Option Session
  | .error _ _ fatal => if fatal = 1 then some away else some q
  | ev => if object = i then q.onEvent ev else some q

def read (i : ObjectId) (q : Session) (e : ObjectId × Event) : Option Session :=
  q.onPacket i e.1 e.2

/-- **The protocol of one surface.** -/
def step (i : ObjectId) (q : Session) : Item → Option Session
  | .accepted _ .disconnect => some away
  | .removed => some away
  | .sent p => q.onPacket i p.object p.event
  | _ => some q

end Session

open Session

/-- What the seat holds for a target. -/
def Seat.session (seat : Seat) (t : Target) : Session where
  pointer := seat.pointerFocus == some t
  keys := if seat.keyboardFocus = some t then some seat.heldKeys else none

/-- What grabs the pointer is what it is on. -/
def Seat.GrabsFocus (seat : Seat) : Prop := ∀ t, seat.grab = some t → seat.pointerFocus = some t

/-- **The seat is right** about a scene: what has the focus is mapped, and a button is down
exactly while the pointer is grabbed by what it is on. -/
structure Seat.Placed (mapped : Target → Bool) (seat : Seat) : Prop where
  pointer : ∀ t, seat.pointerFocus = some t → mapped t = true
  keyboard : ∀ t, seat.keyboardFocus = some t → mapped t = true
  grab_iff : seat.grab.isSome = true ↔ seat.buttons ≠ []
  grab_eq : seat.GrabsFocus

/-- The seat of a server is right about its surfaces. -/
def Server.Focused (s : Server) : Prop := s.seat.Placed s.isMapped

/-! ### Packets of one kind -/

/-- An event that no surface has to do with: neither input nor a fatal error. -/
def Event.isSilent : Event → Bool
  | .error _ _ fatal => fatal != 1
  | ev => !ev.isInput

variable {i : ObjectId}

section

variable {ev : Event}

theorem Event.not_isInput_of_isSilent (h : ev.isSilent = true) : ev.isInput ≠ true := by
  cases ev <;> first | exact Bool.false_ne_true | cases h

theorem Session.onPacket_of_isSilent (h : ev.isSilent = true) {i object : ObjectId}
    (q : Session) : q.onPacket i object ev = some q := by
  cases ev with
  | error => exact if_neg (bne_iff_ne.mp h)
  | _ => first | exact ite_self (some q) | cases h

theorem Session.onPacket_self (h : ev.isInput = true) (q : Session) :
    q.onPacket i i ev = q.onEvent ev := by
  cases ev <;> first | exact if_pos rfl | cases h

theorem Session.onPacket_of_ne (h : ev.isInput = true) {object : ObjectId} (hne : object ≠ i)
    (q : Session) : q.onPacket i object ev = some q := by
  cases ev <;> first | exact if_neg hne | cases h

end

/-! ### Changes of the seat -/

section

variable {mapped mapped' : Target → Bool} {seat : Seat} {k : ConnId} {t tgt : Target}

theorem Seat.placed_empty : empty.Placed mapped where
  pointer t h := by cases h
  keyboard t h := by cases h
  grab_iff := by simp [empty]
  grab_eq t h := by cases h

theorem Seat.Placed.mono (h : seat.Placed mapped)
    (hm : ∀ t, seat.pointerFocus = some t ∨ seat.keyboardFocus = some t →
      mapped t = true → mapped' t = true) : seat.Placed mapped' where
  pointer t ht := hm t (.inl ht) (h.pointer t ht)
  keyboard t ht := hm t (.inr ht) (h.keyboard t ht)
  grab_iff := h.grab_iff
  grab_eq := h.grab_eq

/-- The pointer events go to the focus, grabbed or not. -/
theorem Seat.Placed.target_eq (h : seat.Placed mapped) :
    seat.grab.or seat.pointerFocus = seat.pointerFocus := by
  rcases hg : seat.grab with _ | t
  · rfl
  · exact (h.grab_eq t hg).symm

def Seat.noPointer (seat : Seat) : Seat :=
  { seat with pointerFocus := none, buttons := [], grab := none }

def Seat.noKeyboard (seat : Seat) : Seat :=
  { seat with keyboardFocus := none, heldKeys := [], modifiers := 0 }

/-- The seat without the targets of a set. -/
def Seat.forget (P : Target → Bool) (seat : Seat) : Seat :=
  let seat := if seat.pointerFocus.any P then seat.noPointer else seat
  if seat.keyboardFocus.any P then seat.noKeyboard else seat

/-- What grabs the pointer is what it is on, so that the two are forgotten together. -/
theorem Seat.dropConn_eq (hgrab : seat.GrabsFocus) (k : ConnId) :
    seat.dropConn k = seat.forget fun t => t.1 == k := by
  obtain ⟨pointer, keyboard, grab, buttons, held, modifiers⟩ := seat
  rcases grab with _ | g
  · rcases pointer with _ | t
    · rfl
    · rcases h : t.1 == k <;>
        simp [dropConn, forget, holds, noPointer, noKeyboard, h]
  · obtain rfl : pointer = some g := hgrab g rfl
    rcases h : g.1 == k <;>
      simp [dropConn, forget, holds, noPointer, noKeyboard, h]

theorem Seat.dropSurface_eq (hgrab : seat.GrabsFocus) (tgt : Target) :
    (seat.dropSurface tgt).1 = seat.forget fun t => t == tgt := by
  obtain ⟨pointer, keyboard, grab, buttons, held, modifiers⟩ := seat
  rcases grab with _ | g
  · rcases pointer with _ | t
    · rcases keyboard with _ | u <;> simp [dropSurface, forget, noKeyboard]
    · by_cases h : t = tgt <;> rcases keyboard with _ | u <;>
        simp [dropSurface, forget, noPointer, noKeyboard, h]
  · obtain rfl : pointer = some g := hgrab g rfl
    by_cases h : g = tgt <;> rcases keyboard with _ | u <;>
      simp [dropSurface, forget, noPointer, noKeyboard, h]

section

variable (P : Target → Bool) (seat : Seat)

theorem Seat.forget_eq : seat.forget P =
    ⟨if seat.pointerFocus.any P then none else seat.pointerFocus,
      if seat.keyboardFocus.any P then none else seat.keyboardFocus,
      if seat.pointerFocus.any P then none else seat.grab,
      if seat.pointerFocus.any P then [] else seat.buttons,
      if seat.keyboardFocus.any P then [] else seat.heldKeys,
      if seat.keyboardFocus.any P then 0 else seat.modifiers⟩ := by
  rcases hp : seat.pointerFocus.any P <;> rcases hk : seat.keyboardFocus.any P <;>
    simp [forget, noPointer, noKeyboard, hp, hk]

/-- What is forgotten is away, and the rest is as it was. -/
theorem Seat.session_forget (t : Target) :
    (seat.forget P).session t = if P t then away else seat.session t := by
  have hkeep : ∀ {o : Option Target}, (if o.any P then none else o) = some t ↔
      o = some t ∧ P t = false := by
    intro o
    rcases o with _ | u
    · simp
    · rcases hu : P u <;> simp [hu]
      · rintro rfl
        exact hu
      · rintro rfl
        exact hu
  simp only [session, forget_eq, Bool.beq_eq_decide_eq, hkeep]
  rcases ht : P t
  · by_cases hk : seat.keyboardFocus = some t <;> simp [hk, ht]
  · simp [away]

end

theorem Seat.GrabsFocus.forget (h : seat.GrabsFocus) (P : Target → Bool) :
    (seat.forget P).GrabsFocus := by
  intro t ht
  rw [forget_eq] at ht ⊢
  dsimp only at ht ⊢
  split_ifs at ht ⊢ with hp
  exact h t ht

theorem Seat.Placed.forget (h : seat.Placed mapped) {P : Target → Bool}
    (hm : ∀ t, P t = false → mapped t = true → mapped' t = true) :
    (seat.forget P).Placed mapped' where
  pointer t ht := by
    rw [forget_eq] at ht
    dsimp only at ht
    split_ifs at ht with hp
    exact hm t (by simpa [ht] using hp) (h.pointer t ht)
  keyboard t ht := by
    rw [forget_eq] at ht
    dsimp only at ht
    split_ifs at ht with hk
    exact hm t (by simpa [ht] using hk) (h.keyboard t ht)
  grab_iff := by
    rw [forget_eq]
    dsimp only
    split_ifs
    · simp
    · exact h.grab_iff
  grab_eq := h.grab_eq.forget P

theorem Seat.dropSurface_snd (seat : Seat) (tgt : Target) : (seat.dropSurface tgt).2 =
      (if seat.pointerFocus = some tgt then [(tgt.2, Event.pointerLeave)] else []) ++
        if seat.keyboardFocus = some tgt then [(tgt.2, Event.keyLeave)] else [] := by
  by_cases hp : seat.pointerFocus = some tgt <;> by_cases hg : seat.grab = some tgt <;>
    simp [dropSurface, hp, hg]

/-- **A surface that is dropped gets its leave events**, and is away then. -/
theorem Seat.leads_dropSurface (seat : Seat) (tgt : Target) :
    Leads (read tgt.2) (seat.session tgt) (seat.dropSurface tgt).2 away := by
  have hkeys : Leads (read tgt.2)
      ⟨false, if seat.keyboardFocus = some tgt then some seat.heldKeys else none⟩
      (if seat.keyboardFocus = some tgt then [(tgt.2, Event.keyLeave)] else []) away := by
    split_ifs
    · exact leads_singleton (onPacket_self rfl _)
    · exact leads_nil
  rw [dropSurface_snd]
  refine Leads.append ?_ hkeys
  by_cases hp : seat.pointerFocus = some tgt
  · rw [if_pos hp]
    refine leads_singleton ((onPacket_self rfl _).trans ?_)
    simp [onEvent_pointerLeave, session, hp]
  · rw [if_neg hp, session, beq_eq_false_iff_ne.mpr hp]
    exact leads_nil

end

/-! ### The scene -/

/-- A connection shows a surface. -/
def Connection.Shows (c : Connection) (i : ObjectId) : Prop :=
  c.phase = .active ∧ ∃ s, c.objects[i]? = some (.surface s) ∧ s.mapped = true

variable {conn : ConnId} {ev : Event}

section

variable {s s' : Server} {k : ConnId} {c c' : Connection} {t : Target}

theorem Server.isMapped_iff : s.isMapped t = true ↔ ∃ c, s.conns[t.1]? = some c ∧ c.Shows t.2 := by
  rw [isMapped]
  rcases s.conns[t.1]? with _ | c
  · simp
  · rcases hs : c.surfaceOf t.2 with e | v
    · have hno : ∀ v, c.objects[t.2]? ≠ some (.surface v) := fun v hv => by
        rw [surfaceOf_eq_ok.mpr hv] at hs
        cases hs
      simp [Connection.Shows, hs, hno]
    · simp [Connection.Shows, hs, surfaceOf_eq_ok.mp hs]

/-- What was shown is still shown. -/
theorem Server.isMapped_of_conn (h : s.isMapped t = true)
    (hc : ∀ c, s.conns[t.1]? = some c → c.Shows t.2 →
      ∃ c', s'.conns[t.1]? = some c' ∧ c'.Shows t.2) : s'.isMapped t = true := by
  obtain ⟨c, hget, hshows⟩ := isMapped_iff.mp h
  exact isMapped_iff.mpr (hc c hget hshows)

/-- A connection is replaced by one that shows as much. -/
theorem Server.isMapped_insert (hget : s.conns[k]? = some c)
    (hconns : s'.conns = s.conns.insert k c') (hc : ∀ i, c.Shows i → c'.Shows i)
    (h : s.isMapped t = true) : s'.isMapped t = true := by
  refine isMapped_of_conn h fun c1 hget1 hshows => ?_
  rw [hconns]
  by_cases hk : k = t.1
  · subst hk
    obtain rfl := some.inj (hget.symm.trans hget1)
    exact ⟨c', ExtTreeMap.getElem?_insert_self, hc _ hshows⟩
  · exact ⟨c1, (getElem?_insert_of_ne hk).trans hget1, hshows⟩

/-! ### Sending one event -/

theorem Server.emitTo_of_open (hget : s.conns[k]? = some c) (hopen : c.phase ≠ .closed)
    (obj : ObjectId) (ev : Event) : s.emitTo k obj ev =
      ([⟨k, obj, c.nextServerSerial, ev⟩], { s with conns := s.conns.insert k (c.bump 1) }) := by
  simp [emitTo, hget, hopen, send_eq, numbered]

theorem Server.emitTo_of_shows (h : s.isMapped t = true) :
    ∃ n s', s.emitTo t.1 t.2 ev = ([⟨t.1, t.2, n, ev⟩], s') := by
  obtain ⟨c, hget, hactive, -⟩ := isMapped_iff.mp h
  exact ⟨_, _, emitTo_of_open hget (by rw [hactive]; decide) t.2 ev⟩

theorem Server.of_mem_emitTo {obj : ObjectId} {p : Packet}
    (h : p ∈ (s.emitTo conn obj ev).1) : p.conn = conn ∧ p.object = obj ∧ p.event = ev := by
  rw [emitTo] at h
  rcases hget : s.conns[conn]? with _ | c <;> rw [hget] at h
  · cases h
  · dsimp only at h
    split_ifs at h
    · cases h
    · rw [send_eq, numbered, numbered, mem_singleton] at h
      subst h
      exact ⟨rfl, rfl, rfl⟩

theorem Server.seat_emitTo (s : Server) (conn : ConnId) (obj : ObjectId) (ev : Event) :
    (s.emitTo conn obj ev).2.seat = s.seat := by
  rw [emitTo]
  rcases s.conns[conn]? with _ | c
  · rfl
  · dsimp only
    split_ifs <;> rfl

theorem Server.emitTo_seat (s : Server) {seat : Seat} {obj : ObjectId}
    : emitTo { s with seat } conn obj ev =
      ((s.emitTo conn obj ev).1, { (s.emitTo conn obj ev).2 with seat }) := by
  rw [emitTo, emitTo]
  rcases s.conns[conn]? with _ | c
  · rfl
  · dsimp only
    split_ifs <;> rfl

theorem Server.isMapped_emitTo {obj : ObjectId}
    (h : s.isMapped t = true) : (s.emitTo conn obj ev).2.isMapped t = true := by
  rw [emitTo]
  rcases hget : s.conns[conn]? with _ | c
  · exact h
  · dsimp only
    split_ifs
    · exact h
    · rw [send_eq]
      exact isMapped_insert hget rfl (fun i hi => hi) h

theorem Server.seat_emitToTarget (s : Server) (o : Option Target) (ev : Event) :
    (s.emitToTarget o ev).2.seat = s.seat := by
  cases o with
  | none => rfl
  | some u => exact s.seat_emitTo u.1 u.2 ev

theorem Server.isMapped_emitToTarget {o : Option Target}
    (h : s.isMapped t = true) : (s.emitToTarget o ev).2.isMapped t = true := by
  cases o with
  | none => exact h
  | some u => exact isMapped_emitTo h

end

/-- A target hears the packets of its connection. -/
def Session.hears (t : Target) (q : Session) (p : Packet) : Option Session :=
  if p.conn = t.1 then q.onPacket t.2 p.object p.event else some q

theorem Session.leads_items {t : Target} {q q' : Session} {sent : List Packet}
    (h : Leads (hears t) q sent q') :
    Leads (step t.2) q ((sent.filter fun p => p.conn = t.1).map Item.sent) q' := by
  induction sent generalizing q with
  | nil => exact h
  | cons p _ ih =>
    rw [Leads, foldlM_cons] at h
    obtain ⟨q1, h1, h2⟩ := bind_eq_some_iff.mp h
    rw [hears] at h1
    by_cases hp : p.conn = t.1
    · rw [if_pos hp] at h1
      rw [filter_cons_of_pos (by simpa using hp), map_cons]
      exact leads_cons h1 (ih h2)
    · rw [if_neg hp] at h1
      rw [filter_cons_of_neg (by simpa using hp), some.inj h1]
      exact ih h2

variable {o : Option Target}

/-- **One input event**: what it means for the target it is sent to, and nothing for the
others. -/
theorem Server.heard_emitToTarget {a b : Seat}
    (ho : ∀ u, o = some u → s.isMapped u = true) (hin : ev.isInput = true)
    (hself : ∀ u, o = some u → (a.session u).onEvent ev = some (b.session u))
    (hother : ∀ t, o ≠ some t → b.session t = a.session t) {t : Target} :
    Leads (hears t) (a.session t) (s.emitToTarget o ev).1 (b.session t) := by
  cases o with
  | none =>
    rw [hother t (by simp)]
    exact leads_nil
  | some u =>
    obtain ⟨n, s', hemit⟩ := emitTo_of_shows (ho u rfl)
    rw [emitToTarget, hemit]
    refine leads_singleton ?_
    rw [hears]
    by_cases hu : u = t
    · subst hu
      rw [if_pos rfl, onPacket_self hin]
      exact hself u rfl
    · rw [hother t (by simpa using hu)]
      split_ifs with hconn
      · exact onPacket_of_ne hin (fun hobj => hu (Prod.ext hconn hobj)) _
      · rfl

/-! ### Input -/

/-- The input events among some packets are for mapped surfaces. -/
def Server.Aims (s : Server) (sent : List Packet) : Prop :=
  ∀ p ∈ sent, p.event.isInput = true → s.isMapped (p.conn, p.object) = true

variable {s' : Server}

section

variable {s : Server} {sent sent' : List Packet}

theorem Server.aims_nil : s.Aims [] := fun p hp => by cases hp

theorem Server.aims_of_isSilent (h : ∀ p ∈ sent, p.event.isSilent = true) : s.Aims sent :=
  fun p hp hin => absurd hin (Event.not_isInput_of_isSilent (h p hp))

theorem Server.Aims.append (h : s.Aims sent) (h' : s.Aims sent') : s.Aims (sent ++ sent') :=
  fun p hp => (mem_append.mp hp).elim (h p) (h' p)

theorem Server.aims_emitToTarget (ho : ∀ u, o = some u → s.isMapped u = true) :
    s.Aims (s'.emitToTarget o ev).1 := by
  cases o with
  | none => exact aims_nil
  | some u =>
    intro p hp _
    obtain ⟨hconn, hobject, -⟩ := of_mem_emitTo hp
    rw [hconn, hobject]
    exact ho u rfl

end

/-- **A call that keeps the seat right**: input is for mapped surfaces, and every target
hears its part. -/
structure Server.Obeys (s : Server) (r : List Packet × Server) : Prop where
  focused : r.2.Focused
  aims : s.Aims r.1
  heard : ∀ t, Leads (Session.hears t) (s.seat.session t) r.1 (r.2.seat.session t)

section

variable {s : Server}

theorem Server.Focused.idle (hs : s.Focused) : s.Obeys ([], s) := ⟨hs, aims_nil, fun _ => leads_nil⟩

/-- One event for a target, or for none, after the seat has been changed. -/
theorem Server.obeys_emitToTarget (seat : Seat)
    (hplaced : seat.Placed s.isMapped) (ho : ∀ u, o = some u → s.isMapped u = true)
    (hin : ev.isInput = true)
    (hself : ∀ u, o = some u → (s.seat.session u).onEvent ev = some (seat.session u))
    (hother : ∀ t, o ≠ some t → seat.session t = s.seat.session t) :
    s.Obeys (emitToTarget { s with seat } o ev) := by
  refine ⟨?_, aims_emitToTarget ho, fun t => ?_⟩
  · rw [Server.Focused, seat_emitToTarget]
    exact hplaced.mono fun t _ ht => isMapped_emitToTarget ht
  · rw [seat_emitToTarget]
    exact heard_emitToTarget (s := { s with seat }) ho hin hself hother

variable {seat : Seat}

/-- **A focus that moves**: the old target is told to leave and the new one to enter, with
nothing in between. -/
theorem Server.obeys_refocus (mid : Seat) {o' : Option Target} {leave enter : Event}
    (ho : ∀ u, o = some u → s.isMapped u = true) (ho' : ∀ u, o' = some u → s.isMapped u = true)
    (hin : leave.isInput = true) (hin' : enter.isInput = true)
    (hleave : ∀ u, o = some u → (s.seat.session u).onEvent leave = some (mid.session u))
    (hother : ∀ t, o ≠ some t → mid.session t = s.seat.session t)
    (henter : ∀ u, o' = some u → (mid.session u).onEvent enter = some (seat.session u))
    (hother' : ∀ t, o' ≠ some t → seat.session t = mid.session t)
    (hplaced : seat.Placed s.isMapped) :
    s.Obeys ((s.emitToTarget o leave).1 ++
        (emitToTarget { (s.emitToTarget o leave).2 with seat } o' enter).1,
      (emitToTarget { (s.emitToTarget o leave).2 with seat } o' enter).2) := by
  have hmapped : ∀ t, s.isMapped t = true →
      isMapped { (s.emitToTarget o leave).2 with seat } t = true := fun t ht =>
    isMapped_emitToTarget ht
  refine ⟨?_, (aims_emitToTarget ho).append (aims_emitToTarget ho'), fun t => ?_⟩
  · rw [Server.Focused, seat_emitToTarget]
    exact hplaced.mono fun t _ ht => isMapped_emitToTarget (hmapped t ht)
  · rw [seat_emitToTarget]
    exact (heard_emitToTarget ho hin hleave hother).append
      (heard_emitToTarget (fun u hu => hmapped u (ho' u hu)) hin' henter hother')

theorem Server.of_filter_isMapped {target : Option Target} {u : Target}
    (h : target.filter s.isMapped = some u) : s.isMapped u = true :=
  (filter_eq_some_iff.mp h).2

section

variable (hs : s.Focused)

include hs

/-- The pointer moves to another surface, or off all of them. -/
theorem Server.Focused.setPointerFocus (target : Option Target) (x y : Int32) :
    s.Obeys (s.setPointerFocus target x y) := by
  rw [Server.setPointerFocus]
  split_ifs with hgrab
  · exact hs.idle
  · dsimp only
    split_ifs with hsame
    · exact hs.idle
    · rw [seat_emitToTarget]
      refine obeys_refocus { s.seat with pointerFocus := none } hs.pointer
        (fun u hu => of_filter_isMapped hu) rfl rfl (fun u hu => ?_) (fun t ht => ?_)
        (fun u hu => ?_) (fun t ht => ?_)
        ⟨fun t ht => of_filter_isMapped ht, hs.keyboard, ?_, ?_⟩
      · simp [onEvent_pointerLeave, session, hu]
      · simp [session, ht]
      · simp [onEvent_pointerEnter, session, hu]
      · simp [session, ht]
      · simpa using hgrab
      · rintro t ht
        rw [ht] at hgrab
        exact absurd rfl hgrab

/-- The keyboard moves to another surface, or off all of them. -/
theorem Server.Focused.setKeyboardFocus (target : Option Target)
    (modifiers : UInt32) : s.Obeys (s.setKeyboardFocus target modifiers) := by
  rw [Server.setKeyboardFocus]
  dsimp only
  split_ifs with hsame
  · exact hs.idle
  · rw [seat_emitToTarget]
    refine obeys_refocus { s.seat with keyboardFocus := none } hs.keyboard
      (fun u hu => of_filter_isMapped hu) rfl rfl (fun u hu => ?_) (fun t ht => ?_)
      (fun u hu => ?_) (fun t ht => ?_)
      ⟨hs.pointer, fun t ht => of_filter_isMapped ht, hs.grab_iff, hs.grab_eq⟩
    · simp [onEvent_keyLeave, session, hu]
    · simp [session, ht]
    · simp [onEvent_keyEnter, session, hu]
    · simp [session, ht]

/-- Pointer events go to the surface the pointer is on. -/
theorem Server.Focused.pointerTarget_eq : s.pointerTarget = s.seat.pointerFocus :=
  hs.target_eq

theorem Server.Focused.pointerEvent (hin : ev.isInput = true)
    (hev : ∀ q : Session, q.pointer = true → q.onEvent ev = some q) :
    s.Obeys (s.emitToTarget s.pointerTarget ev) := by
  rw [hs.pointerTarget_eq]
  exact obeys_emitToTarget s.seat hs hs.pointer hin
    (fun u hu => hev _ (by simp [session, hu])) fun t _ => rfl

theorem Server.Focused.pointerMotion (x y : Int32) : s.Obeys (s.pointerMotion x y) :=
  hs.pointerEvent rfl fun _ hq => if_pos hq

theorem Server.Focused.pointerAxis (dx dy : Int32) : s.Obeys (s.pointerAxis dx dy) :=
  hs.pointerEvent rfl fun _ hq => if_pos hq

end

/-- The seat after a button: the grab ends with the last one. -/
def Seat.afterButton (seat : Seat) (t : Target) (button : UInt32) (pressed : Bool) : Seat :=
  let seat := pushButton seat t button pressed
  if !pressed && seat.buttons.isEmpty then { seat with grab := none } else seat

theorem Seat.Placed.afterButton {mapped : Target → Bool} {t : Target}
    (h : seat.Placed mapped) (ht : seat.pointerFocus = some t) (button : UInt32) (pressed : Bool) :
    (seat.afterButton t button pressed).Placed mapped := by
  cases pressed with
  | true =>
    have hbuttons : (seat.afterButton t button true).buttons ≠ [] := by
      change (if seat.buttons.contains button then seat.buttons else seat.buttons ++ [button]) ≠ []
      split_ifs with hb
      · exact ne_nil_of_mem (contains_iff_mem.mp hb)
      · simp
    rcases hg : seat.grab with _ | g
    · refine ⟨h.pointer, h.keyboard, iff_of_true ?_ hbuttons, fun u hu => ?_⟩
      · simp [Seat.afterButton, pushButton, hg]
      · simp only [Seat.afterButton, pushButton, hg] at hu
        exact ht.trans hu
    · have hgrab : (seat.afterButton t button true).grab = some g := by
        simp [Seat.afterButton, pushButton, hg]
      exact ⟨h.pointer, h.keyboard, iff_of_true (by rw [hgrab]; rfl) hbuttons, fun u hu =>
        h.grab_eq u (hg.trans (hgrab.symm.trans hu))⟩
  | false =>
    rcases hb : (seat.buttons.filter (· != button)).isEmpty
    · have hafter : seat.afterButton t button false =
          { seat with buttons := seat.buttons.filter (· != button) } := by
        simp [Seat.afterButton, pushButton, hb]
      have hne : seat.buttons.filter (· != button) ≠ [] := isEmpty_eq_false_iff.mp hb
      rw [hafter]
      refine ⟨h.pointer, h.keyboard, iff_of_true (h.grab_iff.mpr fun hnil => ?_) hne, h.grab_eq⟩
      rw [hnil] at hne
      exact hne rfl
    · have hafter : seat.afterButton t button false =
          { seat with buttons := seat.buttons.filter (· != button), grab := none } := by
        simp [Seat.afterButton, pushButton, hb]
      rw [hafter]
      exact ⟨h.pointer, h.keyboard, by simpa using hb, fun u hu => by cases hu⟩

theorem Seat.session_afterButton (seat : Seat) (t : Target) (button : UInt32) (pressed : Bool)
    (u : Target) : (seat.afterButton t button pressed).session u = seat.session u := by
  rw [afterButton, pushButton]
  split_ifs <;> rfl

theorem Server.pointerButton_eq {t : Target} (ht : s.pointerTarget = some t) (button : UInt32)
    (pressed : Bool) : s.pointerButton button pressed =
      emitToTarget { s with seat := s.seat.afterButton t button pressed } (some t)
        (.pointerButton s.nowNs button (asU32 pressed)) := by
  rw [pointerButton, ht, afterButton]
  dsimp only
  rw [seat_emitTo, emitToTarget]
  split_ifs with hlast
  · exact (emitTo_seat { s with seat := pushButton s.seat t button pressed }).symm
  · rfl

theorem Server.Focused.pointerButton (hs : s.Focused) (button : UInt32) (pressed : Bool) :
    s.Obeys (s.pointerButton button pressed) := by
  rcases ht : s.seat.pointerFocus with _ | t
  · rw [Server.pointerButton, hs.pointerTarget_eq, ht]
    exact hs.idle
  · rw [pointerButton_eq (hs.pointerTarget_eq.trans ht)]
    refine obeys_emitToTarget _ (Seat.Placed.afterButton hs ht button pressed)
      (fun u hu => hs.pointer u (ht.trans hu)) rfl (fun u hu => ?_) fun u _ =>
        s.seat.session_afterButton t button pressed u
    rw [session_afterButton]
    exact if_pos (by simp [session, ht, hu])

/-- A connection that is closed with a fatal error is forgotten. -/
theorem Session.hears_fatal {t : Target} (q : Session) {k : ConnId} {object n : UInt64}
    {request : UInt64} {code : UInt32} :
    q.hears t ⟨k, object, n, .error request code 1⟩ = some (if t.1 == k then away else q) := by
  by_cases hk : k = t.1
  · simp [hears, onPacket, hk]
  · simp [hears, hk, Ne.symm hk]

/-- Too many keys: the connection is closed, and forgotten. -/
theorem Server.Focused.inputOverflow (hs : s.Focused) {t : Target} (ht : s.isMapped t = true) :
    s.Obeys (s.inputOverflow t.1) := by
  obtain ⟨c, hget, hactive, -⟩ := isMapped_iff.mp ht
  have hdrop := dropConn_eq hs.grab_eq t.1
  rw [Server.inputOverflow, emitTo_of_open hget (by rw [hactive]; decide)]
  rw [ExtTreeMap.getElem?_insert_self, hdrop]
  refine ⟨?_, fun p hp hin => ?_, fun u => ?_⟩
  · refine Seat.Placed.forget hs fun u hu hmapped => ?_
    have hne : t.1 ≠ u.1 := fun h => by simp [h] at hu
    refine isMapped_of_conn hmapped fun c' hget' hshows => ⟨c', ?_, hshows⟩
    rwa [getElem?_insert_of_ne hne, getElem?_insert_of_ne hne]
  · rw [mem_singleton.mp hp] at hin
    cases hin
  · rw [session_forget]
    exact leads_singleton (hears_fatal _)

theorem asU32_eq_one (b : Bool) : (asU32 b == 1) = b := by cases b <;> rfl

/-- **What a key does**: it changes the keys that are held, and is sent; or it is one too
many; or it is suppressed. -/
theorem Server.key_cases (s : Server) (usage : UInt32) (pressed : Bool) (modifiers : UInt32)
    (repeat_ : Bool) :
    s.key usage pressed modifiers repeat_ = ([], { s with seat := { s.seat with modifiers } }) ∨
    ∃ t, s.seat.keyboardFocus = some t ∧ ((∃ keys, onKey usage pressed s.seat.heldKeys = some keys ∧
        s.key usage pressed modifiers repeat_ = emitTo
          { s with seat := { s.seat with modifiers, heldKeys := keys } } t.1 t.2
          (.key s.nowNs usage (asU32 pressed) modifiers (asU32 (pressed && repeat_)))) ∨
      s.key usage pressed modifiers repeat_ =
        inputOverflow { s with seat := { s.seat with modifiers } } t.1) := by
  rw [key]
  dsimp only
  split
  · exact .inl rfl
  next t ht =>
    have hpress : pressed = true → onKey usage pressed s.seat.heldKeys =
        some (if s.seat.heldKeys.contains usage then s.seat.heldKeys
          else s.seat.heldKeys ++ [usage]) := fun hp => by rw [onKey, if_pos hp]
    split_ifs with hp hr hh hh hmax hh
    · exact .inr ⟨t, ht, .inl ⟨_, (hpress hp).trans (by rw [if_pos hh]), rfl⟩⟩
    · exact .inl rfl
    · exact .inr ⟨t, ht, .inl ⟨_, (hpress hp).trans (by rw [if_pos hh]), rfl⟩⟩
    · exact .inr ⟨t, ht, .inr rfl⟩
    · exact .inr ⟨t, ht, .inl ⟨_, (hpress hp).trans (by rw [if_neg hh]), rfl⟩⟩
    · exact .inr ⟨t, ht, .inl ⟨_, by rw [onKey, if_neg hp, if_pos hh], rfl⟩⟩
    · exact .inl rfl

theorem Server.Focused.key (hs : s.Focused) (usage : UInt32) (pressed : Bool)
    (modifiers : UInt32) (repeat_ : Bool) : s.Obeys (s.key usage pressed modifiers repeat_) := by
  have hs' : Server.Focused { s with seat := { s.seat with modifiers } } :=
    ⟨hs.pointer, hs.keyboard, hs.grab_iff, hs.grab_eq⟩
  rcases s.key_cases usage pressed modifiers repeat_ with hr | ⟨t, ht, ⟨keys, hkeys, hr⟩ | hr⟩ <;>
    rw [hr]
  · exact ⟨hs', aims_nil, fun _ => leads_nil⟩
  · refine obeys_emitToTarget { s.seat with modifiers, heldKeys := keys }
      ⟨hs.pointer, hs.keyboard, hs.grab_iff, hs.grab_eq⟩
      (fun u hu => hs.keyboard u (ht.trans hu)) rfl (fun u hu => ?_) fun u hu => ?_
    · simp [onEvent_key, session, ht, hu, asU32_eq_one, hkeys]
    · simp [session, ht, hu]
  · have := hs'.inputOverflow (hs.keyboard t ht)
    exact ⟨this.focused, this.aims, this.heard⟩

theorem Server.Focused.textInput (hs : s.Focused) (text : List Char) :
    s.Obeys (s.textInput text) := by
  rw [Server.textInput]
  rcases ht : s.seat.keyboardFocus with _ | t
  · exact hs.idle
  · dsimp only
    split_ifs
    · exact hs.idle
    · refine obeys_emitToTarget s.seat hs
        (fun u hu => hs.keyboard u (ht.trans hu)) rfl (fun u hu => ?_) fun _ _ => rfl
      exact if_pos (by simp [session, ht, hu])

end

/-! ### Requests -/

variable {v : Surface}

variable {c' : Connection} {v' : Surface}

section

variable {c : Connection} {i id : ObjectId}

theorem Connection.Shows.congr (h : c.Shows i) (hphase : c'.phase = c.phase)
    (hget : c'.objects[i]? = c.objects[i]?) : c'.Shows i := by
  rw [Connection.Shows, hphase, hget]
  exact h

theorem Connection.Shows.putSurface (h : c.Shows i)
    (hv : id = i → v.mapped = true) : (c.putSurface id v).Shows i := by
  obtain ⟨hactive, s, hs, hm⟩ := h
  by_cases hid : id = i
  · subst hid
    exact ⟨hactive, v, ExtTreeMap.getElem?_insert_self, hv rfl⟩
  · exact ⟨hactive, s, (getElem?_insert_of_ne hid).trans hs, hm⟩

/-- A surface that is replaced by one as mapped as it is. -/
theorem Connection.Shows.refresh (h : c.Shows i)
    (hv : c.surfaceOf id = .ok v) (hm : v'.mapped = v.mapped) : (c.putSurface id v').Shows i := by
  refine h.putSurface fun hid => ?_
  obtain ⟨-, s, hs, hmapped⟩ := h
  rw [← hid, surfaceOf_eq_ok.mp hv] at hs
  cases hs
  rw [hm, hmapped]

theorem Connection.Shows.putBuffer (h : c.Shows i) (hno : ∀ s, c.objects[id]? ≠ some (.surface s))
    (b : Buffer) : (c.putBuffer id b).Shows i := by
  obtain ⟨hactive, s, hs, hm⟩ := h
  have hid : id ≠ i := fun hid => hno s (hid ▸ hs)
  exact ⟨hactive, s, (getElem?_insert_of_ne hid).trans hs, hm⟩

theorem Connection.Shows.release (h : c.Shows i) (id : ObjectId) (commit : UInt64) :
    (c.release id commit).1.Shows i := by
  obtain ⟨hactive, s, hs, hm⟩ := h
  rw [release_fst]
  exact ⟨hactive, s, getElem?_freeRef_surface hs, hm⟩

theorem Connection.GivesUp.shows {r : Connection × Batch} (hr : c.GivesUp r) (h : c.Shows i) :
    r.1.Shows i := by
  rcases hr with rfl | ⟨id, commit, rfl⟩
  · exact h
  · exact h.release id commit

end

variable {c : Connection}

section

variable {k : ConnId} {now : UInt64} {header : Header} {cap : Option UInt64} {req : Request}
  {x y : Ctx} {batch : Batch}

/-- A request that has nothing to do with the seat. -/
structure LeavesSeat (x : Ctx) (batch : Batch) (y : Ctx) : Prop where
  seat : y.seat = x.seat
  silent : ∀ e ∈ batch, e.2.isSilent = true
  shows : ∀ i, x.conn.Shows i → y.conn.Shows i

/-- A request that takes a surface off the scene. -/
structure TakesOff (k : ConnId) (i : ObjectId) (x : Ctx) (batch : Batch) (y : Ctx) : Prop where
  seat : y.seat = (x.seat.dropSurface (k, i)).1
  batch_eq : ∃ before after, batch = before ++ (x.seat.dropSurface (k, i)).2 ++ after ∧
    (∀ e ∈ before, e.2.isSilent = true) ∧ ∀ e ∈ after, e.2.isSilent = true
  shows : ∀ j, j ≠ i → x.conn.Shows j → y.conn.Shows j

theorem Releases.isSilent {e : ObjectId × Event} (h : Releases c e) : e.2.isSilent = true := by
  obtain ⟨⟨commit, he⟩, -⟩ := h
  rw [he]
  rfl

theorem isSilent_discarded {obj now : UInt64} {token : Option UInt64} :
    ∀ e ∈ Arm.discarded obj now token, e.2.isSilent = true := by
  intro e he
  obtain ⟨commit, -, rfl⟩ := Arm.of_mem_discarded he
  rfl

/-- **What an accepted request has to do with the seat**: nothing, or it takes its surface
off the scene. -/
theorem Effect.seat (h : Effect k now header cap req x batch y) (hx : x.conn.Wf) :
    LeavesSeat x batch y ∨ TakesOff k header.object x batch y := by
  have hresult : ∀ e ∈ [(header.object, Event.result header.serial)], e.2.isSilent = true :=
    forall_mem_singleton.mpr rfl
  have hnew : ∀ {i}, x.conn.idWatermark < header.object → x.conn.Shows i → header.object ≠ i := by
    rintro i hfresh ⟨-, s, hs, -⟩ rfl
    rw [hx.tally.fresh hfresh] at hs
    cases hs
  have hbuffer : ∀ {j : ObjectId} {b : Buffer}, x.conn.objects[j]? = some (.buffer b) →
      ∀ s : Surface, x.conn.objects[j]? ≠ some (.surface s) := fun {j b} hb s hs => by
    rw [hb] at hs
    cases hs
  have hkeeps : ∀ {i : ObjectId} {s v : Surface}, x.conn.Shows i →
      x.conn.objects[header.object]? = some (.surface s) → v.mapped = s.mapped →
      header.object = i → v.mapped = true := fun {i s v} hi hs hv hid => by
    obtain ⟨-, s', hs', hm⟩ := hi
    rw [← hid, hs] at hs'
    cases hs'
    rw [hv, hm]
  cases h with
  | hello =>
    exact .inl ⟨rfl, forall_mem_singleton.mpr rfl, fun i hi => ⟨rfl, hi.2⟩⟩
  | createSurface _ _ _ _ _ hfresh =>
    exact .inl ⟨rfl, forall_mem_cons.mpr ⟨rfl, forall_mem_singleton.mpr rfl⟩,
      fun i hi => hi.putSurface fun hid => absurd hid (hnew hfresh hi)⟩
  | @destroySurface _ s _ r1 r2 hr1 hr2 =>
    refine .inr ⟨rfl, ⟨[], r1.2 ++ r2.2 ++ Arm.discarded header.object now
      (if s.framePending then some s.frameToken else none) ++
      [(header.object, .result header.serial)], by simp, by simp, fun e he => ?_⟩,
      fun j hj hshows => ?_⟩
    · subst hr2
      subst hr1
      simp only [mem_append] at he
      rcases he with ((he | he) | he) | he
      · exact ((Arm.cancels _ _).releases he).isSilent
      · exact ((Arm.gives _ _).releases he).isSilent
      · exact isSilent_discarded e he
      · exact hresult e he
    · subst hr2
      subst hr1
      exact ((Arm.gives _ s).shows ((Arm.cancels _ s).shows hshows)).congr rfl
        (getElem?_erase_of_ne (Ne.symm hj))
  | setTitle | setAppId => exact .inl ⟨rfl, hresult, fun _ hi => hi⟩
  | ackConfigure hs | attachNothing hs =>
    exact .inl ⟨rfl, hresult, fun i hi => hi.putSurface (hkeeps hi hs rfl)⟩
  | importBuffer _ _ _ _ _ _ hfresh =>
    refine .inl ⟨rfl, hresult, fun i hi => hi.putBuffer (fun s hs => ?_) _⟩
    rw [hx.tally.fresh hfresh] at hs
    cases hs
  | destroyBuffer hb =>
    refine .inl ⟨rfl, hresult, fun i hi => hi.congr rfl (getElem?_erase_of_ne ?_)⟩
    obtain ⟨-, s, hs, -⟩ := hi
    exact fun hid => hbuffer hb s (hid ▸ hs)
  | attachSome _ hs _ _ hb =>
    exact .inl ⟨rfl, hresult, fun i hi =>
      (hi.putBuffer (hbuffer hb) _).putSurface (hkeeps hi hs rfl)⟩
  | @commitUnmap x s frameCallback _ _ _ _ _ _ _ hr =>
    subst hr
    refine .inr ⟨rfl, ⟨[(header.object, .result header.serial)],
      (Arm.releaseCommitted (x.conn.putSurface header.object s.unmapped) s).2 ++
        Arm.discarded header.object now (s.discards header.serial frameCallback),
      by simp, hresult, fun e he => ?_⟩, fun j hj hshows => ?_⟩
    · rcases mem_append.mp he with he | he
      · exact ((Arm.gives _ _).releases he).isSilent
      · exact isSilent_discarded e he
    · exact (Arm.gives _ s).shows (hshows.putSurface fun hid => absurd hid (Ne.symm hj))
  | @commitMap _ s _ _ _ _ _ hb _ _ _ _ hr =>
    subst hr
    refine .inl ⟨rfl, fun e he => ?_, fun i hi => ?_⟩
    · rcases mem_append.mp he with he | he
      · exact hresult e he
      · exact ((replaces _ _).releases he).isSilent
    · exact (replaces _ s).shows ((hi.putBuffer (hbuffer hb) _).putSurface fun _ => rfl)

end

/-! ### Packets of the clients -/

/-- A connection that is closed or removed is forgotten. -/
theorem Server.Focused.forgotten (hs : s.Focused) (hseat : s'.seat = s.seat.dropConn conn)
    (hconns : ∀ k, k ≠ conn → s'.conns[k]? = s.conns[k]?) :
    s'.Focused ∧ ∀ t, s'.seat.session t = if t.1 == conn then away else s.seat.session t := by
  rw [Server.Focused, hseat, dropConn_eq hs.grab_eq]
  refine ⟨Seat.Placed.forget hs fun t ht hmapped => ?_, fun t => session_forget _ _ t⟩
  have hne : t.1 ≠ conn := by simpa using ht
  exact isMapped_of_conn hmapped fun c hget hshows => ⟨c, (hconns _ hne).trans hget, hshows⟩

/-- **A call in which every target hears its part**, with what is known of the packets that
were received. -/
structure Server.Follows (s : Server) (items : ConnId → List Item) (s' : Server) : Prop where
  focused : s'.Focused
  heard : ∀ t, Leads (Session.step t.2) (s.seat.session t) (items t.1) (s'.seat.session t)

section

variable {s : Server} {conn : ConnId} {packet : List UInt8} {t : Target} {q q1 q' : Session}
variable {c : Connection} {batch : Batch} {a : Item} {s' : Server}

theorem Session.leads_delivered
    (hrec : received packet (numbered conn c.nextServerSerial batch) = [a])
    (hother : t.1 ≠ conn → q' = q) (ha : t.1 = conn → step t.2 q a = some q1)
    (hb : t.1 = conn → Leads (read t.2) q1 batch q') :
    Leads (step t.2) q
      (deliverItems t.1 conn packet (numbered conn c.nextServerSerial batch)) q' := by
  rw [deliverItems]
  by_cases ht : t.1 = conn
  · rw [if_pos ht.symm, hrec, ht, filter_numbered_self]
    exact leads_cons (ha ht) (leads_sends (fun _ _ => rfl) (hb ht))
  · rw [if_neg (Ne.symm ht), filter_numbered_of_ne (Ne.symm ht), hother ht]
    exact leads_nil

theorem Session.leads_of_isSilent
    (h : ∀ e ∈ batch, e.2.isSilent = true) : Leads (read i) q batch q :=
  leads_of_silent fun e he => onPacket_of_isSilent (h e he) q

/-- The leave events of another surface. -/
theorem Seat.leads_dropSurface_of_ne (seat : Seat) {tgt : Target} (hne : tgt.2 ≠ i) :
    Leads (read i) q (seat.dropSurface tgt).2 q := by
  refine leads_of_silent fun e he => ?_
  rcases of_mem_dropSurface he with rfl | rfl <;> exact onPacket_of_ne rfl hne q

variable {x y : Ctx}

theorem Effect.session_step {k : ConnId} {now : UInt64} {header : Header} {cap : Option UInt64}
    {req : Request} (h : Effect k now header cap req x batch y)
    (i : ObjectId) (q : Session) : step i q (.accepted header req) = some q := by
  cases h <;> rfl

/-- A packet that ends its connection: with a fatal error, or as asked. -/
theorem Server.Focused.ended (hs : s.Focused) (hseat : s'.seat = s.seat.dropConn conn)
    (hconns : ∀ k, k ≠ conn → s'.conns[k]? = s.conns[k]?)
    (hrec : received packet (numbered conn c.nextServerSerial batch) = [a])
    (hend : ∀ i q, ∃ q1, step i q a = some q1 ∧ Leads (read i) q1 batch away) :
    s.Follows (fun k => deliverItems k conn packet (numbered conn c.nextServerSerial batch))
      s' := by
  obtain ⟨hfocused, hsession⟩ := hs.forgotten hseat hconns
  refine ⟨hfocused, fun t => ?_⟩
  obtain ⟨q1, h1, h2⟩ := hend t.2 (s.seat.session t)
  rw [hsession]
  refine leads_delivered hrec (fun ht => if_neg (by simpa using ht)) (fun _ => h1)
    fun ht => ?_
  rw [if_pos (by simpa using ht)]
  exact h2

theorem Server.Focused.fatal (hs : s.Focused) (hseat : s'.seat = s.seat.dropConn conn)
    (hconns : ∀ k, k ≠ conn → s'.conns[k]? = s.conns[k]?) (packet : List UInt8)
    (object request : UInt64) (e : ErrorCode) :
    s.Follows (fun k => deliverItems k conn packet
      (numbered conn c.nextServerSerial (error object request e true).1)) s' :=
  hs.ended hseat hconns rfl fun _ q => ⟨q, rfl, leads_singleton rfl⟩

/-- A packet that leaves the seat alone. -/
theorem Server.Focused.leaves
    (hs : s.Focused) (hget : s.conns[conn]? = some c) (hseat : s'.seat = s.seat)
    (hconns : s'.conns = s.conns.insert conn (c'.bump batch.length))
    (hshows : ∀ i, c.Shows i → c'.Shows i)
    (hrec : received packet (numbered conn c'.nextServerSerial batch) = [a])
    (ha : ∀ i q, step i q a = some q) (hsilent : ∀ e ∈ batch, e.2.isSilent = true) :
    s.Follows (fun k => deliverItems k conn packet (numbered conn c'.nextServerSerial batch))
      s' := by
  refine ⟨?_, fun t => ?_⟩
  · rw [Server.Focused, hseat]
    exact Seat.Placed.mono hs fun t _ ht =>
      isMapped_insert hget hconns (fun i hi => hshows i hi) ht
  · rw [hseat]
    exact leads_delivered hrec (fun _ => rfl) (fun _ => ha _ _) fun _ =>
      leads_of_isSilent hsilent

/-- A packet that takes a surface off the scene. -/
theorem Server.Focused.takesOff (hs : s.Focused) (hget : s.conns[conn]? = some c)
    (h : TakesOff conn i x batch y) (hx : x.seat = s.seat) (hy : s'.seat = y.seat)
    (hconns : s'.conns = s.conns.insert conn (y.conn.bump batch.length))
    (hshows : ∀ i, c.Shows i → x.conn.Shows i)
    (hrec : received packet (numbered conn y.conn.nextServerSerial batch) = [a])
    (ha : ∀ i q, step i q a = some q) :
    s.Follows (fun k => deliverItems k conn packet (numbered conn y.conn.nextServerSerial batch))
      s' := by
  obtain ⟨hseat, ⟨before, after, rfl, hbefore, hafter⟩, hkeeps⟩ := h
  rw [hx] at hseat hconns hrec
  rw [dropSurface_eq hs.grab_eq] at hseat
  have hsession : ∀ t, s'.seat.session t =
      if t == (conn, i) then away else s.seat.session t := fun t => by
    rw [hy, hseat, session_forget]
  refine ⟨?_, fun t => ?_⟩
  · rw [Server.Focused, hy, hseat]
    refine Seat.Placed.forget hs fun t ht hmapped => ?_
    refine isMapped_of_conn hmapped fun c1 hget1 hshows1 => ?_
    rw [hconns]
    by_cases hk : conn = t.1
    · subst hk
      obtain rfl := some.inj (hget.symm.trans hget1)
      have hi : t.2 ≠ i := fun hi => by simp [← hi] at ht
      exact ⟨_, ExtTreeMap.getElem?_insert_self, hkeeps _ hi (hshows _ hshows1)⟩
    · exact ⟨c1, (getElem?_insert_of_ne hk).trans hget1, hshows1⟩
  · rw [hsession, hx]
    refine leads_delivered hrec (fun ht => if_neg ?_) (fun _ => ha _ _) fun ht => ?_
    · simp only [beq_iff_eq]
      rintro rfl
      exact ht rfl
    · refine ((leads_of_isSilent hbefore).append ?_).append
        (leads_of_isSilent hafter)
      by_cases hi : t.2 = i
      · obtain rfl : t = (conn, i) := Prod.ext ht hi
        rw [if_pos (by simp)]
        exact s.seat.leads_dropSurface (conn, i)
      · rw [if_neg (by simpa [Prod.ext_iff] using fun _ => hi)]
        exact s.seat.leads_dropSurface_of_ne (Ne.symm hi)

/-- **A packet of a client**, whatever it is, keeps the seat right. -/
theorem Server.Focused.deliver (hs : s.Focused)
    (hwf : ∀ c, s.conns[conn]? = some c → c.Wf) (packet : List UInt8) (cap : Option UInt64) :
    s.Follows (fun k => deliverItems k conn packet (s.deliver conn packet cap).1)
      (s.deliver conn packet cap).2 := by
  rcases deliver_cases s conn packet cap with hr | ⟨c, hc, hopen⟩
  · rw [hr]
    refine ⟨hs, fun t => ?_⟩
    dsimp only [deliverItems]
    split_ifs <;> exact leads_nil
  · obtain ⟨r, ha, hr⟩ := deliver_eq hc hopen packet cap
    rw [hr]
    have hothers : ∀ (c' : Connection) k, k ≠ conn → (s.conns.insert conn c')[k]? = s.conns[k]? :=
      fun c' k hk => getElem?_insert_of_ne (Ne.symm hk)
    cases ha with
    | undecodable e => exact hs.fatal rfl (hothers _) packet 0 0 e.code
    | rejected header e =>
      exact hs.fatal rfl (hothers _) packet header.object header.serial e
    | refused =>
      exact hs.leaves hc rfl rfl (fun i hi => hi) rfl (fun _ _ => rfl)
        (forall_mem_singleton.mpr rfl)
    | disconnected _ hread =>
      refine hs.ended rfl (hothers _)
        (received_numbered_success hread _ _ ⟨_, mem_singleton_self _, rfl⟩)
        fun i q => ⟨_, rfl, leads_singleton (onPacket_of_isSilent rfl _)⟩
    | accepted header _ _ y hread _ _ _ _ he =>
      have hrec := received_numbered_success hread conn y.conn.nextServerSerial he.exists_isSuccess
      have hx : (Ctx.noted ⟨c, s.nextClientId, s.seat⟩ header.serial).conn.Wf :=
        ⟨(hwf c hc).links, (hwf c hc).tally⟩
      rcases he.seat hx with h | h
      · exact hs.leaves hc h.seat rfl (fun i hi => h.shows i hi) hrec he.session_step h.silent
      · exact hs.takesOff hc h rfl rfl rfl (fun i hi => hi) hrec he.session_step

end

/-! ### The other calls -/

variable {r : List Packet × Server}

section

variable {s : Server} {t : Target}

/-- A call that has nothing to do with the seat. -/
structure Server.Quiet (s : Server) (r : List Packet × Server) : Prop where
  seat : r.2.seat = s.seat
  shows : ∀ t, s.isMapped t = true → r.2.isMapped t = true
  silent : ∀ p ∈ r.1, p.event.isSilent = true

theorem Server.quiet_nil (s : Server) : s.Quiet ([], s) :=
  ⟨rfl, fun _ ht => ht, fun p hp => by cases hp⟩

theorem Server.Quiet.obeys (h : s.Quiet r) (hs : s.Focused) : s.Obeys r := by
  refine ⟨?_, aims_of_isSilent h.silent, fun t => ?_⟩
  · rw [Server.Focused, h.seat]
    exact Seat.Placed.mono hs fun t _ ht => h.shows t ht
  · rw [h.seat]
    refine leads_of_silent fun p hp => ?_
    rw [hears]
    split_ifs
    · exact onPacket_of_isSilent (h.silent p hp) _
    · rfl

/-- A silent event, after a surface has been replaced by one as mapped as it is. -/
theorem Server.quiet_emitTo {id : ObjectId} (hget : s.conns[conn]? = some c)
    (hv : c.surfaceOf id = .ok v)
    (hm : v'.mapped = v.mapped) (hev : ev.isSilent = true) : s.Quiet
      (emitTo { s with conns := s.conns.insert conn (c.putSurface id v') } conn id ev) where
  seat := seat_emitTo _ _ _ _
  shows t ht := isMapped_emitTo
    (isMapped_insert hget rfl (fun i hi => hi.refresh hv hm) ht)
  silent p hp := by rwa [(of_mem_emitTo hp).2.2]

theorem Server.quiet_frameDone (s : Server) (conn : ConnId) (id : ObjectId) (token : UInt64)
    (status : UInt32) : s.Quiet (s.frameDone conn id token status) := by
  have hidle : s.Quiet (s.emitTo conn id (.frameDone token s.nowNs status)) :=
    ⟨s.seat_emitTo _ _ _, fun t ht => isMapped_emitTo ht, fun p hp => by
      rw [(of_mem_emitTo hp).2.2]
      rfl⟩
  rw [frameDone]
  rcases hget : s.conns[conn]? with _ | c
  · exact hidle
  · dsimp only
    rcases hv : c.surfaceOf id with e | v
    · exact hidle
    · exact quiet_emitTo hget hv rfl rfl

/-- A composition tick. -/
theorem Server.quiet_composite (s : Server) : s.Quiet s.composite := by
  rw [composite]
  generalize (s.conns.toList.flatMap fun e => waitingFrames e.1 e.2) = l
  induction l generalizing s with
  | nil => exact s.quiet_nil
  | cons e _ ih =>
    obtain ⟨conn, id, token, status⟩ := e
    have h1 := s.quiet_frameDone conn id token status
    have h2 := ih (s.frameDone conn id token status).2
    exact ⟨h2.seat.trans h1.seat, fun t ht => h2.shows t (h1.shows t ht), fun p hp =>
      (mem_append.mp hp).elim (h1.silent p) (h2.silent p)⟩

theorem Server.quiet_reconfigure (s : Server) (conn : ConnId) (surface : ObjectId)
    (width height scale state : UInt32) :
    s.Quiet (s.reconfigure conn surface width height scale state) := by
  rw [reconfigure]
  split_ifs
  · exact s.quiet_nil
  · rcases hget : s.conns[conn]? with _ | c
    · exact s.quiet_nil
    · dsimp only
      split_ifs with hactive
      · rcases hv : c.surfaceOf surface with e | v
        · exact s.quiet_nil
        · exact quiet_emitTo hget hv rfl rfl
      · exact s.quiet_nil

theorem Server.Focused.disconnectPeer (hs : s.Focused) (conn : ConnId) :
    (s.disconnectPeer conn).Focused ∧ ∀ t, (s.disconnectPeer conn).seat.session t =
      if t.1 == conn then away else s.seat.session t :=
  hs.forgotten rfl fun _ hk => getElem?_erase_of_ne (Ne.symm hk)

/-- The connections of a list are removed one after the other. -/
theorem Server.Focused.foldl_disconnectPeer (hs : s.Focused) (ids : List ConnId) :
    (ids.foldl Server.disconnectPeer s).Focused ∧
      ∀ t, (ids.foldl Server.disconnectPeer s).seat.session t =
        if t.1 ∈ ids then away else s.seat.session t := by
  induction ids generalizing s with
  | nil => exact ⟨hs, fun t => by simp⟩
  | cons id ids ih =>
    obtain ⟨hfocused, hsession⟩ := hs.disconnectPeer id
    obtain ⟨hfocused', hsession'⟩ := ih hfocused
    refine ⟨hfocused', fun t => ?_⟩
    rw [foldl_cons, hsession', hsession]
    by_cases hid : t.1 = id <;> by_cases hids : t.1 ∈ ids <;> simp [hid, hids]

theorem Server.foldl_disconnectPeer_eq (s : Server) (ids : List ConnId) :
    ids.foldl disconnectPeer s = { s with
      conns := ids.foldl (fun t id => t.erase id) s.conns
      seat := ids.foldl dropConn s.seat } := by
  induction ids generalizing s with
  | nil => rfl
  | cons id _ ih => exact ih (s.disconnectPeer id)

theorem Server.Focused.tick (hs : s.Focused) (nowNs : UInt64) :
    (s.tick nowNs).2.Focused ∧ ∀ t, (s.tick nowNs).2.seat.session t =
      if t.1 ∈ (s.tick nowNs).1 then Session.away else s.seat.session t := by
  have h := hs.foldl_disconnectPeer (s.tick nowNs).1
  rw [foldl_disconnectPeer_eq] at h
  exact h

/-- A connection that is opened gets an id of its own. -/
def Server.OpensFresh (s : Server) (call : Call) : Prop :=
  call = .connect → s.connect.1 = none ∨ s.nextConn ∉ s.conns

instance (s : Server) (call : Call) : Decidable (s.OpensFresh call) :=
  inferInstanceAs (Decidable (_ → _))

theorem Server.Focused.connect (hs : s.Focused) (hfresh : s.nextConn ∉ s.conns) :
    Server.Focused { s with
      nextConn := s.nextConn + 1
      conns := s.conns.insert s.nextConn (Connection.new s.nowNs) } ∧
    ∀ t : Target, t.1 = s.nextConn → s.seat.session t = away := by
  have hnone : s.conns[s.nextConn]? = none := ExtTreeMap.getElem?_eq_none hfresh
  have hnot : ∀ t : Target, t.1 = s.nextConn → s.isMapped t ≠ true := fun t ht hmapped => by
    obtain ⟨c, hget, -⟩ := isMapped_iff.mp hmapped
    rw [ht, hnone] at hget
    cases hget
  refine ⟨Seat.Placed.mono hs fun t _ ht => ?_, fun t ht => ?_⟩
  · refine isMapped_of_conn ht fun c hget hshows => ⟨c, ?_, hshows⟩
    exact (getElem?_insert_of_ne fun hk => hnot t hk.symm ht).trans hget
  · have hp : s.seat.pointerFocus ≠ some t := fun h => hnot t ht (hs.pointer t h)
    have hk : s.seat.keyboardFocus ≠ some t := fun h => hnot t ht (hs.keyboard t h)
    simp [session, away, hp, hk]

end

/-! ### Runs -/

/-- The books of every connection are in order. -/
def Server.Wf (s : Server) : Prop :=
  ∀ (k : ConnId) (c : Connection), s.conns[k]? = some c → c.Wf

theorem Server.Wf.exec (h : s.Wf) (call : Call) : (s.exec call).2.Wf := by
  intro k c hc
  rcases exec_step with ⟨-, hnew⟩ | ⟨-, hp⟩
  · rw [hnew] at hc
    cases hc
    exact wf_new _
  · rw [hc] at hp
    generalize hold : s.conns[k]? = old at hp
    generalize (s.exec call).1.items k = items at hp
    cases hp with
    | step hstep => exact hstep.wf (h k _ hold)

theorem Server.wf_new : new.Wf := by
  intro k c hc
  rw [new, ExtTreeMap.getElem?_empty] at hc
  cases hc

/-- What each target has heard of a run. -/
def Server.Heard (s : Server) (t : List Seen) : Prop :=
  ∀ tgt : Target, Leads (Session.step tgt.2) Session.away (life tgt.1 t) (s.seat.session tgt)

/-- The seat is right, and every client knows its part of it. -/
def Server.Right (s : Server) (t : List Seen) : Prop := s.Focused ∧ s.Heard t

theorem Server.right_new : new.Right [] := ⟨placed_empty, fun _ => leads_nil⟩

section

variable {s s' : Server} {t : List Seen}

theorem Server.Follows.right {o : Seen} (h : s.Follows (fun k => o.items k) s')
    (ho : o.opened = none) (ht : s.Heard t) : s'.Right (t ++ [o]) := by
  refine ⟨h.focused, fun tgt => ?_⟩
  rw [life_snoc, if_neg (by rw [ho]; simp)]
  exact (ht tgt).append (h.heard tgt)

variable {call : Call}

theorem Server.Obeys.right (h : s.Obeys r) (ht : s.Heard t) (hplain : call.isPlain = true) :
    (ofPackets call r).2.Right (t ++ [(ofPackets call r).1]) := by
  refine Server.Follows.right ⟨h.focused, fun tgt => ?_⟩ rfl ht
  rw [ofPackets, items_of_packets hplain]
  exact leads_items (h.heard tgt)

/-- Every call that only sends packets. -/
theorem Server.Focused.obeys (hs : s.Focused) (hplain : call.isPlain = true) :
    ∃ r, s.exec call = ofPackets call r ∧ s.Obeys r := by
  cases call with
  | reconfigure conn surface width height scale state =>
    exact ⟨_, rfl, (s.quiet_reconfigure conn surface width height scale state).obeys hs⟩
  | setPointerFocus target x y => exact ⟨_, rfl, hs.setPointerFocus target x y⟩
  | pointerMotion x y => exact ⟨_, rfl, hs.pointerMotion x y⟩
  | pointerButton button pressed => exact ⟨_, rfl, hs.pointerButton button pressed⟩
  | pointerAxis dx dy => exact ⟨_, rfl, hs.pointerAxis dx dy⟩
  | setKeyboardFocus target modifiers => exact ⟨_, rfl, hs.setKeyboardFocus target modifiers⟩
  | key usage pressed modifiers repeat_ => exact ⟨_, rfl, hs.key usage pressed modifiers repeat_⟩
  | textInput text => exact ⟨_, rfl, hs.textInput text⟩
  | _ => cases hplain

/-- **The step lemma**: a call that opens no connection with an id in use keeps the seat
right. -/
theorem Server.Right.exec (h : s.Right t) (hwf : s.Wf) (hfresh : s.OpensFresh call) :
    (s.exec call).2.Right (t ++ [(s.exec call).1]) := by
  obtain ⟨hs, ht⟩ := h
  by_cases hplain : call.isPlain = true
  · obtain ⟨r, hr, hobeys⟩ := hs.obeys hplain
    rw [hr]
    exact hobeys.right ht hplain
  cases call with
  | connect =>
    by_cases hfull : maxConnections ≤ s.conns.size
    · refine Server.Follows.right ⟨?_, fun tgt => ?_⟩ ?_ ht
      · simpa [Server.exec, Server.connect, hfull] using hs
      · simpa [exec, connect, hfull, items] using leads_nil
      · simp [exec, connect, hfull]
    · have hno : s.nextConn ∉ s.conns := (hfresh rfl).resolve_left (by simp [connect, hfull])
      obtain ⟨hfocused, haway⟩ := hs.connect hno
      simp only [exec, connect, hfull, if_false]
      refine ⟨hfocused, fun tgt => ?_⟩
      rw [life_snoc]
      split_ifs with hopened
      · rw [haway tgt (some.inj hopened).symm]
        exact leads_nil
      · simpa [items] using ht tgt
  | disconnectPeer conn =>
    obtain ⟨hfocused, hsession⟩ := hs.disconnectPeer conn
    refine Server.Follows.right ⟨hfocused, fun tgt => ?_⟩ rfl ht
    refine (hsession tgt).symm ▸ ?_
    by_cases hconn : conn = tgt.1
    · simpa [exec, items, hconn] using leads_singleton rfl
    · simpa [exec, items, hconn, Ne.symm hconn] using leads_nil
  | tick nowNs =>
    obtain ⟨hfocused, hsession⟩ := hs.tick nowNs
    refine Server.Follows.right ⟨hfocused, fun tgt => ?_⟩ rfl ht
    refine (hsession tgt).symm ▸ ?_
    by_cases hclosed : tgt.1 ∈ (s.tick nowNs).1
    · simpa [exec, items, hclosed] using leads_singleton rfl
    · simpa [exec, items, hclosed] using leads_nil
  | deliver conn packet cap =>
    exact Server.Follows.right (hs.deliver (fun c hc => hwf conn c hc) packet cap) rfl ht
  | composite =>
    have hobeys := s.quiet_composite.obeys hs
    refine Server.Follows.right ⟨hobeys.focused, fun tgt => ?_⟩ rfl ht
    exact leads_cons rfl (Session.leads_items (hobeys.heard tgt))
  | _ => exact absurd rfl hplain

end

/-- **In every run in which no connection gets an id that is in use the seat is right**:
what has the focus or the grab is a mapped surface of an active connection, the pointer is
grabbed by what it is on and exactly while buttons are down, and every surface of every
connection gets its input in sessions. -/
theorem run_focused (calls : List Call) (h : EveryCall OpensFresh Server.new calls) :
    (∀ t, (run calls).2.seat.pointerFocus = some t ∨ (run calls).2.seat.keyboardFocus = some t ∨
      (run calls).2.seat.grab = some t → (run calls).2.isMapped t = true) ∧
    ((run calls).2.seat.grab.isSome = true ↔ (run calls).2.seat.buttons ≠ []) ∧
    (∀ t, (run calls).2.seat.grab = some t → (run calls).2.seat.pointerFocus = some t) ∧
    ∀ (k : ConnId) (i : ObjectId), ∃ q,
      Leads (Session.step i) Session.away (life k (run calls).1) q := by
  obtain ⟨-, hs, ht⟩ := everyCall_induct (P := fun t s => s.Wf ∧ s.Right t)
    (fun t s call hP hok => ⟨hP.1.exec call, hP.2.exec hP.1 hok⟩) calls
    ⟨wf_new, right_new⟩ h
  refine ⟨fun t h => ?_, hs.grab_iff, hs.grab_eq, fun k i => ⟨_, ht (k, i)⟩⟩
  rcases h with h | h | h
  · exact hs.pointer t h
  · exact hs.keyboard t h
  · exact hs.pointer t (hs.grab_eq t h)

/-- The user clicks on the first frame and types on it. -/
def firstInput : List Call :=
  firstFrame ++ [.setPointerFocus (some (1, 1)) 3 4, .setKeyboardFocus (some (1, 1)) 0,
    .pointerButton 272 true, .key 4 true 0 false, .key 4 false 0 false, .pointerButton 272 false]

theorem run_focused_firstInput : EveryCall OpensFresh Server.new firstInput ∧
    (run firstInput).2.isMapped (1, 1) = true ∧
    ∃ q, Leads (Session.step 1) Session.away (life 1 (run firstInput).1) q :=
  have hfresh : EveryCall OpensFresh Server.new firstInput := by decide +kernel
  ⟨hfresh, (run_focused firstInput hfresh).1 (1, 1) (by decide +kernel),
    (run_focused firstInput hfresh).2.2.2 1 1⟩

/-! ### Wrapped connection ids -/

/-- A client that comes and goes leaves nothing but its id behind. -/
theorem reconnect_eq (hsize : s.conns.size < maxConnections)
    (hfree : s.nextConn ∉ s.conns) (hseat : s.seat.dropConn s.nextConn = s.seat) :
    ((s.exec .connect).2.exec (.disconnectPeer s.nextConn)).2 =
      { s with nextConn := s.nextConn + 1 } := by
  simp only [exec, connect, Nat.not_le.mpr hsize, if_false, disconnectPeer,
    hseat, erase_insert_of_none (ExtTreeMap.getElem?_eq_none hfree)]

/-- Clients that come and go, from an id on. -/
def passersBy (id : ConnId) (n : ℕ) : List Call :=
  (List.range n).flatMap fun j => [.connect, .disconnectPeer (id + UInt32.ofNat j)]

theorem runFrom_passersBy (n : ℕ) (t : List Seen) {s : Server}
    (hsize : s.conns.size < maxConnections)
    (hfree : ∀ j < n, s.nextConn + UInt32.ofNat j ∉ s.conns ∧
      s.seat.dropConn (s.nextConn + UInt32.ofNat j) = s.seat) :
    (runFrom (t, s) (passersBy s.nextConn n)).2 =
      { s with nextConn := s.nextConn + UInt32.ofNat n } := by
  induction n with
  | zero => simp [passersBy, runFrom]
  | succ n ih =>
    obtain ⟨hno, hseat⟩ := hfree n n.lt_succ_self
    rw [passersBy, range_succ, flatMap_append, runFrom_append, ← passersBy]
    have ih := ih fun j hj => hfree j (hj.trans n.lt_succ_self)
    generalize runFrom (t, s) (passersBy s.nextConn n) = r at ih
    obtain ⟨t', s'⟩ := r
    subst ih
    refine (reconnect_eq (s := { s with nextConn := s.nextConn + UInt32.ofNat n }) hsize hno
      hseat).trans ?_
    rw [UInt32.ofNat_add, ← UInt32.add_assoc]
    rfl

def firstFocus : List Call := firstFrame ++ [.setPointerFocus (some (1, 1)) 0 0]

/-- However many come and go, the first client keeps the pointer. -/
theorem run_firstFocus_passersBy {n : ℕ} (hn : n < 2 ^ 32) : ∃ t,
    run (firstFocus ++ passersBy 2 n) =
      (t, { (run firstFocus).2 with nextConn := 2 + UInt32.ofNat n }) := by
  obtain ⟨c, hconns⟩ : ∃ c, (run firstFocus).2.conns =
      (∅ : ExtTreeMap ConnId Connection).insert 1 c := ⟨_, rfl⟩
  have hseat : (run firstFocus).2.seat = ⟨some (1, 1), none, none, [], [], 0⟩ := by decide +kernel
  have hnext : (run firstFocus).2.nextConn = 2 := by decide +kernel
  have hsize : (run firstFocus).2.conns.size < maxConnections := by decide +kernel
  have hpass := runFrom_passersBy n (run firstFocus).1 hsize fun j hj => by
    have hne : (1 : ConnId) ≠ 2 + UInt32.ofNat j := fun h => by
      have := congrArg UInt32.toNat h
      rw [UInt32.toNat_add, UInt32.toNat_ofNat'] at this
      simp only [UInt32.reduceToNat] at this
      omega
    rw [hnext]
    refine ⟨?_, ?_⟩
    · rw [hconns, ExtTreeMap.mem_insert]
      simpa using hne
    · rw [dropConn_eq (fun t ht => by rw [hseat] at ht; cases ht), hseat]
      simp [forget, hne]
  rw [hnext] at hpass
  rw [run_append]
  exact ⟨_, Prod.ext rfl hpass⟩

/-- The server when the next id is that of the first client. -/
def wrapped : Server := { (run firstFocus).2 with nextConn := 1 }

/-- Clients come and go until the ids wrap, and then something happens. -/
def wrapIds (calls : List Call) : List Call := firstFocus ++ passersBy 2 (2 ^ 32 - 1) ++ calls

theorem run_wrapIds (calls : List Call) :
    ∃ t, run (wrapIds calls) = runFrom (t, wrapped) calls := by
  obtain ⟨t, ht⟩ := run_firstFocus_passersBy (show 2 ^ 32 - 1 < 2 ^ 32 by decide)
  refine ⟨t, ?_⟩
  rw [wrapIds, run_append, ht]
  rfl

/-- **A new connection can take over the focus with the id of an old one**: the focus does
not name a mapped surface then, and the client gets pointer events without POINTER_ENTER. -/
theorem focus_not_kept : (run (wrapIds [.connect])).2.seat.pointerFocus = some (1, 1) ∧
    (run (wrapIds [.connect])).2.isMapped (1, 1) = false ∧
    ¬∃ q, Leads (Session.step 1) Session.away
      (life 1 (run (wrapIds [.connect, .pointerMotion 7 7])).1) q := by
  obtain ⟨t, ht⟩ := run_wrapIds [.connect]
  obtain ⟨t', ht'⟩ := run_wrapIds [.connect, .pointerMotion 7 7]
  rw [ht, ht', runFrom_eq t, runFrom_eq t']
  have hnone : (life 1 (runFrom ([], wrapped) [.connect, .pointerMotion 7 7]).1).foldlM
      (step 1) away = none := by decide +kernel
  refine ⟨?_, ?_, ?_⟩
  · dsimp only
    decide +kernel
  · dsimp only
    decide +kernel
  · rintro ⟨q, hq⟩
    rw [runFrom_nil_cons] at hq hnone
    rw [Leads, life_of_opened rfl, hnone] at hq
    cases hq

end DunitOS.Gui
