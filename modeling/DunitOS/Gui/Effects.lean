import DunitOS.Gui.Server

/-!
# What a request does

One relation says what an accepted request does (`Effect`): for each kind of
request the conditions under which it is accepted, the batch it is answered with and the
state it leaves. A decoded request either is refused with an error and changes nothing, or
is DISCONNECT, or has its effect (`dispatch_cases`); every later result about
requests goes through this relation, and none of them looks at the code of an arm again.
-/

namespace DunitOS.Gui

open SysLib Std Prog List Connection Arm Ends UInt64

variable {c : Connection} {id : ObjectId}

/-! ### Looking objects up -/

theorem Connection.surfaceOf_eq_ok {s : Surface} :
    c.surfaceOf id = .ok s ↔ c.objects[id]? = some (.surface s) := by
  rw [surfaceOf]
  rcases c.objects[id]? with _ | ⟨s' | b⟩ <;> simp

theorem Connection.bufferOf_eq_ok {b : Buffer} :
    c.bufferOf id = .ok b ↔ c.objects[id]? = some (.buffer b) := by
  rw [bufferOf]
  rcases c.objects[id]? with _ | ⟨s | b'⟩ <;> simp

theorem Connection.require_eq_ok :
    c.require id .surface = .ok () ↔ ∃ s, c.objects[id]? = some (.surface s) := by
  rw [require]
  rcases c.objects[id]? with _ | ⟨s | b⟩ <;> simp [Object.kind]

theorem Connection.checkFresh_eq_ok : c.checkFresh id = .ok () ↔ id ≠ 0 ∧ c.idWatermark < id := by
  rw [Connection.checkFresh]
  split_ifs with h
  · simp only [false_iff, not_and, UInt64.not_lt]
    exact fun h0 => h.resolve_left h0
  · simp only [true_iff]
    exact ⟨fun h0 => h (.inl h0), not_le.mp fun h1 => h (.inr h1)⟩

/-! ### The effects -/

section

variable (k : ConnId) (now : UInt64) (header : Header) (cap : Option UInt64)

/-- A surface with a buffer, or nothing, waiting for its COMMIT. -/
def Surface.attached (s : Surface) (buffer : ObjectId) : Surface :=
  { s with pendingAttach := true, pendingBuffer := buffer }

/-- A surface once its contents have been taken away. -/
def Surface.unmapped (s : Surface) : Surface :=
  { s with
    committedBuffer := 0
    committedToken := 0
    mapped := false
    pendingAttach := false
    pendingBuffer := 0
    framePending := false }

/-- A surface once its pending buffer is shown, by the COMMIT with the given serial. -/
def Surface.showing (s : Surface) (ser : UInt64) (frameCallback : UInt32) : Surface :=
  { s with
    committedBuffer := s.pendingBuffer
    committedToken := ser
    mapped := true
    pendingAttach := false
    pendingBuffer := 0
    framePending := if frameCallback = 1 then true else s.framePending
    frameToken := if frameCallback = 1 then ser else s.frameToken }

/-- The connection of a commit that shows the pending buffer, before the old buffer is
given up. -/
def Connection.shown (c : Connection) (obj ser : UInt64) (frameCallback : UInt32) (s : Surface)
    (b : Buffer) : Connection :=
  (c.putBuffer s.pendingBuffer { b with state := .busy, commitToken := ser }).putSurface obj
    (s.showing ser frameCallback)

/-- Give up the buffer that was shown before. -/
def Connection.replaced (c : Connection) (s : Surface) : Connection × Batch :=
  if s.committedBuffer != 0 && s.committedBuffer != s.pendingBuffer then
    c.release s.committedBuffer s.committedToken else (c, [])

/-- The frame callback that an unmapping commit discards. -/
def Surface.discards (s : Surface) (ser : UInt64) (frameCallback : UInt32) : Option UInt64 :=
  if s.framePending then some s.frameToken else if frameCallback = 1 then some ser else none

/-- **What an accepted request does**: the batch it is answered with and the state it
leaves, under the conditions on which it is accepted. -/
inductive Effect : Request → Ctx → Batch → Ctx → Prop
  | hello {x : Ctx} (minMinor maxMinor : UInt16) (offered required : UInt64) (formats : UInt32) :
    Effect (.hello minMinor maxMinor offered required) x
      [(0, .welcome header.serial x.nextClientId (offered &&& featureArgb8888) formats)]
      { x with
        conn := { x.conn with
          features := offered &&& featureArgb8888
          phase := .active
          clientId := x.nextClientId }
        nextClientId := x.nextClientId + 1 }
  | createSurface {x : Ctx} (role width height format : UInt32) (hne : header.object ≠ 0)
      (hfresh : x.conn.idWatermark < header.object) (hlimit : x.conn.surfaces < maxSurfaces) :
    Effect (.createSurface role width height format) x
      [(header.object, .result header.serial),
        (header.object, .configure width height 1 stateActivated)]
      { x with conn := { x.conn.putSurface header.object
          (Surface.new format width height (x.conn.nextServerSerial + 1)) with
        idWatermark := header.object
        surfaces := x.conn.surfaces + 1 } }
  | destroySurface {x : Ctx} {s : Surface}
      (hs : x.conn.objects[header.object]? = some (.surface s))
      (r1 r2 : Connection × Batch) (hr1 : r1 = Arm.cancelPending x.conn s)
      (hr2 : r2 = Arm.releaseCommitted r1.1 s) :
    Effect .destroySurface x
      ((x.seat.dropSurface (k, header.object)).2 ++ r1.2 ++ r2.2 ++
        Arm.discarded header.object now (if s.framePending then some s.frameToken else none) ++
        [(header.object, .result header.serial)])
      { x with
        conn := { r2.1 with
          objects := r2.1.objects.erase header.object
          surfaces := r2.1.surfaces - 1 }
        seat := (x.seat.dropSurface (k, header.object)).1 }
  | setTitle {x : Ctx} {s : Surface} (title : List Char)
      (hs : x.conn.objects[header.object]? = some (.surface s)) :
    Effect (.setTitle title) x [(header.object, .result header.serial)] x
  | setAppId {x : Ctx} {s : Surface} (appId : List Char)
      (hs : x.conn.objects[header.object]? = some (.surface s)) :
    Effect (.setAppId appId) x [(header.object, .result header.serial)] x
  | ackConfigure {x : Ctx} {s : Surface}
      (hs : x.conn.objects[header.object]? = some (.surface s))
      (hack : s.ackedToken ≠ s.latestToken) :
    Effect (.ackConfigure s.latestToken) x [(header.object, .result header.serial)]
      { x with conn := x.conn.putSurface header.object { s with ackedToken := s.latestToken } }
  | importBuffer {x : Ctx} (width height stride format : UInt32) (offset : UInt64)
      (hne : header.object ≠ 0) (hfresh : x.conn.idWatermark < header.object)
      (hlimit : x.conn.buffers < maxBuffers)
      (hbudget : x.conn.backingBytes + cap.getD 0 ≤ maxBackingBytesConn)
      (hobject : cap.getD 0 ≤ maxBackingBytes) :
    Effect (.importBuffer width height stride format offset) x
      [(header.object, .result header.serial)]
      { x with conn := { x.conn.putBuffer header.object
          ⟨width, height, format, cap.getD 0, .available, 0⟩ with
        idWatermark := header.object
        buffers := x.conn.buffers + 1
        backingBytes := x.conn.backingBytes + cap.getD 0 } }
  | destroyBuffer {x : Ctx} {b : Buffer}
      (hb : x.conn.objects[header.object]? = some (.buffer b)) (hav : b.state = .available) :
    Effect .destroyBuffer x [(header.object, .result header.serial)]
      { x with conn := { x.conn with
        objects := x.conn.objects.erase header.object
        buffers := x.conn.buffers - 1
        backingBytes := x.conn.backingBytes - b.backing } }
  | attachNothing {x : Ctx} {s : Surface}
      (hs : x.conn.objects[header.object]? = some (.surface s)) (hpend : s.pendingAttach = false) :
    Effect (.attachBuffer 0 []) x [(header.object, .result header.serial)]
      { x with conn := x.conn.putSurface header.object (s.attached 0) }
  | attachSome {x : Ctx} {s : Surface} {b : Buffer} {buffer : UInt64} (damage : List Rect)
      (hs : x.conn.objects[header.object]? = some (.surface s)) (hpend : s.pendingAttach = false)
      (hne : buffer ≠ 0) (hb : x.conn.objects[buffer]? = some (.buffer b))
      (hav : b.state = .available) :
    Effect (.attachBuffer buffer damage) x [(header.object, .result header.serial)]
      { x with
        conn := (x.conn.putBuffer buffer { b with state := .pending }).putSurface header.object
          (s.attached buffer) }
  | commitUnmap {x : Ctx} {s : Surface} {frameCallback : UInt32}
      (hs : x.conn.objects[header.object]? = some (.surface s)) (hpend : s.pendingAttach = true)
      (hnone : s.pendingBuffer = 0) (hack : s.ackedToken = s.latestToken)
      (hframe : ¬(frameCallback = 1 ∧ s.framePending = true)) (hle : frameCallback ≤ 1)
      (r : Connection × Batch)
      (hr : r = Arm.releaseCommitted (x.conn.putSurface header.object s.unmapped) s) :
    Effect (.commit s.latestToken frameCallback) x
      ([(header.object, .result header.serial)] ++ (x.seat.dropSurface (k, header.object)).2 ++
        r.2 ++ Arm.discarded header.object now (s.discards header.serial frameCallback))
      { x with conn := r.1, seat := (x.seat.dropSurface (k, header.object)).1 }
  | commitMap {x : Ctx} {s : Surface} {b : Buffer} {frameCallback : UInt32}
      (hs : x.conn.objects[header.object]? = some (.surface s)) (hpend : s.pendingAttach = true)
      (hne : s.pendingBuffer ≠ 0) (hb : x.conn.objects[s.pendingBuffer]? = some (.buffer b))
      (hack : s.ackedToken = s.latestToken)
      (hframe : ¬(frameCallback = 1 ∧ s.framePending = true)) (hle : frameCallback ≤ 1)
      (r : Connection × Batch)
      (hr : r = (x.conn.shown header.object header.serial frameCallback s b).replaced s) :
    Effect (.commit s.latestToken frameCallback) x ([(header.object, .result header.serial)] ++ r.2)
      { x with conn := r.1 }

end

/-! ### What an answer is made of -/

section

variable {e : ObjectId × Event}
variable {c : Connection} {id : ObjectId} {s : Surface}

/-- A surface that is dropped takes leave of the seat. -/
theorem Seat.of_mem_dropSurface {seat : Seat} {tgt : Target} (h : e ∈ (seat.dropSurface tgt).2) :
    e = (tgt.2, .pointerLeave) ∨ e = (tgt.2, .keyLeave) := by
  rcases mem_append.mp h with h | h
  · exact .inl (mem_singleton.mp (mem_ite_nil_right.mp h).2)
  · exact .inr (mem_singleton.mp (mem_ite_nil_right.mp h).2)

/-- What is released is a buffer of the connection. -/
def Releases (c : Connection) (e : ObjectId × Event) : Prop :=
  (∃ commit, e.2 = .bufferRelease commit) ∧ ∃ b, c.objects[e.1]? = some (.buffer b)

theorem Connection.releases_of_mem {commit : UInt64}
    (h : e ∈ (c.release id commit).2) : Releases c e := by
  rw [release] at h
  rcases hb : c.bufferOf id with _ | b <;> rw [hb] at h
  · cases h
  · rw [mem_singleton.mp h]
    exact ⟨⟨commit, rfl⟩, b, bufferOf_eq_ok.mp hb⟩

/-- A buffer is given up, or none. -/
def Connection.GivesUp (c : Connection) (r : Connection × Batch) : Prop :=
  r = (c, []) ∨ ∃ id commit, r = c.release id commit

theorem Connection.givesUp_ite (c : Connection) {p : Bool} (commit : UInt64) :
    c.GivesUp (if p then c.release id commit else (c, [])) := by
  cases p with
  | false => exact .inl rfl
  | true => exact .inr ⟨id, commit, rfl⟩

theorem Arm.cancels (c : Connection) (s : Surface) : c.GivesUp (cancelPending c s) :=
  c.givesUp_ite _

theorem Arm.gives (c : Connection) (s : Surface) : c.GivesUp (releaseCommitted c s) :=
  c.givesUp_ite _

theorem Connection.replaces (c : Connection) (s : Surface) : c.GivesUp (c.replaced s) :=
  c.givesUp_ite _

theorem Connection.GivesUp.releases {r : Connection × Batch} (h : c.GivesUp r) (he : e ∈ r.2) :
    Releases c e := by
  rcases h with rfl | ⟨id, commit, rfl⟩
  · cases he
  · exact releases_of_mem he

/-- A buffer that is there after another one has been given up was there before. -/
theorem Releases.of_cancelPending (h : Releases (cancelPending c s).1 e) : Releases c e := by
  refine ⟨h.1, ?_⟩
  obtain ⟨-, b, hb⟩ := h
  rw [cancelPending] at hb
  split_ifs at hb
  · rw [release] at hb
    rcases hj : c.bufferOf s.pendingBuffer with _ | b' <;> rw [hj] at hb
    · exact ⟨b, hb⟩
    · by_cases he : s.pendingBuffer = e.1
      · exact ⟨b', he ▸ bufferOf_eq_ok.mp hj⟩
      · exact ⟨b, (getElem?_insert_of_ne he).symm.trans hb⟩
  · exact ⟨b, hb⟩

theorem Releases.of_putSurface (h : Releases (c.putSurface id s) e) : Releases c e := by
  refine ⟨h.1, ?_⟩
  obtain ⟨-, b, hb⟩ := h
  rcases of_getElem?_insert hb with ⟨-, he⟩ | ⟨-, hb⟩
  · cases he
  · exact ⟨b, hb⟩

theorem Releases.of_putBuffer {b b' : Buffer}
    (hid : c.objects[id]? = some (.buffer b)) (h : Releases (c.putBuffer id b') e) :
    Releases c e := by
  refine ⟨h.1, ?_⟩
  obtain ⟨-, b'', hb⟩ := h
  by_cases he : id = e.1
  · exact ⟨b, he ▸ hid⟩
  · exact ⟨b'', (getElem?_insert_of_ne he).symm.trans hb⟩

theorem Arm.of_mem_discarded {obj now : UInt64} {token : Option UInt64}
    (h : e ∈ discarded obj now token) :
    ∃ commit, token = some commit ∧ e = (obj, .frameDone commit now frameDiscarded) := by
  rcases token with _ | commit
  · cases h
  · exact ⟨commit, rfl, mem_singleton.mp h⟩

/-- The packets that the answer to an accepted request can be made of. -/
inductive Part (header : Header) (now : UInt64) (req : Request) (c : Connection) :
    ObjectId × Event → Prop
  | welcome (clientId features : UInt64) (formats : UInt32) :
    Part header now req c (0, .welcome header.serial clientId features formats)
  | result : Part header now req c (header.object, .result header.serial)
  | configure {role width height format : UInt32}
      (hreq : req = .createSurface role width height format) :
    Part header now req c (header.object, .configure width height 1 stateActivated)
  | pointerLeave : Part header now req c (header.object, .pointerLeave)
  | keyLeave : Part header now req c (header.object, .keyLeave)
  | release (j : ObjectId) (commit : UInt64) {b : Buffer} (hb : c.objects[j]? = some (.buffer b)) :
    Part header now req c (j, .bufferRelease commit)
  | discarded (commit : UInt64) :
    Part header now req c (header.object, .frameDone commit now frameDiscarded)

variable {k : ConnId} {now : UInt64} {header : Header} {cap : Option UInt64} {req : Request}
  {x y : Ctx} {batch : Batch}

theorem Releases.part (h : Releases c e) : Part header now req c e := by
  obtain ⟨j, ev⟩ := e
  obtain ⟨⟨commit, rfl⟩, b, hb⟩ := h
  exact .release j commit hb

theorem Part.of_dropSurface {seat : Seat}
    (h : e ∈ (seat.dropSurface (k, header.object)).2) : Part header now req c e := by
  rcases Seat.of_mem_dropSurface h with rfl | rfl
  · exact .pointerLeave
  · exact .keyLeave

theorem Part.of_discarded {token : Option UInt64}
    (h : e ∈ Arm.discarded header.object now token) : Part header now req c e := by
  obtain ⟨commit, -, rfl⟩ := of_mem_discarded h
  exact .discarded commit

/-- **What the answer to an accepted request is made of.** -/
theorem Effect.parts (h : Effect k now header cap req x batch y) :
    ∀ e ∈ batch, Part header now req x.conn e := by
  intro e he
  cases h with
  | hello =>
    rw [mem_singleton.mp he]
    exact .welcome _ _ _
  | createSurface =>
    rcases mem_cons.mp he with rfl | he
    · exact .result
    · rw [mem_singleton.mp he]
      exact .configure rfl
  | destroySurface _ _ _ hr1 hr2 =>
    subst hr1
    subst hr2
    simp only [mem_append, mem_singleton] at he
    rcases he with (((he | he) | he) | he) | rfl
    · exact .of_dropSurface he
    · exact ((cancels _ _).releases he).part
    · exact ((gives _ _).releases he).of_cancelPending.part
    · exact .of_discarded he
    · exact .result
  | commitUnmap _ _ _ _ _ _ _ hr =>
    subst hr
    simp only [mem_append, mem_singleton] at he
    rcases he with ((rfl | he) | he) | he
    · exact .result
    · exact .of_dropSurface he
    · exact ((gives _ _).releases he).of_putSurface.part
    · exact .of_discarded he
  | commitMap _ _ _ hb _ _ _ _ hr =>
    subst hr
    simp only [mem_append, mem_singleton] at he
    rcases he with rfl | he
    · exact .result
    · exact (((replaces _ _).releases he).of_putSurface.of_putBuffer hb).part
  | _ =>
    rw [mem_singleton.mp he]
    exact .result

end

/-! ### What a request leaves alone -/

/-- To give a buffer up changes the objects and nothing else. -/
theorem Connection.GivesUp.exists_eq {c : Connection} {r : Connection × Batch} (h : c.GivesUp r) :
    ∃ o, r.1 = { c with objects := o } := by
  rcases h with rfl | ⟨id, commit, rfl⟩
  · exact ⟨c.objects, rfl⟩
  · rw [release]
    split
    · exact ⟨_, rfl⟩
    · exact ⟨c.objects, rfl⟩

/-- What an accepted request leaves of the connection. -/
structure Kept (req : Request) (c c' : Connection) : Prop where
  /-- The packets are numbered after the request. -/
  nextServerSerial : c'.nextServerSerial = c.nextServerSerial
  lastClientSerial : c'.lastClientSerial = c.lastClientSerial
  phase : c'.phase = if req.opcode = .hello then .active else c.phase
  /-- The watermark of a connection only rises. -/
  idWatermark : c.idWatermark ≤ c'.idWatermark

theorem Effect.kept {k : ConnId} {now : UInt64} {header : Header} {cap : Option UInt64}
    {req : Request} {x y : Ctx} {batch : Batch} (h : Effect k now header cap req x batch y) :
    Kept req x.conn y.conn := by
  cases h with
  | createSurface role width height format hne hfresh
  | importBuffer _ _ _ _ _ _ hfresh =>
    exact ⟨rfl, rfl, rfl, le_of_lt hfresh⟩
  | @destroySurface x s _ _ _ hr1 hr2 =>
    obtain ⟨o1, h1⟩ := (cancels x.conn s).exists_eq
    obtain ⟨o2, h2⟩ := (gives { x.conn with objects := o1 } s).exists_eq
    rw [hr1, h1] at hr2
    rw [hr2, h2]
    exact ⟨rfl, rfl, rfl, UInt64.le_rfl⟩
  | @commitUnmap x s _ _ _ _ _ _ _ _ hr =>
    obtain ⟨o, h⟩ := (gives (x.conn.putSurface header.object s.unmapped) s).exists_eq
    rw [hr, h]
    exact ⟨rfl, rfl, rfl, UInt64.le_rfl⟩
  | @commitMap _ s _ _ _ _ _ _ _ _ _ _ hr =>
    obtain ⟨o, h⟩ := (replaces _ s).exists_eq
    rw [hr, h]
    exact ⟨rfl, rfl, rfl, UInt64.le_rfl⟩
  | _ => exact ⟨rfl, rfl, rfl, UInt64.le_rfl⟩

/-! ### Each arm has its effect, or is refused and changes nothing -/

section

variable {k : ConnId} {now : UInt64} {header : Header} {cap : Option UInt64} {x : Ctx}

/-- The body of a request either has its effect or stops with the state it found. -/
abbrev Settles (k : ConnId) (now : UInt64) (header : Header) (cap : Option UInt64) (req : Request)
    (m : Arm) (x : Ctx) : Prop :=
  Ends (fun batch y => Effect k now header cap req x batch y) (fun _ y => y = x) (m x)

theorem hello_settles {minMinor maxMinor : UInt16} {offered required : UInt64} :
    Settles k now header cap (.hello minMinor maxMinor offered required)
      (hello header.serial minMinor maxMinor offered required) x := by
  refine refuse (fun _ => rfl) fun _ => refuse (fun _ => rfl) fun _ =>
    refuse (fun _ => rfl) fun _ => ?_
  exact Effect.hello _ _ _ _ _

theorem createSurface_settles {role width height format : UInt32} :
    Settles k now header cap (.createSurface role width height format)
      (createSurface header.object header.serial role width height format) x := by
  refine ofExcept (fun _ _ => rfl) fun _ hfresh => refuse (fun _ => rfl) fun _ =>
    ofExcept (fun _ _ => rfl) fun _ _ => refuse (fun _ => rfl) fun _ =>
    refuse (fun _ => rfl) fun hlimit => ?_
  obtain ⟨hne, hlt⟩ := Connection.checkFresh_eq_ok.mp hfresh
  exact Effect.createSurface _ _ _ _ hne hlt (by simpa using hlimit)

theorem destroySurface_settles : Settles k now header cap .destroySurface
      (destroySurface k now header.object header.serial) x := by
  refine ofExcept (fun _ _ => rfl) fun s hs => ?_
  exact Effect.destroySurface (surfaceOf_eq_ok.mp hs) _ _ rfl rfl

/-- The two requests that only check a string. -/
theorem setText_ends {Q : Batch → Ctx → Prop} {ok : Bool}
    (h : ∀ s, x.conn.objects[header.object]? = some (.surface s) →
      Q [(header.object, .result header.serial)] x) :
    Ends Q (fun _ y => y = x) (setText header.object header.serial ok x) := by
  refine ofExcept (fun _ _ => rfl) fun _ hr => refuse (fun _ => rfl) fun _ => ?_
  obtain ⟨s, hs⟩ := require_eq_ok.mp hr
  exact h s hs

theorem ackConfigure_settles (configure : UInt64) :
    Settles k now header cap (.ackConfigure configure)
      (ackConfigure header.object header.serial configure) x := by
  refine ofExcept (fun _ _ => rfl) fun s hs => refuse (fun _ => rfl) fun hc => ?_
  simp only [Bool.or_eq_false_iff, bne_eq_false_iff_eq, beq_eq_false_iff_ne] at hc
  obtain ⟨rfl, hack⟩ := hc
  exact Effect.ackConfigure (surfaceOf_eq_ok.mp hs) hack

theorem importBuffer_settles {width height stride format : UInt32} (offset : UInt64) :
    Settles k now header cap (.importBuffer width height stride format offset)
      (importBuffer header.object header.serial width height stride format offset cap) x := by
  refine ofExcept (fun _ _ => rfl) fun _ hfresh => ofExcept (fun _ _ => rfl) fun _ _ =>
    refuse (fun _ => rfl) fun _ => refuse (fun _ => rfl) fun _ =>
    refuse (fun _ => rfl) fun hobject => refuse (fun _ => rfl) fun _ =>
    refuse (fun _ => rfl) fun hlimit => refuse (fun _ => rfl) fun hbudget => ?_
  obtain ⟨hne, hlt⟩ := Connection.checkFresh_eq_ok.mp hfresh
  simp only [Bool.or_eq_false_iff, decide_eq_false_iff_not, UInt64.not_lt] at hobject hbudget
  exact Effect.importBuffer _ _ _ _ _ hne hlt (by simpa using hlimit) hbudget hobject.2

theorem destroyBuffer_settles : Settles k now header cap .destroyBuffer
      (destroyBuffer header.object header.serial) x := by
  refine ofExcept (fun _ _ => rfl) fun b hb => refuse (fun _ => rfl) fun hav => ?_
  exact Effect.destroyBuffer (bufferOf_eq_ok.mp hb) (by simpa using hav)

theorem attachBuffer_settles (buffer : UInt64) (damage : List Rect) :
    Settles k now header cap (.attachBuffer buffer damage)
      (attachBuffer header.object header.serial buffer damage) x := by
  refine ofExcept (fun _ _ => rfl) fun s hs => ite (fun h0 => ?_) fun h0 => ?_
  · refine refuse (fun _ => rfl) fun hpend => refuse (fun _ => rfl) fun hd => ?_
    obtain rfl : damage = [] := by simpa using hd
    subst h0
    exact Effect.attachNothing (surfaceOf_eq_ok.mp hs) hpend
  · refine ofExcept (fun _ _ => rfl) fun b hb => refuse (fun _ => rfl) fun hpend =>
      refuse (fun _ => rfl) fun hav => refuse (fun _ => rfl) fun _ =>
      refuse (fun _ => rfl) fun _ => ?_
    exact Effect.attachSome _ (surfaceOf_eq_ok.mp hs) hpend h0
      (bufferOf_eq_ok.mp hb) (by simpa using hav)

theorem commit_settles (configure : UInt64) (frameCallback : UInt32) :
    Settles k now header cap (.commit configure frameCallback)
      (commit k now header.object header.serial configure frameCallback) x := by
  refine refuse (fun _ => rfl) fun hle => ofExcept (fun _ _ => rfl) fun s hs =>
    refuse (fun _ => rfl) fun hpend => refuse (fun _ => rfl) fun hready =>
    refuse (fun _ => rfl) fun hframe => ?_
  replace hle : frameCallback ≤ 1 := by simpa using hle
  replace hpend : s.pendingAttach = true := by simpa using hpend
  replace hframe : ¬(frameCallback = 1 ∧ s.framePending = true) := by simpa using hframe
  obtain ⟨rfl, hack⟩ : configure = s.latestToken ∧ s.ackedToken = s.latestToken := by
    simpa [Surface.configureReady] using hready
  replace hs := surfaceOf_eq_ok.mp hs
  refine ite (fun h0 => ?_) fun h0 => ?_
  · exact Effect.commitUnmap hs hpend h0 hack hframe hle _ rfl
  · refine ofExcept (fun _ _ => rfl) fun b hb => ofExcept (fun _ _ => rfl) fun _ _ =>
      refuse (fun _ => rfl) fun _ => ?_
    exact Effect.commitMap hs hpend h0 (bufferOf_eq_ok.mp hb) hack hframe hle _ rfl

/-- What becomes of a decoded request: it is refused and changes nothing, or it is
DISCONNECT, or it has its effect. A refusal tears the connection down only if the request
was HELLO. -/
def Dispatched (k : ConnId) (now : UInt64) (header : Header) (cap : Option UInt64) (req : Request)
    (x : Ctx) (r : Emit × Ctx) : Prop :=
  (∃ e fatal, (fatal = true → req.opcode = .hello) ∧
    r = (error header.object header.serial e fatal, x)) ∨
  (req = .disconnect ∧ r = (([(0, .result header.serial)], true), x)) ∨
  ∃ batch y, Effect k now header cap req x batch y ∧ r = ((batch, false), y)

theorem Settles.dispatched {m : Arm} {req : Request} {fatal : Bool}
    (h : Settles k now header cap req m x) (hfatal : fatal = true → req.opcode = .hello) :
    Dispatched k now header cap req x (answer header.object header.serial fatal m x) := by
  rcases hm : m x with ⟨e | batch, y⟩
  · refine .inl ⟨e, fatal, hfatal, ?_⟩
    rw [answer, hm, h.of_error hm]
  · refine .inr (.inr ⟨batch, y, h.of_ok hm, ?_⟩)
    rw [answer, hm]

/-- **Every decoded request** is refused, or is DISCONNECT, or has its effect. -/
theorem dispatch_cases (k : ConnId) (now : UInt64) (header : Header) (cap : Option UInt64)
    (x : Ctx) (req : Request) :
    Dispatched k now header cap req x (dispatch k now header req cap x) := by
  cases req with
  | hello a b c d => exact (hello_settles).dispatched fun _ => rfl
  | disconnect => exact .inr (.inl ⟨rfl, rfl⟩)
  | createSurface a b c d => exact (createSurface_settles).dispatched (by simp)
  | destroySurface => exact destroySurface_settles.dispatched (by simp)
  | setTitle s => exact Settles.dispatched (setText_ends fun _ => Effect.setTitle s) (by simp)
  | setAppId s => exact Settles.dispatched (setText_ends fun _ => Effect.setAppId s) (by simp)
  | ackConfigure t => exact (ackConfigure_settles t).dispatched (by simp)
  | importBuffer a b c d e => exact (importBuffer_settles e).dispatched (by simp)
  | destroyBuffer => exact destroyBuffer_settles.dispatched (by simp)
  | attachBuffer b d => exact (attachBuffer_settles b d).dispatched (by simp)
  | commit t f => exact (commit_settles t f).dispatched (by simp)

end

end DunitOS.Gui
