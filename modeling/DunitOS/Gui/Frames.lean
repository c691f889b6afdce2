import DunitOS.Gui.Objects
import Mathlib.Data.List.Nodup

/-!
# Frame callbacks

A COMMIT with `frame_callback = 1` asks to be told when its frame is over, and the answer
is one FRAME_DONE with the serial of that COMMIT. The protocol of one surface is the
machine `Frame.step`. A composition tick, an unmapping COMMIT and a
DESTROY_SURFACE make an outstanding callback due, a FRAME_DONE is read only when it is due,
and no call may leave one due (`Frame.Settled`); PRESENTED is read only if a
composition tick has found the surface mapped.

On every connection of every run the machine reads the whole life of the connection, for
every surface, and no serial is reported twice (`run_frames`).
-/

namespace DunitOS.Gui

open SysLib Std List Connection Option Item UInt64

open ExtTreeMap (getElem?_insert_self getElem?_erase_self)

variable {i : ObjectId} {f f' : Frame}

/-! ### The protocol of one surface -/

/-- What a surface owes to its client. -/
inductive Callback
  | none
  /-- The COMMIT with the given serial has asked for a callback. -/
  | outstanding (commit : UInt64)
  /-- The callback has to be completed by the present call, as PRESENTED only if the
  surface was found mapped. -/
  | due (commit : UInt64) (presentable : Bool)
  /-- The connection is closed. -/
  | over
  deriving DecidableEq, Repr

/-- What the protocol remembers of a surface. -/
structure Frame where
  /-- The pending attach; zero is an unmap. -/
  attach : Option ObjectId
  mapped : Bool
  callback : Callback
  deriving DecidableEq, Repr

variable {batch : Batch} {f' : Frame} {object : ObjectId}

namespace Frame

variable {i : ObjectId} {f : Frame}

def init : Frame := ⟨none, false, .none⟩

/-- No callback is due. -/
def Settled (f : Frame) : Prop := ∀ commit presentable, f.callback ≠ .due commit presentable

/-- The contents of the surface are gone, or a composition tick has come. -/
def end_ (presentable : Bool) (f : Frame) : Frame :=
  match f.callback with
  | .outstanding commit => { f with callback := .due commit presentable }
  | _ => f

/-- The connection is closed. -/
def close (f : Frame) : Frame := { f with callback := .over }

/-- A COMMIT asks for a callback, or does not; only one may be outstanding. -/
def ask (ser : UInt64) (frameCallback : UInt32) (f : Frame) : Option Frame :=
  if frameCallback = 1 then
    if f.callback = .none then some { f with callback := .outstanding ser } else none
  else some f

/-- An accepted request on the surface. -/
def onRequest (ser : UInt64) : Request → Frame → Option Frame
  | .attachBuffer buffer _, f => some { f with attach := some buffer }
  | .commit _ frameCallback, f => (f.ask ser frameCallback).map fun f' =>
    if f.attach = some 0 then { f'.end_ false with attach := none, mapped := false }
    else { f' with attach := none, mapped := true }
  | .destroySurface, f => some { f.end_ false with attach := none, mapped := false }
  | _, f => some f

theorem onRequest_commit (ser configure : UInt64) (frameCallback : UInt32) (f : Frame) :
    onRequest ser (.commit configure frameCallback) f = (f.ask ser frameCallback).map fun f' =>
      if f.attach = some 0 then { f'.end_ false with attach := none, mapped := false }
      else { f' with attach := none, mapped := true } := rfl

/-- A packet to the client. -/
def onEvent (i object : ObjectId) : Event → Frame → Option Frame
  | .frameDone commit _ status, f =>
    if object = i then
      match f.callback with
      | .due commit' presentable =>
        if commit = commit' ∧ (status = framePresented → presentable = true) then
          some { f with callback := .none }
        else none
      | _ => none
    else some f
  | .error _ _ fatal, f => if fatal = 1 then some f.close else some f
  | _, f => some f

/-- **The protocol of one surface.** -/
def step (i : ObjectId) (f : Frame) : Item → Option Frame
  | .accepted _ .disconnect => some f.close
  | .accepted header req => if header.object = i then onRequest header.serial req f else some f
  | .refused _ => some f
  | .composite => some (f.end_ f.mapped)
  | .removed => some f.close
  | .sent p => onEvent i p.object p.event f

/-- The protocol, as it reads a packet. -/
abbrev read (i : ObjectId) (f : Frame) (e : ObjectId × Event) : Option Frame :=
  onEvent i e.1 e.2 f

theorem leads_batch (h : Leads (read i) f batch f')
    {k : ConnId} {c : Connection} : Leads (step i) f (c.sends k batch) f' :=
  leads_sends (fun _ _ => rfl) h

/-- Events that have nothing to do with frame callbacks. -/
def quiet : Event → Bool
  | .frameDone .. => false
  | .error _ _ fatal => fatal != 1
  | _ => true

theorem read_of_quiet {e : ObjectId × Event} (h : quiet e.2 = true) : read i f e = some f := by
  obtain ⟨object, ev⟩ := e
  cases ev with
  | frameDone => cases h
  | error => exact if_neg (by simpa [quiet] using h)
  | _ => rfl

theorem leads_of_quiet (h : ∀ e ∈ batch, quiet e.2 = true) : Leads (read i) f batch f :=
  leads_of_silent fun e he => read_of_quiet (h e he)

theorem read_of_ne (h : object ≠ i) (commit now : UInt64)
    (status : UInt32) : read i f (object, .frameDone commit now status) = some f := if_neg h

end Frame

open Gui.Frame

/-! ### The surface that is remembered -/

/-- What the protocol remembers of an object. -/
def frameOf : Option Object → Frame
  | some (.surface s) =>
    ⟨if s.pendingAttach then some s.pendingBuffer else none, s.mapped,
      if s.framePending then .outstanding s.frameToken else .none⟩
  | _ => Frame.init

theorem frameOf_settled {o : Option Object} : (frameOf o).Settled := by
  intro commit presentable h
  rcases o with _ | ⟨s | b⟩
  · cases h
  · rw [frameOf] at h
    split_ifs at h
  · cases h

section

variable {t : ExtTreeMap ObjectId Object} {j a : ObjectId}

theorem frameOf_freeRef {r : Option ObjectId} : frameOf (freeRef r t)[a]? = frameOf t[a]? :=
  view_freeRef fun _ => rfl

theorem frameOf_insert_buffer {b : Buffer} (hj : frameOf t[j]? = init) :
    frameOf (t.insert j (.buffer b))[a]? = frameOf t[a]? := view_insert hj.symm

end

/-! ### Requests -/

section

variable {k : ConnId} {now : UInt64} {header : Header} {cap : Option UInt64} {req : Request}
  {x y : Ctx} {batch : Batch} {i : ObjectId}

/-! The parts of an answer that have nothing to do with frame callbacks. -/

theorem Frame.leads_dropSurface (f : Frame) (seat : Seat) (tgt : Target) :
    Leads (read i) f (seat.dropSurface tgt).2 f :=
  leads_of_quiet fun e he => by
    rcases Seat.of_mem_dropSurface he with rfl | rfl <;> rfl

variable {f : Frame}

theorem Frame.leads_givesUp {c : Connection} {r : Connection × Batch} (h : c.GivesUp r) :
    Leads (read i) f r.2 f :=
  leads_of_quiet fun e he => by
    obtain ⟨⟨commit, hev⟩, -⟩ := h.releases he
    rw [hev]
    rfl

theorem Frame.leads_result (f : Frame) (obj ser : UInt64) :
    Leads (read i) f [(obj, .result ser)] f := leads_singleton rfl

/-- The discarded callbacks of another surface. -/
theorem Frame.leads_discarded_of_ne (h : object ≠ i) (f : Frame)
    {token : Option UInt64} :
    Leads (read i) f (Arm.discarded object now token) f := by
  cases token with
  | none => exact leads_nil
  | some => exact leads_singleton (read_of_ne h _ _ _)

/-- The machine reads a request and the batch it is answered with. -/
def Frame.Follows (i : ObjectId) (header : Header) (req : Request) (batch : Batch)
    (f f' : Frame) : Prop :=
  ∃ f1, (if header.object = i then Frame.onRequest header.serial req f else some f) = some f1 ∧
    Leads (Frame.read i) f1 batch f'

/-- A request that changes nothing about callbacks, answered with RESULT. -/
theorem Frame.Follows.of_result (hreq : header.object = i → onRequest header.serial req f = some f')
    (hother : header.object ≠ i → f = f') :
    Follows i header req [(header.object, .result header.serial)] f f' := by
  by_cases hi : header.object = i
  · exact ⟨f', (if_pos hi).trans (hreq hi), leads_singleton rfl⟩
  · exact ⟨f', (if_neg hi).trans (congrArg some (hother hi)), leads_singleton rfl⟩

theorem Frame.Follows.of_same (hreq : onRequest header.serial req f = some f) (h : f' = f) :
    Follows i header req [(header.object, .result header.serial)] f f' :=
  .of_result (fun _ => h ▸ hreq) fun _ => h.symm

/-- What is due because the contents are gone is discarded at once. -/
theorem Frame.leads_discarded (now commit : UInt64) :
    Leads (read i) ⟨none, false, .due commit false⟩ (Arm.discarded i now (some commit)) init := by
  refine leads_singleton ?_
  simp [read, onEvent, init, frameDiscarded, framePresented]

section

variable {s : Surface} {o : Option Object} {left : Batch}

/-- DESTROY_SURFACE completes what was outstanding. -/
theorem Frame.follows_destroySurface (hleft : ∀ f, Leads (read header.object) f left f) :
    Follows header.object header .destroySurface (left ++
      Arm.discarded header.object now (if s.framePending then some s.frameToken else none) ++
      [(header.object, .result header.serial)]) (frameOf (some (.surface s))) init := by
  refine ⟨_, if_pos rfl, ((hleft _).append ?_).append (leads_result _ _ _)⟩
  by_cases hf : s.framePending = true
  · simp only [frameOf, hf, if_true, end_]
    exact leads_discarded now s.frameToken
  · simp only [frameOf, hf, Bool.false_eq_true, if_false, end_]
    exact leads_nil

variable {frameCallback : UInt32}

/-- An unmapping COMMIT completes what was outstanding, or what it asks for itself. -/
theorem Frame.follows_unmap (hpend : s.pendingAttach = true)
    (hnone : s.pendingBuffer = 0) (hframe : ¬(frameCallback = 1 ∧ s.framePending = true))
    (hleft : ∀ f, Leads (read header.object) f left f) (configure : UInt64) :
    Follows header.object header (.commit configure frameCallback)
      ([(header.object, .result header.serial)] ++ left ++
        Arm.discarded header.object now (s.discards header.serial frameCallback))
      (frameOf (some (.surface s))) init := by
  by_cases hf : s.framePending = true
  · have hcb : frameCallback ≠ 1 := fun h => hframe ⟨h, hf⟩
    refine ⟨⟨none, false, .due s.frameToken false⟩, ?_,
      ((leads_result _ _ _).append (hleft _)).append ?_⟩
    · simp [onRequest_commit, ask, hcb, frameOf, hpend, hnone, hf, end_]
    · simp only [Surface.discards, hf, if_true]
      exact leads_discarded now s.frameToken
  · by_cases hcb : frameCallback = 1
    · refine ⟨⟨none, false, .due header.serial false⟩, ?_,
        ((leads_result _ _ _).append (hleft _)).append ?_⟩
      · simp [onRequest_commit, ask, hcb, frameOf, hpend, hnone, hf, end_]
      · simp only [Surface.discards, hf, hcb, Bool.false_eq_true, if_false, if_true]
        exact leads_discarded now header.serial
    · refine ⟨.init, ?_, ((leads_result _ _ _).append (hleft _)).append ?_⟩
      · simp [onRequest_commit, ask, hcb, frameOf, hpend, hnone, hf, end_, init]
      · simp only [Surface.discards, hf, hcb, Bool.false_eq_true, if_false]
        exact leads_nil

/-- A COMMIT that shows something asks for a callback, or leaves the outstanding one. -/
theorem Frame.follows_show (hpend : s.pendingAttach = true)
    (hne : s.pendingBuffer ≠ 0) (hframe : ¬(frameCallback = 1 ∧ s.framePending = true))
    (hleft : ∀ f, Leads (read header.object) f left f) (configure : UInt64) :
    Follows header.object header (.commit configure frameCallback)
      ([(header.object, .result header.serial)] ++ left) (frameOf (some (.surface s)))
      (frameOf (some (.surface (s.showing header.serial frameCallback)))) := by
  refine ⟨frameOf (some (.surface (s.showing header.serial frameCallback))), ?_,
    (leads_result _ _ _).append (hleft _)⟩
  by_cases hf : s.framePending = true <;> by_cases hcb : frameCallback = 1
  · exact absurd ⟨hcb, hf⟩ hframe
  all_goals simp [onRequest_commit, ask, hcb, frameOf, hpend, hne, hf, Surface.showing]

end

/-- A surface that is replaced by one with the same callbacks. -/
theorem frameOf_insert_of_ne {t : ExtTreeMap ObjectId Object} {j : ObjectId} {o : Object}
    (h : j ≠ i) : frameOf (t.insert j o)[i]? = frameOf t[i]? := by
  rw [getElem?_insert_of_ne h]

/-- **Every accepted request obeys the protocol** of every surface. -/
theorem Effect.frame (h : Effect k now header cap req x batch y) (hx : x.conn.Wf) (i : ObjectId) :
    Follows i header req batch (frameOf x.conn.objects[i]?) (frameOf y.conn.objects[i]?) := by
  have hl := hx.links
  have ht := hx.tally
  cases h with
  | hello =>
    exact ⟨_, by split_ifs <;> rfl, leads_singleton rfl⟩
  | createSurface _ _ _ _ _ hfresh =>
    refine ⟨frameOf x.conn.objects[i]?, by split_ifs <;> rfl,
      leads_cons rfl (leads_cons ?_ leads_nil)⟩
    exact congrArg some (view_insert (by rw [ht.fresh hfresh]; rfl)).symm
  | @destroySurface x s hs _ _ hr1 hr2 =>
    subst hr1
    subst hr2
    have hleft : ∀ j f, Leads (read j) f ((x.seat.dropSurface (k, header.object)).2 ++
        (Arm.cancelPending x.conn s).2 ++
        (Arm.releaseCommitted (Arm.cancelPending x.conn s).1 s).2) f := fun j f =>
      ((leads_dropSurface f _ _).append (leads_givesUp (Arm.cancels _ _))).append
        (leads_givesUp (Arm.gives _ _))
    by_cases hi : header.object = i
    · subst hi
      rw [hs, getElem?_erase_self]
      exact follows_destroySurface (hleft _)
    · have hlast : frameOf (((Arm.releaseCommitted (Arm.cancelPending x.conn s).1 s).1.objects.erase
          header.object)[i]?) = frameOf x.conn.objects[i]? := by
        rw [getElem?_erase_of_ne hi, Arm.releaseCommitted_fst, frameOf_freeRef,
          Arm.cancelPending_fst _ (hl.sound _ _ hs), frameOf_freeRef]
      rw [hlast]
      exact ⟨_, if_neg hi, ((hleft i _).append (leads_discarded_of_ne hi _)).append
        (leads_result _ _ _)⟩
  | setTitle | setAppId => exact .of_same rfl rfl
  | ackConfigure hs => exact .of_same rfl (view_insert (by rw [hs]; rfl))
  | importBuffer _ _ _ _ _ _ hfresh =>
    exact .of_same rfl (view_insert (by rw [ht.fresh hfresh]; rfl))
  | destroyBuffer hb => exact .of_same rfl (view_erase (by rw [hb]; rfl))
  | @attachNothing _ _ hs =>
    refine .of_result (fun hi => ?_) fun hi => (frameOf_insert_of_ne hi).symm
    subst hi
    dsimp only [putSurface]
    rw [getElem?_insert_self, hs]
    rfl
  | @attachSome _ _ _ _ _ hs _ _ hb =>
    refine .of_result (fun hi => ?_) fun hi => ?_
    · subst hi
      dsimp only [putSurface]
      rw [getElem?_insert_self, hs]
      rfl
    · dsimp only [putSurface, putBuffer]
      rw [frameOf_insert_of_ne hi, frameOf_insert_buffer (by rw [hb]; rfl)]
  | @commitUnmap x s _ hs hpend hnone _ hframe _ _ hr =>
    subst hr
    have hleft : ∀ j f, Leads (read j) f ((x.seat.dropSurface (k, header.object)).2 ++
        (Arm.releaseCommitted (x.conn.putSurface header.object s.unmapped) s).2) f := fun j f =>
      (leads_dropSurface f _ _).append (leads_givesUp (Arm.gives _ _))
    have hlast : frameOf (Arm.releaseCommitted
        (x.conn.putSurface header.object s.unmapped) s).1.objects[i]? =
          if header.object = i then .init else frameOf x.conn.objects[i]? := by
      rw [Arm.releaseCommitted_fst, frameOf_freeRef]
      dsimp only [putSurface]
      split_ifs with hi
      · subst hi
        rw [getElem?_insert_self]
        rfl
      · rw [frameOf_insert_of_ne hi]
    rw [append_assoc [_], hlast]
    split_ifs with hi
    · subst hi
      rw [hs]
      exact follows_unmap hpend hnone hframe (hleft _) _
    · exact ⟨_, if_neg hi, ((leads_result _ _ _).append (hleft i _)).append
        (leads_discarded_of_ne hi _)⟩
  | @commitMap x s buf frameCallback hs hpend hne hb _ hframe _ _ hr =>
    subst hr
    have hlast : frameOf ((x.conn.shown header.object header.serial frameCallback s buf).replaced
        s).1.objects[i]? = if header.object = i then
          frameOf (some (.surface (s.showing header.serial frameCallback)))
        else frameOf x.conn.objects[i]? := by
      rw [replaced_eq _ (hl.committed_ne_pending hs hne), Arm.releaseCommitted_fst,
        frameOf_freeRef]
      dsimp only [shown, putSurface, putBuffer]
      split_ifs with hi
      · subst hi
        rw [getElem?_insert_self]
      · rw [frameOf_insert_of_ne hi, frameOf_insert_buffer (by rw [hb]; rfl)]
    rw [hlast]
    split_ifs with hi
    · subst hi
      rw [hs]
      exact follows_show hpend hne hframe (fun f => leads_givesUp (replaces _ _)) _
    · exact ⟨_, if_neg hi, (leads_result _ _ _).append (leads_givesUp (replaces _ _))⟩

end

/-! ### Composition -/

section

variable {c : Connection} {now : UInt64} {i : ObjectId} {e : ObjectId × Event}

/-- What a composition tick sends for an object. -/
def Object.frame (now : UInt64) (e : ObjectId × Object) : Option (ObjectId × Event) :=
  match e.2 with
  | .surface s =>
    if s.framePending then some (e.1, .frameDone s.frameToken now s.frameStatus) else none
  | .buffer _ => none

theorem Connection.frames_eq (now : UInt64) (c : Connection) :
    c.frames now = c.objects.toList.filterMap (Object.frame now) := rfl

/-- What is sent for an object names it. -/
theorem Object.of_frame_eq_some {o : ObjectId × Object} (h : Object.frame now o = some e) :
    e.1 = o.1 ∧ ∃ s, o.2 = .surface s ∧ s.framePending = true ∧
      e.2 = .frameDone s.frameToken now s.frameStatus := by
  obtain ⟨id, s | b⟩ := o
  · rw [Object.frame] at h
    dsimp only at h
    split_ifs at h with hf
    obtain rfl := some.inj h
    exact ⟨rfl, s, rfl, hf, rfl⟩
  · cases h

/-- The packets of a tick that are not about the surface are ignored. -/
theorem Frame.leads_frames_of_ne {l : List (ObjectId × Object)} (h : ∀ o ∈ l, o.1 ≠ i) (f : Frame) :
    Leads (read i) f (l.filterMap (Object.frame now)) f := by
  refine leads_of_silent fun e he => ?_
  obtain ⟨o, ho, hoe⟩ := mem_filterMap.mp he
  obtain ⟨h1, s, -, -, h2⟩ := Object.of_frame_eq_some hoe
  rw [read, h2]
  exact read_of_ne (fun h' => h o ho (h1 ▸ h')) _ _ _

/-- **A composition tick obeys the protocol** of every surface. -/
theorem Frame.leads_composite :
    Leads (read i) ((frameOf c.objects[i]?).end_ (frameOf c.objects[i]?).mapped)
      (c.frames now) (frameOf c.composed.objects[i]?) := by
  have hlast : frameOf c.composed.objects[i]? = frameOf (c.objects[i]?.map Object.unframed) := by
    dsimp only [composed]
    rw [ExtTreeMap.getElem?_map]
  rw [hlast, Connection.frames_eq]
  rcases ho : c.objects[i]? with _ | o
  · refine leads_frames_of_ne (fun o' ho' hi => ?_) _
    rw [← hi, ExtTreeMap.mem_toList_iff_getElem?_eq_some.mp ho'] at ho
    cases ho
  · -- The object stands at one place of the list, and no other entry has its id.
    obtain ⟨l1, l2, hsplit⟩ := append_of_mem
      (ExtTreeMap.mem_toList_iff_getElem?_eq_some.mpr ho)
    have hdistinct := ExtTreeMap.distinct_keys_toList (t := c.objects)
    rw [hsplit] at hdistinct ⊢
    obtain ⟨-, hcons, hbefore⟩ := pairwise_append.mp hdistinct
    have h1 : ∀ o' ∈ l1, o'.1 ≠ i := fun o' ho' => by
      simpa using hbefore o' ho' _ mem_cons_self
    have h2 : ∀ o' ∈ l2, o'.1 ≠ i := fun o' ho' hi => by
      have := (pairwise_cons.mp hcons).1 o' ho'
      simp [hi] at this
    rw [filterMap_append, filterMap_cons]
    refine (leads_frames_of_ne h1 _).append ?_
    rcases o with s | b
    · by_cases hf : s.framePending = true
      · have hstatus : s.frameStatus = framePresented → s.mapped = true := by
          rw [Surface.frameStatus]
          split_ifs with hm
          · exact fun _ => hm
          · simp [frameDiscarded, framePresented]
        simp only [Object.frame, hf, if_true]
        refine leads_cons ?_ (leads_frames_of_ne h2 _)
        simp [read, onEvent, frameOf, hf, end_, Object.unframed]
        exact hstatus
      · simp only [Object.frame, hf]
        have hsame : frameOf ((some (Object.surface s)).map Object.unframed) =
            frameOf (some (.surface s)) := by
          simp [frameOf, Object.unframed, hf]
        have hend : ∀ p, (frameOf (some (.surface s))).end_ p = frameOf (some (.surface s)) := by
          simp [frameOf, end_, hf]
        rw [hsame, hend]
        exact leads_frames_of_ne h2 _
    · exact leads_frames_of_ne h2 _

end

/-! ### Runs -/

/-- What the protocol remembers of a surface of a connection. -/
def Tracks (i : ObjectId) (c : Connection) (f : Frame) : Prop :=
  (c.phase = .closed → f.callback = .over) ∧ (c.phase ≠ .closed → f = frameOf c.objects[i]?)

variable {c : Connection}

theorem Tracks.settled (h : Tracks i c f) : f.Settled := by
  by_cases hc : c.phase = .closed
  · intro commit presentable hf
    rw [h.1 hc] at hf
    cases hf
  · rw [h.2 hc]
    exact frameOf_settled

section

variable {k : ConnId} {now : UInt64} {c c' : Connection} {items : List Item} {i : ObjectId}
  {f : Frame}

/-- A connection that has not said HELLO has no objects. -/
def Connection.Blank (c : Connection) : Prop := c.phase = .new → c.objects = ∅

theorem Step.blank (h : Step k now c items c') (hc : c.Blank) : c'.Blank := by
  intro hnew
  cases h with
  | accept _ _ _ hn _ hx he =>
    have hphase := he.kept.phase
    rw [hx] at hphase
    split_ifs at hphase with hop
    · exact absurd (hnew.symm.trans hphase) (by simp)
    · exact absurd (hn (hphase.symm.trans hnew)) hop
  | reject | disconnect | overflow => cases hnew
  | composite hactive => exact absurd (hactive.symm.trans hnew) (by simp)
  | reconfigure _ _ _ _ hactive =>
    exact absurd (hactive.symm.trans hnew) (by simp)
  | _ => exact hc hnew

/-- A callback that is over stays over, whatever comes. -/
theorem Frame.end_over (h : f.callback = .over) {p : Bool} : f.end_ p = f := by
  rw [end_, h]

/-- **Every step obeys the protocol** of every surface. -/
theorem Step.tracks (h : Step k now c items c') (hc : c.Wf) (hblank : c.Blank)
    (hf : Tracks i c f) : ∃ f', Leads (step i) f items f' ∧ Tracks i c' f' := by
  have hquiet : ∀ {batch : Batch}, (∀ e ∈ batch, quiet e.2 = true) →
      Leads (step i) f (c.sends k batch) f := fun h =>
    leads_batch (leads_of_quiet h)
  have hfatal : ∀ {object request : UInt64} {code : UInt32},
      Leads (step i) f (c.sends k [(object, .error request code 1)]) f.close := by
    intro object request code
    have hread : read i f (object, .error request code 1) = some f.close := by
      simp [Frame.read, Frame.onEvent]
    exact leads_batch (leads_singleton hread)
  cases h with
  | idle => exact ⟨f, leads_nil, hf⟩
  | refuse => exact ⟨f, leads_cons rfl (hquiet (by simp [quiet])), hf⟩
  | reject =>
    exact ⟨f.close, leads_cons rfl hfatal, fun _ => rfl, fun h => absurd rfl h⟩
  | disconnect =>
    refine ⟨f.close, leads_cons rfl (leads_batch (leads_singleton rfl)),
      fun _ => rfl, fun h => absurd rfl h⟩
  | @accept header _ req _ y _ hopen _ _ _ _ hx he =>
    have hframe := he.frame (by rw [hx]; exact ⟨hc.links, hc.tally⟩) i
    have hphase : y.conn.phase ≠ .closed := by
      have := he.kept.phase
      rw [hx] at this
      rw [this]
      split_ifs
      · simp
      · exact hopen
    rw [hx] at hframe
    obtain ⟨f1, h1, h2⟩ := hframe
    have hread : step i f (.accepted header req) = some f1 := by
      rw [hf.2 hopen]
      cases he <;> exact h1
    exact ⟨frameOf y.conn.objects[i]?, leads_cons hread (leads_batch h2),
      fun h => absurd h hphase, fun _ => rfl⟩
  | composite hactive =>
    have hopen : c.phase ≠ .closed := by
      rw [hactive]
      simp
    refine ⟨_, leads_cons rfl (leads_batch ?_), fun h => absurd h hopen, fun _ => rfl⟩
    rw [hf.2 hopen]
    exact leads_composite
  | pass hpassive =>
    refine ⟨f, leads_singleton ?_, hf⟩
    by_cases hclosed : c.phase = .closed
    · exact congrArg some (end_over (hf.1 hclosed))
    · have hnew : c.phase = .new := by
        cases hp : c.phase
        · rfl
        · exact absurd hp hpassive
        · exact absurd hp hclosed
      rw [hf.2 hclosed, hblank hnew, ExtTreeMap.getElem?_empty]
      rfl
  | @reconfigure _ _ _ _ _ _ _ hs =>
    exact ⟨f, hquiet (by simp [quiet]), hf.1, fun hopen =>
      (hf.2 hopen).trans (view_insert (by rw [hs]; rfl)).symm⟩
  | input _ _ hinput =>
    refine ⟨f, hquiet fun e he => ?_, hf⟩
    have := hinput e he
    generalize e.2 = ev at this
    cases ev <;> first | rfl | cases this
  | overflow => exact ⟨f.close, hfatal, fun _ => rfl, fun h => absurd rfl h⟩

end

/-! ### No serial twice -/

/-- The serial of a COMMIT on a surface that asks for a callback. -/
def Item.asked (i : ObjectId) : Item → Option UInt64
  | .accepted header (.commit _ frameCallback) =>
    if header.object = i ∧ frameCallback = 1 then some header.serial else none
  | _ => none

/-- The surface and the serial of a FRAME_DONE. -/
def Item.reported : Item → Option (ObjectId × UInt64)
  | .sent p => match p.event with
    | .frameDone commit _ _ => some (p.object, commit)
    | _ => none
  | _ => none

/-- The header of an accepted request. -/
def Item.header : Item → Option Header
  | .accepted header _ => some header
  | _ => none

/-- The serials that FRAME_DONE has reported on a connection. -/
def frameTokens (l : List Item) : List UInt64 := (l.filterMap Item.reported).map Prod.snd

/-- The serials that FRAME_DONE has reported for a surface. -/
def tokensOf (i : ObjectId) (l : List Item) : List UInt64 :=
  ((l.filterMap Item.reported).filter fun e => e.1 = i).map Prod.snd

/-- The serial that is still owed. -/
def Callback.token : Callback → List UInt64
  | .outstanding commit => [commit]
  | .due commit _ => [commit]
  | _ => []

theorem tokensOf_append {l m : List Item} :
    tokensOf i (l ++ m) = tokensOf i l ++ tokensOf i m := by
  rw [tokensOf, filterMap_append, filter_append, map_append, tokensOf, tokensOf]

theorem Frame.token_end_ (f : Frame) (p : Bool) : (f.end_ p).callback.token = f.callback.token := by
  rw [end_]
  rcases hf : f.callback with _ | commit | ⟨commit, p'⟩ | _ <;> simp [hf, Callback.token]

/-- A request on a surface owes what was owed, and what it asks for. -/
theorem Frame.onRequest_token {header : Header} {req : Request}
    (h : onRequest header.serial req f = some f') :
    f'.callback.token =
      f.callback.token ++ [accepted header req].filterMap (asked header.object) := by
  cases req with
  | attachBuffer =>
    obtain rfl := some.inj h
    exact (append_nil _).symm
  | destroySurface =>
    obtain rfl := some.inj h
    exact (f.token_end_ false).trans (append_nil _).symm
  | commit =>
    obtain ⟨f1, hask, hf'⟩ := map_eq_some_iff.mp h
    have htoken : f'.callback.token = f1.callback.token := by
      rw [← hf']
      split_ifs
      · exact f1.token_end_ false
      · rfl
    rw [htoken]
    rw [ask] at hask
    split_ifs at hask with hcb hnone
    · obtain rfl := some.inj hask
      simp [hnone, hcb, Callback.token, asked]
    · obtain rfl := some.inj hask
      simp [hcb, asked]
  | _ =>
    obtain rfl := some.inj h
    exact (append_nil _).symm

/-- What a packet reports was owed. -/
theorem Frame.onEvent_token {p : Packet} (h : onEvent i p.object p.event f = some f') :
    (tokensOf i [.sent p] ++ f'.callback.token).Sublist f.callback.token := by
  obtain ⟨conn, object, serial, ev⟩ := p
  cases ev with
  | frameDone =>
    by_cases hi : object = i
    · rw [onEvent, if_pos hi] at h
      rcases hf : f.callback with _ | commit' | ⟨commit', p⟩ | _ <;> rw [hf] at h
      case due =>
        dsimp only at h
        split_ifs at h with hc
        obtain rfl := some.inj h
        simp [tokensOf, reported, hi, hc.1, Callback.token]
      all_goals cases h
    · rw [onEvent, if_neg hi] at h
      obtain rfl := some.inj h
      simp [tokensOf, reported, hi]
  | error =>
    rw [onEvent] at h
    split_ifs at h
    · obtain rfl := some.inj h
      exact nil_sublist _
    · obtain rfl := some.inj h
      exact List.Sublist.refl _
  | _ =>
    obtain rfl := some.inj h
    exact List.Sublist.refl _

/-- What is reported, or still owed, has been asked for, each time anew. -/
theorem Frame.step_tokens {a : Item} (h : step i f a = some f') :
    (tokensOf i [a] ++ f'.callback.token).Sublist
      (f.callback.token ++ [a].filterMap (asked i)) := by
  cases a with
  | accepted header req =>
    by_cases hreq : req = .disconnect
    · subst hreq
      obtain rfl := some.inj h
      exact nil_sublist _
    · have h' : (if header.object = i then onRequest header.serial req f else some f) =
          some f' := by
        cases req <;> first | exact h | exact absurd rfl hreq
      split_ifs at h' with hi
      · subst hi
        rw [← onRequest_token h']
        exact List.Sublist.refl _
      · obtain rfl := some.inj h'
        exact sublist_append_left _ _
  | refused =>
    obtain rfl := some.inj h
    exact sublist_append_left _ _
  | composite =>
    obtain rfl := some.inj h
    rw [token_end_]
    exact sublist_append_left _ _
  | removed =>
    obtain rfl := some.inj h
    exact nil_sublist _
  | sent => exact (onEvent_token h).trans (sublist_append_left _ _)

variable {l : List Item}

theorem Frame.tokens_sublist (h : Leads (step i) init l f) :
    (tokensOf i l ++ f.callback.token).Sublist (l.filterMap (asked i)) := by
  induction l using reverseRecOn generalizing f with
  | nil =>
    obtain rfl := some.inj h
    exact List.Sublist.refl _
  | append_singleton _ _ ih =>
    obtain ⟨f1, h1, h2⟩ := h.of_snoc
    rw [tokensOf_append, filterMap_append, append_assoc]
    refine ((List.Sublist.refl _).append (step_tokens h2)).trans ?_
    rw [← append_assoc]
    exact (ih h1).append (List.Sublist.refl _)

theorem filterMap_header_sends (k : ConnId) (batch : Batch) :
    (c.sends k batch).filterMap header = [] := by
  rw [sends, filterMap_map]
  exact filterMap_eq_nil_iff.mpr fun _ _ => rfl

/-- What a step adds to the accepted requests. -/
theorem Step.serials {k : ConnId} {now : UInt64} {c' : Connection} {items : List Item}
    (h : Step k now c items c') :
    (items.filterMap header = [] ∧ c.lastClientSerial ≤ c'.lastClientSerial) ∨
    ∃ header, items.filterMap Item.header = [header] ∧ c.lastClientSerial < header.serial ∧
      c'.lastClientSerial = header.serial := by
  have hnone : ∀ (batch : Batch), (c.sends k batch).filterMap header = [] :=
    filterMap_header_sends k
  have hcons : ∀ (a : Item) (batch : Batch), a.header = none →
      (a :: c.sends k batch).filterMap header = [] := fun a batch ha => by
    rw [filterMap_cons_none ha, hnone]
  have hacc : ∀ (header : Header) (req : Request) (batch : Batch),
      (Item.accepted header req :: c.sends k batch).filterMap Item.header = [header] :=
    fun header req batch => congrArg (header :: ·) (hnone batch)
  cases h with
  | refuse _ _ _ _ hser => exact .inl ⟨hcons _ _ rfl, le_of_lt hser⟩
  | reject _ _ _ hle => exact .inl ⟨hcons _ _ rfl, hle⟩
  | disconnect _ _ hser => exact .inr ⟨_, hacc _ _ _, hser, rfl⟩
  | accept _ _ hser _ _ hx he =>
    refine .inr ⟨_, hacc _ _ _, hser, ?_⟩
    exact he.kept.lastClientSerial.trans (by rw [hx])
  | composite => exact .inl ⟨hcons _ _ rfl, UInt64.le_rfl⟩
  | idle | pass => exact .inl ⟨rfl, UInt64.le_rfl⟩
  | _ => exact .inl ⟨hnone _, UInt64.le_rfl⟩

/-- **The requests that were accepted have rising serials.** -/
theorem run_serials (calls : List Call) (k : ConnId) :
    (((life k (run calls).1).filterMap Item.header).map Header.serial).Pairwise (· < ·) := by
  refine history_induct
    (R := fun _ l c => ((l.filterMap header).map Header.serial).Pairwise (· < ·) ∧
      ∀ header ∈ l.filterMap Item.header, header.serial ≤ c.lastClientSerial)
    (G := fun _ l => ((l.filterMap header).map Header.serial).Pairwise (· < ·))
    (fun _ _ => ⟨List.Pairwise.nil, by simp⟩) ?_ (fun _ => List.Pairwise.nil)
    (fun _ _ _ h => h.1) ?_
  · rintro k now l c items c' ⟨hl, hle⟩ h
    rw [filterMap_append]
    rcases h.serials with ⟨hnone, hlast⟩ | ⟨header, hone, hlt, hlast⟩
    · rw [hnone, append_nil]
      exact ⟨hl, fun header hh => le_trans (hle header hh) hlast⟩
    · rw [hone, map_append, hlast]
      refine ⟨pairwise_append.mpr ⟨hl, pairwise_singleton _ _, fun s hs s' hs' => ?_⟩,
        fun header' hh => ?_⟩
      · obtain ⟨header', hh, rfl⟩ := mem_map.mp hs
        obtain rfl : s' = header.serial := by simpa using hs'
        exact lt_of_le_of_lt (hle header' hh) hlt
      · rcases mem_append.mp hh with hh | hh
        · exact le_trans (hle header' hh) (le_of_lt hlt)
        · rw [mem_singleton.mp hh]
          exact UInt64.le_rfl
  · rintro k l a ha hl
    have hnone : [a].filterMap header = [] := by rcases ha with rfl | rfl <;> rfl
    rw [filterMap_append, hnone, append_nil]
    exact hl

/-- Each surface is served as the protocol has it. -/
theorem run_tracks (calls : List Call) (k : ConnId) (i : ObjectId) :
    ∃ f, Leads (step i) init (life k (run calls).1) f ∧ f.Settled := by
  have hinit : ∀ now, frameOf (new now).objects[i]? = init := fun now => by
    rw [new, ExtTreeMap.getElem?_empty]
    rfl
  have key := life_induct
    (R := fun _ l c => c.Wf ∧ c.Blank ∧ ∃ f, Leads (step i) init l f ∧ Tracks i c f)
    (G := fun _ l => ∃ f, Leads (step i) init l f ∧ (f.callback = .over ∨ f = init))
    (fun _ now => ⟨wf_new now, fun _ => rfl, .init, leads_nil,
      fun h => (by cases h), fun _ => (hinit now).symm⟩)
    (fun k now l c items c' hR h => by
      obtain ⟨hc, hblank, f, hl, hf⟩ := hR
      obtain ⟨f', hl', hf'⟩ := h.tracks hc hblank hf
      exact ⟨h.wf hc, h.blank hblank, f', hl.append hl', hf'⟩)
    (fun _ => ⟨_, leads_nil, .inr rfl⟩)
    (fun k l c hR => by
      obtain ⟨-, -, f, hl, -⟩ := hR
      exact ⟨f.close, hl.append (leads_singleton rfl), .inl rfl⟩)
    (fun k l a ha hG => by
      obtain ⟨f, hl, hf⟩ := hG
      rcases ha with rfl | rfl
      · have hend : f.end_ f.mapped = f := by
          rcases hf with hf | rfl
          · exact end_over hf
          · rfl
        exact ⟨f, hl.append (leads_singleton (congrArg some hend)), hf⟩
      · exact ⟨f.close, hl.append (leads_singleton rfl), .inl rfl⟩)
    calls k
  rcases key with ⟨c, -, -, -, f, hl, hf⟩ | ⟨-, f, hl, hf⟩
  · exact ⟨f, hl, hf.settled⟩
  · refine ⟨f, hl, fun commit presentable hd => ?_⟩
    rcases hf with hf | rfl
    · rw [hf] at hd
      cases hd
    · cases hd

/-- A COMMIT that asks for a callback is one of the requests that were accepted. -/
theorem mem_header_of_asked {s : UInt64} (h : s ∈ l.filterMap (asked i)) :
    ∃ header ∈ l.filterMap Item.header, header.object = i ∧ header.serial = s := by
  obtain ⟨a, ha, hs⟩ := mem_filterMap.mp h
  rcases a with ⟨header, req⟩ | _ | _ | _ | _
  · cases req with
    | commit =>
      rw [asked] at hs
      split_ifs at hs with hi
      exact ⟨header, mem_filterMap.mpr ⟨_, ha, rfl⟩, hi.1, some.inj hs⟩
    | _ => cases hs
  all_goals cases hs

/-- The COMMITs that ask for a callback on a surface are some of the accepted requests. -/
theorem asked_sublist (i : ObjectId) (l : List Item) :
    (l.filterMap (Item.asked i)).Sublist ((l.filterMap Item.header).map Header.serial) := by
  induction l with
  | nil => exact List.Sublist.refl _
  | cons a _ ih =>
    rcases h : asked i a with _ | s
    · rw [filterMap_cons_none h, filterMap_cons]
      rcases Item.header a with _ | header
      · exact ih
      · exact ih.cons _
    · obtain ⟨header, hmem, -, hs⟩ :=
        mem_header_of_asked (mem_filterMap.mpr ⟨a, mem_singleton_self a, h⟩)
      have hheader : Item.header a = some header := by simpa using hmem
      rw [filterMap_cons_some h, filterMap_cons_some hheader, map_cons, hs]
      exact ih.cons_cons _

/-- **On every connection of every run each frame callback is answered as the protocol has
it**, and no serial is reported twice. -/
theorem run_frames (calls : List Call) (k : ConnId) :
    (∀ i : ObjectId, ∃ f, Leads (Frame.step i) Frame.init (life k (run calls).1) f ∧ f.Settled) ∧
    (frameTokens (life k (run calls).1)).Nodup := by
  have hserials := run_serials calls k
  have htracks := run_tracks calls k
  generalize life k (run calls).1 = l at hserials htracks ⊢
  refine ⟨htracks, nodup_iff_sublist.mpr fun s hs => ?_⟩
  have htokens : ∀ i, (tokensOf i l).Sublist (l.filterMap (asked i)) := fun i => by
    obtain ⟨f, hf, -⟩ := htracks i
    exact (sublist_append_left _ _).trans (tokens_sublist hf)
  -- The two reports are about one surface, since a COMMIT is told by its serial.
  obtain ⟨pairs, hpairs, hmap⟩ := sublist_map_iff.mp hs
  obtain ⟨⟨i, s1⟩, rest, rfl, h1, hrest⟩ := map_eq_cons_iff.mp hmap.symm
  obtain ⟨⟨i', s2⟩, rest', rfl, h2, hrest'⟩ := map_eq_cons_iff.mp hrest
  obtain rfl := map_eq_nil_iff.mp hrest'
  obtain rfl : s1 = s := h1
  obtain rfl : s2 = s1 := h2
  have hheader : ∀ j, (j, s2) ∈ l.filterMap reported →
      ∃ header ∈ l.filterMap Item.header, header.object = j ∧ header.serial = s2 := fun j hj =>
    mem_header_of_asked ((htokens j).subset
      (mem_map.mpr ⟨(j, s2), mem_filter.mpr ⟨hj, by simp⟩, rfl⟩))
  obtain ⟨header, hm, rfl, hser⟩ := hheader i (hpairs.subset (by simp))
  obtain ⟨header', hm', rfl, hser'⟩ := hheader i' (hpairs.subset (by simp))
  obtain rfl : header = header' :=
    inj_on_of_nodup_map (hserials.imp fun h => UInt64.ne_of_lt h) hm hm'
      (hser.trans hser'.symm)
  -- Hence they are two of the rising serials of its COMMITs.
  have htwice : [s2, s2].Sublist (tokensOf header.object l) := by
    simpa [tokensOf] using (hpairs.filter fun e => e.1 = header.object).map Prod.snd
  have hrising := hserials.sublist (htwice.trans ((htokens _).trans (asked_sublist _ l)))
  simp at hrising

end DunitOS.Gui
