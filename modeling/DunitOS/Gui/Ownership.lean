import DunitOS.Gui.Objects

/-!
# Who may touch a buffer

Between an ATTACH_BUFFER and the BUFFER_RELEASE that answers it a buffer belongs to the
server. The protocol of one buffer is the machine `Custody.step`: it reads what
happens on the connection and is stuck as soon as a request for the buffer succeeds out of
turn, or a release comes unasked or with the wrong serial. On every connection of every
run it reads the whole life of the connection, for every buffer
(`run_custody`).

The states of the machine are the references to the buffer (`Holds`), and a
step of the connection is matched by the run of the machine over what the step adds to the
life of the connection.
-/

namespace DunitOS.Gui

open SysLib Std Connection Option

open ExtTreeMap (getElem?_insert_self getElem?_erase_self)

/-! ### The protocol of one buffer -/

/-- In whose hands a buffer is. -/
inductive Custody
  | client
  /-- Waiting for a COMMIT on a surface. -/
  | attached (surface : ObjectId)
  /-- The surface has been destroyed before a COMMIT; the release is due. -/
  | cancelled
  /-- Consumed by the COMMIT with the given serial on a surface. -/
  | shown (surface : ObjectId) (commit : UInt64)
  deriving DecidableEq, Repr

variable {q : Custody} {b : ObjectId}

namespace Custody

/-- An accepted request. -/
def onRequest (b : ObjectId) (header : Header) : Request → Custody → Option Custody
  | .attachBuffer buffer _, q =>
    if buffer = b then if q = client then some (attached header.object) else none else some q
  | .destroyBuffer, q => if header.object = b then if q = client then some q else none else some q
  | .commit _ _, q => if q = attached header.object then some (shown header.object header.serial)
    else some q
  | .destroySurface, q => if q = attached header.object then some cancelled else some q
  | _, q => some q

theorem onRequest_attachBuffer (header : Header) (buffer : ObjectId)
    (damage : List Rect) : onRequest b header (.attachBuffer buffer damage) q =
      if buffer = b then if q = client then some (attached header.object) else none
      else some q := rfl

theorem onRequest_destroyBuffer (header : Header) :
    onRequest b header .destroyBuffer q =
      if header.object = b then if q = client then some q else none else some q := rfl

theorem onRequest_commit (b : ObjectId) (header : Header) (configure : UInt64)
    (frameCallback : UInt32) (q : Custody) :
    onRequest b header (.commit configure frameCallback) q =
      if q = attached header.object then some (shown header.object header.serial)
      else some q := rfl

theorem onRequest_destroySurface (header : Header) :
    onRequest b header .destroySurface q =
      if q = attached header.object then some cancelled else some q := rfl

/-- A packet to the client. -/
def onEvent (b : ObjectId) (object : ObjectId) : Event → Custody → Option Custody
  | .bufferRelease commit, q =>
    if object = b then
      match q with
      | cancelled => if commit = 0 then some client else none
      | shown _ serial => if commit = serial then some client else none
      | _ => none
    else some q
  | _, q => some q

/-- **The protocol of one buffer.** -/
def step (b : ObjectId) (q : Custody) : Item → Option Custody
  | .accepted header req => onRequest b header req q
  | .sent p => onEvent b p.object p.event q
  | .refused _ | .composite | .removed => some q

/-- The protocol, as it reads a packet. -/
abbrev read (b : ObjectId) (q : Custody) (e : ObjectId × Event) : Option Custody :=
  onEvent b e.1 e.2 q

theorem read_of_ne {e : ObjectId × Event}
    (h : ∀ commit, e ≠ (b, .bufferRelease commit)) : read b q e = some q := by
  obtain ⟨object, ev⟩ := e
  cases ev with
  | bufferRelease commit => exact if_neg fun hb : object = b => h commit (by rw [hb])
  | _ => rfl

/-- A batch without a release of the buffer. -/
theorem leads_of_quiet {batch : Batch}
    (h : ∀ e ∈ batch, ∀ commit, e ≠ (b, .bufferRelease commit)) : Leads (read b) q batch q :=
  leads_of_silent fun e he => read_of_ne (h e he)

end Custody

/-! ### The references to a buffer -/

/-- **The state of the protocol is told by the references** to the buffer. -/
def Holds (t : ExtTreeMap ObjectId Object) (b : ObjectId) : Custody → Prop
  | .client => (∀ i : ObjectId, pendOf t[i]? ≠ some b) ∧
      ∀ (i : ObjectId) (tok : UInt64), commOf t[i]? ≠ some (b, tok)
  | .attached i => pendOf t[i]? = some b
  | .cancelled => False
  | .shown i tok => commOf t[i]? = some (b, tok)

/-- Two maps with the same references, those of one surface apart. -/
def SameRefs (i0 : ObjectId) (t' t : ExtTreeMap ObjectId Object) : Prop :=
  ∀ i : ObjectId, i ≠ i0 → pendOf t'[i]? = pendOf t[i]? ∧ commOf t'[i]? = commOf t[i]?

/-- A surface that has nothing to do with a buffer. -/
def Apart (b : ObjectId) (o : Option Object) : Prop :=
  pendOf o ≠ some b ∧ ∀ tok, commOf o ≠ some (b, tok)

variable {buf : Buffer}

namespace Holds

variable {t t' : ExtTreeMap ObjectId Object} {b i0 : ObjectId} {q q' : Custody} {s : Surface}

variable {i : ObjectId}

/-- A buffer is not pending and busy at once. -/
theorem not_both (hl : Links t) {i' : ObjectId} {tok : UInt64} (hp : pendOf t[i]? = some b)
    (hc : commOf t[i']? = some (b, tok)) : False := by
  obtain ⟨buf, hb, hst⟩ := ((hl.pend.held_iff b).mpr ⟨i, hp⟩).exists
  obtain ⟨buf', hb', hst', -⟩ := ((hl.comm.held_iff (b, tok)).mpr ⟨i', hc⟩).exists
  rw [hb] at hb'
  cases hb'
  exact absurd (hst.symm.trans hst') (by simp)

/-- **There is only one state** that fits the references. -/
theorem unique (hl : Links t) (h : Holds t b q) (h' : Holds t b q') : q = q' := by
  cases q <;> cases q'
  case client.client => rfl
  case client.attached i => exact absurd h' (h.1 i)
  case client.shown i tok => exact absurd h' (h.2 i tok)
  case attached.client i => exact absurd h (h'.1 i)
  case attached.attached i i' => exact congrArg _ (hl.pend.inj h h')
  case attached.shown i i' tok => exact (not_both hl h h').elim
  case shown.client i tok => exact absurd h (h'.2 i tok)
  case shown.attached i tok i' => exact (not_both hl h' h).elim
  case shown.shown i tok i' tok' =>
    obtain ⟨buf, hb, -, htok⟩ := ((hl.comm.held_iff (b, tok)).mpr ⟨i, h⟩).exists
    obtain ⟨buf', hb', -, htok'⟩ := ((hl.comm.held_iff (b, tok')).mpr ⟨i', h'⟩).exists
    dsimp only at hb hb' htok htok'
    rw [hb] at hb'
    cases hb'
    obtain rfl : tok = tok' := htok.symm.trans htok'
    rw [hl.comm.inj h h']
  all_goals first | exact h.elim | exact h'.elim

/-- What is available is in the hands of the client. -/
theorem eq_client (hl : Links t) (h : Holds t b q)
    (hb : t[b]? = some (.buffer buf)) (hav : buf.state = .available) : q = .client := by
  cases q with
  | client => rfl
  | attached i =>
    obtain ⟨buf', hb', hst⟩ := ((hl.pend.held_iff b).mpr ⟨i, h⟩).exists
    rw [hb] at hb'
    cases hb'
    exact absurd (hav.symm.trans hst) (by simp)
  | cancelled => exact h.elim
  | shown i tok =>
    obtain ⟨buf', hb', hst, -⟩ := ((hl.comm.held_iff (b, tok)).mpr ⟨i, h⟩).exists
    rw [hb] at hb'
    cases hb'
    exact absurd (hav.symm.trans hst) (by simp)

/-- Nothing has changed about the references. -/
theorem congr (h : Holds t b q) (hp : ∀ i : ObjectId, pendOf t'[i]? = pendOf t[i]?)
    (hc : ∀ i : ObjectId, commOf t'[i]? = commOf t[i]?) : Holds t' b q := by
  cases q with
  | client => exact ⟨fun i => by rw [hp]; exact h.1 i, fun i tok => by rw [hc]; exact h.2 i tok⟩
  | attached i => exact (hp i).trans h
  | cancelled => exact h
  | shown i => exact (hc i).trans h

/-- A surface that keeps its references. -/
theorem putSurface (h : Holds t b q) (hp : pendOf (some (.surface s)) = pendOf t[i]?)
    (hc : commOf (some (.surface s)) = commOf t[i]?) : Holds (t.insert i (.surface s)) b q :=
  h.congr (fun _ => view_insert hp) fun _ => view_insert hc

/-- An object without references goes. -/
theorem erase (h : Holds t b q) (hp : pendOf t[i]? = none)
    (hc : commOf t[i]? = none) : Holds (t.erase i) b q :=
  h.congr (fun _ => view_erase hp.symm) fun _ => view_erase hc.symm

/-- **One surface, seen from one buffer**: it has the buffer pending, or shows it, or has
nothing to do with it. -/
theorem cases_surface (hl : Links t) (h : Holds t b q) (i0 : ObjectId) :
    (q = .attached i0 ∧ pendOf t[i0]? = some b) ∨
    (∃ tok, q = .shown i0 tok ∧ commOf t[i0]? = some (b, tok)) ∨
    (Apart b t[i0]? ∧ q ≠ .attached i0 ∧ ∀ tok, q ≠ .shown i0 tok) := by
  by_cases h1 : pendOf t[i0]? = some b
  · exact .inl ⟨unique hl h (show Holds t b (.attached i0) from h1), h1⟩
  · by_cases h2 : ∃ tok, commOf t[i0]? = some (b, tok)
    · obtain ⟨tok, h2⟩ := h2
      exact .inr (.inl ⟨tok, unique hl h (show Holds t b (.shown i0 tok) from h2), h2⟩)
    · refine .inr (.inr ⟨⟨h1, fun tok htok => h2 ⟨tok, htok⟩⟩, ?_, ?_⟩)
      · rintro rfl
        exact h1 h
      · rintro tok rfl
        exact h2 ⟨tok, h⟩

/-- A surface that had nothing to do with the buffer, and still has not. -/
theorem frame (h : Holds t b q) (hrefs : SameRefs i0 t' t) (h' : Apart b t'[i0]?)
    (h1 : q ≠ .attached i0) (h2 : ∀ tok, q ≠ .shown i0 tok) : Holds t' b q := by
  cases q with
  | client =>
    refine ⟨fun i => ?_, fun i tok => ?_⟩
    · by_cases hi : i = i0
      · rw [hi]
        exact h'.1
      · rw [(hrefs i hi).1]
        exact h.1 i
    · by_cases hi : i = i0
      · rw [hi]
        exact h'.2 tok
      · rw [(hrefs i hi).2]
        exact h.2 i tok
  | attached i => exact (hrefs i fun hi => h1 (by rw [hi])).1.trans h
  | cancelled => exact h
  | shown i tok => exact (hrefs i fun hi => h2 tok (by rw [hi])).2.trans h

/-- **The one surface that held the buffer** has given it up. -/
theorem released (hl : Links t) (h : Holds t b q)
    (hq : q = .attached i0 ∨ ∃ tok, q = .shown i0 tok) (hrefs : SameRefs i0 t' t)
    (h' : Apart b t'[i0]?) : Holds t' b .client := by
  refine ⟨fun i hi => ?_, fun i tok hi => ?_⟩
  · by_cases hne : i = i0
    · exact h'.1 (hne ▸ hi)
    · rw [(hrefs i hne).1] at hi
      have := unique hl h (show Holds t b (.attached i) from hi)
      rcases hq with hq | ⟨tok, hq⟩ <;> rw [hq] at this <;> cases this
      exact hne rfl
  · by_cases hne : i = i0
    · exact h'.2 tok (hne ▸ hi)
    · rw [(hrefs i hne).2] at hi
      have := unique hl h (show Holds t b (.shown i tok) from hi)
      rcases hq with hq | ⟨tok, hq⟩ <;> rw [hq] at this <;> cases this
      exact hne rfl

end Holds

/-! ### Releases -/

/-- The release of a buffer that a surface held pending. -/
def Surface.cancels (s : Surface) : Batch :=
  ((pendOf (some (.surface s))).map fun j => (j, Event.bufferRelease 0)).toList

/-- The release of a buffer that a surface showed. -/
def Surface.gives (s : Surface) : Batch :=
  ((commOf (some (.surface s))).map fun j => (j.1, Event.bufferRelease j.2)).toList

open Custody Arm

section

variable {c : Connection} {s : Surface} {i b : ObjectId} {q : Custody}

theorem Connection.release_snd {id : ObjectId}
    (h : c.objects[id]? = some (.buffer buf)) (commit : UInt64) :
    (c.release id commit).2 = [(id, .bufferRelease commit)] := by
  rw [release, bufferOf_eq_ok.mpr h]

theorem Arm.releaseCommitted_snd
    (h : s.committedBuffer ≠ 0 → ∃ buf, c.objects[s.committedBuffer]? = some (.buffer buf)) :
    (releaseCommitted c s).2 = s.gives := by
  rw [Arm.releaseCommitted, Surface.gives]
  by_cases h0 : s.committedBuffer = 0
  · simp [h0, commOf]
  · obtain ⟨buf, hb⟩ := h h0
    rw [if_pos (by simpa using h0), release_snd hb]
    simp [commOf, h0]

theorem Arm.cancelPending_snd (hs : s.Sound)
    (h : s.pendingBuffer ≠ 0 → ∃ buf, c.objects[s.pendingBuffer]? = some (.buffer buf)) :
    (cancelPending c s).2 = s.cancels := by
  rw [Arm.cancelPending, Surface.cancels]
  by_cases h0 : s.pendingBuffer = 0
  · simp [h0, pendOf]
  · obtain ⟨buf, hb⟩ := h h0
    rw [if_pos (by simpa [h0] using hs.pending h0), release_snd hb]
    simp [pendOf, h0]

/-- A surface that does not show the buffer gives something else. -/
theorem Custody.leads_gives_of_ne (h : ∀ tok, commOf (some (.surface s)) ≠ some (b, tok)) :
    Leads (read b) q s.gives q := by
  refine leads_of_quiet fun e he commit hb => ?_
  obtain ⟨⟨j, tok⟩, hj, rfl⟩ := map_eq_some_iff.mp (mem_toList.mp he)
  obtain ⟨rfl, -⟩ := Prod.mk.inj hb
  exact h tok hj

theorem Custody.leads_gives {tok : UInt64} (h : commOf (some (.surface s)) = some (b, tok)) :
    Leads (read b) (.shown i tok) s.gives .client := by
  rw [Surface.gives, h]
  exact leads_singleton (by simp [read, onEvent])

theorem Custody.leads_cancels_of_ne (h : pendOf (some (.surface s)) ≠ some b) :
    Leads (read b) q s.cancels q := by
  refine leads_of_quiet fun e he commit hb => ?_
  obtain ⟨j, hj, rfl⟩ := map_eq_some_iff.mp (mem_toList.mp he)
  obtain ⟨rfl, -⟩ := Prod.mk.inj hb
  exact h hj

theorem Custody.leads_cancels (h : pendOf (some (.surface s)) = some b) :
    Leads (read b) .cancelled s.cancels .client := by
  rw [Surface.cancels, h]
  exact leads_singleton (by simp [read, onEvent])

/-- The seat has nothing to say about buffers. -/
theorem Custody.leads_dropSurface (seat : Seat) (tgt : Target) :
    Leads (read b) q (seat.dropSurface tgt).2 q := by
  refine leads_of_quiet fun e he commit hb => ?_
  rcases Seat.of_mem_dropSurface he with rfl | rfl <;> cases hb

theorem Custody.leads_discarded (obj now : UInt64) (token : Option UInt64) :
    Leads (read b) q (discarded obj now token) q := by
  refine leads_of_quiet fun e he commit hb => ?_
  obtain ⟨_, -, rfl⟩ := of_mem_discarded he
  cases hb

theorem Custody.leads_result (obj ser : UInt64) :
    Leads (read b) q [(obj, .result ser)] q := leads_singleton rfl

end

/-! ### Requests -/

section

variable {k : ConnId} {now : UInt64} {header : Header} {cap : Option UInt64} {req : Request}
  {x y : Ctx} {batch : Batch} {b : ObjectId} {q : Custody} {t t' : ExtTreeMap ObjectId Object}
  {s : Surface}

/-- The machine reads a request and the batch it is answered with, and the references
follow. -/
def Follows (b : ObjectId) (header : Header) (req : Request) (batch : Batch) (q : Custody)
    (t' : ExtTreeMap ObjectId Object) : Prop :=
  ∃ q1 q2, Custody.onRequest b header req q = some q1 ∧ Leads (Custody.read b) q1 batch q2 ∧
    Holds t' b q2

/-- A surface that refers to nothing. -/
theorem apart_of_none {o : Option Object} (hp : pendOf o = none) (hc : commOf o = none) :
    Apart b o := ⟨by simp [hp], by simp [hc]⟩

section

variable (hl : Links t) (hs : t[header.object]? = some (Object.surface s)) (hq : Holds t b q)
  (hrefs : SameRefs header.object t' t)

include hl hs hq hrefs

/-- DESTROY_SURFACE: what was pending is cancelled, what was shown is given back. -/
theorem Links.follows_destroySurface (hgone : t'[header.object]? = none) (left : Batch)
    (frame : Option UInt64) (hleft : ∀ q, Leads (read b) q left q) :
    Follows b header .destroySurface (left ++ s.cancels ++ s.gives ++
      discarded header.object now frame ++ [(header.object, .result header.serial)]) q t' := by
  have hapart : Apart b t'[header.object]? :=
    apart_of_none (by rw [hgone]; rfl) (by rw [hgone]; rfl)
  -- The batch is read from left to right; which part of it concerns the buffer depends on what
  -- the surface has to do with it.
  have htail : ∀ q, Leads (read b) q (discarded header.object now frame) q := fun q =>
    leads_discarded _ _ _
  rcases hq.cases_surface hl header.object with ⟨rfl, hp⟩ | ⟨tok, rfl, hc⟩ | ⟨hap, h1, h2⟩
  · have hc : ∀ tok, commOf (some (.surface s)) ≠ some (b, tok) := fun tok hc =>
      Holds.not_both hl hp (by rw [hs]; exact hc)
    rw [hs] at hp
    exact ⟨.cancelled, .client, by simp [onRequest_destroySurface],
      ((((hleft _).append (leads_cancels hp)).append (leads_gives_of_ne hc)).append
        (htail _)).append (leads_result _ _), hq.released hl (.inl rfl) hrefs hapart⟩
  · have hp : pendOf (some (.surface s)) ≠ some b := fun hp =>
      Holds.not_both hl (by rw [hs]; exact hp) hc
    rw [hs] at hc
    exact ⟨.shown header.object tok, .client, by simp [onRequest_destroySurface],
      ((((hleft _).append (leads_cancels_of_ne hp)).append (leads_gives hc)).append
        (htail _)).append (leads_result _ _),
      hq.released hl (.inr ⟨tok, rfl⟩) hrefs hapart⟩
  · rw [hs] at hap
    exact ⟨q, q, by simp [onRequest_destroySurface, h1],
      ((((hleft _).append (leads_cancels_of_ne hap.1)).append
        (leads_gives_of_ne hap.2)).append (htail _)).append (leads_result _ _),
      hq.frame hrefs hapart h1 h2⟩

/-- An unmapping COMMIT: what was shown is given back. -/
theorem Links.follows_unmap (hnone : s.pendingBuffer = 0)
    (hapart : Apart b t'[header.object]?) (configure : UInt64) (frameCallback : UInt32)
    (left : Batch) (frame : Option UInt64) (hleft : ∀ q, Leads (read b) q left q) :
    Follows b header (.commit configure frameCallback) ([(header.object, .result header.serial)] ++
      left ++ s.gives ++ discarded header.object now frame) q t' := by
  rcases hq.cases_surface hl header.object with ⟨rfl, hp⟩ | ⟨tok, rfl, hc⟩ | ⟨hap, h1, h2⟩
  · rw [hs] at hp
    simp [pendOf, hnone] at hp
  · rw [hs] at hc
    exact ⟨.shown header.object tok, .client, by simp [onRequest_commit],
      (((leads_result _ _).append (hleft _)).append (leads_gives hc)).append
        (leads_discarded _ _ _), hq.released hl (.inr ⟨tok, rfl⟩) hrefs hapart⟩
  · rw [hs] at hap
    exact ⟨q, q, by simp [onRequest_commit, h1],
      (((leads_result _ _).append (hleft _)).append
        (leads_gives_of_ne hap.2)).append (leads_discarded _ _ _),
      hq.frame hrefs hapart h1 h2⟩

/-- A COMMIT that shows the pending buffer, and gives back what was shown before. -/
theorem Links.follows_show (hne : s.pendingBuffer ≠ 0)
    (hp' : pendOf t'[header.object]? = none)
    (hc' : commOf t'[header.object]? = some (s.pendingBuffer, header.serial))
    (configure : UInt64) (frameCallback : UInt32) :
    Follows b header (.commit configure frameCallback)
      ([(header.object, .result header.serial)] ++ s.gives) q t' := by
  have hpend : pendOf (some (.surface s)) = some s.pendingBuffer := by simp [pendOf, hne]
  have hapart : b ≠ s.pendingBuffer → Apart b t'[header.object]? := fun hb =>
    ⟨by simp [hp'], fun tok htok => hb (by
      rw [hc'] at htok
      exact (Prod.mk.inj (some.inj htok)).1.symm)⟩
  rcases hq.cases_surface hl header.object with ⟨rfl, hp⟩ | ⟨tok, rfl, hc⟩ | ⟨hap, h1, h2⟩
  · have hc : ∀ tok, commOf (some (.surface s)) ≠ some (b, tok) := fun tok hc =>
      Holds.not_both hl hp (by rw [hs]; exact hc)
    rw [hs, hpend] at hp
    obtain rfl := some.inj hp
    exact ⟨.shown header.object header.serial, .shown header.object header.serial,
      by simp [onRequest_commit],
      (leads_result _ _).append (leads_gives_of_ne hc), hc'⟩
  · have hb : b ≠ s.pendingBuffer := fun hb =>
      Holds.not_both hl (by rw [hs, hpend, hb]) hc
    rw [hs] at hc
    exact ⟨.shown header.object tok, .client, by simp [onRequest_commit],
      (leads_result _ _).append (leads_gives hc),
      hq.released hl (.inr ⟨tok, rfl⟩) hrefs (hapart hb)⟩
  · rw [hs] at hap
    have hb : b ≠ s.pendingBuffer := fun hb => hap.1 (by rw [hpend, hb])
    exact ⟨q, q, by simp [onRequest_commit, h1],
      (leads_result _ _).append (leads_gives_of_ne hap.2),
      hq.frame hrefs (hapart hb) h1 h2⟩

/-- ATTACH_BUFFER of a buffer that is available. -/
theorem Links.follows_attach {buffer : ObjectId} (hnone : s.pendingBuffer = 0)
    (hbuf : t[buffer]? = some (.buffer buf))
    (hav : buf.state = .available) (hp' : pendOf t'[header.object]? = some buffer)
    (hc' : commOf t'[header.object]? = commOf t[header.object]?) (damage : List Rect) :
    Follows b header (.attachBuffer buffer damage) [(header.object, .result header.serial)]
      q t' := by
  by_cases hb : buffer = b
  · subst hb
    obtain rfl := hq.eq_client hl hbuf hav
    exact ⟨.attached header.object, .attached header.object, by simp [onRequest_attachBuffer],
      leads_result _ _, hp'⟩
  · refine ⟨q, q, by simp [onRequest_attachBuffer, hb], leads_result _ _, ?_⟩
    cases q with
    | client =>
      refine hq.frame hrefs ⟨by simpa [hp'] using hb, fun tok => ?_⟩ (by simp) (by simp)
      rw [hc']
      exact hq.2 _ tok
    | attached i =>
      have hi : i ≠ header.object := by
        rintro rfl
        rw [Holds, hs] at hq
        simp [pendOf, hnone] at hq
      exact (hrefs i hi).1.trans hq
    | cancelled => exact hq
    | shown i =>
      by_cases hi : i = header.object
      · subst hi
        exact hc'.trans hq
      · exact (hrefs i hi).2.trans hq

end

/-- **Every accepted request obeys the protocol** of every buffer. -/
theorem Effect.follows (h : Effect k now header cap req x batch y) (hx : x.conn.Wf) (hb0 : b ≠ 0)
    (hq : Holds x.conn.objects b q) : Follows b header req batch q y.conn.objects := by
  have hl := hx.links
  have ht := hx.tally
  cases h with
  | hello =>
    exact ⟨q, q, rfl, leads_singleton rfl, hq⟩
  | createSurface _ _ _ _ _ hfresh =>
    refine ⟨q, q, rfl, leads_cons rfl (leads_singleton rfl), hq.putSurface ?_ ?_⟩
    · rw [ht.fresh hfresh]
      rfl
    · rw [ht.fresh hfresh]
      rfl
  | @destroySurface x s hs _ _ hr1 hr2 =>
    subst hr1
    subst hr2
    have hsound := hl.sound _ _ hs
    have hlive : s.committedBuffer ≠ 0 → ∃ buf,
        (Arm.cancelPending x.conn s).1.objects[s.committedBuffer]? = some (.buffer buf) := by
      intro h0
      obtain ⟨buf, hbuf, -⟩ := hl.committed_live hs h0
      refine ⟨buf, ?_⟩
      rw [Arm.cancelPending_fst _ hsound, getElem?_freeRef_of_ne, hbuf]
      exact fun hp => Holds.not_both hl (by rw [hs]; exact hp)
        (commOf_eq_some.mpr ⟨s, hs, rfl, rfl, h0⟩)
    rw [Arm.releaseCommitted_snd hlive, Arm.cancelPending_snd hsound fun h0 =>
      (hl.pending_live hs h0).imp fun _ h => h.1]
    refine hl.follows_destroySurface hs hq (fun i hi => ?_) getElem?_erase_self _ _
      fun q => Custody.leads_dropSurface _ _
    rw [Arm.releaseCommitted_fst, Arm.cancelPending_fst _ hsound]
    dsimp only
    rw [getElem?_erase_of_ne (Ne.symm hi), pendOf_freeRef, pendOf_freeRef, commOf_freeRef,
      commOf_freeRef]
    exact ⟨rfl, rfl⟩
  | setTitle | setAppId => exact ⟨q, q, rfl, leads_singleton rfl, hq⟩
  | ackConfigure hs =>
    refine ⟨q, q, rfl, leads_singleton rfl, hq.putSurface ?_ ?_⟩
    · rw [hs]
      rfl
    · rw [hs]
      rfl
  | importBuffer _ _ _ _ _ _ hfresh =>
    refine ⟨q, q, rfl, leads_singleton rfl, hq.congr (fun i => ?_) fun i => ?_⟩
    · exact pendOf_insert_buffer (by rw [ht.fresh hfresh]; rfl)
    · exact commOf_insert_buffer (by rw [ht.fresh hfresh]; rfl)
  | destroyBuffer hb hav =>
    refine ⟨q, q, ?_, leads_singleton rfl, hq.erase (by rw [hb]; rfl) (by rw [hb]; rfl)⟩
    by_cases hob : header.object = b
    · subst hob
      obtain rfl := hq.eq_client hl hb hav
      simp [Custody.onRequest_destroyBuffer]
    · simp [Custody.onRequest_destroyBuffer, hob]
  | @attachNothing _ _ hs hpend =>
    have hp := (hl.sound _ _ hs).pending_eq hpend
    refine ⟨q, q, ?_, leads_singleton rfl, hq.putSurface ?_ ?_⟩
    · rw [Custody.onRequest_attachBuffer, if_neg (Ne.symm hb0)]
    · rw [hs]
      simp [pendOf, hp, Surface.attached]
    · rw [hs]
      rfl
  | @attachSome _ _ _ _ damage hs hpend hne hb hav =>
    have hp := (hl.sound _ _ hs).pending_eq hpend
    refine hl.follows_attach hs hq (fun i hi => ?_) hp hb hav ?_ ?_ damage
    · dsimp only [Connection.putSurface, Connection.putBuffer]
      rw [getElem?_insert_of_ne (Ne.symm hi), pendOf_insert_buffer (by rw [hb]; rfl),
        commOf_insert_buffer (by rw [hb]; rfl)]
      exact ⟨rfl, rfl⟩
    · dsimp only [Connection.putSurface]
      rw [getElem?_insert_self]
      simp [pendOf, Surface.attached, hne]
    · dsimp only [Connection.putSurface]
      rw [getElem?_insert_self, hs]
      rfl
  | @commitUnmap x s _ hs _ hnone _ _ _ _ hr =>
    subst hr
    have hlive : s.committedBuffer ≠ 0 → ∃ buf,
        (x.conn.putSurface header.object s.unmapped).objects[s.committedBuffer]? =
          some (.buffer buf) := by
      intro h0
      obtain ⟨buf, hbuf, -⟩ := hl.committed_live hs h0
      refine ⟨buf, (getElem?_insert_of_ne fun hi => ?_).trans hbuf⟩
      rw [← hi, hs] at hbuf
      cases hbuf
    rw [Arm.releaseCommitted_snd hlive, Arm.releaseCommitted_fst]
    refine hl.follows_unmap hs hq (fun i hi => ?_) hnone (apart_of_none ?_ ?_) _ _ _ _
      fun q => Custody.leads_dropSurface _ _
    · dsimp only [Connection.putSurface]
      rw [pendOf_freeRef, commOf_freeRef, getElem?_insert_of_ne (Ne.symm hi)]
      exact ⟨rfl, rfl⟩
    · dsimp only [Connection.putSurface]
      rw [pendOf_freeRef, getElem?_insert_self]
      simp [pendOf, Surface.unmapped]
    · dsimp only [Connection.putSurface]
      rw [commOf_freeRef, getElem?_insert_self]
      simp [commOf, Surface.unmapped]
  | @commitMap x s buf frameCallback hs _ hne hb _ _ _ _ hr =>
    subst hr
    have hne' := hl.committed_ne_pending hs hne
    have hlive : s.committedBuffer ≠ 0 → ∃ buf',
        (x.conn.shown header.object header.serial frameCallback s buf).objects[s.committedBuffer]? =
          some (.buffer buf') := by
      intro h0
      obtain ⟨buf', hbuf, -⟩ := hl.committed_live hs h0
      have hi : header.object ≠ s.committedBuffer := fun hi => by
        rw [← hi, hs] at hbuf
        cases hbuf
      have hp : s.pendingBuffer ≠ s.committedBuffer := fun hp =>
        hne' (by simp [commOf, h0, hp])
      exact ⟨buf', (getElem?_insert_of_ne hi).trans ((getElem?_insert_of_ne hp).trans hbuf)⟩
    rw [Connection.replaced_eq _ hne', Arm.releaseCommitted_snd hlive, Arm.releaseCommitted_fst]
    refine hl.follows_show hs hq (fun i hi => ?_) hne ?_ ?_ _ _
    · dsimp only [Connection.shown, Connection.putSurface, Connection.putBuffer]
      rw [pendOf_freeRef, commOf_freeRef, getElem?_insert_of_ne (Ne.symm hi),
        pendOf_insert_buffer (by rw [hb]; rfl), commOf_insert_buffer (by rw [hb]; rfl)]
      exact ⟨rfl, rfl⟩
    · dsimp only [Connection.shown, Connection.putSurface]
      rw [pendOf_freeRef, getElem?_insert_self]
      simp [pendOf, Surface.showing]
    · dsimp only [Connection.shown, Connection.putSurface]
      rw [commOf_freeRef, getElem?_insert_self]
      simp [commOf, Surface.showing, hne]

end

/-! ### Runs -/

/-- **Every step obeys the protocol** of every buffer. -/
theorem Step.custody {k : ConnId} {now : UInt64} {c c' : Connection} {items : List Item}
    (h : Step k now c items c') (hc : c.Wf) (hb0 : b ≠ 0)
    (hq : Holds c.objects b q) :
    ∃ q', Leads (step b) q items q' ∧ Holds c'.objects b q' := by
  have hquiet : ∀ {batch : Batch}, (∀ e ∈ batch, ∀ commit, e ≠ (b, Event.bufferRelease commit)) →
      Leads (step b) q (c.sends k batch) q := fun h =>
    leads_sends (fun _ _ => rfl) (leads_of_quiet h)
  have hone : ∀ {object : ObjectId} {ev : Event}, (∀ commit, ev ≠ .bufferRelease commit) →
      Leads (step b) q (c.sends k [(object, ev)]) q := fun h =>
    hquiet fun e he commit hb => by
      obtain rfl := List.mem_singleton.mp he
      exact h commit (Prod.mk.inj hb).2
  cases h with
  | idle => exact ⟨q, leads_nil, hq⟩
  | refuse | reject | disconnect => exact ⟨q, leads_cons rfl (hone (by simp)), hq⟩
  | accept _ _ _ _ _ hx he =>
    obtain ⟨q1, q2, h1, h2, h3⟩ := he.follows
      (by rw [hx]; exact ⟨hc.links, hc.tally⟩) hb0 (by rw [hx]; exact hq)
    exact ⟨q2, leads_cons h1 (leads_sends (fun _ _ => rfl) h2), h3⟩
  | composite =>
    refine ⟨q, leads_cons rfl (hquiet fun e he commit hb => ?_), hq.congr ?_ ?_⟩
    · obtain ⟨_, -, hev⟩ := of_mem_frames he
      rw [hb] at hev
      cases hev
    all_goals
      intro i
      dsimp only [bump, composed]
      rw [ExtTreeMap.getElem?_map]
      rcases c.objects[i]? with _ | ⟨s | b⟩ <;> rfl
  | pass => exact ⟨q, leads_singleton rfl, hq⟩
  | @reconfigure _ _ _ _ _ _ _ hs =>
    refine ⟨q, hone (by simp), hq.putSurface ?_ ?_⟩
    · rw [hs]
      rfl
    · rw [hs]
      rfl
  | input _ _ hinput =>
    refine ⟨q, hquiet fun e he commit hb => ?_, hq⟩
    have := hinput e he
    rw [hb] at this
    cases this
  | overflow => exact ⟨q, hone (by simp), hq⟩

/-- **On every connection of every run each buffer is handed back and forth as the
protocol has it**: ATTACH_BUFFER and BUFFER_RELEASE alternate, a release carries the serial
of the COMMIT that consumed the attach, or zero if the surface was destroyed before one,
and in between the buffer can be neither attached nor destroyed. -/
theorem run_custody (calls : List Call) (k : ConnId) (b : ObjectId) (hb0 : b ≠ 0) :
    ∃ q, Leads (Custody.step b) .client (life k (run calls).1) q := by
  refine history_induct
    (R := fun _ l c => c.Wf ∧ ∃ q, Leads (step b) .client l q ∧ Holds c.objects b q)
    (G := fun _ l => ∃ q, Leads (step b) .client l q) (fun k now => ?_) ?_
    (fun _ => ⟨_, leads_nil⟩) (fun _ _ _ h => h.2.imp fun _ h => h.1) ?_
  · refine ⟨wf_new now, .client, leads_nil, fun i => ?_, fun i tok => ?_⟩
    all_goals
      rw [new, ExtTreeMap.getElem?_empty]
      simp [pendOf, commOf]
  · rintro k now l c items c' ⟨hc, q, hl, hq⟩ h
    obtain ⟨q', hl', hq'⟩ := h.custody hc hb0 hq
    exact ⟨h.wf hc, q', hl.append hl', hq'⟩
  · rintro k l a ha ⟨q, hl⟩
    refine ⟨q, hl.append (leads_singleton ?_)⟩
    rcases ha with rfl | rfl <;> rfl

theorem run_custody_lastFrame : (2 : ObjectId) ≠ 0 ∧
    ∃ q, Leads (Custody.step 2) .client (life 1 (run lastFrame).1) q :=
  ⟨by decide, run_custody lastFrame 1 2 (by decide)⟩

end DunitOS.Gui
