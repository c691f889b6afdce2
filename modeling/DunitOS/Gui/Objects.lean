import DunitOS.Gui.Links

/-!
# The books of a connection

Beside its objects a connection keeps a watermark over their ids, and counts its surfaces,
its buffers and their pinned bytes. `Connection.Wf` says that all of this
agrees and that the cross-references are right (`Links`). Every step of a
connection keeps it (`Step.wf`), hence every run does.
-/

namespace DunitOS.Gui

open SysLib Std Connection Arm Object Option ExtTreeMap UInt32 UInt64 Nat

/-! ### Counting -/

/-- What the counters of a connection see of an object: a buffer's pinned bytes. -/
def Object.shape : Object → Option UInt64
  | surface _ => none
  | buffer b => some b.backing

/-- The weight of an object in the count of surfaces. -/
def Object.asSurface (o : Object) : ℕ := if o.kind = .surface then 1 else 0

/-- The weight of an object in the count of buffers. -/
def Object.asBuffer (o : Object) : ℕ := if o.kind = .buffer then 1 else 0

/-- The weight of an object in the sum of pinned bytes. -/
def Object.pinned : Object → ℕ
  | surface _ => 0
  | buffer b => b.backing.toNat

/-- Two maps with the same objects, up to what the counters do not see. -/
def SameShape (t' t : ExtTreeMap ObjectId Object) : Prop :=
  ∀ a : ObjectId, t'[a]?.map Object.shape = t[a]?.map Object.shape

namespace SameShape

variable {t t' t'' : ExtTreeMap ObjectId Object} {i : ObjectId} {o o' : Object}

theorem trans (h : SameShape t'' t') (h' : SameShape t' t) : SameShape t'' t :=
  fun a => (h a).trans (h' a)

/-- An object may be replaced by one of the same shape. -/
theorem insert (hi : t[i]? = some o') (ho : o.shape = o'.shape) : SameShape (t.insert i o) t :=
  fun _ => view_insert (by rw [hi, map_some, map_some, ho])

theorem freeRef (r : Option ObjectId) (t : ExtTreeMap ObjectId Object) :
    SameShape (freeRef r t) t := fun _ => view_freeRef fun _ => rfl

theorem unframed (t : ExtTreeMap ObjectId Object) :
    SameShape (t.map fun _ (o : Object) => o.unframed) t := by
  intro a
  rw [getElem?_map]
  rcases t[a]? with _ | ⟨s | b⟩ <;> rfl

/-- A weight that sees only the shape has the same sum. -/
theorem sumOver_eq (h : SameShape t' t) {f : Object → ℕ}
    (hf : ∀ o o', o.shape = o'.shape → f o = f o') : sumOver f t' = sumOver f t := by
  refine sumOver_congr fun a => ?_
  have ha := h a
  generalize t'[a]? = y at ha ⊢
  generalize t[a]? = z at ha ⊢
  rcases y with _ | o <;> rcases z with _ | o'
  · rfl
  · cases ha
  · cases ha
  · exact congrArg some (hf o o' (some.inj ha))

theorem live (h : SameShape t' t) {a : ObjectId} (ha : t'[a]? = some o) :
    ∃ o', t[a]? = some o' := by
  rcases ht : t[a]? with _ | o'
  · have := h a
    rw [ha, ht] at this
    cases this
  · exact ⟨o', rfl⟩

end SameShape

/-! Each of the three weights sees only the shape. -/

theorem Object.asSurface_congr (o o' : Object) (h : o.shape = o'.shape) :
    o.asSurface = o'.asSurface := by
  cases o <;> cases o' <;> first | rfl | cases h

theorem Object.asBuffer_congr (o o' : Object) (h : o.shape = o'.shape) :
    o.asBuffer = o'.asBuffer := by
  cases o <;> cases o' <;> first | rfl | cases h

theorem Object.pinned_congr (o o' : Object) (h : o.shape = o'.shape) : o.pinned = o'.pinned := by
  cases o <;> cases o'
  · rfl
  · cases h
  · cases h
  · exact congrArg UInt64.toNat (some.inj h)

/-- **The counters of a connection are right**, within their limits, and no id exceeds
the watermark. -/
structure Tally (t : ExtTreeMap ObjectId Object) (watermark : ObjectId) (surfaces buffers : UInt32)
    (backing : UInt64) : Prop where
  ids : ∀ (i : ObjectId) (o : Object), t[i]? = some o → i ≠ 0 ∧ i ≤ watermark
  surfaces_eq : surfaces.toNat = sumOver Object.asSurface t
  buffers_eq : buffers.toNat = sumOver Object.asBuffer t
  backing_eq : backing.toNat = sumOver Object.pinned t
  surfaces_le : surfaces ≤ maxSurfaces
  buffers_le : buffers ≤ maxBuffers
  backing_le : backing ≤ maxBackingBytesConn

namespace Tally

variable {t t' : ExtTreeMap ObjectId Object} {watermark : ObjectId} {surfaces buffers : UInt32}
  {backing : UInt64} {i : ObjectId} {s : Surface} {b : Buffer}

section

variable (h : Tally t watermark surfaces buffers backing)

include h

theorem congr (ht : SameShape t' t) :
    Tally t' watermark surfaces buffers backing where
  ids i o ho := by
    obtain ⟨o', ho'⟩ := ht.live ho
    exact h.ids i o' ho'
  surfaces_eq := by rw [ht.sumOver_eq asSurface_congr, h.surfaces_eq]
  buffers_eq := by rw [ht.sumOver_eq asBuffer_congr, h.buffers_eq]
  backing_eq := by rw [ht.sumOver_eq pinned_congr, h.backing_eq]
  surfaces_le := h.surfaces_le
  buffers_le := h.buffers_le
  backing_le := h.backing_le

/-- A fresh id names nothing. -/
theorem fresh (hi : watermark < i) : t[i]? = none := by
  rcases ht : t[i]? with _ | o
  · rfl
  · exact absurd hi (not_lt.mpr (h.ids i o ht).2)

theorem ids_insert (hne : i ≠ 0)
    (hi : watermark < i) (o : Object) :
    ∀ (a : ObjectId) (o' : Object), (t.insert i o)[a]? = some o' → a ≠ 0 ∧ a ≤ i := by
  intro a o' ha
  by_cases hia : i = a
  · exact hia ▸ ⟨hne, UInt64.le_rfl⟩
  · rw [getElem?_insert_of_ne hia] at ha
    obtain ⟨h0, hle⟩ := h.ids a o' ha
    exact ⟨h0, le_trans hle (le_of_lt hi)⟩

theorem ids_erase :
    ∀ (a : ObjectId) (o' : Object), (t.erase i)[a]? = some o' → a ≠ 0 ∧ a ≤ watermark := by
  intro a o' ha
  exact h.ids a o' (of_getElem?_erase ha).2

theorem addSurface (hne : i ≠ 0)
    (hi : watermark < i) (hlimit : surfaces < maxSurfaces) :
    Tally (t.insert i (.surface s)) i (surfaces + 1) buffers backing := by
  have hnone := h.fresh hi
  have hlt : surfaces.toNat < 64 := by simpa [maxSurfaces] using UInt32.lt_iff_toNat_lt.mp hlimit
  have hsucc : (surfaces + 1).toNat = surfaces.toNat + 1 := by
    rw [UInt32.toNat_add, UInt32.toNat_one, mod_eq_of_lt (by omega)]
  refine ⟨h.ids_insert hne hi _, ?_, ?_, ?_, ?_, h.buffers_le, h.backing_le⟩
  · rw [hsucc, sumOver_insert_of_none _ hnone, h.surfaces_eq, add_comm]
    rfl
  · rw [sumOver_insert_of_none _ hnone, h.buffers_eq]
    exact (zero_add _).symm
  · rw [sumOver_insert_of_none _ hnone, h.backing_eq]
    exact (zero_add _).symm
  · rw [UInt32.le_iff_toNat_le, hsucc]
    exact hlt

theorem dropSurface
    (hi : t[i]? = some (.surface s)) :
    Tally (t.erase i) watermark (surfaces - 1) buffers backing := by
  have h1 : 1 + sumOver asSurface (t.erase i) = sumOver asSurface t :=
    sumOver_erase asSurface hi
  have h2 : 0 + sumOver asBuffer (t.erase i) = sumOver asBuffer t :=
    sumOver_erase asBuffer hi
  have h3 : 0 + sumOver pinned (t.erase i) = sumOver pinned t :=
    sumOver_erase pinned hi
  have hpos : 1 ≤ surfaces := by
    rw [UInt32.le_iff_toNat_le, h.surfaces_eq, ← h1]
    exact le_add_right _ _
  have hpred : (surfaces - 1).toNat = surfaces.toNat - 1 := by
    rw [UInt32.toNat_sub_of_le _ _ hpos, UInt32.toNat_one]
  refine ⟨h.ids_erase, ?_, ?_, ?_, ?_, h.buffers_le, h.backing_le⟩
  · rw [hpred, h.surfaces_eq, ← h1, Nat.add_sub_cancel_left]
  · rw [h.buffers_eq, ← h2, zero_add]
  · rw [h.backing_eq, ← h3, zero_add]
  · refine UInt32.le_trans ?_ h.surfaces_le
    rw [UInt32.le_iff_toNat_le, hpred]
    exact sub_le _ _

theorem addBuffer (hne : i ≠ 0)
    (hi : watermark < i) (hlimit : buffers < maxBuffers)
    (hbudget : backing + b.backing ≤ maxBackingBytesConn) (hobject : b.backing ≤ maxBackingBytes) :
    Tally (t.insert i (.buffer b)) i surfaces (buffers + 1) (backing + b.backing) := by
  have hnone := h.fresh hi
  have hlt : buffers.toNat < 192 := by simpa [maxBuffers] using UInt32.lt_iff_toNat_lt.mp hlimit
  have hsucc : (buffers + 1).toNat = buffers.toNat + 1 := by
    rw [UInt32.toNat_add, UInt32.toNat_one, mod_eq_of_lt (by omega)]
  have hsum : (backing + b.backing).toNat = backing.toNat + b.backing.toNat := by
    have h1 := le_iff_toNat_le.mp h.backing_le
    have h2 := le_iff_toNat_le.mp hobject
    simp only [maxBackingBytesConn, maxBackingBytes, UInt64.reduceMul, UInt64.reduceToNat] at h1 h2
    rw [UInt64.toNat_add, mod_eq_of_lt (by omega)]
  refine ⟨h.ids_insert hne hi _, ?_, ?_, ?_, h.surfaces_le, ?_, hbudget⟩
  · rw [sumOver_insert_of_none _ hnone, h.surfaces_eq]
    exact (zero_add _).symm
  · rw [hsucc, sumOver_insert_of_none _ hnone, h.buffers_eq, add_comm]
    rfl
  · rw [hsum, sumOver_insert_of_none _ hnone, h.backing_eq, add_comm]
    rfl
  · rw [UInt32.le_iff_toNat_le, hsucc]
    exact hlt

theorem dropBuffer
    (hi : t[i]? = some (.buffer b)) :
    Tally (t.erase i) watermark surfaces (buffers - 1) (backing - b.backing) := by
  have h1 : 0 + sumOver asSurface (t.erase i) = sumOver asSurface t :=
    sumOver_erase asSurface hi
  have h2 : 1 + sumOver asBuffer (t.erase i) = sumOver asBuffer t :=
    sumOver_erase asBuffer hi
  have h3 : b.backing.toNat + sumOver pinned (t.erase i) = sumOver pinned t :=
    sumOver_erase pinned hi
  have hpos : 1 ≤ buffers := by
    rw [UInt32.le_iff_toNat_le, h.buffers_eq, ← h2]
    exact le_add_right _ _
  have hle : b.backing ≤ backing := by
    rw [UInt64.le_iff_toNat_le, h.backing_eq, ← h3]
    exact le_add_right _ _
  have hpred : (buffers - 1).toNat = buffers.toNat - 1 := by
    rw [UInt32.toNat_sub_of_le _ _ hpos, UInt32.toNat_one]
  have hdiff := UInt64.toNat_sub_of_le _ _ hle
  refine ⟨h.ids_erase, ?_, ?_, ?_, h.surfaces_le, ?_, ?_⟩
  · rw [h.surfaces_eq, ← h1, zero_add]
  · rw [hpred, h.buffers_eq, ← h2, Nat.add_sub_cancel_left]
  · rw [hdiff, h.backing_eq, ← h3, Nat.add_sub_cancel_left]
  · refine UInt32.le_trans ?_ h.buffers_le
    rw [UInt32.le_iff_toNat_le, hpred]
    exact sub_le _ _
  · refine le_trans ?_ h.backing_le
    rw [UInt64.le_iff_toNat_le, hdiff]
    exact sub_le _ _

end

end Tally

/-! ### Requests -/

/-- **The books of a connection are in order.** -/
structure Connection.Wf (c : Connection) : Prop where
  links : Links c.objects
  tally : Tally c.objects c.idWatermark c.surfaces c.buffers c.backingBytes

theorem Connection.wf_new (now : UInt64) : (Connection.new now).Wf := by
  refine ⟨Links.empty, fun i o h => ?_, rfl, rfl, rfl, UInt32.zero_le, UInt32.zero_le,
    UInt64.zero_le⟩
  rw [new, getElem?_empty] at h
  cases h

/-- To give a buffer up changes the objects and nothing else. -/
theorem Connection.release_fst (c : Connection) (id : ObjectId) (commit : UInt64) :
    (c.release id commit).1 = { c with objects := freeRef (some id) c.objects } := by
  rw [release, bufferOf, freeRef]
  rcases h : c.objects[id]? with _ | ⟨s | b⟩
  · rw [modify_of_none h]
  · rw [modify_eq_insert h, freed, insert_of_getElem? h]
  · rw [modify_eq_insert h]
    rfl

theorem Arm.releaseCommitted_fst (c : Connection) (s : Surface) : (Arm.releaseCommitted c s).1 =
      { c with objects := freeRef ((commOf (some (.surface s))).map Prod.fst) c.objects } := by
  rw [releaseCommitted]
  by_cases h : s.committedBuffer = 0
  · simp [h, commOf, freeRef]
  · rw [if_pos (by simpa using h), release_fst]
    simp [commOf, h]

theorem Arm.cancelPending_fst (c : Connection) {s : Surface} (hs : s.Sound) :
    (Arm.cancelPending c s).1 =
      { c with objects := freeRef (pendOf (some (.surface s))) c.objects } := by
  rw [cancelPending]
  by_cases h : s.pendingBuffer = 0
  · simp [h, pendOf, freeRef]
  · rw [if_pos (by simpa [h] using hs.pending h), release_fst]
    simp [pendOf, h]

/-- A buffer that is not shown again is given up. -/
theorem Connection.replaced_eq (c : Connection) {s : Surface}
    (hne : (commOf (some (.surface s))).map Prod.fst ≠ some s.pendingBuffer) :
    c.replaced s = Arm.releaseCommitted c s := by
  rw [replaced, Arm.releaseCommitted]
  by_cases h : s.committedBuffer = 0
  · simp [h]
  · have hne' : s.committedBuffer ≠ s.pendingBuffer := by simpa [commOf, h] using hne
    simp [h, hne']

section

variable {k : ConnId} {now : UInt64} {header : Header} {cap : Option UInt64} {req : Request}
  {x y : Ctx} {batch : Batch}

/-- A surface that is replaced by one with the same references. -/
theorem Connection.Wf.putSurface {c : Connection} {id : ObjectId} {s s' : Surface} (h : c.Wf)
    (hs : c.objects[id]? = some (.surface s)) (hp : s'.pendingBuffer = s.pendingBuffer)
    (hc : s'.committedBuffer = s.committedBuffer) (ht : s'.committedToken = s.committedToken)
    (hsound : s'.Sound) : (c.putSurface id s').Wf := by
  refine ⟨h.links.putSurface ?_ ?_ (fun b hb => ?_) hsound, h.tally.congr (.insert hs rfl)⟩
  · rw [hs, pendOf, pendOf, hp]
  · rw [hs, commOf, commOf, hc, ht]
  · rw [hs] at hb
    cases hb

/-- **Every accepted request keeps the books.** -/
theorem Effect.wf (h : Effect k now header cap req x batch y) (hx : x.conn.Wf) : y.conn.Wf := by
  have hl := hx.links
  have ht := hx.tally
  cases h with
  | hello => exact ⟨hl, ht⟩
  | createSurface _ _ _ _ hne hfresh hlimit =>
    have hnone := ht.fresh hfresh
    refine ⟨hl.putSurface ?_ ?_ (fun b hb => ?_) ⟨by simp [Surface.new], by simp [Surface.new]⟩,
      ht.addSurface hne hfresh hlimit⟩
    · rw [hnone]
      rfl
    · rw [hnone]
      rfl
    · rw [hnone] at hb
      cases hb
  | destroySurface hs _ _ hr1 hr2 =>
    subst hr1
    subst hr2
    rw [releaseCommitted_fst, cancelPending_fst _ (hl.sound _ _ hs)]
    refine ⟨hl.destroy hs, (ht.congr (.trans (.freeRef _ _) (.freeRef _ _))).dropSurface
      (getElem?_freeRef_surface (getElem?_freeRef_surface hs))⟩
  | setTitle | setAppId => exact hx
  | ackConfigure hs =>
    exact hx.putSurface hs rfl rfl rfl ⟨(hl.sound _ _ hs).mapped_iff, (hl.sound _ _ hs).pending⟩
  | importBuffer _ _ _ _ _ hne hfresh hlimit hbudget hobject =>
    exact ⟨hl.putBuffer (ht.fresh hfresh) rfl, ht.addBuffer hne hfresh hlimit hbudget hobject⟩
  | destroyBuffer hb hav => exact ⟨hl.eraseBuffer hb hav, ht.dropBuffer hb⟩
  | @attachNothing _ _ hs hpend =>
    have hp := (hl.sound _ _ hs).pending_eq hpend
    exact hx.putSurface hs hp.symm rfl rfl ⟨(hl.sound _ _ hs).mapped_iff, fun h => absurd rfl h⟩
  | @attachSome x s b buffer _ hs hpend hne hb hav =>
    have hp := (hl.sound _ _ hs).pending_eq hpend
    have hij : buffer ≠ header.object := by
      rintro rfl
      rw [hb] at hs
      cases hs
    have hs' : (x.conn.putBuffer buffer { b with state := .pending }).objects[header.object]? =
        some (.surface s) := (getElem?_insert_of_ne hij).trans hs
    exact ⟨hl.attach hs hp hb hav hne, ht.congr (.trans (.insert hs' rfl) (.insert hb rfl))⟩
  | @commitUnmap _ _ _ hs _ hnone _ _ _ _ hr =>
    subst hr
    rw [releaseCommitted_fst]
    exact ⟨hl.unmap hs hnone, ht.congr (.trans (.freeRef _ _) (.insert hs rfl))⟩
  | @commitMap x s b _ hs _ hne hb _ _ _ _ hr =>
    subst hr
    have hij : s.pendingBuffer ≠ header.object := fun hij => by
      rw [hij, hs] at hb
      cases hb
    have hs' : (x.conn.putBuffer s.pendingBuffer
        { b with state := .busy, commitToken := header.serial }).objects[header.object]? =
          some (.surface s) := (getElem?_insert_of_ne hij).trans hs
    rw [replaced_eq _ (hl.committed_ne_pending hs hne), Arm.releaseCommitted_fst]
    exact ⟨hl.show_ hs hne hb _ _,
      ht.congr (.trans (.freeRef _ _) (.trans (.insert hs' rfl) (.insert hb rfl)))⟩

end

/-! ### Runs -/

section

variable {k : ConnId} {now : UInt64} {c c' : Connection} {items : List Item}

/-- **Every step keeps the books.** -/
theorem Step.wf (h : Step k now c items c') (hc : c.Wf) : c'.Wf := by
  cases h with
  | accept _ _ _ _ _ hx he =>
    have hw := he.wf (by rw [hx]; exact ⟨hc.links, hc.tally⟩)
    exact ⟨hw.links, hw.tally⟩
  | composite =>
    exact ⟨hc.links.unframed, hc.tally.congr (.unframed _)⟩
  | @reconfigure id s width height scale state _ hs =>
    have hsound := hc.links.sound _ _ hs
    have hw : (c.putSurface id
        { s with width, height, scale, state, latestToken := c.nextServerSerial }).Wf :=
      hc.putSurface hs rfl rfl rfl ⟨hsound.mapped_iff, hsound.pending⟩
    exact ⟨hw.links, hw.tally⟩
  | _ => exact ⟨hc.links, hc.tally⟩

theorem Step.idWatermark_le (h : Step k now c items c') : c.idWatermark ≤ c'.idWatermark := by
  cases h with
  | accept _ _ _ _ _ hx he =>
    have hle := he.kept.idWatermark
    rw [hx] at hle
    exact hle
  | _ => exact UInt64.le_rfl

end

/-- **The books of a connection**, as its owner would put it. -/
structure Connection.Bookkeeping (c : Connection) : Prop where
  pending : ∀ (j : ObjectId) (b : Buffer), c.objects[j]? = some (.buffer b) → b.state = .pending →
    ∃! i : ObjectId, ∃ s : Surface, c.objects[i]? = some (.surface s) ∧ s.pendingBuffer = j ∧
      s.pendingAttach = true
  busy : ∀ (j : ObjectId) (b : Buffer), c.objects[j]? = some (.buffer b) → b.state = .busy →
    (∃! i : ObjectId, ∃ s : Surface, c.objects[i]? = some (.surface s) ∧ s.committedBuffer = j) ∧
    ∀ (i : ObjectId) (s : Surface), c.objects[i]? = some (.surface s) → s.committedBuffer = j →
      b.commitToken = s.committedToken
  available : ∀ (j : ObjectId) (b : Buffer), c.objects[j]? = some (.buffer b) →
    b.state = .available → ∀ (i : ObjectId) (s : Surface), c.objects[i]? = some (.surface s) →
      s.pendingBuffer ≠ j ∧ s.committedBuffer ≠ j
  live : ∀ (i : ObjectId) (s : Surface), c.objects[i]? = some (.surface s) →
    (s.pendingBuffer ≠ 0 → ∃ b : Buffer, c.objects[s.pendingBuffer]? = some (.buffer b)) ∧
    (s.committedBuffer ≠ 0 → ∃ b : Buffer, c.objects[s.committedBuffer]? = some (.buffer b))
  mapped : ∀ (i : ObjectId) (s : Surface), c.objects[i]? = some (.surface s) →
    (s.mapped = true ↔ s.committedBuffer ≠ 0)
  surfaces : c.surfaces.toNat = sumOver Object.asSurface c.objects ∧ c.surfaces.toNat ≤ 64
  buffers : c.buffers.toNat = sumOver Object.asBuffer c.objects ∧ c.buffers.toNat ≤ 192
  backing : c.backingBytes.toNat = sumOver Object.pinned c.objects ∧
    c.backingBytes.toNat ≤ 256 * 1024 * 1024
  ids : ∀ (i : ObjectId) (o : Object), c.objects[i]? = some o → i ≠ 0 ∧ i ≤ c.idWatermark

theorem Connection.Wf.bookkeeping {c : Connection} (h : c.Wf) : c.Bookkeeping where
  pending j b hb hst := by
    have hp : Pend c.objects[j]? := by
      rw [hb]
      exact hst
    obtain ⟨i, hi, huniq⟩ := h.links.pend.existsUnique hp
    obtain ⟨s, hs, rfl, hne⟩ := pendOf_eq_some.mp hi
    refine ⟨i, ⟨s, hs, rfl, (h.links.sound i s hs).pending hne⟩, ?_⟩
    rintro i' ⟨s', hs', hj', -⟩
    exact huniq i' (pendOf_eq_some.mpr ⟨s', hs', hj', hne⟩)
  busy j b hb hst := by
    have hp : Busy b.commitToken c.objects[j]? := by
      rw [hb]
      exact ⟨hst, rfl⟩
    obtain ⟨i, hi, huniq⟩ := h.links.comm.existsUnique (j := (j, b.commitToken)) hp
    obtain ⟨s, hs, rfl, -, hne⟩ := commOf_eq_some.mp hi
    have htoken : ∀ (i' : ObjectId) (s' : Surface), c.objects[i']? = some (.surface s') →
        s'.committedBuffer = s.committedBuffer → b.commitToken = s'.committedToken := by
      intro i' s' hs' hj'
      obtain ⟨b', hb', -, htok'⟩ := h.links.committed_live hs' (hj' ▸ hne)
      rw [hj', hb] at hb'
      cases hb'
      exact htok'
    refine ⟨⟨i, ⟨s, hs, rfl⟩, ?_⟩, htoken⟩
    rintro i' ⟨s', hs', hj'⟩
    exact huniq i' (commOf_eq_some.mpr ⟨s', hs', hj', (htoken i' s' hs' hj').symm, hne⟩)
  available j b hb hst i s hs := by
    have hne := (h.tally.ids j _ hb).1
    refine ⟨fun hj => ?_, fun hj => ?_⟩
    · obtain ⟨b', hb', hst'⟩ := h.links.pending_live hs (hj ▸ hne)
      rw [hj, hb] at hb'
      cases hb'
      exact absurd (hst.symm.trans hst') (by simp)
    · obtain ⟨b', hb', hst', -⟩ := h.links.committed_live hs (hj ▸ hne)
      rw [hj, hb] at hb'
      cases hb'
      exact absurd (hst.symm.trans hst') (by simp)
  live i s hs := by
    refine ⟨fun hne => ?_, fun hne => ?_⟩
    · obtain ⟨b, hb, -⟩ := h.links.pending_live hs hne
      exact ⟨b, hb⟩
    · obtain ⟨b, hb, -⟩ := h.links.committed_live hs hne
      exact ⟨b, hb⟩
  mapped i s hs := (h.links.sound i s hs).mapped_iff
  surfaces := ⟨h.tally.surfaces_eq, le_iff_toNat_le.mp h.tally.surfaces_le⟩
  buffers := ⟨h.tally.buffers_eq, le_iff_toNat_le.mp h.tally.buffers_le⟩
  backing := ⟨h.tally.backing_eq, le_iff_toNat_le.mp h.tally.backing_le⟩
  ids := h.tally.ids

/-- The books are in order throughout every run. -/
theorem wf_run (calls : List Call) {k : ConnId} {c : Connection}
    (hc : (run calls).2.conns[k]? = some c) : c.Wf :=
  conn_induct (fun _ now => wf_new now)
    (fun _ _ _ _ _ _ hc h => h.wf hc) calls hc

/-- **After every sequence of calls the books of every connection are in order**, and no
call lowers the watermark of a connection that it does not open. -/
theorem run_bookkeeping (calls : List Call) :
    (∀ (k : ConnId) (c : Connection), (run calls).2.conns[k]? = some c → c.Bookkeeping) ∧
    ∀ (call : Call) (k : ConnId) (c c' : Connection), (run calls).2.conns[k]? = some c →
      ((run calls).2.exec call).2.conns[k]? = some c' →
      ((run calls).2.exec call).1.opened ≠ some k → c.idWatermark ≤ c'.idWatermark := by
  refine ⟨fun k c hc => (wf_run calls hc).bookkeeping, fun call k c c' hc hc' hopened => ?_⟩
  rcases exec_step with ⟨ho, -⟩ | ⟨-, hp⟩
  · exact absurd ho hopened
  · rw [hc, hc'] at hp
    generalize ((run calls).2.exec call).1.items k = items at hp
    cases hp with
    | step h => exact h.idWatermark_le

end DunitOS.Gui
