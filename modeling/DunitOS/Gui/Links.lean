import DunitOS.Gui.Steps
import DunitOS.SysLib.Matching

/-!
# Who holds a buffer

A connection keeps its surfaces and buffers in one map, with cross-references in both
directions: a surface names its pending and its committed buffer, and a buffer is marked
as pending or busy. `Links` says that the two directions agree.

The cross-references are two instances of one notion, `SysLib.Matching`: the surfaces are
the parties, and what they hold are pending buffers on the one side, and busy buffers with
the serial of their COMMIT on the other. A request changes the references of one surface,
so that each kind of request is one exchange in the sense of `SysLib.Matching.change`.
-/

namespace DunitOS.Gui

open SysLib Std Surface Object

open ExtTreeMap (getElem?_insert_self getElem?_erase_self)

/-! ### References and marks -/

/-- The buffer that an object holds pending. -/
def pendOf : Option Object → Option ObjectId
  | some (.surface s) => if s.pendingBuffer = 0 then none else some s.pendingBuffer
  | _ => none

/-- The buffer that an object shows, with the COMMIT that showed it. -/
def commOf : Option Object → Option (ObjectId × UInt64)
  | some (.surface s) =>
    if s.committedBuffer = 0 then none else some (s.committedBuffer, s.committedToken)
  | _ => none

variable {j : ObjectId} {o : Option Object}

theorem pendOf_eq_some :
    pendOf o = some j ↔ ∃ s, o = some (.surface s) ∧ s.pendingBuffer = j ∧ j ≠ 0 := by
  constructor
  · intro h
    rcases o with _ | ⟨s | b⟩
    · cases h
    · by_cases h0 : s.pendingBuffer = 0
      · simp [pendOf, h0] at h
      · obtain rfl : s.pendingBuffer = j := by simpa [pendOf, h0] using h
        exact ⟨s, rfl, rfl, h0⟩
    · cases h
  · rintro ⟨s, rfl, rfl, h0⟩
    simp [pendOf, h0]

variable {tok : UInt64}

theorem commOf_eq_some : commOf o = some (j, tok) ↔
      ∃ s, o = some (.surface s) ∧ s.committedBuffer = j ∧ s.committedToken = tok ∧ j ≠ 0 := by
  constructor
  · intro h
    rcases o with _ | ⟨s | b⟩
    · cases h
    · by_cases h0 : s.committedBuffer = 0
      · simp [commOf, h0] at h
      · obtain ⟨rfl, rfl⟩ : s.committedBuffer = j ∧ s.committedToken = tok := by
          simpa [commOf, h0] using h
        exact ⟨s, rfl, rfl, rfl, h0⟩
    · cases h
  · rintro ⟨s, rfl, rfl, rfl, h0⟩
    simp [commOf, h0]

/-- An object marked as a pending buffer. -/
def Pend : Option Object → Prop
  | some (.buffer b) => b.state = .pending
  | _ => False

/-- An object marked as a buffer that a COMMIT shows. -/
def Busy (token : UInt64) : Option Object → Prop
  | some (.buffer b) => b.state = .busy ∧ b.commitToken = token
  | _ => False

theorem Pend.exists (h : Pend o) : ∃ b, o = some (.buffer b) ∧ b.state = .pending := by
  rcases o with _ | ⟨s | b⟩
  · exact h.elim
  · exact h.elim
  · exact ⟨b, rfl, h⟩

theorem Busy.exists (h : Busy tok o) :
    ∃ b, o = some (.buffer b) ∧ b.state = .busy ∧ b.commitToken = tok := by
  rcases o with _ | ⟨s | b⟩
  · exact h.elim
  · exact h.elim
  · exact ⟨b, rfl, h⟩

/-- An object, if it is a buffer, that has been given up. -/
def Object.freed : Object → Object
  | surface s => surface s
  | buffer b => buffer { b with state := .available, commitToken := 0 }

/-- Objects after a buffer, if any, has been given up. -/
def freeRef : Option ObjectId → ExtTreeMap ObjectId Object → ExtTreeMap ObjectId Object
  | some j, t => t.modify j Object.freed
  | none, t => t

section

variable {t : ExtTreeMap ObjectId Object} {i j a : ObjectId} {s : Surface} {b : Buffer}
  {r : Option ObjectId} {tok : UInt64}

theorem getElem?_freeRef_self : (freeRef (some j) t)[j]? = t[j]?.map freed :=
  ExtTreeMap.getElem?_modify_self

theorem getElem?_freeRef_of_ne (h : r ≠ some a) : (freeRef r t)[a]? = t[a]? := by
  rcases r with _ | j
  · rfl
  · exact getElem?_modify_of_ne fun hj => h (by rw [hj])

theorem getElem?_freeRef_surface (h : t[a]? = some (.surface s)) :
    (freeRef r t)[a]? = some (.surface s) := by
  by_cases hr : r = some a
  · subst hr
    rw [getElem?_freeRef_self, h]
    rfl
  · rwa [getElem?_freeRef_of_ne hr]

/-! A surface that is found after an update. -/

theorem surface_of_freeRef (h : (freeRef r t)[a]? = some (.surface s)) :
    t[a]? = some (.surface s) := by
  by_cases hr : r = some a
  · subst hr
    rw [getElem?_freeRef_self] at h
    rcases ht : t[a]? with _ | ⟨s' | b⟩ <;> rw [ht] at h <;> cases h
    rfl
  · rwa [getElem?_freeRef_of_ne hr] at h

theorem surface_of_insert_buffer (h : (t.insert j (.buffer b))[a]? = some (.surface s)) :
    t[a]? = some (.surface s) := by
  rcases of_getElem?_insert h with ⟨-, he⟩ | ⟨-, h⟩
  · cases he
  · exact h

theorem surface_of_insert_surface {s' : Surface}
    (h : (t.insert i (.surface s'))[a]? = some (.surface s)) :
    (a = i ∧ s = s') ∨ (a ≠ i ∧ t[a]? = some (.surface s)) := by
  rcases of_getElem?_insert h with ⟨rfl, he⟩ | ⟨hia, h⟩
  · cases he
    exact .inl ⟨rfl, rfl⟩
  · exact .inr ⟨Ne.symm hia, h⟩

/-! Giving a buffer up changes no reference, and takes its mark away. -/

theorem view_freeRef {γ : Type} {f : Option Object → γ}
    (hf : ∀ b, f (some (buffer b).freed) = f (some (.buffer b))) :
    f (freeRef r t)[a]? = f t[a]? := by
  by_cases h : r = some a
  · subst h
    rw [getElem?_freeRef_self]
    rcases t[a]? with _ | ⟨s | b⟩
    · rfl
    · rfl
    · exact hf b
  · rw [getElem?_freeRef_of_ne h]

theorem pendOf_freeRef : pendOf (freeRef r t)[a]? = pendOf t[a]? := view_freeRef fun _ => rfl

theorem commOf_freeRef : commOf (freeRef r t)[a]? = commOf t[a]? := view_freeRef fun _ => rfl

theorem pend_freeRef : Pend (freeRef r t)[a]? ↔ r ≠ some a ∧ Pend t[a]? := by
  by_cases h : r = some a
  · subst h
    rw [getElem?_freeRef_self]
    rcases t[a]? with _ | ⟨s | b⟩ <;> simp [Pend, freed]
  · rw [getElem?_freeRef_of_ne h]
    simp [h]

theorem busy_freeRef : Busy tok (freeRef r t)[a]? ↔ r ≠ some a ∧ Busy tok t[a]? := by
  by_cases h : r = some a
  · subst h
    rw [getElem?_freeRef_self]
    rcases t[a]? with _ | ⟨s | b⟩ <;> simp [Busy, freed]
  · rw [getElem?_freeRef_of_ne h]
    simp [h]

/-! Putting a surface where there is no buffer changes no mark. -/

theorem pend_insert_surface (hi : ¬Pend t[i]?) : Pend (t.insert i (.surface s))[a]? ↔ Pend t[a]? :=
  Iff.of_eq (view_insert (propext (iff_of_false id hi)))

theorem busy_insert_surface (hi : ¬Busy tok t[i]?) :
    Busy tok (t.insert i (.surface s))[a]? ↔ Busy tok t[a]? :=
  Iff.of_eq (view_insert (propext (iff_of_false id hi)))

/-! Putting a buffer where there is no surface changes no reference. -/

theorem pendOf_insert_buffer (hj : pendOf t[j]? = none) :
    pendOf (t.insert j (.buffer b))[a]? = pendOf t[a]? := view_insert hj.symm

theorem commOf_insert_buffer (hj : commOf t[j]? = none) :
    commOf (t.insert j (.buffer b))[a]? = commOf t[a]? := view_insert hj.symm

end

/-! ### The cross-references -/

/-- What a surface says about itself. -/
structure Surface.Sound (s : Surface) : Prop where
  mapped_iff : s.mapped = true ↔ s.committedBuffer ≠ 0
  pending : s.pendingBuffer ≠ 0 → s.pendingAttach = true

theorem Surface.Sound.pending_eq {s : Surface} (h : s.Sound) (hpend : s.pendingAttach = false) :
    s.pendingBuffer = 0 :=
  not_not.mp fun h0 => by simp [h.pending h0] at hpend

/-- Every surface says so. -/
def Sounds (t : ExtTreeMap ObjectId Object) : Prop :=
  ∀ (i : ObjectId) (s : Surface), t[i]? = some (.surface s) → s.Sound

namespace Sounds

variable {t : ExtTreeMap ObjectId Object} {i j : ObjectId} {s : Surface} {b : Buffer}

theorem insertSurface (h : Sounds t) (hs : s.Sound) : Sounds (t.insert i (.surface s)) := by
  intro a s' ha
  rcases surface_of_insert_surface ha with ⟨-, rfl⟩ | ⟨-, ha⟩
  · exact hs
  · exact h a s' ha

theorem insertBuffer (h : Sounds t) : Sounds (t.insert j (.buffer b)) :=
  fun a s ha => h a s (surface_of_insert_buffer ha)

theorem freeRef (h : Sounds t) (r : Option ObjectId) : Sounds (freeRef r t) :=
  fun a s ha => h a s (surface_of_freeRef ha)

theorem erase (h : Sounds t) : Sounds (t.erase i) :=
  fun a s ha => h a s (of_getElem?_erase ha).2

end Sounds

/-- **The cross-references of the objects of a connection agree.** -/
structure Links (t : ExtTreeMap ObjectId Object) : Prop where
  sound : Sounds t
  pend : Matching (fun i : ObjectId => pendOf t[i]?) fun j => Pend t[j]?
  comm : Matching (fun i : ObjectId => commOf t[i]?) fun j : ObjectId × UInt64 => Busy j.2 t[j.1]?

namespace Links

variable {t : ExtTreeMap ObjectId Object} {i j : ObjectId} {s s' : Surface} {b b' : Buffer}

theorem empty : Links ∅ := by
  have h : ∀ i : ObjectId, (∅ : ExtTreeMap ObjectId Object)[i]? = none := fun i =>
    ExtTreeMap.getElem?_empty
  refine ⟨fun i s hs => ?_, ⟨fun {i i' j} hi _ => ?_, fun j => ?_⟩,
    ⟨fun {i i' j} hi _ => ?_, fun j => ?_⟩⟩
  · rw [h] at hs
    cases hs
  · rw [h] at hi
    cases hi
  · rw [h]
    exact iff_of_false id fun ⟨i, hi⟩ => by rw [h] at hi; cases hi
  · rw [h] at hi
    cases hi
  · rw [h]
    exact iff_of_false id fun ⟨i, hi⟩ => by rw [h] at hi; cases hi

section

variable (h : Links t)

include h

/-- **A surface that keeps its references**, or a new one that has none. -/
theorem putSurface (hp : pendOf (some (.surface s)) = pendOf t[i]?)
    (hc : commOf (some (.surface s)) = commOf t[i]?) (hno : ∀ b, t[i]? ≠ some (.buffer b))
    (hs : s.Sound) : Links (t.insert i (.surface s)) := by
  have hpend : ¬Pend t[i]? := fun hp => by
    obtain ⟨b, hb, -⟩ := hp.exists
    exact hno b hb
  have hbusy : ∀ tok, ¬Busy tok t[i]? := fun tok hp => by
    obtain ⟨b, hb, -⟩ := hp.exists
    exact hno b hb
  exact ⟨h.sound.insertSurface hs,
    h.pend.congr (fun a => view_insert hp) fun a => pend_insert_surface hpend,
    h.comm.congr (fun a => view_insert hc) fun a => busy_insert_surface (hbusy _)⟩

/-- A new buffer. -/
theorem putBuffer (hi : t[i]? = none) (hb : b.state = .available) :
    Links (t.insert i (.buffer b)) := by
  refine ⟨h.sound.insertBuffer,
    h.pend.congr (fun a => view_insert ?_) fun a => Iff.of_eq (view_insert ?_),
    h.comm.congr (fun a => view_insert ?_) fun a => Iff.of_eq (view_insert ?_)⟩ <;>
    rw [hi]
  · rfl
  · simp [Pend, hb]
  · rfl
  · simp [Busy, hb]

/-- A buffer that nobody holds can go. -/
theorem eraseBuffer (hi : t[i]? = some (.buffer b)) (hb : b.state = .available) :
    Links (t.erase i) := by
  refine ⟨h.sound.erase,
    h.pend.congr (fun a => view_erase ?_) fun a => Iff.of_eq (view_erase ?_),
    h.comm.congr (fun a => view_erase ?_) fun a => Iff.of_eq (view_erase ?_)⟩ <;>
    rw [hi]
  · rfl
  · simp [Pend, hb]
  · rfl
  · simp [Busy, hb]

section

variable (hi : t[i]? = some (Object.surface s))

include hi

/-- **A surface without a pending buffer takes one that is available.** -/
theorem attach (hp : s.pendingBuffer = 0)
    (hj : t[j]? = some (.buffer b)) (hb : b.state = .available) (hne : j ≠ 0) :
    Links ((t.insert j (.buffer { b with state := .pending })).insert i
      (.surface (s.attached j))) := by
  have hij : j ≠ i := by
    rintro rfl
    rw [hi] at hj
    cases hj
  have hi' : (t.insert j (.buffer { b with state := .pending }))[i]? = some (.surface s) := by
    rw [getElem?_insert_of_ne hij, hi]
  refine ⟨h.sound.insertBuffer.insertSurface ⟨(h.sound i s hi).mapped_iff, fun _ => rfl⟩,
    h.pend.change i (some j) rfl ?_ ?_ (fun a ha => ?_) fun a => ?_,
    h.comm.congr (fun a => ?_) fun a => ?_⟩
  · rintro j' hj' hpend
    obtain rfl := Option.some.inj hj'
    rw [hj] at hpend
    simp [Pend, hb] at hpend
  · rw [getElem?_insert_self]
    simp [pendOf, attached, hne]
  · rw [getElem?_insert_of_ne (Ne.symm ha), pendOf_insert_buffer (by rw [hj]; rfl)]
  · rw [pend_insert_surface (by rw [hi']; exact id), hi]
    by_cases hja : j = a
    · subst hja
      rw [getElem?_insert_self]
      simp [Pend]
    · rw [getElem?_insert_of_ne hja]
      simp [pendOf, hp, hja]
  · rw [view_insert (f := commOf) (by rw [hi']; rfl), commOf_insert_buffer (by rw [hj]; rfl)]
  · rw [busy_insert_surface (by rw [hi']; exact id)]
    exact Iff.of_eq (view_insert (by rw [hj]; simp [Busy, hb]))

/-- The buffer a surface holds pending is there, and is marked so. -/
theorem pending_live (hne : s.pendingBuffer ≠ 0) :
    ∃ b, t[s.pendingBuffer]? = some (.buffer b) ∧ b.state = .pending :=
  ((h.pend.held_iff _).mpr ⟨i, by simp [hi, pendOf, hne]⟩).exists

/-- The buffer a surface shows is there, and is marked so. -/
theorem committed_live (hne : s.committedBuffer ≠ 0) :
    ∃ b, t[s.committedBuffer]? = some (.buffer b) ∧
      b.state = .busy ∧ b.commitToken = s.committedToken :=
  ((h.comm.held_iff (s.committedBuffer, s.committedToken)).mpr
    ⟨i, by simp [hi, commOf, hne]⟩).exists

/-- What a surface shows is not what it, or any other surface, holds pending. -/
theorem committed_not_pend (hold : (commOf (some (.surface s))).map Prod.fst = some j) :
    ¬Pend t[j]? := by
  by_cases h0 : s.committedBuffer = 0
  · simp [commOf, h0] at hold
  · obtain rfl : s.committedBuffer = j := by simpa [commOf, h0] using hold
    obtain ⟨b, hb, hbusy, -⟩ := h.committed_live hi h0
    intro hp
    rw [hb] at hp
    exact absurd (hbusy.symm.trans hp) (by simp)

theorem committed_ne_pending (hne : s.pendingBuffer ≠ 0) :
    (commOf (some (.surface s))).map Prod.fst ≠ some s.pendingBuffer := fun hold => by
  obtain ⟨b, hb, hst⟩ := h.pending_live hi hne
  refine h.committed_not_pend hi hold ?_
  rw [hb]
  exact hst

/-- **A surface gives up what it shows.** -/
theorem unmap (hp : s.pendingBuffer = 0) :
    Links (freeRef ((commOf (some (.surface s))).map Prod.fst)
      (t.insert i (.surface s.unmapped))) := by
  have hs : s.unmapped.Sound := ⟨by simp [unmapped], by simp [unmapped]⟩
  refine ⟨(h.sound.insertSurface hs).freeRef _, h.pend.congr (fun a => ?_) fun a => ?_,
    h.comm.change i none rfl (by simp) ?_ (fun a ha => ?_) fun a => ?_⟩
  · rw [pendOf_freeRef]
    exact view_insert (by rw [hi]; simp [pendOf, hp, unmapped])
  · rw [pend_freeRef, pend_insert_surface (by rw [hi]; exact id)]
    exact ⟨fun h => h.2, fun hpend => ⟨fun hr => h.committed_not_pend hi hr hpend, hpend⟩⟩
  · rw [commOf_freeRef, getElem?_insert_self]
    simp [commOf, unmapped]
  · rw [commOf_freeRef, getElem?_insert_of_ne (Ne.symm ha)]
  · rw [busy_freeRef, busy_insert_surface (by rw [hi]; exact id), hi]
    by_cases hne : s.committedBuffer = 0
    · simp [commOf, hne]
    · obtain ⟨b, hb, hbusy, htok⟩ := h.committed_live hi hne
      obtain ⟨j, tok⟩ := a
      by_cases hj : s.committedBuffer = j
      · subst hj
        simp +contextual [commOf, hne, hb, Busy, htok]
      · simp [commOf, hne, hj]

/-- **A surface shows its pending buffer** and gives up what it showed before. -/
theorem show_ (hne : s.pendingBuffer ≠ 0)
    (hj : t[s.pendingBuffer]? = some (.buffer b)) (ser : UInt64) (frameCallback : UInt32) :
    Links (freeRef ((commOf (some (.surface s))).map Prod.fst)
      ((t.insert s.pendingBuffer (.buffer { b with state := .busy, commitToken := ser })).insert i
        (.surface (s.showing ser frameCallback)))) := by
  have hpend : b.state = .pending := by
    obtain ⟨b', hb', hst⟩ := h.pending_live hi hne
    rw [hj] at hb'
    cases hb'
    exact hst
  have hij : s.pendingBuffer ≠ i := fun hij => by
    rw [hij, hi] at hj
    cases hj
  have hi' : (t.insert s.pendingBuffer
      (.buffer { b with state := .busy, commitToken := ser }))[i]? = some (.surface s) := by
    rw [getElem?_insert_of_ne hij, hi]
  have hold := h.committed_ne_pending hi hne
  have hs : (s.showing ser frameCallback).Sound :=
    ⟨by simp [showing, hne], by simp [showing]⟩
  refine ⟨(h.sound.insertBuffer.insertSurface hs).freeRef _,
    h.pend.change i none rfl (by simp) ?_ (fun a ha => ?_) fun a => ?_,
    h.comm.change i (some (s.pendingBuffer, ser)) rfl ?_ ?_ (fun a ha => ?_) fun a => ?_⟩
  · rw [pendOf_freeRef, getElem?_insert_self]
    simp [pendOf, showing]
  · rw [pendOf_freeRef, getElem?_insert_of_ne (Ne.symm ha), pendOf_insert_buffer (by rw [hj]; rfl)]
  · rw [pend_freeRef, pend_insert_surface (by rw [hi']; exact id), hi]
    by_cases hja : s.pendingBuffer = a
    · subst hja
      rw [getElem?_insert_self]
      simp [Pend, pendOf, hne]
    · rw [getElem?_insert_of_ne hja]
      refine ⟨fun hp => .inr ⟨by simp [pendOf, hne, hja], hp.2⟩, ?_⟩
      rintro (hp | ⟨-, hp⟩)
      · cases hp
      · exact ⟨fun hr => h.committed_not_pend hi hr hp, hp⟩
  · rintro ⟨j, tok⟩ hj' hbusy
    cases hj'
    rw [hj] at hbusy
    exact absurd (hpend.symm.trans hbusy.1) (by simp)
  · rw [commOf_freeRef, getElem?_insert_self]
    simp [commOf, showing, hne]
  · rw [commOf_freeRef, getElem?_insert_of_ne (Ne.symm ha), commOf_insert_buffer (by rw [hj]; rfl)]
  · obtain ⟨j, tok⟩ := a
    rw [busy_freeRef, busy_insert_surface (by rw [hi']; exact id), hi]
    by_cases hja : s.pendingBuffer = j
    · subst hja
      rw [getElem?_insert_self, hj]
      simp [Busy, hold, hpend]
    · rw [getElem?_insert_of_ne hja]
      by_cases h0 : s.committedBuffer = 0
      · simp [commOf, h0, hja]
      · obtain ⟨b', hb', hbusy, htok⟩ := h.committed_live hi h0
        by_cases hj' : s.committedBuffer = j
        · subst hj'
          simp +contextual [commOf, h0, hb', Busy, htok, hja]
        · simp [commOf, h0, hj', hja]

/-- **A surface goes**, and gives up everything it held. -/
theorem destroy :
    Links ((freeRef ((commOf (some (.surface s))).map Prod.fst)
      (freeRef (pendOf (some (.surface s))) t)).erase i) := by
  have hget : ∀ a, a ≠ i → ∀ u : ExtTreeMap ObjectId Object, (u.erase i)[a]? = u[a]? :=
    fun a ha u => getElem?_erase_of_ne (Ne.symm ha)
  have hgone : ∀ u : ExtTreeMap ObjectId Object, (u.erase i)[i]? = none := fun u =>
    getElem?_erase_self
  refine ⟨((h.sound.freeRef _).freeRef _).erase, h.pend.change i none rfl (by simp) ?_
    (fun a ha => ?_) fun a => ?_, h.comm.change i none rfl (by simp) ?_
    (fun a ha => ?_) fun a => ?_⟩
  · rw [hgone]
    rfl
  · rw [hget a ha, pendOf_freeRef, pendOf_freeRef]
  · by_cases hia : a = i
    · rw [hia, hgone, hi]
      exact iff_of_false id (by simp [Pend])
    · rw [hget a hia, pend_freeRef, pend_freeRef, hi]
      refine ⟨fun hp => .inr ⟨hp.2.1, hp.2.2⟩, ?_⟩
      rintro (hp | ⟨hne, hp⟩)
      · cases hp
      · exact ⟨fun hr => h.committed_not_pend hi hr hp, hne, hp⟩
  · rw [hgone]
    rfl
  · rw [hget a ha, commOf_freeRef, commOf_freeRef]
  · obtain ⟨j, tok⟩ := a
    by_cases hia : j = i
    · rw [hia, hgone, hi]
      exact iff_of_false id (by simp [Busy])
    · rw [hget j hia, busy_freeRef, busy_freeRef, hi]
      constructor
      · rintro ⟨h1, -, h3⟩
        refine .inr ⟨fun hc => h1 ?_, h3⟩
        rw [hc]
        rfl
      · rintro (hp | ⟨hne, hp⟩)
        · cases hp
        · refine ⟨fun hr => ?_, fun hr => ?_, hp⟩
          · by_cases h0 : s.committedBuffer = 0
            · simp [commOf, h0] at hr
            · obtain rfl : s.committedBuffer = j := by simpa [commOf, h0] using hr
              obtain ⟨b', hb', -, htok⟩ := h.committed_live hi h0
              rw [hb'] at hp
              exact hne (by simp [commOf, h0, ← htok, hp.2])
          · by_cases h0 : s.pendingBuffer = 0
            · simp [pendOf, h0] at hr
            · obtain rfl : s.pendingBuffer = j := by simpa [pendOf, h0] using hr
              obtain ⟨b', hb', hst⟩ := h.pending_live hi h0
              rw [hb'] at hp
              exact absurd (hp.1.symm.trans hst) (by simp)

end

/-- A composition tick touches neither references nor marks. -/
theorem unframed : Links (t.map fun _ (o : Object) => o.unframed) := by
  have hget : ∀ a : ObjectId,
      (t.map fun _ (o : Object) => o.unframed)[a]? = t[a]?.map Object.unframed :=
    fun a => ExtTreeMap.getElem?_map
  refine ⟨fun a s ha => ?_, h.pend.congr (fun a => ?_) fun a => ?_,
    h.comm.congr (fun a => ?_) fun a => ?_⟩
  · rw [hget] at ha
    rcases ht : t[a]? with _ | ⟨s' | b⟩ <;> rw [ht] at ha <;> cases ha
    exact ⟨(h.sound a s' ht).mapped_iff, (h.sound a s' ht).pending⟩
  all_goals
    rw [hget]
    rcases t[_]? with _ | ⟨s | b⟩ <;> rfl

end

end Links

end DunitOS.Gui
