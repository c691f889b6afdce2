import DunitOS.SysLib.TreeMap

/-!
# Handles

The model of `kernel/src/handle.rs`: a process owns a table from numbers to objects of the
kernel with a mask of rights. Rights can be narrowed when a handle is duplicated and never
widened. The number of a new handle is the next one that is not in use; with a full table
the search for it does not end, and the model says so with `none`.
-/

namespace DunitOS.Kernel

open SysLib Std List Option

/-- The rights of a handle, as bits. -/
abbrev Rights := UInt32

def rightRead : Rights := 1

def rightWrite : Rights := 2

def rightMap : Rights := 4

def rightSignal : Rights := 8

def rightTransfer : Rights := 16

def rightDisplayMaster : Rights := 32

def rightInputMaster : Rights := 64

def rightsAll : Rights := 0x7F

/-- The largest size of a memory object. -/
def maxMemoryObject : ℕ := 2 ^ 20

abbrev ProcessId := ℕ

/-- The number of a handle in its process. -/
abbrev Handle := UInt32

/-- How a call on handles can fail. -/
inductive HandleError
  | badHandle
  | accessDenied
  | wrongType
  | displayBusy
  | tooLarge
  | mapFailed
  | noSuchTarget
  /-- The search for a free number does not end. -/
  | noReturn
  deriving DecidableEq, Repr

/-- What a handle refers to. -/
inductive HandleObject
  | memory (data : List UInt8)
  | endpoint (pid : ProcessId)
  | display
  | input
  | sharedFrames (id : ℕ)
  deriving DecidableEq, Repr

/-- The two objects that there is one of. -/
inductive Device
  | display
  | input
  deriving DecidableEq, Repr

/-- The object that stands for a device. -/
def Device.object : Device → HandleObject
  | display => .display
  | input => .input

/-- The right that comes with a device. -/
def Device.right : Device → Rights
  | display => rightDisplayMaster
  | input => rightInputMaster

/-- What a handle refers to, and with which rights. -/
structure HandleEntry where
  object : HandleObject
  rights : Rights
  deriving DecidableEq, Repr

/-- The handles of a process, and the next number to try. -/
structure HandleTable where
  entries : ExtTreeMap Handle HandleEntry
  next : Handle

namespace HandleTable

def new : HandleTable := ⟨∅, 1⟩

/-- The number of tries after which the search has seen every number. -/
@[irreducible] def allTries : ℕ := 2 ^ 32

/-- The loop of `allocate_id`. -/
def allocateLoop (t : HandleTable) : ℕ → Option (Handle × HandleTable)
  | 0 => none
  | fuel + 1 =>
    if t.next ≠ 0 ∧ t.entries[t.next]?.isNone then some (t.next, { t with next := t.next + 1 })
    else allocateLoop { t with next := t.next + 1 } fuel

/-- A number that is not in use. -/
def allocateId (t : HandleTable) : Option (Handle × HandleTable) := t.allocateLoop allTries

/-- Give an object a handle. -/
def insert (t : HandleTable) (object : HandleObject) (rights : Rights) :
    Option (Handle × HandleTable) :=
  t.allocateId.map fun (id, t) =>
    (id, { t with entries := t.entries.insert id ⟨object, rights &&& rightsAll⟩ })

/-- The entry of a handle. -/
def get (t : HandleTable) (handle : Handle) : Except HandleError HandleEntry :=
  match t.entries[handle]? with
  | some entry => .ok entry
  | none => .error .badHandle

/-- The handle is there and has all the rights that are asked for. -/
def require (t : HandleTable) (handle : Handle) (required : Rights) :
    Except HandleError HandleEntry :=
  match t.get handle with
  | .ok entry => if entry.rights &&& required ≠ required then .error .accessDenied else .ok entry
  | .error e => .error e

/-- A second handle, with no more rights. -/
def duplicate (t : HandleTable) (handle : Handle) (newRights : Rights) :
    Except HandleError (Handle × HandleTable) :=
  match t.get handle with
  | .error e => .error e
  | .ok current =>
    let newRights := newRights &&& rightsAll
    if newRights &&& ~~~current.rights ≠ 0 then .error .accessDenied
    else match t.insert current.object newRights with
      | some r => .ok r
      | none => .error .noReturn

/-- `remove` and `take_for_transfer`. -/
def remove (t : HandleTable) (handle : Handle) : Except HandleError (HandleEntry × HandleTable) :=
  match t.get handle with
  | .ok entry => .ok (entry, { t with entries := t.entries.erase handle })
  | .error e => .error e

/-- The objects of all handles, when a process ends. -/
def drainObjects (t : HandleTable) : List HandleObject := t.entries.toList.map fun e => e.2.object

/-- How many handles refer to an object. -/
def countOf (t : HandleTable) (object : HandleObject) : ℕ :=
  sumOver (fun e => if e.object = object then 1 else 0) t.entries

/-! ### What the table holds after each operation -/

section

variable {t t' : HandleTable} {h : Handle} {object : HandleObject} {rights : Rights}
variable {entry : HandleEntry}

theorem allocateLoop_some {fuel : ℕ} (hloop : t.allocateLoop fuel = some (h, t')) :
    t.entries[h]? = none ∧ t'.entries = t.entries := by
  induction fuel generalizing t with
  | zero => cases hloop
  | succ fuel ih =>
    rw [allocateLoop] at hloop
    split_ifs at hloop with hfree
    · obtain ⟨rfl, rfl⟩ := Prod.mk.inj (some.inj hloop)
      exact ⟨isNone_iff_eq_none.mp hfree.2, rfl⟩
    · have hnext := ih hloop
      exact hnext

/-- **A new handle** takes the place of no other. -/
theorem insert_some (hins : t.insert object rights = some (h, t')) :
    t.entries[h]? = none ∧ t'.entries = t.entries.insert h ⟨object, rights &&& rightsAll⟩ := by
  rw [insert, map_eq_some_iff] at hins
  obtain ⟨⟨id, t1⟩, halloc, heq⟩ := hins
  obtain ⟨rfl, rfl⟩ := Prod.mk.inj heq
  obtain ⟨hnone, hsame⟩ := allocateLoop_some halloc
  exact ⟨hnone, by rw [hsame]⟩

theorem get_ok (hget : t.get h = .ok entry) : t.entries[h]? = some entry := by
  rw [get] at hget
  rcases he : t.entries[h]? with _ | e
  · rw [he] at hget
    cases hget
  · rw [he] at hget
    rw [Except.ok.inj hget]

theorem require_ok {required : Rights} (hreq : t.require h required = .ok entry) :
    t.entries[h]? = some entry ∧ entry.rights &&& required = required := by
  rw [require] at hreq
  rcases hget : t.get h with e | entry'
  · rw [hget] at hreq
    cases hreq
  · rw [hget] at hreq
    simp only at hreq
    split_ifs at hreq with hr
    obtain rfl := Except.ok.inj hreq
    exact ⟨get_ok hget, not_not.mp hr⟩

/-- **Rights are narrowed** by a duplicate, and the object is the same. -/
theorem duplicate_ok {newRights : Rights} (hdup : t.duplicate h newRights = .ok (h', t')) :
    ∃ entry, t.entries[h]? = some entry ∧ (newRights &&& rightsAll) &&& ~~~entry.rights = 0 ∧
      t.entries[h']? = none ∧
      t'.entries = t.entries.insert h' ⟨entry.object, newRights &&& rightsAll &&& rightsAll⟩ := by
  rw [duplicate] at hdup
  rcases hget : t.get h with e | entry
  · rw [hget] at hdup
    cases hdup
  · rw [hget] at hdup
    simp only at hdup
    split_ifs at hdup with hr
    rcases hins : t.insert entry.object (newRights &&& rightsAll) with _ | ⟨h1, t1⟩
    · rw [hins] at hdup
      cases hdup
    · rw [hins] at hdup
      obtain ⟨rfl, rfl⟩ := Prod.mk.inj (Except.ok.inj hdup)
      obtain ⟨hnone, hent⟩ := insert_some hins
      exact ⟨entry, get_ok hget, not_not.mp hr, hnone, hent⟩

theorem remove_ok (hrem : t.remove h = .ok (entry, t')) :
    t.entries[h]? = some entry ∧ t'.entries = t.entries.erase h := by
  rw [remove] at hrem
  rcases hget : t.get h with e | entry'
  · rw [hget] at hrem
    cases hrem
  · rw [hget] at hrem
    obtain ⟨rfl, rfl⟩ := Prod.mk.inj (Except.ok.inj hrem)
    exact ⟨get_ok hget, rfl⟩

/-! ### Counting -/

theorem countOf_insert (hins : t.insert object rights = some (h, t')) (o : HandleObject) :
    t'.countOf o = (if object = o then 1 else 0) + t.countOf o := by
  obtain ⟨hnone, hent⟩ := insert_some hins
  rw [countOf, hent, sumOver_insert_of_none _ hnone]
  rfl

theorem countOf_duplicate {newRights : Rights}
    (hdup : t.duplicate h newRights = .ok (h', t')) (hentry : t.entries[h]? = some entry)
    (o : HandleObject) : t'.countOf o = (if entry.object = o then 1 else 0) + t.countOf o := by
  obtain ⟨entry', hentry', -, hnone, hent⟩ := duplicate_ok hdup
  obtain rfl := some.inj (hentry.symm.trans hentry')
  rw [countOf, hent, sumOver_insert_of_none _ hnone]
  rfl

theorem countOf_remove (hrem : t.remove h = .ok (entry, t'))
    (o : HandleObject) : (if entry.object = o then 1 else 0) + t'.countOf o = t.countOf o := by
  obtain ⟨hentry, hent⟩ := remove_ok hrem
  rw [countOf, hent]
  exact sumOver_erase (fun e => if e.object = o then 1 else 0) hentry

theorem count_drainObjects (t : HandleTable) (o : HandleObject) :
    t.drainObjects.count o = t.countOf o := by
  rw [drainObjects, countOf, sumOver, count_eq_countP, countP_map]
  induction t.entries.toList with
  | nil => rfl
  | cons e l ih =>
    rw [countP_cons, map_cons, sum_cons, ih, add_comm]
    simp

end

end HandleTable

end DunitOS.Kernel
