import DunitOS.SysLib.Prog
import Mathlib.Data.List.Basic

/-!
# Block devices that fail and lose power

A block device is an array of fixed-size blocks. A single write is atomic: it
stores its block or does nothing. What the environment decides is kept in the
device itself – the blocks that cannot be read, and the outcomes of the writes to
come – so that a program run on a device is a function, and "for every behaviour of
the device" is a quantifier over devices.

A **power cut** is a special case of failing writes: `Disk.cutAfter` lets
the next `k` writes through and fails the one after them. A program that gives up at
its first failed write then leaves exactly the first `k` of its writes behind
(`Disk.writeAll_cutAfter`), which is the disk the machine finds when the power
comes back (`Disk.powerUp`).
-/

namespace SysLib

open List Prog

/-- A block of `n` bytes. -/
@[ext] structure Block (n : ℕ) where
  bytes : List UInt8
  length_bytes : bytes.length = n

namespace Block

variable {n : ℕ}

/-- The block that holds the first `n` bytes of a string, with zeros where it is too
short. -/
def ofBytes (n : ℕ) (l : List UInt8) : Block n where
  bytes := l.take n ++ List.replicate (n - l.length) 0
  length_bytes := by
    rw [List.length_append, List.length_take, List.length_replicate]
    omega

@[simp] theorem bytes_ofBytes {l : List UInt8} (h : l.length = n) : (ofBytes n l).bytes = l := by
  subst h
  simp [ofBytes]

end Block

/-- A block device: its contents, the blocks that cannot be read, and the outcomes
of the writes to come (`true` is a failure; once the list is used up every write
succeeds). -/
structure Disk (n : ℕ) where
  data : ℕ → Block n
  bad : ℕ → Bool
  faults : List Bool

namespace Disk

variable {n : ℕ} {ε : Type}

def read (d : Disk n) (lba : ℕ) : Option (Block n) :=
  if d.bad lba then none else some (d.data lba)

/-- The device with one block replaced. -/
def store (d : Disk n) (lba : ℕ) (b : Block n) : Disk n :=
  { d with data := Function.update d.data lba b }

/-- Write a block: consume one outcome, and store the block unless it is a failure. -/
def write (e : ε) (lba : ℕ) (b : Block n) : Prog (Disk n) ε Unit := fun d =>
  match d.faults with
  | [] => (.ok (), d.store lba b)
  | false :: fs => (.ok (), { d.store lba b with faults := fs })
  | true :: fs => (.error e, { d with faults := fs })

/-- The device after a list of writes. -/
def storeAll (ws : List (ℕ × Block n)) (d : Disk n) : Disk n :=
  ws.foldl (fun d w => d.store w.1 w.2) d

/-- Write a list of blocks in order, giving up at the first failure. -/
def writeAll (e : ε) (ws : List (ℕ × Block n)) : Prog (Disk n) ε Unit :=
  Prog.forEach (fun w => write e w.1 w.2) ws

/-- No write of the device fails. -/
def Reliable (d : Disk n) : Prop := d.faults = []

/-- The device whose power goes after `k` more writes. -/
def cutAfter (d : Disk n) (k : ℕ) : Disk n :=
  { d with faults := List.replicate k false ++ [true] }

/-- The device after the power has come back. -/
def powerUp (d : Disk n) : Disk n := { d with faults := [] }

/-! ### What a list of writes leaves behind -/

@[simp] theorem data_store_self (d : Disk n) (lba : ℕ) (b : Block n) :
    (d.store lba b).data lba = b := Function.update_self _ _ _

theorem data_store_of_ne (d : Disk n) {lba lba' : ℕ} (b : Block n) (h : lba' ≠ lba) :
    (d.store lba b).data lba' = d.data lba' := Function.update_of_ne h _ _

@[simp] theorem bad_store (d : Disk n) (lba : ℕ) (b : Block n) : (d.store lba b).bad = d.bad := rfl

@[simp] theorem storeAll_nil (d : Disk n) : storeAll [] d = d := rfl

@[simp] theorem storeAll_cons (w : ℕ × Block n) (ws : List (ℕ × Block n)) (d : Disk n) :
    storeAll (w :: ws) d = storeAll ws (d.store w.1 w.2) := rfl

theorem storeAll_append (ws vs : List (ℕ × Block n)) (d : Disk n) :
    storeAll (ws ++ vs) d = storeAll vs (storeAll ws d) := by
  rw [storeAll, foldl_append]
  rfl

section

variable (ws : List (ℕ × Block n))

include ws

@[simp] theorem bad_storeAll (d : Disk n) : (storeAll ws d).bad = d.bad := by
  induction ws generalizing d with
  | nil => rfl
  | cons w ws ih => rw [storeAll_cons, ih]; rfl

@[simp] theorem faults_storeAll (d : Disk n) : (storeAll ws d).faults = d.faults := by
  induction ws generalizing d with
  | nil => rfl
  | cons w ws ih => rw [storeAll_cons, ih]; rfl

/-- The contents after a list of writes do not depend on the faults. -/
theorem data_storeAll_congr {d d' : Disk n} (h : d.data = d'.data) :
    (storeAll ws d).data = (storeAll ws d').data := by
  induction ws generalizing d d' with
  | nil => exact h
  | cons w ws ih =>
    exact ih (by simp only [store, h])

/-- **A block that no write addresses keeps its contents.** -/
theorem data_storeAll_of_forall_ne (d : Disk n) {lba : ℕ}
    (h : ∀ w ∈ ws, w.1 ≠ lba) : (storeAll ws d).data lba = d.data lba := by
  induction ws generalizing d with
  | nil => rfl
  | cons w ws ih =>
    have hw : w.1 ≠ lba := h w mem_cons_self
    rw [storeAll_cons, ih _ fun v hv => h v (mem_cons_of_mem _ hv), data_store_of_ne d _ hw.symm]

end

/-- **A table of writes, read back**: the `i`-th block of a run of consecutive
blocks holds what was written there. -/
theorem data_storeAll_range (base m : ℕ) (f : ℕ → Block n) (d : Disk n) {i : ℕ} (hi : i < m) :
    (storeAll ((List.range m).map fun j => (base + j, f j)) d).data (base + i) = f i := by
  induction m with
  | zero => omega
  | succ m ih =>
    rw [range_succ, map_append, storeAll_append, map_singleton, storeAll_cons, storeAll_nil]
    rcases Nat.lt_succ_iff_lt_or_eq.mp hi with hlt | rfl
    · rw [data_store_of_ne _ _ (show base + i ≠ base + m by omega), ih hlt]
    · exact data_store_self _ _ _

/-! ### Running a list of writes -/

theorem write_reliable {d : Disk n} (h : d.Reliable) (e : ε) (lba : ℕ) (b : Block n) :
    write e lba b d = (.ok (), d.store lba b) := by
  rw [write, h]

/-- **One write**: it stores the block and succeeds, or fails and stores nothing. -/
theorem write_ends (e : ε) (lba : ℕ) (b : Block n) (d : Disk n) :
    Prog.Ends (fun _ t => t.data = (d.store lba b).data ∧ t.bad = d.bad)
      (fun _ t => t.data = d.data ∧ t.bad = d.bad) (write e lba b d) := by
  rw [write]
  rcases d.faults with _ | ⟨_ | _, fs⟩
  · exact ⟨rfl, rfl⟩
  · exact ⟨rfl, rfl⟩
  · exact ⟨rfl, rfl⟩

theorem store_reliable {d : Disk n} (h : d.Reliable) (lba : ℕ) (b : Block n) :
    (d.store lba b).Reliable := h

/-- Once the power is back, writes succeed again. -/
theorem powerUp_reliable (d : Disk n) : d.powerUp.Reliable := rfl

theorem storeAll_reliable {d : Disk n} (h : d.Reliable) (ws : List (ℕ × Block n)) :
    (storeAll ws d).Reliable := by
  rw [Reliable, faults_storeAll]
  exact h

theorem writeAll_nil (e : ε) (d : Disk n) : writeAll e [] d = (.ok (), d) := rfl

theorem writeAll_cons (e : ε) (w : ℕ × Block n) (ws : List (ℕ × Block n)) :
    writeAll e (w :: ws) = (write e w.1 w.2 >>= fun _ => writeAll e ws) := rfl

/-- Writing two lists one after the other is writing their concatenation. -/
theorem writeAll_append (e : ε) (ws vs : List (ℕ × Block n)) (d : Disk n) :
    writeAll e (ws ++ vs) d = (writeAll e ws >>= fun _ => writeAll e vs) d := by
  induction ws generalizing d with
  | nil => rfl
  | cons w ws ih =>
    rw [cons_append, writeAll_cons, writeAll_cons]
    rcases hw : write e w.1 w.2 d with ⟨_ | _, t⟩
    · rw [bind_error hw, bind_error (bind_error hw)]
    · rw [bind_ok hw, ih]
      rcases hws : writeAll e ws t with ⟨_ | _, u⟩
      · rw [bind_error hws, bind_error ((bind_ok hw).trans hws)]
      · rw [bind_ok hws, bind_ok ((bind_ok hw).trans hws)]

/-- Two writes are the writing of a list of two. -/
theorem writeAll_pair (e : ε) (w v : ℕ × Block n) :
    writeAll e [w, v] = (write e w.1 w.2 >>= fun _ => write e v.1 v.2) := by
  funext d
  rw [writeAll_cons, writeAll_cons]
  rcases hw : write e w.1 w.2 d with ⟨_ | _, t⟩
  · rw [bind_error hw, bind_error hw]
  · rw [bind_ok hw, bind_ok hw]
    rcases hv : write e v.1 v.2 t with ⟨_ | _, u⟩
    · rw [bind_error hv]
    · rw [bind_ok hv, writeAll_nil]

/-- On a reliable device every write happens. -/
theorem writeAll_reliable {d : Disk n} (h : d.Reliable) (e : ε) (ws : List (ℕ × Block n)) :
    writeAll e ws d = (.ok (), storeAll ws d) := by
  induction ws generalizing d with
  | nil => rfl
  | cons w ws ih =>
    rw [writeAll_cons, bind_ok (write_reliable h e w.1 w.2), ih (store_reliable h w.1 w.2),
      storeAll_cons]

/-- **Whatever the device does, a list of writes leaves one of its prefixes
behind**, all of it when the program returns. -/
theorem writeAll_prefix (e : ε) (ws : List (ℕ × Block n)) (d : Disk n) :
    ∃ k ≤ ws.length, (writeAll e ws d).2.data = (storeAll (ws.take k) d).data ∧
      (writeAll e ws d).2.bad = d.bad ∧ ((writeAll e ws d).1 = .ok () → k = ws.length) := by
  induction ws generalizing d with
  | nil => exact ⟨0, Nat.le_refl _, rfl, rfl, fun _ => rfl⟩
  | cons w ws ih =>
    rw [writeAll_cons]
    have key : ∀ fs, write e w.1 w.2 d = (.ok (), { d.store w.1 w.2 with faults := fs }) →
        ∃ k ≤ (w :: ws).length,
          ((write e w.1 w.2 >>= fun _ => writeAll e ws) d).2.data =
            (storeAll ((w :: ws).take k) d).data ∧
          ((write e w.1 w.2 >>= fun _ => writeAll e ws) d).2.bad = d.bad ∧
          (((write e w.1 w.2 >>= fun _ => writeAll e ws) d).1 = .ok () → k = (w :: ws).length) := by
      intro fs hw
      obtain ⟨k, hk, hdata, hbad, hok⟩ := ih { d.store w.1 w.2 with faults := fs }
      rw [bind_ok hw]
      refine ⟨k + 1, by rw [length_cons]; omega, ?_, hbad, fun h => ?_⟩
      · rw [hdata, take_succ_cons, storeAll_cons]
        exact data_storeAll_congr _ rfl
      · rw [hok h, length_cons]
    cases hf : d.faults with
    | nil => exact key [] (by rw [write, hf]; simp [store, hf])
    | cons b fs =>
      cases b with
      | false => exact key fs (by rw [write, hf])
      | true =>
        have hw : write e w.1 w.2 d = (.error e, { d with faults := fs }) := by rw [write, hf]
        rw [bind_error hw]
        exact ⟨0, Nat.zero_le _, rfl, rfl, fun h => by simp at h⟩

/-- **A list of writes and a power cut**: the first `k` writes are on the disk. -/
theorem writeAll_cutAfter (e : ε) (ws : List (ℕ × Block n)) (d : Disk n) (k : ℕ) :
    (writeAll e ws (d.cutAfter k)).2.powerUp = (storeAll (ws.take k) d).powerUp := by
  induction ws generalizing d k with
  | nil => rw [writeAll_nil, take_nil]; rfl
  | cons w ws ih =>
    rw [writeAll_cons]
    cases k with
    | zero =>
      have hw : write e w.1 w.2 (d.cutAfter 0) = (.error e, d.powerUp) := rfl
      rw [bind_error hw]
      rfl
    | succ k =>
      have hw : write e w.1 w.2 (d.cutAfter (k + 1)) = (.ok (), (d.store w.1 w.2).cutAfter k) := rfl
      rw [bind_ok hw, ih, take_succ_cons, storeAll_cons]

end Disk

end SysLib
