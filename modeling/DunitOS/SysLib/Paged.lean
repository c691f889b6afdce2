import DunitOS.SysLib.Bytes
import Mathlib.Data.List.GetD

/-!
# Memory behind pages

A memory whose addresses are translated page by page: a page is mapped to a frame, and no two pages
to the same one. A string is written in chunks that end with their pages (`Paged.write`), as
a kernel writes to the memory of a process through its own mapping of the frames. The chunks do not
show in the result (`Paged.load_write`), so that what a memory holds can be stated and
combined without them (`Paged.Holds`).
-/

namespace SysLib

open List Option

/-- A memory of pages of `n` bytes: the frame of each page that is mapped, and the bytes of the
frames. -/
structure Paged (n : ℕ) where
  frame : ℕ → Option ℕ
  bytes : ℕ → ℕ → UInt8
  frame_inj : ∀ {p q f : ℕ}, frame p = some f → frame q = some f → p = q

namespace Paged

variable {n : ℕ}
variable {m : Paged n} {addr : ℕ} {s t : List UInt8}

/-- The byte at an address. -/
def load (m : Paged n) (a : ℕ) : Option UInt8 :=
  (m.frame (a / n)).map fun f => m.bytes f (a % n)

/-- Copy a string to an offset of a frame. -/
def copy (m : Paged n) (f off : ℕ) (src : List UInt8) : Paged n :=
  { m with
    bytes := fun g o =>
      if g = f ∧ off ≤ o ∧ o < off + src.length then src.getD (o - off) 0 else m.bytes g o }

/-- Write a string from some position on, in chunks. The result says whether all pages were
mapped; what was written before one that is not stays. -/
def writeLoop (addr : ℕ) (src : List UInt8) : ℕ → ℕ → Paged n → Bool × Paged n
  | 0, _, m => (true, m)
  | fuel + 1, done, m =>
    if src.length ≤ done then (true, m)
    else
      let a := addr + done
      let count := min (n - a % n) (src.length - done)
      match m.frame (a / n) with
      | none => (false, m)
      | some f => writeLoop addr src fuel (done + count) (m.copy f (a % n) (slice src done count))

/-- Write a string. -/
def write (m : Paged n) (addr : ℕ) (src : List UInt8) : Bool × Paged n :=
  writeLoop addr src src.length 0 m

/-- Every address of a range is mapped. -/
def Mapped (m : Paged n) (lo hi : ℕ) : Prop := ∀ a, lo ≤ a → a < hi → (m.frame (a / n)).isSome

theorem Mapped.mono {lo hi lo' hi' : ℕ} (h : m.Mapped lo hi) (hlo : lo ≤ lo')
    (hhi : hi' ≤ hi) : m.Mapped lo' hi' := fun a h1 h2 => h a (by omega) (by omega)

/-- The addresses of a chunk are those of its page at its offsets. -/
theorem mem_chunk_iff {a b count : ℕ} (hfit : b % n + count ≤ n) :
    a / n = b / n ∧ b % n ≤ a % n ∧ a % n < b % n + count ↔ b ≤ a ∧ a < b + count := by
  have ha := Nat.div_add_mod a n
  have hb := Nat.div_add_mod b n
  constructor
  · rintro ⟨hpage, hlo, hhi⟩
    rw [hpage] at ha
    omega
  · rintro ⟨hlo, hhi⟩
    have hpage : a / n = b / n := by
      refine Nat.div_eq_of_lt_le ?_ ?_
      · rw [Nat.mul_comm]
        omega
      · rw [Nat.succ_mul, Nat.mul_comm]
        omega
    rw [hpage] at ha
    exact ⟨hpage, by omega, by omega⟩

theorem load_copy {b f : ℕ} (hf : m.frame (b / n) = some f) {src : List UInt8}
    (hfit : b % n + src.length ≤ n) (a : ℕ) : (m.copy f (b % n) src).load a =
      if b ≤ a ∧ a < b + src.length then src[a - b]? else m.load a := by
  have hframe : (m.copy f (b % n) src).frame = m.frame := rfl
  have hchunk := mem_chunk_iff (a := a) hfit
  by_cases hin : b ≤ a ∧ a < b + src.length
  · obtain ⟨hpage, hlo, hhi⟩ := hchunk.mpr hin
    have hoff : a % n - b % n = a - b := by
      have ha := Nat.div_add_mod a n
      have hb := Nat.div_add_mod b n
      rw [hpage] at ha
      omega
    rw [if_pos hin, load, hframe, hpage, hf, map_some]
    show some (if f = f ∧ b % n ≤ a % n ∧ a % n < b % n + src.length then _ else _) = _
    have hlt : a - b < src.length := by omega
    rw [if_pos ⟨rfl, hlo, hhi⟩, hoff, getD_eq_getElem _ _ hlt, getElem?_eq_getElem hlt]
  · rw [if_neg hin, load, load, hframe]
    rcases hg : m.frame (a / n) with _ | g
    · rfl
    · -- the address is in another frame, or at another offset
      show some (if g = f ∧ b % n ≤ a % n ∧ a % n < b % n + src.length then _ else _) = _
      rw [if_neg]
      · rfl
      · rintro ⟨rfl, hlo, hhi⟩
        exact hin (hchunk.mp ⟨m.frame_inj hg hf, hlo, hhi⟩)

theorem writeLoop_spec (hn : 0 < n) {addr : ℕ} {src : List UInt8} {fuel done : ℕ} {m : Paged n}
    (hfuel : src.length ≤ done + fuel) (hmap : m.Mapped addr (addr + src.length)) :
    (writeLoop addr src fuel done m).1 = true ∧
      (writeLoop addr src fuel done m).2.frame = m.frame ∧
      ∀ a, (writeLoop addr src fuel done m).2.load a =
        if addr + done ≤ a ∧ a < addr + src.length then src[a - addr]? else m.load a := by
  induction fuel generalizing done m with
  | zero =>
    refine ⟨rfl, rfl, fun a => ?_⟩
    rw [if_neg (by omega)]
    rfl
  | succ fuel ih =>
    rw [writeLoop]
    by_cases hdone : src.length ≤ done
    · rw [if_pos hdone]
      refine ⟨rfl, rfl, fun a => ?_⟩
      rw [if_neg (by omega)]
    rw [if_neg hdone]
    obtain ⟨f, hf⟩ := isSome_iff_exists.mp (hmap (addr + done) (by omega) (by omega))
    have hmod := Nat.mod_lt (addr + done) hn
    simp only [hf]
    generalize hcount : min (n - (addr + done) % n) (src.length - done) = count
    have hlen : (slice src done count).length = count := length_slice _ (by omega)
    have hfit : (addr + done) % n + (slice src done count).length ≤ n := by omega
    have hstep := load_copy hf hfit
    obtain ⟨h1, h2, h3⟩ := @ih (done + count)
      (m.copy f ((addr + done) % n) (slice src done count)) (by omega) hmap
    refine ⟨h1, h2, fun a => ?_⟩
    rw [h3, hstep, hlen]
    -- this chunk, or one of those that follow, or neither
    by_cases hlater : addr + (done + count) ≤ a ∧ a < addr + src.length
    · rw [if_pos hlater, if_pos (by omega)]
    · rw [if_neg hlater]
      by_cases hnow : addr + done ≤ a ∧ a < addr + done + count
      · rw [if_pos hnow, if_pos (by omega), getElem?_slice, if_pos (by omega)]
        exact congrArg (src[·]?) (by omega)
      · rw [if_neg hnow, if_neg (by omega)]

/-- **Writing a string** to memory that is mapped: the string is there, and everything else is what
it was. -/
theorem load_write (hn : 0 < n) {addr : ℕ} {src : List UInt8} {m : Paged n}
    (hmap : m.Mapped addr (addr + src.length)) : (m.write addr src).1 = true ∧
      (m.write addr src).2.frame = m.frame ∧ ∀ a, (m.write addr src).2.load a =
        if addr ≤ a ∧ a < addr + src.length then src[a - addr]? else m.load a :=
  writeLoop_spec hn (Nat.zero_add _).ge hmap

/-! ### What a memory holds -/

/-- **The memory holds a string** at an address. -/
def Holds (m : Paged n) (addr : ℕ) (src : List UInt8) : Prop :=
  ∀ i < src.length, m.load (addr + i) = src[i]?

theorem holds_nil (m : Paged n) (addr : ℕ) : m.Holds addr [] := fun i hi => absurd hi (by simp)

theorem Holds.append (hs : m.Holds addr s)
    (ht : m.Holds (addr + s.length) t) : m.Holds addr (s ++ t) := by
  intro i hi
  rw [getElem?_append]
  by_cases his : i < s.length
  · rw [if_pos his, hs i his]
  · rw [length_append] at hi
    rw [if_neg his, ← ht (i - s.length) (by omega)]
    exact congrArg m.load (by omega)

theorem Holds.left (h : m.Holds addr (s ++ t)) : m.Holds addr s := by
  intro i hi
  rw [h i (by rw [length_append]; omega), getElem?_append_left hi]

theorem Holds.right (h : m.Holds addr (s ++ t)) : m.Holds (addr + s.length) t := by
  intro i hi
  rw [Nat.add_assoc, h _ (by rw [length_append]; omega),
    getElem?_append_right (Nat.le_add_right _ _), Nat.add_sub_cancel_left]

/-! ### Reading -/

/-- Read some bytes. -/
def read (m : Paged n) : ℕ → ℕ → Option (List UInt8)
  | _, 0 => some []
  | addr, count + 1 => do
    let b ← m.load addr
    let bs ← read m (addr + 1) count
    some (b :: bs)

/-- Read the string up to its terminator, of at most some length. -/
def readString (m : Paged n) : ℕ → ℕ → Option (List UInt8)
  | _, 0 => none
  | addr, fuel + 1 => do
    let b ← m.load addr
    if b = 0 then some []
    else
      let bs ← readString m (addr + 1) fuel
      some (b :: bs)

theorem Holds.cons {b : UInt8}
    (h : m.Holds addr (b :: s)) : m.load addr = some b ∧ m.Holds (addr + 1) s :=
  ⟨h 0 (Nat.zero_lt_succ _), Holds.right (s := [b]) h⟩

theorem Holds.read (h : m.Holds addr s) : m.read addr s.length = some s := by
  induction s generalizing addr with
  | nil => rfl
  | cons b s ih =>
    obtain ⟨hb, hs⟩ := h.cons
    rw [length_cons, Paged.read, hb, ih hs]
    rfl

/-- **A string with its terminator** is read back. -/
theorem Holds.readString {fuel : ℕ}
    (h : m.Holds addr (s ++ [0])) (hzero : 0 ∉ s) (hfuel : s.length < fuel) :
    m.readString addr fuel = some s := by
  induction s generalizing addr fuel with
  | nil =>
    obtain ⟨fuel, rfl⟩ := Nat.exists_eq_add_of_lt hfuel
    rw [Paged.readString, (Holds.cons h).1]
    rfl
  | cons b s ih =>
    obtain ⟨fuel, rfl⟩ := Nat.exists_eq_add_of_lt hfuel
    obtain ⟨hb, hs⟩ := Holds.cons h
    obtain ⟨hne, hzero⟩ := not_or.mp (mt mem_cons.mpr hzero)
    have hrest : m.readString (addr + 1) ((b :: s).length + fuel) = some s :=
      ih hs hzero (by rw [length_cons]; omega)
    rw [Paged.readString, hb, bind_eq_bind, bind_some, if_neg (Ne.symm hne), hrest]
    rfl

section

variable {addr : ℕ} {src : List UInt8} {m : Paged n} (hn : 0 < n)
  (hmap : m.Mapped addr (addr + src.length))
include hn hmap

theorem holds_write : (m.write addr src).2.Holds addr src := by
  intro i hi
  rw [(load_write hn hmap).2.2, if_pos (by omega), Nat.add_sub_cancel_left]

/-- **A string apart from what is written stays.** -/
theorem Holds.write {a : ℕ} {s : List UInt8} (h : m.Holds a s)
    (hd : a + s.length ≤ addr ∨ addr + src.length ≤ a) : (m.write addr src).2.Holds a s := by
  intro i hi
  rw [(load_write hn hmap).2.2, if_neg (by omega)]
  exact h i hi

end

end Paged

end SysLib
