import Mathlib.Data.List.Basic
import Mathlib.Data.Nat.Bitwise
import Mathlib.Tactic.IntervalCases

/-!
# Sets of numbers as bit arrays

An allocation bitmap stores a set of numbers as bits of a byte string, the low bit
of each byte first. `bitGet` reads a bit, `bitSet` and
`bitClear` write one, and the two range operations write a run of them. A
number past the end of the string is not in the set and cannot be put there, which
is why the facts about setting a bit ask for it to be in range and those about
clearing one do not.
-/

namespace SysLib

open List UInt8

/-- Whether the bit of `i` is set. -/
def bitGet (bs : List UInt8) (i : ℕ) : Bool :=
  match bs[i / 8]? with
  | none => false
  | some b => (b >>> UInt8.ofNat (i % 8)) &&& 1 == 1

/-- Set the bit of `i`; nothing happens past the end. -/
def bitSet (bs : List UInt8) (i : ℕ) : List UInt8 :=
  bs.modify (i / 8) fun b => b ||| (1 <<< UInt8.ofNat (i % 8))

/-- Clear the bit of `i`; nothing happens past the end. -/
def bitClear (bs : List UInt8) (i : ℕ) : List UInt8 :=
  bs.modify (i / 8) fun b => b &&& ~~~(1 <<< UInt8.ofNat (i % 8))

/-- Set the bits of `len` numbers from `start` on. -/
def markUsed (bs : List UInt8) (start len : ℕ) : List UInt8 :=
  (List.range' start len).foldl bitSet bs

/-- Clear the bits of `len` numbers from `start` on. -/
def markFree (bs : List UInt8) (start len : ℕ) : List UInt8 :=
  (List.range' start len).foldl bitClear bs

/-! ### One byte -/

variable (b : UInt8)

/-- Reading a bit of a byte, in the arithmetic of the numbers. -/
theorem byte_bitGet {k : ℕ} (hk : k < 8) :
    ((b >>> UInt8.ofNat k) &&& 1 == 1) = b.toNat.testBit k := by
  have hkn : (ofNat k).toNat = k := toNat_ofNat_of_lt' (by
    have : size = 256 := rfl
    omega)
  have h : ((b >>> ofNat k) &&& 1).toNat = b.toNat >>> k % 2 := by
    rw [UInt8.toNat_and, UInt8.toNat_shiftRight, hkn, Nat.mod_eq_of_lt hk]
    exact Nat.and_one_is_mod _
  rw [Nat.testBit_eq_decide_div_mod_eq, ← Nat.shiftRight_eq_div_pow, Bool.eq_iff_iff,
    decide_eq_true_eq, beq_iff_eq, ← h, ← UInt8.toNat_inj]
  rfl

theorem toNat_mask {k : ℕ} (hk : k < 8) : ((1 : UInt8) <<< ofNat k).toNat = 2 ^ k := by
  interval_cases k <;> rfl

theorem testBit_or_mask {k j : ℕ} (hk : k < 8) :
    (b ||| (1 <<< UInt8.ofNat k)).toNat.testBit j = (b.toNat.testBit j || decide (k = j)) := by
  rw [UInt8.toNat_or, Nat.testBit_or, toNat_mask hk, Nat.testBit_two_pow]

theorem testBit_and_not_mask {k j : ℕ} (hk : k < 8) (hj : j < 8) :
    (b &&& ~~~(1 <<< UInt8.ofNat k)).toNat.testBit j = (b.toNat.testBit j && !decide (k = j)) := by
  rw [UInt8.toNat_and, Nat.testBit_and]
  refine congrArg (b.toNat.testBit j && ·) ?_
  interval_cases k <;> interval_cases j <;> rfl

/-- Whether a bit is set, read with its mask. -/
theorem and_mask_eq_zero {k : ℕ} (hk : k < 8) :
    b &&& (1 <<< UInt8.ofNat k) = 0 ↔ b.toNat.testBit k = false := by
  rw [← UInt8.toNat_inj, UInt8.toNat_and, toNat_mask hk, Nat.and_two_pow]
  cases b.toNat.testBit k with
  | false | true => simp

/-! ### Reading after writing -/

variable (bs : List UInt8)

@[simp] theorem length_bitSet (i : ℕ) : (bitSet bs i).length = bs.length := by
  simp [bitSet]

@[simp] theorem length_bitClear (i : ℕ) : (bitClear bs i).length = bs.length := by
  simp [bitClear]

theorem bitGet_eq_testBit (i : ℕ) :
    bitGet bs i = ((bs[i / 8]?).map fun b => b.toNat.testBit (i % 8)).getD false := by
  rw [bitGet]
  cases h : bs[i / 8]? with
  | none => rfl
  | some b => exact byte_bitGet b (Nat.mod_lt _ (by omega))

/-- A bit of a byte in the middle of the string. -/
theorem bitGet_of_getElem? {bs : List UInt8} {n k : ℕ} {b : UInt8} (h : bs[n]? = some b)
    (hk : k < 8) : bitGet bs (n * 8 + k) = b.toNat.testBit k := by
  have hn : (n * 8 + k) / 8 = n := by omega
  have hmod : (n * 8 + k) % 8 = k := by omega
  rw [bitGet_eq_testBit, hn, hmod, h]
  rfl

theorem bitGet_replicate {n i : ℕ} (h : i < 8 * n) : bitGet (List.replicate n 0xff) i = true := by
  have hbyte : ∀ k < 8, (0xff : UInt8).toNat.testBit k = true := by decide
  rw [bitGet_eq_testBit, getElem?_replicate, if_pos (by omega)]
  exact hbyte _ (Nat.mod_lt _ (by omega))

/-- **A bit after setting another one.** -/
theorem bitGet_bitSet {bs : List UInt8} {i : ℕ} (hi : i / 8 < bs.length) (j : ℕ) :
    bitGet (bitSet bs i) j = (bitGet bs j || decide (i = j)) := by
  rw [bitGet_eq_testBit, bitGet_eq_testBit, bitSet, List.getElem?_modify]
  by_cases hb : i / 8 = j / 8
  · obtain ⟨b, hget⟩ : ∃ b, bs[j / 8]? = some b := ⟨_, List.getElem?_eq_getElem (hb ▸ hi)⟩
    have hij : decide (i % 8 = j % 8) = decide (i = j) := by
      rw [decide_eq_decide]
      omega
    simp only [hb, if_true, hget, Option.map_eq_map, Option.map_some, Option.getD_some]
    rw [testBit_or_mask b (Nat.mod_lt _ (by omega)), hij]
  · have hne : decide (i = j) = false := decide_eq_false fun h => hb (by rw [h])
    simp [hb, hne]

/-- **A bit after clearing another one.** -/
theorem bitGet_bitClear (i j : ℕ) :
    bitGet (bitClear bs i) j = (bitGet bs j && !decide (i = j)) := by
  rw [bitGet_eq_testBit, bitGet_eq_testBit, bitClear, List.getElem?_modify]
  by_cases hb : i / 8 = j / 8
  · have hij : decide (i % 8 = j % 8) = decide (i = j) := by
      rw [decide_eq_decide]
      omega
    cases hget : bs[j / 8]? with
    | none => simp
    | some b =>
      simp only [hb, if_true, Option.map_eq_map, Option.map_some, Option.getD_some]
      rw [testBit_and_not_mask b (Nat.mod_lt _ (by omega)) (Nat.mod_lt _ (by omega)), hij]
  · have hne : decide (i = j) = false := decide_eq_false fun h => hb (by rw [h])
    simp [hb, hne]

/-! ### Runs of bits -/

@[simp] theorem length_markUsed (start len : ℕ) : (markUsed bs start len).length = bs.length := by
  rw [markUsed]
  induction range' start len generalizing bs with
  | nil => rfl
  | cons i is ih => rw [foldl_cons, ih, length_bitSet]

@[simp] theorem length_markFree (start len : ℕ) : (markFree bs start len).length = bs.length := by
  rw [markFree]
  induction range' start len generalizing bs with
  | nil => rfl
  | cons i is ih => rw [foldl_cons, ih, length_bitClear]

/-- **A bit after setting a run**: it is in the run, or it was set before. -/
theorem bitGet_markUsed {bs : List UInt8} {start len : ℕ} (h : start + len ≤ 8 * bs.length)
    (j : ℕ) :
    bitGet (markUsed bs start len) j = true ↔
      bitGet bs j = true ∨ (start ≤ j ∧ j < start + len) := by
  induction len generalizing bs start with
  | zero => simp [markUsed]
  | succ len ih =>
    rw [markUsed, range'_succ, foldl_cons]
    have hlt : start / 8 < bs.length := by omega
    have hfit : start + 1 + len ≤ 8 * (bitSet bs start).length := by
      rw [length_bitSet]
      omega
    have hrec := ih hfit
    rw [markUsed] at hrec
    rw [hrec, bitGet_bitSet hlt, Bool.or_eq_true, decide_eq_true_eq]
    constructor
    · rintro ((h' | rfl) | h')
      · exact .inl h'
      · exact .inr ⟨le_refl _, by omega⟩
      · exact .inr ⟨by omega, by omega⟩
    · rintro (h' | h')
      · exact .inl (.inl h')
      · rcases Nat.eq_or_lt_of_le h'.1 with he | hl
        · exact .inl (.inr he)
        · exact .inr ⟨by omega, by omega⟩

/-- **A bit after clearing a run**: it was set before, and it is not in the run. -/
theorem bitGet_markFree (start len j : ℕ) : bitGet (markFree bs start len) j = true ↔
      bitGet bs j = true ∧ ¬(start ≤ j ∧ j < start + len) := by
  induction len generalizing bs start with
  | zero =>
    simp only [markFree, range'_zero, foldl_nil]
    exact ⟨fun h => ⟨h, by omega⟩, fun h => h.1⟩
  | succ len ih =>
    rw [markFree, range'_succ, foldl_cons]
    have hrec := ih (bitClear bs start) (start + 1)
    rw [markFree] at hrec
    rw [hrec, bitGet_bitClear, Bool.and_eq_true, Bool.not_eq_true', decide_eq_false_iff_not]
    constructor
    · rintro ⟨⟨h1, h2⟩, h3⟩
      exact ⟨h1, by omega⟩
    · rintro ⟨h1, h2⟩
      exact ⟨⟨h1, by omega⟩, by omega⟩

/-! ### Masks of a word -/

theorem land_lor (a b c : UInt64) : a &&& (b ||| c) = (a &&& b) ||| (a &&& c) := by
  refine UInt64.eq_of_toBitVec_eq (BitVec.eq_of_getLsbD_eq fun i _ => ?_)
  simp [Bool.and_or_distrib_left]

theorem lor_land (a b c : UInt64) : (a ||| b) &&& c = (a &&& c) ||| (b &&& c) := by
  rw [UInt64.and_comm, land_lor, UInt64.and_comm c, UInt64.and_comm c]

theorem lor_land_self (a b : UInt64) : (a ||| b) &&& b = b ∧ b ||| (a &&& b) = b := by
  constructor <;> refine UInt64.eq_of_toBitVec_eq (BitVec.eq_of_getLsbD_eq fun i _ => ?_) <;>
    simp only [UInt64.toBitVec_and, UInt64.toBitVec_or, BitVec.getLsbD_and, BitVec.getLsbD_or] <;>
    cases b.toBitVec.getLsbD i <;> simp

/-- What lies in one mask has nothing in a mask that is disjoint from it. -/
theorem and_eq_zero_of_mask {a m n : UInt64} (h : a &&& m = a) (hmn : m &&& n = 0) :
    a &&& n = 0 := by
  rw [← h, UInt64.and_assoc, hmn, UInt64.and_zero]

/-- **Two fields of a word**: each is found again under its own mask. -/
theorem or_and_mask {a b m : UInt64} (ha : a &&& m = a) (hb : b &&& m = 0) :
    (a ||| b) &&& m = a := by
  rw [lor_land, ha, hb, UInt64.or_zero]

end SysLib
