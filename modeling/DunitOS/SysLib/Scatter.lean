import DunitOS.SysLib.Bytes
import DunitOS.SysLib.Disk
import Mathlib.Data.List.Nodup

/-!
# Strings spread over the blocks of a device

A file that lies in blocks `b0, b1, …` of a device is the string
`SysLib.Disk.gather d [b0, b1, …]` cut to its size. Position `pos` of the string is byte
`pos % n` of block `pos / n`, so a program that walks through the string a block at a time
reads windows of the string (`slice_gather`), and what it writes into a block is
written into the string (`gather_store`), as long as no block occurs twice.
-/

namespace SysLib.Disk

open List Option Nat

variable {n : ℕ} {d : Disk n} {bs : List ℕ}

/-- The string in a list of blocks. -/
def gather (d : Disk n) (bs : List ℕ) : List UInt8 := bs.flatMap fun b => (d.data b).bytes

theorem length_gather (d : Disk n) (bs : List ℕ) : (gather d bs).length = n * bs.length := by
  induction bs with
  | nil => rfl
  | cons b bs ih =>
    rw [gather, flatMap_cons, length_append, (d.data b).length_bytes, length_cons,
      mul_succ, add_comm]
    exact congrArg (· + n) ih

theorem gather_append (d : Disk n) (bs cs : List ℕ) :
    gather d (bs ++ cs) = gather d bs ++ gather d cs := flatMap_append

/-- The string depends only on its own blocks. -/
theorem gather_congr {d d' : Disk n} (h : ∀ b ∈ bs, d'.data b = d.data b) :
    gather d' bs = gather d bs :=
  flatMap_congr fun b hb => congrArg Block.bytes (h b hb)

/-- **A byte of the string** is a byte of one block. -/
theorem getElem?_gather (hn : 0 < n) (pos : ℕ) :
    (gather d bs)[pos]? = bs[pos / n]?.bind fun b => (d.data b).bytes[pos % n]? := by
  induction bs generalizing pos with
  | nil => rfl
  | cons b bs ih =>
    have hlen := (d.data b).length_bytes
    rw [gather, flatMap_cons, getElem?_append, hlen]
    split_ifs with hlt
    · rw [div_eq_of_lt hlt, mod_eq_of_lt hlt]
      rfl
    · obtain ⟨k, rfl⟩ := Nat.exists_eq_add_of_le (Nat.not_lt.mp hlt)
      rw [Nat.add_sub_cancel_left, Nat.add_div_left k hn, Nat.add_mod_left]
      exact ih k

/-- Positions that share a block. -/
theorem div_mod_add {pos j : ℕ} (hj : pos % n + j < n) :
    (pos + j) / n = pos / n ∧ (pos + j) % n = pos % n + j := by
  have hsum : pos + j = pos / n * n + (pos % n + j) := by
    have := div_add_mod' pos n
    omega
  constructor
  · rw [hsum, add_comm, add_mul_div_right _ _ (by omega), div_eq_of_lt hj, zero_add]
  · rw [hsum, add_comm, add_mul_mod_self_right, mod_eq_of_lt hj]

/-- **Reading from one block.** -/
theorem slice_gather {pos count b : ℕ} (hb : bs[pos / n]? = some b) (hc : pos % n + count ≤ n)
    (hn : 0 < n) :
    slice (gather d bs) pos count = slice (d.data b).bytes (pos % n) count := by
  refine List.ext_getElem? fun j => ?_
  rw [getElem?_slice, getElem?_slice]
  by_cases hj : j < count
  · obtain ⟨hdiv, hmod⟩ := div_mod_add (show pos % n + j < n by omega)
    rw [if_pos hj, if_pos hj, getElem?_gather hn, hdiv, hmod, hb]
    rfl
  · rw [if_neg hj, if_neg hj]

/-- **Writing into one block.** -/
theorem gather_store (hnodup : bs.Nodup) {pos b : ℕ} {src : List UInt8}
    (hb : bs[pos / n]? = some b) (hc : pos % n + src.length ≤ n) (hn : 0 < n) :
    gather (d.store b (Block.ofBytes n (splice (d.data b).bytes (pos % n) src))) bs =
      splice (gather d bs) pos src := by
  have hlt := (List.getElem?_eq_some_iff.mp hb).1
  have hblock : pos % n + src.length ≤ (d.data b).bytes.length := by rwa [(d.data b).length_bytes]
  have hend : pos + src.length ≤ (gather d bs).length := by
    have hmul : n * (pos / n + 1) ≤ n * bs.length := mul_le_mul_left n hlt
    have := div_add_mod pos n
    rw [length_gather]
    rw [mul_succ] at hmul
    omega
  refine List.ext_getElem? fun q => ?_
  rw [getElem?_splice _ _ hend, getElem?_gather hn, getElem?_gather hn]
  rcases hq : bs[q / n]? with _ | b'
  · -- past the last block
    rw [if_neg, bind_none, bind_none]
    rintro ⟨h1, h2⟩
    rw [List.getElem?_eq_none_iff] at hq
    rw [length_gather] at hend
    have := (le_div_iff_mul_le hn).mp hq
    rw [mul_comm] at this
    omega
  rw [bind_some, bind_some]
  by_cases hk : q / n = pos / n
  · -- in the block that is written
    rw [hk, hb] at hq
    obtain rfl := some.inj hq
    have hsplice := (length_splice _ _ hblock).trans (d.data b).length_bytes
    rw [data_store_self, Block.bytes_ofBytes hsplice, getElem?_splice _ _ hblock]
    have hq' := div_add_mod q n
    have hp' := div_add_mod pos n
    rw [hk] at hq'
    have hiff : (pos % n ≤ q % n ∧ q % n < pos % n + src.length) ↔
        (pos ≤ q ∧ q < pos + src.length) := by omega
    by_cases hin : pos ≤ q ∧ q < pos + src.length
    · rw [if_pos hin, if_pos (hiff.mpr hin)]
      exact congrArg (src[·]?) (by omega)
    · rw [if_neg hin, if_neg fun hc => hin (hiff.mp hc)]
  · -- in another block
    have hne : b' ≠ b := by
      rintro rfl
      obtain ⟨hq1, hq2⟩ := List.getElem?_eq_some_iff.mp hq
      obtain ⟨hb1, hb2⟩ := List.getElem?_eq_some_iff.mp hb
      exact hk (hnodup.getElem_inj_iff.mp (hq2.trans hb2.symm))
    rw [data_store_of_ne _ _ hne, if_neg]
    rintro ⟨h1, h2⟩
    obtain ⟨j, rfl⟩ := Nat.exists_eq_add_of_le h1
    exact hk (div_mod_add (by omega)).1

end SysLib.Disk
