import DunitOS.SysLib.Bytes
import Mathlib.Data.List.Pairwise

/-!
# Records of fixed fields

A record is a byte string into which words are written one after the other, each at an
offset of its own. When the fields of the record do not meet, each one reads back what
was written to it, whatever order the others were written in
(`getLe_putFields`), and a window that meets none of them keeps its contents
(`slice_putFields`). Whether fields meet depends on their offsets and widths
only, so for a given record it is a closed fact about its layout
(`Separate`).
-/

namespace SysLib

open List

/-- A field with its value: the offset, the width in bytes, and the value. -/
structure Field where
  off : ℕ
  width : ℕ
  val : ℕ

/-- Where a field lies. -/
def Field.place (f : Field) : ℕ × ℕ := (f.off, f.width)

/-- Write fields, in order. -/
def putFields (data : List UInt8) (fs : List Field) : List UInt8 :=
  fs.foldl (fun d f => putLe d f.off f.width f.val) data

/-- The places lie inside `size` bytes, apart from each other. -/
def Separate (size : ℕ) (places : List (ℕ × ℕ)) : Prop :=
  (∀ p ∈ places, p.1 + p.2 ≤ size) ∧
    places.Pairwise fun p q => p.1 + p.2 ≤ q.1 ∨ q.1 + q.2 ≤ p.1

instance (size : ℕ) (places : List (ℕ × ℕ)) : Decidable (Separate size places) := by
  unfold Separate
  infer_instance

theorem Separate.tail {size : ℕ} {p : ℕ × ℕ} {places : List (ℕ × ℕ)}
    (h : Separate size (p :: places)) : Separate size places :=
  ⟨fun q hq => h.1 q (mem_cons_of_mem _ hq), (pairwise_cons.mp h.2).2⟩

section

variable {fs : List Field} {data : List UInt8}

theorem inside_putLe {f : Field} (h : ∀ f' ∈ f :: fs, f'.off + f'.width ≤ data.length) :
    ∀ f' ∈ fs, f'.off + f'.width ≤ (putLe data f.off f.width f.val).length := by
  intro f' hf'
  rw [length_putLe data f.val (h f mem_cons_self)]
  exact h f' (mem_cons_of_mem _ hf')

theorem length_putFields (h : ∀ f ∈ fs, f.off + f.width ≤ data.length) :
    (putFields data fs).length = data.length := by
  induction fs generalizing data with
  | nil => rfl
  | cons f fs ih => exact (ih (inside_putLe h)).trans (length_putLe data f.val (h f mem_cons_self))

/-- **A window that meets no field** is not changed by writing them. -/
theorem slice_putFields {off len : ℕ} (h : ∀ f ∈ fs, f.off + f.width ≤ data.length)
    (hd : ∀ f ∈ fs, off + len ≤ f.off ∨ f.off + f.width ≤ off) :
    slice (putFields data fs) off len = slice data off len := by
  induction fs generalizing data with
  | nil => rfl
  | cons f fs ih =>
    calc slice (putFields data (f :: fs)) off len
        = slice (putLe data f.off f.width f.val) off len :=
          ih (inside_putLe h) fun f' hf' => hd f' (mem_cons_of_mem _ hf')
      _ = slice data off len :=
          slice_putLe_of_disjoint data f.val (h f mem_cons_self) (hd f mem_cons_self)

/-- **Every field of a record reads back**, modulo its width. -/
theorem getLe_putFields (h : Separate data.length (fs.map Field.place)) {f : Field}
    (hf : f ∈ fs) : getLe (putFields data fs) f.off f.width = f.val % 256 ^ f.width := by
  induction fs generalizing data with
  | nil => cases hf
  | cons f0 fs ih =>
    have hin : f0.off + f0.width ≤ data.length := h.1 f0.place (by simp)
    have hlen := length_putLe data f0.val hin
    have htail : Separate (putLe data f0.off f0.width f0.val).length (fs.map Field.place) := by
      rw [hlen]
      exact h.tail
    rcases mem_cons.mp hf with rfl | hf
    · -- the later fields do not meet the first one
      have hsep := (pairwise_cons.mp h.2).1
      have hframe : slice (putFields (putLe data f.off f.width f.val) fs) f.off f.width =
          slice (putLe data f.off f.width f.val) f.off f.width :=
        slice_putFields (fun f' hf' => htail.1 f'.place (mem_map_of_mem hf'))
          fun f' hf' => hsep f'.place (mem_map_of_mem hf')
      exact (congrArg ofLe hframe).trans (getLe_putLe data f.val hin)
    · exact ih htail hf

end

end SysLib
