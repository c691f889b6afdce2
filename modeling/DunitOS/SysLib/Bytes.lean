import Mathlib.Data.List.Basic
import Mathlib.Tactic.Ring

/-!
# Byte strings and fixed-width fields

The vocabulary of an on-disk or on-wire format: windows of a byte string
(`slice`), overwriting a window (`splice`), little-endian words of a
given width (`leBytes`, `ofLe`) and the two accessors built from
them, `getLe` and `putLe`. A record written field by field is read
back field by field with two facts: a field reads the value put there, modulo its
width (`getLe_putLe`), and a write outside a window leaves it alone
(`slice_splice_of_disjoint`).

The last part is about *tables*: a byte string that is the concatenation of
equally long records. `slice_flatMap_range` finds a record in its table, and
`flatMap_slice_range` says that a string cut into records is the
concatenation of the pieces.
-/

namespace SysLib

open List Nat

/-! ### Windows -/

variable {len off off' : ℕ}

section

variable {α : Type}

/-- The window of `len` entries of `data` that starts at `off`. -/
def slice (data : List α) (off len : ℕ) : List α := (data.drop off).take len

/-- `data` with the window that starts at `off` overwritten by `src`. -/
def splice (data : List α) (off : ℕ) (src : List α) : List α :=
  data.take off ++ (src ++ data.drop (off + src.length))

theorem length_slice (data : List α) (h : off + len ≤ data.length) :
    (slice data off len).length = len := by
  simp only [slice, length_take, length_drop]
  omega

theorem length_splice (data src : List α) (h : off + src.length ≤ data.length) :
    (splice data off src).length = data.length := by
  simp only [splice, length_append, length_take, length_drop]
  omega

theorem getElem?_slice (data : List α) (off len i : ℕ) :
    (slice data off len)[i]? = if i < len then data[off + i]? else none := by
  simp only [slice, getElem?_take, getElem?_drop]

/-- **A spliced string, entry by entry**: the new entries inside the window, the
old ones outside it. -/
theorem getElem?_splice (data src : List α) (h : off + src.length ≤ data.length)
    (i : ℕ) : (splice data off src)[i]? =
      if off ≤ i ∧ i < off + src.length then src[i - off]? else data[i]? := by
  have hoff : (data.take off).length = off := by
    rw [length_take]
    omega
  rw [splice, getElem?_append, getElem?_append, hoff]
  by_cases h1 : i < off
  · rw [if_pos h1, if_neg (by omega), getElem?_take, if_pos h1]
  · rw [if_neg h1]
    by_cases h2 : i < off + src.length
    · rw [if_pos (by omega), if_pos ⟨by omega, h2⟩]
    · rw [if_neg (by omega), if_neg (by omega), getElem?_drop]
      exact congrArg (data[·]?) (by omega)

/-- A window at the front is a prefix. -/
theorem slice_zero (data : List α) (len : ℕ) : slice data 0 len = data.take len := rfl

@[simp] theorem slice_zero_length (data : List α) : slice data 0 data.length = data := by
  simp [slice]

/-- **Reading a window that was just written.** -/
theorem slice_splice (data src : List α) (h : off + src.length ≤ data.length) :
    slice (splice data off src) off src.length = src := by
  refine ext_getElem? fun i => ?_
  rw [getElem?_slice, getElem?_splice data src h]
  by_cases hi : i < src.length
  · rw [if_pos hi, if_pos ⟨by omega, by omega⟩]
    exact congrArg (src[·]?) (by omega)
  · rw [if_neg hi, getElem?_eq_none (by omega)]

/-- **A write outside a window leaves it alone.** -/
theorem slice_splice_of_disjoint (data src : List α)
    (h : off + src.length ≤ data.length) (hd : off' + len ≤ off ∨ off + src.length ≤ off') :
    slice (splice data off src) off' len = slice data off' len := by
  refine ext_getElem? fun i => ?_
  rw [getElem?_slice, getElem?_slice]
  by_cases hi : i < len
  · rw [if_pos hi, if_pos hi, getElem?_splice data src h, if_neg (by omega)]
  · rw [if_neg hi, if_neg hi]

theorem slice_append_left (a b : List α) (h : off + len ≤ a.length) :
    slice (a ++ b) off len = slice a off len := by
  rw [slice, drop_append_of_le_length (by omega),
    take_append_of_le_length (by rw [length_drop]; omega), slice]

theorem slice_append_right (a b : List α) (off len : ℕ) :
    slice (a ++ b) (a.length + off) len = slice b off len := by
  rw [slice, drop_append, drop_eq_nil_of_le (by omega), nil_append, Nat.add_sub_cancel_left, slice]

/-- A window in two parts. -/
theorem slice_add (data : List α) (off k len : ℕ) :
    slice data off (k + len) = slice data off k ++ slice data (off + k) len := by
  rw [slice, slice, slice, take_add, drop_drop]

/-- A window of a string that is cut off. -/
theorem slice_take (data : List α) (off len size : ℕ) :
    slice (data.take size) off len = slice data off (min len (size - off)) := by
  rw [slice, slice, drop_take, take_take]

theorem splice_nil (data : List α) (off : ℕ) : splice data off [] = data := by
  simp [splice]

/-- **Writing in two parts.** -/
theorem splice_splice (data a b : List α) (h : off + (a.length + b.length) ≤ data.length) :
    splice (splice data off a) (off + a.length) b = splice data off (a ++ b) := by
  have h1 : off + a.length ≤ data.length := by omega
  have h2 : off + a.length + b.length ≤ (splice data off a).length := by
    rw [length_splice _ _ h1]
    omega
  have h3 : off + (a ++ b).length ≤ data.length := by rwa [length_append]
  refine ext_getElem? fun i => ?_
  rw [getElem?_splice _ _ h2, getElem?_splice _ _ h1, getElem?_splice _ _ h3, length_append,
    getElem?_append]
  split_ifs <;> first | rfl | omega | exact congrArg (b[·]?) (by omega)

end

/-! ### Little-endian words -/

/-- The `w` low bytes of `n`, least significant first. -/
def leBytes : ℕ → ℕ → List UInt8
  | 0, _ => []
  | w + 1, n => UInt8.ofNat n :: leBytes w (n / 256)

/-- The number whose bytes, least significant first, are given. -/
def ofLe : List UInt8 → ℕ
  | [] => 0
  | b :: bs => b.toNat + 256 * ofLe bs

@[simp] theorem length_leBytes (w n : ℕ) : (leBytes w n).length = w := by
  induction w generalizing n with
  | zero => rfl
  | succ w ih => rw [leBytes, length_cons, ih]

/-- **A word read back is the word written, modulo its width.** -/
theorem ofLe_leBytes (w n : ℕ) : ofLe (leBytes w n) = n % 256 ^ w := by
  induction w generalizing n with
  | zero => simp [leBytes, ofLe, mod_one]
  | succ w ih =>
    have hb : (UInt8.ofNat n).toNat = n % 256 := UInt8.toNat_ofNat'
    rw [leBytes, ofLe, ih, hb, pow_succ, mul_comm (256 ^ w) 256, mod_mul]

theorem ofLe_lt (bs : List UInt8) : ofLe bs < 256 ^ bs.length := by
  induction bs with
  | nil => simp [ofLe]
  | cons b bs ih =>
    have hb : b.toNat < 256 := b.toNat_lt
    rw [ofLe, length_cons, pow_succ]
    omega

/-- Bytes are the word they spell. -/
theorem leBytes_ofLe (bs : List UInt8) : leBytes bs.length (ofLe bs) = bs := by
  induction bs with
  | nil => rfl
  | cons b bs ih =>
    have hb : b.toNat < 256 := b.toNat_lt
    have hlow : UInt8.ofNat (b.toNat + 256 * ofLe bs) = b := by
      refine UInt8.toNat_inj.mp ?_
      rw [UInt8.toNat_ofNat']
      omega
    have hhigh : (b.toNat + 256 * ofLe bs) / 256 = ofLe bs := by omega
    rw [length_cons, ofLe, leBytes, hlow, hhigh, ih]

/-- The word of `w` bytes at offset `off`. -/
def getLe (data : List UInt8) (off w : ℕ) : ℕ := ofLe (slice data off w)

/-- `data` with the word of `w` bytes at offset `off` set to `v`. -/
def putLe (data : List UInt8) (off w v : ℕ) : List UInt8 := splice data off (leBytes w v)

variable {w : ℕ}

variable (data : List UInt8)

theorem length_putLe (v : ℕ) (h : off + w ≤ data.length) :
    (putLe data off w v).length = data.length :=
  length_splice data _ (by rwa [length_leBytes])

theorem getLe_lt (off w : ℕ) : getLe data off w < 256 ^ w := by
  refine lt_of_lt_of_le (ofLe_lt _) (Nat.pow_le_pow_right (by omega) ?_)
  rw [slice, length_take]
  omega

/-- **A field reads the value put there**, modulo its width. -/
theorem getLe_putLe (v : ℕ) (h : off + w ≤ data.length) :
    getLe (putLe data off w v) off w = v % 256 ^ w := by
  have hin : off + (leBytes w v).length ≤ data.length := by rwa [length_leBytes]
  have hs := slice_splice data (leBytes w v) hin
  rw [length_leBytes] at hs
  rw [getLe, putLe, hs, ofLe_leBytes]

/-- A window holds the word that is read there. -/
theorem slice_eq_leBytes {data : List UInt8} (h : off + w ≤ data.length) :
    slice data off w = leBytes w (getLe data off w) := by
  have hs := leBytes_ofLe (slice data off w)
  rw [length_slice data h] at hs
  exact hs.symm

/-- A field at the front of a string. -/
theorem getLe_leBytes_append (w n : ℕ) (rest : List UInt8) :
    getLe (leBytes w n ++ rest) 0 w = n % 256 ^ w := by
  rw [getLe, slice, drop_zero, take_left' (length_leBytes w n), ofLe_leBytes]

theorem getLe_leBytes (w n : ℕ) : getLe (leBytes w n) 0 w = n % 256 ^ w := by
  simpa using getLe_leBytes_append w n []

theorem leBytes_getLe {s : List UInt8} (h : s.length = w) : leBytes w (getLe s 0 w) = s := by
  rw [← slice_eq_leBytes (by omega), ← h, slice_zero_length]

/-- A field behind the first part of a string. -/
theorem getLe_append_right (a b : List UInt8) (off w : ℕ) :
    getLe (a ++ b) (a.length + off) w = getLe b off w := by
  rw [getLe, slice_append_right, getLe]

/-- A field is overwritten. -/
theorem putLe_append {a x b : List UInt8} (ha : a.length = off) (hx : x.length = w)
    (v : ℕ) : putLe (a ++ (x ++ b)) off w v = a ++ (leBytes w v ++ b) := by
  subst ha
  rw [putLe, splice, length_leBytes, take_left, ← drop_drop, drop_left, ← hx, drop_left]

/-- A window that a field does not meet is not changed by writing the field. -/
theorem slice_putLe_of_disjoint (v : ℕ)
    (h : off + w ≤ data.length) (hd : off' + len ≤ off ∨ off + w ≤ off') :
    slice (putLe data off w v) off' len = slice data off' len :=
  slice_splice_of_disjoint data _ (by rwa [length_leBytes]) (by rwa [length_leBytes])

/-- A field that another one does not meet is not changed by writing the other. -/
theorem getLe_putLe_of_disjoint {w' : ℕ} (v : ℕ)
    (h : off + w ≤ data.length) (hd : off' + w' ≤ off ∨ off + w ≤ off') :
    getLe (putLe data off w v) off' w' = getLe data off' w' := by
  rw [getLe, slice_putLe_of_disjoint data v h hd, getLe]

/-! ### Tables of equally long records -/

section

variable {α : Type}

theorem length_flatMap_range (f : ℕ → List α) (c n : ℕ) (hf : ∀ i < n, (f i).length = c) :
    ((List.range n).flatMap f).length = c * n := by
  induction n with
  | zero => simp
  | succ n ih =>
    rw [range_succ, flatMap_append, length_append,
      ih fun i hi => hf i (by omega), flatMap_singleton, hf n (by omega), mul_succ]

/-- **A record of a table** is the window it occupies. -/
theorem slice_flatMap_range (f : ℕ → List α) {c n i : ℕ} (hf : ∀ j < n, (f j).length = c)
    (hi : i < n) : slice ((List.range n).flatMap f) (c * i) c = f i := by
  induction n with
  | zero => omega
  | succ n ih =>
    have hlen := length_flatMap_range f c n fun j hj => hf j (by omega)
    rw [range_succ, flatMap_append, flatMap_singleton]
    rcases Nat.lt_succ_iff_lt_or_eq.mp hi with hlt | rfl
    · rw [slice_append_left _ _ ?_]
      · exact ih (fun j hj => hf j (by omega)) hlt
      · rw [hlen, ← mul_succ]
        exact mul_le_mul_left c hlt
    · have h := slice_append_right ((range i).flatMap f) (f i) 0 c
      rw [hlen, add_zero] at h
      rw [h]
      conv_lhs => rw [← hf i (by omega)]
      exact slice_zero_length _

/-- **A string cut into records** is the concatenation of the pieces. -/
theorem flatMap_slice_range (data : List α) (c n : ℕ) (h : c * n ≤ data.length) :
    (List.range n).flatMap (fun i => slice data (c * i) c) = data.take (c * n) := by
  induction n with
  | zero => simp
  | succ n ih =>
    rw [mul_succ] at h
    rw [range_succ, flatMap_append, ih (by omega), flatMap_singleton, slice, mul_succ, take_add]

end

/-! ### Text -/

/-- The UTF-8 encoding of a text. -/
def utf8 (s : List Char) : List UInt8 := s.flatMap String.utf8EncodeChar

/-- The text a byte string encodes, if it is well-formed UTF-8. -/
def fromUtf8 (bs : List UInt8) : Option (List Char) := bs.toByteArray.utf8Decode?.map Array.toList

theorem fromUtf8_utf8 (s : List Char) : fromUtf8 (utf8 s) = some s := by
  have h : (utf8 s).toByteArray = s.utf8Encode := rfl
  rw [fromUtf8, h, utf8Decode?_utf8Encode, Option.map_some]

variable {s : List Char}

/-- A byte string that decodes is the encoding of what it decodes to. -/
theorem utf8_of_fromUtf8 {bs : List UInt8} (h : fromUtf8 bs = some s) : utf8 s = bs := by
  rw [fromUtf8, Option.map_eq_some_iff] at h
  obtain ⟨a, ha, rfl⟩ := h
  have hsome : bs.toByteArray.utf8Decode?.isSome := by rw [ha]; rfl
  have hget : bs.toByteArray.utf8Decode?.get hsome = a := by simp [ha]
  have henc := ByteArray.utf8Encode_get_utf8Decode? (h := hsome)
  rw [hget] at henc
  have h' : (utf8 a.toList).toByteArray = bs.toByteArray := henc
  simpa using congrArg (fun b => b.data.toList) h'

/-- An ASCII byte in an encoded character is that character: the bytes of a longer
encoding all have their high bit set. -/
theorem ascii_mem_utf8EncodeChar {c : Char} {n : ℕ} (hn : n < 128) :
    UInt8.ofNat n ∈ String.utf8EncodeChar c ↔ c.val.toNat = n := by
  have hbyte : ∀ {v : ℕ}, v < 256 → (UInt8.ofNat n = UInt8.ofNat v ↔ v = n) := fun {v} hv => by
    rw [← UInt8.toNat_inj, UInt8.toNat_ofNat', UInt8.toNat_ofNat', mod_eq_of_lt hv,
      mod_eq_of_lt (by omega), eq_comm]
  rw [String.utf8EncodeChar]
  generalize c.val.toNat = v
  split_ifs <;> simp only [mem_cons, not_mem_nil, or_false] <;>
    (repeat rw [hbyte (by omega)]) <;> omega

/-- **A text has an ASCII byte if it has that character.** -/
theorem ascii_mem_utf8 (a : Char) (ha : a.val.toNat < 128) :
    UInt8.ofNat a.val.toNat ∈ utf8 s ↔ a ∈ s := by
  have hchar : ∀ c : Char, c.val.toNat = a.val.toNat ↔ c = a := fun c => by
    rw [Char.ext_iff, ← UInt32.toNat_inj]
  rw [utf8, mem_flatMap]
  constructor
  · rintro ⟨c, hc, h⟩
    exact (hchar c).mp ((ascii_mem_utf8EncodeChar ha).mp h) ▸ hc
  · exact fun h => ⟨a, h, (ascii_mem_utf8EncodeChar ha).mpr rfl⟩

/-- A text has a zero byte if it has a NUL. -/
theorem zero_mem_utf8 : 0 ∈ utf8 s ↔ '\x00' ∈ s := ascii_mem_utf8 '\x00' (by decide)

/-- The bytes of a slice: a machine has room for less than half of what a word counts. -/
abbrev Slice : Type := { bytes : List UInt8 // bytes.length < 2 ^ 63 }

end SysLib
