import DunitOS.Fs.Vfs
import DunitOS.SysLib.Count
import Mathlib.Data.List.Nodup
import Mathlib.Data.List.Perm.Basic

/-!
# Path resolution in the virtual file system

The VFS resolves a path in two steps (`normalize_path_into` and `resolve_path` of
`kernel/src/fs/vfs.rs`). The path is first brought into normal form in a buffer of 256
bytes: components are appended to what has been written, and for `..` the length is
moved back to the last slash. The mount point is then chosen by comparing texts.

What is meant is said in terms of components: a path names a *stack* of them
(`resolved`), and of the mount points whose own components are a prefix of
that stack the longest is chosen. `Shows` relates the buffer to the stack,
and the two steps of the code are compared with the two halves of the meaning in
`normalizePathInto_eq` and
`VirtualFileSystem.Canonical.locate_render`.
-/

namespace DunitOS.Vfs

open SysLib List Nat

/-! ### The path buffer -/

/-- The byte of a slash. -/
def slash : UInt8 := 0x2f

/-- The bytes of a path buffer. -/
abbrev Buffer : Type := { out : List UInt8 // out.length = 256 }

/-- A path buffer and how much of it is written. The first byte always is. -/
structure PathBuf where
  out : List UInt8
  len : ℕ
  size : out.length = 256
  pos : 0 < len
  bound : len ≤ 256

namespace PathBuf

/-- What has been written. -/
def written (b : PathBuf) : List UInt8 := b.out.take b.len

/-- The buffer with nothing but the slash of the root in it. -/
def start (out : Buffer) : PathBuf where
  out := splice out.1 0 [slash]
  len := 1
  size := by rw [length_splice _ _ (by simp [out.2]), out.2]
  pos := by omega
  bound := by omega

/-- Write behind what has been written. -/
def put (b : PathBuf) (src : List UInt8) (h : b.len + src.length ≤ 256) : PathBuf where
  out := splice b.out b.len src
  len := b.len + src.length
  size := by rw [length_splice _ _ (by rw [b.size]; exact h), b.size]
  pos := Nat.add_pos_left b.pos _
  bound := h

/-- Forget what has been written from a position on. -/
def cut (b : PathBuf) (n : ℕ) (hpos : 0 < n) (hn : n ≤ b.len) : PathBuf where
  out := b.out
  len := n
  size := b.size
  pos := hpos
  bound := le_trans hn b.bound

/-- What has been written, as a text. -/
def text (b : PathBuf) : Except VfsError Path :=
  match fromUtf8 b.written with
  | some normalized => .ok normalized
  | none => .error .invalidPath

end PathBuf

/-! ### `normalize_path_into` -/

/-- Append a component, behind a slash unless only the root is written. -/
def pushPathComponent (part : List Char) (b : PathBuf) : Except VfsError PathBuf :=
  let sep := if b.len > 1 then [slash] else []
  if h : b.len + ((utf8 part).length + sep.length) > 256 then .error .invalidPath
  else .ok ((b.put sep (by omega)).put (utf8 part) (by simp only [PathBuf.put]; omega))

/-- The last position up to a given one that holds a slash, or the first position. -/
def scanBack (out : List UInt8) : ℕ → ℕ
  | 0 => 0
  | idx + 1 => if out[idx + 1]? ≠ some slash then scanBack out idx else idx + 1

theorem scanBack_le (out : List UInt8) (n : ℕ) : scanBack out n ≤ n := by
  induction n with
  | zero => exact le_refl 0
  | succ =>
    rw [scanBack]
    split_ifs <;> omega

/-- Remove the last component; at the root there is none. -/
def popPathComponent (b : PathBuf) : PathBuf :=
  if b.len ≤ 1 then b.cut 1 (by omega) b.pos
  else
    let idx := scanBack b.out (b.len - 1)
    b.cut (if idx = 0 then 1 else idx) (by split_ifs <;> omega) (by
      have := scanBack_le b.out (b.len - 1)
      have := b.pos
      split_ifs <;> omega)

/-- The loop body of `append_path_components`. -/
def appendPathComponent (b : PathBuf) (part : List Char) : Except VfsError PathBuf :=
  if part = [] ∨ part = ['.'] then .ok b
  else if part = ['.', '.'] then .ok (popPathComponent b)
  else pushPathComponent part b

def appendPathComponents (path : Path) (b : PathBuf) : Except VfsError PathBuf :=
  (path.splitOn '/').foldlM appendPathComponent b

/-- Bring a path into normal form in a buffer, whatever the buffer held. -/
def normalizePathInto (path cwd : Path) (out : Buffer) : Except VfsError Path := do
  let b := PathBuf.start out
  let b ←
    if path = [] then appendPathComponents cwd b
    else if path.head? ≠ some '/' then do
      let b ← appendPathComponents cwd b
      appendPathComponents path b
    else appendPathComponents path b
  b.text

/-! ### Mount points and `resolve_path` -/

structure MountPoint (Fs : Type) where
  path : Path
  fs : Fs

/-- The part of the VFS that paths are resolved in: the file system at the root and the
mount points, in the order of mounting. -/
structure VirtualFileSystem (Fs : Type) where
  rootFs : Option Fs
  mounts : List (MountPoint Fs)

variable {Fs : Type}

/-- The text from a byte position on (`&s[n..]`). -/
def dropBytes : ℕ → List Char → List Char
  | _, [] => []
  | n, c :: s => if n = 0 then c :: s else dropBytes (n - c.utf8Size) s

/-- `trim_start_matches('/')`. -/
def trimStart (path : Path) : Path := path.dropWhile (· == '/')

/-- Whether a normalised path is at or below a mount point. -/
def MountPoint.covers (m : MountPoint Fs) (normalized : Path) : Bool :=
  let exact_ := normalized == m.path
  let child := m.path.isPrefixOf normalized && (utf8 normalized)[byteLen m.path]? == some slash
  exact_ || child

namespace VirtualFileSystem

def mount (v : VirtualFileSystem Fs) (path : Path) (fs : Fs) :
    Except VfsError (VirtualFileSystem Fs) :=
  if path = ['/'] then .ok { v with rootFs := some fs }
  else if path.head? ≠ some '/' ∨ path.getLast? = some '/' ∨ byteLen path > 255 then
    .error .invalidPath
  else if v.mounts.any fun m => m.path == path then .error .alreadyExists
  else .ok { v with mounts := v.mounts ++ [⟨path, fs⟩] }

/-- The mount point that the loop of `resolve_path` ends with. -/
def selected (v : VirtualFileSystem Fs) (normalized : Path) : Option (MountPoint Fs) :=
  keepLargest (fun m => m.covers normalized) (fun m => byteLen m.path) v.mounts

/-- The file system that a normalised path leads to, and the path within it. -/
def locate (v : VirtualFileSystem Fs) (normalized : Path) : Except VfsError (Fs × Path) :=
  match v.selected normalized with
  | some m => .ok (m.fs, trimStart (dropBytes (byteLen m.path) normalized))
  | none =>
    match v.rootFs with
    | some fs => .ok (fs, trimStart normalized)
    | none => .error .notFound

def resolvePath (v : VirtualFileSystem Fs) (path cwd : Path) (out : Buffer) :
    Except VfsError (Fs × Path) := do
  let normalized ← normalizePathInto path cwd out
  v.locate normalized

end VirtualFileSystem

/-! ### The meaning of a path -/

/-- What a component of a path does to the stack of components. -/
def enter (stack : List (List Char)) (part : List Char) : List (List Char) :=
  if part = [] ∨ part = ['.'] then stack
  else if part = ['.', '.'] then stack.dropLast
  else stack ++ [part]

/-- The components that a path names: those of the working directory come first unless
the path is absolute. -/
def named (path cwd : Path) : List (List Char) :=
  if path.head? = some '/' then path.splitOn '/' else cwd.splitOn '/' ++ path.splitOn '/'

/-- **The stack of components a path leads to.** -/
def resolved (path cwd : Path) : List (List Char) := (named path cwd).foldl enter []

/-- A stack of components, written as an absolute path. -/
def render (stack : List (List Char)) : Path := '/' :: ['/'].intercalate stack

/-- The path buffer has room for every stack on the way. -/
def Fits (path cwd : Path) : Prop :=
  ∀ stack ∈ (named path cwd).scanl enter [], byteLen (render stack) ≤ 256

instance (path cwd : Path) : Decidable (Fits path cwd) := List.decidableBAll _ _

/-- A stack of proper components, as every stack on the way is. -/
def Proper (stack : List (List Char)) : Prop := ∀ c ∈ stack, Component c

/-- **The buffer shows a stack**: what is written is the stack as a path. -/
def Shows (b : PathBuf) (stack : List (List Char)) : Prop :=
  Proper stack ∧ b.written = utf8 (render stack)

/-! ### Texts and their components -/

variable {rest stack : List (List Char)} {path : Path}

section

variable {part : List Char}

theorem utf8_append (s t : List Char) : utf8 (s ++ t) = utf8 s ++ utf8 t := flatMap_append

theorem byteLen_append (s t : List Char) : byteLen (s ++ t) = byteLen s + byteLen t := by
  rw [byteLen, utf8_append, length_append, byteLen, byteLen]

theorem slash_mem_utf8 {s : List Char} : slash ∈ utf8 s ↔ '/' ∈ s := ascii_mem_utf8 '/' (by decide)

theorem dropBytes_append (s t : List Char) : dropBytes (byteLen s) (s ++ t) = t := by
  induction s with
  | nil => cases t <;> rfl
  | cons c s ih =>
    have hlen : byteLen (c :: s) = c.utf8Size + byteLen s := by
      rw [byteLen, utf8, flatMap_cons, length_append, String.length_utf8EncodeChar]
      rfl
    have hpos : 0 < c.utf8Size := Char.utf8Size_pos c
    rw [cons_append, dropBytes, if_neg (by omega), hlen, Nat.add_sub_cancel_left, ih]

/-- The parts of a path have no slash in them. -/
theorem slash_notMem_of_mem_splitOn (h : part ∈ path.splitOn '/') : '/' ∉ part := by
  induction path generalizing part with
  | nil => simp_all
  | cons c path ih =>
    rw [splitOn_cons_eq_if_modifyHead] at h
    obtain ⟨first, rest, hsplit⟩ := exists_cons_of_ne_nil (splitOn_ne_nil '/' path)
    rw [hsplit] at h ih
    split_ifs at h with hc
    · rcases mem_cons.mp h with rfl | h
      · exact not_mem_nil
      · exact ih h
    · rcases mem_cons.mp h with rfl | h
      · have hne : '/' ≠ c := fun heq => hc (by rw [heq]; exact beq_self_eq_true c)
        simpa [hne] using ih mem_cons_self
      · exact ih (mem_cons_of_mem _ h)

theorem component_of_mem_splitOn (h : part ∈ path.splitOn '/')
    (h1 : ¬(part = [] ∨ part = ['.'])) (h2 : part ≠ ['.', '.']) : Component part := by
  push Not at h1
  exact ⟨h1.1, h1.2, h2, slash_notMem_of_mem_splitOn h⟩

theorem Proper.dropLast (h : Proper stack) : Proper stack.dropLast :=
  fun c hc => h c (dropLast_subset stack hc)

theorem Proper.push (h : Proper stack) (hpart : Component part) : Proper (stack ++ [part]) := by
  intro c hc
  rcases mem_append.mp hc with hc | hc
  · exact h c hc
  · rwa [mem_singleton.mp hc]

theorem Proper.append (h : Proper (stack ++ rest)) : Proper stack ∧ Proper rest :=
  ⟨fun c hc => h c (mem_append_left _ hc), fun c hc => h c (mem_append_right _ hc)⟩

theorem intercalate_append (h : stack ≠ []) (h' : rest ≠ []) : ['/'].intercalate (stack ++ rest) =
      ['/'].intercalate stack ++ '/' :: ['/'].intercalate rest := by
  induction stack with
  | nil => exact absurd rfl h
  | cons _ stack ih =>
    rw [cons_append, intercalate_cons_of_ne_nil (by simp [h'])]
    rcases eq_or_ne stack [] with rfl | hne
    · simp
    · rw [ih hne, intercalate_cons_of_ne_nil hne]
      simp

/-- More components are rendered behind a slash, except at the root. -/
theorem render_append (h : stack ≠ []) (h' : rest ≠ []) :
    render (stack ++ rest) = render stack ++ '/' :: ['/'].intercalate rest := by
  rw [render, intercalate_append h h', render, cons_append]

theorem splitOn_render (h : Proper stack) (hne : stack ≠ []) :
    (render stack).splitOn '/' = [] :: stack := by
  have hjoin : render stack = ['/'].intercalate ([] :: stack) := by
    rw [intercalate_cons_of_ne_nil hne]
    rfl
  rw [hjoin, splitOn_intercalate '/' _ (cons_ne_nil _ _)]
  intro c hc
  rcases mem_cons.mp hc with rfl | hc
  · exact not_mem_nil
  · exact (h c hc).2.2.2

theorem byteLen_render_nil : byteLen (render []) = 1 := rfl

theorem one_lt_byteLen_render (h : Proper stack) (hne : stack ≠ []) :
    1 < byteLen (render stack) := by
  obtain ⟨c, rest, rfl⟩ := exists_cons_of_ne_nil hne
  have hc : 0 < byteLen c := pos_of_ne_zero fun h0 =>
    (h c mem_cons_self).1 (byteLen_eq_zero.mp h0)
  have hsplit : ∃ t, render (c :: rest) = ['/'] ++ (c ++ t) := by
    rcases eq_or_ne rest [] with rfl | hrest
    · exact ⟨[], by simp [render]⟩
    · exact ⟨_, by rw [render, intercalate_cons_of_ne_nil hrest, append_assoc]; rfl⟩
  obtain ⟨t, ht⟩ := hsplit
  have hroot : byteLen ['/'] = 1 := rfl
  rw [ht, byteLen_append, byteLen_append, hroot]
  omega

/-- **A stack with one more component**, rendered. -/
theorem render_push (h : Proper stack) : utf8 (render (stack ++ [part])) =
      utf8 (render stack) ++
        ((if (utf8 (render stack)).length > 1 then [slash] else []) ++ utf8 part) := by
  rcases eq_or_ne stack [] with rfl | hne
  · have hroot : ¬(utf8 (render [])).length > 1 := by decide
    rw [if_neg hroot, nil_append, nil_append, ← utf8_append, render, intercalate_singleton]
    rfl
  · have hlt : (utf8 (render stack)).length > 1 := one_lt_byteLen_render h hne
    rw [if_pos hlt, render_append hne (cons_ne_nil _ _), utf8_append, intercalate_singleton]
    rfl

end

/-! ### The buffer and the stack -/

variable {parts : List (List Char)} {part : List Char} {cwd : Path}

section

variable {b : PathBuf}

namespace PathBuf

theorem length_written : b.written.length = b.len := by
  rw [written, length_take, b.size]
  exact min_eq_left b.bound

theorem written_start {out : Buffer} : (start out).written = [slash] := by
  simp [written, start, splice]

theorem written_put {src : List UInt8} (h : b.len + src.length ≤ 256) :
    (b.put src h).written = b.written ++ src := by
  have hout : (b.put src h).out = (b.written ++ src) ++ b.out.drop (b.len + src.length) := by
    rw [append_assoc]
    rfl
  rw [written, hout]
  refine take_left' ?_
  rw [length_append, length_written]
  rfl

theorem written_cut {n : ℕ} (hpos : 0 < n) (hn : n ≤ b.len) :
    (b.cut n hpos hn).written = b.written.take n := by
  rw [written, written, cut, take_take, min_eq_left hn]

end PathBuf

/-- Scanning back over a component finds the slash before it. -/
theorem scanBack_eq {out a w : List UInt8} {n : ℕ} (hn : n = a.length + w.length)
    (h : out.take (n + 1) = a ++ slash :: w) (hw : slash ∉ w) : scanBack out n = a.length := by
  -- The induction is on the component, from its last byte.
  induction w using reverseRecOn generalizing n with
  | nil =>
    subst hn
    cases ha : a.length with
    | zero => rfl
    | succ k =>
      have hget : out[k + 1]? = some slash := by
        have hlast := congrArg (·[a.length]?) h
        simp only [getElem?_take, length_nil, Nat.add_zero, Nat.lt_succ_self, if_true,
          getElem?_append_right (Nat.le_refl _), Nat.sub_self,
          getElem?_cons_zero] at hlast
        rwa [← ha]
      rw [length_nil, Nat.add_zero, scanBack, if_neg (by simp [hget])]
  | append_singleton w c ih =>
    rw [length_append, length_singleton, ← Nat.add_assoc] at hn
    subst hn
    have hget : out[a.length + w.length + 1]? = some c := by
      have := congrArg (·[a.length + w.length + 1]?) h
      simpa [getElem?_take, getElem?_append_right, Nat.add_assoc] using this
    have hc : c ≠ slash := fun hc => hw (by simp [hc])
    rw [scanBack, if_pos (by simpa [hget] using hc)]
    refine ih rfl ?_ fun hmem => hw (mem_append_left _ hmem)
    have := congrArg (take (a.length + w.length + 1)) h
    rw [take_take, min_eq_left (by omega)] at this
    rw [this, ← cons_append, ← append_assoc]
    refine take_left' ?_
    simp [Nat.add_assoc]

theorem Shows.len_eq (h : Shows b stack) : b.len = byteLen (render stack) := by
  rw [← b.length_written, h.2, byteLen]

open PathBuf

theorem Shows.pop (h : Shows b stack) : Shows (popPathComponent b) stack.dropLast := by
  refine ⟨h.1.dropLast, ?_⟩
  have hlen := h.len_eq
  rcases eq_nil_or_concat' stack with rfl | ⟨init, part, rfl⟩
  · rw [byteLen_render_nil] at hlen
    rw [popPathComponent, if_pos hlen.le, written_cut, h.2]
    rfl
  · have hinit : Proper init := h.1.append.1
    have hlt := one_lt_byteLen_render h.1 (by simp)
    have hw : slash ∉ utf8 part := fun hmem =>
      (h.1 part (by simp)).2.2.2 (slash_mem_utf8.mp hmem)
    rw [popPathComponent, if_neg (by omega), written_cut, dropLast_concat]
    have hwritten := h.2
    rw [render_push hinit] at hwritten
    rcases eq_or_ne init [] with rfl | hne
    · -- The slash found is that of the root, and it stays.
      have hroot : ¬(utf8 (render [])).length > 1 := by decide
      rw [if_neg hroot] at hwritten
      have hscan : scanBack b.out (b.len - 1) = 0 := by
        refine scanBack_eq (a := []) ?_ ?_ hw
        · have hone : (utf8 (render [])).length = 1 := byteLen_render_nil
          rw [← b.length_written, hwritten, length_append, nil_append, hone, length_nil]
          omega
        · rw [Nat.sub_add_cancel b.pos, ← written, hwritten]
          rfl
      simp only [hscan, if_true]
      rw [hwritten]
      rfl
    · have hgt : (utf8 (render init)).length > 1 := one_lt_byteLen_render hinit hne
      rw [if_pos hgt] at hwritten
      have hscan : scanBack b.out (b.len - 1) = (utf8 (render init)).length := by
        refine scanBack_eq ?_ ?_ hw
        · rw [← b.length_written, hwritten]
          simp only [length_append, length_singleton]
          omega
        · rw [Nat.sub_add_cancel b.pos, ← written, hwritten]
          rfl
      simp only [hscan, if_neg (show (utf8 (render init)).length ≠ 0 by omega)]
      rw [hwritten, take_left']
      rfl

/-- A computation on the buffer ends with a stack if that has room, and is an invalid
path otherwise. -/
def Yields (r : Except VfsError PathBuf) (room : Prop) (stack : List (List Char)) : Prop :=
  (room → ∃ b, r = .ok b ∧ Shows b stack) ∧ (¬room → r = .error .invalidPath)

theorem Shows.push (h : Shows b stack) (hpart : Component part) :
    Yields (pushPathComponent part b) (byteLen (render (stack ++ [part])) ≤ 256)
      (stack ++ [part]) := by
  have hlen : (utf8 (render stack)).length = b.len := by rw [← h.2, b.length_written]
  have hbytes : byteLen (render (stack ++ [part])) =
      b.len + ((utf8 part).length + (if b.len > 1 then [slash] else []).length) := by
    rw [byteLen, render_push h.1, hlen, length_append, hlen, length_append,
      add_comm (utf8 part).length]
  rw [hbytes, pushPathComponent]
  refine ⟨fun hroom => ⟨_, dif_neg (by omega), h.1.push hpart, ?_⟩, fun hroom => dif_pos (by omega)⟩
  rw [written_put, written_put, h.2, render_push h.1, hlen, append_assoc]

/-- **One component of a path** does to the buffer what it does to the stack. -/
theorem Shows.append (h : Shows b stack) (hpart : part ∈ path.splitOn '/') :
    Yields (appendPathComponent b part) (byteLen (render (enter stack part)) ≤ 256)
      (enter stack part) := by
  have hb := b.bound
  have hlen := h.len_eq
  rw [appendPathComponent, enter]
  split_ifs with h1 h2
  · exact ⟨fun _ => ⟨b, rfl, h⟩, fun hroom => absurd (hlen ▸ hb) hroom⟩
  · have hpop := h.pop
    exact ⟨fun _ => ⟨_, rfl, hpop⟩, fun hroom =>
      absurd (hpop.len_eq ▸ (popPathComponent b).bound) hroom⟩
  · exact h.push (component_of_mem_splitOn hpart h1 h2)

/-- **A run of components** does to the buffer what it does to the stack, and fails as
soon as a stack on the way has no room. -/
theorem Shows.foldlM
    (h : Shows b stack) (hparts : ∀ part ∈ parts, ∃ path : Path, part ∈ path.splitOn '/') :
    Yields (parts.foldlM appendPathComponent b)
      (∀ st ∈ parts.scanl enter stack, byteLen (render st) ≤ 256) (parts.foldl enter stack) := by
  induction parts generalizing b stack with
  | nil =>
    refine ⟨fun _ => ⟨b, rfl, h⟩, fun hroom => absurd ?_ hroom⟩
    intro st hst
    rw [scanl_nil, mem_singleton] at hst
    rw [hst, ← h.len_eq]
    exact b.bound
  | cons part parts ih =>
    obtain ⟨path, hpath⟩ := hparts part mem_cons_self
    obtain ⟨hok, herr⟩ := h.append hpath
    have hfirst : byteLen (render stack) ≤ 256 := h.len_eq ▸ b.bound
    have hmem : enter stack part ∈ parts.scanl enter (enter stack part) := by
      cases parts <;> simp
    rw [scanl_cons, foldlM_cons, foldl_cons]
    by_cases hroom : byteLen (render (enter stack part)) ≤ 256
    · obtain ⟨b', hb', hshows⟩ := hok hroom
      rw [hb']
      obtain ⟨hok', herr'⟩ := ih hshows fun p hp => hparts p (mem_cons_of_mem _ hp)
      refine ⟨fun hall => hok' fun st hst => hall st (mem_cons_of_mem _ hst), fun hall =>
        herr' fun h' => hall fun st hst => ?_⟩
      rcases mem_cons.mp hst with rfl | hst
      · exact hfirst
      · exact h' st hst
    · rw [herr hroom]
      exact ⟨fun hall => absurd (hall _ (mem_cons_of_mem _ hmem)) hroom, fun _ => rfl⟩

theorem exists_mem_splitOn_of_mem_named
    (h : part ∈ named path cwd) : ∃ p : Path, part ∈ p.splitOn '/' := by
  rw [named] at h
  split_ifs at h
  · exact ⟨path, h⟩
  · rcases mem_append.mp h with h | h
    · exact ⟨cwd, h⟩
    · exact ⟨path, h⟩

/-- The three cases of `normalize_path_into` are one run over the named components. -/
theorem normalizePathInto_eq_foldlM {out : Buffer} :
    normalizePathInto path cwd out =
      ((named path cwd).foldlM appendPathComponent (start out)).bind text := by
  rw [normalizePathInto, named]
  rcases path with _ | ⟨c, path⟩
  · have hnil : ∀ b, appendPathComponents [] b = .ok b := fun _ => rfl
    simp only [head?_nil, reduceCtorEq, if_true, if_false, foldlM_append]
    rw [← appendPathComponents]
    rcases appendPathComponents cwd (start out) with e | b
    · rfl
    · exact congrArg (Except.bind · _) (hnil b).symm
  · by_cases hc : (c :: path).head? = some '/'
    · rw [if_neg (cons_ne_nil _ _), if_neg (not_not.mpr hc), if_pos hc]
      rfl
    · rw [if_neg (cons_ne_nil _ _), if_pos hc, if_neg hc, foldlM_append, ← appendPathComponents]
      rcases appendPathComponents cwd (start out) with e | b <;> rfl

/-- **The normal form of a path** is the stack it leads to, written as an absolute path,
as long as every stack on the way has room in the buffer. -/
theorem normalizePathInto_eq (path cwd : Path) (out : Buffer) : normalizePathInto path cwd out =
      if Fits path cwd then .ok (render (resolved path cwd)) else .error .invalidPath := by
  have hstart : Shows (start out) [] := ⟨by simp [Proper], written_start⟩
  have hparts : ∀ part ∈ named path cwd, ∃ p : Path, part ∈ p.splitOn '/' := fun _ =>
    exists_mem_splitOn_of_mem_named
  obtain ⟨hok, herr⟩ := hstart.foldlM hparts
  rw [normalizePathInto_eq_foldlM]
  split_ifs with hfits
  · obtain ⟨b, hb, hshows⟩ := hok hfits
    rw [hb, Except.bind, text, hshows.2, fromUtf8_utf8]
    rfl
  · rw [herr hfits]
    rfl

/-- Every stack on the way is one of proper components. -/
theorem proper_foldl (h : Proper stack)
    (hparts : ∀ part ∈ parts, ∃ path : Path, part ∈ path.splitOn '/') :
    Proper (parts.foldl enter stack) := by
  induction parts generalizing stack with
  | nil => exact h
  | cons part _ ih =>
    refine ih ?_ fun p hp => hparts p (mem_cons_of_mem _ hp)
    obtain ⟨path, hpath⟩ := hparts part mem_cons_self
    rw [enter]
    split_ifs with h1 h2
    · exact h
    · exact h.dropLast
    · exact h.push (component_of_mem_splitOn hpath h1 h2)

theorem proper_resolved (path cwd : Path) : Proper (resolved path cwd) :=
  proper_foldl (by simp [Proper]) fun _ => exists_mem_splitOn_of_mem_named

end

/-! ### Normal forms stay as they are -/

section

theorem enter_component (h : Component part) : enter stack part = stack ++ [part] := by
  obtain ⟨h1, h2, h3, -⟩ := h
  rw [enter, if_neg (by simp [h1, h2]), if_neg h3]

/-- Proper components are put on the stack one after the other. -/
theorem foldl_enter_proper (h : Proper parts)
    (stack : List (List Char)) : parts.foldl enter stack = stack ++ parts := by
  induction parts generalizing stack with
  | nil => simp
  | cons part _ ih =>
    rw [foldl_cons, enter_component (h part mem_cons_self),
      ih fun c hc => h c (mem_cons_of_mem _ hc), append_assoc, singleton_append]

/-- The stacks on the way to a stack of proper components are its prefixes. -/
theorem mem_scanl_enter_proper (h : Proper parts)
    {st : List (List Char)} (hst : st ∈ parts.scanl enter stack) :
    st <+: stack ++ parts := by
  induction parts generalizing stack with
  | nil =>
    rw [scanl_nil, mem_singleton] at hst
    exact hst ▸ prefix_append _ _
  | cons part _ ih =>
    rw [scanl_cons, enter_component (h part mem_cons_self)] at hst
    rcases mem_cons.mp hst with rfl | hst
    · exact prefix_append _ _
    · have hpre := ih (fun c hc => h c (mem_cons_of_mem _ hc)) hst
      rwa [append_assoc, singleton_append] at hpre

/-- More components make a longer path. -/
theorem byteLen_render_lt (h : Proper (stack ++ rest))
    (hrest : rest ≠ []) : byteLen (render stack) < byteLen (render (stack ++ rest)) := by
  rcases eq_or_ne stack [] with rfl | hne
  · exact one_lt_byteLen_render h hrest
  · have hcons : ∀ t, 0 < byteLen ('/' :: t) := fun t =>
      pos_of_ne_zero fun h0 => cons_ne_nil _ _ (byteLen_eq_zero.mp h0)
    rw [render_append hne hrest, byteLen_append]
    exact Nat.lt_add_of_pos_right (hcons _)

theorem byteLen_render_mono {stack' : List (List Char)} (h : Proper stack')
    (hpre : stack <+: stack') : byteLen (render stack) ≤ byteLen (render stack') := by
  obtain ⟨rest, rfl⟩ := hpre
  rcases eq_or_ne rest [] with rfl | hne
  · rw [append_nil]
  · exact (byteLen_render_lt h hne).le

theorem named_render (h : Proper stack) :
    named (render stack) cwd = [] :: (if stack = [] then [[]] else stack) := by
  have habs : (render stack).head? = some '/' := rfl
  rw [named, if_pos habs]
  split_ifs with hne
  · rw [hne]
    rfl
  · exact splitOn_render h hne

/-- A normal form leads to the stack that it renders. -/
theorem resolved_render (h : Proper stack) : resolved (render stack) cwd = stack := by
  rw [resolved, named_render h]
  split_ifs with hne
  · rw [hne]
    rfl
  · exact foldl_enter_proper h []

theorem fits_render (h : Proper stack)
    (hlen : byteLen (render stack) ≤ 256) : Fits (render stack) cwd := by
  intro st hst
  rw [named_render h, scanl_cons] at hst
  refine le_trans (byteLen_render_mono h ?_) hlen
  rcases mem_cons.mp hst with rfl | hst
  · exact nil_prefix
  · split_ifs at hst with hne
    · have hst' : st = [] ∨ st = [] := by simpa [enter] using hst
      exact hst'.elim id id ▸ nil_prefix
    · exact mem_scanl_enter_proper h hst

theorem foldl_mem_scanl (stack : List (List Char)) :
    parts.foldl enter stack ∈ parts.scanl enter stack := by
  induction parts generalizing stack with
  | nil => simp
  | cons _ _ ih =>
    rw [scanl_cons, foldl_cons]
    exact mem_cons_of_mem _ (ih _)

theorem byteLen_resolved_le (h : Fits path cwd) :
    byteLen (render (resolved path cwd)) ≤ 256 := h _ (foldl_mem_scanl _)

end

/-! ### The choice of a mount point -/

section

/-- **A file system is mounted at a stack of components**: the root for the empty stack,
a mount point whose path renders the stack for any other. -/
def VirtualFileSystem.Mounted (v : VirtualFileSystem Fs) (stack : List (List Char)) (fs : Fs) :
    Prop :=
  (stack = [] ∧ v.rootFs = some fs) ∨
    (stack ≠ [] ∧ ∃ m ∈ v.mounts, m.path = render stack ∧ m.fs = fs)

/-- **A mount table with distinct canonical paths**: each is absolute and in normal form
(the root is kept apart), and no two are the same. -/
structure VirtualFileSystem.Canonical (v : VirtualFileSystem Fs) : Prop where
  proper : ∀ m ∈ v.mounts, ∃ stack, stack ≠ [] ∧ Proper stack ∧ m.path = render stack
  distinct : (v.mounts.map MountPoint.path).Nodup

theorem render_injective {stack' : List (List Char)} (h : Proper stack)
    (h' : Proper stack') (heq : render stack = render stack') : stack = stack' := by
  have hres := congrArg (resolved · []) heq
  simpa only [resolved_render h, resolved_render h'] using hres

/-- A slash behind a text, found at the text's length in bytes. -/
theorem getElem?_byteLen_eq_slash {s t : List Char} :
    (utf8 (s ++ t))[byteLen s]? = some slash ↔ ∃ t', t = '/' :: t' := by
  rw [utf8_append, byteLen, getElem?_append_right (le_refl _), Nat.sub_self]
  constructor
  · intro h
    rcases t with _ | ⟨c, t⟩
    · cases h
    · have hne : utf8 [c] ≠ [] := fun h0 => by
        have := String.length_utf8EncodeChar c
        simp [utf8] at h0
      have hmem : slash ∈ utf8 [c] := by
        obtain ⟨b, bs, hbs⟩ := exists_cons_of_ne_nil hne
        rw [← singleton_append, utf8_append, hbs] at h
        rw [hbs]
        exact Option.some.inj h ▸ mem_cons_self
      rw [slash_mem_utf8, mem_singleton] at hmem
      exact ⟨t, by rw [hmem]⟩
  · rintro ⟨t', rfl⟩
    rfl

variable {cs : List (List Char)}

/-- **A mount point covers the paths whose components its own are a prefix of**; it never
ends in the middle of a component. -/
theorem covers_render {m : MountPoint Fs}
    (hm : m.path = render stack) (hstack : Proper stack) (hne : stack ≠ []) (hcs : Proper cs) :
    m.covers (render cs) = true ↔ stack <+: cs := by
  rw [MountPoint.covers, Bool.or_eq_true, Bool.and_eq_true, beq_iff_eq, beq_iff_eq,
    isPrefixOf_iff_prefix, hm]
  constructor
  · rintro (heq | ⟨⟨t, ht⟩, hslash⟩)
    · exact render_injective hcs hstack heq ▸ prefix_rfl
    · rw [← ht] at hslash
      obtain ⟨t', rfl⟩ := getElem?_byteLen_eq_slash.mp hslash
      have hcsne : cs ≠ [] := by
        rintro rfl
        have := congrArg length ht
        simp [render] at this
      have hsplit := congrArg (splitOn '/') ht
      rw [splitOn_append_cons_self, splitOn_render hstack hne, splitOn_render hcs hcsne,
        cons_append] at hsplit
      exact ⟨_, (cons.inj hsplit).2⟩
  · rintro ⟨rest, rfl⟩
    rcases eq_or_ne rest [] with rfl | hrest
    · exact .inl (by rw [append_nil])
    · rw [render_append hne hrest]
      exact .inr ⟨prefix_append _ _, getElem?_byteLen_eq_slash.mpr ⟨_, rfl⟩⟩

theorem trimStart_slash (path : Path) : trimStart ('/' :: path) = trimStart path := rfl

/-- Components joined by slashes do not start with one. -/
theorem trimStart_intercalate (h : Proper rest) :
    trimStart (['/'].intercalate rest) = ['/'].intercalate rest := by
  rcases rest with _ | ⟨part, rest⟩
  · rfl
  · obtain ⟨hne, -, -, hslash⟩ := h part mem_cons_self
    obtain ⟨c, cs, rfl⟩ := exists_cons_of_ne_nil hne
    have hc : c ≠ '/' := fun hc => hslash (hc ▸ mem_cons_self)
    have hhead : ∃ t, ['/'].intercalate ((c :: cs) :: rest) = c :: t := by
      rcases eq_or_ne rest [] with rfl | hrest
      · exact ⟨cs, intercalate_singleton⟩
      · exact ⟨_, by rw [intercalate_cons_of_ne_nil hrest]; rfl⟩
    obtain ⟨t, ht⟩ := hhead
    rw [ht, trimStart, dropWhile_cons_of_neg (by simpa using hc)]

theorem trimStart_render (h : Proper stack) :
    trimStart (render stack) = ['/'].intercalate stack := by
  rw [render, trimStart_slash, trimStart_intercalate h]

/-- What is left of a path behind a mount point are the remaining components. -/
theorem trimStart_dropBytes_render (h : Proper (stack ++ rest)) (hne : stack ≠ []) :
    trimStart (dropBytes (byteLen (render stack)) (render (stack ++ rest))) =
      ['/'].intercalate rest := by
  rcases eq_or_ne rest [] with rfl | hrest
  · have hdrop := dropBytes_append (render stack) []
    rw [append_nil] at hdrop
    rw [append_nil, hdrop]
    rfl
  · rw [render_append hne hrest, dropBytes_append, trimStart_slash,
      trimStart_intercalate h.append.2]

namespace VirtualFileSystem

/-- **The file system a stack of components is resolved to**, with the components that
remain: it is mounted at a prefix of the stack, and nothing is mounted at a longer one. -/
def Resolves (v : VirtualFileSystem Fs) (cs : List (List Char)) (fs : Fs)
    (rest : List (List Char)) : Prop :=
  ∃ stack, cs = stack ++ rest ∧ v.Mounted stack fs ∧
    ∀ stack' fs', stack' <+: cs → v.Mounted stack' fs' → stack'.length ≤ stack.length

variable {v : VirtualFileSystem Fs}

/-- At most one file system is mounted at a stack. -/
theorem Canonical.mounted_unique (hv : v.Canonical) {fs fs' : Fs}
    (h : v.Mounted stack fs) (h' : v.Mounted stack fs') : fs = fs' := by
  rcases h with ⟨rfl, hroot⟩ | ⟨hne, m, hm, hpath, rfl⟩
  · rcases h' with ⟨-, hroot'⟩ | ⟨hne, -⟩
    · exact Option.some.inj (hroot.symm.trans hroot')
    · exact absurd rfl hne
  · rcases h' with ⟨rfl, -⟩ | ⟨-, m', hm', hpath', rfl⟩
    · exact absurd rfl hne
    · exact congrArg MountPoint.fs
        (inj_on_of_nodup_map hv.distinct hm hm' (hpath.trans hpath'.symm))

/-- Resolution is a partial function. -/
theorem Canonical.resolves_unique (hv : v.Canonical) {rest' : List (List Char)}
    {fs fs' : Fs} (h : v.Resolves cs fs rest) (h' : v.Resolves cs fs' rest') :
    fs = fs' ∧ rest = rest' := by
  obtain ⟨stack, hcs, hm, hmax⟩ := h
  obtain ⟨stack', hcs', hm', hmax'⟩ := h'
  have hlen : stack.length = stack'.length :=
    le_antisymm (hmax' _ _ ⟨_, hcs.symm⟩ hm) (hmax _ _ ⟨_, hcs'.symm⟩ hm')
  obtain ⟨rfl, rfl⟩ := append_inj (hcs.symm.trans hcs') hlen
  exact ⟨hv.mounted_unique hm hm', rfl⟩

/-- **The loop over the mount points** finds the longest one whose components are a prefix
of the path's, if there is one. -/
theorem Canonical.selected_spec (hv : v.Canonical) (hcs : Proper cs) :
    (v.selected (render cs) = none ∧ ∀ stack fs, stack <+: cs → v.Mounted stack fs → stack = []) ∨
      ∃ m stack rest, v.selected (render cs) = some m ∧ m ∈ v.mounts ∧ stack ≠ [] ∧
        m.path = render stack ∧ cs = stack ++ rest ∧
        ∀ stack' fs', stack' <+: cs → v.Mounted stack' fs' → stack'.length ≤ stack.length := by
  rcases keepLargest_spec (fun m : MountPoint Fs => m.covers (render cs))
    (fun m => byteLen m.path) v.mounts with ⟨hnone, hall⟩ | ⟨m, hsome, hm, hcov, hmax⟩
  · refine .inl ⟨hnone, fun stack fs hpre hmount => ?_⟩
    rcases hmount with ⟨hnil, -⟩ | ⟨hne, m, hm, hpath, -⟩
    · exact hnil
    · have hproper : Proper stack := fun c hc => hcs c (hpre.subset hc)
      have hcov := (covers_render hpath hproper hne hcs).mpr hpre
      rw [hall m hm] at hcov
      cases hcov
  · obtain ⟨stack, hne, hproper, hpath⟩ := hv.proper m hm
    obtain ⟨rest, hrest⟩ := (covers_render hpath hproper hne hcs).mp hcov
    refine .inr ⟨m, stack, rest, hsome, hm, hne, hpath, hrest.symm, fun stack' fs' hpre h' => ?_⟩
    rcases h' with ⟨rfl, -⟩ | ⟨hne', m', hm', hpath', -⟩
    · exact zero_le _
    -- A longer prefix would have a longer path, and the loop would have preferred it.
    · have hproper' : Proper stack' := fun c hc => hcs c (hpre.subset hc)
      have hle := hmax m' hm' ((covers_render hpath' hproper' hne' hcs).mpr hpre)
      by_contra hlt
      obtain ⟨tail, rfl⟩ := prefix_of_prefix_length_le ⟨rest, hrest⟩ hpre (by omega)
      have htail : tail ≠ [] := by
        rintro rfl
        simp at hlt
      have := byteLen_render_lt hproper' htail
      rw [hpath, hpath'] at hle
      omega

/-- **What `resolve_path` finds for a path in normal form.** -/
theorem Canonical.locate_render (hv : v.Canonical) (hcs : Proper cs) :
    (∃ fs rest, v.Resolves cs fs rest ∧ v.locate (render cs) = .ok (fs, ['/'].intercalate rest)) ∨
    ((∀ stack fs, stack <+: cs → ¬v.Mounted stack fs) ∧
      v.locate (render cs) = .error .notFound) := by
  rw [locate]
  rcases hv.selected_spec hcs with
    ⟨hnone, hall⟩ | ⟨m, stack, rest, hsome, hm, hne, hpath, rfl, hmax⟩
  · rw [hnone]
    rcases hroot : v.rootFs with _ | fs
    · refine .inr ⟨fun stack fs hpre hmount => ?_, rfl⟩
      rcases hmount with ⟨-, hfs⟩ | ⟨hne, hmount⟩
      · rw [hroot] at hfs
        cases hfs
      · exact hne (hall stack fs hpre (.inr ⟨hne, hmount⟩))
    · refine .inl ⟨fs, cs, ⟨[], rfl, .inl ⟨rfl, hroot⟩, fun stack' fs' hpre hmount => ?_⟩, ?_⟩
      · rw [hall stack' fs' hpre hmount]
      · simp only [trimStart_render hcs]
  · rw [hsome]
    refine .inl ⟨m.fs, rest, ⟨stack, rfl, .inr ⟨hne, m, hm, hpath, rfl⟩, hmax⟩, ?_⟩
    simp only [hpath, trimStart_dropBytes_render hcs hne]

theorem resolvePath_of_fits (h : Fits path cwd) (out : Buffer) :
    v.resolvePath path cwd out = v.locate (render (resolved path cwd)) := by
  rw [resolvePath, normalizePathInto_eq, if_pos h]
  rfl

theorem resolvePath_of_not_fits (h : ¬Fits path cwd) {out : Buffer} :
    v.resolvePath path cwd out = .error .invalidPath := by
  rw [resolvePath, normalizePathInto_eq, if_neg h]
  rfl

/-- Mounting at a canonical path keeps the mount table canonical. -/
theorem Canonical.mount (hv : v.Canonical) (hstack : Proper stack)
    {fs : Fs} {v' : VirtualFileSystem Fs} (h : v.mount (render stack) fs = .ok v') :
    v'.Canonical := by
  rw [VirtualFileSystem.mount] at h
  split_ifs at h with hroot hpath hdup
  · cases h
    exact ⟨hv.proper, hv.distinct⟩
  · cases h
    have hne : stack ≠ [] := by
      rintro rfl
      exact hroot rfl
    refine ⟨fun m hm => ?_, ?_⟩
    · rcases mem_append.mp hm with hm | hm
      · exact hv.proper m hm
      · exact ⟨stack, hne, hstack, by rw [mem_singleton.mp hm]⟩
    · rw [map_append, nodup_append]
      refine ⟨hv.distinct, nodup_singleton _, fun p hp p' hp' heq => hdup ?_⟩
      obtain ⟨m, hm, rfl⟩ := mem_map.mp hp
      rw [any_eq_true]
      exact ⟨m, hm, beq_iff_eq.mpr (heq.trans (mem_singleton.mp hp'))⟩

theorem Mounted.of_perm {v' : VirtualFileSystem Fs} (hroot : v'.rootFs = v.rootFs)
    (hperm : v'.mounts.Perm v.mounts) {fs : Fs}
    (h : v.Mounted stack fs) : v'.Mounted stack fs := by
  rcases h with ⟨hnil, hfs⟩ | ⟨hne, m, hm, hpath, hfs⟩
  · exact .inl ⟨hnil, hroot.trans hfs⟩
  · exact .inr ⟨hne, m, hperm.mem_iff.mpr hm, hpath, hfs⟩

/-- **Where a path is resolved to.** -/
theorem Canonical.resolvePath_eq_ok_iff (hv : v.Canonical) (path cwd : Path) (out : Buffer)
    (fs : Fs) (relative : Path) :
    v.resolvePath path cwd out = .ok (fs, relative) ↔ Fits path cwd ∧
        ∃ rest, v.Resolves (resolved path cwd) fs rest ∧ relative = ['/'].intercalate rest := by
  constructor
  · intro h
    by_cases hfits : Fits path cwd
    · rw [resolvePath_of_fits hfits] at h
      rcases hv.locate_render (proper_resolved path cwd) with ⟨fs', rest, hres, heq⟩ | ⟨-, heq⟩
      · rw [heq] at h
        cases h
        exact ⟨hfits, rest, hres, rfl⟩
      · rw [heq] at h
        cases h
    · rw [resolvePath_of_not_fits hfits] at h
      cases h
  · rintro ⟨hfits, rest, hres, rfl⟩
    rw [resolvePath_of_fits hfits]
    rcases hv.locate_render (proper_resolved path cwd) with ⟨fs', rest', hres', heq⟩ | ⟨hnone, -⟩
    · obtain ⟨rfl, rfl⟩ := hv.resolves_unique hres hres'
      exact heq
    · obtain ⟨stack, hcs, hm, -⟩ := hres
      exact absurd hm (hnone stack fs ⟨_, hcs.symm⟩)

/-- **When a path is not found**: nothing is mounted on the way to it. -/
theorem Canonical.resolvePath_eq_notFound_iff (hv : v.Canonical) (path cwd : Path) (out : Buffer) :
    v.resolvePath path cwd out = .error .notFound ↔
      Fits path cwd ∧ ∀ stack fs, stack <+: resolved path cwd → ¬v.Mounted stack fs := by
  constructor
  · intro h
    by_cases hfits : Fits path cwd
    · rw [resolvePath_of_fits hfits] at h
      rcases hv.locate_render (proper_resolved path cwd) with ⟨fs', rest, -, heq⟩ | ⟨hnone, -⟩
      · rw [heq] at h
        cases h
      · exact ⟨hfits, hnone⟩
    · rw [resolvePath_of_not_fits hfits] at h
      cases h
  · rintro ⟨hfits, hnone⟩
    rw [resolvePath_of_fits hfits]
    rcases hv.locate_render (proper_resolved path cwd) with
      ⟨fs', rest, ⟨stack, hcs, hm, -⟩, -⟩ | ⟨-, heq⟩
    · exact absurd hm (hnone stack fs' ⟨_, hcs.symm⟩)
    · exact heq

/-- **When a path is invalid**: the buffer has no room for it. -/
theorem Canonical.resolvePath_eq_invalidPath_iff (hv : v.Canonical) (path cwd : Path)
    (out : Buffer) : v.resolvePath path cwd out = .error .invalidPath ↔ ¬Fits path cwd := by
  refine ⟨fun h hfits => ?_, fun hfits => resolvePath_of_not_fits hfits⟩
  rw [resolvePath_of_fits hfits] at h
  rcases hv.locate_render (proper_resolved path cwd) with ⟨fs, rest, -, heq⟩ | ⟨-, heq⟩
  · rw [heq] at h
    cases h
  · rw [heq] at h
    cases h

/-- Resolution depends on what is mounted where, not on the order of mounting. -/
theorem Canonical.resolvePath_of_perm (hv : v.Canonical) {v' : VirtualFileSystem Fs}
    (hroot : v'.rootFs = v.rootFs) (hperm : v'.mounts.Perm v.mounts) (path cwd : Path)
    (out : Buffer) : v'.resolvePath path cwd out = v.resolvePath path cwd out := by
  have hv' : v'.Canonical := ⟨fun m hm => hv.proper m (hperm.mem_iff.mp hm),
    (hperm.map MountPoint.path).nodup_iff.mpr hv.distinct⟩
  have hto : ∀ {stack fs}, v.Mounted stack fs → v'.Mounted stack fs := .of_perm hroot hperm
  have hfrom : ∀ {stack fs}, v'.Mounted stack fs → v.Mounted stack fs :=
    .of_perm hroot.symm hperm.symm
  by_cases hfits : Fits path cwd
  · rw [v.resolvePath_of_fits hfits]
    rcases hv.locate_render (proper_resolved path cwd) with
      ⟨fs, rest, ⟨stack, hcs, hm, hmax⟩, heq⟩ | ⟨hnone, heq⟩
    · rw [heq, hv'.resolvePath_eq_ok_iff]
      exact ⟨hfits, rest, ⟨stack, hcs, hto hm, fun stack' fs' hpre hm' =>
        hmax stack' fs' hpre (hfrom hm')⟩, rfl⟩
    · rw [heq, hv'.resolvePath_eq_notFound_iff]
      exact ⟨hfits, fun stack fs hpre hm => hnone stack fs hpre (hfrom hm)⟩
  · rw [resolvePath_of_not_fits hfits, resolvePath_of_not_fits hfits]

end VirtualFileSystem

/-- A normal form is its own normal form, in whatever directory and buffer. -/
theorem normalizePathInto_idempotent {out : Buffer} {normalized : Path}
    (h : normalizePathInto path cwd out = .ok normalized) (cwd' : Path) (out' : Buffer) :
    normalizePathInto normalized cwd' out' = .ok normalized := by
  rw [normalizePathInto_eq] at h
  split_ifs at h with hfits
  cases h
  have hproper := proper_resolved path cwd
  rw [normalizePathInto_eq, if_pos (fits_render hproper (byteLen_resolved_le hfits)),
    resolved_render hproper]

/-- **Path resolution.** For a mount table with distinct canonical paths, any working
directory and any path: the normal form is the stack that the path leads to, and it is
refused only if a stack on the way needs more than the buffer; a normal form is its own
normal form; the path is resolved to the file system mounted at the longest prefix of the
stack, with the remaining components, and not found only if nothing is mounted at any
prefix; and the order of mounting plays no part. -/
theorem path_resolution (v : VirtualFileSystem Fs) (hv : v.Canonical) (path cwd : Path)
    (out : Buffer) :
    normalizePathInto path cwd out =
        (if Fits path cwd then .ok (render (resolved path cwd)) else .error .invalidPath) ∧
      (∀ normalized, normalizePathInto path cwd out = .ok normalized →
        ∀ cwd' out', normalizePathInto normalized cwd' out' = .ok normalized) ∧
      (∀ fs relative, v.resolvePath path cwd out = .ok (fs, relative) ↔
        Fits path cwd ∧
          ∃ rest, v.Resolves (resolved path cwd) fs rest ∧ relative = ['/'].intercalate rest) ∧
      (v.resolvePath path cwd out = .error .notFound ↔
        Fits path cwd ∧ ∀ stack fs, stack <+: resolved path cwd → ¬v.Mounted stack fs) ∧
      (v.resolvePath path cwd out = .error .invalidPath ↔ ¬Fits path cwd) ∧
      ∀ v' : VirtualFileSystem Fs, v'.rootFs = v.rootFs → v'.mounts.Perm v.mounts →
        v'.resolvePath path cwd out = v.resolvePath path cwd out :=
  ⟨normalizePathInto_eq path cwd out, fun _ h => normalizePathInto_idempotent h,
    hv.resolvePath_eq_ok_iff path cwd out, hv.resolvePath_eq_notFound_iff path cwd out,
    hv.resolvePath_eq_invalidPath_iff path cwd out, fun _ hroot hperm =>
      hv.resolvePath_of_perm hroot hperm path cwd out⟩

/-- A disk mounted on the way to another one. -/
def nestedMounts : VirtualFileSystem ℕ :=
  ⟨some 0, [⟨"/mnt".toList, 1⟩, ⟨"/mnt/usb".toList, 2⟩]⟩

theorem canonical_nestedMounts : nestedMounts.Canonical := by
  refine ⟨fun m hm => ?_, by decide⟩
  rcases mem_cons.mp hm with rfl | hm
  · exact ⟨["mnt".toList], by decide, by simp [Proper, Component], rfl⟩
  · rw [mem_singleton.mp hm]
    exact ⟨["mnt".toList, "usb".toList], by decide, by simp [Proper, Component], rfl⟩

theorem path_resolution_nestedMounts :
    nestedMounts.Canonical ∧
      normalizePathInto "./usb/../usb//a".toList "/mnt".toList
        ⟨.replicate 256 0, List.length_replicate⟩ = .ok "/mnt/usb/a".toList := by
  refine ⟨canonical_nestedMounts, ?_⟩
  refine (path_resolution nestedMounts canonical_nestedMounts _ _ _).1.trans ?_
  rw [if_pos (by decide)]
  decide

end

end DunitOS.Vfs
