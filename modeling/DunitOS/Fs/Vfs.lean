import DunitOS.SysLib.Bytes
import Mathlib.Data.List.DropRight

/-!
# What the virtual file system and its back ends share

The vocabulary of `kernel/src/fs/vfs.rs` that every file system speaks: the errors a
call can return, the kinds of files, the open flags with the rules for combining
them, and the few string operations that paths go through. A path is a list of
characters; where the code counts bytes it counts those of the UTF-8 encoding.
-/

namespace DunitOS.Vfs

open SysLib List

/-! ### Errors, file types and open flags -/

/-- The errors of a file system call. -/
inductive VfsError where
  | notFound
  | permissionDenied
  | invalidDescriptor
  | alreadyExists
  | notADirectory
  | isADirectory
  | invalidPath
  | unsupported
  | ioError
  | directoryNotEmpty
  | fileTooBig
  deriving DecidableEq, Repr

/-- The kinds of files. -/
inductive FileType where
  | file
  | directory
  | device
  deriving DecidableEq, Repr

/-- The flags of an `open` call. -/
structure OpenFlags where
  bits : UInt32
  deriving DecidableEq, Repr

namespace OpenFlags

def READ : OpenFlags := ⟨1⟩

def WRITE : OpenFlags := ⟨2⟩

def CREATE : OpenFlags := ⟨4⟩

def TRUNC : OpenFlags := ⟨8⟩

def APPEND : OpenFlags := ⟨16⟩

def EXCL : OpenFlags := ⟨32⟩

def validBits : UInt32 :=
  READ.bits ||| WRITE.bits ||| CREATE.bits ||| TRUNC.bits ||| APPEND.bits ||| EXCL.bits

def contains (self other : OpenFlags) : Bool := (self.bits &&& other.bits) == other.bits

def canRead (self : OpenFlags) : Bool := self.contains READ

def canWrite (self : OpenFlags) : Bool := self.contains WRITE

def create (self : OpenFlags) : Bool := self.contains CREATE

def trunc (self : OpenFlags) : Bool := self.contains TRUNC

def append (self : OpenFlags) : Bool := self.contains APPEND

def isExclusive (self : OpenFlags) : Bool := self.contains EXCL

/-- Which combinations of flags make sense: no unknown bit, an access mode,
truncation and appending only with write access, exclusive only with create. -/
def isValid (self : OpenFlags) : Bool :=
  let hasUnknown := (self.bits &&& ~~~validBits) != 0
  let hasAccessMode := self.canRead || self.canWrite
  let writeOnlyModifiersOk := (!self.trunc && !self.append) || self.canWrite
  let exclNeedsCreate := !self.isExclusive || self.create
  !hasUnknown && hasAccessMode && writeOnlyModifiersOk && exclNeedsCreate

end OpenFlags

/-! ### Paths -/

/-- A path, as a text. -/
abbrev Path : Type := List Char

/-- The length of a text in bytes (`str::len`). -/
def byteLen (s : List Char) : ℕ := (utf8 s).length

theorem byteLen_eq_zero {s : List Char} : byteLen s = 0 ↔ s = [] := by
  refine ⟨fun h => ?_, fun h => by rw [h]; rfl⟩
  have hnil : utf8 s = utf8 [] := length_eq_zero_iff.mp h
  have hs := fromUtf8_utf8 s
  rw [hnil, fromUtf8_utf8] at hs
  exact (Option.some.inj hs).symm

/-- `path.trim_matches('/')`: the path without the slashes at its two ends. -/
def trimSlashes (path : Path) : Path := (path.dropWhile (· == '/')).rdropWhile (· == '/')

/-- The part of a path before its last slash (`path.rfind('/')`), if it has one. -/
def beforeLastSlash (path : Path) : Option Path :=
  if '/' ∈ path then some (path.rdropWhile (· != '/')).dropLast else none

/-- The part of a path after its last slash (`path.rsplit('/').next()`). -/
def basename (path : Path) : List Char := path.rtakeWhile (· != '/')

/-- An entry of a directory listing: the bytes of the name, 64 at most, and the type. -/
structure DirEntry where
  name : List UInt8
  fileType : FileType
  deriving DecidableEq

def DirEntry.new (name : List Char) (fileType : FileType) : DirEntry :=
  ⟨(utf8 name).take 64, fileType⟩

/-- A path that is not empty and has no slash at either end: what
`trimSlashes` leaves of any path that is more than slashes. -/
def Trimmed (path : Path) : Prop := path ≠ [] ∧ path.head? ≠ some '/' ∧ path.getLast? ≠ some '/'

instance (path : Path) : Decidable (Trimmed path) := inferInstanceAs (Decidable (_ ∧ _))

/-- A component of a path in the normal form of the VFS: neither empty, nor `.`, nor
`..`, and without a slash. -/
def Component (c : List Char) : Prop := c ≠ [] ∧ c ≠ ['.'] ∧ c ≠ ['.', '.'] ∧ '/' ∉ c

/-- **A relative path as the VFS hands it to a file system**: components separated by
single slashes, or the empty path for the root of the mount. -/
def Normalised (path : Path) : Prop :=
  ∃ cs : List (List Char), (∀ c ∈ cs, Component c) ∧ path = ['/'].intercalate cs

/-! ### Slashes at the ends -/

section

theorem head?_dropWhile_slash (p : Path) : (p.dropWhile (· == '/')).head? ≠ some '/' := by
  induction p with
  | nil => simp
  | cons c p ih =>
    rw [dropWhile_cons]
    by_cases hc : c = '/'
    · simpa [hc] using ih
    · simp [hc]

theorem getLast?_rdropWhile_slash (p : Path) : (p.rdropWhile (· == '/')).getLast? ≠ some '/' := by
  rw [rdropWhile, getLast?_reverse]
  exact head?_dropWhile_slash _

theorem trimSlashes_eq_nil_or_trimmed (p : Path) :
    trimSlashes p = [] ∨ Trimmed (trimSlashes p) := by
  rcases eq_or_ne (trimSlashes p) [] with h | h
  · exact Or.inl h
  · refine Or.inr ⟨h, ?_, getLast?_rdropWhile_slash _⟩
    obtain ⟨t, ht⟩ := rdropWhile_prefix (· == '/') (l := p.dropWhile (· == '/'))
    have hhead : (trimSlashes p ++ t).head? = (trimSlashes p).head? :=
      head?_append_of_ne_nil _ h
    rw [← hhead, trimSlashes, ht]
    exact head?_dropWhile_slash p

/-- A path without slashes at its ends is left alone. -/
theorem trimSlashes_of_trimmed {p : Path} (h : Trimmed p) : trimSlashes p = p := by
  obtain ⟨hne, hhead, hlast⟩ := h
  have h1 : p.dropWhile (· == '/') = p := by
    cases p with
    | nil => rfl
    | cons c =>
      have hc : c ≠ '/' := fun hc => hhead (by simp [hc])
      simp [hc]
  rw [trimSlashes, h1]
  refine rdropWhile_eq_self_iff.mpr fun hl => ?_
  rw [getLast?_eq_some_getLast hl] at hlast
  simpa using fun hc => hlast (by rw [hc])

@[simp] theorem trimSlashes_trimSlashes (p : Path) :
    trimSlashes (trimSlashes p) = trimSlashes p := by
  rcases trimSlashes_eq_nil_or_trimmed p with h | h
  · rw [h]
    rfl
  · exact trimSlashes_of_trimmed h

end

end DunitOS.Vfs
