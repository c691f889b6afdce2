import DunitOS.Kernel.Elf
import DunitOS.SysLib.Bytes

/-!
# The table of program headers

An ELF file says itself where its program headers are: at `phoff`, `phnum` of them, `phentsize`
bytes each. `program_headers` of `kernel/src/elf/mod.rs` checks that they end before the file does,
and the iterator checks the same of each header. Both add up the numbers of the file in machine
words, which wrap around.

`checked_iff` says that this is the only gap: the checks are as good as those
with unbounded numbers unless the sum wraps around to a number that the file has room for. Then a
header is read from in front of the file (`wrapped_table`).
-/

namespace DunitOS.Kernel.Elf

open SysLib List Nat Option

/-! ### The parser -/

/-- The errors of `ElfError` that are about headers. -/
inductive HeaderError
  | invalidMagic
  | invalidClass
  | invalidArchitecture
  | invalidType
  | invalidProgramHeader
  | tooManyProgramHeaders
  deriving DecidableEq

/-- The fields of an `ElfHeader` that the parser looks at. -/
structure ElfHeader where
  magic : List UInt8
  fileClass : ℕ
  elfType : ℕ
  machine : ℕ
  phoff : ℕ
  phentsize : ℕ
  phnum : ℕ
  deriving DecidableEq

def ElfHeader.decode (data : List UInt8) : ElfHeader :=
  ⟨slice data 0 4, getLe data 4 1, getLe data 16 2, getLe data 18 2, getLe data 32 8,
    getLe data 54 2, getLe data 56 2⟩

def elfHeaderSize : ℕ := 64

def elfMagic : List UInt8 := [0x7f, 0x45, 0x4c, 0x46]

structure ElfParser where
  data : Slice
  header : ElfHeader
  deriving DecidableEq

def ElfParser.new (data : Slice) : Except HeaderError ElfParser :=
  let header := ElfHeader.decode data.1
  if data.1.length < elfHeaderSize then .error .invalidMagic
  else if header.magic ≠ elfMagic then .error .invalidMagic
  else if header.fileClass ≠ 2 then .error .invalidClass
  else if header.machine ≠ 0x3e then .error .invalidArchitecture
  else if header.elfType ≠ 2 then .error .invalidType
  else .ok ⟨data, header⟩

structure ProgramHeaderIterator where
  data : Slice
  offset : ℕ
  count : ℕ
  index : ℕ
  entsize : ℕ
  deriving DecidableEq

def ElfParser.programHeaders (p : ElfParser) : Except HeaderError ProgramHeaderIterator :=
  if (p.header.phoff + p.header.phnum * p.header.phentsize % 2 ^ 64) % 2 ^ 64 > p.data.1.length then
    .error .invalidProgramHeader
  else if p.header.phnum > 256 then .error .tooManyProgramHeaders
  else .ok ⟨p.data, p.header.phoff, p.header.phnum, 0, p.header.phentsize⟩

def programHeaderSize : ℕ := 56

/-- The bytes of a header, without `p_paddr`, which nothing looks at. -/
def decodeProgramHeader (bytes : List UInt8) : ProgramHeader :=
  ⟨.ofNat (getLe bytes 0 4), .ofNat (getLe bytes 4 4), getLe bytes 8 8, getLe bytes 16 8,
    getLe bytes 32 8, getLe bytes 40 8, getLe bytes 48 8⟩

/-- The bytes at an offset from the start of a file. Nothing is known of those that are not in the
file. -/
def bytesAt (beyond : ℕ → UInt8) (data : Slice) (off : ℕ) : List UInt8 :=
  (range programHeaderSize).map fun k => data.1.getD (off + k) (beyond (off + k))

namespace ProgramHeaderIterator

def next (beyond : ℕ → UInt8) (it : ProgramHeaderIterator) :
    Option (ProgramHeader × ProgramHeaderIterator) :=
  if it.index ≥ it.count then none
  else
    let phOffset := (it.offset + it.index * it.entsize % 2 ^ 64) % 2 ^ 64
    if (phOffset + programHeaderSize) % 2 ^ 64 > it.data.1.length then none
    else some (decodeProgramHeader (bytesAt beyond it.data phOffset),
      { it with index := it.index + 1 })

/-- The header that comes after some others. -/
def nth (beyond : ℕ → UInt8) : ℕ → ProgramHeaderIterator → Option ProgramHeader
  | 0, it => (it.next beyond).map Prod.fst
  | i + 1, it => (it.next beyond).bind fun x => x.2.nth beyond i

end ProgramHeaderIterator

/-! ### What the checks are for -/

namespace ElfParser

/-- Where the table ends, by unbounded numbers. -/
def tableEnd (p : ElfParser) : ℕ := p.header.phoff + p.header.phnum * p.header.phentsize

/-- **The table is checked**: one that ends after the file is refused, and every header is made of
bytes of the file, those at its place in the table. -/
def Checked (beyond : ℕ → UInt8) (p : ElfParser) : Prop :=
  (p.data.1.length < p.tableEnd → ∃ e, p.programHeaders = .error e) ∧
    ∀ it, p.programHeaders = .ok it → ∀ i ph, it.nth beyond i = some ph →
      let off := p.header.phoff + i * p.header.phentsize
      off + programHeaderSize ≤ p.data.1.length ∧
        ph = decodeProgramHeader (slice p.data.1 off programHeaderSize)

end ElfParser

variable {beyond : ℕ → UInt8} {data : Slice} {p : ElfParser}

theorem bytesAt_eq_slice {off : ℕ} (h : off + programHeaderSize ≤ data.1.length) :
    bytesAt beyond data off = slice data.1 off programHeaderSize := by
  refine ext_getElem? fun k => ?_
  rw [getElem?_slice, bytesAt, getElem?_map]
  split_ifs with hk
  · rw [getElem?_range hk, map_some, getD_eq_getElem?_getD,
      getElem?_eq_getElem (show off + k < data.1.length by omega), getD_some]
  · rw [getElem?_eq_none (by rw [length_range]; omega), map_none]

/-- The iterator only counts. -/
theorem ProgramHeaderIterator.nth_eq_some {i : ℕ} {it : ProgramHeaderIterator} {ph : ProgramHeader}
    (h : it.nth beyond i = some ph) :
    ∃ it', ProgramHeaderIterator.next beyond { it with index := it.index + i } =
      some (ph, it') := by
  induction i generalizing it with
  | zero =>
    obtain ⟨⟨ph', it'⟩, hnext, rfl⟩ := map_eq_some_iff.mp h
    exact ⟨it', hnext⟩
  | succ i ih =>
    obtain ⟨⟨ph', it'⟩, hnext, hrest⟩ := bind_eq_some_iff.mp h
    obtain rfl : { it with index := it.index + 1 } = it' := by
      rw [next] at hnext
      dsimp only at hnext
      split_ifs at hnext
      exact (Prod.mk.inj (some.inj hnext)).2
    obtain ⟨it'', hih⟩ := ih hrest
    refine ⟨it'', ?_⟩
    rw [← hih, add_right_comm, add_assoc]

open ElfParser

open ElfHeader

/-- What is accepted is as it stands in the file. -/
theorem ElfParser.new_eq_ok (h : new data = .ok p) : p = ⟨data, decode data.1⟩ := by
  rw [new] at h
  split_ifs at h
  exact (Except.ok.inj h).symm

/-- A table that does not wrap around is checked. -/
theorem checked_of_tableEnd_lt (h : p.tableEnd < 2 ^ 64) : p.Checked beyond := by
  have hlen := p.data.2
  have hmul : p.header.phnum * p.header.phentsize % 2 ^ 64 = p.header.phnum * p.header.phentsize :=
    mod_eq_of_lt (lt_of_le_of_lt (le_add_left _ _) h)
  have hsum : (p.header.phoff + p.header.phnum * p.header.phentsize % 2 ^ 64) % 2 ^ 64 =
      p.tableEnd := by
    rw [hmul]
    exact mod_eq_of_lt h
  refine ⟨fun hlt => ⟨.invalidProgramHeader, ?_⟩, fun it hit i ph hph => ?_⟩
  · rw [programHeaders, hsum, if_pos hlt]
  · rw [programHeaders, hsum] at hit
    split_ifs at hit with hend hmany
    cases hit
    obtain ⟨it', hnext⟩ := ProgramHeaderIterator.nth_eq_some hph
    rw [ProgramHeaderIterator.next, zero_add] at hnext
    dsimp only at hnext
    split_ifs at hnext with hcount hfits
    -- the header starts before the end of the table
    have hle : i * p.header.phentsize ≤ p.header.phnum * p.header.phentsize :=
      mul_le_mul_right _ (le_of_not_ge hcount)
    have hsplit : p.tableEnd = p.header.phoff + p.header.phnum * p.header.phentsize := rfl
    have hoff : (p.header.phoff + i * p.header.phentsize % 2 ^ 64) % 2 ^ 64 =
        p.header.phoff + i * p.header.phentsize := by
      rw [mod_eq_of_lt (show i * p.header.phentsize < 2 ^ 64 by omega),
        mod_eq_of_lt (by omega)]
    rw [hoff] at hfits hnext
    rw [mod_eq_of_lt (by rw [programHeaderSize]; omega)] at hfits
    have hin := le_of_not_gt hfits
    exact ⟨hin, by rw [← bytesAt_eq_slice hin]; exact (Prod.mk.inj (some.inj hnext)).1.symm⟩

/-- **When the table is checked**: unless its end wraps around to a number that the file has room
for, and the headers are not too many anyway. -/
theorem checked_iff (beyond : ℕ → UInt8) (data : Slice) (p : ElfParser)
    (h : ElfParser.new data = .ok p) : p.Checked beyond ↔
      p.tableEnd < 2 ^ 64 ∨ data.1.length + 2 ^ 64 < p.tableEnd ∨ 256 < p.header.phnum := by
  obtain rfl := new_eq_ok h
  have hoff : (decode data.1).phoff < 256 ^ 8 := getLe_lt _ 32 8
  have hnum : (decode data.1).phnum < 256 ^ 2 := getLe_lt _ 56 2
  have hsize : (decode data.1).phentsize < 256 ^ 2 := getLe_lt _ 54 2
  generalize decode data.1 = header at hoff hnum hsize ⊢
  have hmul : header.phnum * header.phentsize < 2 ^ 32 :=
    lt_of_lt_of_le (mul_lt_mul'' hnum hsize) (by norm_num)
  have hend : tableEnd ⟨data, header⟩ = header.phoff + header.phnum * header.phentsize :=
    rfl
  have hsum : (header.phoff + header.phnum * header.phentsize % 2 ^ 64) % 2 ^ 64 =
      tableEnd ⟨data, header⟩ % 2 ^ 64 := by
    rw [mod_eq_of_lt (show header.phnum * header.phentsize < 2 ^ 64 by omega), hend]
  refine ⟨fun hchecked => ?_, fun hcond => ?_⟩
  · by_contra hnot
    rw [not_or, not_or, not_lt, not_lt, not_lt] at hnot
    obtain ⟨e, he⟩ := hchecked.1 (show data.1.length < _ by omega)
    rw [programHeaders, hsum, if_neg (show ¬_ > data.1.length by omega),
      if_neg (not_lt.mpr hnot.2.2)] at he
    cases he
  · rcases hcond with hlt | hgt
    · exact checked_of_tableEnd_lt hlt
    -- the table is refused
    have herror : ∃ e, programHeaders ⟨data, header⟩ = .error e := by
      rw [programHeaders, hsum]
      split_ifs with hlong hmany
      · exact ⟨_, rfl⟩
      · exact ⟨_, rfl⟩
      · exact absurd (hgt.resolve_right hmany) (by dsimp only at hlong; omega)
    refine ⟨fun _ => herror, fun it hit => ?_⟩
    obtain ⟨e, he⟩ := herror
    rw [he] at hit
    cases hit

/-- A file that is nothing but a header, with a table of one program header. -/
def oneHeader (phoff : ℕ) : List UInt8 :=
  elfMagic ++ [2, 1, 1] ++ replicate 9 0 ++ leBytes 2 2 ++ leBytes 2 0x3e ++ replicate 12 0 ++
    leBytes 8 phoff ++ replicate 14 0 ++ leBytes 2 programHeaderSize ++ leBytes 2 1 ++ replicate 6 0

/-- A table inside the file is checked. -/
theorem checked_iff_inside :
    ElfParser.Checked (fun _ => 0) ⟨⟨oneHeader 8, by decide⟩, ElfHeader.decode (oneHeader 8)⟩ :=
  (checked_iff (fun _ => 0) ⟨oneHeader 8, by decide⟩ _ rfl).mpr (.inl (by decide))

/-- **A table that wraps around**: it ends far after the file and is accepted, and its header is
made of bytes that are not in the file. -/
theorem wrapped_table :
    let data : Slice := ⟨oneHeader (2 ^ 64 - 56), by decide⟩
    let p : ElfParser := ⟨data, ElfHeader.decode data.1⟩
    let it : ProgramHeaderIterator := ⟨data, 2 ^ 64 - 56, 1, 0, 56⟩
    ElfParser.new data = .ok p ∧ data.1.length < p.tableEnd ∧ p.programHeaders = .ok it ∧
      it.nth (fun _ => 0xff) 0 = some (decodeProgramHeader (replicate 56 0xff)) := by
  decide

end DunitOS.Kernel.Elf
