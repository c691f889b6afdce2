import DunitOS.Kernel.Elf
import DunitOS.SysLib.Paged

/-!
# The initial stack of a process

A model of `prepare_initial_stack` of `kernel/src/elf/mod.rs` and of its helpers. Strings are pushed
downward from the top of the stack, then sixteen random bytes at an aligned address, then the words
of the table that a process finds at its stack pointer: the number of arguments, the pointers to the
arguments and to the environment, each list closed by a null pointer, and the auxiliary vector.

The memory of the process is a paged memory (`SysLib.Paged`): a page of it that is not mapped, an
address outside of user space and one that does not fit a `usize` all end in the same error. The
reading of the time-stamp counter that seeds the random bytes is a parameter.

What a process reads there is a definition of its own (`readStack`), written after the System V ABI
and not after the code.

The invariant of the writing is a list of the objects placed so far, in the order of their addresses
(`Placed`): each step puts one more below all others, and objects that touch can be taken together
(`Placed.merge`), which is how the words become one table.
-/

namespace DunitOS.Kernel.Elf

open SysLib Prog Memory List Option

abbrev UserMemory : Type := Paged pageSize

inductive ElfError where
  | invalidProgramHeader
  deriving DecidableEq, Repr

/-- The memory, and the stack pointer so far. -/
structure Writer where
  mem : UserMemory
  sp : ℕ

abbrev W (α : Type) : Type := Prog Writer ElfError α

def maxExecArgs : ℕ := 16
def maxExecArgLen : ℕ := 128

def atPagesz : ℕ := 6
def atSecure : ℕ := 23
def atRandom : ℕ := 25

structure InitialStack where
  rsp : ℕ
  argc : ℕ
  argv : ℕ
  envp : ℕ
  deriving DecidableEq, Repr

def writeUserBytes (addr : ℕ) (bytes : List UInt8) : W Unit := fun w =>
  match w.mem.write addr bytes with
  | (true, mem) => (.ok (), { w with mem })
  | (false, mem) => (.error .invalidProgramHeader, { w with mem })

def writeUserU64 (addr value : ℕ) : W Unit := writeUserBytes addr (leBytes 8 value)

/-- `sp.checked_sub(count)`. -/
def lower (count : ℕ) : W ℕ := fun w =>
  if w.sp < count then (.error .invalidProgramHeader, w)
  else (.ok (w.sp - count), { w with sp := w.sp - count })

def pushUserU64 (value : ℕ) : W Unit := do
  let sp ← lower 8
  writeUserU64 sp value

def writeStackString (value : List UInt8) : W ℕ := do
  refuse (decide (maxExecArgLen < value.length)) .invalidProgramHeader
  let sp ← lower (value.length + 1)
  writeUserBytes sp value
  writeUserBytes (sp + value.length) [0]
  pure sp

/-- `*sp &= !0xF`. -/
def alignSp : W ℕ := fun w => (.ok (w.sp - w.sp % 16), { w with sp := w.sp - w.sp % 16 })

def writeStackBytes (bytes : List UInt8) : W ℕ := do
  let _ ← lower bytes.length
  let sp ← alignSp
  writeUserBytes sp bytes
  pure sp

/-- Push strings, and return their addresses in the order they were pushed. -/
def pushStrings : List (List UInt8) → W (List ℕ)
  | [] => pure []
  | value :: rest => do
    let ptr ← writeStackString value
    let ptrs ← pushStrings rest
    pure (ptr :: ptrs)

/-- The state of the generator after a step (`xorshift`). -/
def nextRandom (x : UInt64) : UInt64 :=
  let x := x ^^^ (x >>> 12)
  let x := x ^^^ (x <<< 25)
  x ^^^ (x >>> 27)

/-- Bytes from a state of the generator on. -/
def randomBytes : ℕ → UInt64 → List UInt8
  | 0, _ => []
  | count + 1, x =>
    ((nextRandom x * 0x2545F4914F6CDD1D) >>> 33).toUInt8 :: randomBytes count (nextRandom x)

/-- `fill_random`, of sixteen bytes, at a reading of the time-stamp counter. -/
def fillRandom (tsc : UInt64) : List UInt8 := randomBytes 16 (tsc ||| 1)

/-- The stack pointer, as a value. -/
def currentSp : W ℕ := fun w => (.ok w.sp, w)

def prepareInitialStack (argv env : List (List UInt8)) (tsc : UInt64) : W InitialStack := do
  refuse (argv.isEmpty || decide (maxExecArgs < argv.length) ||
    decide (maxExecArgs < env.length)) .invalidProgramHeader
  Prog.modify fun w => { w with sp := userStackTop - userStackTop % 16 }
  let argvPtrs ← pushStrings argv.reverse
  let argvPtrs := argvPtrs.reverse
  let envPtrs ← pushStrings env.reverse
  let envPtrs := envPtrs.reverse
  let randomPtr ← writeStackBytes (fillRandom tsc)
  let auxv := [(atPagesz, pageSize), (atSecure, 0), (atRandom, randomPtr)]
  let words := argvPtrs.length + envPtrs.length + 3
  let _ ← alignSp
  when (decide (words % 2 = 0)) (pushUserU64 0)
  pushUserU64 0
  pushUserU64 0
  forEach (fun entry : ℕ × ℕ => do
    pushUserU64 entry.2
    pushUserU64 entry.1) auxv.reverse
  pushUserU64 0
  forEach pushUserU64 envPtrs.reverse
  let envp ← currentSp
  pushUserU64 0
  forEach pushUserU64 argvPtrs.reverse
  let argvAddr ← currentSp
  pushUserU64 argvPtrs.length
  let sp ← currentSp
  if sp % 16 ≠ 8 then stop .invalidProgramHeader
  else pure ⟨sp, argvPtrs.length, argvAddr, envp⟩

/-! ### Objects on the stack -/

/-- An object: its address and its bytes. -/
abbrev Object : Type := ℕ × List UInt8

def stackBottom : ℕ := userStackTop - userStackSize

/-- **What has been placed** on the stack: the objects are in memory, in the order of their
addresses, between the stack pointer and the top. -/
structure Placed (w : Writer) (objs : List Object) : Prop where
  mapped : w.mem.Mapped stackBottom userStackTop
  sp_le : w.sp ≤ userStackTop
  holds : ∀ o ∈ objs, w.mem.Holds o.1 o.2
  above : ∀ o ∈ objs, w.sp ≤ o.1 ∧ o.1 + o.2.length ≤ userStackTop
  sorted : objs.Pairwise fun o o' => o.1 + o.2.length ≤ o'.1

variable {w : Writer} {objs : List Object}

theorem pageSize_pos : 0 < pageSize := by decide

variable {s : List UInt8} {a : ℕ}

theorem Placed.tail {o : Object} (h : Placed w (o :: objs)) : Placed w objs :=
  ⟨h.mapped, h.sp_le, fun _ ho => h.holds _ (mem_cons_of_mem _ ho),
    fun _ ho => h.above _ (mem_cons_of_mem _ ho), (pairwise_cons.mp h.sorted).2⟩

/-- An object that is below the others. -/
theorem Placed.cons (h : Placed w objs) (hnew : w.mem.Holds a s) (hsp : w.sp ≤ a)
    (htop : a + s.length ≤ userStackTop) (hbelow : ∀ o ∈ objs, a + s.length ≤ o.1) :
    Placed w ((a, s) :: objs) :=
  ⟨h.mapped, h.sp_le, forall_mem_cons.mpr ⟨hnew, h.holds⟩,
    forall_mem_cons.mpr ⟨⟨hsp, htop⟩, h.above⟩, pairwise_cons.mpr ⟨hbelow, h.sorted⟩⟩

/-- **One more object** below the others, in a memory that still holds the others. -/
theorem Placed.insert (h : Placed w objs) {mem : UserMemory}
    (hframe : mem.frame = w.mem.frame) (ha : a + s.length ≤ w.sp) (hnew : mem.Holds a s)
    (hkeep : ∀ b t, w.mem.Holds b t → w.sp ≤ b → mem.Holds b t) :
    Placed ⟨mem, a⟩ ((a, s) :: objs) := by
  have hle : a ≤ w.sp := (Nat.le_add_right _ _).trans ha
  have hold : Placed ⟨mem, a⟩ objs := by
    refine ⟨fun b h1 h2 => ?_, hle.trans h.sp_le, fun o ho => ?_, fun o ho => ?_, h.sorted⟩
    · show (mem.frame (b / pageSize)).isSome
      rw [hframe]
      exact h.mapped b h1 h2
    · exact hkeep _ _ (h.holds o ho) (h.above o ho).1
    · exact ⟨hle.trans (h.above o ho).1, (h.above o ho).2⟩
  exact hold.cons hnew (Nat.le_refl _) (ha.trans h.sp_le) fun o ho => ha.trans (h.above o ho).1

theorem Placed.mapped_at (h : Placed w objs) {len : ℕ} (hlow : stackBottom ≤ a)
    (ha : a + len ≤ w.sp) : w.mem.Mapped a (a + len) :=
  h.mapped.mono hlow (ha.trans h.sp_le)

/-- An object is written. -/
theorem Placed.push (h : Placed w objs) (hlow : stackBottom ≤ a)
    (ha : a + s.length ≤ w.sp) : (w.mem.write a s).1 = true ∧
      Placed ⟨(w.mem.write a s).2, a⟩ ((a, s) :: objs) := by
  have hmap := h.mapped_at hlow ha
  obtain ⟨hok, hframe, -⟩ := Paged.load_write pageSize_pos hmap
  exact ⟨hok, h.insert hframe ha (Paged.holds_write pageSize_pos hmap)
    fun b t hb hsp => hb.write pageSize_pos hmap (Or.inr (by omega))⟩

variable {t : List UInt8}

/-- Two objects that touch are one. -/
theorem Placed.merge {b : ℕ} (h : Placed w ((a, s) :: (b, t) :: objs))
    (hab : a + s.length = b) : Placed w ((a, s ++ t) :: objs) := by
  subst hab
  have ht := (h.tail.above _ mem_cons_self).2
  have hlen : a + (s ++ t).length = a + s.length + t.length := by
    rw [length_append, Nat.add_assoc]
  refine h.tail.tail.cons ((h.holds _ mem_cons_self).append (h.tail.holds _ mem_cons_self))
    (h.above _ mem_cons_self).1 (hlen ▸ ht) fun o ho => ?_
  rw [hlen]
  exact (pairwise_cons.mp h.tail.sorted).1 o ho

/-- An empty object at the stack pointer. -/
theorem Placed.start (h : Placed w objs) : Placed w ((w.sp, []) :: objs) :=
  h.cons (Paged.holds_nil _ _) (Nat.le_refl _) h.sp_le fun o ho => (h.above o ho).1

/-! ### The steps -/

variable {addr : ℕ}

theorem writeUserBytes_run {bytes : List UInt8} (h : (w.mem.write addr bytes).1 = true) :
    writeUserBytes addr bytes w = (.ok (), { w with mem := (w.mem.write addr bytes).2 }) := by
  rw [writeUserBytes]
  rcases hw : w.mem.write addr bytes with ⟨_ | _, mem⟩
  · rw [hw] at h
    cases h
  · rfl

theorem lower_run {count : ℕ} (h : count ≤ w.sp) :
    lower count w = (.ok (w.sp - count), { w with sp := w.sp - count }) := by
  rw [Elf.lower, if_neg (Nat.not_lt.mpr h)]

/-- **A word** is put in front of the table. -/
theorem pushUserU64_run (h : Placed w ((w.sp, t) :: objs)) (hlow : stackBottom + 8 ≤ w.sp) {v : ℕ} :
    ∃ w', pushUserU64 v w = (.ok (), w') ∧ w'.sp + 8 = w.sp ∧
      Placed w' ((w'.sp, leBytes 8 v ++ t) :: objs) := by
  have hlen : (leBytes 8 v).length = 8 := length_leBytes 8 v
  obtain ⟨hok, hplaced⟩ := h.push (a := w.sp - 8) (s := leBytes 8 v) (by omega) (by omega)
  refine ⟨⟨(w.mem.write (w.sp - 8) (leBytes 8 v)).2, w.sp - 8⟩, ?_, ?_, ?_⟩
  · rw [pushUserU64, bind_ok (lower_run (by omega))]
    exact writeUserBytes_run hok
  · show w.sp - 8 + 8 = w.sp
    omega
  · exact hplaced.merge (by omega)

/-- **Words that are pushed from the last to the first** are put in front of the table. -/
theorem pushWords_run (ws : List ℕ) (h : Placed w ((w.sp, t) :: objs))
    (hlow : stackBottom + 8 * ws.length ≤ w.sp) :
    ∃ w', forEach pushUserU64 ws.reverse w = (.ok (), w') ∧ w'.sp + 8 * ws.length = w.sp ∧
      Placed w' ((w'.sp, ws.flatMap (leBytes 8) ++ t) :: objs) := by
  induction ws with
  | nil => exact ⟨w, rfl, rfl, h⟩
  | cons v _ ih =>
    rw [length_cons] at hlow
    obtain ⟨w1, hrun1, hsp1, hplaced1⟩ := ih (by omega)
    obtain ⟨w2, hrun2, hsp2, hplaced2⟩ := pushUserU64_run hplaced1 (by omega)
    refine ⟨w2, ?_, ?_, ?_⟩
    · rw [reverse_cons, forEach_append, bind_ok hrun1]
      exact bind_ok hrun2
    · rw [length_cons]
      omega
    · rwa [flatMap_cons, append_assoc]

/-- **A string** is put below what is there, with its terminator. -/
theorem writeStackString_run (h : Placed w objs) {value : List UInt8}
    (hlen : value.length ≤ maxExecArgLen) (hlow : stackBottom + (value.length + 1) ≤ w.sp) :
    ∃ w', writeStackString value w = (.ok w'.sp, w') ∧ w'.sp + (value.length + 1) = w.sp ∧
      Placed w' ((w'.sp, value ++ [0]) :: objs) := by
  have hsp : w.sp - (value.length + 1) + (value.length + 1) = w.sp := by omega
  generalize hadef : w.sp - (value.length + 1) = a at hsp
  have hmap : w.mem.Mapped a (a + value.length) := h.mapped_at (by omega) (by omega)
  obtain ⟨hok, hframe, -⟩ := Paged.load_write pageSize_pos hmap
  -- the terminator is written last, but lies above the string
  have hmap' : (w.mem.write a value).2.Mapped (a + value.length)
      (a + value.length + [(0 : UInt8)].length) := by
    intro b h1 h2
    rw [hframe]
    have hboth : w.mem.Mapped a (a + (value.length + 1)) := h.mapped_at (by omega) (by omega)
    exact hboth b (by omega) h2
  obtain ⟨hok', hframe', -⟩ := Paged.load_write pageSize_pos hmap'
  refine ⟨⟨((w.mem.write a value).2.write (a + value.length) [0]).2, a⟩, ?_, hsp, ?_⟩
  · rw [writeStackString, refuse_bind_run, if_neg (by simpa using hlen),
      bind_ok (lower_run (by omega)), hadef,
      bind_ok (writeUserBytes_run (w := { w with sp := a }) hok),
      bind_ok (writeUserBytes_run hok')]
    rfl
  · have hlen' : (value ++ [(0 : UInt8)]).length = value.length + 1 := length_append
    refine h.insert (hframe'.trans hframe) (by omega) ?_ fun b t hb hle => ?_
    · exact ((Paged.holds_write pageSize_pos hmap).write pageSize_pos hmap'
        (Or.inl (Nat.le_refl _))).append (Paged.holds_write pageSize_pos hmap')
    · refine (hb.write pageSize_pos hmap (Or.inr (by omega))).write pageSize_pos hmap'
        (Or.inr ?_)
      show a + value.length + 1 ≤ b
      omega

/-- The objects that strings at some addresses are. -/
def stringsAt (ptrs : List ℕ) (values : List (List UInt8)) : List Object :=
  ptrs.zip (values.map (· ++ [0]))

variable {ptrs : List ℕ}

theorem pushStrings_append {l : List (List UInt8)} {value : List UInt8} {w w1 w2 : Writer} {ptr : ℕ}
    (hl : pushStrings l w = (.ok ptrs, w1))
    (hv : writeStackString value w1 = (.ok ptr, w2)) :
    pushStrings (l ++ [value]) w = (.ok (ptrs ++ [ptr]), w2) := by
  induction l generalizing w ptrs with
  | nil =>
    cases hl
    exact bind_ok hv
  | cons v l ih =>
    rcases hfirst : writeStackString v w with ⟨e | p, t⟩
    · have herr : pushStrings (v :: l) w = (.error e, t) := bind_error hfirst
      rw [hl] at herr
      cases herr
    have hl : (pushStrings l >>= fun ptrs => pure (p :: ptrs) : W (List ℕ)) t = (.ok ptrs, w1) :=
      (bind_ok hfirst).symm.trans hl
    rcases hrest : pushStrings l t with ⟨e | ps, u⟩
    · rw [bind_error hrest] at hl
      cases hl
    rw [bind_ok hrest] at hl
    cases hl
    exact (bind_ok hfirst).trans (bind_ok (ih hrest))

/-- **Strings that are pushed from the last to the first** lie one after the other. -/
theorem pushStrings_run (values : List (List UInt8))
    (hlen : ∀ v ∈ values, v.length ≤ maxExecArgLen) (h : Placed w objs)
    (hlow : stackBottom + 129 * values.length ≤ w.sp) :
    ∃ ptrs w', pushStrings values.reverse w = (.ok ptrs.reverse, w') ∧
      ptrs.length = values.length ∧ w.sp ≤ w'.sp + 129 * values.length ∧ w'.sp ≤ w.sp ∧
      Placed w' (stringsAt ptrs values ++ objs) := by
  induction values with
  | nil => exact ⟨[], w, rfl, rfl, by simp, Nat.le_refl _, h⟩
  | cons v _ ih =>
    rw [length_cons] at hlow
    obtain ⟨ptrs, w1, hrun, hcount, hle, hge, hplaced⟩ :=
      ih (fun u hu => hlen u (mem_cons_of_mem _ hu)) (by omega)
    have hv : v.length ≤ 128 := hlen v mem_cons_self
    obtain ⟨w2, hrun2, hsp2, hplaced2⟩ := writeStackString_run hplaced hv (by omega)
    refine ⟨w2.sp :: ptrs, w2, ?_, ?_, ?_, by omega, hplaced2⟩
    · rw [reverse_cons, reverse_cons]
      exact pushStrings_append hrun hrun2
    · rw [length_cons, length_cons, hcount]
    · rw [length_cons]
      omega

/-- **The random bytes** are put below what is there, at an aligned address. -/
theorem writeStackBytes_run (h : Placed w objs) (bytes : List UInt8)
    (hlow : stackBottom + bytes.length + 15 ≤ w.sp) :
    ∃ w', writeStackBytes bytes w = (.ok w'.sp, w') ∧ w'.sp % 16 = 0 ∧
      w.sp ≤ w'.sp + bytes.length + 15 ∧ Placed w' ((w'.sp, bytes) :: objs) := by
  generalize hadef : w.sp - bytes.length - (w.sp - bytes.length) % 16 = a
  obtain ⟨hok, hplaced⟩ := h.push (a := a) (s := bytes) (by omega) (by omega)
  refine ⟨⟨(w.mem.write a bytes).2, a⟩, ?_, ?_, ?_, hplaced⟩
  · rw [writeStackBytes, bind_ok (lower_run (by omega))]
    have halign : alignSp { w with sp := w.sp - bytes.length } = (.ok a, { w with sp := a }) := by
      rw [← hadef]
      rfl
    rw [bind_ok halign, bind_ok (writeUserBytes_run (w := { w with sp := a }) hok)]
    rfl
  · show a % 16 = 0
    omega
  · show w.sp ≤ a + bytes.length + 15
    omega

def pairWords (pairs : List (ℕ × ℕ)) : List ℕ := pairs.flatMap fun e => [e.1, e.2]

/-- **The pairs of the auxiliary vector** are put in front of the table. -/
theorem pushPairs_run (pairs : List (ℕ × ℕ)) (h : Placed w ((w.sp, t) :: objs))
    (hlow : stackBottom + 16 * pairs.length ≤ w.sp) :
    ∃ w', forEach (fun entry : ℕ × ℕ => do
        pushUserU64 entry.2
        pushUserU64 entry.1) pairs.reverse w = (.ok (), w') ∧
      w'.sp + 16 * pairs.length = w.sp ∧
      Placed w' ((w'.sp, (pairWords pairs).flatMap (leBytes 8) ++ t) :: objs) := by
  induction pairs with
  | nil => exact ⟨w, rfl, rfl, h⟩
  | cons e _ ih =>
    rw [length_cons] at hlow
    obtain ⟨w1, hrun1, hsp1, hplaced1⟩ := ih (by omega)
    obtain ⟨w2, hrun2, hsp2, hplaced2⟩ := pushUserU64_run hplaced1 (by omega)
    obtain ⟨w3, hrun3, hsp3, hplaced3⟩ := pushUserU64_run hplaced2 (by omega)
    refine ⟨w3, ?_, ?_, ?_⟩
    · rw [reverse_cons, forEach_append, bind_ok hrun1]
      exact bind_ok ((bind_ok hrun2).trans hrun3)
    · rw [length_cons]
      omega
    · simpa only [pairWords, flatMap_cons, append_assoc, cons_append, nil_append] using hplaced3

/-! ### What a process reads -/

def readU64 (mem : UserMemory) (addr : ℕ) : Option ℕ := (mem.read addr 8).map ofLe

/-- The words up to a null pointer. -/
def readPointers (mem : UserMemory) : ℕ → ℕ → Option (List ℕ)
  | _, 0 => none
  | addr, fuel + 1 => do
    let ptr ← readU64 mem addr
    if ptr = 0 then some []
    else
      let ptrs ← readPointers mem (addr + 8) fuel
      some (ptr :: ptrs)

/-- The pairs up to one of type zero. -/
def readAuxv (mem : UserMemory) : ℕ → ℕ → Option (List (ℕ × ℕ))
  | _, 0 => none
  | addr, fuel + 1 => do
    let aType ← readU64 mem addr
    let aVal ← readU64 mem (addr + 8)
    if aType = 0 then some []
    else
      let rest ← readAuxv mem (addr + 16) fuel
      some ((aType, aVal) :: rest)

/-- The strings behind some pointers. -/
def readStrings (mem : UserMemory) : List ℕ → Option (List (List UInt8))
  | [] => some []
  | ptr :: ptrs => do
    let value ← mem.readString ptr userStackSize
    let rest ← readStrings mem ptrs
    some (value :: rest)

/-- What a process finds on its stack. -/
structure Startup where
  argc : ℕ
  argv : List (List UInt8)
  env : List (List UInt8)
  auxv : List (ℕ × ℕ)
  deriving DecidableEq, Repr

/-- **Reading the stack as the ABI prescribes**: the number of arguments, the pointers to them up to
a null pointer, those to the environment up to a null pointer, and the auxiliary vector. -/
def readStack (mem : UserMemory) (rsp : ℕ) : Option Startup := do
  let argc ← readU64 mem rsp
  let argvPtrs ← readPointers mem (rsp + 8) userStackSize
  let envp := rsp + 8 + 8 * (argvPtrs.length + 1)
  let envPtrs ← readPointers mem envp userStackSize
  let auxv ← readAuxv mem (envp + 8 * (envPtrs.length + 1)) userStackSize
  let argv ← readStrings mem argvPtrs
  let env ← readStrings mem envPtrs
  some ⟨argc, argv, env, auxv⟩

section

variable {mem : UserMemory}

theorem readU64_of_holds {v : ℕ} (h : mem.Holds addr (leBytes 8 v)) (hv : v < 2 ^ 64) :
    readU64 mem addr = some v := by
  have hread := h.read
  have hlt : v < 256 ^ 8 := hv
  rw [length_leBytes] at hread
  rw [readU64, hread, map_some, ofLe_leBytes, Nat.mod_eq_of_lt hlt]

/-- A word, and the words after it. -/
theorem readU64_cons {v : ℕ} {ws : List ℕ}
    (h : mem.Holds addr ((v :: ws).flatMap (leBytes 8))) (hv : v < 2 ^ 64) :
    readU64 mem addr = some v ∧ mem.Holds (addr + 8) (ws.flatMap (leBytes 8)) := by
  rw [flatMap_cons] at h
  have hrest := h.right
  rw [length_leBytes] at hrest
  exact ⟨readU64_of_holds h.left hv, hrest⟩

theorem readPointers_of_holds (fuel : ℕ) {ws : List ℕ}
    (h : mem.Holds addr ((ptrs ++ 0 :: ws).flatMap (leBytes 8)))
    (hptrs : ∀ ptr ∈ ptrs, ptr ≠ 0 ∧ ptr < 2 ^ 64) (hfuel : ptrs.length < fuel) :
    readPointers mem addr fuel = some ptrs ∧
      mem.Holds (addr + 8 * (ptrs.length + 1)) (ws.flatMap (leBytes 8)) := by
  induction ptrs generalizing addr fuel with
  | nil =>
    obtain ⟨fuel, rfl⟩ := Nat.exists_eq_add_of_lt hfuel
    obtain ⟨hzero, hrest⟩ := readU64_cons h (by decide)
    rw [readPointers, hzero]
    exact ⟨rfl, hrest⟩
  | cons ptr ptrs ih =>
    obtain ⟨fuel, rfl⟩ := Nat.exists_eq_add_of_lt hfuel
    obtain ⟨hne, hlt⟩ := hptrs ptr mem_cons_self
    obtain ⟨hptr, hrest⟩ := readU64_cons h hlt
    obtain ⟨hread, htail⟩ := ih ((ptr :: ptrs).length + fuel) hrest
      (fun p hp => hptrs p (mem_cons_of_mem _ hp)) (by rw [length_cons]; omega)
    rw [readPointers, hptr, bind_eq_bind, bind_some, if_neg hne, hread]
    refine ⟨rfl, ?_⟩
    rwa [length_cons, show addr + 8 * (ptrs.length + 1 + 1) = addr + 8 + 8 * (ptrs.length + 1)
      by omega]

theorem readAuxv_of_holds (fuel : ℕ) {pairs : List (ℕ × ℕ)}
    (h : mem.Holds addr ((pairWords pairs ++ [0, 0]).flatMap (leBytes 8)))
    (hpairs : ∀ e ∈ pairs, e.1 ≠ 0 ∧ e.1 < 2 ^ 64 ∧ e.2 < 2 ^ 64) (hfuel : pairs.length < fuel) :
    readAuxv mem addr fuel = some pairs := by
  induction pairs generalizing addr fuel with
  | nil =>
    obtain ⟨fuel, rfl⟩ := Nat.exists_eq_add_of_lt hfuel
    obtain ⟨htype, hrest⟩ := readU64_cons h (by decide)
    obtain ⟨hval, -⟩ := readU64_cons hrest (by decide)
    rw [readAuxv, htype, hval]
    rfl
  | cons e pairs ih =>
    obtain ⟨fuel, rfl⟩ := Nat.exists_eq_add_of_lt hfuel
    obtain ⟨hne, hlt, hlt'⟩ := hpairs e mem_cons_self
    obtain ⟨htype, hrest⟩ := readU64_cons h hlt
    obtain ⟨hval, hrest⟩ := readU64_cons hrest hlt'
    have hread := ih ((e :: pairs).length + fuel) hrest
      (fun p hp => hpairs p (mem_cons_of_mem _ hp)) (by rw [length_cons]; omega)
    rw [readAuxv, htype, hval, bind_eq_bind, bind_some, bind_eq_bind, bind_some, if_neg hne, hread]
    rfl

theorem readStrings_of_holds {values : List (List UInt8)}
    (hlen : ptrs.length = values.length) (h : ∀ o ∈ stringsAt ptrs values, mem.Holds o.1 o.2)
    (hvalues : ∀ s ∈ values, s.length < userStackSize ∧ 0 ∉ s) :
    readStrings mem ptrs = some values := by
  induction ptrs generalizing values with
  | nil =>
    cases values with
    | nil => rfl
    | cons => cases hlen
  | cons ptr _ ih =>
    cases values with
    | nil => cases hlen
    | cons v =>
      obtain ⟨hshort, hzero⟩ := hvalues v mem_cons_self
      have hv : mem.Holds ptr (v ++ [0]) := h (ptr, v ++ [0]) mem_cons_self
      have hrest := ih (Nat.succ.inj hlen) (fun o ho => h o (mem_cons_of_mem _ ho))
        fun s hs => hvalues s (mem_cons_of_mem _ hs)
      rw [readStrings, hv.readString hzero hshort, hrest]
      rfl

end

/-! ### The whole stack -/

def auxiliaryVector (randomPtr : ℕ) : List (ℕ × ℕ) :=
  [(atPagesz, pageSize), (atSecure, 0), (atRandom, randomPtr)]

/-- The words at the stack pointer. -/
def stackWords (argvPtrs envPtrs : List ℕ) (randomPtr : ℕ) : List ℕ :=
  argvPtrs.length :: (argvPtrs ++ 0 :: (envPtrs ++ 0 ::
    (pairWords (auxiliaryVector randomPtr) ++ [0, 0])))

/-- The objects of the stack: the table, the random bytes and the strings. -/
def stackObjects (rsp : ℕ) (argvPtrs envPtrs : List ℕ) (randomPtr : ℕ)
    (argv env : List (List UInt8)) (random : List UInt8) : List Object :=
  (rsp, (stackWords argvPtrs envPtrs randomPtr).flatMap (leBytes 8)) :: (randomPtr, random) ::
    (stringsAt envPtrs env ++ stringsAt argvPtrs argv)

/-- **The initial stack as the ABI prescribes it**: what a process reads from the stack pointer on
are the arguments, the environment and the auxiliary vector; the registers lead to the same; the
objects are inside the stack, no two of them overlap, and the stack pointer is 8 modulo 16. -/
structure InitialImage (mem : UserMemory) (st : InitialStack) (argv env : List (List UInt8))
    (random : List UInt8) (argvPtrs envPtrs : List ℕ) (randomPtr : ℕ) : Prop where
  reads : readStack mem st.rsp = some ⟨argv.length, argv, env, auxiliaryVector randomPtr⟩
  random_eq : mem.read randomPtr 16 = some random
  holds : ∀ o ∈ stackObjects st.rsp argvPtrs envPtrs randomPtr argv env random, mem.Holds o.1 o.2
  inside : ∀ o ∈ stackObjects st.rsp argvPtrs envPtrs randomPtr argv env random,
    stackBottom ≤ o.1 ∧ o.1 + o.2.length ≤ userStackTop
  apart : (stackObjects st.rsp argvPtrs envPtrs randomPtr argv env random).Pairwise
    fun o o' => o.1 + o.2.length ≤ o'.1
  aligned : st.rsp % 16 = 8
  argc_eq : st.argc = argv.length
  argv_eq : st.argv = st.rsp + 8
  envp_eq : st.envp = st.rsp + 8 + 8 * (argv.length + 1)

theorem length_randomBytes (count : ℕ) (x : UInt64) : (randomBytes count x).length = count := by
  induction count generalizing x with
  | zero => rfl
  | succ _ ih => rw [randomBytes, length_cons, ih]

theorem mem_stringsAt {values : List (List UInt8)}
    (hlen : ptrs.length = values.length) {ptr : ℕ} (h : ptr ∈ ptrs) :
    ∃ s, (ptr, s) ∈ stringsAt ptrs values := by
  obtain ⟨i, hi, rfl⟩ := mem_iff_getElem.mp h
  have hi' : i < (values.map (· ++ [(0 : UInt8)])).length := by
    rw [length_map, ← hlen]
    exact hi
  refine ⟨(values.map (· ++ [0]))[i], ?_⟩
  have hzip : (stringsAt ptrs values)[i]? = some (ptrs[i], (values.map (· ++ [0]))[i]) := by
    rw [stringsAt, getElem?_zip_eq_some]
    exact ⟨getElem?_eq_getElem hi, getElem?_eq_getElem hi'⟩
  exact mem_of_getElem? hzip

/-- The padding may be forgotten. -/
theorem Placed.trim (h : Placed w ((a, s ++ t) :: objs)) : Placed w ((a, s) :: objs) := by
  have hle : a + s.length ≤ a + (s ++ t).length := by
    rw [length_append]
    omega
  obtain ⟨hlow, hhigh⟩ := h.above _ mem_cons_self
  exact h.tail.cons (h.holds _ mem_cons_self).left hlow (hle.trans hhigh) fun o ho =>
    hle.trans ((pairwise_cons.mp h.sorted).1 o ho)

theorem currentSp_run : currentSp w = (.ok w.sp, w) := rfl

theorem alignSp_run (h : w.sp % 16 = 0) : alignSp w = (.ok w.sp, w) := by
  rw [alignSp, h]
  rfl

/-- **The padding** makes the table end where the stack pointer will be 8 modulo 16. -/
theorem pad_run (words : ℕ) (h : Placed w objs) (hlow : stackBottom + 8 ≤ w.sp) :
    ∃ w' t, when (decide (words % 2 = 0)) (pushUserU64 0) w = (.ok (), w') ∧
      w'.sp + 8 * ((words + 1) % 2) = w.sp ∧ Placed w' ((w'.sp, t) :: objs) := by
  by_cases heven : words % 2 = 0
  · obtain ⟨w', hrun, hsp, hplaced⟩ := pushUserU64_run h.start hlow
    refine ⟨w', _, ?_, by omega, hplaced⟩
    rw [decide_eq_true heven]
    exact hrun
  · refine ⟨w, [], ?_, by omega, h.start⟩
    rw [decide_eq_false heven]
    rfl

section

variable {mem : UserMemory} {argv env : List (List UInt8)}

/-- **The whole run**: it succeeds, and the objects are placed. -/
theorem prepareInitialStack_run (hmap : mem.Mapped stackBottom userStackTop)
    (hargv : 1 ≤ argv.length ∧ argv.length ≤ maxExecArgs) (henv : env.length ≤ maxExecArgs)
    (hlen : ∀ s ∈ argv ++ env, s.length ≤ maxExecArgLen) (tsc : UInt64) (sp : ℕ) :
    ∃ w st argvPtrs envPtrs randomPtr, prepareInitialStack argv env tsc ⟨mem, sp⟩ = (.ok st, w) ∧
      argvPtrs.length = argv.length ∧ envPtrs.length = env.length ∧
      w.sp = st.rsp ∧ stackBottom ≤ st.rsp ∧ st.rsp % 16 = 8 ∧ st.argc = argv.length ∧
      st.argv = st.rsp + 8 ∧ st.envp = st.rsp + 8 + 8 * (argv.length + 1) ∧
      Placed w (stackObjects st.rsp argvPtrs envPtrs randomPtr argv env (fillRandom tsc)) := by
  have hbottom : stackBottom = 0x7FFFFFFEF000 := rfl
  have hmax : maxExecArgs = 16 := rfl
  have hrandom : (fillRandom tsc).length = 16 := length_randomBytes 16 _
  have hempty : argv.isEmpty = false := by
    cases argv with
    | nil => exact absurd hargv.1 (by decide)
    | cons => rfl
  have hstart : Placed ⟨mem, userStackTop - userStackTop % 16⟩ [] :=
    ⟨hmap, Nat.sub_le _ _, by simp, by simp, List.Pairwise.nil⟩
  -- the strings and the random bytes
  obtain ⟨argvPtrs, w1, hrun1, hcount1, hle1, -, hplaced1⟩ := pushStrings_run argv
    (fun s hs => hlen s (mem_append_left _ hs)) hstart (by
      show stackBottom + 129 * argv.length ≤ 0x7FFFFFFFF000
      omega)
  have hle1 : 0x7FFFFFFFF000 ≤ w1.sp + 129 * argv.length := hle1
  obtain ⟨envPtrs, w2, hrun2, hcount2, hle2, -, hplaced2⟩ := pushStrings_run env
    (fun s hs => hlen s (mem_append_right _ hs)) hplaced1 (by omega)
  obtain ⟨w3, hrun3, hmod3, hle3, hplaced3⟩ :=
    writeStackBytes_run hplaced2 (fillRandom tsc) (by omega)
  rw [append_nil] at hplaced3
  -- the table, from its end to its beginning
  obtain ⟨w4, pad, hrun4, hsp4, hplaced4⟩ :=
    pad_run (argvPtrs.length + envPtrs.length + 3) hplaced3 (by omega)
  obtain ⟨w5, hrun5, hsp5, hplaced5⟩ := pushUserU64_run hplaced4 (by omega)
  obtain ⟨w6, hrun6, hsp6, hplaced6⟩ := pushUserU64_run hplaced5 (by omega)
  obtain ⟨w7, hrun7, hsp7, hplaced7⟩ := pushPairs_run (auxiliaryVector w3.sp) hplaced6 (by
      show stackBottom + 16 * 3 ≤ _
      omega)
  have hsp7 : w7.sp + 48 = w6.sp := hsp7
  obtain ⟨w8, hrun8, hsp8, hplaced8⟩ := pushUserU64_run hplaced7 (by omega)
  obtain ⟨w9, hrun9, hsp9, hplaced9⟩ := pushWords_run envPtrs hplaced8 (by omega)
  obtain ⟨w₁₀, hrun₁₀, hsp₁₀, hplaced₁₀⟩ := pushUserU64_run hplaced9 (by omega)
  obtain ⟨w₁₁, hrun₁₁, hsp₁₁, hplaced₁₁⟩ := pushWords_run argvPtrs hplaced₁₀ (by omega)
  obtain ⟨w₁₂, hrun₁₂, hsp₁₂, hplaced₁₂⟩ := pushUserU64_run hplaced₁₁ (by omega)
  have haligned : w₁₂.sp % 16 = 8 := by omega
  refine ⟨w₁₂, ⟨w₁₂.sp, argvPtrs.length, w₁₁.sp, w9.sp⟩, argvPtrs, envPtrs, w3.sp, ?_, hcount1,
    hcount2, rfl, ?_, haligned, hcount1, ?_, ?_, ?_⟩
  · rw [prepareInitialStack, refuse_bind_run, if_neg (by simp [hempty]; omega)]
    refine (bind_ok rfl).trans ?_
    refine (bind_ok hrun1).trans ((bind_ok hrun2).trans ((bind_ok hrun3).trans ?_))
    simp only [reverse_reverse]
    refine (bind_ok (alignSp_run hmod3)).trans ((bind_ok hrun4).trans ?_)
    refine (bind_ok hrun5).trans ((bind_ok hrun6).trans ((bind_ok hrun7).trans ?_))
    refine (bind_ok hrun8).trans ((bind_ok hrun9).trans ?_)
    refine (bind_ok currentSp_run).trans ((bind_ok hrun₁₀).trans ?_)
    refine (bind_ok hrun₁₁).trans ((bind_ok currentSp_run).trans ?_)
    refine (bind_ok hrun₁₂).trans ((bind_ok currentSp_run).trans ?_)
    rw [if_neg (by simpa using haligned)]
    rfl
  · show stackBottom ≤ w₁₂.sp
    omega
  · exact hsp₁₂.symm
  · show w9.sp = w₁₂.sp + 8 + 8 * (argv.length + 1)
    omega
  · refine Placed.trim (t := pad) ?_
    simpa only [stackWords, flatMap_cons, flatMap_append, flatMap_nil,
      append_nil, append_assoc] using hplaced₁₂

/-- **Objects that are placed are read**: the pointers of the table are not null, since they lead
inside the stack, and each list of them ends where its null pointer is. -/
theorem readStack_of_placed {w : Writer} {rsp : ℕ} {argvPtrs envPtrs : List ℕ} {randomPtr : ℕ}
    {random : List UInt8} (hcount : argvPtrs.length = argv.length)
    (hcount' : envPtrs.length = env.length) (hargv : argv.length ≤ 16) (henv : env.length ≤ 16)
    (hstrings : ∀ s ∈ argv ++ env, s.length ≤ 128 ∧ 0 ∉ s) (hbottom : stackBottom ≤ w.sp)
    (h : Placed w (stackObjects rsp argvPtrs envPtrs randomPtr argv env random)) :
    readStack w.mem rsp = some ⟨argv.length, argv, env, auxiliaryVector randomPtr⟩ := by
  have hsize : userStackSize = 65536 := rfl
  have hptr : ∀ o ∈ stackObjects rsp argvPtrs envPtrs randomPtr argv env random,
      o.1 ≠ 0 ∧ o.1 < 2 ^ 64 := fun o ho => by
    obtain ⟨hlow, hhigh⟩ := h.above o ho
    have hb : stackBottom = 0x7FFFFFFEF000 := rfl
    have ht : userStackTop = 0x7FFFFFFFF000 := rfl
    omega
  have hvalues : ∀ s ∈ argv ++ env, s.length < userStackSize ∧ 0 ∉ s := fun s hs =>
    ⟨(hstrings s hs).1.trans_lt (by decide), (hstrings s hs).2⟩
  have hmemv : ∀ o ∈ stringsAt argvPtrs argv,
      o ∈ stackObjects rsp argvPtrs envPtrs randomPtr argv env random := fun o ho =>
    mem_cons_of_mem _ (mem_cons_of_mem _ (mem_append_right _ ho))
  have hmeme : ∀ o ∈ stringsAt envPtrs env,
      o ∈ stackObjects rsp argvPtrs envPtrs randomPtr argv env random := fun o ho =>
    mem_cons_of_mem _ (mem_cons_of_mem _ (mem_append_left _ ho))
  have hargvPtrs : ∀ ptr ∈ argvPtrs, ptr ≠ 0 ∧ ptr < 2 ^ 64 := fun ptr hp => by
    obtain ⟨s, hs⟩ := mem_stringsAt hcount hp
    exact hptr _ (hmemv _ hs)
  have henvPtrs : ∀ ptr ∈ envPtrs, ptr ≠ 0 ∧ ptr < 2 ^ 64 := fun ptr hp => by
    obtain ⟨s, hs⟩ := mem_stringsAt hcount' hp
    exact hptr _ (hmeme _ hs)
  have haux : ∀ e ∈ auxiliaryVector randomPtr, e.1 ≠ 0 ∧ e.1 < 2 ^ 64 ∧ e.2 < 2 ^ 64 := by
    have hrandom := (hptr (randomPtr, random) (by simp [stackObjects])).2
    intro e he
    simp only [auxiliaryVector, mem_cons, not_mem_nil, or_false] at he
    rcases he with rfl | rfl | rfl
    · exact ⟨by decide, by decide, by decide⟩
    · exact ⟨by decide, by decide, by decide⟩
    · exact ⟨(by decide : atRandom ≠ 0), (by decide : atRandom < 2 ^ 64), hrandom⟩
  obtain ⟨hreadc, hrest⟩ := readU64_cons (h.holds _ mem_cons_self) (by omega)
  obtain ⟨hreadv, hrest⟩ := readPointers_of_holds userStackSize hrest hargvPtrs (by omega)
  obtain ⟨hreade, hrest⟩ := readPointers_of_holds userStackSize hrest henvPtrs (by omega)
  have hreada := readAuxv_of_holds userStackSize hrest haux
    (show 3 < userStackSize by decide)
  have hstrs := readStrings_of_holds hcount (fun o ho => h.holds o (hmemv o ho))
    fun s hs => hvalues s (mem_append_left _ hs)
  have hstrs' := readStrings_of_holds hcount' (fun o ho => h.holds o (hmeme o ho))
    fun s hs => hvalues s (mem_append_right _ hs)
  rw [hcount] at hreade hreada hreadc
  rw [hcount'] at hreada
  simp only [readStack, hreadc, hreadv, hreade, hreada, hstrs, hstrs', bind_eq_bind,
    bind_some, hcount, hcount']

/-- **The initial stack**: for every argument vector of one to sixteen strings and every environment
of at most sixteen, of at most 128 bytes each and without a zero byte, the program succeeds, and the
stack is the one the ABI prescribes. -/
theorem prepareInitialStack_image (hmap : mem.Mapped stackBottom userStackTop)
    (hargv : 1 ≤ argv.length ∧ argv.length ≤ 16) (henv : env.length ≤ 16)
    (hstrings : ∀ s ∈ argv ++ env, s.length ≤ 128 ∧ 0 ∉ s) (tsc : UInt64) (sp : ℕ) :
    ∃ w st argvPtrs envPtrs randomPtr, prepareInitialStack argv env tsc ⟨mem, sp⟩ = (.ok st, w) ∧
      InitialImage w.mem st argv env (fillRandom tsc) argvPtrs envPtrs randomPtr := by
  obtain ⟨w, st, argvPtrs, envPtrs, randomPtr, hrun, hcount, hcount', hsp, hbottom, haligned, hargc,
    hargvAddr, henvp, hplaced⟩ := prepareInitialStack_run hmap hargv henv
      (fun s hs => (hstrings s hs).1) tsc sp
  have hlow : stackBottom ≤ w.sp := by rwa [hsp]
  refine ⟨w, st, argvPtrs, envPtrs, randomPtr, hrun,
    readStack_of_placed hcount hcount' hargv.2 henv hstrings hlow hplaced, ?_, hplaced.holds,
    fun o ho => ?_, hplaced.sorted, haligned, hargc, hargvAddr, henvp⟩
  · have hread := (hplaced.holds (randomPtr, fillRandom tsc) (by simp [stackObjects])).read
    have hlen : (fillRandom tsc).length = 16 := length_randomBytes 16 _
    rwa [hlen] at hread
  · obtain ⟨hfrom, hto⟩ := hplaced.above o ho
    exact ⟨hlow.trans hfrom, hto⟩

end

/-- A memory in which page and frame are the same. -/
def identityMemory : UserMemory where
  frame p := some p
  bytes _ _ := 0
  frame_inj h h' := (Option.some.inj h).trans (Option.some.inj h').symm

/-- The program `ls -l` with two variables in its environment. -/
theorem prepareInitialStack_image_two :
    ∃ w st argvPtrs envPtrs randomPtr,
      prepareInitialStack [[108, 115], [45, 108]] [[65, 61, 49], [66, 61]] 7 ⟨identityMemory, 0⟩ =
        (.ok st, w) ∧
      InitialImage w.mem st [[108, 115], [45, 108]] [[65, 61, 49], [66, 61]] (fillRandom 7)
        argvPtrs envPtrs randomPtr :=
  prepareInitialStack_image (fun _ _ _ => rfl) ⟨by decide, by decide⟩ (by decide)
    (by decide) 7 0

end DunitOS.Kernel.Elf
