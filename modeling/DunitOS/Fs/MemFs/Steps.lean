import DunitOS.Fs.MemFs.Ops
import DunitOS.SysLib.Entries

/-!
# What an operation of the file system in memory can do

Each operation either fails and leaves the state alone or makes one change. The lemmas of this
file say which one, together with the checks that were passed; everything that is kept over runs
is derived from them. The operations that fill a file make the change `MemFs.Refilled`,
and `open` may add a node and refill it before it fails.
-/

namespace DunitOS

open SysLib Prog Vfs List Option

namespace MemFs

variable {fs : MemFs} {path : Path} {i : ℕ} {n : MemNode}

/-! ### Nodes that are found -/

theorem okOr_some_bind {α β : Type} (e : VfsError) (a : α) (f : α → MemM β) :
    (okOr e (some a) >>= f) = f a := rfl

theorem okOr_after {α β : Type} {P : MemFs → Prop} {e : VfsError} {o : Option α} {f : α → MemM β}
    (h : P fs) (hf : ∀ a, o = some a → P (f a fs).2) : P ((okOr e o >>= f) fs).2 := by
  cases o with
  | none => exact h
  | some a => exact hf a rfl

@[simp] theorem clean_clean (path : Path) : clean (clean path) = clean path :=
  trimSlashes_trimSlashes path

@[simp] theorem nodeIndex_clean : nodeIndex fs (clean path) = nodeIndex fs path := by
  rw [nodeIndex, clean_clean, nodeIndex]

@[simp] theorem findNode_clean : findNode fs (clean path) = findNode fs path := by
  rw [findNode, clean_clean, findNode]

@[simp] theorem nodeType_clean : nodeType fs (clean path) = nodeType fs path := by
  rw [nodeType, clean_clean, nodeType]

/-- A node found by its index has the path asked for. -/
theorem nodeIndex_some (h : nodeIndex fs path = some i) :
    ∃ n, fs.nodes[i]? = some n ∧ n.path = clean path ∧ findNode fs path = some n := by
  obtain ⟨n, hn, hp⟩ := exists_of_findIdx? h
  exact ⟨n, hn, beq_iff_eq.mp hp, (findIdx?_some h).mp hn⟩

theorem findNode_some (h : findNode fs path = some n) : n ∈ fs.nodes ∧ n.path = clean path := by
  have hp := find?_some h
  exact ⟨mem_of_find?_eq_some h, beq_iff_eq.mp hp⟩

/-- Nothing is there for a path that is free. -/
theorem nodeType_none (h : nodeType fs path = none) :
    clean path ≠ [] ∧ isBaseDir path = false ∧ ∀ n ∈ fs.nodes, n.path ≠ clean path := by
  rw [nodeType] at h
  split_ifs at h with hroot
  rw [not_or, Bool.not_eq_true] at hroot
  rw [isBaseDir, clean_clean] at hroot
  rw [Option.map_eq_none_iff, findNode_clean, findNode, List.find?_eq_none] at h
  exact ⟨hroot.1, hroot.2, fun n hn hp => h n hn (beq_iff_eq.mpr hp)⟩

/-- What is said to be a file is the file that a search finds. -/
theorem findNode_of_nodeType_file (h : nodeType fs path = some .file) :
    ∃ n, findNode fs path = some n ∧ n.fileType = .file := by
  rw [nodeType] at h
  split_ifs at h with hroot
  · cases h
  · rwa [findNode_clean, map_eq_some_iff] at h

/-! ### Changes of nodes -/

def MemData.isStatic : MemData → Bool
  | owned _ => false
  | static _ => true

/-- **The data of the file with a path is replaced**, or nothing happens. -/
def Refilled (path : Path) (fs fs' : MemFs) : Prop :=
  fs' = fs ∨ ∃ i n data, fs.nodes[i]? = some n ∧ n.path = clean path ∧
    fs' = { fs with nodes := fs.nodes.modify i fun n => { n with data } }

theorem setNode_refilled {data : MemData} :
    Refilled path fs (setNode path (fun n => { n with data }) fs) := by
  rw [setNode]
  rcases hi : nodeIndex fs path with _ | i
  · exact .inl rfl
  · obtain ⟨n, hn, hp, -⟩ := nodeIndex_some hi
    exact .inr ⟨i, n, data, hn, hp, rfl⟩

theorem findNode_setNode (path : Path) (data : MemData) (fs : MemFs) :
    findNode (setNode path (fun n => { n with data }) fs) path =
      (findNode fs path).map fun n => { n with data } := by
  rw [setNode]
  rcases hi : nodeIndex fs path with _ | i
  · have hnone : findNode fs path = none := findIdx?_eq_none_iff_find?.mp hi
    simp only [hnone, map_none]
  · exact find?_modify hi fun _ => rfl

/-- **A node is added**: its path was free and its parent a directory. -/
def Added (path : Path) (t : FileType) (fs fs' : MemFs) : Prop :=
  nodeType fs path = none ∧ parentExists fs (clean path) = true ∧
    fs' = { fs with nodes := fs.nodes ++ [⟨clean path, t, .owned []⟩] }

theorem addNode_cases {t : FileType} :
    (∃ e, addNode path t fs = (.error e, fs)) ∨
      ∃ fs', Added path t fs fs' ∧ addNode path t fs = (.ok (), fs') := by
  rw [addNode, get_bind_run]
  by_cases hempty : clean path = []
  · exact .inl ⟨_, by rw [if_pos hempty]; rfl⟩
  rw [if_neg hempty]
  rcases htype : nodeType fs path with _ | t'
  · rw [nodeType_clean, htype, if_neg (by simp)]
    rcases hparent : parentExists fs (clean path) with _ | _
    · exact .inl ⟨_, by rw [if_pos rfl]; rfl⟩
    · exact .inr ⟨_, ⟨htype, hparent, rfl⟩, by rw [if_neg (by simp)]; rfl⟩
  · exact .inl ⟨_, by rw [nodeType_clean, htype]; rfl⟩

/-- The node at an index is what a search for its path finds. -/
theorem okOr_nodes_bind {β : Type} (h : fs.nodes[i]? = some n) (f : MemNode → MemM β) :
    (okOr .notFound fs.nodes[i]? >>= f) = f n := by
  rw [h, okOr_some_bind]

theorem remove_cases (path : Path) (fs : MemFs) : (∃ e, remove path fs = (.error e, fs)) ∨
      ∃ i n, nodeIndex fs path = some i ∧ fs.nodes[i]? = some n ∧ n.path = clean path ∧
        clean path ≠ [] ∧ n.fileType = .file ∧ n.data.isStatic = false ∧
        remove path fs = (.ok (), { fs with
          nodes := fs.nodes.eraseIdx i
          openHandles := fs.openHandles.filter fun h => decide (h.2.path ≠ clean path) }) := by
  rw [remove, get_bind_run]
  by_cases hempty : clean path = []
  · exact .inl ⟨_, by rw [if_pos hempty]; rfl⟩
  rw [if_neg hempty, nodeIndex_clean]
  rcases hi : nodeIndex fs path with _ | i
  · exact .inl ⟨_, rfl⟩
  obtain ⟨n, hn, hp, -⟩ := nodeIndex_some hi
  rw [okOr_some_bind, okOr_nodes_bind hn]
  rcases hdata : n.data with data | data
  · by_cases htype : n.fileType = .file
    · refine .inr ⟨i, n, rfl, hn, hp, hempty, htype, by rw [hdata]; rfl, ?_⟩
      rw [if_neg (not_not.mpr htype)]
      rfl
    · exact .inl ⟨_, by rw [if_pos htype]; rfl⟩
  · exact .inl ⟨_, rfl⟩

theorem removeDir_cases : (∃ e, removeDir path fs = (.error e, fs)) ∨
      ∃ i n, nodeIndex fs path = some i ∧ fs.nodes[i]? = some n ∧ n.path = clean path ∧
        clean path ≠ [] ∧ n.fileType = .directory ∧ n.data.isStatic = false ∧
        (∀ m ∈ fs.nodes, ¬(clean path ++ ['/']) <+: m.path) ∧
        removeDir path fs = (.ok (), { fs with nodes := fs.nodes.eraseIdx i }) := by
  rw [removeDir, get_bind_run]
  by_cases hempty : clean path = []
  · exact .inl ⟨_, by rw [if_pos hempty]; rfl⟩
  rw [if_neg hempty, nodeIndex_clean]
  rcases hi : nodeIndex fs path with _ | i
  · exact .inl ⟨_, rfl⟩
  obtain ⟨n, hn, hp, -⟩ := nodeIndex_some hi
  rw [okOr_some_bind, okOr_nodes_bind hn]
  rcases hdata : n.data with data | data
  · by_cases htype : n.fileType = .directory
    · rw [if_neg (not_not.mpr htype)]
      by_cases hfull : fs.nodes.any fun node => (clean path ++ ['/']).isPrefixOf node.path
      · exact .inl ⟨_, by rw [if_pos hfull]; rfl⟩
      · refine .inr ⟨i, n, rfl, hn, hp, hempty, htype, by rw [hdata]; rfl,
          fun m hm hbelow => hfull ?_, ?_⟩
        · exact any_eq_true.mpr ⟨m, hm, isPrefixOf_iff_prefix.mpr hbelow⟩
        · rw [if_neg hfull]
          rfl
    · exact .inl ⟨_, by rw [if_pos htype]; rfl⟩
  · exact .inl ⟨_, rfl⟩

/-- What moves with a directory is below it. -/
theorem rehome_cases (old new path : Path) :
    (∃ rest, path = old ++ '/' :: rest ∧ rehome old new path = new ++ '/' :: rest) ∨
      (¬DunitFs.Below old path ∧ rehome old new path = path) := by
  rcases hmoved : (old ++ ['/']).isPrefixOf? path with _ | rest
  · refine .inr ⟨?_, by rw [rehome, hmoved]⟩
    rintro ⟨s, rfl⟩
    have hsome := isPrefixOf?_eq_some_iff_append_eq.mpr
      (show (old ++ ['/']) ++ s = old ++ '/' :: s by simp)
    rw [hsome] at hmoved
    cases hmoved
  · have hpath := isPrefixOf?_eq_some_iff_append_eq.mp hmoved
    exact .inl ⟨rest, by rw [← hpath]; simp, by rw [rehome, hmoved]⟩

/-- The state after a node has been renamed, and with a directory all that is below it. -/
def moved (i : ℕ) (n : MemNode) (old new : Path) (fs : MemFs) : MemFs :=
  let nodes := fs.nodes.modify i fun n => { n with path := new }
  let rest := n.fileType == .directory
  { fs with
    nodes := if rest then nodes.map fun n => { n with path := rehome old new n.path } else nodes
    openHandles := fs.openHandles.map fun h =>
      let path := if rest then rehome old new h.2.path else h.2.path
      (h.1, { h.2 with path := if path = old then new else path }) }

theorem rename_cases {old new : Path} : (∃ e, rename old new fs = (.error e, fs)) ∨
    (clean old = clean new ∧ rename old new fs = (.ok (), fs)) ∨
      ∃ i n, nodeIndex fs old = some i ∧ fs.nodes[i]? = some n ∧ n.path = clean old ∧
        clean old ≠ [] ∧ clean old ≠ clean new ∧ ¬(clean old ++ ['/']) <+: clean new ∧
        nodeType fs new = none ∧ parentExists fs (clean new) = true ∧ n.data.isStatic = false ∧
        rename old new fs = (.ok (), moved i n (clean old) (clean new) fs) := by
  rw [rename, get_bind_run]
  by_cases hempty : clean old = [] ∨ clean new = []
  · exact .inl ⟨_, by rw [if_pos hempty]; rfl⟩
  rw [if_neg hempty]
  by_cases hsame : clean old = clean new
  · exact .inr (.inl ⟨hsame, by rw [if_pos hsame]; rfl⟩)
  rw [if_neg hsame]
  by_cases hbelow : (clean old ++ ['/']).isPrefixOf (clean new)
  · exact .inl ⟨_, by rw [if_pos hbelow]; rfl⟩
  rw [if_neg hbelow, nodeIndex_clean, nodeType_clean]
  rcases hi : nodeIndex fs old with _ | i
  · exact .inl ⟨_, rfl⟩
  obtain ⟨n, hn, hp, -⟩ := nodeIndex_some hi
  rw [okOr_some_bind, okOr_nodes_bind hn]
  rcases hdata : n.data with data | data
  · rcases htype : nodeType fs new with _ | t
    · rcases hparent : parentExists fs (clean new) with _ | _
      · exact .inl ⟨_, rfl⟩
      · refine .inr (.inr ⟨i, n, rfl, hn, hp, fun h => hempty (.inl h), hsame,
          fun h => hbelow <| isPrefixOf_iff_prefix.mpr h, rfl, rfl, by rw [hdata]; rfl, ?_⟩)
        rcases hdir : n.fileType == .directory with _ | _
        · simp [moved, hdir, when]
        · simp [moved, hdir, when, Function.comp_def]
    · exact .inl ⟨_, rfl⟩
  · exact .inl ⟨_, rfl⟩

/-! ### Changes of open files -/

/-- The state after a file has been opened. -/
def opened (path : Path) (offset : ℕ) (flags : OpenFlags) (fs : MemFs) : MemFs :=
  { fs with
    nextHandle := (fs.nextHandle + 1) % 2 ^ 64
    openHandles := fs.openHandles ++ [(fs.nextHandle, ⟨clean path, offset, flags⟩)] }

/-- What `open` does before the handle is made: a file that is missing is created, and a file
that is opened for writing may be emptied. -/
def Prepared (path : Path) (flags : OpenFlags) (fs fs' : MemFs) : Prop :=
  ∃ fs1, (fs1 = fs ∨ (flags.create = true ∧ Added path .file fs fs1)) ∧
    (fs' = fs1 ∨ (flags.canWrite = true ∧ Refilled path fs1 fs'))

/-- The second half of `open`: a file that is found is emptied if that is asked for, and opened. -/
theorem openExisting_cases {flags : OpenFlags} :
    ∃ fs', (fs' = fs ∨ (flags.canWrite = true ∧ Refilled path fs fs')) ∧
      ((∃ e, openExisting path flags fs = (.error e, fs')) ∨
        ∃ n offset, findNode fs' path = some n ∧ n.fileType = .file ∧
          openExisting path flags fs = (.ok fs'.nextHandle, opened path offset flags fs')) := by
  rw [openExisting, get_bind_run]
  rcases htype : nodeType fs path with _ | t
  · exact ⟨fs, .inl rfl, .inl ⟨_, rfl⟩⟩
  cases t with
  | directory | device => exact ⟨fs, .inl rfl, .inl ⟨_, rfl⟩⟩
  | file =>
    obtain ⟨n, hn, hfile⟩ := findNode_of_nodeType_file htype
    simp only [hn, okOr_some_bind]
    rcases htrunc : flags.trunc with _ | _
    · refine ⟨fs, .inl rfl, .inr ⟨n, if flags.append then n.data.asSlice.length else 0, hn,
        hfile, ?_⟩⟩
      simp only [when, Bool.false_eq_true, if_false, pure_bind_run, get_bind_run,
        hn, okOr_some_bind, modify_bind_run, Prog.pure_run, opened]
    simp only [when, if_true]
    rcases hwrite : flags.canWrite with _ | _
    · exact ⟨fs, .inl rfl, .inl ⟨_, rfl⟩⟩
    rcases hclear : n.data.clear with e | data
    · exact ⟨fs, .inl rfl, .inl ⟨_, rfl⟩⟩
    have hn' := findNode_setNode path data fs
    rw [hn, map_some] at hn'
    refine ⟨_, .inr ⟨rfl, setNode_refilled⟩,
      .inr ⟨_, if flags.append then data.asSlice.length else 0, hn', hfile, ?_⟩⟩
    have hrun : (pure data >>= fun data => Prog.modify (setNode path fun n => { n with data }) :
        MemM Unit) fs = (.ok (), setNode path (fun n => { n with data }) fs) := rfl
    rw [if_neg (by simp), ofExcept_ok, bind_ok hrun, get_bind_run, hn',
      okOr_some_bind, modify_bind_run]
    rfl

theorem open_cases {flags : OpenFlags} :
    ∃ fs', Prepared path flags fs fs' ∧ ((∃ e, open_ path flags fs = (.error e, fs')) ∨
      ∃ n offset, findNode fs' path = some n ∧ n.fileType = .file ∧
        open_ path flags fs = (.ok fs'.nextHandle, opened path offset flags fs')) := by
  by_cases hvalid : flags.isValid = false
  · exact ⟨fs, ⟨fs, .inl rfl, .inl rfl⟩, .inl ⟨_, by rw [open_, if_pos hvalid]; rfl⟩⟩
  rw [open_, if_neg hvalid, get_bind_run]
  by_cases hexcl : flags.create ∧ flags.isExclusive ∧ (nodeType fs path).isSome
  · exact ⟨fs, ⟨fs, .inl rfl, .inl rfl⟩, .inl ⟨_, by rw [if_pos hexcl]; rfl⟩⟩
  rw [if_neg hexcl]
  -- the state with the file that is opened, and the run from there
  have hcreate : ∃ fs1, (fs1 = fs ∨ (flags.create = true ∧ Added path .file fs fs1)) ∧
      ((∃ e, when ((nodeType fs path).isNone && flags.create) (create path) fs =
          (.error e, fs1)) ∨
        when ((nodeType fs path).isNone && flags.create) (create path) fs =
          (.ok (), fs1)) := by
    rcases hc : (nodeType fs path).isNone && flags.create with _ | _
    · exact ⟨fs, .inl rfl, .inr rfl⟩
    · rcases addNode_cases with ⟨e, he⟩ | ⟨fs1, hadd, hrun⟩
      · exact ⟨fs, .inl rfl, .inl ⟨e, he⟩⟩
      · rw [Bool.and_eq_true] at hc
        exact ⟨fs1, .inr ⟨hc.2, hadd⟩, .inr hrun⟩
  obtain ⟨fs1, hfs1, ⟨e, he⟩ | hrun⟩ := hcreate
  · exact ⟨fs1, ⟨fs1, hfs1, .inl rfl⟩, .inl ⟨e, bind_error he⟩⟩
  · rw [bind_ok hrun]
    obtain ⟨fs', hfs', hend⟩ := openExisting_cases
    exact ⟨fs', ⟨fs1, hfs1, hfs'⟩, hend⟩

/-- **The position of an open file is changed**, or nothing happens. -/
def Sought (fs fs' : MemFs) : Prop :=
  fs' = fs ∨ ∃ i offset, fs' = { fs with
    openHandles := fs.openHandles.modify i fun h => (h.1, { h.2 with offset }) }

theorem setHandle_sought {handle offset : ℕ} :
    Sought fs (setHandle handle (fun h => { h with offset }) fs) := by
  rw [setHandle]
  split
  · next i hi => exact .inr ⟨i, offset, rfl⟩
  · exact .inl rfl

/-- The file of a handle is a file. -/
theorem handleNode_cases (h : OpenMemHandle) :
    (∃ e, handleNode fs h fs = (.error e, fs)) ∨
      ∃ n, findNode fs h.path = some n ∧ n.fileType = .file ∧ handleNode fs h fs = (.ok n, fs) := by
  rw [handleNode]
  rcases hn : findNode fs h.path with _ | n
  · exact .inl ⟨_, rfl⟩
  · rw [okOr_some_bind]
    by_cases htype : n.fileType = .file
    · exact .inr ⟨n, rfl, htype, by rw [if_neg (not_not.mpr htype)]; rfl⟩
    · exact .inl ⟨_, by rw [if_pos htype]; rfl⟩

theorem handleNode_after {α : Type} {P : MemFs → Prop} {h : OpenMemHandle} {f : MemNode → MemM α}
    (hfs : P fs) (hf : ∀ n, findNode fs h.path = some n → P (f n fs).2) :
    P ((handleNode fs h >>= f) fs).2 := by
  rcases handleNode_cases h with ⟨e, he⟩ | ⟨n, hn, -, hrun⟩
  · rw [bind_error he]
    exact hfs
  · rw [bind_ok hrun]
    exact hf n hn

/-- **What writing through a handle can change**: the file of a handle that allows it, and its
position. -/
def Written (handle : ℕ) (fs fs' : MemFs) : Prop :=
  fs' = fs ∨ ∃ h fs1, findHandle fs handle = some h ∧ h.flags.canWrite = true ∧
    Refilled h.path fs fs1 ∧ Sought fs1 fs'

theorem write_written (handle : ℕ) {buf : List UInt8} :
    Written handle fs (write handle buf fs).2 := by
  rw [write, get_bind_run]
  refine okOr_after (.inl rfl) fun h hh => ite_after (fun _ => .inl rfl) fun hwrite => ?_
  rw [Bool.not_eq_false] at hwrite
  refine handleNode_after (.inl rfl) fun n _ => ?_
  refine ite_after (fun _ => .inl rfl) fun _ => ?_
  refine ofExcept_after (.inl rfl) fun grown _ => ?_
  refine ofExcept_after (.inl rfl) fun data _ => ?_
  exact .inr ⟨h, _, hh, hwrite, setNode_refilled, setHandle_sought⟩

theorem ftruncateHandle_written {handle len : ℕ} :
    Written handle fs (ftruncateHandle handle len fs).2 := by
  rw [ftruncateHandle, get_bind_run]
  refine okOr_after (.inl rfl) fun h hh => ite_after (fun _ => .inl rfl) fun hwrite => ?_
  rw [Bool.not_eq_false] at hwrite
  refine handleNode_after (.inl rfl) fun n _ => ?_
  refine ite_after (fun _ => .inl rfl) fun _ => ?_
  refine ofExcept_after (.inl rfl) fun data _ => ?_
  exact .inr ⟨h, _, hh, hwrite, setNode_refilled, .inl rfl⟩

theorem seek_sought (handle : ℕ) {offset : ℤ} {whence : ℕ} :
    Sought fs (seek handle offset whence fs).2 := by
  rw [seek, get_bind_run]
  refine okOr_after (.inl rfl) fun h _ => handleNode_after (.inl rfl) fun n _ => ?_
  refine okOr_after (.inl rfl) fun base _ => ite_after (fun _ => .inl rfl) fun _ => ?_
  exact setHandle_sought

/-- `stat` changes nothing. -/
theorem keeps_stat {I : MemFs → Prop} : Keeps I (stat path) := by
  refine Keeps.get_bind fun fs hfs => ite_after (fun _ => hfs) fun _ => ?_
  rcases findNode fs (clean path) with _ | n
  · exact hfs
  · exact hfs

theorem close_cases (handle : ℕ) : (∃ e, close handle fs = (.error e, fs)) ∨
      close handle fs = (.ok (), { fs with
        openHandles := fs.openHandles.eraseP fun h => h.1 == handle }) := by
  rw [close, get_bind_run]
  rcases findHandle fs handle with _ | h
  · exact .inl ⟨_, rfl⟩
  · exact .inr rfl

end MemFs

end DunitOS
