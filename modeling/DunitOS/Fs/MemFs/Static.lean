import DunitOS.Fs.MemFs.Namespace

/-!
# Read-only data in memory

The nodes of the boot archive have static data, and every operation that would write, empty, resize,
remove or rename such a node is refused. What an operation does to *other* nodes is not checked:
renaming a directory gives new paths to all that is below it, static or not.

`MemFs.statics_kept_iff` says that this is the only way: over any sequence of operations the
static nodes keep their paths and contents exactly as long as no directory with one of them below it
is renamed.
-/

namespace DunitOS

open SysLib Prog Vfs List Option

open DunitFs (Below)

namespace MemFs

/-- The static nodes, with their paths and contents. -/
def statics (fs : MemFs) : List MemNode := fs.nodes.filter fun n => n.data.isStatic

variable {fs fs' : MemFs} {path : Path} {i : ℕ} {n : MemNode} {data data' : MemData}

/-! ### The operations -/

/-- The operations of the interface `FileSystem`. -/
inductive Request where
  | open_ (path : Path) (flags : OpenFlags)
  | read (handle len : ℕ)
  | write (handle : ℕ) (buf : List UInt8)
  | close (handle : ℕ)
  | readdir (path : Path)
  | readdirInto (path : Path) (room : ℕ)
  | create (path : Path)
  | mkdir (path : Path)
  | remove (path : Path)
  | removeDir (path : Path)
  | truncate (path : Path)
  | stat (path : Path)
  | rename (old new : Path)
  | seek (handle : ℕ) (offset : ℤ) (whence : ℕ)
  | statHandle (handle : ℕ)
  | fsync (handle : ℕ)
  | ftruncateHandle (handle len : ℕ)
  deriving DecidableEq

/-- The state after an operation, whether it succeeds or not. -/
def Request.step (fs : MemFs) : Request → MemFs
  | open_ path flags => (MemFs.open_ path flags fs).2
  | read handle len => (MemFs.read handle len fs).2
  | write handle buf => (MemFs.write handle buf fs).2
  | close handle => (MemFs.close handle fs).2
  | readdir path => (MemFs.readdir path fs).2
  | readdirInto path room => (MemFs.readdirInto path room fs).2
  | create path => (MemFs.create path fs).2
  | mkdir path => (MemFs.mkdir path fs).2
  | remove path => (MemFs.remove path fs).2
  | removeDir path => (MemFs.removeDir path fs).2
  | truncate path => (MemFs.truncate path fs).2
  | stat path => (MemFs.stat path fs).2
  | rename old new => (MemFs.rename old new fs).2
  | seek handle offset whence => (MemFs.seek handle offset whence fs).2
  | statHandle handle => (MemFs.statHandle handle fs).2
  -- there is nothing to flush in memory
  | fsync _ => fs
  | ftruncateHandle handle len => (MemFs.ftruncateHandle handle len fs).2

/-- The state after a list of operations. -/
def serve (fs : MemFs) (requests : List Request) : MemFs := requests.foldl Request.step fs

/-- **A static node is moved**: a directory with one below it is renamed, and may be. It is not
static itself, and the new path is another one, not below it, free, and in a directory. -/
def Request.MovesStatic (fs : MemFs) : Request → Prop
  | rename old new => (∃ n, findNode fs old = some n ∧ n.fileType = .directory ∧
      n.data.isStatic = false ∧ n.path ≠ []) ∧ clean old ≠ clean new ∧
      ¬(clean old ++ ['/']) <+: clean new ∧ nodeType fs new = none ∧
      parentExists fs (clean new) = true ∧ ∃ m ∈ statics fs, Below (clean old) m.path
  | _ => False

/-! ### Changes that spare static nodes -/

/-- The static nodes are as they were. -/
def Spares (fs fs' : MemFs) : Prop := statics fs' = statics fs

/-- The paths of the nodes have no slashes at their ends. -/
def Named (fs : MemFs) : Prop := ∀ n ∈ fs.nodes, Trimmed n.path

/-- **What every operation but renaming keeps**: the static nodes, and the form of the paths. -/
structure Tame (fs fs' : MemFs) : Prop where
  spares : Spares fs fs'
  named : Named fs → Named fs'

theorem Tame.of_nodes (h : fs'.nodes = fs.nodes) : Tame fs fs' :=
  ⟨congrArg (filter fun n : MemNode => n.data.isStatic) h, fun hfs n hn => hfs n (h ▸ hn)⟩

theorem Tame.refl (fs : MemFs) : Tame fs fs := .of_nodes rfl

theorem Tame.trans {fs1 : MemFs} (h : Tame fs fs1) (h' : Tame fs1 fs') : Tame fs fs' :=
  ⟨h'.spares.trans h.spares, h'.named ∘ h.named⟩

theorem MemData.clear_ok (h : data.clear = .ok data') :
    data.isStatic = false ∧ data'.isStatic = false := by
  cases data <;> cases h
  exact ⟨rfl, rfl⟩

theorem MemData.resize_ok {len : ℕ} (h : data.resize len = .ok data') :
    data.isStatic = false ∧ data'.isStatic = false := by
  cases data <;> cases h
  exact ⟨rfl, rfl⟩

theorem MemData.writeAt_ok {offset : ℕ} {buf : List UInt8}
    (h : data.writeAt offset buf = .ok data') : data.isStatic = false ∧ data'.isStatic = false := by
  cases data <;> cases h
  exact ⟨rfl, rfl⟩

/-- Growing a file first, where that is needed, asks for the same. -/
theorem MemData.isStatic_of_grown {c : Prop} [Decidable c] {len : ℕ}
    (h : (if c then data.resize len else .ok data) = .ok data') (hs : data'.isStatic = false) :
    data.isStatic = false := by
  by_cases hc : c
  · rw [if_pos hc] at h
    exact (MemData.resize_ok h).1
  · rw [if_neg hc] at h
    cases h
    exact hs

theorem tame_setNode (hn : findNode fs path = some n)
    (h : n.data.isStatic = false ∧ data.isStatic = false) :
    Tame fs (setNode path (fun n => { n with data }) fs) := by
  rw [setNode]
  rcases hi : nodeIndex fs path with _ | i
  · exact .refl fs
  · obtain ⟨m, hm, -, hfind⟩ := nodeIndex_some hi
    obtain rfl := some.inj (hn.symm.trans hfind)
    refine ⟨filter_modify_of_not hm h.1 h.2, fun hfs m hm => ?_⟩
    rcases mem_modify hm with hm | ⟨m', hm', rfl⟩
    · exact hfs m hm
    · exact hfs m' hm'

variable {handle len : ℕ} {buf : List UInt8} {flags : OpenFlags}

theorem nodes_setHandle {f : OpenMemHandle → OpenMemHandle} :
    (setHandle handle f fs).nodes = fs.nodes := by
  rw [setHandle]
  split <;> rfl

theorem tame_erase (hn : fs.nodes[i]? = some n) (hs : n.data.isStatic = false)
    (handles : List (ℕ × OpenMemHandle)) :
    Tame fs { fs with nodes := fs.nodes.eraseIdx i, openHandles := handles } :=
  ⟨filter_eraseIdx_of_not hn hs, fun hfs m hm => hfs m (mem_of_mem_eraseIdx hm)⟩

theorem tame_addNode {t : FileType} : Tame fs (addNode path t fs).2 := by
  rcases addNode_cases with ⟨e, hrun⟩ | ⟨fs', ⟨htype, -, rfl⟩, hrun⟩
  · rw [hrun]
    exact .refl fs
  rw [hrun]
  constructor
  · show filter _ (fs.nodes ++ [_]) = _
    rw [filter_append, filter_singleton]
    exact append_nil _
  · intro hfs n hn
    rcases mem_append.mp hn with hn | hn
    · exact hfs n hn
    · rw [mem_singleton.mp hn]
      exact (trimSlashes_eq_nil_or_trimmed path).resolve_left (nodeType_none htype).1

theorem tame_remove : Tame fs (remove path fs).2 := by
  rcases remove_cases path fs with ⟨e, hrun⟩ | ⟨i, n, -, hn, -, -, -, hs, hrun⟩
  · rw [hrun]
    exact .refl fs
  · rw [hrun]
    exact tame_erase hn hs _

theorem tame_removeDir : Tame fs (removeDir path fs).2 := by
  rcases removeDir_cases with ⟨e, hrun⟩ | ⟨i, n, -, hn, -, -, -, hs, -, hrun⟩
  · rw [hrun]
    exact .refl fs
  · rw [hrun]
    exact tame_erase hn hs _

theorem tame_truncate : Tame fs (truncate path fs).2 := by
  rw [truncate, get_bind_run]
  refine ite_after (fun _ => .refl fs) fun _ => okOr_after (.refl fs) fun n hn => ?_
  refine ite_after (fun _ => .refl fs) fun _ => ?_
  exact ofExcept_after (.refl fs) fun data h => tame_setNode hn (MemData.clear_ok h)

theorem tame_write : Tame fs (write handle buf fs).2 := by
  rw [write, get_bind_run]
  refine okOr_after (.refl fs) fun h _ => ite_after (fun _ => .refl fs) fun _ => ?_
  refine handleNode_after (.refl fs) fun n hn => ite_after (fun _ => .refl fs) fun _ => ?_
  refine ofExcept_after (.refl fs) fun grown hgrown => ?_
  refine ofExcept_after (.refl fs) fun data hwrite => ?_
  obtain ⟨hs, hd⟩ := MemData.writeAt_ok hwrite
  have hset := tame_setNode hn ⟨MemData.isStatic_of_grown hgrown hs, hd⟩
  exact hset.trans (.of_nodes nodes_setHandle)

theorem tame_ftruncateHandle : Tame fs (ftruncateHandle handle len fs).2 := by
  rw [ftruncateHandle, get_bind_run]
  refine okOr_after (.refl fs) fun h _ => ite_after (fun _ => .refl fs) fun _ => ?_
  refine handleNode_after (.refl fs) fun n hn => ite_after (fun _ => .refl fs) fun _ => ?_
  exact ofExcept_after (.refl fs) fun data h => tame_setNode hn (MemData.resize_ok h)

theorem tame_openExisting : Tame fs (openExisting path flags fs).2 := by
  rw [openExisting, get_bind_run]
  rcases nodeType fs path with _ | t
  · exact .refl fs
  cases t with
  | directory | device => exact .refl fs
  | file =>
    refine okOr_after (.refl fs) fun n hn => Keeps.after ?_ fun _ => ?_
    · rcases flags.trunc with _ | _
      · exact .refl fs
      · rw [Prog.when, if_pos rfl]
        refine ite_after (fun _ => .refl fs) fun _ => ?_
        exact ofExcept_after (.refl fs) fun data h => tame_setNode hn (MemData.clear_ok h)
    · exact Keeps.get_bind fun t ht => okOr_after ht fun _ _ => ht.trans (.of_nodes rfl)

theorem tame_open : Tame fs (open_ path flags fs).2 := by
  rw [open_]
  refine ite_after (fun _ => .refl fs) fun _ => ?_
  rw [get_bind_run]
  refine ite_after (fun _ => .refl fs) fun _ => ?_
  refine Keeps.after ?_ fun _ t ht => ht.trans tame_openExisting
  rcases (nodeType fs path).isNone && flags.create with _ | _
  · exact .refl fs
  · exact tame_addNode

theorem tame_read : Tame fs (read handle len fs).2 := by
  rw [read, get_bind_run]
  refine okOr_after (.refl fs) fun h _ => ite_after (fun _ => .refl fs) fun _ => ?_
  exact handleNode_after (.refl fs) fun n _ => .of_nodes nodes_setHandle

theorem tame_seek {offset : ℤ} {whence : ℕ} : Tame fs (seek handle offset whence fs).2 := by
  rcases seek_sought handle with h | ⟨i, offset, h⟩
  · rw [h]
    exact .refl fs
  · rw [h]
    exact .of_nodes rfl

theorem tame_close : Tame fs (close handle fs).2 := by
  rcases close_cases handle with ⟨e, hrun⟩ | hrun
  · rw [hrun]
    exact .refl fs
  · rw [hrun]
    exact .of_nodes rfl

theorem readdir_state : (readdir path fs).2 = fs := by
  rw [readdir, get_bind_run]
  refine ite_after (P := fun t => t = fs) (fun _ => rfl) fun _ => ?_
  exact ite_after (P := fun t => t = fs) (fun _ => rfl) fun _ => rfl

theorem readdirInto_state {room : ℕ} : (readdirInto path room fs).2 = fs :=
  Keeps.after (I := fun t => t = fs) readdir_state fun _ _ ht => ht

theorem stat_state : (stat path fs).2 = fs :=
  keeps_stat (I := fun t => t = fs) fs rfl

theorem statHandle_state : (statHandle handle fs).2 = fs := by
  rw [statHandle, get_bind_run]
  exact okOr_after (P := fun t => t = fs) rfl fun h _ => stat_state

/-- **One operation** that does not rename. -/
theorem tame_step {r : Request} (h : ∀ old new, r ≠ .rename old new) : Tame fs (r.step fs) := by
  cases r with
  | rename old new => exact absurd rfl (h old new)
  | open_ => exact tame_open
  | read => exact tame_read
  | write => exact tame_write
  | close => exact tame_close
  | readdir => exact .of_nodes (congrArg nodes readdir_state)
  | readdirInto => exact .of_nodes (congrArg nodes readdirInto_state)
  | create => exact tame_addNode
  | mkdir => exact tame_addNode
  | remove => exact tame_remove
  | removeDir => exact tame_removeDir
  | truncate => exact tame_truncate
  | stat => exact .of_nodes (congrArg nodes stat_state)
  | seek => exact tame_seek
  | statHandle => exact .of_nodes (congrArg nodes statHandle_state)
  | fsync => exact .refl fs
  | ftruncateHandle => exact tame_ftruncateHandle

/-! ### Renaming -/

/-- Renaming a node that is not static moves the static nodes below it, if it is a directory. -/
theorem statics_moved {old new : Path} (hn : fs.nodes[i]? = some n)
    (hs : n.data.isStatic = false) : statics (moved i n old new fs) =
      if n.fileType = .directory then
        (statics fs).map fun m => { m with path := rehome old new m.path }
      else statics fs := by
  have hmodify : (fs.nodes.modify i fun n => { n with path := new }).filter
      (fun n => n.data.isStatic) = statics fs := filter_modify_of_not hn hs hs
  rw [← hmodify, statics, moved]
  by_cases hdir : n.fileType = .directory
  · simp only [hdir, beq_self_eq_true, if_true, List.filter_map, Function.comp_def]
  · simp only [beq_eq_false_iff_ne.mpr hdir, Bool.false_eq_true, if_false, if_neg hdir]

theorem rehome_eq_self_iff {old new : Path} (hne : old ≠ new) :
    rehome old new path = path ↔ ¬Below old path := by
  rcases rehome_cases old new path with ⟨rest, hpath, hmove⟩ | ⟨hbelow, hmove⟩
  · rw [hmove, hpath]
    refine ⟨fun h => absurd (append_cancel_right h).symm hne, fun h => absurd ⟨rest, rfl⟩ h⟩
  · exact ⟨fun _ => hbelow, fun _ => hmove⟩

/-- A rename that is not refused succeeds. -/
theorem rename_ok {old new : Path} (hn : findNode fs old = some n)
    (hs : n.data.isStatic = false) (hroot : n.path ≠ []) (hne : clean old ≠ clean new)
    (hbelow : ¬(clean old ++ ['/']) <+: clean new) (hfree : nodeType fs new = none)
    (hparent : parentExists fs (clean new) = true) :
    rename old new fs = (.ok (), (rename old new fs).2) := by
  rcases hi : nodeIndex fs old with _ | i
  · have hnone : findNode fs old = none := findIdx?_eq_none_iff_find?.mp hi
    rw [hnone] at hn
    cases hn
  obtain ⟨m, hm, hpath, hfind⟩ := nodeIndex_some hi
  obtain rfl := some.inj (hn.symm.trans hfind)
  have hempty : ¬(clean old = [] ∨ clean new = []) := by
    rw [← hpath]
    exact not_or.mpr ⟨hroot, (nodeType_none hfree).1⟩
  have hbelow : ¬(clean old ++ ['/']).isPrefixOf (clean new) = true := fun h =>
    hbelow <| isPrefixOf_iff_prefix.mp h
  rw [rename, get_bind_run, if_neg hempty, if_neg hne, if_neg hbelow, nodeIndex_clean,
    nodeType_clean, hi, okOr_some_bind, okOr_nodes_bind hm, hfree, hparent]
  rcases hdata : n.data with data | data
  · rcases hdir : n.fileType == .directory with _ | _ <;> rfl
  · rw [hdata] at hs
    cases hs

theorem spares_rename_iff {old new : Path} :
    Spares fs (rename old new fs).2 ↔ ¬(Request.rename old new).MovesStatic fs := by
  rcases rename_cases with ⟨e, hrun⟩ | ⟨hsame, hrun⟩ |
    ⟨i, n, hi, hn, hpath, hroot, hne, hbelow, hfree, hparent, hs, hrun⟩
  · refine iff_of_true (by rw [hrun]; rfl) ?_
    rintro ⟨⟨n, hn, -, hs, hpath⟩, hne, hbelow, hfree, hparent, -⟩
    rw [rename_ok hn hs hpath hne hbelow hfree hparent] at hrun
    cases congrArg Prod.fst hrun
  · refine iff_of_true (by rw [hrun]; rfl) ?_
    rintro ⟨-, hne, -⟩
    exact hne hsame
  · obtain ⟨m, hm, -, hfind⟩ := nodeIndex_some hi
    obtain rfl := some.inj (hn.symm.trans hm)
    rw [hrun, Spares, statics_moved hn hs]
    by_cases hdir : n.fileType = .directory
    · have hmap := map_inj_left (l := statics fs) (g := id)
        (f := fun m => { m with path := rehome (clean old) (clean new) m.path })
      rw [List.map_id] at hmap
      rw [if_pos hdir, hmap]
      constructor
      · rintro h ⟨-, -, -, -, -, m, hm, hbelow⟩
        exact (rehome_eq_self_iff hne).mp (congrArg MemNode.path (h m hm)) hbelow
      · intro h m hm
        have hstay : ¬Below (clean old) m.path := fun hm' =>
          h ⟨⟨n, hfind, hdir, hs, hpath ▸ hroot⟩, hne, hbelow, hfree, hparent, m, hm, hm'⟩
        rw [(rehome_eq_self_iff hne).mpr hstay]
        rfl
    · rw [if_neg hdir]
      refine iff_of_true rfl ?_
      rintro ⟨⟨m, hm, htype, -⟩, -⟩
      obtain rfl := some.inj (hfind.symm.trans hm)
      exact hdir htype

/-! ### Runs -/

/-- **What one operation does to static nodes**: they keep their paths and contents, unless a
directory with one of them below it is renamed. -/
theorem spares_step_iff (fs : MemFs) (r : Request) : Spares fs (r.step fs) ↔ ¬r.MovesStatic fs := by
  cases r with
  | rename old new => exact spares_rename_iff
  | _ => exact iff_of_true (tame_step fun _ _ => by simp).spares not_false

theorem serve_concat (fs : MemFs) (rs : List Request) (r : Request) :
    serve fs (rs ++ [r]) = r.step (serve fs rs) := foldl_concat ..

/-- **Static nodes keep their paths and contents** all through a sequence of operations exactly if
no operation of it renames a directory with one of them below it. -/
theorem statics_kept_iff (fs : MemFs) (rs : List Request) :
    (∀ pre, pre <+: rs → statics (serve fs pre) = statics fs) ↔
      ∀ pre r, pre ++ [r] <+: rs → ¬r.MovesStatic (serve fs pre) := by
  constructor
  · intro h pre r hpre
    have hstep := h (pre ++ [r]) hpre
    rw [serve_concat] at hstep
    exact (spares_step_iff _ r).mp
      (hstep.trans (h pre ((prefix_append pre [r]).trans hpre)).symm)
  · intro h pre
    -- what one operation spares, the operations before it have spared
    induction pre using reverseRecOn with
    | nil => exact fun _ => rfl
    | append_singleton pre r ih =>
      intro hpre
      rw [serve_concat]
      exact ((spares_step_iff _ r).mpr (h pre r hpre)).trans
        (ih ((prefix_append pre [r]).trans hpre))

/-- A directory with a file of the boot archive in it. -/
def archived : MemFs where
  nodes := [⟨"assets/icons".toList, .directory, .owned []⟩,
    ⟨"assets/icons/logo".toList, .file, .static [1, 2, 3]⟩]
  nextHandle := 1
  openHandles := []

/-- **A static node is moved**: the directory is made and the file added as at boot, renaming the
directory succeeds, and the path of the file is not there any more. Renaming the file itself is
refused. -/
theorem static_moved :
    archived = (addFile "assets/icons/logo".toList (.static [1, 2, 3])
      (mkdir "assets/icons".toList new).2).2 ∧
      (rename "assets/icons/logo".toList "tmp/logo".toList archived).1 =
        .error .permissionDenied ∧
      (rename "assets/icons".toList "tmp/icons".toList archived).1 = .ok () ∧
      statics (rename "assets/icons".toList "tmp/icons".toList archived).2 =
        [⟨"tmp/icons/logo".toList, .file, .static [1, 2, 3]⟩] ∧
      (stat "assets/icons/logo".toList
        (rename "assets/icons".toList "tmp/icons".toList archived).2).1 = .error .notFound := by
  decide

end MemFs

end DunitOS
