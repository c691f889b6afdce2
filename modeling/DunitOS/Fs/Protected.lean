import DunitOS.Fs.MemFs.Steps
import DunitOS.Fs.SystemCalls

/-!
# Protected roots

The check of `path_is_protected` is made on the text of a normalised path, and the effect of a
call on the nodes of the file system in memory, after the path has been resolved. The two meet in
one fact: whether a path is protected depends on its first component alone
(`Userland.pathIsProtected_below`), so nothing that is done at or below an unprotected
path reaches a protected one.

The calls that change the shape of the tree make the check, and leave all protected entries as
they are. `open` does not make it: a process may create, empty and overwrite a protected file.
-/

namespace DunitOS

open SysLib Prog Vfs DunitFs List Files MemFs Keeps

open MemFs (MemNode)

/-! ### Paths at or below a root -/

/-- A path is that of a root, or below it. -/
def AtOrBelow (root path : Path) : Prop := path = root ∨ Below root path

variable {path : Path}

/-- A slash found behind a text that opens a path. -/
theorem isPrefixOf_slash_iff {root : Path} :
    root.isPrefixOf path = true ∧ (utf8 path)[byteLen root]? = some slash ↔ Below root path := by
  refine (and_congr_left' <| isPrefixOf_iff_prefix).trans ?_
  constructor
  · rintro ⟨⟨t, rfl⟩, hslash⟩
    obtain ⟨t', rfl⟩ := getElem?_byteLen_eq_slash.mp hslash
    exact ⟨t', rfl⟩
  · rintro ⟨t, rfl⟩
    exact ⟨prefix_append _ _, getElem?_byteLen_eq_slash.mpr ⟨t, rfl⟩⟩

theorem covers_iff {Fs : Type} {m : MountPoint Fs} :
    m.covers path = true ↔ AtOrBelow m.path path := by
  rw [MountPoint.covers, Bool.or_eq_true, beq_iff_eq, Bool.and_eq_true, beq_iff_eq,
    isPrefixOf_slash_iff, AtOrBelow]

/-- Two roots of one component that a path is at or below are the same. -/
theorem AtOrBelow.unique {r r' : Path} (hr : '/' ∉ r) (hr' : '/' ∉ r')
    (h : AtOrBelow ('/' :: r) path) (h' : AtOrBelow ('/' :: r') path) : r = r' := by
  -- one root below the other would have a slash in its name
  have hnot : ∀ {p q : Path}, '/' ∉ q → ¬Below ('/' :: p) ('/' :: q) := by
    rintro p q hq ⟨s, hs⟩
    exact hq ((cons.inj hs).2 ▸ by simp)
  have heq : '/' :: r = '/' :: r' ∨ Below ('/' :: r) ('/' :: r') ∨
      Below ('/' :: r') ('/' :: r) := by
    rcases h with rfl | ⟨s, rfl⟩
    · rcases h' with h' | h'
      · exact .inl h'
      · exact .inr (.inr h')
    · rcases h' with h' | ⟨t, ht⟩
      · exact .inr (.inl ⟨s, h'.symm⟩)
      · exact below_cases ht
  rcases heq with heq | hbelow | hbelow
  · exact (cons.inj heq).2
  · exact absurd hbelow (hnot hr')
  · exact absurd hbelow (hnot hr)

variable {abs cwd : Path}

namespace Userland

theorem pathIsProtected_iff :
    pathIsProtected abs = true ↔ ∃ root ∈ protectedRoots, AtOrBelow root abs := by
  rw [pathIsProtected, any_eq_true]
  refine exists_congr fun root => and_congr_right fun _ => ?_
  rw [Bool.or_eq_true, beq_iff_eq, Bool.and_eq_true, Bool.and_eq_true, decide_eq_true_eq,
    beq_iff_eq, and_assoc, and_comm (b := root.isPrefixOf abs = true), isPrefixOf_slash_iff,
    AtOrBelow]
  refine or_congr_right (and_iff_right_of_imp ?_)
  rintro ⟨t, rfl⟩
  have hpos : 0 < byteLen ('/' :: t) :=
    Nat.pos_of_ne_zero fun h0 => cons_ne_nil _ _ (byteLen_eq_zero.mp h0)
  rw [byteLen_append]
  exact Nat.lt_add_of_pos_right hpos

/-- A protected root is a slash and one component. -/
theorem exists_name_of_mem_protectedRoots {root : Path} (h : root ∈ protectedRoots) :
    ∃ r, root = '/' :: r ∧ Trimmed r ∧ '/' ∉ r ∧ r ≠ "persist".toList := by
  have hall : ∀ root ∈ protectedRoots, root.head? = some '/' ∧ Trimmed root.tail ∧
      '/' ∉ root.tail ∧ root.tail ≠ "persist".toList := by decide
  obtain ⟨hhead, hr⟩ := hall root h
  obtain ⟨r, rfl⟩ := head?_eq_some_iff.mp hhead
  exact ⟨r, rfl, hr⟩

/-- **Whether a path is protected is decided by its first component.** -/
theorem pathIsProtected_below (path rest : Path) :
    pathIsProtected ('/' :: (path ++ '/' :: rest)) = pathIsProtected ('/' :: path) := by
  rw [Bool.eq_iff_iff, pathIsProtected_iff, pathIsProtected_iff]
  refine exists_congr fun root => and_congr_right fun hroot => ?_
  obtain ⟨r, rfl, -, hslash, -⟩ := exists_name_of_mem_protectedRoots hroot
  constructor
  · rintro (heq | ⟨t, ht⟩)
    · exact absurd ((cons.inj heq).2 ▸ by simp) hslash
    · rcases below_cases (cons.inj ht).2 with rfl | ⟨s, rfl⟩ | ⟨s, rfl⟩
      · exact .inl rfl
      · exact absurd (by simp) hslash
      · exact .inr ⟨s, rfl⟩
  · rintro (heq | ⟨t, ht⟩)
    · exact .inr ⟨rest, by rw [← heq]; rfl⟩
    · exact .inr ⟨t ++ '/' :: rest, by rw [(cons.inj ht).2]; simp⟩

/-- Slashes at the end of a path do not matter. -/
theorem pathIsProtected_clean (h : path.head? ≠ some '/') :
    pathIsProtected ('/' :: MemFs.clean path) = pathIsProtected ('/' :: path) := by
  obtain ⟨t, ht, hslashes⟩ := trimSlashes_append h
  rcases t with _ | ⟨c, t⟩
  · rw [append_nil] at ht
    rw [MemFs.clean, ← ht]
  · obtain rfl : c = '/' := hslashes c mem_cons_self
    have hbelow := pathIsProtected_below (trimSlashes path) t
    rw [← ht] at hbelow
    exact hbelow.symm

theorem pathIsProtected_clean_below (h : Trimmed path) (rest : Path) :
    pathIsProtected ('/' :: MemFs.clean (path ++ '/' :: rest)) = pathIsProtected ('/' :: path) := by
  rw [pathIsProtected_clean, pathIsProtected_below]
  obtain ⟨c, path, rfl⟩ := exists_cons_of_ne_nil h.1
  exact h.2.1

/-! ### Where a path leads -/

/-- **A protected path leads to the file system in memory**, whether the disk is mounted or not. -/
theorem locate_protected (h : pathIsProtected abs = true) {persist : Bool} :
    (mounts persist).locate abs = .ok (.memfs, trimStart abs) ∧
      pathIsProtected ('/' :: MemFs.clean (trimStart abs)) = true := by
  obtain ⟨root, hroot, habs⟩ := pathIsProtected_iff.mp h
  obtain ⟨r, rfl, htrim, hslash, hpersist⟩ := exists_name_of_mem_protectedRoots hroot
  have hselected : (mounts persist).selected abs = none := by
    cases persist with
    | false => rfl
    | true =>
      have hcovers : (MountPoint.mk persistPath Backend.dunitfs).covers abs = false := by
        rw [← Bool.not_eq_true, covers_iff]
        exact fun hp => hpersist (AtOrBelow.unique hslash (by decide) habs hp)
      simp [VirtualFileSystem.selected, mounts, keepLargest, hcovers]
  obtain ⟨tail, htail, hhead⟩ : ∃ tail, abs = '/' :: tail ∧ tail.head? ≠ some '/' := by
    obtain ⟨c, r, rfl⟩ := exists_cons_of_ne_nil htrim.1
    rcases habs with rfl | ⟨t, rfl⟩ <;> exact ⟨_, rfl, htrim.2.1⟩
  have hstart : trimStart abs = tail := by
    rw [htail, trimStart_slash, trimStart]
    rcases tail with _ | ⟨c, tail⟩
    · rfl
    · exact dropWhile_cons_of_neg (by simpa using hhead)
  refine ⟨by rw [VirtualFileSystem.locate, hselected]; rfl, ?_⟩
  rw [hstart, pathIsProtected_clean hhead, ← htail, h]

/-- An unprotected path leads to an unprotected path of the file system in memory, or elsewhere. -/
theorem resolvePath_unprotected {relative : Path} {persist : Bool}
    (hnorm : normalizeAt cwd path = .ok abs) (habs : pathIsProtected abs = false)
    (h : (mounts persist).resolvePath path cwd pathBuffer = .ok (.memfs, relative)) :
    pathIsProtected ('/' :: MemFs.clean relative) = false := by
  rw [normalizeAt, normalizePathInto_eq] at hnorm
  split_ifs at hnorm with hfits
  cases hnorm
  have hproper := proper_resolved path cwd
  rw [VirtualFileSystem.resolvePath_of_fits hfits, VirtualFileSystem.locate] at h
  rcases hsel : (mounts persist).selected (render (resolved path cwd)) with _ | m
  · rw [hsel] at h
    obtain rfl : trimStart (render (resolved path cwd)) = relative := by
      simpa [mounts] using h
    rw [trimStart_render hproper]
    have hhead : (['/'].intercalate (resolved path cwd)).head? ≠ some '/' := fun hc => by
      have htrim := trimStart_intercalate hproper
      obtain ⟨t, ht⟩ := head?_eq_some_iff.mp hc
      rw [ht, trimStart_slash] at htrim
      have hlen := congrArg length htrim
      have hle := length_dropWhile_le (· == '/') t
      rw [length_cons] at hlen
      unfold trimStart at hlen
      omega
    rwa [pathIsProtected_clean hhead]
  · -- the only other mount point is the disk
    rw [hsel] at h
    have hm : m ∈ (mounts persist).mounts := by
      rcases keepLargest_spec (fun m => m.covers (render (resolved path cwd)))
        (fun m => byteLen m.path) (mounts persist).mounts with ⟨hnone, -⟩ | ⟨b, hb, hmem, -⟩
      · rw [VirtualFileSystem.selected, hnone] at hsel
        cases hsel
      · rw [VirtualFileSystem.selected, hb] at hsel
        cases hsel
        exact hmem
    have hfs : m.fs = .memfs := by
      injection h with h
      exact (Prod.mk.inj h).1
    cases persist with
    | false => cases hm
    | true =>
      obtain rfl := mem_singleton.mp hm
      cases hfs

end Userland

/-! ### Protected nodes -/

variable {flags : OpenFlags} {new : Path}

namespace MemFs

open Userland

/-- The nodes whose paths are protected. -/
def protectedNodes (fs : MemFs) : List MemNode :=
  fs.nodes.filter fun n => pathIsProtected ('/' :: n.path)

/-- **No open file of a protected path can be written.** -/
def Barred (fs : MemFs) : Prop :=
  ∀ h ∈ fs.openHandles, h.2.flags.canWrite = true →
    pathIsProtected ('/' :: clean h.2.path) = false

/-- **The protected nodes are as they were**, and where it matters no open file threatens them. -/
def Sealed (G : List MemNode) (B : Prop) (fs : MemFs) : Prop :=
  protectedNodes fs = G ∧ (B → Barred fs)

variable {G : List MemNode} {B : Prop} {fs fs' : MemFs} {path : Path}

section

variable (h : Sealed G B fs)

include h

theorem Sealed.added {t : FileType} (hadd : Added path t fs fs')
    (hp : pathIsProtected ('/' :: clean path) = false) : Sealed G B fs' := by
  obtain ⟨-, -, rfl⟩ := hadd
  refine ⟨?_, h.2⟩
  rw [← h.1, protectedNodes, filter_append, filter_cons_of_neg (by simp [hp]),
    filter_nil, append_nil]
  rfl

theorem Sealed.refilled (hfill : Refilled path fs fs')
    (hp : pathIsProtected ('/' :: clean path) = false) : Sealed G B fs' := by
  obtain rfl | ⟨i, n, data, hn, hpath, rfl⟩ := hfill
  · exact h
  · rw [← hpath] at hp
    exact ⟨(filter_modify_of_not hn hp hp).trans h.1, h.2⟩

theorem Sealed.sought (hseek : Sought fs fs') : Sealed G B fs' := by
  obtain rfl | ⟨i, offset, rfl⟩ := hseek
  · exact h
  · refine ⟨h.1, fun hB e he hwrite => ?_⟩
    rcases mem_modify he with he | ⟨e', he', rfl⟩
    · exact h.2 hB e he hwrite
    · exact h.2 hB e' he' hwrite

theorem Sealed.written {handle : ℕ} (hB : B) (hw : Written handle fs fs') : Sealed G B fs' := by
  obtain rfl | ⟨e, fs1, he, hwrite, hfill, hseek⟩ := hw
  · exact h
  · obtain ⟨l1, l2, hl, -⟩ := lookup_eq_some_iff.mp he
    have hmem : (handle, e) ∈ fs.openHandles := by rw [hl]; simp
    exact (h.refilled hfill (h.2 hB _ hmem hwrite)).sought hseek

section

variable (hp : pathIsProtected ('/' :: clean path) = false)

include hp

theorem sealed_addNode {t : FileType} : Sealed G B (addNode path t fs).2 := by
  rcases addNode_cases with ⟨e, he⟩ | ⟨fs', hadd, hrun⟩
  · rw [he]
    exact h
  · rw [hrun]
    exact h.added hadd hp

theorem sealed_remove : Sealed G B (remove path fs).2 := by
  rcases remove_cases path fs with ⟨e, he⟩ | ⟨i, n, -, hn, hpath, -, -, -, hrun⟩
  · rw [he]
    exact h
  · rw [hrun]
    rw [← hpath] at hp
    exact ⟨(filter_eraseIdx_of_not hn hp).trans h.1, fun hB e he => h.2 hB e (mem_of_mem_filter he)⟩

theorem sealed_removeDir : Sealed G B (removeDir path fs).2 := by
  rcases removeDir_cases with ⟨e, he⟩ | ⟨i, n, -, hn, hpath, -, -, -, -, hrun⟩
  · rw [he]
    exact h
  · rw [hrun]
    rw [← hpath] at hp
    exact ⟨(filter_eraseIdx_of_not hn hp).trans h.1, h.2⟩

end

end

/-- A path that is moved with an unprotected directory is unprotected before and after. -/
theorem pathIsProtected_rehome {old : Path} (hold : pathIsProtected ('/' :: old) = false)
    (hnew : pathIsProtected ('/' :: new) = false) :
    rehome old new path = path ∨ (pathIsProtected ('/' :: path) = false ∧
        pathIsProtected ('/' :: rehome old new path) = false) := by
  rcases rehome_cases old new path with ⟨rest, rfl, hmoved⟩ | ⟨-, hfix⟩
  · rw [hmoved, pathIsProtected_below, pathIsProtected_below]
    exact .inr ⟨hold, hnew⟩
  · exact .inl hfix

theorem sealed_rename {old : Path} (h : Sealed G B fs)
    (hold : pathIsProtected ('/' :: clean old) = false)
    (hnew : pathIsProtected ('/' :: clean new) = false) : Sealed G B (rename old new fs).2 := by
  rcases rename_cases with ⟨e, he⟩ | ⟨-, hsame⟩ |
    ⟨i, n, -, hn, hpath, hne, -, -, hfree, -, -, hrun⟩
  · rw [he]
    exact h
  · rw [hsame]
    exact h
  rw [hrun]
  have hmodify : (fs.nodes.modify i fun n => { n with path := clean new }).filter
      (fun n => pathIsProtected ('/' :: n.path)) = G :=
    (filter_modify_of_not hn (by rwa [hpath]) hnew).trans h.1
  refine ⟨?_, fun hB e he hwrite => ?_⟩
  · simp only [protectedNodes, moved]
    split_ifs
    · refine (filter_map_of_fixes (fun m _ hm => ?_) fun m _ hm => ?_).trans hmodify
      · rcases pathIsProtected_rehome hold hnew with hfix | ⟨hm', -⟩
        · rw [hfix]
        · rw [hm] at hm'
          cases hm'
      · rcases pathIsProtected_rehome hold hnew with hfix | ⟨-, hm'⟩
        · rwa [hfix]
        · exact hm'
    · exact hmodify
  · -- a handle moves with its file
    obtain ⟨e', he', rfl⟩ := mem_map.mp he
    have htrim : Trimmed (clean new) :=
      (trimSlashes_eq_nil_or_trimmed new).resolve_left (nodeType_none hfree).1
    have hkept := h.2 hB e' he' hwrite
    have hstep : pathIsProtected ('/' :: clean (if (n.fileType == .directory) = true then
        rehome (clean old) (clean new) e'.2.path else e'.2.path)) = false := by
      split_ifs
      · rcases rehome_cases (clean old) (clean new) e'.2.path with ⟨rest, -, hmoved⟩ | ⟨-, hfix⟩
        · rw [hmoved, pathIsProtected_clean_below htrim, hnew]
        · rwa [hfix]
      · exact hkept
    simp only
    split_ifs at hstep ⊢ <;> first | exact hstep | rwa [clean_clean]

theorem sealed_open (h : Sealed G B fs) (hp : pathIsProtected ('/' :: clean path) = true →
      flags.create = false ∧ flags.canWrite = false) : Sealed G B (open_ path flags fs).2 := by
  obtain ⟨fs', ⟨fs1, hcreate, hfill⟩, hend⟩ := open_cases
  have hfs1 : Sealed G B fs1 := by
    rcases hcreate with rfl | ⟨hflag, hadd⟩
    · exact h
    · refine h.added hadd (Bool.eq_false_iff.mpr fun hc => ?_)
      rw [(hp hc).1] at hflag
      cases hflag
  have hfs' : Sealed G B fs' := by
    rcases hfill with rfl | ⟨hflag, hfill⟩
    · exact hfs1
    · refine hfs1.refilled hfill (Bool.eq_false_iff.mpr fun hc => ?_)
      rw [(hp hc).2] at hflag
      cases hflag
  rcases hend with ⟨e, he⟩ | ⟨n, offset, -, -, hrun⟩
  · rw [he]
    exact hfs'
  · rw [hrun]
    refine ⟨hfs'.1, fun hB e he hwrite => ?_⟩
    rcases mem_append.mp he with he | he
    · exact hfs'.2 hB e he hwrite
    · obtain rfl := mem_singleton.mp he
      rw [clean_clean]
      refine Bool.eq_false_iff.mpr fun hc => ?_
      have hwrite : flags.canWrite = true := hwrite
      rw [(hp hc).2] at hwrite
      cases hwrite

theorem sealed_close {handle : ℕ} (h : Sealed G B fs) : Sealed G B (close handle fs).2 := by
  rcases close_cases handle with ⟨e, he⟩ | hrun
  · rw [he]
    exact h
  · rw [hrun]
    exact ⟨h.1, fun hB e he => h.2 hB e (mem_of_mem_eraseP he)⟩

end MemFs

/-! ### Calls of the virtual file system -/

namespace Files

open Userland

variable {G : List MemNode} {B : Prop} {α : Type}

/-- The same of the whole virtual file system: the disk holds nothing that is protected. -/
def Sealed (G : List MemNode) (B : Prop) (s : Files) : Prop := MemFs.Sealed G B s.memfs

theorem sealed_dispatch {m : MemFs.MemM α} {d : DunitFs.FsM α} {fs : Backend}
    (hm : fs = .memfs → ∀ fs, MemFs.Sealed G B fs → MemFs.Sealed G B (m fs).2) :
    Keeps (Sealed G B) (dispatch m d fs) := by
  intro s hs
  cases fs with
  | memfs =>
    have hm := hm rfl s.memfs hs
    rw [dispatch, onMemfs]
    rcases hrun : m s.memfs with ⟨e | a, t⟩
    · rwa [hrun] at hm
    · rwa [hrun] at hm
  | dunitfs =>
    rw [dispatch, onDunitfs]
    rcases d s.dunitfs with ⟨e | a, t⟩
    · exact hs
    · exact hs

/-- What is done where a path leads. -/
theorem sealed_resolve {act : Backend × Path → FilesM α}
    (hact : ∀ fs relative persist, (mounts persist).resolvePath path cwd pathBuffer =
      .ok (fs, relative) → Keeps (Sealed G B) (act (fs, relative))) :
    Keeps (Sealed G B) (resolvePath cwd path >>= act) := by
  intro s hs
  change Sealed G B ((Prog.ofExcept
    (((mounts s.persist).resolvePath path cwd pathBuffer).mapError .err) >>= act) s).2
  refine ofExcept_after hs fun a ha => ?_
  rcases hres : (mounts s.persist).resolvePath path cwd pathBuffer with e | r
  · rw [hres] at ha
    cases ha
  · rw [hres] at ha
    cases ha
    exact hact _ _ s.persist hres s hs

section

variable {cwd path abs : Path} (hnorm : normalizeAt cwd path = .ok abs)
variable (habs : pathIsProtected abs = false)

include hnorm habs

theorem sealed_mkdirAt : Keeps (Sealed G B) (mkdirAt cwd path) :=
  sealed_resolve fun _ _ _ hres => sealed_dispatch fun hfs _ h =>
    sealed_addNode h (resolvePath_unprotected hnorm habs (hfs ▸ hres))

theorem sealed_removeAt : Keeps (Sealed G B) (removeAt cwd path) :=
  sealed_resolve fun _ _ _ hres => sealed_dispatch fun hfs _ h =>
    sealed_remove h (resolvePath_unprotected hnorm habs (hfs ▸ hres))

theorem sealed_removeDirAt : Keeps (Sealed G B) (removeDirAt cwd path) :=
  sealed_resolve fun _ _ _ hres => sealed_dispatch fun hfs _ h =>
    sealed_removeDir h (resolvePath_unprotected hnorm habs (hfs ▸ hres))

theorem sealed_renameAt {newAbs : Path} (hnorm' : normalizeAt cwd new = .ok newAbs)
    (habs' : pathIsProtected newAbs = false) :
    Keeps (Sealed G B) (renameAt cwd path new) := by
  refine sealed_resolve fun oldFs oldRel _ hres => sealed_resolve fun newFs newRel _ hres' => ?_
  by_cases hsame : oldFs = newFs
  · subst hsame
    refine .ite (.stop _) (sealed_dispatch fun hfs _ h => ?_)
    exact sealed_rename h (resolvePath_unprotected hnorm habs (hfs ▸ hres))
      (resolvePath_unprotected hnorm' habs' (hfs ▸ hres'))
  · simp only [ne_eq, hsame, not_false_eq_true, if_true]
    exact .stop _

end

theorem sealed_openFile {fd : ℕ} {act : OpenFile → FilesM α}
    (hact : ∀ f, Keeps (Sealed G B) (act f)) :
    Keeps (Sealed G B) (openFile fd >>= act) := by
  refine .bind (.get_bind fun s hs => ?_) hact
  rcases s.openFiles fd with _ | f
  · exact hs
  · exact hs

theorem sealed_dropFile {f : OpenFile} : Keeps (Sealed G B) (dropFile f) := fun s hs =>
  sealed_dispatch (fun _ _ h => sealed_close h) s hs

theorem sealed_insertFile {fd : ℕ} {f : OpenFile} : Keeps (Sealed G B) (insertFile fd f) := by
  refine .get_bind fun s hs => ?_
  rcases s.openFiles fd with _ | old
  · exact hs
  · exact sealed_dropFile _ hs

theorem sealed_openAt (hflags : ∀ abs, normalizeAt cwd path = .ok abs → pathIsProtected abs = true →
      flags.create = false ∧ flags.canWrite = false) :
    Keeps (Sealed G B) (openAt cwd path flags) := by
  refine sealed_resolve fun fs relative persist hres => ?_
  refine .bind (sealed_dispatch fun hfs _ h => sealed_open h fun hp => ?_)
    fun handle => ?_
  · subst hfs
    rcases hnorm : normalizeAt cwd path with e | abs
    · rw [VirtualFileSystem.resolvePath] at hres
      rw [normalizeAt] at hnorm
      rw [hnorm] at hres
      cases hres
    · refine hflags abs hnorm (Bool.not_eq_false _ ▸ fun habs => ?_)
      rw [resolvePath_unprotected hnorm habs hres] at hp
      cases hp
  · refine .get_bind fun s hs => ?_
    exact bind (modify (by exact fun _ h => h))
      (fun _ => .bind sealed_insertFile fun _ => .pure _) s hs

theorem sealed_write (hB : B) {fd : ℕ} {buf : List UInt8} : Keeps (Sealed G B) (write fd buf) :=
  sealed_openFile fun _ => sealed_dispatch fun _ fs h => h.written hB (write_written _)

theorem sealed_ftruncate (hB : B) {fd len : ℕ} : Keeps (Sealed G B) (ftruncate fd len) :=
  sealed_openFile fun _ => sealed_dispatch fun _ fs h =>
    h.written hB ftruncateHandle_written

theorem sealed_seek {fd : ℕ} {offset : ℤ} {whence : ℕ} :
    Keeps (Sealed G B) (seek fd offset whence) :=
  sealed_openFile fun _ => sealed_dispatch fun _ fs h =>
    h.sought (seek_sought _)

theorem sealed_close (fd : ℕ) : Keeps (Sealed G B) (close fd) :=
  sealed_openFile fun f => .ite (.modify (by exact fun _ h => h))
    (.bind (.modify (by exact fun _ h => h)) fun _ => sealed_dropFile)

end Files

/-! ### System calls -/

variable {u : Userland}

namespace Userland

variable {G : List MemNode} {B : Prop} {α : Type}

/-- The same of the system. -/
def Sealed (G : List MemNode) (B : Prop) (u : Userland) : Prop := Files.Sealed G B u.files

theorem sealed_onFiles {m : Files.FilesM α} (h : Keeps (Files.Sealed G B) m) :
    Keeps (Sealed G B) (onFiles m) := by
  intro u hu
  have hm := h u.files hu
  rw [onFiles]
  rcases hrun : m u.files with ⟨e | a, t⟩
  · rwa [hrun] at hm
  · rwa [hrun] at hm

theorem sealed_quietly {m : Files.FilesM α} (h : Keeps (Files.Sealed G B) m) :
    Keeps (Sealed G B) (quietly m) := fun u hu => h u.files hu

theorem sealed_currentProcess {pid : ℕ} : Keeps (Sealed G B) (currentProcess pid) := by
  refine .get_bind fun u hu => ?_
  rcases u.processes pid with _ | p
  · exact hu
  · exact hu

theorem sealed_setProcess {pid : ℕ} {p : UserProcess} :
    Keeps (Sealed G B) (setProcess pid p) := .modify fun _ hu => hu

/-- What comes after a path has been normalised may rely on the outcome. -/
theorem sealed_normalize {f : Path → CallM α}
    (h : ∀ abs, normalizeAt cwd path = .ok abs → Keeps (Sealed G B) (f abs)) :
    Keeps (Sealed G B) (normalize cwd path >>= f) := by
  refine .ofExcept_bind fun abs habs => h abs ?_
  rcases hnorm : normalizeAt cwd path with e | abs'
  · rw [hnorm] at habs
    cases habs
  · rw [hnorm] at habs
    cases habs
    rfl

theorem sealed_onUnprotected {act : Path → Path → Files.FilesM Unit}
    (hact : ∀ cwd path abs, normalizeAt cwd path = .ok abs → pathIsProtected abs = false →
      Keeps (Files.Sealed G B) (act cwd path)) {pid : ℕ} {path : Except Errno Path} :
    Keeps (Sealed G B) (onUnprotected act pid path) :=
  ofExcept_bind fun path _ => sealed_currentProcess.bind fun p =>
    sealed_normalize fun abs hnorm => .refuse_bind fun habs =>
      (sealed_onFiles (hact p.cwd path abs hnorm habs)).bind fun _ => .pure 0

theorem sealed_sysRename {pid : ℕ} {old new : Except Errno Path} :
    Keeps (Sealed G B) (sysRename pid old new) := by
  refine .ofExcept_bind fun old _ => .ofExcept_bind fun new _ =>
    sealed_currentProcess.bind fun p => sealed_normalize fun oldAbs hold =>
      sealed_normalize fun newAbs hnew => .refuse_bind fun habs => ?_
  rw [Bool.or_eq_false_iff] at habs
  exact (sealed_onFiles (sealed_renameAt hold habs.1 hnew habs.2)).bind fun _ =>
    pure 0

theorem sealed_sysChdir {pid : ℕ} {path : Except Errno Path} :
    Keeps (Sealed G B) (sysChdir pid path) := by
  refine .ofExcept_bind fun path _ => sealed_currentProcess.bind fun p => ?_
  have hstat : Keeps (Files.Sealed G B) (statAt p.cwd path) :=
    sealed_resolve fun fs relative _ _ => sealed_dispatch fun _ => keeps_stat
  exact (sealed_onFiles hstat).bind fun _ => .refuse_bind fun _ =>
    sealed_normalize fun _ _ => sealed_setProcess.bind fun _ => .pure 0

/-- What comes after a descriptor has been looked up. -/
theorem sealed_getFd {pid fd : ℕ} : Keeps (Sealed G B) (getFd pid fd) := by
  refine .get_bind fun u hu => ?_
  rcases (u.processes pid).bind fun p => p.fdTable fd with _ | target
  · exact hu
  · exact hu

theorem sealed_sysWrite (hB : B) {pid fd : ℕ} {buf : Except Errno (List UInt8)} :
    Keeps (Sealed G B) (sysWrite pid fd buf) := by
  refine .refuse_bind fun _ => .ite (.pure 0) ?_
  refine .ofExcept_bind fun buf _ => sealed_getFd.bind fun target => ?_
  cases target with
  | stdin => exact .stop _
  | stdout | stderr => exact .pure _
  | vfs vfsFd => exact sealed_onFiles (sealed_write hB)

theorem sealed_sysSeek {pid fd : ℕ} {offset : ℤ} {whence : ℕ} :
    Keeps (Sealed G B) (sysSeek pid fd offset whence) := by
  refine .refuse_bind fun _ => sealed_getFd.bind fun target => ?_
  cases target with
  | vfs vfsFd => exact sealed_onFiles sealed_seek
  | _ => exact .stop _

theorem sealed_sysTruncate (hB : B) {pid fd : ℕ} {length : ℤ} :
    Keeps (Sealed G B) (sysTruncate pid fd length) := by
  refine .refuse_bind fun _ => .refuse_bind fun _ =>
    sealed_getFd.bind fun target => ?_
  cases target with
  | vfs vfsFd =>
    exact (sealed_onFiles (sealed_ftruncate hB)).bind fun _ => .pure 0
  | _ => exact .stop _

theorem sealed_applyFdCleanup {cleanup : Option ℕ} :
    Keeps (Sealed G B) (applyFdCleanup cleanup) := by
  cases cleanup with
  | none => exact .pure ()
  | some vfsFd => exact sealed_quietly (sealed_close vfsFd)

theorem sealed_sysClose {pid fd : ℕ} : Keeps (Sealed G B) (sysClose pid fd) := by
  refine .refuse_bind fun _ => sealed_getFd.bind fun target => ?_
  cases target with
  | vfs =>
    exact sealed_currentProcess.bind fun p => sealed_setProcess.bind fun _ =>
      sealed_applyFdCleanup.bind fun _ => .pure 0
  | _ => exact .stop _

/-- The calls that change the shape of the tree, and `chdir`. -/
def FileCall.Restructures : FileCall → Prop
  | unlink _ | rmdir _ | mkdir _ | rename _ _ | chdir _ => True
  | _ => False

/-- **A call that makes the check** reaches nothing protected. -/
theorem sealed_restructures {c : FileCall} (hc : c.Restructures) {pid : ℕ} :
    Keeps (Sealed G B) (c.exec pid) := by
  cases c with
  | unlink path =>
    exact sealed_onUnprotected (fun _ _ _ hnorm habs => sealed_removeAt hnorm habs)
  | rmdir path =>
    exact sealed_onUnprotected (fun _ _ _ hnorm habs => sealed_removeDirAt hnorm habs)
  | mkdir path =>
    exact sealed_onUnprotected (fun _ _ _ hnorm habs => sealed_mkdirAt hnorm habs)
  | rename old new => exact sealed_sysRename
  | chdir path => exact sealed_sysChdir
  | open_ | write | seek | truncate | close => exact hc.elim

/-- **An open that changes nothing protected**: whoever opens a protected path asks neither for
the file to be created nor for write access. -/
def FileCall.Harmless (u : Userland) (pid : ℕ) : FileCall → Prop
  | open_ (.ok path) flags => ∀ p abs, u.processes pid = some p →
      Files.normalizeAt p.cwd path = .ok abs → pathIsProtected abs = true →
        flags.create = false ∧ flags.canWrite = false
  | _ => True

theorem sealed_sysOpen {pid : ℕ} {path : Except Errno Path}
    (hu : Sealed G B u) (hc : (FileCall.open_ path flags).Harmless u pid) :
    Sealed G B (sysOpen pid path flags u).2 := by
  refine ofExcept_after hu fun path hpath => ?_
  subst hpath
  rw [refuse_bind_run]
  rcases flags.isValid with _ | _
  · exact hu
  rcases hproc : u.processes pid with _ | p
  · have hrun : currentProcess pid u = (.error .einval, u) := by
      rw [currentProcess, get_bind_run, hproc]
      rfl
    rw [if_neg (by simp), bind_error hrun]
    exact hu
  have hrun : currentProcess pid u = (.ok p, u) := by
    rw [currentProcess, get_bind_run, hproc]
    rfl
  rw [if_neg (by simp), bind_ok hrun]
  refine after
    (sealed_onFiles (sealed_openAt fun abs hnorm habs => hc p abs hproc hnorm habs) u hu)
    fun vfsFd => ?_
  rcases p.openVfsFd vfsFd with ⟨_ | fd, p'⟩
  · exact sealed_setProcess.bind fun _ =>
      (sealed_quietly (sealed_close vfsFd)).bind fun _ => stop _
  · exact sealed_setProcess.bind fun _ => pure _

theorem sealed_exec {pid : ℕ} {c : FileCall} (hB : B) (hu : Sealed G B u)
    (hc : c.Harmless u pid) : Sealed G B (c.exec pid u).2 := by
  cases c with
  | open_ => exact sealed_sysOpen hu hc
  | write fd buf => exact sealed_sysWrite hB u hu
  | seek fd offset whence => exact sealed_sysSeek u hu
  | truncate fd length => exact sealed_sysTruncate hB u hu
  | close fd => exact sealed_sysClose u hu
  | _ =>
    refine sealed_restructures ?_ u hu
    trivial

/-! ### What paths show -/

end Userland

/-- What a path of the file system in memory shows: the type of the entry and its bytes. -/
def MemFs.entry (fs : MemFs) (path : Path) : Option (FileType × List UInt8) :=
  (nodeType fs path).map fun t => (t, ((findNode fs path).map fun n => n.data.asSlice).getD [])

/-- What a path of the disk shows. -/
def DunitFs.entry (w : DunitFs.World) (path : Path) : Option (FileType × List UInt8) := do
  let (t, _) ← (DunitFs.stat path w).1.toOption
  some (t, (((DunitFs.readFile w path).bind fun f => f.2.toOption).getD []))

/-- **What an absolute path shows**: the type of the entry and its bytes, if there is one. -/
def Files.entry (s : Files) (abs : Path) : Option (FileType × List UInt8) :=
  match (Files.mounts s.persist).locate abs with
  | .ok (.memfs, relative) => s.memfs.entry relative
  | .ok (.dunitfs, relative) => DunitFs.entry s.dunitfs relative
  | .error _ => none

namespace Userland

/-- What a protected path shows is read off the protected nodes. -/
theorem entry_eq_of_protectedNodes {s t : Files}
    (h : s.memfs.protectedNodes = t.memfs.protectedNodes)
    (habs : pathIsProtected abs = true) : s.entry abs = t.entry abs := by
  have hfind : ∀ {path}, pathIsProtected ('/' :: MemFs.clean path) = true →
      s.memfs.findNode path = t.memfs.findNode path := by
    intro path hp
    have himp : ∀ n : MemNode, (n.path == MemFs.clean path) = true →
        pathIsProtected ('/' :: n.path) = true := fun n hn => by rwa [beq_iff_eq.mp hn]
    rw [findNode, findNode, ← find?_filter_of_imp himp]
    exact (congrArg _ h).trans (find?_filter_of_imp himp)
  obtain ⟨hs, hp⟩ := locate_protected habs
  obtain ⟨ht, -⟩ := locate_protected habs
  rw [Files.entry, Files.entry, hs, ht]
  simp only [MemFs.entry, MemFs.nodeType, MemFs.findNode_clean, hfind hp]

/-- **Protected roots cannot be restructured**: however often and by whomever paths are unlinked,
made and renamed and working directories changed, what every protected path shows stays the
same. -/
theorem restructuring_spares_protected (u : Userland) (calls : List (ℕ × FileCall))
    (hcalls : ∀ c ∈ calls, c.2.Restructures) (abs : Path) (habs : pathIsProtected abs = true) :
    (runCalls u calls).files.entry abs = u.files.entry abs := by
  have hrun : Sealed u.files.memfs.protectedNodes False (runCalls u calls) := by
    have hstart : Sealed u.files.memfs.protectedNodes False u := ⟨rfl, False.elim⟩
    rw [runCalls]
    refine foldlRecOn calls _ hstart fun v hv c hc => ?_
    exact sealed_restructures (hcalls c hc) v hv
  exact entry_eq_of_protectedNodes hrun.1 habs

/-- A system with two files, one of them protected, and a process in `/app`. -/
def twoFiles : Userland where
  files :=
    { memfs := ⟨[⟨"app/sh".toList, .file, .owned [1, 2]⟩, ⟨"tmp/x".toList, .file, .owned [3]⟩], 1,
        []⟩
      dunitfs := DunitFs.smallWorld
      persist := false
      openFiles := fun _ => none
      nextFd := 3 }
  processes := fun pid =>
    if pid = 1 then some ⟨"/app".toList, fun _ => none, fun _ => 0, 3⟩ else none

theorem restructuring_spares_protected_shell :
    (runCalls twoFiles [(1, .unlink (.ok "..//app/./sh/".toList)),
      (1, .rename (.ok "/tmp/x".toList) (.ok "sh".toList)),
      (1, .unlink (.ok "../tmp/x".toList))]).files.entry "/app/sh".toList =
      twoFiles.files.entry "/app/sh".toList :=
  restructuring_spares_protected twoFiles _ (by simp [FileCall.Restructures]) _ (by decide)

/-- Every call of a run is harmless where it is made. -/
def HarmlessRun : Userland → List (ℕ × FileCall) → Prop
  | _, [] => True
  | u, c :: calls => c.2.Harmless u c.1 ∧ HarmlessRun (c.2.exec c.1 u).2 calls

theorem sealed_runCalls {G : List MemNode} {calls : List (ℕ × FileCall)}
    (hu : Sealed G True u) (h : HarmlessRun u calls) : Sealed G True (runCalls u calls) := by
  induction calls generalizing u with
  | nil => exact hu
  | cons c calls ih => exact ih (sealed_exec trivial hu h.1) h.2

/-- **Where system files are safe**: as long as nobody opens a protected path with the wish to
create or to write, nothing protected is created, and no protected file changes. -/
theorem harmless_run_spares_protected (u : Userland) (hu : u.files.memfs.Barred)
    (calls : List (ℕ × FileCall)) (h : HarmlessRun u calls) (abs : Path)
    (habs : pathIsProtected abs = true) :
    (runCalls u calls).files.entry abs = u.files.entry abs := by
  have hstart : Sealed u.files.memfs.protectedNodes True u := ⟨rfl, fun _ => hu⟩
  exact entry_eq_of_protectedNodes (sealed_runCalls hstart h).1 habs

theorem harmless_run_spares_protected_shell :
    (runCalls twoFiles [(1, .open_ (.ok "sh".toList) .READ),
      (1, .write 3 (.ok [9])), (1, .truncate 3 0), (1, .close 3)]).files.entry "/app/sh".toList =
      twoFiles.files.entry "/app/sh".toList := by
  refine harmless_run_spares_protected twoFiles (by simp [MemFs.Barred, twoFiles]) _ ?_ _
    (by decide)
  exact ⟨fun p abs _ _ _ => ⟨by decide, by decide⟩, trivial, trivial, trivial, trivial⟩

/-- **A process overwrites a program and adds one**: the file behind `/app/sh` is emptied and
written, and `/app/y` is created. -/
theorem process_writes_protected :
    let calls := [(1, FileCall.open_ (.ok "sh".toList) ⟨2 + 8⟩), (1, .write 3 (.ok [9])),
      (1, .open_ (.ok "/app/y".toList) ⟨2 + 4⟩)]
    pathIsProtected "/app/sh".toList = true ∧ pathIsProtected "/app/y".toList = true ∧
      twoFiles.files.entry "/app/sh".toList = some (.file, [1, 2]) ∧
      (runCalls twoFiles calls).files.entry "/app/sh".toList = some (.file, [9]) ∧
      twoFiles.files.entry "/app/y".toList = none ∧
      (runCalls twoFiles calls).files.entry "/app/y".toList = some (.file, []) := by
  decide +kernel

end Userland

end DunitOS
