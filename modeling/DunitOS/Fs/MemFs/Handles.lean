import DunitOS.Fs.MemFs.Namespace

/-!
# Open handles of the file system in memory

A file is followed through a run by the position of its node (`MemFs.followRun`), which a
removal of another node may shift. A handle addresses the file it was opened on as long as that
file is there, and none afterwards, provided that its number is not given out again. Numbers come
from a counter of 64 bits, so this is so for as many opens as there are numbers
(`MemFs.handles_follow`) and not beyond.
-/

namespace DunitOS

open SysLib Vfs List Option Prog MemFs List.Sublist

open DunitFs (Below renamed renamed_self)

namespace MemFs

variable {fs fs' : MemFs} {path : Path} {i : ℕ} {n m : MemNode}

/-! ### Operations -/

/-- The operations on names and handles. -/
inductive Op where
  | create (path : Path)
  | mkdir (path : Path)
  | rename (old new : Path)
  | remove (path : Path)
  | removeDir (path : Path)
  | open_ (path : Path) (flags : OpenFlags)
  | close (handle : ℕ)
  deriving DecidableEq

/-- The state after an operation, whether it succeeds or not. -/
def Op.step (fs : MemFs) : Op → MemFs
  | create path => (MemFs.create path fs).2
  | mkdir path => (MemFs.mkdir path fs).2
  | rename old new => (MemFs.rename old new fs).2
  | remove path => (MemFs.remove path fs).2
  | removeDir path => (MemFs.removeDir path fs).2
  | open_ path flags => (MemFs.open_ path flags fs).2
  | close handle => (MemFs.close handle fs).2

/-- The paths of an operation are those of the VFS. -/
def Op.Normal : Op → Prop
  | create path => Normalised path
  | mkdir path => Normalised path
  | rename old new => Normalised old ∧ Normalised new
  | remove path => Normalised path
  | removeDir path => Normalised path
  | open_ path _ => Normalised path
  | close _ => True

/-- The state after a list of operations. -/
def run (fs : MemFs) (ops : List Op) : MemFs := ops.foldl Op.step fs

def Op.isOpen : Op → Bool
  | open_ _ _ => true
  | _ => false

/-- How many files a list of operations tries to open. -/
def opens (ops : List Op) : ℕ := ops.countP Op.isOpen

/-! ### The invariant -/

/-- **A file system with open handles that is in order.** -/
structure Sound (fs : MemFs) : Prop where
  tree : Tree fs
  bound : Bound fs

theorem singleSlashes_clean (h : Normalised path) : SingleSlashes (clean path) :=
  h.singleSlashes.trimSlashes

section

variable (h : Sound fs)

include h

theorem Sound.added {t : FileType} (hp : Normalised path)
    (hadd : Added path t fs fs') : Sound fs' := by
  refine ⟨h.tree.added (singleSlashes_clean hp) hadd, ?_⟩
  obtain ⟨-, -, rfl⟩ := hadd
  intro e he
  obtain ⟨n, hn, hrest⟩ := h.bound e he
  exact ⟨n, mem_append_left _ hn, hrest⟩

theorem Sound.refilled (hfill : Refilled path fs fs') : Sound fs' := by
  refine ⟨h.tree.of_same hfill.same, fun e he => ?_⟩
  have hsame := hfill.same
  have hhandles : fs'.openHandles = fs.openHandles := by
    obtain rfl | ⟨i, n, data, -, -, rfl⟩ := hfill
    · rfl
    · rfl
  obtain ⟨n, hn, hp, ht⟩ := h.bound e (hhandles ▸ he)
  have hmem : (n.path, n.fileType) ∈ fs'.nodes.map fun n => (n.path, n.fileType) :=
    hsame ▸ mem_map.mpr ⟨n, hn, rfl⟩
  obtain ⟨n', hn', heq⟩ := mem_map.mp hmem
  obtain ⟨hp', ht'⟩ := Prod.mk.inj heq
  exact ⟨n', hn', hp'.trans hp, ht'.trans ht⟩

variable {flags : OpenFlags}

theorem Sound.prepared (hp : Normalised path) (hprep : Prepared path flags fs fs') : Sound fs' := by
  obtain ⟨fs1, hfs1, hfs'⟩ := hprep
  have hsound : Sound fs1 := by
    rcases hfs1 with rfl | ⟨-, hadd⟩
    · exact h
    · exact h.added hp hadd
  rcases hfs' with rfl | ⟨-, hfill⟩
  · exact hsound
  · exact hsound.refilled hfill

theorem Sound.opened {offset : ℕ}
    (hn : findNode fs path = some n) (ht : n.fileType = .file) :
    Sound (opened path offset flags fs) := by
  refine ⟨h.tree.of_same rfl, fun e he => ?_⟩
  rcases mem_append.mp he with he | he
  · exact h.bound e he
  · obtain rfl := mem_singleton.mp he
    obtain ⟨hmem, hp⟩ := findNode_some hn
    exact ⟨n, hmem, hp, ht⟩

variable {old : Path}

/-- What a successful rename is known to have checked. -/
theorem Sound.renames {new : Path} (hnew : Normalised new)
    (hn : fs.nodes[i]? = some n) (hpath : n.path = clean old)
    (hbelow : ¬(clean old ++ ['/']) <+: clean new) (hfree : nodeType fs new = none)
    (hparent : parentExists fs (clean new) = true) : Renames fs i n (clean new) := by
  obtain ⟨hne, hbase, hall⟩ := nodeType_none hfree
  have htrim : Trimmed (clean new) := (trimSlashes_eq_nil_or_trimmed new).resolve_left hne
  refine ⟨hn, htrim, singleSlashes_clean hnew, fun hmem => ?_, hall, ?_, fun q hq hb => ?_⟩
  · rw [isBaseDir, contains_eq_mem, decide_eq_false_iff_not] at hbase
    exact hbase hmem
  · rw [hpath]
    exact fun hb => hbelow (prefix_slash_iff.mpr hb)
  · exact h.tree.isDir_of_parentExists htrim (singleSlashes_clean hnew) hparent hq hb

/-- **A rename that succeeds** rewrites nodes and handles by one map, or has nothing to do. -/
theorem Sound.rename_ok {new : Path} (hnew : Normalised new)
    (hok : (rename old new fs).1 = .ok ()) :
    (clean old = clean new ∧ (rename old new fs).2 = fs) ∨
      ∃ i n, Renames fs i n (clean new) ∧ n.path = clean old ∧ (rename old new fs).2 = { fs with
          nodes := fs.nodes.map fun m => { m with path := renamed (clean old) (clean new) m.path }
          openHandles := fs.openHandles.map fun e =>
            (e.1, { e.2 with path := renamed (clean old) (clean new) e.2.path }) } := by
  rcases rename_cases with ⟨e, he⟩ | ⟨hsame, hrun⟩ |
    ⟨i, n, -, hn, hpath, -, -, hbelow, hfree, hparent, -, hrun⟩
  · rw [he] at hok
    cases hok
  · exact .inl ⟨hsame, by rw [hrun]⟩
  · have hr := h.renames hnew hn hpath hbelow hfree hparent
    refine .inr ⟨i, n, hr, hpath, ?_⟩
    rw [hrun, ← hpath]
    have hnodes := nodes_moved h.tree hr
    have hhandles := openHandles_moved h.tree h.bound hr
    rcases hmoved : moved i n n.path (clean new) fs with ⟨nodes, next, handles⟩
    rw [hmoved] at hnodes hhandles
    have hnext : next = fs.nextHandle := (congrArg nextHandle hmoved).symm
    simp only at hnodes hhandles
    rw [hnodes, hhandles, hnext]

end

theorem rename_failed {new : Path} (h : (rename old new fs).1 ≠ .ok ()) :
    (rename old new fs).2 = fs := by
  rcases rename_cases with ⟨e, he⟩ | ⟨-, hrun⟩ | ⟨i, n, -, -, -, -, -, -, -, -, -, hrun⟩
  · rw [he]
  · exact absurd (by rw [hrun]) h
  · exact absurd (by rw [hrun]) h

/-- A handle keeps its file when another node goes. -/
theorem Bound.erase (h : Bound fs) (hn : fs.nodes[i]? = some n) {e : ℕ × OpenMemHandle}
    (he : e ∈ fs.openHandles) (hne : ¬(n.path = e.2.path ∧ n.fileType = .file)) :
    ∃ m ∈ fs.nodes.eraseIdx i, m.path = e.2.path ∧ m.fileType = .file := by
  obtain ⟨m, hm, hp⟩ := h e he
  obtain ⟨k, hk⟩ := mem_iff_getElem?.mp hm
  refine ⟨m, mem_eraseIdx_iff_getElem?.mpr ⟨k, ?_, hk⟩, hp⟩
  rintro rfl
  obtain rfl : m = n := some.inj (hk.symm.trans hn)
  exact hne hp

open Op

/-- **An operation keeps the file system in order.** -/
theorem Sound.step (h : Sound fs) {op : Op} (hop : op.Normal) : Sound (op.step fs) := by
  have hadd : ∀ {path t}, Normalised path → Sound (addNode path t fs).2 := by
    intro path t hp
    rcases addNode_cases with ⟨e, he⟩ | ⟨fs', hadd, hrun⟩
    · rwa [he]
    · rw [hrun]
      exact h.added hp hadd
  cases op with
  | create | mkdir => exact hadd hop
  | rename old new =>
    simp only [Op.step]
    by_cases hok : (rename old new fs).1 = .ok ()
    · rcases h.rename_ok hop.2 hok with ⟨-, hrun⟩ | ⟨i, n, hr, hpath, hrun⟩
      · rwa [hrun]
      · rw [hrun]
        refine ⟨h.tree.renamed hr (by rw [hpath]), fun e he => ?_⟩
        obtain ⟨e', he', rfl⟩ := mem_map.mp he
        obtain ⟨m, hm, hp, ht⟩ := h.bound e' he'
        exact ⟨_, mem_map.mpr ⟨m, hm, rfl⟩, by rw [hp], ht⟩
    · rwa [rename_failed hok]
  | remove path =>
    simp only [Op.step]
    rcases remove_cases path fs with ⟨e, he⟩ | ⟨i, n, -, hn, hpath, -, ht, -, hrun⟩
    · rwa [he]
    · rw [hrun]
      have hnode := mem_of_getElem? hn
      refine ⟨h.tree.erase hn (fun m hm hb => ?_) rfl, fun e he => ?_⟩
      · rw [h.tree.directory_of_below hnode hm hb] at ht
        cases ht
      · obtain ⟨he, hne⟩ := mem_filter.mp he
        refine h.bound.erase hn he fun ⟨hp, _⟩ => ?_
        exact of_decide_eq_true hne (hp.symm.trans hpath)
  | removeDir path =>
    simp only [Op.step]
    rcases removeDir_cases with ⟨e, he⟩ | ⟨i, n, -, hn, hpath, -, ht, -, hleaf, hrun⟩
    · rwa [he]
    · rw [hrun]
      refine ⟨h.tree.erase hn (fun m hm hb => hleaf m hm ?_) rfl, fun e he => ?_⟩
      · exact prefix_slash_iff.mpr (hpath ▸ hb)
      · refine h.bound.erase hn he fun ⟨_, hfile⟩ => ?_
        rw [ht] at hfile
        cases hfile
  | open_ path flags =>
    simp only [Op.step]
    obtain ⟨fs', hprep, ⟨e, he⟩ | ⟨n, offset, hn, ht, hrun⟩⟩ := open_cases
    · rw [he]
      exact h.prepared hop hprep
    · rw [hrun]
      exact (h.prepared hop hprep).opened hn ht
  | close handle =>
    simp only [Op.step]
    rcases close_cases handle with ⟨e, he⟩ | hrun
    · rwa [he]
    · rw [hrun]
      exact ⟨h.tree.of_same rfl, fun e he => h.bound e (mem_of_mem_eraseP he)⟩

theorem Sound.run (h : Sound fs) {ops : List Op} (hops : ∀ op ∈ ops, op.Normal) :
    Sound (run fs ops) := by
  rw [MemFs.run]
  exact foldlRecOn ops _ h fun fs' h' op hop => h'.step (hops op hop)

/-! ### Following a file -/

/-- Where the entry at position `i` of a list is after the one at position `k` has been taken
out. -/
def shiftFrom (k i : ℕ) : Option ℕ := if i = k then none else some (if i < k then i else i - 1)

/-- **Where the node at a position is after an operation**, if it is still there: a removal that
succeeds shifts the nodes behind the one that is removed. -/
def Op.follow (fs : MemFs) (i : ℕ) : Op → Option ℕ
  | remove path =>
    if (MemFs.remove path fs).1 = .ok () then (nodeIndex fs path).bind fun k => shiftFrom k i
    else some i
  | removeDir path =>
    if (MemFs.removeDir path fs).1 = .ok () then (nodeIndex fs path).bind fun k => shiftFrom k i
    else some i
  | _ => some i

/-- Where the node at a position is after a list of operations. -/
def followRun (fs : MemFs) (i : ℕ) : List Op → Option ℕ
  | [] => some i
  | op :: ops => (op.follow fs i).bind fun j => followRun (op.step fs) j ops

theorem shiftFrom_eq_none {k i : ℕ} : shiftFrom k i = none ↔ i = k := by
  rw [shiftFrom]
  split_ifs with h <;> simp [h]

theorem getElem?_eraseIdx_shiftFrom {α : Type} {l : List α} {k i j : ℕ}
    (h : shiftFrom k i = some j) : (l.eraseIdx k)[j]? = l[i]? := by
  rw [shiftFrom] at h
  split_ifs at h with hik hlt
  · cases h
    rw [getElem?_eraseIdx, if_pos hlt]
  · cases h
    rw [getElem?_eraseIdx, if_neg (by omega), Nat.sub_add_cancel (by omega)]

/-- **A handle number with the file it addresses**: an entry of the table whose path is that of
the file at the position, or no entry when the file is gone. -/
def Tracks (handle : ℕ) (fs : MemFs) : Option ℕ → Prop
  | some i => ∃ e n, (handle, e) ∈ fs.openHandles ∧ fs.nodes[i]? = some n ∧ n.path = e.path ∧
      n.fileType = .file
  | none => ∀ e, (handle, e) ∉ fs.openHandles

def numbers (fs : MemFs) : List ℕ := fs.openHandles.map Prod.fst

variable {handle : ℕ}

theorem eq_of_mem_openHandles (h : (numbers fs).Nodup) {e e' : OpenMemHandle}
    (he : (handle, e) ∈ fs.openHandles) (he' : (handle, e') ∈ fs.openHandles) : e = e' := by
  have hinj := inj_on_of_nodup_map h he he' rfl
  exact (Prod.mk.inj hinj).2

/-- With distinct numbers, a look-up finds the entry. -/
theorem findHandle_of_mem (h : (numbers fs).Nodup) {e : OpenMemHandle}
    (he : (handle, e) ∈ fs.openHandles) : findHandle fs handle = some e := by
  rcases hfind : findHandle fs handle with _ | e'
  · rw [findHandle, lookup_eq_none_iff] at hfind
    simpa using hfind _ he
  · obtain ⟨l1, l2, hl, -⟩ := lookup_eq_some_iff.mp hfind
    have he' : (handle, e') ∈ fs.openHandles := by rw [hl]; simp
    rw [eq_of_mem_openHandles h he he']

theorem findHandle_eq_none (h : ∀ e, (handle, e) ∉ fs.openHandles) :
    findHandle fs handle = none := by
  rw [findHandle, lookup_eq_none_iff]
  rintro ⟨k, e⟩ he
  rw [bne_iff_ne]
  rintro rfl
  exact h e he

/-- Neither adding a node nor refilling one moves a node or touches a handle. -/
theorem Prepared.stays (h : Prepared path flags fs fs') :
    fs'.openHandles = fs.openHandles ∧ fs'.nextHandle = fs.nextHandle ∧
      ∀ (i : ℕ) (n : MemNode), fs.nodes[i]? = some n →
        ∃ n', fs'.nodes[i]? = some n' ∧ n'.path = n.path ∧ n'.fileType = n.fileType := by
  obtain ⟨fs1, hfs1, hfs'⟩ := h
  have hadded : fs1.openHandles = fs.openHandles ∧ fs1.nextHandle = fs.nextHandle ∧
      ∀ (i : ℕ) (n : MemNode), fs.nodes[i]? = some n → fs1.nodes[i]? = some n := by
    obtain rfl | ⟨-, -, -, rfl⟩ := hfs1
    · exact ⟨rfl, rfl, fun _ _ h => h⟩
    · refine ⟨rfl, rfl, fun i n hn => ?_⟩
      rwa [List.getElem?_append_left (List.getElem?_eq_some_iff.mp hn).1]
  obtain ⟨hhandles, hnext, hnodes⟩ := hadded
  obtain rfl | ⟨-, rfl | ⟨k, a, data, -, -, rfl⟩⟩ := hfs'
  · exact ⟨hhandles, hnext, fun i n hn => ⟨n, hnodes i n hn, rfl, rfl⟩⟩
  · exact ⟨hhandles, hnext, fun i n hn => ⟨n, hnodes i n hn, rfl, rfl⟩⟩
  · refine ⟨hhandles, hnext, fun i n hn => ?_⟩
    simp only [getElem?_modify, hnodes i n hn]
    by_cases hki : k = i
    · exact ⟨_, rfl, by simp [hki], by simp [hki]⟩
    · exact ⟨_, rfl, by simp [hki], by simp [hki]⟩

/-- **What an operation does to the numbers**: some may go, or the next one comes. -/
theorem numbers_step {op : Op} :
    ((numbers (op.step fs)).Sublist (numbers fs) ∧ (op.step fs).nextHandle = fs.nextHandle) ∨
      (op.isOpen = true ∧ numbers (op.step fs) = numbers fs ++ [fs.nextHandle] ∧
        (op.step fs).nextHandle = (fs.nextHandle + 1) % 2 ^ 64) := by
  have hadd : ∀ path t, (numbers (addNode path t fs).2).Sublist (numbers fs) ∧
      (addNode path t fs).2.nextHandle = fs.nextHandle := by
    intro path t
    rcases addNode_cases with ⟨e, he⟩ | ⟨fs', ⟨-, -, rfl⟩, hrun⟩
    · rw [he]
      exact ⟨refl _, rfl⟩
    · rw [hrun]
      exact ⟨refl _, rfl⟩
  cases op with
  | create path | mkdir path => exact .inl (hadd path _)
  | rename old new =>
    simp only [step]
    rcases rename_cases with
      ⟨e, he⟩ | ⟨-, hrun⟩ | ⟨i, n, -, -, -, -, -, -, -, -, -, hrun⟩
    · rw [he]
      exact .inl ⟨refl _, rfl⟩
    · rw [hrun]
      exact .inl ⟨refl _, rfl⟩
    · rw [hrun]
      refine .inl ⟨?_, rfl⟩
      have hsame : numbers (moved i n (clean old) (clean new) fs) = numbers fs := by
        simp [numbers, moved, Function.comp_def]
      rw [hsame]
  | remove path =>
    simp only [step]
    rcases remove_cases path fs with ⟨e, he⟩ | ⟨i, n, -, -, -, -, -, -, hrun⟩
    · rw [he]
      exact .inl ⟨refl _, rfl⟩
    · rw [hrun]
      exact .inl ⟨filter_sublist.map _, rfl⟩
  | removeDir path =>
    simp only [step]
    rcases removeDir_cases with ⟨e, he⟩ | ⟨i, n, -, -, -, -, -, -, -, hrun⟩
    · rw [he]
      exact .inl ⟨refl _, rfl⟩
    · rw [hrun]
      exact .inl ⟨refl _, rfl⟩
  | open_ path flags =>
    simp only [step]
    obtain ⟨fs', hprep, hend⟩ := open_cases
    obtain ⟨hhandles, hnext, -⟩ := hprep.stays
    rcases hend with ⟨e, he⟩ | ⟨n, offset, -, -, hrun⟩
    · rw [he, numbers, hhandles]
      exact .inl ⟨refl _, hnext⟩
    · rw [hrun]
      refine .inr ⟨rfl, ?_, by simp only [opened, hnext]⟩
      simp [numbers, opened, hhandles, hnext]
  | close handle =>
    simp only [step]
    rcases close_cases handle with ⟨e, he⟩ | hrun
    · rw [he]
      exact .inl ⟨refl _, rfl⟩
    · rw [hrun]
      exact .inl ⟨eraseP_sublist.map _, rfl⟩

/-- **The numbers given out so far**: `c` of them, all different, from 1 on. -/
structure Numbered (c : ℕ) (fs : MemFs) : Prop where
  next : fs.nextHandle = (1 + c) % 2 ^ 64
  nodup : (numbers fs).Nodup
  given : ∀ k ∈ numbers fs, ∃ a < c, k = (1 + a) % 2 ^ 64

variable {c : ℕ}

/-- As long as there are numbers left, the next one is new. -/
theorem number_ne {a : ℕ} (ha : a < c) (hc : c < 2 ^ 64) : (1 + a) % 2 ^ 64 ≠ (1 + c) % 2 ^ 64 := by
  omega

theorem Numbered.step (h : Numbered c fs) (op : Op) (hc : op.isOpen = true → c < 2 ^ 64) :
    Numbered c (op.step fs) ∨ (op.isOpen = true ∧ Numbered (c + 1) (op.step fs)) := by
  rcases numbers_step with ⟨hsub, hnext⟩ | ⟨hopen, hnum, hnext⟩
  · exact .inl ⟨hnext.trans h.next, hsub.nodup h.nodup, fun k hk => h.given k (hsub.subset hk)⟩
  · refine .inr ⟨hopen, ?_, ?_, fun k hk => ?_⟩
    · rw [hnext, h.next]
      omega
    · rw [hnum, nodup_append]
      refine ⟨h.nodup, nodup_singleton _, fun k hk k' hk' heq => ?_⟩
      obtain ⟨a, ha, rfl⟩ := h.given k hk
      rw [mem_singleton.mp hk', h.next] at heq
      exact number_ne ha (hc hopen) heq
    · rw [hnum] at hk
      rcases mem_append.mp hk with hk | hk
      · obtain ⟨a, ha, rfl⟩ := h.given k hk
        exact ⟨a, Nat.lt_succ_of_lt ha, rfl⟩
      · exact ⟨c, Nat.lt_succ_self c, by rw [mem_singleton.mp hk, h.next]⟩

/-- One operation of a list uses up at most the number that it is counted with. -/
theorem Numbered.next_of_cons (h : Numbered c fs) {op : Op} {ops : List Op}
    (hcount : c + opens (op :: ops) ≤ 2 ^ 64) :
    (op.isOpen = true → c < 2 ^ 64) ∧
      ∃ c' ≥ c, c' + opens ops ≤ c + opens (op :: ops) ∧ Numbered c' (op.step fs) := by
  have hcons : opens (op :: ops) = opens ops + if op.isOpen then 1 else 0 := countP_cons
  rw [hcons] at hcount ⊢
  have hlt : op.isOpen = true → c < 2 ^ 64 := fun hopen => by
    rw [if_pos hopen] at hcount
    omega
  refine ⟨hlt, ?_⟩
  rcases h.step op hlt with h' | ⟨hopen, h'⟩
  · exact ⟨c, le_rfl, by omega, h'⟩
  · exact ⟨c + 1, Nat.le_succ c, by rw [if_pos hopen]; omega, h'⟩

section

variable {handle : ℕ}

theorem Tracks.mono (h : Tracks handle fs (some i))
    (hhandles : ∀ e, (handle, e) ∈ fs.openHandles → (handle, e) ∈ fs'.openHandles)
    (hnodes : ∀ n, fs.nodes[i]? = some n →
      ∃ n', fs'.nodes[i]? = some n' ∧ n'.path = n.path ∧ n'.fileType = n.fileType) :
    Tracks handle fs' (some i) := by
  obtain ⟨e, n, he, hn, hp, ht⟩ := h
  obtain ⟨n', hn', hp', ht'⟩ := hnodes n hn
  exact ⟨e, n', hhandles e he, hn', hp'.trans hp, ht'.trans ht⟩

/-- **A removal takes the handles of the file with it** and leaves those of the others. -/
theorem Tracks.remove (h : Sound fs) (hnd : (numbers fs).Nodup) (ht : Tracks handle fs (some i))
    (path : Path) : Tracks handle (step fs (.remove path)) (follow fs i (.remove path)) := by
  simp only [step, follow]
  rcases remove_cases path fs with ⟨e, he⟩ | ⟨k, a, hk, ha, hpath, -, -, -, hrun⟩
  · rw [he, if_neg (by simp)]
    exact ht
  · rw [hrun, if_pos rfl, hk, bind_some]
    obtain ⟨e, n, he, hn, hp, htype⟩ := ht
    rcases hshift : shiftFrom k i with _ | j
    · -- the file itself: its only entry is one of those that go
      intro e' he'
      obtain ⟨he', hne⟩ := mem_filter.mp he'
      rw [eq_of_mem_openHandles hnd he' he] at hne
      obtain rfl := shiftFrom_eq_none.mp hshift
      obtain rfl : n = a := some.inj (hn.symm.trans ha)
      exact of_decide_eq_true hne (hp.symm.trans hpath)
    · refine ⟨e, n, mem_filter.mpr ⟨he, decide_eq_true fun hc => ?_⟩,
        (getElem?_eraseIdx_shiftFrom hshift).trans hn, hp, htype⟩
      have hik := h.tree.distinct i k n a hn ha (hp.trans (hc.trans hpath.symm))
      rw [shiftFrom_eq_none.mpr hik] at hshift
      cases hshift

theorem Tracks.removeDir (ht : Tracks handle fs (some i)) (path : Path) :
    Tracks handle (step fs (.removeDir path)) (follow fs i (.removeDir path)) := by
  simp only [step, follow]
  rcases removeDir_cases with ⟨e, he⟩ | ⟨k, a, hk, ha, -, -, hdir, -, -, hrun⟩
  · rw [he, if_neg (by simp)]
    exact ht
  · rw [hrun, if_pos rfl, hk, bind_some]
    obtain ⟨e, n, he, hn, hp, htype⟩ := ht
    rcases hshift : shiftFrom k i with _ | j
    · -- a file is not the directory that goes
      obtain rfl := shiftFrom_eq_none.mp hshift
      obtain rfl : n = a := some.inj (hn.symm.trans ha)
      rw [hdir] at htype
      cases htype
    · exact ⟨e, n, he, (getElem?_eraseIdx_shiftFrom hshift).trans hn, hp, htype⟩

/-- **An operation leaves a handle with its file.** -/
theorem Tracks.step (h : Sound fs) (hnd : (numbers fs).Nodup) (ht : Tracks handle fs (some i))
    {op : Op} (hop : op.Normal) (hclose : op ≠ .close handle) :
    Tracks handle (op.step fs) (op.follow fs i) := by
  have hadd : ∀ path t, Tracks handle (addNode path t fs).2 (some i) := by
    intro path t
    rcases addNode_cases with ⟨e, he⟩ | ⟨fs', ⟨-, -, rfl⟩, hrun⟩
    · rwa [he]
    · rw [hrun]
      refine ht.mono (fun _ he => he) fun n hn => ⟨n, ?_, rfl, rfl⟩
      rwa [List.getElem?_append_left (List.getElem?_eq_some_iff.mp hn).1]
  cases op with
  | create path | mkdir path => exact hadd path _
  | rename old new =>
    simp only [Op.step, Op.follow]
    by_cases hok : (rename old new fs).1 = .ok ()
    · rcases h.rename_ok hop.2 hok with ⟨-, hrun⟩ | ⟨k, a, -, -, hrun⟩
      · rwa [hrun]
      · -- node and handle are rewritten by one map
        rw [hrun]
        obtain ⟨e, n, he, hn, hp, htype⟩ := ht
        refine ⟨{ e with path := renamed (clean old) (clean new) e.path },
          { n with path := renamed (clean old) (clean new) n.path },
          mem_map.mpr ⟨_, he, rfl⟩, ?_, by simp only [hp], htype⟩
        rw [getElem?_map, hn]
        rfl
    · rwa [rename_failed hok]
  | remove path => exact ht.remove h hnd path
  | removeDir path => exact ht.removeDir path
  | open_ path flags =>
    simp only [Op.step, Op.follow]
    obtain ⟨fs', hprep, hend⟩ := open_cases
    obtain ⟨hhandles, -, hnodes⟩ := hprep.stays
    rcases hend with ⟨e, he⟩ | ⟨n, offset, -, -, hrun⟩
    · rw [he]
      exact ht.mono (fun _ he => hhandles ▸ he) fun n hn => hnodes i n hn
    · rw [hrun]
      exact ht.mono (fun _ he => mem_append_left _ (hhandles ▸ he)) fun n hn => hnodes i n hn
  | close handle' =>
    simp only [Op.step, Op.follow]
    rcases close_cases handle' with ⟨e, he⟩ | hrun
    · rwa [he]
    · rw [hrun]
      refine ht.mono (fun e he => ?_) fun n hn => ⟨n, hn, rfl, rfl⟩
      refine (mem_eraseP_of_neg fun hc => hclose ?_).mpr he
      have heq : handle = handle' := beq_iff_eq.mp hc
      rw [heq]

/-- A number that is gone stays away until it is given out again. -/
theorem Tracks.gone (ht : Tracks handle fs none) {op : Op}
    (hne : op.isOpen = true → handle ≠ fs.nextHandle) : Tracks handle (op.step fs) none := by
  intro e he
  have hmem : handle ∈ numbers (op.step fs) := mem_map.mpr ⟨_, he, rfl⟩
  have hold : handle ∈ numbers fs := by
    rcases numbers_step with ⟨hsub, -⟩ | ⟨hopen, hnum, -⟩
    · exact hsub.subset hmem
    · rw [hnum] at hmem
      rcases mem_append.mp hmem with hmem | hmem
      · exact hmem
      · exact absurd (mem_singleton.mp hmem) (hne hopen)
  obtain ⟨⟨k, e'⟩, he', rfl⟩ := mem_map.mp hold
  exact ht e' he'

/-- **A handle stays with its file over whole runs**, for as long as there are numbers. -/
theorem Tracks.run {x : Option ℕ} {ops : List Op} (h : Sound fs) (hnum : Numbered c fs)
    (hgiven : ∃ a < c, handle = (1 + a) % 2 ^ 64) (ht : Tracks handle fs x)
    (hops : ∀ op ∈ ops, op.Normal) (hclose : .close handle ∉ ops)
    (hcount : c + opens ops ≤ 2 ^ 64) :
    (numbers (run fs ops)).Nodup ∧
      Tracks handle (run fs ops) (x.bind fun i => followRun fs i ops) := by
  induction ops generalizing fs c x with
  | nil =>
    cases x with
    | none | some => exact ⟨hnum.nodup, ht⟩
  | cons op ops ih =>
    have hnormal := hops op mem_cons_self
    have hne : op ≠ .close handle := fun hc => hclose (hc ▸ mem_cons_self)
    obtain ⟨hlt, c', hle, hcount', hnum'⟩ := hnum.next_of_cons hcount
    have htrack : Tracks handle (op.step fs) (x.bind fun i => op.follow fs i) := by
      cases x with
      | some => exact ht.step h hnum.nodup hnormal hne
      | none =>
        obtain ⟨a, ha, rfl⟩ := hgiven
        exact ht.gone fun hopen => hnum.next ▸ number_ne ha (hlt hopen)
    have hbind : (x.bind fun i => followRun fs i (op :: ops)) =
        (x.bind fun i => op.follow fs i).bind fun j => followRun (op.step fs) j ops := by
      rw [bind_assoc]
      rfl
    rw [hbind]
    have hrest : ∀ op' ∈ ops, op'.Normal := fun op' hop' => hops op' (mem_cons_of_mem _ hop')
    have hclose' : .close handle ∉ ops := fun hc => hclose (mem_cons_of_mem _ hc)
    obtain ⟨a, ha, hk⟩ := hgiven
    exact ih (h.step hnormal) hnum' ⟨a, ha.trans_le hle, hk⟩ htrack hrest hclose'
      (hcount'.trans hcount)

end

/-! ### The namespace and the handles over whole runs -/

/-- **A file system as it is booted**: any tree, and nothing has been opened yet. -/
structure Populated (fs : MemFs) : Prop where
  tree : Tree fs
  closed : fs.openHandles = []
  first : fs.nextHandle = 1

theorem Populated.sound (h : Populated fs) : Sound fs :=
  ⟨h.tree, fun e he => by rw [h.closed] at he; cases he⟩

theorem Populated.numbered (h : Populated fs) : Numbered 0 fs := by
  have hnil : numbers fs = [] := by rw [numbers, h.closed]; rfl
  exact ⟨h.first, by rw [hnil]; exact nodup_nil, fun k hk => by rw [hnil] at hk; cases hk⟩

/-- **What a handle addresses**: the file at a position, through which its calls go, or nothing
any more. -/
def Addresses (fs : MemFs) (handle : ℕ) : Option ℕ → Prop
  | some j => ∃ e n, findHandle fs handle = some e ∧ fs.nodes[j]? = some n ∧ n.fileType = .file ∧
      handleNode fs e fs = (.ok n, fs)
  | none => findHandle fs handle = none

theorem Tracks.addresses {x : Option ℕ} (h : Tree fs) (hnd : (numbers fs).Nodup)
    (ht : Tracks handle fs x) : Addresses fs handle x := by
  cases x with
  | none => exact findHandle_eq_none ht
  | some =>
    obtain ⟨e, n, he, hn, hp, htype⟩ := ht
    have hfind : findNode fs e.path = some n := hp ▸ h.findNode (mem_of_getElem? hn)
    refine ⟨e, n, findHandle_of_mem hnd he, hn, htype, ?_⟩
    rw [handleNode, hfind, okOr_some_bind, if_neg (not_not.mpr htype)]
    rfl

theorem run_append (fs : MemFs) (ops ops' : List Op) :
    run fs (ops ++ ops') = run (run fs ops) ops' := foldl_append

theorem Numbered.run {ops : List Op} (h : Numbered c fs) (hcount : c + opens ops ≤ 2 ^ 64) :
    ∃ c' ≤ c + opens ops, Numbered c' (run fs ops) := by
  induction ops generalizing fs c with
  | nil => exact ⟨c, Nat.le_add_right _ _, h⟩
  | cons _ _ ih =>
    obtain ⟨-, c1, -, hle, h1⟩ := h.next_of_cons hcount
    obtain ⟨c', hc', hnum⟩ := ih h1 (hle.trans hcount)
    exact ⟨c', hc'.trans hle, hnum⟩

/-- **A handle from the moment it is opened**: it addresses the file that was opened wherever
that file is, and nothing once the file is removed. -/
theorem handles_follow {fs0 : MemFs} (h0 : Populated fs0) {pre post : List Op} {path : Path}
    (hpre : ∀ op ∈ pre, op.Normal) (hpath : Normalised path)
    (hpost : ∀ op ∈ post, op.Normal) (hcount : opens pre + 1 + opens post ≤ 2 ^ 64)
    (hopen : (open_ path flags (run fs0 pre)).1 = .ok handle) (hclose : .close handle ∉ post) :
    ∃ i, nodeIndex (run fs0 (pre ++ [.open_ path flags])) path = some i ∧
      Addresses (run fs0 (pre ++ .open_ path flags :: post)) handle
        (followRun (run fs0 (pre ++ [.open_ path flags])) i post) := by
  have hsound := h0.sound.run hpre
  obtain ⟨c, hc, hnum⟩ := h0.numbered.run (by omega : 0 + opens pre ≤ 2 ^ 64)
  have hsound' : Sound (step (run fs0 pre) (.open_ path flags)) := hsound.step hpath
  have hstep : run fs0 (pre ++ [.open_ path flags]) = step (run fs0 pre) (.open_ path flags) :=
    run_append _ _ _
  have hall : run fs0 (pre ++ .open_ path flags :: post) =
      run (step (run fs0 pre) (.open_ path flags)) post := run_append _ _ _
  rw [hstep, hall]
  obtain ⟨fs', hprep, ⟨e, he⟩ | ⟨n, offset, hn, htype, hrun⟩⟩ := open_cases
  · rw [he] at hopen
    cases hopen
  have hfirst : step (run fs0 pre) (.open_ path flags) = opened path offset flags fs' := by
    rw [step, hrun]
  obtain ⟨-, hnext, -⟩ := hprep.stays
  have hhandle : handle = fs'.nextHandle := by
    rw [hrun] at hopen
    cases hopen
    rfl
  -- the number is the next one, and the entry that of the file that was found
  have hnum' : Numbered (c + 1) (step (run fs0 pre) (.open_ path flags)) := by
    rcases hnum.step (.open_ path flags) (fun _ => by omega) with h' | ⟨-, h'⟩
    · have hnext' : (step (run fs0 pre) (.open_ path flags)).nextHandle =
          ((run fs0 pre).nextHandle + 1) % 2 ^ 64 := by rw [hfirst, opened, hnext]
      have h1 := h'.next
      rw [hnext', hnum.next] at h1
      omega
    · exact h'
  rcases hi : nodeIndex (step (run fs0 pre) (.open_ path flags)) path with _ | i
  · have hnone := findIdx?_eq_none_iff_find?.mp hi
    rw [hfirst] at hnone
    rw [findNode] at hn
    rw [opened, hn] at hnone
    cases hnone
  refine ⟨i, rfl, ?_⟩
  obtain ⟨m, hm, hpm, hfind⟩ := nodeIndex_some hi
  have htrack : Tracks handle (step (run fs0 pre) (.open_ path flags)) (some i) := by
    rw [hfirst] at hm hfind ⊢
    obtain rfl : n = m := some.inj (hn.symm.trans hfind)
    refine ⟨⟨clean path, offset, flags⟩, n, mem_append_right _ ?_, hm, hpm, htype⟩
    rw [hhandle]
    exact mem_singleton.mpr rfl
  have hgiven : ∃ a < c + 1, handle = (1 + a) % 2 ^ 64 :=
    ⟨c, Nat.lt_succ_self c, by rw [hhandle, hnext, hnum.next]⟩
  obtain ⟨hnd, hend⟩ := Tracks.run hsound' hnum' hgiven htrack hpost hclose (by omega)
  exact hend.addresses (hsound'.run hpost).tree hnd

theorem renamed_same (old p : Path) : renamed old old p = p := by
  rcases DunitFs.renamed_cases old old p with ⟨hp, h⟩ | ⟨s, hp, h⟩ | ⟨-, -, h⟩
  · rw [h, hp]
  · rw [h, hp]
  · exact h

/-- **The namespace and the open handles**, after any operations from any populated tree: paths
are distinct and every parent is a directory; a rename rewrites exactly the paths at and below
the old one; and every handle addresses the file it was opened on, wherever it has been moved,
until that file is removed, and nothing after that. There are as many handle numbers as the
counter has values. -/
theorem namespace_and_handles (fs0 : MemFs) (h0 : Populated fs0) (ops : List Op)
    (hops : ∀ op ∈ ops, op.Normal) (hcount : opens ops ≤ 2 ^ 64) :
    ((run fs0 ops).nodes.map MemNode.path).Nodup ∧
    (∀ n ∈ (run fs0 ops).nodes,
      parentPath n.path = [] ∨ IsDir (run fs0 ops) (parentPath n.path)) ∧
    (∀ old new, Normalised old → Normalised new → (rename old new (run fs0 ops)).1 = .ok () →
      (rename old new (run fs0 ops)).2.nodes = (run fs0 ops).nodes.map fun m =>
        { m with path := renamed (clean old) (clean new) m.path }) ∧
    ∀ pre path flags post handle, ops = pre ++ .open_ path flags :: post →
      (open_ path flags (run fs0 pre)).1 = .ok handle → .close handle ∉ post →
      ∃ i, nodeIndex (run fs0 (pre ++ [.open_ path flags])) path = some i ∧
        Addresses (run fs0 ops) handle
          (followRun (run fs0 (pre ++ [.open_ path flags])) i post) := by
  have hsound := h0.sound.run hops
  refine ⟨?_, fun n hn => hsound.tree.parent hn, fun old new _ hnew hok => ?_, ?_⟩
  · refine nodup_iff_getElem?_ne_getElem?.mpr fun i j hij hj heq => ?_
    rw [length_map] at hj
    rw [getElem?_map, getElem?_map, getElem?_eq_getElem hj,
      getElem?_eq_getElem (hij.trans hj)] at heq
    exact hij.ne (hsound.tree.distinct i j _ _ (getElem?_eq_getElem _)
      (getElem?_eq_getElem _) (some.inj heq))
  · rcases hsound.rename_ok hnew hok with ⟨hsame, hrun⟩ | ⟨i, n, -, -, hrun⟩
    · rw [hrun, hsame]
      simp [renamed_same]
    · rw [hrun]
  · rintro pre path flags post handle rfl hopen hclose
    have hcount' : opens (pre ++ .open_ path flags :: post) = opens pre + (opens post + 1) := by
      rw [opens, countP_append, countP_cons]
      rfl
    exact handles_follow h0 (fun op hop => hops op (mem_append_left _ hop))
      (hops (.open_ path flags) (by simp)) (fun op hop => hops op (by simp [hop])) (by omega)
      hopen hclose

theorem populated_new : Populated new := by
  refine ⟨⟨?_, ?_, ?_, fun i j n m hn => ?_, ?_⟩, rfl, rfl⟩
  · exact fun n hn => by cases hn
  · exact fun n hn => by cases hn
  · exact fun n hn => by cases hn
  · simp [new] at hn
  · exact fun n hn => by cases hn

def pathA : Path := "tmp/a".toList

def pathB : Path := "tmp/b".toList

theorem normalised_paths : Normalised pathA ∧ Normalised pathB :=
  ⟨⟨["tmp".toList, ['a']], by decide, by decide⟩, ⟨["tmp".toList, ['b']], by decide, by decide⟩⟩

theorem namespace_and_handles_moved :
    ∃ i, nodeIndex (run new [.create pathA, .open_ pathA .READ]) pathA = some i ∧
      Addresses (run new [.create pathA, .open_ pathA .READ, .rename pathA pathB]) 1
        (followRun (run new [.create pathA, .open_ pathA .READ]) i [.rename pathA pathB]) := by
  obtain ⟨ha, hb⟩ := normalised_paths
  refine (namespace_and_handles new populated_new
    [.create pathA, .open_ pathA .READ, .rename pathA pathB] ?_ (by decide)).2.2.2
    [.create pathA] pathA .READ [.rename pathA pathB] 1 rfl (by decide +kernel) (by decide)
  intro op hop
  rcases hop with _ | ⟨_, _ | ⟨_, _ | ⟨_, hop⟩⟩⟩
  · exact ha
  · exact ha
  · exact ⟨ha, hb⟩
  · cases hop

/-! ### When the counter wraps -/

/-- Two files, and the first one opened as handle 1. -/
def wrapFs (next : ℕ) : MemFs :=
  ⟨[⟨pathA, .file, .owned []⟩, ⟨pathB, .file, .owned []⟩], next, [(1, ⟨pathA, 0, .READ⟩)]⟩

/-- The second file is opened and closed again, a number of times. -/
def wrapOps : ℕ → ℕ → List Op
  | 0, _ => []
  | rounds + 1, next => .open_ pathB .READ :: .close next :: wrapOps rounds ((next + 1) % 2 ^ 64)

theorem open_wrapFs (next : ℕ) :
    step (wrapFs next) (.open_ pathB .READ) = opened pathB 0 .READ (wrapFs next) := rfl

theorem close_wrapFs {next : ℕ} (hne : next ≠ 1) :
    step (opened pathB 0 .READ (wrapFs next)) (.close next) = wrapFs ((next + 1) % 2 ^ 64) := by
  have hfirst : (next == 1) = false := beq_eq_false_iff_ne.mpr hne
  have hfirst' : ((1 : ℕ) == next) = false := beq_eq_false_iff_ne.mpr hne.symm
  have hfind : findHandle (opened pathB 0 .READ (wrapFs next)) next =
      some ⟨clean pathB, 0, .READ⟩ := by
    simp [findHandle, opened, wrapFs, lookup_cons, hfirst]
  rw [step, close, get_bind_run, hfind, okOr_some_bind]
  simp [opened, wrapFs, eraseP, hfirst']

/-- **All the way round**: after the other numbers have been used, the next one is 1 again. -/
theorem run_wrapOps {rounds done : ℕ} (h : done + rounds = 2 ^ 64 - 1) :
    run (wrapFs ((2 + done) % 2 ^ 64)) (wrapOps rounds ((2 + done) % 2 ^ 64)) = wrapFs 1 := by
  induction rounds generalizing done with
  | zero =>
    have hend : (2 + done) % 2 ^ 64 = 1 := by omega
    rw [hend]
    rfl
  | succ rounds ih =>
    have hne : (2 + done) % 2 ^ 64 ≠ 1 := by omega
    have hnext : ((2 + done) % 2 ^ 64 + 1) % 2 ^ 64 = (2 + (done + 1)) % 2 ^ 64 := by omega
    have hround : run (wrapFs ((2 + done) % 2 ^ 64)) (wrapOps (rounds + 1) ((2 + done) % 2 ^ 64)) =
        run (step (step (wrapFs ((2 + done) % 2 ^ 64)) (.open_ pathB .READ))
          (.close ((2 + done) % 2 ^ 64)))
          (wrapOps rounds (((2 + done) % 2 ^ 64 + 1) % 2 ^ 64)) := rfl
    rw [hround, open_wrapFs, close_wrapFs hne, hnext]
    exact ih (by omega)

theorem wrapOps_spec {rounds done : ℕ} (h : done + rounds = 2 ^ 64 - 1) :
    ∀ op ∈ wrapOps rounds ((2 + done) % 2 ^ 64), op.Normal ∧ op ≠ .close 1 := by
  induction rounds generalizing done with
  | zero => exact fun op hop => by cases hop
  | succ _ ih =>
    have hne : (2 + done) % 2 ^ 64 ≠ 1 := by omega
    have hnext : ((2 + done) % 2 ^ 64 + 1) % 2 ^ 64 = (2 + (done + 1)) % 2 ^ 64 := by omega
    intro op hop
    rw [wrapOps, hnext] at hop
    rcases mem_cons.mp hop with rfl | hop
    · exact ⟨normalised_paths.2, by simp⟩
    rcases mem_cons.mp hop with rfl | hop
    · exact ⟨trivial, by simpa using hne⟩
    · exact ih (by omega) op hop

theorem followRun_wrapOps (fs : MemFs) (i rounds next : ℕ) (ops : List Op) :
    followRun fs i (wrapOps rounds next ++ ops) =
      followRun (run fs (wrapOps rounds next)) i ops := by
  induction rounds generalizing fs next with
  | zero => rfl
  | succ _ ih => exact ih _ _

/-- **A handle number is given out twice**: a file is opened as handle 1, and another one is
opened 2 ^ 64 times. The last time it gets number 1 as well, and when the first file is removed,
handle 1 addresses the other one. -/
theorem handle_addresses_another_file :
    ∃ ops : List Op, Populated (run new [.create pathA, .create pathB]) ∧
      (∀ op ∈ ops, op.Normal) ∧ .close 1 ∉ ops ∧
      (open_ pathA .READ (run new [.create pathA, .create pathB])).1 = .ok 1 ∧
      followRun (run new [.create pathA, .create pathB, .open_ pathA .READ]) 0 ops = none ∧
      ¬Addresses (run (run new [.create pathA, .create pathB, .open_ pathA .READ]) ops) 1 none ∧
      (findHandle (run (run new [.create pathA, .create pathB, .open_ pathA .READ]) ops) 1).map
        OpenMemHandle.path = some pathB := by
  have hstart : run new [.create pathA, .create pathB, .open_ pathA .READ] =
      wrapFs ((2 + 0) % 2 ^ 64) := by decide +kernel
  have hall := run_wrapOps (by omega : 0 + (2 ^ 64 - 1) = 2 ^ 64 - 1)
  have hspec := wrapOps_spec (by omega : 0 + (2 ^ 64 - 1) = 2 ^ 64 - 1)
  rw [hstart]
  generalize hops : wrapOps (2 ^ 64 - 1) ((2 + 0) % 2 ^ 64) = ops at hall hspec
  have hend : (findHandle (run (wrapFs 1) [.open_ pathB .READ, .remove pathA]) 1).map
      OpenMemHandle.path = some pathB := by decide +kernel
  have hfollow : followRun (wrapFs 1) 0 [.open_ pathB .READ, .remove pathA] = none := by
    decide +kernel
  refine ⟨ops ++ [.open_ pathB .READ, .remove pathA], ?_, ?_, ?_, by decide +kernel, ?_, ?_, ?_⟩
  · refine ⟨(populated_new.sound.run ?_).tree, by decide +kernel, by decide +kernel⟩
    intro op hop
    rcases hop with _ | ⟨_, _ | ⟨_, hop⟩⟩
    · exact normalised_paths.1
    · exact normalised_paths.2
    · cases hop
  · intro op hop
    rcases mem_append.mp hop with hop | hop
    · exact (hspec op hop).1
    · rcases hop with _ | ⟨_, _ | ⟨_, hop⟩⟩
      · exact normalised_paths.2
      · exact normalised_paths.1
      · cases hop
  · intro hmem
    rcases mem_append.mp hmem with hmem | hmem
    · exact (hspec _ hmem).2 rfl
    · simp at hmem
  · rw [← hops, followRun_wrapOps, hops, hall, hfollow]
  · rw [run_append, hall]
    intro hnone
    have hnone : findHandle (run (wrapFs 1) [.open_ pathB .READ, .remove pathA]) 1 = none := hnone
    rw [hnone] at hend
    cases hend
  · rw [run_append, hall, hend]

end MemFs

end DunitOS
