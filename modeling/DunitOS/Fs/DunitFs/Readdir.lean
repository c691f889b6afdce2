import DunitOS.Fs.DunitFs.Runs

/-!
# The namespace that callers see

With the paths the VFS hands down, which have single slashes only, the tree of
`DunitFs.Tree` is a tree in the usual sense: the path before the last slash of a
node is the path of a directory, and every node is found by listing directories from the
root on (`DunitFs.run_isTree`). This is so after any run of calls in which no
directory is renamed to a path below itself.
-/

namespace DunitOS

variable {p : Vfs.Path}

namespace Vfs

open List Nat

/-! ### Paths with single slashes -/

/-- No two slashes in a row. -/
def SingleSlashes (p : Path) : Prop := ∀ k, p[k]? = some '/' → p[k + 1]? ≠ some '/'

theorem SingleSlashes.of_back {q : Path} (h : SingleSlashes p) (hq : q <:+ p) :
    SingleSlashes q := by
  obtain ⟨a, rfl⟩ := hq
  intro k hk hk'
  refine h (a.length + k) ?_ ?_
  · rwa [getElem?_append_right (Nat.le_add_right _ _), Nat.add_sub_cancel_left]
  · rwa [Nat.add_assoc, getElem?_append_right (Nat.le_add_right _ _), Nat.add_sub_cancel_left]

theorem SingleSlashes.of_front {q : Path} (h : SingleSlashes p) (hq : q <+: p) :
    SingleSlashes q := by
  obtain ⟨a, rfl⟩ := hq
  intro k hk hk'
  have hlt : k + 1 < q.length := (List.getElem?_eq_some_iff.mp hk').1
  refine h k ?_ ?_
  · rwa [List.getElem?_append_left (by omega)]
  · rwa [List.getElem?_append_left hlt]

theorem SingleSlashes.trimSlashes (h : SingleSlashes p) : SingleSlashes (trimSlashes p) :=
  (h.of_back (dropWhile_suffix _)).of_front <| rdropWhile_prefix _ _

/-- **Joining two texts at a slash** makes no second slash next to it, if there is none at
the end of the first or at the start of the second. -/
theorem SingleSlashes.join {s : Path} (hp : SingleSlashes p) (hlast : p.getLast? ≠ some '/')
    (hs : SingleSlashes ('/' :: s)) : SingleSlashes (p ++ '/' :: s) := by
  intro k hk hk'
  rcases lt_trichotomy (k + 1) p.length with hlt | heq | hgt
  · rw [getElem?_append_left (by omega)] at hk
    rw [getElem?_append_left hlt] at hk'
    exact hp k hk hk'
  · refine hlast ?_
    rw [getElem?_append_left (by omega)] at hk
    rw [getLast?_eq_getElem?, ← heq, Nat.add_sub_cancel]
    exact hk
  · rw [getElem?_append_right (by omega)] at hk
    rw [getElem?_append_right (by omega), succ_sub (by omega)] at hk'
    exact hs _ hk hk'

/-- A text without slashes, before a slash and a path that does not begin with one. -/
theorem singleSlashes_intercalate {cs : List (List Char)} (h : ∀ c ∈ cs, Component c) :
    SingleSlashes (['/'].intercalate cs) ∧ (['/'].intercalate cs).head? ≠ some '/' := by
  induction cs with
  | nil => exact ⟨fun k hk => by simp at hk, by simp⟩
  | cons a cs ih =>
    obtain ⟨hne, -, -, ha⟩ := h a mem_cons_self
    have hnot : ∀ k, a[k]? ≠ some '/' := fun k hk => ha (mem_of_getElem? hk)
    have hhead : ∀ t, (a ++ t).head? ≠ some '/' := by
      intro t
      rw [head?_append_of_ne_nil _ hne, head?_eq_getElem?]
      exact hnot 0
    cases cs with
    | nil =>
      rw [intercalate_singleton]
      refine ⟨fun k hk => absurd hk (hnot k), ?_⟩
      simpa using hhead []
    | cons b cs =>
      obtain ⟨hs, hstart⟩ := ih fun x hx => h x (mem_cons_of_mem _ hx)
      have hjoin : ['/'].intercalate (a :: b :: cs) =
          a ++ '/' :: ['/'].intercalate (b :: cs) := by simp
      rw [hjoin]
      refine ⟨SingleSlashes.join (fun k hk => absurd hk (hnot k)) ?_ ?_, hhead _⟩
      · rw [getLast?_eq_getElem?]
        exact hnot _
      · intro k hk hk'
        cases k with
        | zero =>
          refine hstart ?_
          rw [head?_eq_getElem?]
          exact hk'
        | succ k => exact hs k hk hk'

/-- **The paths of the VFS have single slashes.** -/
theorem Normalised.singleSlashes (h : Normalised p) : SingleSlashes p := by
  obtain ⟨cs, hcs, rfl⟩ := h
  exact (singleSlashes_intercalate hcs).1

end Vfs

namespace DunitFs

open SysLib Vfs

/-! ### Calls with the paths of the VFS -/

/-- The paths of a call are those of the VFS. -/
def Call.Normal : Call → Prop
  | .open_ path _ => Normalised path
  | .create path => Normalised path
  | .mkdir path => Normalised path
  | .truncate path => Normalised path
  | .rename old new => Normalised old ∧ Normalised new
  | .remove path => Normalised path
  | _ => True

/-- What such a call makes of paths with single slashes has single slashes. -/
theorem Call.Normal.names {c : Call} (h : c.Normal) : c.Names SingleSlashes := by
  cases c with
  | open_ => exact fun _ => (Normalised.singleSlashes h).trimSlashes
  | create | mkdir => exact (Normalised.singleSlashes h).trimSlashes
  | rename old new =>
    intro q hq
    have hnew : SingleSlashes (clean new) := h.2.singleSlashes.trimSlashes
    rcases renamed_cases (clean old) (clean new) q with ⟨-, hr⟩ | ⟨s, hs, hr⟩ | ⟨-, -, hr⟩ <;>
      rw [hr]
    · exact hnew
    · refine hnew.join (getLast?_rdropWhile_slash _) ?_
      rw [hs] at hq
      exact hq.of_back (List.suffix_append _ _)
    · exact hq
  | _ => trivial

/-! ### Listing from the root -/

/-- A node is in the listing of a directory. -/
def Lists (w : World) (directory : Path) (n : Node) : Prop :=
  ∃ entries, readdir directory w = (.ok entries, w) ∧
    isDirectChild directory n.path = true ∧ DirEntry.new (basename n.path) n.fileType ∈ entries

/-- **The paths that are found from the root by listing directories.** -/
inductive Reachable (w : World) : Path → Prop
  | root : Reachable w []
  | entry {directory : Path} {i : Fin maxNodes} {n : Node} (hdir : Reachable w directory)
    (hn : w.fs.nodes i = some n) (hlist : Lists w directory n) : Reachable w n.path

/-- **The namespace is a tree.** -/
structure IsTree (w : World) : Prop where
  distinct : ∀ i j n n', w.fs.nodes i = some n → w.fs.nodes j = some n' → n.path = n'.path → i = j
  nonempty : ∀ i n, w.fs.nodes i = some n → n.path ≠ []
  path_le : ∀ i n, w.fs.nodes i = some n → byteLen n.path ≤ pathSize
  parent : ∀ i n parent, w.fs.nodes i = some n → beforeLastSlash n.path = some parent →
    ∃ j d, w.fs.nodes j = some d ∧ d.path = parent ∧ d.fileType = .directory
  reachable : ∀ i n, w.fs.nodes i = some n → Reachable w n.path

variable {i : Fin maxNodes} {n : Node}

/-- A direct child is in the listing, for there is room for all nodes. -/
theorem mem_listing {fs : DunitFs} {directory : Path}
    (hn : fs.nodes i = some n) (hchild : isDirectChild directory n.path = true) :
    DirEntry.new (basename n.path) n.fileType ∈ listing fs directory 64 := by
  have hlen : ((((List.finRange maxNodes).filterMap fs.nodes).filter fun node =>
      isDirectChild directory node.path).map fun node =>
      DirEntry.new (basename node.path) node.fileType).length ≤ 64 := by
    rw [List.length_map]
    refine (List.length_filter_le _ _).trans ((List.length_filterMap_le _ _).trans ?_)
    rw [List.length_finRange]
  rw [listing, List.take_of_length_le hlen]
  refine List.mem_map.mpr ⟨n, List.mem_filter.mpr ⟨?_, hchild⟩, rfl⟩
  exact List.mem_filterMap.mpr ⟨i, List.mem_finRange i, hn⟩

variable {parent : Path}

/-- With single slashes the part before the last slash has none at its ends. -/
theorem trimmed_beforeLastSlash (htrim : Trimmed p) (hs : SingleSlashes p)
    (hp : beforeLastSlash p = some parent) : Trimmed parent := by
  obtain ⟨c, hc, -⟩ := beforeLastSlash_some hp
  have hne : parent ≠ [] := by
    rintro rfl
    exact htrim.2.1 (by rw [hc]; rfl)
  refine ⟨hne, fun hhead => htrim.2.1 ?_, fun hlast => ?_⟩
  · rw [hc, List.head?_append_of_ne_nil _ hne, hhead]
  · -- a slash at the end of the parent would be followed by another
    have hlen := List.length_pos_iff.mpr hne
    rw [List.getLast?_eq_getElem?] at hlast
    refine hs (parent.length - 1) ?_ ?_
    · rw [hc, List.getElem?_append_left (by omega), hlast]
    · rw [hc, Nat.sub_add_cancel hlen, List.getElem?_append_right (Nat.le_refl _), Nat.sub_self]
      rfl

section

variable {w : World} (ht : Tree w.fs.nodes)
  (hs : ∀ i n, w.fs.nodes i = some n → SingleSlashes n.path)
include ht hs

/-- The parent of a node is a path without slashes at its ends. -/
theorem trimmed_parent (hn : w.fs.nodes i = some n)
    (hp : beforeLastSlash n.path = some parent) : Trimmed parent :=
  trimmed_beforeLastSlash (ht.trimmed i n hn) (hs i n hn) hp

/-- **The path before the last slash is that of a directory.** -/
theorem isDir_parent (hn : w.fs.nodes i = some n)
    (hp : beforeLastSlash n.path = some parent) : IsDir w.fs.nodes parent := by
  obtain ⟨c, hc, -⟩ := beforeLastSlash_some hp
  exact ht.anchored i n parent hn (trimmed_parent ht hs hn hp) ⟨c, hc⟩

omit hs in
/-- Listing a directory of the tree. -/
theorem readdir_run (hp : Trimmed parent) (hdir : IsDir w.fs.nodes parent) :
    readdir parent w = (.ok (listing w.fs parent 64), w) := by
  obtain ⟨j, d, hd, hpath, htype⟩ := hdir
  have hclean : clean parent = parent := trimSlashes_of_trimmed hp
  have hindex : nodeIndex w.fs parent = some j := by
    rcases hi : nodeIndex w.fs parent with _ | k
    · exact absurd (by rw [hpath, hclean]) (nodeIndex_none hi j hd)
    · obtain ⟨m, hm, hmp⟩ := nodeIndex_some hi
      rw [ht.distinct k j m d hm hd (by rw [hmp, hclean, hpath])]
  unfold readdir readdirInto
  simp only [hclean]
  show ((if parent = [] then pure (listing w.fs parent 64) else _ : FsM (List DirEntry)) w) = _
  rw [if_neg hp.1, hindex]
  show ((unwrap (w.fs.nodes j) >>= _ : FsM (List DirEntry)) w) = _
  rw [hd]
  show ((if d.fileType ≠ .directory then fail .notADirectory
    else pure (listing w.fs parent 64) : FsM (List DirEntry)) w) = _
  rw [if_neg (not_not.mpr htype)]
  rfl

/-- **Every node is reachable.** -/
theorem reachable_of_tree (hn : w.fs.nodes i = some n) :
    Reachable w n.path := by
  -- by induction on the length of the path: the parent is shorter
  induction hlen : n.path.length using Nat.strong_induction_on generalizing i n with
  | _ k ih =>
    rcases hp : beforeLastSlash n.path with _ | parent
    · have hslash : '/' ∉ n.path := by
        intro hc
        rw [beforeLastSlash, if_pos hc] at hp
        cases hp
      have hchild : isDirectChild [] n.path = true := by
        simp [isDirectChild, (ht.trimmed i n hn).1, hslash]
      exact Reachable.entry Reachable.root hn ⟨_, rfl, hchild, mem_listing hn hchild⟩
    · obtain ⟨c, hc, hnc⟩ := beforeLastSlash_some hp
      have hdir := isDir_parent ht hs hn hp
      have htrim := trimmed_parent ht hs hn hp
      have hchild : isDirectChild parent n.path = true := by
        have hne : c ≠ [] := by
          rintro rfl
          exact (ht.trimmed i n hn).2.2 (by rw [hc]; simp)
        have h1 : parent.isPrefixOf? n.path = some ('/' :: c) :=
          List.isPrefixOf?_eq_some_iff_append_eq.mpr hc.symm
        have h2 : ['/'].isPrefixOf? ('/' :: c) = some c :=
          List.isPrefixOf?_eq_some_iff_append_eq.mpr rfl
        simp [isDirectChild, htrim.1, h1, h2, hne, hnc]
      have hreach : Reachable w parent := by
        obtain ⟨j, d, hd, hpath, -⟩ := hdir
        rw [← hpath]
        refine ih d.path.length ?_ hd rfl
        rw [← hlen, hc, hpath, List.length_append, List.length_cons]
        omega
      exact Reachable.entry hreach hn
        ⟨_, readdir_run ht htrim hdir, hchild, mem_listing hn hchild⟩

end

/-- What a call must be for the namespace to stay a tree: one with paths of the VFS, and not
a rename of a directory to a path below itself. -/
def Call.KeepsTree (w : World) (c : Call) : Prop := c.Normal ∧ c.RenameOk w

/-- **The namespace stays a tree** in every run of such calls from a formatted partition,
failed calls included, and whatever the device does during the run. -/
theorem run_isTree {p : Partition} {d : Device} {s : DunitFs × Device} (hboot : boot p d = .ok s)
    (disk : Device) (clock : ℕ → UInt64) (cs : List Call)
    (hcs : EveryCall Call.KeepsTree ⟨s.1, disk, clock⟩ cs) :
    IsTree (runCalls ⟨s.1, disk, clock⟩ cs) := by
  -- no promise is made of the sizes, so `ftruncate_handle` needs no condition
  have hstep : ∀ w c, Inv none SingleSlashes Set.univ w → Call.KeepsTree w c →
      Inv none SingleSlashes Set.univ (c.exec w).2 := by
    intro w c h hc
    exact (c.exec_ends (fun hD => absurd rfl hD) h hc.1.names hc.2 (Or.inl rfl)).state
      (fun _ _ ht => ht) fun _ _ ht => ht.2
  have hinv := run_keeps hstep (inv_boot hboot _ _ disk clock) hcs
  have htree := hinv.sound.consistent.tree
  have hnamed := hinv.sound.consistent.named
  exact ⟨htree.distinct, fun i n hn => (htree.trimmed i n hn).1, htree.path_le,
    fun i n parent hn hp => isDir_parent htree hnamed hn hp,
    fun i n hn => reachable_of_tree htree hnamed hn⟩

/-- A directory with a directory and a file in it is renamed, and the file is removed. -/
def treeCalls : List Call :=
  [.mkdir ['a'], .mkdir ['a', '/', 'b'], .open_ ['a', '/', 'f'] ⟨7⟩, .rename ['a'] ['c'],
    .remove ['c', '/', 'f']]

instance (c : List Char) : Decidable (Component c) := inferInstanceAs (Decidable (_ ∧ _))

theorem run_isTree_rename : IsTree (runCalls smallWorld treeCalls) := by
  have hpaths : ∀ cs ∈ [[['a']], [['a'], ['b']], [['a'], ['f']], [['c']], [['c'], ['f']]],
      ∀ c ∈ cs, Component c := by decide
  refine run_isTree boot_small smallWorld.disk smallWorld.clock treeCalls
    ⟨⟨⟨[['a']], hpaths _ (by simp), rfl⟩, trivial⟩,
    ⟨⟨[['a'], ['b']], hpaths _ (by simp), rfl⟩, trivial⟩,
    ⟨⟨[['a'], ['f']], hpaths _ (by simp), rfl⟩, trivial⟩,
    ⟨⟨⟨[['a']], hpaths _ (by simp), rfl⟩, ⟨[['c']], hpaths _ (by simp), rfl⟩⟩,
      fun i n _ _ _ => ?_⟩,
    ⟨⟨[['c'], ['f']], hpaths _ (by simp), rfl⟩, trivial⟩, trivial⟩
  rintro ⟨s, hs⟩
  have ha : clean ['a'] = ['a'] := by decide
  have hc : clean ['c'] = ['c'] := by decide
  rw [ha, hc] at hs
  simp at hs

/-- **The condition cannot be dropped**: after a rename of a directory to a path below
itself, its parent is not a directory. -/
theorem run_not_isTree :
    boot smallPartition zeroDevice = .ok (smallWorld.fs, smallWorld.disk) ∧
      (∀ c ∈ intoItself.take 2, c.Normal) ∧ ¬IsTree (runCalls smallWorld (intoItself.take 2)) := by
  refine ⟨boot_small, fun c hc => ?_, fun h => ?_⟩
  · have hpaths : ∀ cs ∈ [[['a']], [['a'], ['b']]], ∀ c ∈ cs, Component c := by decide
    simp only [intoItself, List.take_succ_cons, List.take_zero, List.mem_cons, List.not_mem_nil,
      or_false] at hc
    rcases hc with rfl | rfl
    · exact ⟨[['a']], hpaths _ (by simp), rfl⟩
    · exact ⟨⟨[['a']], hpaths _ (by simp), rfl⟩, ⟨[['a'], ['b']], hpaths _ (by simp), rfl⟩⟩
  · have hnode : ((runCalls smallWorld (intoItself.take 2)).fs.nodes 0).map Node.path =
        some ['a', '/', 'b'] := by decide +kernel
    have hother : ∀ i, ((runCalls smallWorld (intoItself.take 2)).fs.nodes i).map Node.path ≠
        some ['a'] := by decide +kernel
    obtain ⟨n, hn, hpath⟩ := Option.map_eq_some_iff.mp hnode
    obtain ⟨j, d, hd, hdpath, -⟩ := h.parent 0 n ['a'] hn (by rw [hpath]; decide)
    exact hother j (by rw [hd, Option.map_some, hdpath])

end DunitFs

end DunitOS
