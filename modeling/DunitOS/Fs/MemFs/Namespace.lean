import DunitOS.Fs.MemFs.Steps

/-!
# The namespace of the file system in memory

`MemFs.Tree` says what makes the list of nodes a tree: paths are distinct and in normal
form, none of them is that of a base directory, and every cut of a path at one of its slashes is
the path of a directory. Each operation keeps it.

Handles name their files by paths. A rename rewrites the nodes and the handles by the same map
(`MemFs.nodes_moved`, `MemFs.openHandles_moved`), a removal takes the handles of
the file with it, and nothing else touches either, so a handle stays with its file. What it
depends on is that handle numbers are not used twice, and the counter that they come from wraps.
-/

namespace DunitOS

open SysLib Vfs List Option

open DunitFs (Below below_cases beforeLastSlash_some trimmed_beforeLastSlash renamed renamed_cases
  renamed_injective trimmed_renamed anchored_renamed
  renamed_self renamed_below renamed_of_not_below trimmed_append)

namespace MemFs

variable {fs fs' : MemFs} {path : Path} {i j : ℕ} {n m : MemNode}

/-! ### The tree -/

/-- A path is that of a directory: a base directory, or one with a node. -/
def IsDir (fs : MemFs) (q : Path) : Prop :=
  q ∈ baseDirs ∨ ∃ d ∈ fs.nodes, d.path = q ∧ d.fileType = .directory

/-- **The nodes form a tree.** -/
structure Tree (fs : MemFs) : Prop where
  trimmed : ∀ n ∈ fs.nodes, Trimmed n.path
  single : ∀ n ∈ fs.nodes, SingleSlashes n.path
  notBase : ∀ n ∈ fs.nodes, n.path ∉ baseDirs
  distinct : ∀ (i j : ℕ) (n m : MemNode), fs.nodes[i]? = some n →
    fs.nodes[j]? = some m → n.path = m.path → i = j
  anchored : ∀ n ∈ fs.nodes, ∀ q, Trimmed q → Below q n.path → IsDir fs q

theorem Tree.eq_of_path (h : Tree fs) (hn : n ∈ fs.nodes) (hm : m ∈ fs.nodes)
    (hp : n.path = m.path) : n = m := by
  obtain ⟨i, hi⟩ := mem_iff_getElem?.mp hn
  obtain ⟨j, hj⟩ := mem_iff_getElem?.mp hm
  obtain rfl := h.distinct i j n m hi hj hp
  exact some.inj (hi.symm.trans hj)

/-- A search finds the node with the path. -/
theorem Tree.findNode (h : Tree fs) (hn : n ∈ fs.nodes) : findNode fs n.path = some n := by
  have hclean : clean n.path = n.path := trimSlashes_of_trimmed (h.trimmed n hn)
  rcases hfind : MemFs.findNode fs n.path with _ | m
  · rw [MemFs.findNode, find?_eq_none] at hfind
    exact absurd (beq_iff_eq.mpr hclean.symm) (hfind n hn)
  · obtain ⟨hm, hp⟩ := findNode_some hfind
    rw [h.eq_of_path hm hn (hp.trans hclean)]

/-- Base directories have names of one component. -/
theorem not_slash_of_mem_baseDirs {q : Path} (h : q ∈ baseDirs) : '/' ∉ q := by
  have hall : ∀ q ∈ baseDirs, '/' ∉ q := by decide
  exact hall q h

theorem not_below_baseDir {q r : Path} (h : r ∈ baseDirs) : ¬Below q r := by
  rintro ⟨s, rfl⟩
  exact not_slash_of_mem_baseDirs h (by simp)

theorem isBaseDir_iff (h : Trimmed path) : isBaseDir path = true ↔ path ∈ baseDirs := by
  rw [isBaseDir, clean, trimSlashes_of_trimmed h, contains_iff_mem]

/-- What lies below a node is below a directory. -/
theorem Tree.directory_of_below (h : Tree fs) (hn : n ∈ fs.nodes) (hm : m ∈ fs.nodes)
    (hb : Below n.path m.path) : n.fileType = .directory := by
  rcases h.anchored m hm n.path (h.trimmed n hn) hb with hbase | ⟨d, hd, hp, ht⟩
  · exact absurd hbase (h.notBase n hn)
  · rw [← h.eq_of_path hd hn hp, ht]

/-- **The parent of a path**, with what follows its last slash. -/
theorem parentPath_cases (ht : Trimmed path) (hs : SingleSlashes path) :
    ('/' ∉ path ∧ parentPath path = []) ∨
      ∃ c, path = parentPath path ++ '/' :: c ∧ '/' ∉ c ∧ Trimmed (parentPath path) := by
  rw [parentPath, clean, trimSlashes_of_trimmed ht]
  rcases hb : beforeLastSlash path with _ | parent
  · refine .inl ⟨fun hmem => ?_, rfl⟩
    rw [beforeLastSlash, if_pos hmem] at hb
    cases hb
  · obtain ⟨c, hc, hslash⟩ := beforeLastSlash_some hb
    exact .inr ⟨c, hc, hslash, trimmed_beforeLastSlash ht hs hb⟩

/-- A path is said to be a directory only if it is one. -/
theorem isDir_of_nodeType (ht : Trimmed path) (h : nodeType fs path = some .directory) :
    IsDir fs path := by
  have hclean : clean path = path := trimSlashes_of_trimmed ht
  rw [nodeType, hclean] at h
  split_ifs at h with hroot
  · rcases hroot with hnil | hbase
    · exact absurd hnil ht.1
    · exact .inl ((isBaseDir_iff ht).mp hbase)
  · obtain ⟨d, hd, htype⟩ := map_eq_some_iff.mp h
    obtain ⟨hmem, hp⟩ := findNode_some hd
    exact .inr ⟨d, hmem, hp.trans hclean, htype⟩

/-- **The parent check**: when it passes, every cut of the path is a directory. -/
theorem Tree.isDir_of_parentExists (h : Tree fs) (ht : Trimmed path) (hs : SingleSlashes path)
    (hparent : parentExists fs path = true) {q : Path} (hq : Trimmed q) (hb : Below q path) :
    IsDir fs q := by
  obtain ⟨s, hs'⟩ := hb
  rcases parentPath_cases ht hs with ⟨hslash, -⟩ | ⟨c, hc, hslash, htrim⟩
  · exact absurd (by rw [hs']; simp) hslash
  have hdir : IsDir fs (parentPath path) :=
    isDir_of_nodeType htrim (beq_iff_eq.mp hparent)
  rcases below_cases (hs'.symm.trans hc) with rfl | hb | ⟨u, hu⟩
  · exact hdir
  · rcases hdir with hbase | ⟨d, hd, hp, -⟩
    · exact absurd hb (not_below_baseDir hbase)
    · exact h.anchored d hd q hq (hp ▸ hb)
  · -- the cut would be inside the last component
    rw [hu, append_assoc] at hs'
    have hcut := append_cancel_left (hc.symm.trans hs')
    rw [cons_append, cons.injEq] at hcut
    exact absurd (by rw [hcut.2]; simp) hslash

/-- The parent of a node is the root, a base directory or a directory with a node. -/
theorem Tree.parent (h : Tree fs) (hn : n ∈ fs.nodes) :
    parentPath n.path = [] ∨ IsDir fs (parentPath n.path) := by
  rcases parentPath_cases (h.trimmed n hn) (h.single n hn) with ⟨-, hnil⟩ | ⟨c, hc, -, htrim⟩
  · exact .inl hnil
  · exact .inr (h.anchored n hn _ htrim ⟨c, hc⟩)

/-! ### The operations keep the tree -/

/-- **Nodes with the same paths and types** at the same places form a tree as well. -/
theorem Tree.of_same (h : Tree fs) (hsame : fs'.nodes.map (fun n => (n.path, n.fileType)) =
      fs.nodes.map fun n => (n.path, n.fileType)) : Tree fs' := by
  have hback : ∀ (i : ℕ) (n : MemNode), fs'.nodes[i]? = some n →
      ∃ m : MemNode, fs.nodes[i]? = some m ∧ m.path = n.path ∧ m.fileType = n.fileType := by
    intro i n hn
    have hi := congrArg (fun l => l[i]?) hsame
    simp only [getElem?_map, hn, map_some] at hi
    obtain ⟨m, hm, heq⟩ := map_eq_some_iff.mp hi.symm
    obtain ⟨hp, ht⟩ := Prod.mk.inj heq
    exact ⟨m, hm, hp, ht⟩
  have hmem : ∀ n ∈ fs'.nodes, ∃ m ∈ fs.nodes, m.path = n.path := by
    intro n hn
    obtain ⟨i, hi⟩ := mem_iff_getElem?.mp hn
    obtain ⟨m, hm, hp, -⟩ := hback i n hi
    exact ⟨m, mem_of_getElem? hm, hp⟩
  have hdir : ∀ q, IsDir fs q → IsDir fs' q := by
    rintro q (hbase | ⟨d, hd, hp, ht⟩)
    · exact .inl hbase
    · have hd' : (d.path, d.fileType) ∈ fs'.nodes.map fun n => (n.path, n.fileType) :=
        hsame ▸ mem_map.mpr ⟨d, hd, rfl⟩
      obtain ⟨d', hd', heq⟩ := mem_map.mp hd'
      obtain ⟨hp', ht'⟩ := Prod.mk.inj heq
      exact .inr ⟨d', hd', hp'.trans hp, ht'.trans ht⟩
  refine ⟨fun n hn => ?_, fun n hn => ?_, fun n hn => ?_, fun i j n m hn hm hp => ?_,
    fun n hn q hq hb => ?_⟩
  · obtain ⟨m, hm, hp⟩ := hmem n hn
    exact hp ▸ h.trimmed m hm
  · obtain ⟨m, hm, hp⟩ := hmem n hn
    exact hp ▸ h.single m hm
  · obtain ⟨m, hm, hp⟩ := hmem n hn
    exact hp ▸ h.notBase m hm
  · obtain ⟨n', hn', hpn, -⟩ := hback i n hn
    obtain ⟨m', hm', hpm, -⟩ := hback j m hm
    exact h.distinct i j n' m' hn' hm' (hpn.trans (hp.trans hpm.symm))
  · obtain ⟨m, hm, hp⟩ := hmem n hn
    exact hdir q (h.anchored m hm q hq (hp ▸ hb))

/-- New data changes neither paths nor types. -/
theorem Refilled.same (h : Refilled path fs fs') :
    fs'.nodes.map (fun n => (n.path, n.fileType)) = fs.nodes.map fun n => (n.path, n.fileType) := by
  obtain rfl | ⟨i, n, data, -, -, rfl⟩ := h
  · rfl
  · refine ext_getElem? fun j => ?_
    rw [getElem?_map, getElem?_map, getElem?_modify]
    rcases fs.nodes[j]? with _ | m
    · rfl
    · by_cases hij : i = j
      · simp [hij]
      · simp [hij]

theorem Tree.added {t : FileType} (h : Tree fs) (hs : SingleSlashes (clean path))
    (hadd : Added path t fs fs') : Tree fs' := by
  obtain ⟨hfree, hparent, rfl⟩ := hadd
  obtain ⟨hne, hbase, hnew⟩ := nodeType_none hfree
  have htrim : Trimmed (clean path) := (trimSlashes_eq_nil_or_trimmed path).resolve_left hne
  have hmem : ∀ {n}, n ∈ fs.nodes ++ [⟨clean path, t, .owned []⟩] →
      n ∈ fs.nodes ∨ n = ⟨clean path, t, .owned []⟩ := by
    intro n hn
    rcases mem_append.mp hn with hn | hn
    · exact .inl hn
    · exact .inr (mem_singleton.mp hn)
  have hdir : ∀ q, IsDir fs q →
      IsDir { fs with nodes := fs.nodes ++ [⟨clean path, t, .owned []⟩] } q := by
    rintro q (hbase | ⟨d, hd, hq⟩)
    · exact .inl hbase
    · exact .inr ⟨d, mem_append_left _ hd, hq⟩
  refine ⟨fun n hn => ?_, fun n hn => ?_, fun n hn => ?_, fun i j n m hn hm hp => ?_,
    fun n hn q hq hb => ?_⟩
  · rcases hmem hn with hn | rfl
    · exact h.trimmed n hn
    · exact htrim
  · rcases hmem hn with hn | rfl
    · exact h.single n hn
    · exact hs
  · rcases hmem hn with hn | rfl
    · exact h.notBase n hn
    · refine fun hmem => ?_
      rw [isBaseDir, contains_eq_mem, decide_eq_false_iff_not] at hbase
      exact hbase hmem
  · -- a position is one of the old list, or the last one
    have hpos : ∀ {k : ℕ} {a}, (fs.nodes ++ [(⟨clean path, t, .owned []⟩ : MemNode)])[k]? = some a →
        (fs.nodes[k]? = some a ∧ a.path ≠ clean path) ∨
          (k = fs.nodes.length ∧ a.path = clean path) := by
      intro k a ha
      rcases Nat.lt_or_ge k fs.nodes.length with hk | hk
      · rw [getElem?_append_left hk] at ha
        exact .inl ⟨ha, hnew a (mem_of_getElem? ha)⟩
      · rw [getElem?_append_right hk] at ha
        obtain ⟨hlt, rfl⟩ := List.getElem?_eq_some_iff.mp ha
        rw [length_singleton] at hlt
        exact .inr ⟨by omega, by simp⟩
    rcases hpos hn with ⟨hn, hne⟩ | ⟨rfl, hpn⟩
    · rcases hpos hm with ⟨hm, -⟩ | ⟨-, hpm⟩
      · exact h.distinct i j n m hn hm hp
      · exact absurd (hp.trans hpm) hne
    · rcases hpos hm with ⟨-, hne⟩ | ⟨rfl, -⟩
      · exact absurd (hp.symm.trans hpn) hne
      · rfl
  · rcases hmem hn with hn | rfl
    · exact hdir q (h.anchored n hn q hq hb)
    · exact hdir q (h.isDir_of_parentExists htrim hs hparent hq hb)

/-- **A node that nothing lies below can be taken out.** -/
theorem Tree.erase (h : Tree fs) (hn : fs.nodes[i]? = some n)
    (hleaf : ∀ m ∈ fs.nodes, ¬Below n.path m.path) (hnodes : fs'.nodes = fs.nodes.eraseIdx i) :
    Tree fs' := by
  have hsub : ∀ {m}, m ∈ fs'.nodes → m ∈ fs.nodes := fun hm =>
    mem_of_mem_eraseIdx (hnodes ▸ hm)
  refine ⟨fun m hm => h.trimmed m (hsub hm), fun m hm => h.single m (hsub hm),
    fun m hm => h.notBase m (hsub hm), fun j k a b ha hb hp => ?_, fun m hm q hq hb => ?_⟩
  · rw [hnodes, getElem?_eraseIdx] at ha hb
    split_ifs at ha hb with hj hk hk
    · exact h.distinct j k a b ha hb hp
    · have := h.distinct j (k + 1) a b ha hb hp
      omega
    · have := h.distinct (j + 1) k a b ha hb hp
      omega
    · have := h.distinct (j + 1) (k + 1) a b ha hb hp
      omega
  · rcases h.anchored m (hsub hm) q hq hb with hbase | ⟨d, hd, hp, ht⟩
    · exact .inl hbase
    · obtain ⟨k, hk⟩ := mem_iff_getElem?.mp hd
      have hki : k ≠ i := by
        rintro rfl
        obtain rfl : d = n := some.inj (hk.symm.trans hn)
        exact hleaf m (hsub hm) (hp ▸ hb)
      exact .inr ⟨d, hnodes ▸ mem_eraseIdx_iff_getElem?.mpr ⟨k, hki, hk⟩, hp, ht⟩

/-! ### Renaming -/

theorem prefix_slash_iff {q p : Path} : (q ++ ['/']) <+: p ↔ Below q p := by
  constructor
  · rintro ⟨t, rfl⟩
    exact ⟨t, by simp⟩
  · rintro ⟨t, rfl⟩
    exact ⟨t, by simp⟩

/-- Below a directory the paths are moved as `DunitFs.renamed` says. -/
theorem rehome_eq_renamed {old new : Path} (hne : path ≠ old) :
    rehome old new path = renamed old new path := by
  rcases rehome_cases old new path with ⟨rest, rfl, hmoved⟩ | ⟨hb, hfix⟩
  · rw [hmoved, renamed_below]
  · rw [hfix, renamed_of_not_below hne hb]

/-- What has to hold for a node to be renamed. -/
structure Renames (fs : MemFs) (i : ℕ) (n : MemNode) (new : Path) : Prop where
  node : fs.nodes[i]? = some n
  trimmed : Trimmed new
  single : SingleSlashes new
  notBase : new ∉ baseDirs
  free : ∀ m ∈ fs.nodes, m.path ≠ new
  notBelow : ¬Below n.path new
  cuts : ∀ q, Trimmed q → Below q new → IsDir fs q

/-- Nothing lies below a path that is free. -/
theorem Renames.not_below_new {new : Path} (hr : Renames fs i n new) (h : Tree fs)
    (hm : m ∈ fs.nodes) : ¬Below new m.path := by
  intro hb
  rcases h.anchored m hm new hr.trimmed hb with hbase | ⟨d, hd, hp, -⟩
  · exact hr.notBase hbase
  · exact hr.free d hd hp

/-- **The nodes after a rename**: exactly the paths at and below the old one are rewritten. -/
theorem nodes_moved {new : Path} (h : Tree fs) (hr : Renames fs i n new) :
    (moved i n n.path new fs).nodes =
      fs.nodes.map fun m => { m with path := renamed n.path new m.path } := by
  have hother : ∀ {j : ℕ} {m : MemNode}, fs.nodes[j]? = some m → i ≠ j → m.path ≠ n.path :=
    fun hm hij hp => hij (h.distinct _ _ _ _ hr.node hm hp.symm)
  rw [moved]
  refine ext_getElem? fun j => ?_
  rw [getElem?_map]
  rcases hdir : n.fileType == .directory with _ | _
  · simp only [Bool.false_eq_true, if_false, getElem?_modify]
    rcases hj : fs.nodes[j]? with _ | m
    · rfl
    by_cases hij : i = j
    · subst hij
      obtain rfl : n = m := some.inj (hr.node.symm.trans hj)
      simp
    · -- nothing is below what is no directory
      have hb : ¬Below n.path m.path := fun hb => by
        have hn := mem_of_getElem? hr.node
        rw [h.directory_of_below hn (mem_of_getElem? hj) hb] at hdir
        cases hdir
      simp [hij, renamed_of_not_below (hother hj hij) hb]
  · simp only [if_true, getElem?_map, getElem?_modify]
    rcases hj : fs.nodes[j]? with _ | m
    · rfl
    by_cases hij : i = j
    · subst hij
      obtain rfl : n = m := some.inj (hr.node.symm.trans hj)
      have hfix : rehome n.path new new = new := by
        rcases rehome_cases n.path new new with ⟨rest, hrest, -⟩ | ⟨-, hfix⟩
        · exact absurd ⟨rest, hrest⟩ hr.notBelow
        · exact hfix
      simp [hfix]
    · simp [hij, rehome_eq_renamed (hother hj hij)]

/-- **Every open handle is that of a file.** -/
def Bound (fs : MemFs) : Prop :=
  ∀ e ∈ fs.openHandles, ∃ n ∈ fs.nodes, n.path = e.2.path ∧ n.fileType = .file

/-- **The handles after a rename** are rewritten as the nodes are. -/
theorem openHandles_moved {new : Path} (h : Tree fs) (hbound : Bound fs) (hr : Renames fs i n new) :
    (moved i n n.path new fs).openHandles =
      fs.openHandles.map fun e => (e.1, { e.2 with path := renamed n.path new e.2.path }) := by
  have hn := mem_of_getElem? hr.node
  rw [moved]
  refine map_congr_left fun e he => ?_
  obtain ⟨m, hm, hpath, -⟩ := hbound e he
  have hrest : ∀ p, (if p = n.path then new else p) = renamed n.path new e.2.path →
      (e.1, { e.2 with path := if p = n.path then new else p }) =
        (e.1, { e.2 with path := renamed n.path new e.2.path }) := fun p hp => by rw [hp]
  refine hrest _ ?_
  rcases hdir : n.fileType == .directory with _ | _
  · simp only [Bool.false_eq_true, if_false]
    by_cases hp : e.2.path = n.path
    · rw [if_pos hp, hp, renamed_self]
    · have hb : ¬Below n.path e.2.path := fun hb => by
        rw [h.directory_of_below hn hm (hpath.symm ▸ hb)] at hdir
        cases hdir
      rw [if_neg hp, renamed_of_not_below hp hb]
  · simp only [if_true]
    rcases rehome_cases n.path new e.2.path with ⟨rest, hp, hmoved⟩ | ⟨hb, hfix⟩
    · have hne : new ++ '/' :: rest ≠ n.path := fun hc =>
        hr.not_below_new h hn ⟨rest, hc.symm⟩
      rw [hmoved, if_neg hne, hp, renamed_below]
    · rw [hfix]
      by_cases hp : e.2.path = n.path
      · rw [if_pos hp, hp, renamed_self]
      · rw [if_neg hp, renamed_of_not_below hp hb]

/-- **A rename keeps the tree.** -/
theorem Tree.renamed {new : Path} (h : Tree fs) (hr : Renames fs i n new)
    (hnodes : fs'.nodes = fs.nodes.map fun m =>
      { m with path := DunitFs.renamed n.path new m.path }) : Tree fs' := by
  have hn := mem_of_getElem? hr.node
  have hmem : ∀ {m'}, m' ∈ fs'.nodes → ∃ m ∈ fs.nodes,
      m'.path = DunitFs.renamed n.path new m.path := by
    intro m' hm'
    obtain ⟨m, hm, rfl⟩ := mem_map.mp (hnodes ▸ hm')
    exact ⟨m, hm, rfl⟩
  have hmoves : ∀ q, IsDir fs q → IsDir fs' (DunitFs.renamed n.path new q) := by
    rintro q (hbase | ⟨d, hd, rfl, ht⟩)
    · rcases renamed_cases n.path new q with ⟨rfl, -⟩ | ⟨s, rfl, -⟩ | ⟨-, -, heq⟩
      · exact absurd hbase (h.notBase n hn)
      · exact absurd (by simp) (not_slash_of_mem_baseDirs hbase)
      · exact heq.symm ▸ .inl hbase
    · exact .inr ⟨{ d with path := DunitFs.renamed n.path new d.path },
        by rw [hnodes]; exact mem_map.mpr ⟨d, hd, rfl⟩, rfl, ht⟩
  refine ⟨fun m' hm' => ?_, fun m' hm' => ?_, fun m' hm' => ?_, fun j k a b ha hb hp => ?_,
    fun m' hm' q hq hb => ?_⟩
  · obtain ⟨m, hm, hp⟩ := hmem hm'
    rw [hp]
    exact trimmed_renamed hr.trimmed (h.trimmed m hm)
  · obtain ⟨m, hm, hp⟩ := hmem hm'
    rw [hp]
    rcases renamed_cases n.path new m.path with ⟨-, heq⟩ | ⟨s, hs, heq⟩ | ⟨-, -, heq⟩ <;> rw [heq]
    · exact hr.single
    · have hback : SingleSlashes ('/' :: s) := (h.single m hm).of_back ⟨n.path, hs.symm⟩
      exact hr.single.join hr.trimmed.2.2 hback
    · exact h.single m hm
  · obtain ⟨m, hm, hp⟩ := hmem hm'
    rw [hp]
    rcases renamed_cases n.path new m.path with ⟨-, heq⟩ | ⟨s, -, heq⟩ | ⟨-, -, heq⟩ <;> rw [heq]
    · exact hr.notBase
    · exact fun hbase => not_slash_of_mem_baseDirs hbase (by simp)
    · exact h.notBase m hm
  · rw [hnodes, getElem?_map] at ha hb
    obtain ⟨a', ha', rfl⟩ := map_eq_some_iff.mp ha
    obtain ⟨b', hb', rfl⟩ := map_eq_some_iff.mp hb
    have hma := mem_of_getElem? ha'
    have hmb := mem_of_getElem? hb'
    exact h.distinct j k a' b' ha' hb' (renamed_injective (hr.free a' hma)
      (hr.not_below_new h hma) (hr.free b' hmb) (hr.not_below_new h hmb) hp)
  · obtain ⟨m, hm, hp⟩ := hmem hm'
    rw [hp] at hb
    exact anchored_renamed (h.trimmed n hn) hmoves (h.anchored m hm) (fun r hr' hb =>
      ⟨hr.cuts r hr' hb, fun heq => hr.notBelow (heq ▸ hb), fun hb' => hr.notBelow (hb'.trans hb)⟩)
      hq hb

end MemFs

end DunitOS
