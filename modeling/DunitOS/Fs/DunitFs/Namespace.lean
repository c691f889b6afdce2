import DunitOS.Fs.DunitFs.Ops

/-!
# The namespace of DunitFS

Directories are only prefixes of paths: nothing in a node says where it is but its path.
`Tree` is what makes a node table a tree all the same. Paths are distinct
and have no slash at their ends, and every path that is cut at one of its slashes gives
the path of a directory, unless the cut leaves a slash at the end.

The last clause speaks of every cut, not only of the last one, and of paths with several
slashes in a row as well. This is what lets a directory be renamed: the nodes that move
are those cut at the directory, and nothing else can be in their way. It fails for a
rename of a directory to a path below itself, which the code does not refuse.
-/

namespace DunitOS.DunitFs

open SysLib Vfs List Option Function

variable {q p path old new : Path} {fs : DunitFs}

/-! ### Cutting paths -/

/-- One path lies below another. -/
def Below (q p : Path) : Prop := ∃ s, p = q ++ '/' :: s

/-- **Two cuts of one path**: the shorter one is a cut of the longer one. -/
theorem below_cases {r s t : Path} (h : q ++ '/' :: s = r ++ '/' :: t) :
    q = r ∨ Below q r ∨ Below r q := by
  rcases append_eq_append_iff.mp h with ⟨a, rfl, ha⟩ | ⟨a, rfl, ha⟩
  · cases a with
    | nil => exact .inl (append_nil q).symm
    | cons c a =>
      rw [cons_append, cons.injEq] at ha
      exact .inr (.inl ⟨a, by rw [ha.1]⟩)
  · cases a with
    | nil => exact .inl (append_nil r)
    | cons c a =>
      rw [cons_append, cons.injEq] at ha
      exact .inr (.inr ⟨a, by rw [ha.1]⟩)

theorem Below.trans {r : Path} (h1 : Below p q) (h2 : Below q r) : Below p r := by
  obtain ⟨s, rfl⟩ := h1
  obtain ⟨t, rfl⟩ := h2
  exact ⟨s ++ '/' :: t, by simp⟩

/-- The part before the last slash, with what follows the slash. -/
theorem beforeLastSlash_some {parent : Path} (h : beforeLastSlash p = some parent) :
    ∃ c, p = parent ++ '/' :: c ∧ '/' ∉ c := by
  unfold beforeLastSlash at h
  split_ifs at h with hslash
  cases h
  -- split the path at the end of what is left after dropping non-slashes from its right
  have hsplit : p.rdropWhile (· != '/') ++ p.rtakeWhile (· != '/') = p :=
    rdropWhile_append_rtakeWhile
  have hne : p.rdropWhile (· != '/') ≠ [] := by
    intro hnil
    have hall := rdropWhile_eq_nil_iff.mp hnil '/' hslash
    simp at hall
  have hlast : (p.rdropWhile (· != '/')).getLast hne = '/' := by
    have := rdropWhile_last_not (· != '/') p hne
    simpa using this
  refine ⟨p.rtakeWhile (· != '/'), ?_, fun hmem => ?_⟩
  · calc p = p.rdropWhile (· != '/') ++ p.rtakeWhile (· != '/') := hsplit.symm
      _ = ((p.rdropWhile (· != '/')).dropLast ++ [(p.rdropWhile (· != '/')).getLast hne]) ++
          p.rtakeWhile (· != '/') := by rw [dropLast_append_getLast]
      _ = _ := by rw [hlast, append_assoc]; rfl
  · have := mem_rtakeWhile_imp hmem
    simp at this

/-- A trimmed path that opens a path with slashes at its end opens it before the slashes. -/
theorem prefix_trim {d t rest : Path} (hq : q.getLast? ≠ some '/') (hne : q ≠ [])
    (ht : ∀ c ∈ t, c = '/') (h : q ++ rest = d ++ t) : ∃ u, d = q ++ u := by
  rcases append_eq_append_iff.mp h with ⟨a, rfl, -⟩ | ⟨a, rfl, ha⟩
  · exact ⟨a, rfl⟩
  · cases a using reverseRecOn with
    | nil => exact ⟨[], by simp⟩
    | append_singleton a c =>
      -- the last letter of `q` would be one of the slashes
      have hc : c = '/' := ht c (by rw [ha]; simp)
      exact absurd (by simp [hc]) hq

/-- What trimming takes off the end of a path that does not begin with a slash. -/
theorem trimSlashes_append (h : p.head? ≠ some '/') :
    ∃ t, p = trimSlashes p ++ t ∧ ∀ c ∈ t, c = '/' := by
  have h1 : p.dropWhile (· == '/') = p := by
    cases p with
    | nil => rfl
    | cons c =>
      have hc : c ≠ '/' := fun hc => h (by simp [hc])
      simp [hc]
  refine ⟨p.rtakeWhile (· == '/'), ?_, fun c hc => ?_⟩
  · rw [trimSlashes, h1, rdropWhile_append_rtakeWhile]
  · simpa using mem_rtakeWhile_imp hc

/-! ### The tree -/

/-- A path is that of a directory of the table. -/
def IsDir (nodes : NodeTable) (q : Path) : Prop :=
  ∃ i d, nodes i = some d ∧ d.path = q ∧ d.fileType = .directory

/-- **The node table is a tree.** -/
structure Tree (nodes : NodeTable) : Prop where
  trimmed : ∀ i n, nodes i = some n → Trimmed n.path
  path_le : ∀ i n, nodes i = some n → byteLen n.path ≤ pathSize
  distinct : ∀ i j n n', nodes i = some n → nodes j = some n' → n.path = n'.path → i = j
  anchored : ∀ i n q, nodes i = some n → Trimmed q → Below q n.path → IsDir nodes q

/-- A path found by its index is the path asked for, cleaned. -/
theorem nodeIndex_some {i : Fin maxNodes}
    (h : nodeIndex fs path = some i) : ∃ n, fs.nodes i = some n ∧ n.path = clean path := by
  have hi := position_some h
  rw [decide_eq_true_eq, map_eq_some_iff] at hi
  exact hi

theorem nodeIndex_none (h : nodeIndex fs path = none)
    (i : Fin maxNodes) {n : Node} (hn : fs.nodes i = some n) : n.path ≠ clean path := by
  have hi := position_eq_none.mp h i
  rw [decide_eq_false_iff_not, hn] at hi
  exact fun hc => hi (by rw [map_some, hc])

/-- **The parent check**: when it passes, every cut of the path is a directory. -/
theorem isDir_of_parentExists (ht : Tree fs.nodes) {p q : Path} (hp : Trimmed p)
    (h : parentExists fs p = true) (hq : Trimmed q) (hqp : Below q p) : IsDir fs.nodes q := by
  obtain ⟨s, rfl⟩ := hqp
  unfold parentExists at h
  rcases hb : beforeLastSlash (q ++ '/' :: s) with _ | parent
  · -- there is a slash, so there is a last one
    unfold beforeLastSlash at hb
    rw [if_pos (by simp)] at hb
    cases hb
  rw [hb] at h
  obtain ⟨c, hc, hnc⟩ := beforeLastSlash_some hb
  -- the parent does not begin with a slash, and trimming it finds a directory
  have hparent : parent ≠ [] := by
    rintro rfl
    exact hp.2.1 (by rw [hc]; rfl)
  have hhead : parent.head? ≠ some '/' := by
    intro hh
    refine hp.2.1 ?_
    rw [hc, head?_append_of_ne_nil _ hparent, hh]
  obtain ⟨t, htrim, hslashes⟩ := trimSlashes_append hhead
  have hdir : IsDir fs.nodes (trimSlashes parent) := by
    rcases hi : nodeIndex fs parent with _ | i
    · simp [hi] at h
    · obtain ⟨n, hn, hpath⟩ := nodeIndex_some hi
      simp only [hi, bind_some, hn, decide_eq_true_eq] at h
      exact ⟨i, n, hn, hpath, h⟩
  -- the cut is at the parent or before it, for nothing after the parent is a slash
  have hcut : ∃ rest, q ++ rest = parent := by
    rcases append_eq_append_iff.mp hc with ⟨a, ha, -⟩ | ⟨a, ha, hrest⟩
    · exact ⟨a, ha.symm⟩
    · cases a with
      | nil => exact ⟨[], by rw [ha]; simp⟩
      | cons =>
        rw [cons_append, cons.injEq] at hrest
        exact absurd (by rw [hrest.2]; simp) hnc
  obtain ⟨rest, hrest⟩ := hcut
  obtain ⟨u, hu⟩ := prefix_trim hq.2.2 hq.1 hslashes (hrest.trans htrim)
  cases u with
  | nil =>
    rw [append_nil] at hu
    rwa [← hu]
  | cons x u =>
    -- the letter after the cut is a slash of the whole path
    have hx : x = '/' := by
      have hall : q ++ '/' :: s = q ++ (x :: u ++ t ++ '/' :: c) := by
        rw [hc, htrim, hu]
        simp
      have hcons := append_cancel_left hall
      simp only [cons_append, cons.injEq] at hcons
      exact hcons.1.symm
    obtain ⟨i, d, hd, hpath, -⟩ := hdir
    exact ht.anchored i d q hd hq ⟨u, by rw [hpath, hu, hx]⟩

/-! ### Operations on the tree -/

namespace Tree

variable {nodes : NodeTable} (h : Tree nodes)
variable {i : Fin maxNodes}
include h

/-- A change of a node that keeps its path and its type keeps the tree. -/
theorem update_same {n n' : Node} (hn : nodes i = some n)
    (hpath : n'.path = n.path) (htype : n'.fileType = n.fileType) :
    Tree (Function.update nodes i (some n')) := by
  have hsame : ∀ j m', Function.update nodes i (some n') j = some m' →
      ∃ m, nodes j = some m ∧ m'.path = m.path ∧ m'.fileType = m.fileType := by
    intro j m' hm'
    rcases eq_or_ne j i with rfl | hj
    · rw [Function.update_self] at hm'
      cases hm'
      exact ⟨n, hn, hpath, htype⟩
    · rw [Function.update_of_ne hj] at hm'
      exact ⟨m', hm', rfl, rfl⟩
  have hdir : ∀ q, IsDir nodes q → IsDir (Function.update nodes i (some n')) q := by
    rintro q ⟨j, d, hd, hq, ht⟩
    rcases eq_or_ne j i with rfl | hj
    · rw [hn] at hd
      cases hd
      exact ⟨j, n', Function.update_self _ _ _, hpath.trans hq, htype.trans ht⟩
    · exact ⟨j, d, by rwa [Function.update_of_ne hj], hq, ht⟩
  refine ⟨fun j m' hm' => ?_, fun j m' hm' => ?_, fun j k m1 m2 h1 h2 he => ?_,
    fun j m' q hm' hq hb => ?_⟩
  · obtain ⟨m, hm, hp, -⟩ := hsame j m' hm'
    rw [hp]
    exact h.trimmed j m hm
  · obtain ⟨m, hm, hp, -⟩ := hsame j m' hm'
    rw [hp]
    exact h.path_le j m hm
  · obtain ⟨m1', hm1, hp1, -⟩ := hsame j m1 h1
    obtain ⟨m2', hm2, hp2, -⟩ := hsame k m2 h2
    exact h.distinct j k m1' m2' hm1 hm2 (by rw [← hp1, ← hp2, he])
  · obtain ⟨m, hm, hp, -⟩ := hsame j m' hm'
    rw [hp] at hb
    exact hdir q (h.anchored j m q hm hq hb)

/-- **A new node** whose path is new and whose cuts are directories keeps the tree. -/
theorem insert (hfree : nodes i = none) {n : Node} (hp : Trimmed n.path)
    (hle : byteLen n.path ≤ pathSize) (hnew : ∀ j m, nodes j = some m → m.path ≠ n.path)
    (hcuts : ∀ q, Trimmed q → Below q n.path → IsDir nodes q) :
    Tree (Function.update nodes i (some n)) := by
  have hold : ∀ j m, Function.update nodes i (some n) j = some m →
      (j = i ∧ m = n) ∨ nodes j = some m := by
    intro j m hm
    rcases eq_or_ne j i with rfl | hj
    · rw [Function.update_self] at hm
      exact .inl ⟨rfl, (some.inj hm).symm⟩
    · rw [Function.update_of_ne hj] at hm
      exact .inr hm
  have hdir : ∀ q, IsDir nodes q → IsDir (Function.update nodes i (some n)) q := by
    rintro q ⟨j, d, hd, hq, ht⟩
    have hj : j ≠ i := by
      rintro rfl
      rw [hfree] at hd
      cases hd
    exact ⟨j, d, by rwa [Function.update_of_ne hj], hq, ht⟩
  refine ⟨fun j m hm => ?_, fun j m hm => ?_, fun j k m1 m2 h1 h2 he => ?_,
    fun j m q hm hq hb => ?_⟩
  · rcases hold j m hm with ⟨-, rfl⟩ | hm
    · exact hp
    · exact h.trimmed j m hm
  · rcases hold j m hm with ⟨-, rfl⟩ | hm
    · exact hle
    · exact h.path_le j m hm
  · rcases hold j m1 h1 with ⟨hj, rfl⟩ | hj <;> rcases hold k m2 h2 with ⟨hk, rfl⟩ | hk
    · rw [hj, hk]
    · exact absurd he.symm (hnew k m2 hk)
    · exact absurd he (hnew j m1 hj)
    · exact h.distinct j k m1 m2 hj hk he
  · rcases hold j m hm with ⟨-, rfl⟩ | hm
    · exact hdir q (hcuts q hq hb)
    · exact hdir q (h.anchored j m q hm hq hb)

/-- **Removing a file** keeps the tree: nothing is anchored at a file. -/
theorem remove {n : Node} (hn : nodes i = some n)
    (hfile : n.fileType ≠ .directory) : Tree (Function.update nodes i none) := by
  have hold : ∀ j m, Function.update nodes i none j = some m → nodes j = some m := by
    intro j m hm
    rcases eq_or_ne j i with rfl | hj
    · rw [Function.update_self] at hm
      cases hm
    · rwa [Function.update_of_ne hj] at hm
  refine ⟨fun j m hm => h.trimmed j m (hold j m hm), fun j m hm => h.path_le j m (hold j m hm),
    fun j k m1 m2 h1 h2 he => h.distinct j k m1 m2 (hold j m1 h1) (hold k m2 h2) he,
    fun j m q hm hq hb => ?_⟩
  obtain ⟨k, d, hd, hpath, ht⟩ := h.anchored j m q (hold j m hm) hq hb
  have hk : k ≠ i := by
    rintro rfl
    rw [hn] at hd
    cases hd
    exact hfile ht
  exact ⟨k, d, by rwa [Function.update_of_ne hk], hpath, ht⟩

end Tree

/-! ### Renaming -/

/-- The new path of a node when `old` is renamed to `new`. -/
def renamed (old new path : Path) : Path :=
  if path = old then new else (movedPath old new path).getD path

theorem movedPath_some {path' : Path} (h : movedPath old new path = some path') :
    ∃ s, path = old ++ '/' :: s ∧ path' = new ++ '/' :: s := by
  rw [movedPath, map_eq_some_iff] at h
  obtain ⟨s, hs, rfl⟩ := h
  refine ⟨s, ?_, by simp⟩
  have := isPrefixOf?_eq_some_iff_append_eq.mp hs
  rw [← this]
  simp

theorem movedPath_below (s : Path) :
    movedPath old new (old ++ '/' :: s) = some (new ++ '/' :: s) := by
  have h : (old ++ ['/']).isPrefixOf? (old ++ '/' :: s) = some s :=
    isPrefixOf?_eq_some_iff_append_eq.mpr (by simp)
  rw [movedPath, h]
  simp

/-- **The new path of a node**: the renamed one, one that moves with it, or its own. -/
theorem renamed_cases (old new path : Path) : (path = old ∧ renamed old new path = new) ∨
      (∃ s, path = old ++ '/' :: s ∧ renamed old new path = new ++ '/' :: s) ∨
      (path ≠ old ∧ ¬Below old path ∧ renamed old new path = path) := by
  unfold renamed
  split_ifs with hp
  · exact .inl ⟨hp, rfl⟩
  · rcases hm : movedPath old new path with _ | path'
    · refine .inr (.inr ⟨hp, ?_, rfl⟩)
      rintro ⟨s, rfl⟩
      rw [movedPath_below] at hm
      cases hm
    · obtain ⟨s, hs, rfl⟩ := movedPath_some hm
      exact .inr (.inl ⟨s, hs, rfl⟩)

theorem renamed_of_not_below (hne : path ≠ old) (hb : ¬Below old path) :
    renamed old new path = path := by
  rcases renamed_cases old new path with ⟨h, -⟩ | ⟨s, h, -⟩ | ⟨-, -, h⟩
  · exact absurd h hne
  · exact absurd ⟨s, h⟩ hb
  · exact h

@[simp] theorem renamed_self (old new : Path) : renamed old new old = new := if_pos rfl

@[simp] theorem renamed_below (old new s : Path) :
    renamed old new (old ++ '/' :: s) = new ++ '/' :: s := by
  have hne : old ++ '/' :: s ≠ old := by simp
  rw [renamed, if_neg hne, movedPath_below, getD_some]

/-- What follows the slash of a trimmed path can follow another trimmed path as well. -/
theorem trimmed_append {s : Path} (hq : Trimmed q) (h : Trimmed (p ++ '/' :: s)) :
    Trimmed (q ++ '/' :: s) := by
  refine ⟨by simp, ?_, ?_⟩
  · rw [head?_append_of_ne_nil _ hq.1]
    exact hq.2.1
  · have hlast := h.2.2
    rw [getLast?_append_of_ne_nil _ (cons_ne_nil _ _)] at hlast ⊢
    exact hlast

/-- What a rename leaves of a node: all but its path and its time. -/
structure MovedNode (old new : Path) (m m' : Node) : Prop where
  path_eq : m'.path = renamed old new m.path
  type_eq : m'.fileType = m.fileType
  size_eq : m'.size = m.size
  extents_eq : m'.extents = m.extents

/-- The table in which a node and the nodes below it have moved to a new path: every node
keeps its place in the table. -/
structure Moved (old new : Path) (nodes nodes' : NodeTable) : Prop where
  back : ∀ j m', nodes' j = some m' → ∃ m, nodes j = some m ∧ MovedNode old new m m'
  forth : ∀ j m, nodes j = some m → ∃ m', nodes' j = some m' ∧ MovedNode old new m m'

theorem Moved.isDir {nodes nodes' : NodeTable} (h : Moved old new nodes nodes')
    (hq : IsDir nodes q) : IsDir nodes' (renamed old new q) := by
  obtain ⟨j, d, hd, rfl, ht⟩ := hq
  obtain ⟨d', hd', hm⟩ := h.forth j d hd
  exact ⟨j, d', hd', hm.path_eq, hm.type_eq.trans ht⟩

/-- Paths that are not at or below the new one stay apart. -/
theorem renamed_injective {p : Path} (hp : p ≠ new) (hp' : ¬Below new p) (hq : q ≠ new)
    (hq' : ¬Below new q) (heq : renamed old new p = renamed old new q) : p = q := by
  rcases renamed_cases old new p with ⟨hs, h⟩ | ⟨s, hs, h⟩ | ⟨-, -, h⟩ <;>
    rcases renamed_cases old new q with ⟨ht, h'⟩ | ⟨t, ht, h'⟩ | ⟨-, -, h'⟩ <;> rw [h, h'] at heq
  · rw [hs, ht]
  · simp at heq
  · exact absurd heq.symm hq
  · simp at heq
  · rw [hs, ht, append_cancel_left heq]
  · exact absurd ⟨s, heq.symm⟩ hq'
  · exact absurd heq hp
  · exact absurd ⟨t, heq⟩ hp'
  · exact heq

theorem trimmed_renamed {p : Path} (hnew : Trimmed new) (hp : Trimmed p) :
    Trimmed (renamed old new p) := by
  rcases renamed_cases old new p with ⟨-, h⟩ | ⟨s, hs, h⟩ | ⟨-, -, h⟩ <;> rw [h]
  · exact hnew
  · exact trimmed_append hnew (hs ▸ hp)
  · exact hp

/-- **What is above a renamed node is a directory** if that held before, if directories are renamed
too, and if those above the new path are not among what is renamed. -/
theorem anchored_renamed {Dir Dir' : Path → Prop} {p : Path} (hold : Trimmed old)
    (hmoves : ∀ r, Dir r → Dir' (renamed old new r))
    (hp : ∀ r, Trimmed r → Below r p → Dir r)
    (hnew : ∀ r, Trimmed r → Below r new → Dir r ∧ r ≠ old ∧ ¬Below old r)
    (hq : Trimmed q) (hb : Below q (renamed old new p)) : Dir' q := by
  have hstays : ∀ {r}, Dir r → r ≠ old → ¬Below old r → Dir' r := fun {r} hr hne hnb =>
    renamed_of_not_below hne hnb ▸ hmoves r hr
  have habove : Below q new → Dir' q := fun hb =>
    hstays (hnew q hq hb).1 (hnew q hq hb).2.1 (hnew q hq hb).2.2
  rcases renamed_cases old new p with ⟨-, h⟩ | ⟨s, hs, h⟩ | ⟨-, hnb, h⟩ <;> rw [h] at hb
  · exact habove hb
  · -- the cut is the new path itself, above it, or below it
    obtain ⟨t, ht⟩ := hb
    rcases below_cases ht.symm with rfl | hb | ⟨u, rfl⟩
    · have hdir := hmoves old (hp old hold ⟨s, hs⟩)
      rwa [renamed_self] at hdir
    · exact habove hb
    · have hst : s = u ++ '/' :: t := by simpa using ht
      have hdir := hmoves _ (hp (old ++ '/' :: u) (trimmed_append hold hq)
        ⟨t, by rw [hs, hst]; simp⟩)
      rwa [renamed_below] at hdir
  · exact hstays (hp q hq hb) (fun he => hnb (he ▸ hb)) fun hb' => hnb (hb'.trans hb)

section

variable {nodes nodes' : NodeTable} (h : Tree nodes) {i : Fin maxNodes} {n : Node}
  (hn : nodes i = some n)
include h hn

/-- Only a directory has nodes below it. -/
theorem Tree.directory_of_below {j : Fin maxNodes} {m : Node} (hm : nodes j = some m)
    (hb : Below n.path m.path) : n.fileType = .directory := by
  obtain ⟨k, d, hd, hpath, ht⟩ := h.anchored j m n.path hm (h.trimmed i n hn) hb
  obtain rfl := h.distinct k i d n hd hn hpath
  rw [hn] at hd
  cases hd
  exact ht

/-- **Renaming keeps the tree**, unless a directory moves below itself. -/
theorem Tree.rename {new : Path} (hmoved : Moved n.path new nodes nodes') (hnew : Trimmed new)
    (hle : byteLen new ≤ pathSize) (hfree : ∀ j m, nodes j = some m → m.path ≠ new)
    (hcuts : ∀ q, Trimmed q → Below q new → IsDir nodes q)
    (hself : n.fileType = .directory → ¬Below n.path new)
    (hfit : ∀ j m s, nodes j = some m → m.path = n.path ++ '/' :: s →
      byteLen (new ++ '/' :: s) ≤ pathSize) : Tree nodes' := by
  refine ⟨fun j m' hm' => ?_, fun j m' hm' => ?_, fun j k m1' m2' h1' h2' he => ?_,
    fun j m' q hm' hq hb => ?_⟩
  · obtain ⟨m, hm, hmm⟩ := hmoved.back j m' hm'
    rw [hmm.path_eq]
    exact trimmed_renamed hnew (h.trimmed j m hm)
  · obtain ⟨m, hm, hmm⟩ := hmoved.back j m' hm'
    rw [hmm.path_eq]
    rcases renamed_cases n.path new m.path with ⟨-, hr⟩ | ⟨s, hs, hr⟩ | ⟨-, -, hr⟩ <;> rw [hr]
    · exact hle
    · exact hfit j m s hm hs
    · exact h.path_le j m hm
  · obtain ⟨m1, h1, hmm1⟩ := hmoved.back j m1' h1'
    obtain ⟨m2, h2, hmm2⟩ := hmoved.back k m2' h2'
    rw [hmm1.path_eq, hmm2.path_eq] at he
    -- nothing is below the new path, as nothing is there
    have hout : ∀ l m, nodes l = some m → ¬Below new m.path := by
      intro l m hm hb
      obtain ⟨l', d, hd, hpath, -⟩ := h.anchored l m new hm hnew hb
      exact hfree l' d hd hpath
    exact h.distinct j k m1 m2 h1 h2
      (renamed_injective (hfree j m1 h1) (hout j m1 h1) (hfree k m2 h2) (hout k m2 h2) he)
  · obtain ⟨m, hm, hmm⟩ := hmoved.back j m' hm'
    rw [hmm.path_eq] at hb
    refine anchored_renamed (h.trimmed i n hn) (fun r => hmoved.isDir)
      (fun r hr hb => h.anchored j m r hm hr hb) (fun r hr hb => ?_) hq hb
    -- a directory above the new path stays where it is
    have hdir := hcuts r hr hb
    obtain ⟨k, d, hd, rfl, ht⟩ := hcuts r hr hb
    refine ⟨hdir, fun he => ?_, fun hb' => hself (h.directory_of_below hn hd hb') (hb'.trans hb)⟩
    obtain rfl := h.distinct k i d n hd hn he
    rw [hn] at hd
    cases hd
    exact hself ht hb

/-- The node table after `rename_node`, with the time of the rename. -/
def renameTable (i : Fin maxNodes) (n : Node) (new : Path) (now : UInt64) (nodes : NodeTable) :
    NodeTable :=
  Function.update (if n.fileType = .directory then moveChildren n.path new nodes else nodes) i
    (some { n with path := new, mtimeNs := now })

/-- **What `rename_node` does to the table** is a move: the children of a directory move with
it, and a file has none. -/
theorem moved_renameTable (new : Path) (now : UInt64) :
    Moved n.path new nodes (renameTable i n new now nodes) := by
  have hold : MovedNode n.path new n { n with path := new, mtimeNs := now } :=
    ⟨(renamed_self _ _).symm, rfl, rfl, rfl⟩
  -- away from the node itself, the children move and the others stay
  have hrest : ∀ j m, j ≠ i → nodes j = some m → ∃ m',
      renameTable i n new now nodes j = some m' ∧ MovedNode n.path new m m' := by
    intro j m hj hm
    have hne : m.path ≠ n.path := fun he => hj (h.distinct j i m n hm hn he)
    rw [renameTable, update_of_ne hj]
    split_ifs with hdir
    · refine ⟨{ m with path := (movedPath n.path new m.path).getD m.path }, ?_, ?_, rfl, rfl, rfl⟩
      · rw [moveChildren, hm, map_some]
      · rw [renamed, if_neg hne]
    · have hnb : ¬Below n.path m.path := fun hb => hdir (h.directory_of_below hn hm hb)
      exact ⟨m, hm, (renamed_of_not_below hne hnb).symm, rfl, rfl, rfl⟩
  have hsome : ∀ j m', j ≠ i → renameTable i n new now nodes j = some m' →
      ∃ m, nodes j = some m := by
    intro j m' hj hm'
    rw [renameTable, update_of_ne hj] at hm'
    split_ifs at hm'
    · obtain ⟨m, hm, -⟩ := map_eq_some_iff.mp hm'
      exact ⟨m, hm⟩
    · exact ⟨m', hm'⟩
  refine ⟨fun j m' hm' => ?_, fun j m hm => ?_⟩
  · rcases eq_or_ne j i with rfl | hj
    · rw [renameTable, update_self] at hm'
      cases hm'
      exact ⟨n, hn, hold⟩
    · obtain ⟨m, hm⟩ := hsome j m' hj hm'
      obtain ⟨m'', hm'', hmm⟩ := hrest j m hj hm
      rw [hm'] at hm''
      cases hm''
      exact ⟨m, hm, hmm⟩
  · rcases eq_or_ne j i with rfl | hj
    · rw [hn] at hm
      cases hm
      exact ⟨_, update_self _ _ _, hold⟩
    · exact hrest j m hj hm

end

end DunitOS.DunitFs
