import DunitOS.Fs.DunitFs.Runs

/-!
# Structural operations that fail

Creating, renaming and removing change the table and the bitmap in memory, and then commit. If a
block write of the commit fails, the error is returned and the change stays: nothing undoes it. An
operation that fails leaves what can be seen of the file system as it was exactly if it did not get
past its checks (`failed_unchanged_iff`), and then it leaves everything as it was.
-/

namespace DunitOS.DunitFs

open SysLib Prog Vfs Function

/-- A structural operation. -/
inductive Structural where
  | create (path : Path)
  | mkdir (path : Path)
  | rename (old new : Path)
  | remove (path : Path)
  deriving DecidableEq

def Structural.run : Structural → FsM Unit
  | create path => DunitFs.create path
  | mkdir path => DunitFs.mkdir path
  | rename old new => DunitFs.rename old new
  | remove path => DunitFs.remove path

/-- The operation gets past its checks. -/
def Structural.Admitted (fs : DunitFs) : Structural → Prop
  | create path | mkdir path => ∃ i, Creates fs path i
  | rename old new => ∃ i n, Renames fs old new i n
  | remove path => ∃ i n, Removes fs path i n

/-- The number of free blocks of the data region. -/
def freeBlocks (fs : DunitFs) : ℕ :=
  (List.range' fs.geom.dataStart (fs.geom.totalBlocks - fs.geom.dataStart)).countP fun b =>
    !bitGet fs.bitmap b

/-- **What can be seen of the file system** is the same: what `stat` says of every path, what
`readdir` lists for every path, and the number of free blocks. -/
structure Unchanged (w t : World) : Prop where
  stat_eq : ∀ path, (stat path t).1 = (stat path w).1
  readdir_eq : ∀ path, (readdir path t).1 = (readdir path w).1
  free_eq : freeBlocks t.fs = freeBlocks w.fs

variable {fs : DunitFs} {i : Fin maxNodes} {n : Node}

section

variable {w t : World} {path : Path}

theorem stat_of_none (hne : clean path ≠ []) (h : nodeIndex w.fs (clean path) = none) :
    (stat path w).1 = .error (.err .notFound) := by
  rw [stat, if_neg hne, getFs_bind_run, h]
  rfl

theorem stat_of_some (hne : clean path ≠ [])
    (h : nodeIndex w.fs (clean path) = some i) : ∃ r, (stat path w).1 = .ok r := by
  obtain ⟨n, hn, -⟩ := nodeIndex_some h
  refine ⟨(n.fileType, n.size), ?_⟩
  rw [stat, if_neg hne, getFs_bind_run, h, okOr_some_bind, hn]
  rfl

/-- A path that is named by a node of one of two worlds and of no node of the other. -/
theorem not_unchanged (hne : clean path ≠ [])
    (h : (nodeIndex w.fs (clean path)).isSome ≠ (nodeIndex t.fs (clean path)).isSome) :
    ¬Unchanged w t := by
  intro hu
  have heq := hu.stat_eq path
  rcases hw : nodeIndex w.fs (clean path) with _ | i <;>
    rcases ht : nodeIndex t.fs (clean path) with _ | j
  · rw [hw, ht] at h
    exact h rfl
  · obtain ⟨r, hr⟩ := stat_of_some hne ht
    rw [stat_of_none hne hw, hr] at heq
    cases heq
  · obtain ⟨r, hr⟩ := stat_of_some hne hw
    rw [stat_of_none hne ht, hr] at heq
    cases heq
  · rw [hw, ht] at h
    exact h rfl

/-- A path that a node has is found. -/
theorem isSome_nodeIndex (hn : fs.nodes i = some n)
    (hpath : n.path = clean path) : (nodeIndex fs path).isSome = true := by
  rcases h : nodeIndex fs path with _ | j
  · exact absurd hpath (nodeIndex_none h i hn)
  · rfl

end

/-! ### The commit -/

theorem onDisk_fs {α : Type} (m : Prog Device DunitFsError α) (w : World) :
    (onDisk m w).2.fs = w.fs := by
  rw [onDisk]
  rcases m w.disk with ⟨e | a, d⟩ <;> rfl

theorem writeRaw_fs (relative : ℕ) (b : Block blockSize) (w : World) :
    (writeRaw relative b w).2.fs = w.fs := onDisk_fs _ w

variable {e : Stop} {t w : World}

/-- A program that leaves the file system alone, followed by one that does so when it fails. -/
theorem bind_error_fs {α β : Type} {m : FsM α} {f : α → FsM β}
    (hm : (m w).2.fs = w.fs) (hf : ∀ a u, f a u = (.error e, t) → t.fs = u.fs)
    (h : (m >>= f) w = (.error e, t)) : t.fs = w.fs := by
  rcases hrun : m w with ⟨e' | a, u⟩
  · rw [hrun] at hm
    rw [bind_error hrun] at h
    cases h
    exact hm
  · rw [hrun] at hm
    rw [bind_ok hrun] at h
    exact (hf a u h).trans hm

/-- **A commit that fails leaves the file system in memory alone.** It is the last thing a commit
does to change slot and generation, and that cannot fail. -/
theorem commit_error_fs (h : commit w = (.error e, t)) : t.fs = w.fs := by
  rw [commit, get_bind_run] at h
  rcases hdirty : w.fs.dirty with _ | _
  · rw [hdirty] at h
    cases h
  rw [hdirty] at h
  have hwritable : (ensureWritable w).2.fs = w.fs := by
    rw [ensureWritable, get_bind_run]
    split <;> rfl
  refine bind_error_fs hwritable (fun _ u h => ?_) h
  refine bind_error_fs (onDisk_fs _ u) (fun _ u h => ?_) h
  refine bind_error_fs (writeRaw_fs _ _ u) (fun _ u h => ?_) h
  refine bind_error_fs (writeRaw_fs _ _ u) (fun _ u h => ?_) h
  cases h

/-! ### Operations that fail -/

section

variable {w t : World} {e : Stop}

variable {path : Path}

theorem not_unchanged_of_new (hne : clean path ≠ []) (habsent : nodeIndex w.fs (clean path) = none)
    (hnew : (nodeIndex t.fs (clean path)).isSome = true) : ¬Unchanged w t := by
  refine not_unchanged hne ?_
  rw [habsent, hnew]
  exact Bool.false_ne_true

theorem createNode_failed {fileType : FileType} (h : createNode path fileType w = (.error e, t)) :
    ((∃ i, Creates w.fs path i) → ¬Unchanged w t) ∧ ((¬∃ i, Creates w.fs path i) → t = w) := by
  rcases createNode_run with ⟨_, hrun, hno⟩ | ⟨i, hc, hrun⟩
  · rw [hrun] at h
    cases h
    exact ⟨fun ⟨i, hi⟩ => absurd hi (hno i), fun _ => rfl⟩
  · refine ⟨fun _ => ?_, fun hno => absurd ⟨i, hc⟩ hno⟩
    rw [hrun] at h
    refine not_unchanged_of_new hc.ne_nil hc.absent ?_
    rw [commit_error_fs h]
    exact isSome_nodeIndex (update_self i _ _) (clean_clean path).symm

theorem renameNode_failed {old new : Path} (h : renameNode old new w = (.error e, t)) :
    ((∃ i n, Renames w.fs old new i n) → ¬Unchanged w t) ∧
      ((¬∃ i n, Renames w.fs old new i n) → t = w) := by
  rcases renameNode_run with ⟨_, hrun, hno⟩ | ⟨i, n, hr, hrun⟩
  · rw [hrun] at h
    cases h
    exact ⟨fun ⟨i, n, hi⟩ => absurd hi (hno i n), fun _ => rfl⟩
  · refine ⟨fun _ => ?_, fun hno => absurd ⟨i, n, hr⟩ hno⟩
    rw [hrun] at h
    refine not_unchanged_of_new hr.ne_nil hr.absent ?_
    rw [commit_error_fs h]
    exact isSome_nodeIndex (update_self i _ _) (clean_clean new).symm

theorem nodes_removed (hn : fs.nodes i = some n) :
    (removed fs i).nodes = Function.update fs.nodes i none := by
  show Function.update (freeExtents i fs).nodes i none = _
  rw [freeExtents_eq hn]
  exact update_idem _ _ _

theorem remove_failed (h : remove path w = (.error e, t)) :
    (Tree w.fs.nodes → (∃ i n, Removes w.fs path i n) → ¬Unchanged w t) ∧
      ((¬∃ i n, Removes w.fs path i n) → t = w) := by
  rcases remove_run with ⟨_, hrun, hno⟩ | ⟨i, n, hr, hrun⟩
  · rw [hrun] at h
    cases h
    exact ⟨fun _ ⟨i, n, hi⟩ => absurd hi (hno i n), fun _ => rfl⟩
  · refine ⟨fun htree _ => ?_, fun hno => absurd ⟨i, n, hr⟩ hno⟩
    rw [hrun] at h
    have hfs := commit_error_fs h
    obtain ⟨n, hn, hpath⟩ := nodeIndex_some hr.found
    have hne : clean path ≠ [] := by
      rw [← clean_clean, ← hpath]
      exact (htree.trimmed i n hn).1
    refine not_unchanged hne ?_
    have hnone : nodeIndex t.fs (clean path) = none := by
      rcases ht : nodeIndex t.fs (clean path) with _ | j
      · rfl
      -- a node found in its place would have the same path
      obtain ⟨m, hm, hmpath⟩ := nodeIndex_some ht
      rw [hfs, nodes_removed hn] at hm
      by_cases hj : j = i
      · rw [hj, update_self] at hm
        cases hm
      · rw [update_of_ne hj] at hm
        exact absurd (htree.distinct j i m n hm hn (hmpath.trans hpath.symm)) hj
    rw [hr.found, hnone]
    exact Bool.false_ne_true.symm

end

theorem Unchanged.refl (w : World) : Unchanged w w := ⟨fun _ => rfl, fun _ => rfl, rfl⟩

/-- **A structural operation that fails.** If its checks refuse it, it leaves everything as it was,
so that it can be tried again as if for the first time. If it gets past them, a block write of the
commit has failed, and on a tree of nodes the change it was making can be seen. -/
theorem failed_unchanged_iff {w t : World} {e : Stop} (op : Structural)
    (h : op.run w = (.error e, t)) :
    (¬op.Admitted w.fs → t = w ∧ Unchanged w t) ∧
      (Tree w.fs.nodes → (Unchanged w t ↔ ¬op.Admitted w.fs)) := by
  suffices hop : (Tree w.fs.nodes → op.Admitted w.fs → ¬Unchanged w t) ∧
      (¬op.Admitted w.fs → t = w) by
    have hsame : ¬op.Admitted w.fs → t = w ∧ Unchanged w t := by
      intro hno
      obtain rfl := hop.2 hno
      exact ⟨rfl, Unchanged.refl t⟩
    exact ⟨hsame, fun htree => ⟨fun hu ha => hop.1 htree ha hu, fun hno => (hsame hno).2⟩⟩
  cases op with
  | create | mkdir => exact ⟨fun _ => (createNode_failed h).1, (createNode_failed h).2⟩
  | rename => exact ⟨fun _ => (renameNode_failed h).1, (renameNode_failed h).2⟩
  | remove => exact remove_failed h

/-- The formatted partition, on a device whose next write fails. -/
def failingWorld : World :=
  { smallWorld with disk := { smallWorld.disk with faults := [true] } }

theorem tree_failingWorld : Tree failingWorld.fs.nodes :=
  (inv_boot boot_small (fun _ => True) ∅ smallWorld.disk smallWorld.clock).sound.consistent.tree

theorem creates_failingWorld : Creates failingWorld.fs ['f'] 0 :=
  ⟨rfl, by decide, by decide, by decide, by decide +kernel, by decide +kernel⟩

/-- The first attempt to create a file gets past the checks, and its failure can be seen. The
second one is refused, and leaves everything as it was. -/
theorem failed_unchanged_iff_twice :
    ¬Unchanged failingWorld (create ['f'] failingWorld).2 ∧
      Unchanged (create ['f'] failingWorld).2 (create ['f'] (create ['f'] failingWorld).2).2 := by
  have hfirst : Structural.run (.create ['f']) failingWorld =
      (.error (.err .ioError), (create ['f'] failingWorld).2) := Prod.ext (by decide +kernel) rfl
  have hsecond : Structural.run (.create ['f']) (create ['f'] failingWorld).2 =
      (.error (.err .alreadyExists), (create ['f'] (create ['f'] failingWorld).2).2) :=
    Prod.ext (by decide +kernel) rfl
  refine ⟨fun hu => ?_, ((failed_unchanged_iff _ hsecond).1 ?_).2⟩
  · exact ((failed_unchanged_iff _ hfirst).2 tree_failingWorld).mp hu ⟨0, creates_failingWorld⟩
  · rintro ⟨i, hc⟩
    have hsome : (nodeIndex (create ['f'] failingWorld).2.fs (clean ['f'])).isSome = true := by
      decide +kernel
    rw [hc.absent] at hsome
    cases hsome

/-- **A file whose creation failed can be seen**: the first attempt to create it reports an I/O
error, and the second one that the file exists. -/
theorem failed_create_seen :
    boot smallPartition zeroDevice = .ok (smallWorld.fs, smallWorld.disk) ∧
      (create ['f'] failingWorld).1 = .error (.err .ioError) ∧
      (stat ['f'] failingWorld).1 = .error (.err .notFound) ∧
      (stat ['f'] (create ['f'] failingWorld).2).1 = .ok (.file, 0) ∧
      (create ['f'] (create ['f'] failingWorld).2).1 = .error (.err .alreadyExists) ∧
      ¬Unchanged failingWorld (create ['f'] failingWorld).2 := by
  refine ⟨boot_small, by decide +kernel, by decide +kernel, by decide +kernel, by decide +kernel,
    fun hu => ?_⟩
  have heq := hu.stat_eq ['f']
  revert heq
  decide +kernel

end DunitOS.DunitFs
