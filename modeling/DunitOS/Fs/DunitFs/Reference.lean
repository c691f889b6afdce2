import DunitOS.Fs.DunitFs.Contents
import DunitOS.Fs.DunitFs.Remount

/-!
# Files as plain arrays of bytes

The reference for the contents of one file is an array of bytes with positions in it
(`RefFile`): a write stores its bytes at its position, a write beyond the end
and a growing `ftruncate_handle` fill up with zeros, and a shrinking `ftruncate_handle` keeps
the front.

On a device without faults the calls that succeed on one file return what the reference
returns (`run_refines`), as long as no write starts beyond the end of the file.
Such a write does not fill up with zeros: what lies between is what was in the blocks before.
-/

namespace DunitOS.DunitFs

open SysLib Prog Vfs List Option Set Ends Reply

/-! ### The reference -/

/-- An open file of the reference: a position, and how it was opened. -/
structure RefHandle where
  offset : ℕ
  flags : OpenFlags
  deriving DecidableEq

/-- **A file as an array of bytes**, if it exists, with its open handles and the number of the
next one. -/
structure RefFile where
  bytes : Option (List UInt8)
  handles : List (ℕ × RefHandle)
  nextHandle : ℕ

namespace RefFile

abbrev moveHandle (handle offset : ℕ) : List (ℕ × RefHandle) → List (ℕ × RefHandle) :=
  modifyHandle handle fun h => { h with offset }

/-- What a successful call on the file returns, and the file after it. -/
def step (r : RefFile) : Call → Option (Reply × RefFile)
  | .open_ _ flags => do
    let old ← r.bytes <|> if flags.create then some [] else none
    let bytes := if flags.trunc then [] else old
    let offset := if flags.append then bytes.length else 0
    some (.number r.nextHandle,
      { bytes := some bytes
        handles := r.handles ++ [(r.nextHandle, ⟨offset, flags⟩)]
        nextHandle := (r.nextHandle + 1) % 2 ^ 64 })
  | .read handle len => do
    let bytes ← r.bytes
    let h ← r.handles.lookup handle
    let data := slice bytes h.offset len
    some (.bytes data,
      { r with handles := moveHandle handle (h.offset + data.length) r.handles })
  | .write handle input => do
    let bytes ← r.bytes
    let h ← r.handles.lookup handle
    let offset := if h.flags.append then bytes.length else h.offset
    some (.number input.length,
      { r with
        bytes := some (overwrite bytes offset input)
        handles := moveHandle handle (offset + input.length) r.handles })
  | .seek handle offset whence => do
    let bytes ← r.bytes
    let h ← r.handles.lookup handle
    let base ← seekBase h.offset bytes.length whence
    some (.number (base + offset).toNat,
      { r with handles := moveHandle handle (base + offset).toNat r.handles })
  | .ftruncate handle len => do
    let bytes ← r.bytes
    let _ ← r.handles.lookup handle
    some (.unit, { r with bytes := some (resize bytes len) })
  | .truncate _ => do
    let _ ← r.bytes
    some (.unit, { r with bytes := some [] })
  | .fsync handle => do
    let _ ← r.handles.lookup handle
    some (.unit, r)
  | .close handle => do
    let _ ← r.handles.lookup handle
    some (.unit, { r with handles := r.handles.eraseP fun h => decide (h.1 = handle) })
  | _ => none

/-- The replies to a sequence of successful calls. -/
def run (r : RefFile) : List Call → Option (List Reply × RefFile)
  | [] => some ([], r)
  | c :: cs => (r.step c).bind fun s => (run s.2 cs).map fun t => (s.1 :: t.1, t.2)

end RefFile

/-! ### The file that the file system shows -/

def fileHandles (i : Fin maxNodes) : List (ℕ × OpenHandle) → List (ℕ × RefHandle)
  | [] => []
  | (k, x) :: hs =>
    if x.node = i then (k, ⟨x.offset, x.flags⟩) :: fileHandles i hs else fileHandles i hs

/-- **The file at a path**, as an array of bytes. -/
def refOf (path : Path) (w : World) : RefFile :=
  match nodeIndex w.fs path with
  | none => ⟨none, [], w.fs.nextHandle⟩
  | some i => ⟨(w.fs.nodes i).map (contents w), fileHandles i w.fs.handles, w.fs.nextHandle⟩

section

variable {handle : ℕ} {x : OpenHandle} {hs : List (ℕ × OpenHandle)}

theorem fileHandles_append (i : Fin maxNodes) (hs hs' : List (ℕ × OpenHandle)) :
    fileHandles i (hs ++ hs') = fileHandles i hs ++ fileHandles i hs' := by
  induction hs with
  | nil => rfl
  | cons _ _ ih =>
    rw [cons_append, fileHandles, fileHandles, ih]
    split_ifs
    · rfl
    · rfl

theorem fileHandles_eq_nil {i : Fin maxNodes} (h : ∀ y ∈ hs, y.2.node ≠ i) :
    fileHandles i hs = [] := by
  induction hs with
  | nil => rfl
  | cons y _ ih =>
    rw [fileHandles, if_neg (h y mem_cons_self)]
    exact ih fun z hz => h z (mem_cons_of_mem _ hz)

/-- The first handle with a number, and the rest of the handles after it. -/
theorem lookup_cases {k : ℕ} {y : OpenHandle} (hx : ((k, y) :: hs).lookup handle = some x) :
    (k = handle ∧ y = x) ∨ (k ≠ handle ∧ hs.lookup handle = some x) := by
  rw [lookup_cons] at hx
  rcases hk : handle == k with _ | _
  · rw [hk] at hx
    exact Or.inr ⟨fun hc => by simp [hc] at hk, hx⟩
  · rw [hk] at hx
    exact Or.inl ⟨(eq_of_beq hk).symm, some.inj hx⟩

variable (hx : hs.lookup handle = some x)
include hx

/-- The handle that a number names is among those of its node. -/
theorem lookup_fileHandles : (fileHandles x.node hs).lookup handle = some ⟨x.offset, x.flags⟩ := by
  induction hs with
  | nil => cases hx
  | cons _ _ ih =>
    rw [fileHandles]
    rcases lookup_cases hx with ⟨rfl, rfl⟩ | ⟨hk, hx'⟩
    · rw [if_pos rfl, lookup_cons_self]
    · split_ifs
      · rw [lookup_cons, beq_false_of_ne hk.symm]
        exact ih hx'
      · exact ih hx'

open RefFile

theorem fileHandles_setOffset (offset : ℕ) : fileHandles x.node (setOffset handle offset hs) =
    moveHandle handle offset (fileHandles x.node hs) := by
  induction hs with
  | nil => rfl
  | cons _ _ ih =>
    rw [setOffset, modifyHandle, fileHandles]
    rcases lookup_cases hx with ⟨rfl, rfl⟩ | ⟨hk, hx'⟩
    · rw [if_pos rfl, if_pos rfl, fileHandles, if_pos rfl, moveHandle, modifyHandle, if_pos rfl]
    · rw [if_neg hk, fileHandles, ih hx']
      split_ifs
      · rw [moveHandle, modifyHandle, if_neg hk]
      · rfl

theorem fileHandles_eraseP : fileHandles x.node (hs.eraseP fun h => decide (h.1 = handle)) =
    (fileHandles x.node hs).eraseP fun h => decide (h.1 = handle) := by
  induction hs with
  | nil => rfl
  | cons _ _ ih =>
    rw [fileHandles]
    rcases lookup_cases hx with ⟨rfl, rfl⟩ | ⟨hk, hx'⟩
    · rw [if_pos rfl, eraseP_cons_of_pos (by simp), eraseP_cons_of_pos (by simp)]
    · rw [eraseP_cons_of_neg (by simpa using hk), fileHandles, ih hx']
      split_ifs
      · rw [eraseP_cons_of_neg (by simpa using hk)]
      · rfl

end

variable {p : Partition} {P : Path → Prop} {w t : World} {i : Fin maxNodes} {n : Node}
  {path : Path} {handle : ℕ} {x : OpenHandle}

theorem refOf_eq (hi : nodeIndex w.fs path = some i) (hn : w.fs.nodes i = some n) :
    refOf path w = ⟨some (contents w n), fileHandles i w.fs.handles, w.fs.nextHandle⟩ := by
  simp only [refOf, hi, hn, map_some]

theorem refOf_none (hi : nodeIndex w.fs path = none) :
    refOf path w = ⟨none, [], w.fs.nextHandle⟩ := by
  simp only [refOf, hi]

/-- A change of the handles, as the reference sees it. -/
theorem refOf_setHandles (hi : nodeIndex w.fs path = some i) (handles : List (ℕ × OpenHandle))
    (nextHandle : ℕ) : refOf path { w with fs := { w.fs with handles, nextHandle } } =
      { refOf path w with handles := fileHandles i handles, nextHandle } := by
  have hi' : nodeIndex { w.fs with handles, nextHandle } path = some i := hi
  simp only [refOf, hi, hi']
  rfl

/-- Moving a handle of the file. -/
theorem refOf_setOffset (hx : findHandle w.fs handle = some x)
    (hi : nodeIndex w.fs path = some x.node) (offset : ℕ) :
    refOf path { w with fs := { w.fs with handles := setOffset handle offset w.fs.handles } } =
      { refOf path w with
        handles := RefFile.moveHandle handle offset (fileHandles x.node w.fs.handles) } := by
  rw [refOf_setHandles hi, fileHandles_setOffset hx]
  simp only [refOf, hi]

/-- A change of the bytes of a file leaves every node under its path. -/
theorem Wrote.nodeIndex_eq {bytes : List UInt8} (h : Wrote i n bytes w t)
    (hn : w.fs.nodes i = some n) (path : Path) : nodeIndex t.fs path = nodeIndex w.fs path := by
  obtain ⟨n', hc, hpath, -, -⟩ := h
  have hpaths : ∀ j, (t.fs.nodes j).map Node.path = (w.fs.nodes j).map Node.path := by
    intro j
    rw [hc.nodes_eq]
    rcases eq_or_ne j i with rfl | hj
    · rw [Function.update_self, hn, map_some, map_some, hpath]
    · rw [Function.update_of_ne hj]
  simp only [nodeIndex, hpaths]

/-- **A change of the bytes of a file**, as the reference sees it. -/
theorem Wrote.refOf_eq {bytes : List UInt8} (h : Wrote i n bytes w t) (hn : w.fs.nodes i = some n)
    (hi : nodeIndex w.fs path = some i) :
    refOf path t = { refOf path w with bytes := some bytes } := by
  have hi' := (h.nodeIndex_eq hn path).trans hi
  obtain ⟨n', hc, -, -, hbytes⟩ := h
  rw [DunitFs.refOf_eq hi' hc.node, DunitFs.refOf_eq hi hn, hbytes, hc.handles_eq, hc.nextHandle_eq]

/-! ### Every call on the file is a step of the reference -/

/-- A call that returns does what the reference does. -/
def Refines (path : Path) (w : World) (c : Call) {α : Type} (f : α → Reply) (m : FsM α) : Prop :=
  Ends (fun a t => (refOf path w).step c = some (f a, refOf path t)) (fun _ _ => True) (m w)

section

variable (h : Inv (some p) P ∅ w) (hx : findHandle w.fs handle = some x)
  (hi : nodeIndex w.fs path = some x.node)
include h hx hi

theorem read_refines (len : ℕ) :
    Refines path w (.read handle len) bytes (read handle len) := by
  obtain ⟨n, hn, -⟩ := h.fileAt_of_findHandle hx
  have hback := h.sound.consistent.backed _ n hn (notMem_empty _)
  refine ends_getFs ?_
  rw [hx]
  refine ite (fun _ => trivial) fun _ => ?_
  rw [bind_ok (readNode_run h hn hback _ _)]
  refine ends_update ?_
  show _ = some (_, refOf path { w with fs := { w.fs with handles := _ } })
  rw [refOf_setOffset hx hi, refOf_eq hi hn]
  simp only [RefFile.step, bind_eq_bind, bind_some, lookup_fileHandles hx]

theorem write_refines (input : List UInt8)
    (hwithin : ∀ n, w.fs.nodes x.node = some n → x.flags.append = true ∨ x.offset ≤ n.size) :
    Refines path w (.write handle input) number (write handle input) := by
  obtain ⟨n, hn, hfile⟩ := h.fileAt_of_findHandle hx
  have hback := h.sound.consistent.backed _ n hn (notMem_empty _)
  have hoffset : writeOffset x w = (.ok (if x.flags.append then n.size else x.offset), w) := by
    unfold writeOffset
    split_ifs
    · show (unwrap (w.fs.nodes x.node) >>= _) w = _
      rw [hn]
      rfl
    · rfl
  refine ends_getFs ?_
  rw [hx]
  refine ite (fun _ => trivial) fun _ => ?_
  rw [bind_ok hoffset]
  have hle : (if x.flags.append then n.size else x.offset) ≤ n.size := by
    split_ifs with happ
    · exact le_rfl
    · exact (hwithin n hn).resolve_left happ
  refine (writeNode_wrote h h.readable (notMem_empty _) hn hfile hle input).bind ?_
    fun _ _ _ => trivial
  rintro k t ⟨rfl, hwrote⟩
  refine ends_update ?_
  -- the handle is as it was, on the same node
  have hx' : findHandle t.fs handle = some x := by
    obtain ⟨n', hc, -⟩ := hwrote
    rw [findHandle, hc.handles_eq]
    exact hx
  have hi' := (hwrote.nodeIndex_eq hn path).trans hi
  show _ = some (_, refOf path { t with fs := { t.fs with handles := _ } })
  rw [refOf_setOffset hx' hi', hwrote.refOf_eq hn hi, refOf_eq hi hn]
  simp only [RefFile.step, bind_eq_bind, bind_some, lookup_fileHandles hx,
    length_contents w hback]
  obtain ⟨n', hc, -⟩ := hwrote
  rw [hc.handles_eq]

theorem seek_refines (offset : ℤ) (whence : ℕ) :
    Refines path w (.seek handle offset whence) number (seek handle offset whence) := by
  obtain ⟨n, hn, -⟩ := h.fileAt_of_findHandle hx
  have hback := h.sound.consistent.backed _ n hn (notMem_empty _)
  refine ends_getFs (ends_okOr (fun _ => trivial) fun y hy => ?_)
  refine ends_okOr (fun _ => trivial) fun m hm => ends_okOr (fun _ => trivial) fun base hbase =>
    ite (fun _ => trivial) fun _ => ?_
  rw [hx] at hy
  cases hy
  rw [hn] at hm
  cases hm
  refine ends_update ?_
  show _ = some (_, refOf path { w with fs := { w.fs with handles := _ } })
  rw [refOf_setOffset hx hi, refOf_eq hi hn]
  simp only [RefFile.step, bind_eq_bind, bind_some, lookup_fileHandles hx,
    length_contents w hback, hbase]

theorem ftruncateHandle_refines (len : ℕ) :
    Refines path w (.ftruncate handle len) (fun _ => unit) (ftruncateHandle handle len) := by
  obtain ⟨n, hn, -⟩ := h.fileAt_of_findHandle hx
  refine (ftruncateHandle_wrote h hx hn (notMem_empty _)).imp (fun _ t ht => ?_)
    fun _ _ _ => trivial
  rw [ht.refOf_eq hn hi, refOf_eq hi hn]
  simp only [RefFile.step, bind_eq_bind, bind_some, lookup_fileHandles hx]

theorem fsync_refines : Refines path w (.fsync handle) (fun _ => unit) (fsync handle) := by
  obtain ⟨n, hn, -⟩ := h.fileAt_of_findHandle hx
  refine ends_getFs ?_
  rw [hx]
  refine (commit_wrote h hn).imp (fun _ t ht => ?_) fun _ _ _ => trivial
  rw [ht.refOf_eq hn hi, refOf_eq hi hn]
  simp only [RefFile.step, bind_eq_bind, bind_some, lookup_fileHandles hx]

theorem close_refines : Refines path w (.close handle) (fun _ => unit) (close handle) := by
  obtain ⟨n, hn, -⟩ := h.fileAt_of_findHandle hx
  refine ends_getFs (ends_okOr (fun _ => trivial) fun _ _ => ends_update ?_)
  have hinv : Inv (some p) P ∅ { w with fs := { w.fs with
      handles := w.fs.handles.eraseP fun h => decide (h.1 = handle) } } :=
    h.setHandles fun y hy => h.sound.handles y (mem_of_mem_eraseP hy)
  refine (commit_wrote hinv hn).imp (fun _ t ht => ?_) fun _ _ _ => trivial
  have hclosed := refOf_setHandles hi (w.fs.handles.eraseP fun h => decide (h.1 = handle))
    w.fs.nextHandle
  rw [fileHandles_eraseP hx] at hclosed
  rw [ht.refOf_eq hn hi, hclosed, refOf_eq hi hn]
  simp only [RefFile.step, bind_eq_bind, bind_some, lookup_fileHandles hx]
  rfl

end

/-- A path is looked up by what is left when it is cleaned. -/
theorem nodeIndex_clean {q : Path} (hq : clean q = clean path) (fs : DunitFs) :
    nodeIndex fs (clean q) = nodeIndex fs path := by
  unfold nodeIndex
  rw [clean_clean, hq]

theorem truncate_refines (h : Inv (some p) P ∅ w) {q : Path} (hq : clean q = clean path) :
    Refines path w (.truncate q) (fun _ => unit) (truncate q) := by
  rcases hi : nodeIndex w.fs (clean q) with _ | i
  · -- there is no file
    refine ends_ensureWritable trivial fun _ => ends_getFs ?_
    rw [hi]
    trivial
  · obtain ⟨n, hn, -⟩ := nodeIndex_some hi
    refine (truncate_wrote h hi hn).imp (fun _ t ht => ?_) fun _ _ _ => trivial
    rw [nodeIndex_clean hq] at hi
    rw [ht.refOf_eq hn hi, refOf_eq hi hn]
    simp only [RefFile.step, bind_eq_bind, bind_some]

/-- **Finding or making the file to open.** -/
theorem openIndex_refines (h : Intact p ∅ w) {q : Path}
    (hq : clean q = clean path) {flags : OpenFlags} :
    Ends (fun i t => Intact p ∅ t ∧ nodeIndex t.fs path = some i ∧
        ∃ n, t.fs.nodes i = some n ∧
          ((refOf path w).bytes <|> if flags.create then some [] else none) = some (contents t n) ∧
          fileHandles i t.fs.handles = (refOf path w).handles ∧
          t.fs.nextHandle = (refOf path w).nextHandle)
      (fun _ _ => True) (openIndex (clean q) flags w) := by
  rcases hi : nodeIndex w.fs (clean q) with _ | i
  · rw [openIndex_none hi]
    refine ite (fun _ => trivial) fun hcreate => ?_
    refine ((createNode_safe lasts_true (fun _ => rfl) (by simp) trivial ⟨h, trivial⟩
      fun _ _ => mem_univ _).and (create_new h.sound.fits (clean q))).bind ?_ fun _ _ _ => trivial
    rintro - t ⟨⟨ht, -⟩, i, n, hfree, hc, -, hbytes⟩
    refine ends_getFs ?_
    rcases hj : nodeIndex t.fs (clean q) with _ | j
    · trivial
    -- the node found is the new one, for there was none of this path before
    obtain rfl : j = i := by
      by_contra hne
      obtain ⟨m, hm, hmpath⟩ := nodeIndex_some hj
      rw [hc.nodes_eq, Function.update_of_ne hne] at hm
      exact nodeIndex_none hi j hm hmpath
    rw [nodeIndex_clean hq] at hi hj
    refine ⟨ht, hj, n, hc.node, ?_, ?_, ?_⟩
    · rw [refOf_none hi, hbytes, if_pos (by simpa using hcreate)]
      rfl
    · rw [refOf_none hi, hc.handles_eq]
      refine fileHandles_eq_nil fun y hy hnode => ?_
      obtain ⟨m, hm, -⟩ := h.sound.handles y hy
      rw [hnode, hfree] at hm
      cases hm
    · rw [refOf_none hi, hc.nextHandle_eq]
  · rw [openIndex_some hi]
    obtain ⟨n, hn, -⟩ := nodeIndex_some hi
    rw [nodeIndex_clean hq] at hi
    exact ⟨h, hi, n, hn, by rw [refOf_eq hi hn]; rfl, by rw [refOf_eq hi hn],
      by rw [refOf_eq hi hn]⟩

theorem open_refines (h : Intact p ∅ w) {q : Path}
    (hq : clean q = clean path) {flags : OpenFlags} :
    Refines path w (.open_ q flags) number (open_ q flags) := by
  refine ite (fun _ => trivial) fun _ => ends_getFs (ite (fun _ => trivial) fun _ => ?_)
  refine (openIndex_refines h hq).bind ?_ fun _ _ _ => trivial
  rintro i t ⟨ht, hi, n, hn, hold, hhandles, hnext⟩
  refine ends_getFs (ends_unwrap hn (ite (fun _ => trivial) fun _ => ?_))
  -- the file is emptied if the flags ask for it
  have htrunc : Ends (fun _ u => Intact p ∅ u ∧
      Wrote i n (if flags.trunc then [] else contents t n) t u) (fun _ _ => True)
      (when flags.trunc (truncate (clean q)) t) := by
    have hi' : nodeIndex t.fs (clean (clean q)) = some i := by
      rw [clean_clean, nodeIndex_clean hq, hi]
    refine when (fun hc => ?_) fun hc => ?_
    · rw [if_pos hc]
      exact ((truncate_safe lasts_true (fun _ => rfl) ⟨ht, trivial⟩ fun _ _ => mem_univ _).and
        (truncate_wrote ht hi' hn)).imp (fun _ _ hu => ⟨hu.1.1.1, hu.2⟩) fun _ _ _ => trivial
    · rw [if_neg (by simp [hc])]
      exact ⟨ht, Wrote.refl hn⟩
  refine htrunc.bind ?_ fun _ _ _ => trivial
  rintro - u ⟨hu, hwrote⟩
  have href := hwrote.refOf_eq hn hi
  have hi' := (hwrote.nodeIndex_eq hn path).trans hi
  obtain ⟨n', hc, -, -, hbytes⟩ := hwrote
  have hlen := length_contents u (hu.sound.consistent.backed i n' hc.node (notMem_empty i))
  have hoffset : startOffset i flags u = (.ok (if flags.append then n'.size else 0), u) := by
    show (if flags.append = false then pure 0 else do
      let node ← unwrap (u.fs.nodes i)
      pure node.size : FsM ℕ) u = _
    rw [hc.node]
    rcases flags.append with _ | _
    · rfl
    · rfl
  rw [bind_ok hoffset]
  refine ends_getFs (ends_update ?_)
  have hopened := refOf_setHandles hi' (u.fs.handles ++ [(u.fs.nextHandle,
    ⟨i, if flags.append then n'.size else 0, flags⟩)]) ((u.fs.nextHandle + 1) % 2 ^ 64)
  show _ = some (_, refOf path { u with fs := { u.fs with handles := _, nextHandle := _ } })
  rw [hopened, href, fileHandles_append, hc.handles_eq, hc.nextHandle_eq, hhandles, hnext,
    RefFile.step, hold]
  simp only [bind_eq_bind, bind_some, fileHandles, if_true, ← hbytes, hlen]

/-! ### Runs -/

/-- Whether a handle is open on the file at a path. -/
def onFile (path : Path) (w : World) (handle : ℕ) : Bool :=
  (findHandle w.fs handle).any fun x => decide (nodeIndex w.fs path = some x.node)

theorem onFile_iff : onFile path w handle = true ↔
    ∃ x, findHandle w.fs handle = some x ∧ nodeIndex w.fs path = some x.node := by
  simp [onFile, Option.any_eq_true]

namespace Call

/-- Whether a call is one on the file at a path. -/
def on (path : Path) (w : World) : Call → Bool
  | open_ q _ | truncate q => decide (clean q = clean path)
  | read handle _ | write handle _ | seek handle _ _ | ftruncate handle _ | fsync handle
  | close handle => onFile path w handle
  | _ => false

/-- **No write beyond the end of the file.** -/
def within (w : World) : Call → Bool
  | write handle _ =>
    match findHandle w.fs handle with
    | none => true
    | some x =>
      match w.fs.nodes x.node with
      | none => true
      | some n => x.flags.append || decide (x.offset ≤ n.size)
  | _ => true

/-- **Every call on the file is a step of the reference.** -/
theorem exec_refines (h : Intact p ∅ w) {c : Call} (hon : c.on path w = true)
    (hwithin : c.within w = true) : Refines path w c id c.exec := by
  have hreply : ∀ {α : Type} {f : α → Reply} {m : FsM α}, Refines path w c f m →
      Refines path w c id (m >>= fun a => pure (f a)) := fun hm =>
    bind hm (fun _ _ ht => ht) fun _ _ _ => trivial
  cases c with
  | open_ _ flags => exact hreply (open_refines h (of_decide_eq_true hon))
  | truncate => exact hreply (truncate_refines h (of_decide_eq_true hon))
  | read _ len =>
    obtain ⟨x, hx, hi⟩ := onFile_iff.mp hon
    exact hreply (read_refines h hx hi len)
  | write _ input =>
    obtain ⟨x, hx, hi⟩ := onFile_iff.mp hon
    refine hreply (write_refines h hx hi input fun n hn => ?_)
    simpa only [within, hx, hn, Bool.or_eq_true, decide_eq_true_eq] using hwithin
  | seek _ offset whence =>
    obtain ⟨x, hx, hi⟩ := onFile_iff.mp hon
    exact hreply (seek_refines h hx hi offset whence)
  | ftruncate _ len =>
    obtain ⟨x, hx, hi⟩ := onFile_iff.mp hon
    exact hreply (ftruncateHandle_refines h hx hi len)
  | fsync =>
    obtain ⟨x, hx, hi⟩ := onFile_iff.mp hon
    exact hreply (fsync_refines h hx hi)
  | close =>
    obtain ⟨x, hx, hi⟩ := onFile_iff.mp hon
    exact hreply (close_refines h hx hi)
  | create q | mkdir q | rename old new | remove q => cases hon

/-- A call on the file that succeeds is guarded. -/
theorem guarded_of_ok {c : Call} (hon : c.on path w = true) {reply : Reply}
    (hrun : c.exec w = (.ok reply, t)) : c.Guarded w := by
  refine ⟨?_, ?_⟩
  · cases c <;> trivial
  · cases c with
    | ftruncate handle len =>
      obtain ⟨_, u, hu, _⟩ := Prog.bind_eq_ok hrun
      exact truncateOk_of_ftruncateHandle.of_ok hu
    | _ => trivial

end Call

/-- The replies to a sequence of calls that all succeed. -/
def runReplies : World → List Call → Option (List Reply × World)
  | w, [] => some ([], w)
  | w, c :: cs =>
    match c.exec w with
    | (.ok reply, t) => (runReplies t cs).map fun s => (reply :: s.1, s.2)
    | (.error _, _) => none

/-- **The run lemma**: successful calls on one file return what the reference returns. -/
theorem Inv.runReplies (h : Intact p ∅ w) {cs : List Call}
    (hcs : EveryCall (fun w c => c.on path w = true ∧ c.within w = true) w cs)
    {replies : List Reply} (hrun : DunitFs.runReplies w cs = some (replies, t)) :
    (refOf path w).run cs = some (replies, refOf path t) := by
  induction cs generalizing w replies with
  | nil =>
    cases hrun
    rfl
  | cons c _ ih =>
    obtain ⟨⟨hon, hwithin⟩, hcs⟩ := hcs
    rw [DunitFs.runReplies] at hrun
    rcases hc : c.exec w with ⟨e | reply, u⟩
    · rw [hc] at hrun
      cases hrun
    · rw [hc] at hrun hcs
      obtain ⟨s, hs, hst⟩ := map_eq_some_iff.mp hrun
      cases hst
      have hstep := (Call.exec_refines h hon hwithin).of_ok hc
      have hu : Intact p ∅ u := by
        have := h.exec (Call.guarded_of_ok hon hc)
        rwa [hc] at this
      rw [RefFile.run, hstep, bind_some, ih hu hcs hs]
      rfl

/-- **The contents of a file refine an array of bytes.** On a device without faults that holds
anything whatever, after any run of guarded calls from a formatted partition, a sequence of
calls on one file that all succeed returns what the reference returns, as long as no write
starts beyond the end of the file. -/
theorem run_refines {d : Device} {s : DunitFs × Device} (hboot : boot p d = .ok s)
    (hd : d.Reliable) (hread : ∀ b < p.blocks, d.bad (p.start + b) = false)
    (clock : ℕ → UInt64) (before : List Call)
    (hbefore : EveryCall Call.Guarded ⟨s.1, s.2, clock⟩ before) (path : Path) (cs : List Call)
    (hcs : EveryCall (fun w c => c.on path w = true ∧ c.within w = true)
      (runCalls ⟨s.1, s.2, clock⟩ before) cs) (replies : List Reply)
    (hrun : runReplies (runCalls ⟨s.1, s.2, clock⟩ before) cs = some (replies, t)) :
    (refOf path (runCalls ⟨s.1, s.2, clock⟩ before)).run cs = some (replies, refOf path t) := by
  have hgeom := (boot_eq_ok hboot).1
  have hinv := run_keeps (fun _ _ h hc => h.exec hc)
    (inv_boot_reliable hgeom hd hread hboot clock) hbefore
  exact hinv.runReplies hcs hrun

/-- A device full of ones. -/
def dirtyDevice : Device :=
  ⟨fun _ => Block.ofBytes blockSize (List.replicate blockSize 1), fun _ => false, []⟩

/-- A partition of that device, formatted and mounted. -/
def dirtyWorld : World :=
  ⟨emptyFs smallPartition, Disk.storeAll (formatWrites smallPartition smallGeometry) dirtyDevice,
    fun _ => 0⟩

theorem boot_dirty : boot smallPartition dirtyDevice = .ok (dirtyWorld.fs, dirtyWorld.disk) := by
  have hd : dirtyDevice.Reliable := rfl
  exact boot_reliable validate_small hd fun _ _ => rfl

/-- A file is written, shrunk and grown, appended to through a second handle, and read. -/
def wholeFile : List Call :=
  [.open_ ['f'] ⟨7⟩, .write 1 [1, 2, 3], .ftruncate 1 2, .ftruncate 1 4, .open_ ['f'] ⟨18⟩,
    .write 2 [5], .seek 1 0 0, .read 1 10, .close 1]

theorem run_refines_wholeFile :
    ∃ t, runReplies (runCalls dirtyWorld [.mkdir ['d']]) wholeFile =
        some ([.number 1, .number 3, .unit, .unit, .number 2, .number 1, .number 0,
          .bytes [1, 2, 0, 0, 5], .unit], t) ∧
      (refOf ['f'] (runCalls dirtyWorld [.mkdir ['d']])).run wholeFile =
        some ([.number 1, .number 3, .unit, .unit, .number 2, .number 1, .number 0,
          .bytes [1, 2, 0, 0, 5], .unit], refOf ['f'] t) := by
  obtain ⟨hcs, hreplies⟩ : EveryCall (fun w c => c.on ['f'] w = true ∧ c.within w = true)
        (runCalls dirtyWorld [.mkdir ['d']]) wholeFile ∧
      (runReplies (runCalls dirtyWorld [.mkdir ['d']]) wholeFile).map Prod.fst =
        some [.number 1, .number 3, .unit, .unit, .number 2, .number 1, .number 0,
          .bytes [1, 2, 0, 0, 5], .unit] := by decide +kernel
  obtain ⟨⟨replies, t⟩, hrun, rfl⟩ := map_eq_some_iff.mp hreplies
  exact ⟨t, hrun, run_refines boot_dirty rfl (fun _ _ => rfl) dirtyWorld.clock [.mkdir ['d']]
    ⟨⟨trivial, trivial⟩, trivial⟩ ['f'] wholeFile hcs _ hrun⟩

/-- A byte is written beyond the end of an empty file, and the file is read. -/
def gapCalls : List Call :=
  [.open_ ['f'] ⟨7⟩, .seek 1 2 0, .write 1 [7], .seek 1 0 0, .read 1 3]

/-- **The condition cannot be dropped**: after a write beyond the end, the file holds what was
in its blocks before, where the reference has zeros. -/
theorem run_not_refines :
    boot smallPartition dirtyDevice = .ok (dirtyWorld.fs, dirtyWorld.disk) ∧
      EveryCall (fun w c => c.on ['f'] w = true) dirtyWorld gapCalls ∧
      (runReplies dirtyWorld gapCalls).map Prod.fst =
        some [.number 1, .number 2, .number 1, .number 0, .bytes [1, 1, 7]] ∧
      ((refOf ['f'] dirtyWorld).run gapCalls).map Prod.fst =
        some [.number 1, .number 2, .number 1, .number 0, .bytes [0, 0, 7]] := by
  refine ⟨boot_dirty, ?_⟩
  decide +kernel

end DunitOS.DunitFs
