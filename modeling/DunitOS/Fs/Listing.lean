import DunitOS.Fs.DunitFs.Failed
import DunitOS.Fs.MemFs.Static
import DunitOS.Fs.Paths

/-!
# Directory listings

A listing has one entry for each direct child of a directory, with the type of the child and the
first 64 bytes of its name. It is *usable* if every name in it leads back to an entry of that type,
and no name comes twice. `Vfs.usable_iff` says what that takes, for any file system whose
look-up finds just the direct children: no two of them have one name, and none has a name of more
than 64 bytes. Both file systems accept longer names.
-/

namespace DunitOS

open SysLib List Option MemFs DunitFs Prod

variable {c : List Char} {p : Vfs.Path}

namespace Vfs

variable {c : List Char} {d : Path}

/-! ### Names and entries -/

/-- A name in a directory: not empty and without a slash. -/
def IsName (c : List Char) : Prop := c ≠ [] ∧ '/' ∉ c

instance (c : List Char) : Decidable (IsName c) := inferInstanceAs (Decidable (_ ∧ _))

/-- `DirEntry::name`: the bytes of the name as a text, if they are one. -/
def DirEntry.text (e : DirEntry) : List Char := (fromUtf8 e.name).getD "<invalid>".toList

open DirEntry

theorem DirEntry.text_new (h : byteLen c ≤ 64) (t : FileType) : (new c t).text = c := by
  rw [text, new, take_of_length_le h, fromUtf8_utf8]
  rfl

/-- The text of an entry has a length that fits. -/
theorem DirEntry.byteLen_text_le (c : List Char) (t : FileType) :
    byteLen (new c t).text ≤ 64 := by
  rw [text]
  rcases h : fromUtf8 (new c t).name with _ | s
  · show byteLen "<invalid>".toList ≤ 64
    decide
  · show (utf8 s).length ≤ 64
    rw [utf8_of_fromUtf8 h]
    exact length_take_le 64 _

/-- The text of an entry is a name, if what it was made from is one. -/
theorem DirEntry.isName_text (h : IsName c) {t : FileType} : IsName (new c t).text := by
  rw [text]
  rcases hs : fromUtf8 (new c t).name with _ | s
  · show IsName "<invalid>".toList
    decide
  · have hbytes := utf8_of_fromUtf8 hs
    refine ⟨fun hnil => ?_, fun hslash => h.2 (slash_mem_utf8.mp ?_)⟩
    · rw [getD_some] at hnil
      rw [hnil] at hbytes
      have hlen : (utf8 c).length ≠ 0 := fun h0 => h.1 (byteLen_eq_zero.mp h0)
      have htake : ((utf8 c).take 64).length = 0 := congrArg length hbytes.symm
      rw [length_take] at htake
      omega
    · have hmem := slash_mem_utf8.mpr hslash
      rw [getD_some, hbytes] at hmem
      exact mem_of_mem_take hmem

/-! ### Usable listings -/

/-- **A listing of a directory is usable**: what stands at the path of the directory with the name
of an entry behind it is of the type of the entry, and no two entries have one name. -/
structure Usable (typeAt : Path → Option FileType) (d : Path) (entries : List DirEntry) :
    Prop where
  found : ∀ e ∈ entries, typeAt (d ++ '/' :: e.text) = some e.fileType
  distinct : (entries.map DirEntry.text).Nodup

/-- The entries for a list of children. -/
def entriesFor (kids : List (List Char × FileType)) : List DirEntry :=
  kids.map fun k => DirEntry.new k.1 k.2

/-- **Children that can be listed**: no two have one name, and no name is cut. -/
def Listable (kids : List (List Char × FileType)) : Prop :=
  (kids.map Prod.fst).Nodup ∧ ∀ k ∈ kids, byteLen k.1 ≤ 64

instance (kids : List (List Char × FileType)) : Decidable (Listable kids) :=
  inferInstanceAs (Decidable (_ ∧ _))

theorem texts_entriesFor {kids : List (List Char × FileType)} (h : ∀ k ∈ kids, byteLen k.1 ≤ 64) :
    (entriesFor kids).map text = kids.map fst := by
  rw [entriesFor, List.map_map]
  exact map_congr_left fun k hk => text_new (h k hk) k.2

/-- **When a listing is usable**: exactly if the children have different names of at most 64 bytes.
A longer name is cut, and what it is cut to is either no child, or a child with an entry of its
own. -/
theorem usable_iff {typeAt : Path → Option FileType} {kids : List (List Char × FileType)}
    (hnames : ∀ k ∈ kids, IsName k.1)
    (hkids : ∀ k ∈ kids, (typeAt (d ++ '/' :: k.1)).isSome = true)
    (hall : ∀ c t, IsName c → typeAt (d ++ '/' :: c) = some t → (c, t) ∈ kids) :
    Usable typeAt d (entriesFor kids) ↔ Listable kids := by
  constructor
  · intro h
    have hshort : ∀ k ∈ kids, byteLen k.1 ≤ 64 := by
      intro k hk
      by_contra hlong
      -- the name that is listed for it is that of another child
      have hentry : new k.1 k.2 ∈ entriesFor kids := mem_map_of_mem hk
      have hmem := hall _ k.2 (isName_text (hnames k hk)) (h.found _ hentry)
      have hle := byteLen_text_le k.1 k.2
      have hdistinct := h.distinct
      rw [entriesFor, List.map_map] at hdistinct
      have heq := inj_on_of_nodup_map hdistinct hmem hk (text_new hle k.2)
      exact hlong (by rw [← heq]; exact hle)
    refine ⟨?_, hshort⟩
    rw [← texts_entriesFor hshort]
    exact h.distinct
  · rintro ⟨hnodup, hshort⟩
    refine ⟨fun e he => ?_, by rwa [texts_entriesFor hshort]⟩
    obtain ⟨k, hk, rfl⟩ := mem_map.mp he
    rw [text_new (hshort k hk)]
    obtain ⟨t, ht⟩ := isSome_iff_exists.mp (hkids k hk)
    have hsame : k = (k.1, t) := inj_on_of_nodup_map hnodup hk (hall k.1 t (hnames k hk) ht) rfl
    rw [ht]
    exact congrArg (fun k => some k.2) hsame.symm

/-! ### Direct children -/

/-- The path of a child of a directory, or of the root. -/
def childPath (d : Path) (c : List Char) : Path := if d = [] then c else d ++ '/' :: c

/-- The name of a path in a directory, if it is that of a direct child. -/
def nameIn (d p : Path) : Option (List Char) :=
  if IsName (basename p) ∧ p = childPath d (basename p) then some (basename p) else none

theorem basename_of_isName (h : '/' ∉ c) : basename (d ++ '/' :: c) = c := by
  rw [basename, rtakeWhile, reverse_append, reverse_cons, append_assoc, takeWhile_append_of_pos]
  · simp
  · intro a ha
    rw [bne_iff_ne]
    rintro rfl
    exact h (mem_reverse.mp ha)

theorem basename_of_not_mem (h : '/' ∉ c) : basename c = c := by
  rw [basename, rtakeWhile, takeWhile_eq_self_iff.mpr, reverse_reverse]
  intro a ha
  rw [bne_iff_ne]
  rintro rfl
  exact h (mem_reverse.mp ha)

theorem basename_childPath (h : IsName c) : basename (childPath d c) = c := by
  rw [childPath]
  split_ifs
  · exact basename_of_not_mem h.2
  · exact basename_of_isName h.2

theorem nameIn_eq_some_iff : nameIn d p = some c ↔ IsName c ∧ p = childPath d c := by
  rw [nameIn]
  constructor
  · intro h
    split_ifs at h with hp
    cases h
    exact hp
  · rintro ⟨hc, rfl⟩
    rw [basename_childPath hc, if_pos ⟨hc, rfl⟩]

theorem IsName.trimmed (h : IsName c) : Trimmed c := by
  refine ⟨h.1, fun hhead => h.2 ?_, fun hlast => h.2 (mem_of_getLast? hlast)⟩
  exact mem_of_mem_head? hhead

/-- A child of a directory without slashes at its ends has none either. -/
theorem trimmed_childPath (hd : d = [] ∨ Trimmed d) (hc : IsName c) : Trimmed (childPath d c) := by
  rw [childPath]
  rcases hd with rfl | hd
  · rw [if_pos rfl]
    exact hc.trimmed
  · rw [if_neg hd.1]
    refine ⟨by simp, ?_, ?_⟩
    · rw [head?_append_of_ne_nil _ hd.1]
      exact hd.2.1
    · rw [getLast?_append_of_ne_nil _ (cons_ne_nil _ _), getLast?_cons_of_ne_nil hc.1]
      exact hc.trimmed.2.2

/-- The path that is asked for, without the slashes at its ends. -/
theorem trimSlashes_child (hc : IsName c) :
    trimSlashes (trimSlashes d ++ '/' :: c) = childPath (trimSlashes d) c := by
  have htrim := trimmed_childPath (trimSlashes_eq_nil_or_trimmed d) hc
  by_cases hd : trimSlashes d = []
  · rw [hd, childPath, if_pos rfl]
    show trimSlashes ('/' :: c) = c
    rw [trimSlashes, dropWhile_cons_of_pos rfl]
    exact trimSlashes_of_trimmed hc.trimmed
  · rw [childPath, if_neg hd] at htrim ⊢
    exact trimSlashes_of_trimmed htrim

/-- Entries that are made for those of a list of nodes that are direct children. -/
theorem entries_eq_entriesFor {α : Type} {l : List α} {p : α → Bool} {path : α → Path}
    (h : ∀ a ∈ l, p a = true ↔ ∃ c, IsName c ∧ path a = childPath d c) {type : α → FileType} :
    (l.filter p).map (fun a => new (basename (path a)) (type a)) =
      entriesFor (l.filterMap fun a => (nameIn d (path a)).map fun c => (c, type a)) := by
  induction l with
  | nil => rfl
  | cons a l ih =>
    have ih := ih fun b hb => h b (mem_cons_of_mem a hb)
    by_cases hp : p a = true
    · obtain ⟨c, hc, hpath⟩ := (h a mem_cons_self).mp hp
      have hname : nameIn d (path a) = some (basename (path a)) := by
        rw [hpath, basename_childPath hc]
        exact nameIn_eq_some_iff.mpr ⟨hc, rfl⟩
      rw [filter_cons_of_pos hp, filterMap_cons_some (by rw [hname]; rfl), map_cons, ih]
      rfl
    · have hname : nameIn d (path a) = none := by
        rcases hn : nameIn d (path a) with _ | c
        · rfl
        · exact absurd ((h a mem_cons_self).mpr ⟨c, nameIn_eq_some_iff.mp hn⟩) hp
      rw [filter_cons_of_neg hp, filterMap_cons_none (by rw [hname]; rfl), ih]

end Vfs

/-! ### The disk -/

variable {t : FileType}

namespace DunitFs

open Vfs

variable {d : Path}

/-- What `stat` says of the type of a path. -/
def typeAt (w : World) (path : Path) : Option FileType :=
  (stat path w).1.toOption.map Prod.fst

/-- The direct children of a directory: the name and the type of each. -/
def kids (fs : DunitFs) (d : Path) : List (List Char × FileType) :=
  ((List.finRange maxNodes).filterMap fs.nodes).filterMap fun n =>
    (nameIn d n.path).map fun c => (c, n.fileType)

theorem mem_kids {fs : DunitFs} : (c, t) ∈ kids fs d ↔ IsName c ∧
      ∃ i n, fs.nodes i = some n ∧ n.path = childPath d c ∧ n.fileType = t := by
  simp only [kids, mem_filterMap, mem_finRange, true_and, Option.map_eq_some_iff,
    Prod.mk.injEq, nameIn_eq_some_iff]
  constructor
  · rintro ⟨n, ⟨i, hi⟩, c', ⟨hc, hp⟩, rfl, ht⟩
    exact ⟨hc, i, n, hi, hp, ht⟩
  · rintro ⟨hc, i, n, hi, hp, ht⟩
    exact ⟨n, ⟨i, hi⟩, c, ⟨hc, hp⟩, rfl, ht⟩

theorem isDirectChild_iff : isDirectChild d p = true ↔ ∃ c, IsName c ∧ p = childPath d c := by
  unfold isDirectChild childPath
  by_cases hd : d = []
  · simp only [hd, if_true, decide_eq_true_eq]
    exact ⟨fun h => ⟨p, h, rfl⟩, fun ⟨c, hc, hp⟩ => hp ▸ hc⟩
  simp only [hd, if_false]
  constructor
  · intro h
    rcases hsuffix : (d.isPrefixOf? p).bind ['/'].isPrefixOf? with _ | c
    · rw [hsuffix] at h
      cases h
    rw [hsuffix, decide_eq_true_eq] at h
    obtain ⟨s, hs, hc⟩ := bind_eq_some_iff.mp hsuffix
    rw [isPrefixOf?_eq_some_iff_append_eq] at hs hc
    exact ⟨c, h, by rw [← hs, ← hc]; rfl⟩
  · rintro ⟨c, hc, rfl⟩
    have hsuffix : (d.isPrefixOf? (d ++ '/' :: c)).bind ['/'].isPrefixOf? = some c := by
      rw [isPrefixOf?_eq_some_iff_append_eq.mpr rfl, bind_some, isPrefixOf?_eq_some_iff_append_eq]
      rfl
    rw [hsuffix]
    exact decide_eq_true hc

/-- The listing has one entry for each child: there is room for as many as there are nodes. -/
theorem listing_eq {fs : DunitFs} : listing fs d 64 = entriesFor (kids fs d) := by
  rw [kids, ← entries_eq_entriesFor (fun n _ => isDirectChild_iff), listing,
    take_of_length_le]
  rw [length_map]
  refine (length_filter_le _ _).trans ((length_filterMap_le _ _).trans ?_)
  rw [length_finRange]

/-- What `stat` finds for a path that is not the root. -/
theorem typeAt_eq_some_iff {w : World} {path : Path} (hne : clean path ≠ []) :
    typeAt w path = some t ↔
      ∃ i n, nodeIndex w.fs (clean path) = some i ∧ w.fs.nodes i = some n ∧ n.fileType = t := by
  rw [typeAt, stat]
  simp only [if_neg hne]
  rw [getFs_bind_run]
  rcases hi : nodeIndex w.fs (clean path) with _ | i
  · constructor
    · intro h
      cases h
    · rintro ⟨i, n, h, -⟩
      cases h
  obtain ⟨n, hn, -⟩ := nodeIndex_some hi
  rw [okOr_some_bind, hn, unwrap_some_bind]
  constructor
  · intro h
    exact ⟨i, n, rfl, hn, some.inj h⟩
  · rintro ⟨i', n', hi', hn', ht⟩
    cases hi'
    obtain rfl := some.inj (hn.symm.trans hn')
    exact congrArg some ht

/-- **Listing what is a directory** gives one entry for each of its direct children. -/
theorem readdir_eq {w : World} (h : typeAt w d = some .directory) :
    readdir d w = (.ok (entriesFor (kids w.fs (clean d))), w) := by
  rw [← listing_eq, readdir, readdirInto]
  by_cases hd : clean d = []
  · simp only [hd, if_true]
    rfl
  obtain ⟨i, n, hi, hn, ht⟩ := (typeAt_eq_some_iff hd).mp h
  simp only [if_neg hd]
  rw [getFs_bind_run, hi, okOr_some_bind, hn, unwrap_some_bind, if_neg (not_not.mpr ht)]
  rfl

/-- **When the listing of a directory of the disk is usable.** -/
theorem usable_readdir_iff {w : World} :
    Usable (typeAt w) (clean d) (entriesFor (kids w.fs (clean d))) ↔
      Listable (kids w.fs (clean d)) := by
  have hclean : ∀ c, IsName c → clean (clean d ++ '/' :: c) = childPath (clean d) c :=
    fun c hc => trimSlashes_child hc
  have hne : ∀ c, IsName c → clean (clean d ++ '/' :: c) ≠ [] := by
    intro c hc
    rw [hclean c hc]
    exact (trimmed_childPath (trimSlashes_eq_nil_or_trimmed d) hc).1
  refine usable_iff (fun k hk => (mem_kids.mp hk).1) (fun k hk => ?_) fun c t hc ht => ?_
  · obtain ⟨hc, i, n, hn, hp, -⟩ := mem_kids.mp hk
    have hsome : (nodeIndex w.fs (clean (clean d ++ '/' :: k.1))).isSome = true :=
      isSome_nodeIndex hn (by rw [clean_clean, hclean _ hc, hp])
    obtain ⟨j, hj⟩ := isSome_iff_exists.mp hsome
    obtain ⟨m, hm, -⟩ := nodeIndex_some hj
    exact isSome_iff_exists.mpr ⟨_, (typeAt_eq_some_iff (hne _ hc)).mpr ⟨j, m, hj, hm, rfl⟩⟩
  · obtain ⟨i, n, hi, hn, hn'⟩ := (typeAt_eq_some_iff (hne c hc)).mp ht
    obtain ⟨m, hm, hp⟩ := nodeIndex_some hi
    obtain rfl := some.inj (hn.symm.trans hm)
    rw [clean_clean, hclean c hc] at hp
    exact mem_kids.mpr ⟨hc, i, n, hn, hp, hn'⟩

end DunitFs

/-! ### Memory -/

namespace MemFs

open Vfs

open DunitFs (trimmed_append)

variable {fs : MemFs} {path : Path}
variable {d : Path} {c : List Char}

theorem trimmed_rehome {old new : Path} (hnew : Trimmed new) (hp : Trimmed path) :
    Trimmed (rehome old new path) := by
  rcases rehome_cases old new path with ⟨rest, hpath, hmove⟩ | ⟨-, hmove⟩
  · rw [hmove]
    exact trimmed_append hnew (hpath ▸ hp)
  · rwa [hmove]

theorem Named.moved {i : ℕ} {n : MemNode} {new : Path} (h : Named fs) (hnew : Trimmed new)
    (old : Path) : Named (moved i n old new fs) := by
  have hmodify : ∀ m ∈ fs.nodes.modify i fun n => { n with path := new }, Trimmed m.path := by
    intro m hm
    rcases mem_modify hm with hm | ⟨m', -, rfl⟩
    · exact h m hm
    · exact hnew
  intro m hm
  by_cases hdir : (n.fileType == .directory) = true
  · simp only [MemFs.moved, hdir, if_true] at hm
    obtain ⟨m', hm', rfl⟩ := mem_map.mp hm
    exact trimmed_rehome hnew (hmodify m' hm')
  · simp only [MemFs.moved, hdir, Bool.false_eq_true, if_false] at hm
    exact hmodify m hm

/-- **One operation** keeps the paths without slashes at their ends. -/
theorem Named.step (h : Named fs) (r : Request) : Named (r.step fs) := by
  cases r with
  | rename old new =>
    show Named (rename old new fs).2
    rcases rename_cases with ⟨e, hrun⟩ | ⟨-, hrun⟩ |
      ⟨i, n, -, -, -, -, -, -, htype, -, -, hrun⟩
    · rw [hrun]
      exact h
    · rw [hrun]
      exact h
    · rw [hrun]
      exact h.moved ((trimSlashes_eq_nil_or_trimmed new).resolve_left (nodeType_none htype).1) _
  | _ => exact (tame_step fun _ _ => by simp).named h

/-- **A run of operations** keeps the paths without slashes at their ends. -/
theorem Named.serve (h : Named fs) (rs : List Request) : Named (serve fs rs) := by
  induction rs generalizing fs with
  | nil => exact h
  | cons r rs ih => exact ih (h.step r)

/-! ### Listings in memory -/

/-- What `stat` says of the type of a path. -/
def typeAt (fs : MemFs) (path : Path) : Option FileType := (stat path fs).1.toOption.map Prod.fst

/-- The direct children of a directory that have a node: the name and the type of each. -/
def nodeKids (nodes : List MemNode) (d : Path) : List (List Char × FileType) :=
  nodes.filterMap fun n => (nameIn d n.path).map fun c => (c, n.fileType)

/-- The direct children of a directory: the name and the type of each. -/
def kids (fs : MemFs) (d : Path) : List (List Char × FileType) :=
  if d = [] then
    baseDirs.map (fun c => (c, .directory)) ++
      nodeKids (fs.nodes.filter fun n => !isBaseDir n.path) []
  else nodeKids fs.nodes d

theorem mem_nodeKids {nodes : List MemNode} : (c, t) ∈ nodeKids nodes d ↔
      IsName c ∧ ∃ n ∈ nodes, n.path = childPath d c ∧ n.fileType = t := by
  simp only [nodeKids, mem_filterMap, Option.map_eq_some_iff, Prod.mk.injEq, nameIn_eq_some_iff]
  constructor
  · rintro ⟨n, hn, c', ⟨hc, hp⟩, rfl, ht⟩
    exact ⟨hc, n, hn, hp, ht⟩
  · rintro ⟨hc, n, hn, hp, ht⟩
    exact ⟨n, hn, c, ⟨hc, hp⟩, rfl, ht⟩

/-- A path without slashes at its ends is a direct child if it has a name in the directory. -/
theorem isDirectChild_iff (hp : Trimmed p) :
    isDirectChild d p = true ↔ ∃ c, IsName c ∧ p = childPath (clean d) c := by
  have hclean : clean p = p := trimSlashes_of_trimmed hp
  unfold isDirectChild childPath
  simp only [hclean]
  by_cases hd : clean d = []
  · simp only [hd, if_true, decide_eq_true_eq]
    exact ⟨fun h => ⟨p, h, rfl⟩, fun ⟨c, hc, hp⟩ => hp ▸ hc⟩
  simp only [hd, if_false]
  constructor
  · intro h
    rcases hsuffix : (clean d ++ ['/']).isPrefixOf? p with _ | c
    · rw [hsuffix] at h
      cases h
    rw [hsuffix, decide_eq_true_eq] at h
    rw [isPrefixOf?_eq_some_iff_append_eq, append_assoc] at hsuffix
    refine ⟨c, ⟨fun hc => hp.2.2 ?_, h⟩, hsuffix.symm⟩
    rw [← hsuffix, hc]
    simp
  · rintro ⟨c, hc, rfl⟩
    have hsuffix : (clean d ++ ['/']).isPrefixOf? (clean d ++ '/' :: c) = some c := by
      rw [isPrefixOf?_eq_some_iff_append_eq]
      simp
    rw [hsuffix]
    exact decide_eq_true hc.2

/-- The entries of nodes that are direct children of a directory. -/
theorem entries_eq {nodes : List MemNode} (h : ∀ n ∈ nodes, Trimmed n.path) (d : Path) :
    (nodes.filter fun n => isDirectChild d n.path).map entryOf =
      entriesFor (nodeKids nodes (clean d)) := by
  rw [nodeKids, ← entries_eq_entriesFor (fun n hn => isDirectChild_iff (h n hn))]
  refine map_congr_left fun n hn => ?_
  have hclean : clean n.path = n.path := trimSlashes_of_trimmed (h n (mem_filter.mp hn).1)
  rw [entryOf, hclean]

/-- What `stat` finds for a path that is neither the root nor a base directory. -/
theorem typeAt_eq : typeAt fs path = nodeType fs path := by
  rw [typeAt, stat, Prog.get_bind_run, nodeType]
  by_cases hroot : clean path = [] ∨ isBaseDir (clean path)
  · simp only [if_pos hroot]
    rfl
  · simp only [if_neg hroot]
    rcases findNode fs (clean path) with _ | n
    · rfl
    · rfl

/-- **Listing what is a directory** gives one entry for each of its direct children. -/
theorem readdir_eq (h : Named fs) (hd : typeAt fs d = some .directory) :
    readdir d fs = (.ok (entriesFor (kids fs (clean d))), fs) := by
  rw [typeAt_eq] at hd
  rw [readdir, Prog.get_bind_run, kids]
  by_cases hroot : clean d = []
  · have hnodes : ((children fs []).filter fun n => !isBaseDir n.path).map entryOf =
        entriesFor (nodeKids (fs.nodes.filter fun n => !isBaseDir n.path) []) := by
      rw [← show clean [] = [] from rfl,
        ← entries_eq (fun n hn => h n (List.mem_filter.mp hn).1) [], children, List.filter_filter,
        List.filter_filter]
      exact congrArg (fun p => (fs.nodes.filter p).map entryOf)
        (funext fun n => Bool.and_comm _ _)
    have happend : entriesFor (baseDirs.map (fun c => (c, .directory)) ++
        nodeKids (fs.nodes.filter fun n => !isBaseDir n.path) []) =
        baseDirs.map (DirEntry.new · .directory) ++
          entriesFor (nodeKids (fs.nodes.filter fun n => !isBaseDir n.path) []) := by
      rw [entriesFor, List.map_append, List.map_map]
      rfl
    simp only [if_pos hroot]
    rw [hnodes, happend]
    rfl
  · simp only [if_neg hroot, nodeType_clean, hd, ne_eq, not_true, if_false]
    rw [children, entries_eq h, clean_clean]
    rfl

/-- A child of a directory is a base directory only in the root. -/
theorem isBaseDir_childPath (hd : d = [] ∨ Trimmed d) (hc : IsName c) :
    isBaseDir (childPath d c) = true ↔ d = [] ∧ c ∈ baseDirs := by
  rw [isBaseDir_iff (trimmed_childPath hd hc), childPath]
  by_cases hnil : d = []
  · rw [if_pos hnil]
    exact ⟨fun h => ⟨hnil, h⟩, fun h => h.2⟩
  · rw [if_neg hnil]
    refine ⟨fun h => absurd ?_ (not_slash_of_mem_baseDirs h), fun h => absurd h.1 hnil⟩
    simp

theorem isName_baseDirs : ∀ c ∈ baseDirs, IsName c := by decide

theorem mem_kids (hd : d = [] ∨ Trimmed d) :
    (c, t) ∈ kids fs d ↔ IsName c ∧
      if d = [] ∧ c ∈ baseDirs then t = .directory
      else ∃ n ∈ fs.nodes, n.path = childPath d c ∧ n.fileType = t := by
  rw [kids]
  by_cases hroot : d = []
  · subst hroot
    rw [if_pos rfl, List.mem_append, List.mem_map, mem_nodeKids]
    by_cases hbase : c ∈ baseDirs
    · rw [if_pos ⟨rfl, hbase⟩]
      constructor
      · rintro (⟨c', hc', heq⟩ | ⟨hc, n, hn, hp, -⟩)
        · cases heq
          exact ⟨isName_baseDirs c hc', rfl⟩
        · -- a node with the name of a base directory is not listed
          have hnot := (mem_filter.mp hn).2
          rw [hp, (isBaseDir_childPath hd hc).mpr ⟨rfl, hbase⟩] at hnot
          cases hnot
      · rintro ⟨-, rfl⟩
        exact Or.inl ⟨c, hbase, rfl⟩
    · rw [if_neg fun h => hbase h.2]
      constructor
      · rintro (⟨c', hc', heq⟩ | ⟨hc, n, hn, hp⟩)
        · cases heq
          exact absurd hc' hbase
        · exact ⟨hc, n, (mem_filter.mp hn).1, hp⟩
      · rintro ⟨hc, n, hn, hp, ht⟩
        refine Or.inr ⟨hc, n, mem_filter.mpr ⟨hn, ?_⟩, hp, ht⟩
        rw [Bool.not_eq_true', Bool.eq_false_iff, hp]
        exact fun h => hbase ((isBaseDir_childPath hd hc).mp h).2
  · rw [if_neg hroot, if_neg fun h => hroot h.1]
    exact mem_nodeKids

/-- What `stat` says of a child of a directory. -/
theorem typeAt_child (hc : IsName c) : typeAt fs (clean d ++ '/' :: c) =
      if clean d = [] ∧ c ∈ baseDirs then some .directory
      else (findNode fs (childPath (clean d) c)).map MemNode.fileType := by
  have hd : clean d = [] ∨ Trimmed (clean d) := trimSlashes_eq_nil_or_trimmed d
  have hclean : clean (clean d ++ '/' :: c) = childPath (clean d) c := trimSlashes_child hc
  have hbase := isBaseDir_childPath hd hc
  rw [typeAt_eq, nodeType, hclean]
  by_cases h : clean d = [] ∧ c ∈ baseDirs
  · rw [if_pos h, if_pos (Or.inr (hbase.mpr h))]
  · rw [if_neg h, if_neg]
    exact fun hc' => hc'.elim (trimmed_childPath hd hc).1 fun hb => h (hbase.mp hb)

/-- **When the listing of a directory in memory is usable.** -/
theorem usable_readdir_iff :
    Usable (typeAt fs) (clean d) (entriesFor (kids fs (clean d))) ↔
      Listable (kids fs (clean d)) := by
  have hd : clean d = [] ∨ Trimmed (clean d) := trimSlashes_eq_nil_or_trimmed d
  have hclean : ∀ {c}, IsName c → clean (childPath (clean d) c) = childPath (clean d) c :=
    fun hc => trimSlashes_of_trimmed (trimmed_childPath hd hc)
  refine usable_iff (fun k hk => ((mem_kids hd).mp hk).1) (fun k hk => ?_) fun c t hc ht => ?_
  · obtain ⟨hc, hk⟩ := (mem_kids hd).mp hk
    rw [typeAt_child hc]
    by_cases hbase : clean d = [] ∧ k.1 ∈ baseDirs
    · rw [if_pos hbase]
      rfl
    · rw [if_neg hbase] at hk ⊢
      obtain ⟨n, hn, hp, -⟩ := hk
      rw [isSome_map, findNode, find?_isSome]
      exact ⟨n, hn, beq_iff_eq.mpr (hp.trans (hclean hc).symm)⟩
  · rw [typeAt_child hc] at ht
    refine (mem_kids hd).mpr ⟨hc, ?_⟩
    by_cases hbase : clean d = [] ∧ c ∈ baseDirs
    · rw [if_pos hbase] at ht ⊢
      exact (some.inj ht).symm
    · rw [if_neg hbase] at ht ⊢
      obtain ⟨n, hn, hn'⟩ := Option.map_eq_some_iff.mp ht
      obtain ⟨hmem, hp⟩ := findNode_some hn
      exact ⟨n, hmem, hp.trans (hclean hc), hn'⟩

end MemFs

namespace Vfs

/-- **Listings of both file systems**: every directory can be listed, with one entry for each
direct child, and the listing is usable exactly if no two children have one name and no name has
more than 64 bytes. The state of the disk is arbitrary here, and that of the memory any that is
reached from one with proper paths. -/
theorem listing_usable_iff (d : Path) :
    (∀ w : DunitFs.World, DunitFs.typeAt w d = some .directory →
      ∃ entries, (DunitFs.readdir d w).1 = .ok entries ∧
        entries = entriesFor (DunitFs.kids w.fs (DunitFs.clean d)) ∧
        (Usable (DunitFs.typeAt w) (DunitFs.clean d) entries ↔
          Listable (DunitFs.kids w.fs (DunitFs.clean d)))) ∧
      ∀ (fs0 : MemFs) (rs : List MemFs.Request), fs0.Named →
        (MemFs.serve fs0 rs).typeAt d = some .directory →
        ∃ entries, (MemFs.readdir d (MemFs.serve fs0 rs)).1 = .ok entries ∧
          entries = entriesFor ((MemFs.serve fs0 rs).kids (MemFs.clean d)) ∧
          (Usable (MemFs.serve fs0 rs).typeAt (MemFs.clean d) entries ↔
            Listable ((MemFs.serve fs0 rs).kids (MemFs.clean d))) := by
  constructor
  · intro w hd
    exact ⟨_, congrArg fst (readdir_eq hd), rfl, usable_readdir_iff⟩
  · intro fs0 rs h0 hd
    exact ⟨_, congrArg fst (readdir_eq (h0.serve rs) hd), rfl, usable_readdir_iff⟩

/-- A file and a directory are made in a directory. -/
def madeInTmp : List MemFs.Request := [.create "tmp/a".toList, .mkdir "tmp/b".toList]

/-- A disk on which a file and a directory are made. -/
def madeOnDisk : DunitFs.World :=
  (DunitFs.mkdir "b".toList (DunitFs.create "a".toList DunitFs.smallWorld).2).2

/-- What was made is listed, in memory and on the disk, and the listings are usable. -/
theorem listing_usable_iff_made :
    (∃ entries, (DunitFs.readdir [] madeOnDisk).1 = .ok entries ∧ entries.length = 2 ∧
      Usable (DunitFs.typeAt madeOnDisk) (DunitFs.clean []) entries) ∧
    ∃ entries, (MemFs.readdir "tmp".toList (MemFs.serve new madeInTmp)).1 = .ok entries ∧
      entries.length = 2 ∧
      Usable (MemFs.serve new madeInTmp).typeAt (MemFs.clean "tmp".toList) entries := by
  obtain ⟨entries, hrun, heq, hiff⟩ := (listing_usable_iff []).1 madeOnDisk rfl
  obtain ⟨entries', hrun', heq', hiff'⟩ := (listing_usable_iff "tmp".toList).2 new madeInTmp
    (fun n hn => (nomatch hn)) (by decide)
  refine ⟨⟨entries, hrun, ?_, hiff.mpr (by decide +kernel)⟩,
    entries', hrun', ?_, hiff'.mpr (by decide +kernel)⟩
  · rw [heq]
    decide +kernel
  · rw [heq']
    decide +kernel

/-- A name of 65 bytes. -/
def longName : List Char := List.replicate 65 'a'

/-- A file system in memory with a file of that name. -/
def longNameFs : MemFs := (MemFs.create ("tmp/".toList ++ longName) MemFs.new).2

/-- **A name that is cut**: a file is created with a name of 65 bytes, in memory and on the disk. It
is listed with the first 64 of them, and there is nothing at the path that this makes. -/
theorem long_name_cut :
    (MemFs.create ("tmp/".toList ++ longName) MemFs.new).1 = .ok () ∧
      (MemFs.readdir "tmp".toList longNameFs).1 = .ok [DirEntry.new (List.replicate 64 'a') .file] ∧
      longNameFs.typeAt ("tmp/".toList ++ List.replicate 64 'a') = none ∧
      ¬Usable longNameFs.typeAt "tmp".toList [DirEntry.new (List.replicate 64 'a') .file] ∧
      (DunitFs.create longName DunitFs.smallWorld).1 = .ok () ∧
      (DunitFs.readdir [] (DunitFs.create longName DunitFs.smallWorld).2).1 =
        .ok [DirEntry.new (List.replicate 64 'a') .file] ∧
      DunitFs.typeAt (DunitFs.create longName DunitFs.smallWorld).2
        ('/' :: List.replicate 64 'a') = none := by
  have hnone : longNameFs.typeAt ("tmp/".toList ++ replicate 64 'a') = none := by
    decide +kernel
  refine ⟨by decide +kernel, by decide +kernel, hnone, fun h => ?_, by decide +kernel,
    by decide +kernel, by decide +kernel⟩
  have hfound := h.found _ mem_cons_self
  rw [DirEntry.text_new (by decide +kernel)] at hfound
  exact absurd (hnone.symm.trans hfound) (by simp)

end Vfs

end DunitOS
