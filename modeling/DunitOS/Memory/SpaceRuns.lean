import DunitOS.Memory.SpaceMap

/-!
# Runs of an address space

The frames of a space are accounted for (`Vmm.Account`): what it was handed
out is what its two lists hold and what an operation has in hand. Each operation is
specified once, over the invariant that the tables represent the map and the frames are
accounted for (`Vmm.Inv`), with its exits for want of frames; the results
about runs follow by induction.
-/

namespace DunitOS.Memory

open SysLib Prog List Option Function PageTableEntry Pages Vmm

namespace Vmm

/-! ### The frames of a space -/

/-- **The frames are accounted for.** An operation has the frames of `spare` in hand; the
frames of `others` belong to somebody else. -/
structure Account (w : Vmm) (m : Pages) (spare others : List UInt64) : Prop where
  owned : ∀ f, f ∈ w.space.userFrames ↔ m.Owns f
  alone : ∀ n n' pg pg', m n = some pg → m n' = some pg' → pg.owned = true →
    pg'.frame = pg.frame → n' = n
  given : ∀ n pg, m n = some pg → pg.owned = false → pg.frame ∉ w.held
  elsewhere : ∀ f ∈ others, f ∉ w.held
  balance : w.held.Perm (w.space.pageTableFrames ++ (w.space.userFrames ++ spare))
  nodup : w.held.Nodup
  stray : w.stray = []
  fresh : ∀ f, some f ∈ w.answers →
    FrameAddr f ∧ f ∉ w.held ∧ f ∉ others ∧ ∀ n pg, m n = some pg → pg.frame ≠ f
  once : (w.answers.filterMap id).Nodup

/-- The allocator fails one of the next requests. -/
def Short (k : ℕ) (answers : List (Option UInt64)) : Prop :=
  none ∈ answers ∨ answers.length < k

/-- **The invariant**: the tables represent the map and the frames are accounted for. -/
structure Inv (w : Vmm) (root : UInt64) (kernel : ℕ → PageTableEntry) (m : Pages)
    (spare others : List UInt64) : Prop where
  root : w.space.rootFrame = root
  maps : w.Maps kernel m
  account : w.Account m spare others

variable {answers : List (Option UInt64)}

section

variable {w : Vmm} {m : Pages} {spare others : List UInt64} {f : UInt64} {n : ℕ}

theorem Account.mem_held (h : w.Account m spare others) :
    f ∈ w.held ↔ f ∈ w.space.pageTableFrames ∨ f ∈ w.space.userFrames ∨ f ∈ spare := by
  rw [h.balance.mem_iff, mem_append, mem_append]

/-- The words of the frames do not matter. -/
theorem Account.setMem (h : w.Account m spare others) (mem : UInt64 → ℕ → PageTableEntry) :
    Account { w with mem := mem } m spare others :=
  ⟨h.owned, h.alone, h.given, h.elsewhere, h.balance, h.nodup, h.stray, h.fresh, h.once⟩

/-- A frame in hand is no table and not mapped. -/
theorem Account.spare_apart (h : w.Account m (f :: spare) others) :
    f ∉ w.space.pageTableFrames ∧ f ∉ w.space.userFrames ∧ f ∉ spare := by
  have hnodup := h.balance.nodup_iff.mp h.nodup
  rw [nodup_append, nodup_append] at hnodup
  obtain ⟨-, ⟨-, hspare, huser⟩, htable⟩ := hnodup
  refine ⟨fun hf => htable f hf f (by simp) rfl, fun hf => huser f hf f (by simp) rfl, ?_⟩
  exact (nodup_cons.mp hspare).1

/-- **A frame is handed out.** -/
theorem Account.alloc (h : w.Account m spare others) (hans : w.answers = some f :: answers) :
    Account { w with answers := answers, held := f :: w.held } m (f :: spare) others := by
  obtain ⟨haddr, hheld, hothers, hpages⟩ := h.fresh f (by simp [hans])
  have honce : f ∉ answers.filterMap id ∧ (answers.filterMap id).Nodup := by
    rw [← nodup_cons]
    have hall := h.once
    rwa [hans] at hall
  refine ⟨h.owned, h.alone, fun n pg hpg ho => ?_, fun g hg => ?_, ?_, ?_, h.stray,
    fun g hg => ?_, honce.2⟩
  · rw [List.mem_cons, not_or]
    exact ⟨hpages n pg hpg, h.given n pg hpg ho⟩
  · rw [List.mem_cons, not_or]
    exact ⟨fun hc => hothers (hc ▸ hg), h.elsewhere g hg⟩
  · refine (List.Perm.cons f h.balance).trans ?_
    rw [← append_assoc, ← append_assoc]
    exact perm_middle.symm
  · exact nodup_cons.mpr ⟨hheld, h.nodup⟩
  · obtain ⟨h1, h2, h3, h4⟩ := h.fresh g (by rw [hans]; exact mem_cons_of_mem _ hg)
    refine ⟨h1, ?_, h3, h4⟩
    rw [List.mem_cons, not_or]
    exact ⟨fun hc => honce.1 (mem_filterMap.mpr ⟨some g, hg, by rw [hc]; rfl⟩), h2⟩

/-- A request for a frame fails. -/
theorem Account.tail (h : w.Account m spare others) {o : Option UInt64}
    (hans : w.answers = o :: answers) :
    Account { w with answers := answers } m spare others := by
  refine ⟨h.owned, h.alone, h.given, h.elsewhere, h.balance, h.nodup, h.stray, fun g hg => ?_, ?_⟩
  · exact h.fresh g (hans ▸ mem_cons_of_mem _ hg)
  · exact h.once.sublist (hans ▸ (sublist_cons_self o answers).filterMap id)

/-- A frame in hand becomes a table. -/
theorem Account.addTable (h : w.Account m (f :: spare) others) (t : UInt64) (i : ℕ) :
    (w.addTable t i f).Account m spare others := by
  refine ⟨h.owned, h.alone, h.given, h.elsewhere, ?_, h.nodup, h.stray, h.fresh, h.once⟩
  refine h.balance.trans ?_
  change List.Perm _ (w.space.pageTableFrames ++ [f] ++ (w.space.userFrames ++ spare))
  rw [append_assoc]
  exact List.Perm.append_left _ perm_middle

/-- A frame in hand is handed back. -/
theorem Account.freeSpare (h : w.Account m (f :: spare) others) :
    (w.freeFrame f).Account m spare others := by
  have hmem : f ∈ w.held := h.mem_held.mpr (by simp)
  have hsub : ∀ {g : UInt64}, g ∉ w.held → g ∉ w.held.erase f := fun hg hc =>
    hg (mem_of_mem_erase hc)
  rw [freeFrame, if_pos hmem]
  refine ⟨h.owned, h.alone, fun n pg hpg ho => hsub (h.given n pg hpg ho),
    fun g hg => hsub (h.elsewhere g hg), ?_, h.nodup.erase f, h.stray, fun g hg => ?_, h.once⟩
  · have hback : w.held.Perm (f :: (w.space.pageTableFrames ++ (w.space.userFrames ++ spare))) := by
      refine h.balance.trans ?_
      rw [← append_assoc, ← append_assoc]
      exact perm_middle
    simpa using hback.erase f
  · obtain ⟨h1, h2, h3, h4⟩ := h.fresh g hg
    exact ⟨h1, hsub h2, h3, h4⟩

/-- **A page is mapped where there was none.** -/
theorem Account.put (h : w.Account m spare others) (hn : m n = none) {pg : Page}
    {user spare' : List UInt64}
    (hne : ∀ n' pg', m n' = some pg' → pg'.owned = true ∨ pg.owned = true → pg'.frame ≠ pg.frame)
    (hgiven : pg.owned = false → pg.frame ∉ w.held) (hfree : some pg.frame ∉ w.answers)
    (huser : ∀ g, g ∈ user ↔ g ∈ w.space.userFrames ∨ pg.owned = true ∧ g = pg.frame)
    (hperm : (w.space.userFrames ++ spare).Perm (user ++ spare')) :
    Account { w with space := { w.space with userFrames := user } }
      (update m n (some pg)) spare' [] := by
  have hold : ∀ {n' pg'}, m n' = some pg' → update m n (some pg) n' = some pg' := by
    intro n' pg' hpg
    rw [update_of_ne, hpg]
    rintro rfl
    cases hn.symm.trans hpg
  refine ⟨fun g => ?_, fun n1 n2 pg1 pg2 h1 h2 ho heq => ?_, fun n' pg' hpg ho => ?_, by simp,
    h.balance.trans (hperm.append_left _), h.nodup, h.stray, fun g hg => ?_, h.once⟩
  · refine (huser g).trans ?_
    rw [h.owned]
    constructor
    · rintro (⟨n', pg', hpg, ho, rfl⟩ | ⟨ho, rfl⟩)
      · exact ⟨n', pg', hold hpg, ho, rfl⟩
      · exact ⟨n, pg, update_self .., ho, rfl⟩
    · rintro ⟨n', pg', hpg, ho, rfl⟩
      rcases update_eq_some hpg with ⟨-, hpg⟩ | ⟨-, hpg⟩
      · obtain rfl := some.inj hpg
        exact .inr ⟨ho, rfl⟩
      · exact .inl ⟨n', pg', hpg, ho, rfl⟩
  · rcases update_eq_some h1 with ⟨hn1, hpg1⟩ | ⟨-, h1⟩ <;>
      rcases update_eq_some h2 with ⟨hn2, hpg2⟩ | ⟨-, h2⟩
    · rw [hn1, hn2]
    · obtain rfl := some.inj hpg1
      exact absurd heq (hne n2 pg2 h2 (.inr ho))
    · obtain rfl := some.inj hpg2
      exact absurd heq.symm (hne n1 pg1 h1 (.inl ho))
    · exact h.alone n1 n2 pg1 pg2 h1 h2 ho heq
  · rcases update_eq_some hpg with ⟨-, hpg⟩ | ⟨-, hpg⟩
    · obtain rfl := some.inj hpg
      exact hgiven ho
    · exact h.given n' pg' hpg ho
  · obtain ⟨h1, h2, -, h4⟩ := h.fresh g hg
    refine ⟨h1, h2, by simp, fun n' pg' hpg => ?_⟩
    rcases update_eq_some hpg with ⟨-, hpg⟩ | ⟨-, hpg⟩
    · obtain rfl := some.inj hpg
      rintro rfl
      exact hfree hg
    · exact h4 n' pg' hpg

/-- **Somebody else's frame is mapped.** -/
theorem Account.give (h : w.Account m [] [f]) (hn : m n = none) (hfree : some f ∉ w.answers)
    (flags : PageFlags) :
    w.Account (update m n (some ⟨f, flags, false⟩)) [] [] := by
  have hheld : f ∉ w.held := h.elsewhere f (by simp)
  refine h.put hn (fun n' pg hpg ho hc => hheld ?_) (fun _ => hheld) hfree (by simp) (.refl _)
  have ho := ho.resolve_right (by simp)
  exact h.mem_held.mpr (.inr (.inl ((h.owned f).mpr ⟨n', pg, hpg, ho, hc⟩)))

/-- **A frame in hand is mapped** and owned. -/
theorem Account.own (h : w.Account m [f] []) (hn : m n = none) (flags : PageFlags) :
    Account { w with space := { w.space with userFrames := w.space.userFrames ++ [f] } }
      (update m n (some ⟨f, flags, true⟩)) [] [] := by
  obtain ⟨-, hout, -⟩ := h.spare_apart
  have hin : f ∈ w.held := h.mem_held.mpr (by simp)
  refine h.put hn (fun n' pg hpg _ hc => ?_) (fun hno => by cases hno)
    (fun hf => (h.fresh f hf).2.1 hin) (by simp) (by simp)
  rcases ho : pg.owned with _ | _
  · exact h.given n' pg hpg ho (hc ▸ hin)
  · exact hout ((h.owned f).mpr ⟨n', pg, hpg, ho, hc⟩)

/-- Only the flags of a page are changed. -/
theorem Account.reflag (h : w.Account m spare others) {pg : Page} (hn : m n = some pg)
    (flags : PageFlags) :
    w.Account (update m n (some { pg with flags := flags })) spare others := by
  have hback : ∀ n' pg', update m n (some { pg with flags := flags }) n' = some pg' →
      ∃ pg0, m n' = some pg0 ∧ pg0.owned = pg'.owned ∧ pg0.frame = pg'.frame := by
    intro n' pg' hpg
    rcases update_eq_some hpg with ⟨rfl, heq⟩ | ⟨-, hpg⟩
    · obtain rfl := some.inj heq
      exact ⟨pg, hn, rfl, rfl⟩
    · exact ⟨pg', hpg, rfl, rfl⟩
  have howns : ∀ g, Pages.Owns (update m n (some { pg with flags := flags })) g ↔ m.Owns g := by
    intro g
    constructor
    · rintro ⟨n', pg', hpg, ho, rfl⟩
      obtain ⟨pg0, h0, ho', hf⟩ := hback n' pg' hpg
      exact ⟨n', pg0, h0, ho'.trans ho, hf⟩
    · rintro ⟨n', pg', hpg, ho, rfl⟩
      rcases eq_or_ne n' n with rfl | hne
      · obtain rfl := some.inj (hn.symm.trans hpg)
        exact ⟨n', _, update_self .., ho, rfl⟩
      · exact ⟨n', pg', by rw [update_of_ne hne, hpg], ho, rfl⟩
  refine ⟨fun g => (h.owned g).trans (howns g).symm, fun n1 n2 pg1 pg2 h1 h2 ho heq => ?_,
    fun n' pg' hpg ho => ?_, h.elsewhere, h.balance, h.nodup, h.stray, fun g hg => ?_, h.once⟩
  · obtain ⟨pg1', h1', ho1, hf1⟩ := hback n1 pg1 h1
    obtain ⟨pg2', h2', -, hf2⟩ := hback n2 pg2 h2
    exact h.alone n1 n2 pg1' pg2' h1' h2' (ho1.trans ho) (hf2.trans (heq.trans hf1.symm))
  · obtain ⟨pg0, h0, ho0, hf0⟩ := hback n' pg' hpg
    exact hf0 ▸ h.given n' pg0 h0 (ho0.trans ho)
  · obtain ⟨h1, h2, h3, h4⟩ := h.fresh g hg
    refine ⟨h1, h2, h3, fun n' pg' hpg => ?_⟩
    obtain ⟨pg0, h0, -, hf0⟩ := hback n' pg' hpg
    exact hf0 ▸ h4 n' pg0 h0

/-- **A page is taken away**, and its frame given up if it is owned. -/
theorem Account.unmap (h : w.Account m [] []) {pg : Page} (hn : m n = some pg) :
    (w.disown pg.frame).Account (update m n none) [] [] := by
  have hback : ∀ n' pg', update m n none n' = some pg' → n' ≠ n ∧ m n' = some pg' := by
    intro n' pg' hpg
    rcases update_eq_some hpg with ⟨-, hpg⟩ | hpg
    · cases hpg
    · exact hpg
  have halone : ∀ n1 n2 pg1 pg2, update m n none n1 = some pg1 →
      update m n none n2 = some pg2 → pg1.owned = true → pg2.frame = pg1.frame → n2 = n1 :=
    fun n1 n2 pg1 pg2 h1 h2 => h.alone n1 n2 pg1 pg2 (hback _ _ h1).2 (hback _ _ h2).2
  have howns : ∀ g, Pages.Owns (update m n none) g ↔
      m.Owns g ∧ ¬(pg.owned = true ∧ g = pg.frame) := by
    intro g
    constructor
    · rintro ⟨n', pg', hpg, ho, rfl⟩
      obtain ⟨hne, hpg⟩ := hback n' pg' hpg
      exact ⟨⟨n', pg', hpg, ho, rfl⟩, fun hc => hne (h.alone n n' pg pg' hn hpg hc.1 hc.2)⟩
    · rintro ⟨⟨n', pg', hpg, ho, rfl⟩, hc⟩
      have hne : n' ≠ n := by
        rintro rfl
        obtain rfl := some.inj (hn.symm.trans hpg)
        exact hc ⟨ho, rfl⟩
      exact ⟨n', pg', by rw [update_of_ne hne, hpg], ho, rfl⟩
  have hgiven : ∀ n' pg', update m n none n' = some pg' → pg'.owned = false →
      pg'.frame ∉ w.held := fun n' pg' hpg => h.given n' pg' (hback n' pg' hpg).2
  rw [disown]
  rcases hidx : w.space.userFrames.idxOf? pg.frame with _ | index
  · -- The frame is not in the list, so the page was not owned.
    have hout : pg.frame ∉ w.space.userFrames := idxOf?_eq_none_iff.mp hidx
    have hno : ¬pg.owned = true := fun ho => hout ((h.owned _).mpr ⟨n, pg, hn, ho, rfl⟩)
    refine ⟨fun g => ?_, halone, hgiven, by simp, h.balance, h.nodup, h.stray, fun g hg => ?_,
      h.once⟩
    · rw [h.owned g, howns g, and_iff_left fun hc => hno hc.1]
    · obtain ⟨h1, h2, h3, h4⟩ := h.fresh g hg
      exact ⟨h1, h2, h3, fun n' pg' hpg => h4 n' pg' (hback _ _ hpg).2⟩
  · have hget : w.space.userFrames[index]? = some pg.frame := by
      obtain ⟨hlt, heq, -⟩ := findIdx?_eq_some_iff_getElem.mp hidx
      rw [getElem?_eq_getElem hlt, beq_iff_eq.mp heq]
    have hperm := swapRemove_perm hget
    have hin : pg.frame ∈ w.space.userFrames := mem_of_getElem? hget
    have ho : pg.owned = true := by
      rcases ho : pg.owned with _ | _
      · exact absurd (h.mem_held.mpr (.inr (.inl hin))) (h.given n pg hn ho)
      · rfl
    have hnot : pg.frame ∉ swapRemove w.space.userFrames index := by
      have hall := h.balance.nodup_iff.mp h.nodup
      rw [append_nil] at hall
      exact (nodup_cons.mp (hperm.nodup_iff.mpr (nodup_append.mp hall).2.1)).1
    -- The frame is in hand, and handed back.
    refine Account.freeSpare ⟨fun g => ?_, halone, hgiven, by simp, ?_, h.nodup,
      h.stray, fun g hg => ?_, h.once⟩
    · rw [howns g, ← h.owned g, ← hperm.mem_iff, List.mem_cons]
      constructor
      · exact fun hg => ⟨.inr hg, fun hc => hnot (hc.2 ▸ hg)⟩
      · rintro ⟨rfl | hg, hc⟩
        · exact absurd ⟨ho, rfl⟩ hc
        · exact hg
    · refine h.balance.trans (List.Perm.append_left _ ?_)
      rw [append_nil]
      exact hperm.symm.trans (perm_append_singleton _ _).symm
    · obtain ⟨h1, h2, h3, h4⟩ := h.fresh g hg
      exact ⟨h1, h2, h3, fun n' pg' hpg => h4 n' pg' (hback _ _ hpg).2⟩

end

/-! ### The operations -/

section

variable {w : Vmm} {root : UInt64} {kernel : ℕ → PageTableEntry} {m : Pages}
  {spare others : List UInt64} {f t phys : UInt64} {i virt : ℕ} {q : List ℕ} {flags : PageFlags}

/-- The map depends on the tables only. -/
theorem Maps.of_eq (h : w.Maps kernel m) {w' : Vmm} (hmem : w'.mem = w.mem)
    (hroot : w'.space.rootFrame = w.space.rootFrame)
    (htables : w'.space.pageTableFrames = w.space.pageTableFrames) : w'.Maps kernel m := by
  obtain ⟨mem', ⟨root', user', tables'⟩, answers', held', stray'⟩ := w'
  obtain rfl : mem' = w.mem := hmem
  obtain rfl : root' = w.space.rootFrame := hroot
  obtain rfl : tables' = w.space.pageTableFrames := htables
  exact ⟨h.treelike, h.listed, h.entry, h.leaf, h.pages, h.kernel⟩

theorem freeFrame_mem :
    (w.freeFrame f).mem = w.mem ∧ (w.freeFrame f).space = w.space := by
  rw [freeFrame]
  split_ifs <;> exact ⟨rfl, rfl⟩

theorem Inv.freeSpare (h : w.Inv root kernel m (f :: spare) others) :
    (w.freeFrame f).Inv root kernel m spare others := by
  obtain ⟨hmem, hspace⟩ := freeFrame_mem
  exact ⟨by rw [hspace, h.root], h.maps.of_eq hmem (by rw [hspace]) (by rw [hspace]),
    h.account.freeSpare⟩

theorem disown_mem :
    (w.disown f).mem = w.mem ∧ (w.disown f).space.rootFrame = w.space.rootFrame ∧
      (w.disown f).space.pageTableFrames = w.space.pageTableFrames := by
  rw [disown]
  split
  · obtain ⟨hmem, hspace⟩ := freeFrame_mem
    rw [hmem, hspace]
    exact ⟨rfl, rfl, rfl⟩
  · exact ⟨rfl, rfl, rfl⟩

theorem allocFrame_ends (h : w.Inv root kernel m spare others) :
    Ends (fun f w' => FrameAddr f ∧ w'.Inv root kernel m (f :: spare) others ∧
        w'.mem = w.mem ∧ w'.space = w.space ∧ w.answers = some f :: w'.answers)
      (fun e w' => e = .outOfMemory ∧ w'.Inv root kernel m spare others ∧ Short 1 w.answers)
      (allocFrame w) := by
  rw [allocFrame]
  rcases hans : w.answers with _ | ⟨_ | f, answers⟩
  · exact ⟨rfl, h, .inr (by simp)⟩
  · exact ⟨rfl, ⟨h.root, h.maps.of_eq rfl rfl rfl, h.account.tail hans⟩, .inl (by simp)⟩
  · exact ⟨(h.account.fresh f (by simp [hans])).1,
      ⟨h.root, h.maps.of_eq rfl rfl rfl, h.account.alloc hans⟩, rfl, rfl, rfl⟩

theorem Short.succ {k : ℕ} {o : Option UInt64}
    (h : Short k answers) : Short (k + 1) (o :: answers) := by
  rcases h with h | h
  · exact .inl (mem_cons_of_mem _ h)
  · exact .inr (by rw [length_cons]; omega)

theorem Short.mono {k l : ℕ} (h : Short k answers) (hkl : k ≤ l) :
    Short l answers := h.imp_right fun hlt => lt_of_lt_of_le hlt hkl

/-- **One level of the way down**: the table is there afterwards, unless a frame is missing. -/
theorem ensureNextTable_ends (h : w.Inv root kernel m spare others) (ht : w.tableAt q = some t)
    (hq : q.length < 3) (hi : q = [] → i < pml4KernelStart) :
    Ends (fun f w' => w'.Inv root kernel m spare others ∧ w'.tableAt (q ++ [i]) = some f ∧
        w'.answers <:+ w.answers ∧ ∀ k, Short k w'.answers → Short (k + 1) w.answers)
      (fun e w' => e = .outOfMemory ∧ w'.Inv root kernel m spare others ∧ Short 1 w.answers)
      (ensureNextTable t i w) := by
  have hk := h.maps.not_kernelEntry ht hq.le hi
  rw [ensureNextTable, get_bind_run]
  refine Ends.ite (fun hz => ?_) fun hz => ?_
  · have hchild : w.child t i = some (addr (w.mem t i)) := by
      rw [child, if_neg (by simp [hk, hz])]
    have hflags : flags (w.mem t i) = tableFlags := by
      rw [h.maps.entry q t i _ hq ht hchild, flags_make (frameAddr_addr _)]
    rw [hflags]
    refine ⟨h, (tableAt_snoc ht i).trans hchild, suffix_rfl, fun k hshort => ?_⟩
    exact hshort.mono (Nat.le_succ k)
  · refine (allocFrame_ends h).bind (fun f w' hw' => ?_) fun e w' he => he
    obtain ⟨haddr, hinv, hmem, hspace, hans⟩ := hw'
    obtain ⟨mem', space', answers', held', stray'⟩ := w'
    obtain rfl : mem' = w.mem := hmem
    obtain rfl : space' = w.space := hspace
    obtain ⟨hmaps, hnew⟩ :=
      hinv.maps.addTable ht hq hk (not_not.mp hz) hinv.account.spare_apart.1 haddr
    refine ⟨⟨hinv.root, hmaps, hinv.account.addTable t i⟩, hnew, ?_, fun k hshort => ?_⟩
    · exact ⟨[some f], hans.symm⟩
    · rw [hans]
      exact Short.succ hshort

theorem contains_user : (flags ∪ .present ∪ .user).contains .user = true :=
  contains_union_right _ _

theorem leaf_eq_zero (h : w.Maps kernel m) (hv : virt < userSpaceEnd)
    (ht : w.tableAt (tablePath virt) = some t) :
    w.mem t (p1Index virt) = 0 ↔ m (virt / pageSize) = none := by
  have hleaf := h.leaf virt hv
  rw [leaf, ht] at hleaf
  change w.mem t (p1Index virt) = _ at hleaf
  rw [hleaf]
  rcases hm : m (virt / pageSize) with _ | pg
  · exact iff_of_true rfl rfl
  · obtain ⟨hframe, huser⟩ := h.pages _ _ hm
    exact iff_of_false (make_ne_zero hframe huser) (by simp)

theorem lt_of_badPage (h : badPage virt = false) : virt < userSpaceEnd := by
  simp only [badPage, Bool.or_eq_false_iff, decide_eq_false_iff_not] at h
  omega

/-- **`map_user_frame`.** The accounts do not know of the page yet. -/
theorem mapUserFrame_ends (h : w.Inv root kernel m spare others) (virt : ℕ) (flags : PageFlags)
    (hphys : phys &&& 0xFFF = 0 → FrameAddr phys) :
    Ends (fun _ w' => (badPage virt = false ∧ phys &&& 0xFFF = 0 ∧ m (virt / pageSize) = none) ∧
        w'.space.rootFrame = root ∧ w'.Account m spare others ∧ w'.answers <:+ w.answers ∧
        ∀ o, w'.Maps kernel (update m (virt / pageSize)
          (some ⟨phys, flags ∪ .present ∪ .user, o⟩)))
      (fun e w' => w'.Inv root kernel m spare others ∧ ((e = .invalidUserAddress ∧
            (badPage virt = true ∨ phys &&& 0xFFF ≠ 0 ∨ m (virt / pageSize) ≠ none)) ∨
          e = .outOfMemory ∧ badPage virt = false ∧ phys &&& 0xFFF = 0 ∧ Short 3 w.answers))
      (mapUserFrame virt phys flags w) := by
  rw [mapUserFrame]
  refine Ends.refuse (fun hbad => ⟨h, .inl ⟨rfl, ?_⟩⟩) fun hgood => ?_
  · rw [Bool.or_eq_true, bne_iff_ne] at hbad
    exact hbad.imp_right .inl
  rw [Bool.or_eq_false_iff, bne_eq_false_iff_eq] at hgood
  obtain ⟨hpage, halign⟩ := hgood
  have hv := lt_of_badPage hpage
  rw [get_bind_run]
  refine (ensureNextTable_ends h tableAt_root (by simp) fun _ => p4Index_lt hv).bind
    (fun p3 w1 h1 => ?_) fun e w1 h1 => ⟨h1.2.1, .inr ⟨h1.1, hpage, halign, h1.2.2.mono (by omega)⟩⟩
  obtain ⟨hinv1, ht1, hsuf1, hshort1⟩ := h1
  refine (ensureNextTable_ends hinv1 ht1 (by simp) (by simp)).bind (fun p2 w2 h2 => ?_)
    fun e w2 h2 => ⟨h2.2.1, .inr ⟨h2.1, hpage, halign, (hshort1 1 h2.2.2).mono (by omega)⟩⟩
  obtain ⟨hinv2, ht2, hsuf2, hshort2⟩ := h2
  refine (ensureNextTable_ends hinv2 ht2 (by simp) (by simp)).bind (fun p1 w3 h3 => ?_)
    fun e w3 h3 => ⟨h3.2.1, .inr ⟨h3.1, hpage, halign, hshort1 2 (hshort2 1 h3.2.2)⟩⟩
  obtain ⟨hinv3, ht3, hsuf3, -⟩ := h3
  have hlast : w3.tableAt (tablePath virt) = some p1 := ht3
  have hleaf := leaf_eq_zero hinv3.maps hv hlast
  rw [get_bind_run]
  refine Ends.refuse (fun hbad => ⟨hinv3, .inl ⟨rfl, .inr (.inr ?_)⟩⟩) fun hgood => ?_
  · exact fun hc => bne_iff_ne.mp hbad (hleaf.mpr hc)
  · have hfree := hleaf.mp (bne_eq_false_iff_eq.mp hgood)
    refine ⟨⟨hpage, halign, hfree⟩, hinv3.root, hinv3.account.setMem _,
      hsuf3.trans (hsuf2.trans hsuf1), fun o => ?_⟩
    refine hinv3.maps.setLeaf hv hlast (some ⟨phys, _, o⟩) fun pg hpg => ?_
    obtain rfl := some.inj hpg
    exact ⟨hphys halign, contains_user⟩

theorem frameAddr_aligned (hf : FrameAddr f) : f &&& 0xFFF = 0 := and_eq_zero_of_mask hf (by decide)

/-- A frame in hand is cleared. -/
theorem Inv.zero (h : w.Inv root kernel m (f :: spare) others) :
    (w.zero f).Inv root kernel m (f :: spare) others :=
  ⟨h.root, (h.maps.zero h.account.spare_apart.1).1, h.account.setMem _⟩

/-- How an operation ends: the space agrees with the map, which permits the reply. -/
def Serves (root : UInt64) (kernel : ℕ → PageTableEntry) (m : Pages)
    (answers : List (Option UInt64)) (op : SpaceOp) {α : Type} (reply : α → SpaceReply) :
    Except AddressSpaceError α × Vmm → Prop :=
  Ends (fun a w => w.Inv root kernel (m.apply op (.ok (reply a))) [] [] ∧
      m.Permits (Short 4 answers) op (.ok (reply a)))
    fun e w => w.Inv root kernel m [] [] ∧ m.Permits (Short 4 answers) op (.error e)

theorem mapUserPage_ends (h : w.Inv root kernel m [] []) :
    Serves root kernel m w.answers (.mapPage virt flags) .frame (mapUserPage virt flags w) := by
  rw [mapUserPage]
  refine Ends.refuse (fun hbad => ⟨h, .inl hbad⟩) fun hpage => ?_
  refine (allocFrame_ends h).bind (fun f w1 h1 => ?_) fun e w1 h1 => ?_
  · obtain ⟨haddr, hinv1, -, -, hans⟩ := h1
    rw [modify_bind_run]
    have hmap := mapUserFrame_ends hinv1.zero virt (flags ∪ .present ∪ .user) fun _ => haddr
    rcases hrun : mapUserFrame virt f (flags ∪ .present ∪ .user) (w1.zero f) with ⟨e | a, w2⟩
    · have herr : orFree f (mapUserFrame virt f (flags ∪ .present ∪ .user)) (w1.zero f) =
          (.error e, w2.freeFrame f) := by rw [orFree, hrun]
      obtain ⟨hinv2, hcause⟩ := hmap.of_error hrun
      rw [bind_error herr]
      refine ⟨hinv2.freeSpare, ?_⟩
      rcases hcause with ⟨rfl, hbad | hbad | hbad⟩ | ⟨rfl, -, -, hshort⟩
      · exact .inl hbad
      · exact absurd (frameAddr_aligned haddr) hbad
      · exact .inr hbad
      · refine ⟨hpage, ?_⟩
        rw [hans]
        exact Short.succ hshort
    · have hok : orFree f (mapUserFrame virt f (flags ∪ .present ∪ .user)) (w1.zero f) =
          (.ok a, w2) := by rw [orFree, hrun]
      obtain ⟨⟨-, -, hfree⟩, hroot, hacc, -, hmaps⟩ := hmap.of_ok hrun
      rw [bind_ok hok]
      exact ⟨⟨hroot, (hmaps true).of_eq rfl rfl rfl, hacc.own hfree _⟩, hpage, hfree⟩
  · obtain ⟨rfl, hinv1, hshort⟩ := h1
    exact ⟨hinv1, hpage, hshort.mono (by omega)⟩

/-- The page that a change finds, by the lookup that it starts with. -/
theorem Inv.mapping_cases (h : w.Inv root kernel m spare others) (hpage : badPage virt = false) :
    (w.userPageMapping virt = .ok none ∧ m (virt / pageSize) = none) ∨
      ∃ pg, m (virt / pageSize) = some pg ∧
        w.userPageMapping virt = .ok (some (pg.frame, pg.flags)) ∧
        w.tableAt (tablePath virt) = some (w.lastTable virt) := by
  have hv := lt_of_badPage hpage
  have hoffset : pageOffset virt = 0 := by
    simp only [badPage, Bool.or_eq_false_iff, bne_eq_false_iff_eq] at hpage
    exact hpage.2
  rw [h.maps.lookup_eq, Pages.lookup, if_neg (Nat.not_le.mpr hv)]
  rcases hm : m (virt / pageSize) with _ | pg
  · exact .inl ⟨rfl, rfl⟩
  · refine .inr ⟨pg, rfl, ?_, h.maps.lastTable_eq hv (by simp [hm])⟩
    rw [map_some, hoffset]
    simp

theorem unmapUserPage_ends (h : w.Inv root kernel m [] []) :
    Serves root kernel m w.answers (.unmap virt) .found (unmapUserPage virt w) := by
  rw [unmapUserPage]
  refine Ends.refuse (fun hbad => ⟨h, hbad⟩) fun hpage => ?_
  rw [get_bind_run]
  rcases h.mapping_cases hpage with ⟨hmap, hm⟩ | ⟨pg, hm, hmap, htable⟩
  · have hsame : m.apply (.unmap virt) (.ok (.found false)) = m := by
      rw [apply]
      exact update_eq_self_iff.mpr hm.symm
    rw [hmap, ofExcept_ok, pure_bind_run]
    exact ⟨hsame.symm ▸ h, hpage, by rw [hm]; rfl⟩
  · rw [hmap, ofExcept_ok, pure_bind_run]
    have hmaps := h.maps.setLeaf (lt_of_badPage hpage) htable none (by simp)
    have hacc := (h.account.setMem (w.set (w.lastTable virt) (p1Index virt) 0).mem).unmap hm
    obtain ⟨h1, h2, h3⟩ := disown_mem
    have hframe := frame_of_mapping (h.maps.pages _ _ hm).1
    simp only [modify_bind_run, hframe]
    exact ⟨⟨h2.trans h.root, hmaps.of_eq h1 h2 h3, hacc⟩, hpage, by rw [hm]; rfl⟩

theorem contains_user_protectedFlags {present : Bool} :
    (Pages.protectedFlags flags present).contains .user = true := by
  cases present with
  | false => exact contains_union_right _ _
  | true => exact contains_union_left (contains_union_right _ _) _

theorem protectUserPage_ends (h : w.Inv root kernel m [] []) {present : Bool} :
    Serves root kernel m w.answers (.protect virt flags present) .found
      (protectUserPage virt flags present w) := by
  rw [protectUserPage]
  refine Ends.refuse (fun hbad => ⟨h, hbad⟩) fun hpage => ?_
  rw [get_bind_run]
  rcases h.mapping_cases hpage with ⟨hmap, hm⟩ | ⟨pg, hm, hmap, htable⟩
  · have hsame : m.apply (.protect virt flags present) (.ok (.found false)) = m := by
      rw [apply]
      refine update_eq_self_iff.mpr ?_
      rw [updated, hm]
      exact hm.symm
    rw [hmap, ofExcept_ok, pure_bind_run]
    exact ⟨hsame.symm ▸ h, hpage, by rw [hm]; rfl⟩
  · rw [hmap, ofExcept_ok, pure_bind_run]
    have hgood := h.maps.pages _ _ hm
    have hmaps := h.maps.setLeaf (lt_of_badPage hpage) htable
      (some { pg with flags := protectedFlags flags present }) fun pg' hpg' => by
        obtain rfl := some.inj hpg'
        exact ⟨hgood.1, contains_user_protectedFlags⟩
    have hupdate : m.apply (.protect virt flags present) (.ok (.found true)) =
        update m (virt / pageSize)
          (some { pg with flags := protectedFlags flags present }) := by
      rw [apply, updated, hm]
      rfl
    refine ⟨⟨h.root, ?_, ?_⟩, hpage, by rw [hm]; rfl⟩
    · rw [hupdate]
      exact hmaps
    · rw [hupdate]
      exact (h.account.reflag hm _).setMem _

end

/-! ### Runs -/

def exec : SpaceOp → M SpaceReply
  | .mapPage virt flags => do return .frame (← mapUserPage virt flags)
  | .mapFrame virt phys flags => do
    mapUserFrame virt phys flags
    return .mapped
  | .unmap virt => do return .found (← unmapUserPage virt)
  | .protect virt flags present => do return .found (← protectUserPage virt flags present)
  | .lookup virt => fun w => ((w.userPageMapping virt).map .mapping, w)

/-- An operation, and what the allocator answers in the course of it. -/
structure SpaceCall where
  op : SpaceOp
  answers : List (Option UInt64)
  deriving DecidableEq, Repr

def call (w : Vmm) (c : SpaceCall) : Except AddressSpaceError SpaceReply × Vmm :=
  exec c.op { w with answers := c.answers }

/-- One step of a run, of the space and of the map. -/
def step (s : Vmm × Pages) (c : SpaceCall) : Vmm × Pages :=
  ((s.1.call c).2, s.2.apply c.op (s.1.call c).1)

/-- What the calls of a run return. -/
def replies (s : Vmm × Pages) : List SpaceCall → List (Except AddressSpaceError SpaceReply)
  | [] => []
  | c :: calls => (s.1.call c).1 :: replies (step s c) calls

/-- The frames that the allocator answers with are not in use, and the one that is given to
`map_user_frame` is somebody else's and has an address that a machine can have. -/
structure Admits (s : Vmm × Pages) (c : SpaceCall) : Prop where
  fresh : ∀ f, some f ∈ c.answers →
    FrameAddr f ∧ f ∉ s.1.held ∧ ∀ n pg, s.2 n = some pg → pg.frame ≠ f
  once : (c.answers.filterMap id).Nodup
  given : ∀ virt phys flags, c.op = .mapFrame virt phys flags →
    (phys &&& 0xFFF = 0 → FrameAddr phys) ∧ phys ∉ s.1.held ∧ some phys ∉ c.answers

section

variable {root : UInt64} {kernel : ℕ → PageTableEntry} {s : Vmm × Pages} {c : SpaceCall}

theorem call_ends (h : s.1.Inv root kernel s.2 [] []) (hok : Admits s c) :
    Serves root kernel s.2 c.answers c.op id (s.1.call c) := by
  have hready : ∀ others : List UInt64, (∀ f ∈ others, f ∉ s.1.held ∧ some f ∉ c.answers) →
      Inv { s.1 with answers := c.answers } root kernel s.2 [] others := fun others hothers =>
    ⟨h.root, h.maps.of_eq rfl rfl rfl, ⟨h.account.owned, h.account.alone, h.account.given,
      fun f hf => (hothers f hf).1, h.account.balance, h.account.nodup, h.account.stray,
      fun f hf => ⟨(hok.fresh f hf).1, (hok.fresh f hf).2.1, fun hc => (hothers f hc).2 hf,
        (hok.fresh f hf).2.2⟩, hok.once⟩⟩
  have hinv := hready [] (by simp)
  rw [call]
  rcases hop : c.op with ⟨virt, flags⟩ | ⟨virt, phys, flags⟩ | virt | ⟨virt, flags, present⟩ | virt
  · exact (mapUserPage_ends hinv).bind (fun f w' hw' => hw') fun e w' hw' => hw'
  · obtain ⟨haddr, hheld, hans⟩ := hok.given virt phys flags hop
    have hinv' := hready [phys] (by simpa using ⟨hheld, hans⟩)
    refine (mapUserFrame_ends hinv' virt flags haddr).bind (fun _ w' hw' => ?_) fun e w' hw' => ?_
    · obtain ⟨hpermit, hroot, hacc, hsuf, hmaps⟩ := hw'
      have hfree : some phys ∉ w'.answers := fun hc => hans (hsuf.subset hc)
      exact ⟨⟨hroot, hmaps false, hacc.give hpermit.2.2 hfree _⟩, hpermit⟩
    · obtain ⟨hinv1, hcause⟩ := hw'
      have hacc := hinv1.account
      refine ⟨⟨hinv1.root, hinv1.maps, ⟨hacc.owned, hacc.alone, hacc.given, by simp, hacc.balance,
        hacc.nodup, hacc.stray, fun f hf => ?_, hacc.once⟩⟩, ?_⟩
      · obtain ⟨h1, h2, -, h4⟩ := hacc.fresh f hf
        exact ⟨h1, h2, by simp, h4⟩
      · rcases hcause with ⟨rfl, hbad⟩ | ⟨rfl, hpage, halign, hshort⟩
        · exact hbad
        · exact ⟨hpage, halign, hshort.mono (by omega)⟩
  · exact (unmapUserPage_ends hinv).bind (fun f w' hw' => hw') fun e w' hw' => hw'
  · exact (protectUserPage_ends hinv).bind (fun f w' hw' => hw') fun e w' hw' => hw'
  · have hlook := hinv.maps.lookup_eq virt
    rcases hr : userPageMapping { s.1 with answers := c.answers } virt with e | r
    · have hrun : exec (.lookup virt) { s.1 with answers := c.answers } =
          (.error e, { s.1 with answers := c.answers }) := by
        simp only [exec, hr]
        rfl
      rw [hrun]
      exact ⟨hinv, hlook.symm.trans hr⟩
    · have hrun : exec (.lookup virt) { s.1 with answers := c.answers } =
          (.ok (.mapping r), { s.1 with answers := c.answers }) := by
        simp only [exec, hr]
        rfl
      rw [hrun]
      refine ⟨?_, hlook.symm.trans hr⟩
      rw [apply]
      change Inv _ root kernel (update s.2 (virt / pageSize) (s.2 (virt / pageSize))) [] []
      rw [update_eq_self]
      exact hinv

/-- One call keeps the invariant, and its reply is one that the map permits. -/
theorem Inv.step (h : s.1.Inv root kernel s.2 [] []) (hok : Admits s c) :
    (step s c).1.Inv root kernel (step s c).2 [] [] ∧
      s.2.Permits (Short 4 c.answers) c.op (s.1.call c).1 := by
  have hends := call_ends h hok
  rw [Vmm.step]
  rcases hrun : s.1.call c with ⟨e | r, w'⟩
  · exact hends.of_error hrun
  · exact hends.of_ok hrun

/-- A new space, with what the allocator answered for its root. -/
def boot (mem : UInt64 → ℕ → PageTableEntry) (kernelRoot root : UInt64) : Vmm :=
  (create (some kernelRoot) ⟨mem, ⟨0, [], []⟩, [some root], [], []⟩).2

theorem tableAt_boot (mem : UInt64 → ℕ → PageTableEntry) (kernelRoot root : UInt64) (p : List ℕ) :
    (boot mem kernelRoot root).tableAt p = if p = [] then some root else none := by
  cases p with
  | nil => rfl
  | cons i =>
    have hnone : (boot mem kernelRoot root).child root i = none := by
      refine if_pos ?_
      by_cases hi : pml4KernelStart ≤ i
      · exact .inl ⟨rfl, hi⟩
      · refine .inr ?_
        change (if root = root ∧ pml4KernelStart ≤ i ∧ i < 512 then _ else if root = root then 0
          else _) = (0 : UInt64)
        rw [if_neg fun hc => hi hc.2.1, if_pos rfl]
    rw [tableAt, walk]
    change ((boot mem kernelRoot root).child root i).bind _ = _
    rw [hnone]
    rfl

/-- **The invariant holds of a new space.** -/
theorem inv_boot (mem : UInt64 → ℕ → PageTableEntry) {kernelRoot root : UInt64}
    (hne : root ≠ kernelRoot) :
    (boot mem kernelRoot root).Inv root (mem kernelRoot) (fun _ => none) [] [] := by
  have htable := tableAt_boot mem kernelRoot root
  refine ⟨rfl, ⟨fun p q t _ _ hp hq => ?_, fun t => ?_, fun p t i f _ ht hf => ?_, fun virt _ => ?_,
    by simp, fun i hi hi' => ?_⟩, ⟨fun f => ?_, by simp, by simp, by simp, List.Perm.refl _,
    ?_, rfl, fun f hf => ?_, nodup_nil⟩⟩
  · have hp' := (htable p).symm.trans hp
    have hq' := (htable q).symm.trans hq
    split_ifs at hp' hq' with h1 h2
    rw [h1, h2]
  · change t ∈ [root] ↔ _
    rw [mem_singleton]
    constructor
    · rintro rfl
      exact ⟨[], by simp, rfl⟩
    · rintro ⟨p, -, ht⟩
      rw [htable] at ht
      split_ifs at ht
      exact (some.inj ht).symm
  · have hsnoc := tableAt_snoc ht i
    rw [htable, if_neg (by simp), hf] at hsnoc
    cases hsnoc
  · rw [leaf, htable, if_neg (by simp [tablePath])]
    rfl
  · change (if root = root ∧ pml4KernelStart ≤ i ∧ i < 512 then
      (if kernelRoot = root then 0 else mem kernelRoot i) else _) = _
    rw [if_pos ⟨rfl, hi, hi'⟩, if_neg hne.symm]
  · change f ∈ [] ↔ _
    refine iff_of_false not_mem_nil ?_
    rintro ⟨n, pg, hpg, -⟩
    cases hpg
  · exact nodup_singleton root
  · cases hf

/-- Handing back the frames of a list that are all held. -/
theorem foldl_freeFrame {l rest : List UInt64} {w : Vmm} (h : w.held.Perm (l ++ rest)) :
    (l.foldl freeFrame w).held.Perm rest ∧ (l.foldl freeFrame w).stray = w.stray := by
  induction l generalizing w with
  | nil => exact ⟨h, rfl⟩
  | cons f l ih =>
    have hmem : f ∈ w.held := h.mem_iff.mpr (by simp)
    rw [foldl_cons, freeFrame, if_pos hmem]
    exact ih (by simpa using h.erase f)

/-- **What is true of a space and the map** it is to realise. -/
structure Refines (kernel : ℕ → PageTableEntry) (s : Vmm × Pages) : Prop where
  lookups : ∀ virt, s.1.userPageMapping virt = s.2.lookup virt
  replies : ∀ c, Admits s c → s.2.Permits (Short 4 c.answers) c.op (s.1.call c).1
  kernelHalf : ∀ i, pml4KernelStart ≤ i → i < 512 → s.1.mem s.1.space.rootFrame i = kernel i
  tables : ∀ t, t ∈ s.1.space.pageTableFrames ↔ ∃ p : List ℕ, p.length ≤ 3 ∧ s.1.tableAt p = some t
  held : ∀ f, f ∈ s.1.held ↔ f ∈ s.1.space.pageTableFrames ∨ s.2.Owns f
  once : s.1.held.Nodup
  given : ∀ n pg, s.2 n = some pg → pg.owned = false → pg.frame ∉ s.1.held
  stray : s.1.stray = []
  dropped : s.1.drop.held = [] ∧ s.1.drop.stray = []

theorem Inv.refines (h : s.1.Inv root kernel s.2 [] []) : Refines kernel s := by
  have hbalance := h.account.balance
  rw [append_nil] at hbalance
  have huser := foldl_freeFrame (hbalance.trans perm_append_comm)
  have htables := foldl_freeFrame ((append_nil s.1.space.pageTableFrames).symm ▸ huser.1)
  refine ⟨h.maps.lookup_eq, fun c hc => (h.step hc).2, h.maps.kernel, h.maps.listed, fun f => ?_,
    h.account.nodup, h.account.given, h.account.stray, ?_, ?_⟩
  · rw [h.account.mem_held, ← h.account.owned f]
    simp
  · exact htables.1.eq_nil
  · exact htables.2.trans (huser.2.trans h.account.stray)

end

end Vmm

/-- **An address space refines a finite map.** In every run of a new space whose calls come
with frames that are not in use, and that is given frames of others only: the lookups agree
with the map that the operations that succeeded have updated, and the replies are those
that the map permits; the kernel's half of the root is the one it was made with; the frames
held are the tables and the frames of the owned pages, each once, and these are what is
handed back when the space is dropped, and nothing else ever. -/
theorem address_space_refines (mem : UInt64 → ℕ → PageTableEntry) {kernelRoot root : UInt64}
    (hne : root ≠ kernelRoot) {calls : List Vmm.SpaceCall}
    (h : Along Vmm.Admits Vmm.step (Vmm.boot mem kernelRoot root, fun _ => none) calls) :
    Vmm.Refines (mem kernelRoot)
      (calls.foldl Vmm.step (Vmm.boot mem kernelRoot root, fun _ => none)) := by
  have hinv := Along.foldl (P := fun s => s.1.Inv root (mem kernelRoot) s.2 [] [])
    (fun s c hs hok => (hs.step hok).1) h (inv_boot mem hne)
  exact hinv.refines

/-- A page is mapped, another one is given a frame of others, and the first is taken away. -/
def mapAndUnmap : List Vmm.SpaceCall :=
  [⟨.mapPage 0x400000 .writable, [some 0x5000, some 0x2000, some 0x3000, some 0x4000]⟩,
    ⟨.mapFrame 0x401000 0x9000 .noExecute, []⟩, ⟨.protect 0x401000 .writable false, []⟩,
    ⟨.unmap 0x400000, []⟩]

theorem admits_mapAndUnmap : Along Vmm.Admits Vmm.step
    (Vmm.boot (fun _ _ => 7) 0x8000 0x1000, fun _ => none) mapAndUnmap := by
  refine ⟨⟨?_, ?_, ?_⟩, ⟨?_, ?_, ?_⟩, ⟨?_, ?_, ?_⟩, ⟨?_, ?_, ?_⟩, trivial⟩
  · intro f hf
    have hcases : f = 0x5000 ∨ f = 0x2000 ∨ f = 0x3000 ∨ f = 0x4000 := by simpa using hf
    rcases hcases with rfl | rfl | rfl | rfl <;>
      exact ⟨by decide, by decide +kernel, fun n pg hpg => by cases hpg⟩
  · decide +kernel
  · intro virt phys flags hop
    cases hop
  · simp
  · exact nodup_nil
  · intro virt phys flags hop
    cases hop
    decide +kernel
  · simp
  · exact nodup_nil
  · intro virt phys flags hop
    cases hop
  · simp
  · exact nodup_nil
  · intro virt phys flags hop
    cases hop

theorem address_space_refines_mapAndUnmap :
    Vmm.Refines (fun _ => 7)
      (mapAndUnmap.foldl Vmm.step (Vmm.boot (fun _ _ => 7) 0x8000 0x1000, fun _ => none)) :=
  address_space_refines (fun _ _ => 7) (by decide) admits_mapAndUnmap

/-- **A frame of the space itself is given to it**: it is handed back when the second page is
taken away, although the first one still maps it. -/
theorem unmap_frees_mapped_frame :
    let s := [⟨.mapPage 0x400000 .writable, [some 0x5000, some 0x2000, some 0x3000, some 0x4000]⟩,
      ⟨.mapFrame 0x401000 0x5000 .writable, []⟩, ⟨.unmap 0x401000, []⟩].foldl Vmm.step
        (Vmm.boot (fun _ _ => 7) 0x8000 0x1000, fun _ => none)
    s.2.Owns 0x5000 ∧ (s.1.userPageMapping 0x400000).toOption.bind (·.map Prod.fst) = some 0x5000 ∧
      0x5000 ∉ s.1.held ∧ s.1.drop.stray = [] := by
  refine ⟨⟨0x400, ⟨0x5000, ⟨7, by decide⟩, true⟩, ?_, rfl, rfl⟩, ?_, ?_, ?_⟩ <;> decide +kernel

end DunitOS.Memory
