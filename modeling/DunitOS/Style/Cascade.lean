import Mathlib.Data.Prod.Lex
import DunitOS.SysLib.TreeMap

/-!
# The cascade of style sheets

A node is styled by a stack of style sheets. `Cascade::resolve` of `dunit-style/src/cascade.rs`
collects the rules that match the node, sorts them by specificity, layer and source order, and lets
each of them overwrite what the ones before it have declared.

`resolve_winner` says what this means for one property: the node has it just if a
matching rule declares it, and the value is the last one that the greatest of these rules gives.
-/

namespace DunitOS.Style

open List

open Std (ExtTreeMap)

variable {V : Type}

/-! ### The code -/

structure Selector where
  element : Option String := none
  id : Option String := none
  classes : List String := []
  states : List String := []

/-- A node: its tag, its name, and the classes and states that are on. -/
structure NodeStyle where
  element : String
  id : Option String := none
  classes : List String := []
  states : List String := []

def Selector.matches (s : Selector) (node : NodeStyle) : Bool :=
  s.element.all (· == node.element) && s.id.all (node.id == some ·) &&
    s.classes.all (node.classes.contains ·) && s.states.all (node.states.contains ·)

/-- Ids, then classes and states, then elements, compared in this order. -/
abbrev Specificity := ℕ ×ₗ ℕ ×ₗ ℕ

/-- The number of classes and states. -/
def Selector.parts (s : Selector) : ℕ := s.classes.length + s.states.length

/-- The specificity of a selector with some number of classes and states. -/
def Selector.weight (s : Selector) (parts : ℕ) : Specificity :=
  toLex (s.id.isSome.toNat, toLex (parts, s.element.isSome.toNat))

structure Declaration (V : Type) where
  property : String
  value : V

structure Rule (V : Type) where
  selector : Selector
  declarations : List (Declaration V)
  order : ℕ

/-- The rules of each style sheet; later layers come later. -/
abbrev Cascade (V : Type) := List (List (Rule V))

/-- A rule that matches, with its layer. -/
structure Matched (V : Type) where
  layer : ℕ
  rule : Rule V

/-- What the rules are sorted by, when the parts of a selector are counted in some way. -/
def Matched.key (count : Selector → ℕ) (m : Matched V) : Specificity ×ₗ ℕ ×ₗ ℕ :=
  toLex (m.rule.selector.weight (count m.rule.selector), toLex (m.layer, m.rule.order))

/-- The rules that match, in the order of the two loops. -/
def Cascade.matched (c : Cascade V) (node : NodeStyle) : List (Matched V) :=
  c.zipIdx.flatMap fun s => (s.1.filter (·.selector.matches node)).map (⟨s.2, ·⟩)

/-- The matching rules, sorted as in the source; the parts are cast to 16 bits. -/
def Cascade.sorted (c : Cascade V) (node : NodeStyle) : List (Matched V) :=
  (c.matched node).mergeSort fun a b => a.key (·.parts % 2 ^ 16) ≤ b.key (·.parts % 2 ^ 16)

/-- The declarations of a rule overwrite what is there. -/
def overlay (props : ExtTreeMap String V) (m : Matched V) : ExtTreeMap String V :=
  m.rule.declarations.foldl (fun props d => props.insert d.property d.value) props

def Cascade.resolve (c : Cascade V) (node : NodeStyle) : ExtTreeMap String V :=
  (c.sorted node).foldl overlay ∅

/-! ### The last writer -/

/-- A loop in which each element overwrites what is seen of the state, or leaves it alone. -/
theorem view_foldl {σ α β : Type} {g : σ → Option β} {step : σ → α → σ} {f : α → Option β}
    (h : ∀ s a, g (step s a) = (f a).or (g s)) (l : List α) (s : σ) :
    g (l.foldl step s) = (l.reverse.findSome? f).or (g s) := by
  induction l generalizing s with
  | nil => rfl
  | cons a l ih =>
    rw [foldl_cons, ih, h, reverse_cons, findSome?_append, Option.or_assoc]
    cases ha : f a <;> simp [ha]

/-- The last value that a rule gives to a property. -/
def Rule.last (r : Rule V) (property : String) : Option V :=
  r.declarations.reverse.findSome? fun d => if d.property = property then some d.value else none

theorem getElem?_overlay {property : String} (props : ExtTreeMap String V) (m : Matched V) :
    (overlay props m)[property]? = (m.rule.last property).or props[property]? := by
  refine view_foldl (g := fun props : ExtTreeMap String V => props[property]?)
    (fun props d => ?_) _ props
  rw [ExtTreeMap.getElem?_insert]
  by_cases hd : d.property = property <;> simp [hd]

/-! ### The winner -/

variable {c : Cascade V} {node : NodeStyle}

theorem mem_sorted {m : Matched V} : m ∈ c.sorted node ↔ m ∈ c.matched node := mem_mergeSort

/-- The rules are laid over one another by specificity, layer and source order. -/
theorem pairwise_sorted (h : ∀ m ∈ c.matched node, m.rule.selector.parts < 2 ^ 16) :
    (c.sorted node).Pairwise fun a b => a.key Selector.parts ≤ b.key Selector.parts := by
  -- Below 2 ^ 16 parts the cast of the source does nothing, so it sorts by the true key.
  have hkey : ∀ m ∈ c.sorted node, m.key (·.parts % 2 ^ 16) = m.key Selector.parts := by
    intro m hm
    rw [Matched.key, Nat.mod_eq_of_lt (h m (mem_sorted.mp hm))]
    rfl
  refine (pairwise_mergeSort (fun a b c => ?_) (fun a b => ?_) (c.matched node)).imp_of_mem
    fun {a b} ha hb hab => ?_
  · simpa using le_trans
  · simpa using le_total (a.key _) (b.key _)
  · rw [← hkey a ha, ← hkey b hb]
    exact of_decide_eq_true hab

theorem getElem?_resolve (property : String) : (c.resolve node)[property]? =
    (c.sorted node).reverse.findSome? (·.rule.last property) := by
  have hview := view_foldl (g := fun props : ExtTreeMap String V => props[property]?)
    (getElem?_overlay) (c.sorted node) ∅
  rwa [ExtTreeMap.getElem?_empty, Option.or_none] at hview

/-- **The winner of the cascade**: a node has a property just if a rule that matches it declares the
property; and the value is the last one that it gets in a rule that is greatest, by specificity,
layer and source order, among the rules that match the node and declare it. -/
theorem resolve_winner (c : Cascade V) (node : NodeStyle)
    (h : ∀ m ∈ c.matched node, m.rule.selector.parts < 2 ^ 16) (property : String) :
    (property ∈ c.resolve node ↔ ∃ m ∈ c.matched node, (m.rule.last property).isSome) ∧
    ∀ v, (c.resolve node)[property]? = some v →
      ∃ m ∈ c.matched node, m.rule.last property = some v ∧ ∀ m' ∈ c.matched node,
        (m'.rule.last property).isSome → m'.key Selector.parts ≤ m.key Selector.parts := by
  constructor
  · rw [ExtTreeMap.mem_iff_isSome_getElem?, getElem?_resolve, findSome?_isSome_iff]
    simp only [mem_reverse, mem_sorted]
  · intro v hv
    rw [getElem?_resolve] at hv
    -- The rules are read from the last one back: `after` are the greater ones, which do not
    -- declare the property, and `m` is the first that does.
    obtain ⟨after, m, before, hsplit, hlast, hnone⟩ := findSome?_eq_some_iff.mp hv
    have hmem : ∀ m' : Matched V, m' ∈ c.matched node ↔ m' ∈ after ++ m :: before := fun m' => by
      rw [← hsplit, mem_reverse, mem_sorted]
    refine ⟨m, (hmem m).mpr (by simp), hlast, fun m' hm' hsome => ?_⟩
    have hpair := pairwise_reverse.mpr (pairwise_sorted h)
    rw [hsplit] at hpair
    rcases mem_append.mp ((hmem m').mp hm') with hafter | hm
    · rw [hnone m' hafter] at hsome
      cases hsome
    · rcases mem_cons.mp hm with rfl | hbefore
      · exact le_rfl
      · exact (pairwise_cons.mp (pairwise_append.mp hpair).2.1).1 m' hbefore

/-- A class against an element, in one sheet. -/
theorem resolve_winner_class : "w" ∈ Cascade.resolve [[⟨{ classes := ["a"] }, [⟨"w", 1⟩], 0⟩,
      ⟨{ element := some "B" }, [⟨"w", 2⟩], 1⟩]] { element := "B", classes := ["a"] } :=
  (resolve_winner _ _ (by decide) "w").1.mpr ⟨⟨0, _⟩, mem_cons_self, rfl⟩

end DunitOS.Style
