import Mathlib.Data.List.Infix

/-!
# Trees of tables

A radix tree in memory is a graph of tables: `next t i` is the table that entry `i` of the
table `t` points to. `walk` follows a path of indices from a table. The tables below
a root form a tree to a depth if each of them is reached on one path only
(`Treelike`); a write into one table is then seen on the paths through it alone
(`Treelike.walk_setNext`), and a new table that is hung into an empty entry is seen
on one path more (`Treelike.walk_grow`).
-/

namespace SysLib

open List Option

variable {α : Type}

/-- The table at the end of a path. -/
def walk (next : α → ℕ → Option α) : α → List ℕ → Option α
  | t, [] => some t
  | t, i :: p => (next t i).bind fun u => walk next u p

theorem walk_append (next : α → ℕ → Option α) (t : α) (p q : List ℕ) :
    walk next t (p ++ q) = (walk next t p).bind fun u => walk next u q := by
  induction p generalizing t with
  | nil => rfl
  | cons i p ih =>
    rw [cons_append, walk, walk, bind_assoc]
    exact congrArg _ (funext ih)

theorem walk_snoc {next : α → ℕ → Option α} {r t : α} {p : List ℕ} (h : walk next r p = some t)
    (i : ℕ) : walk next r (p ++ [i]) = next t i := by
  rw [walk_append, h, bind_some, walk]
  exact bind_fun_some _

/-- **The frame rule**: tables that are not on the path do not matter. -/
theorem walk_congr {next next' : α → ℕ → Option α} {r : α} {p : List ℕ}
    (h : ∀ q i t, q ++ [i] <+: p → walk next r q = some t → next' t i = next t i) :
    walk next' r p = walk next r p := by
  induction p generalizing r with
  | nil => rfl
  | cons j p ih =>
    rw [walk, walk, h [] j r ⟨p, rfl⟩ rfl]
    rcases hj : next r j with _ | u
    · rfl
    · refine ih fun q i t hq ht => h (j :: q) i t ?_ ?_
      · exact (prefix_cons_inj j).mpr hq
      · rw [walk, hj]
        exact ht

/-- One entry of one table is changed. -/
def setNext [DecidableEq α] (next : α → ℕ → Option α) (t : α) (i : ℕ) (v : Option α) :
    α → ℕ → Option α :=
  fun u j => if u = t ∧ j = i then v else next u j

/-- **The tables form a tree** to a depth: there is one path to each. -/
def Treelike (next : α → ℕ → Option α) (r : α) (n : ℕ) : Prop :=
  ∀ p q t, p.length ≤ n → q.length ≤ n → walk next r p = some t → walk next r q = some t → p = q

namespace Treelike

variable [DecidableEq α] {next : α → ℕ → Option α} {r t u : α} {n i : ℕ} {p q : List ℕ}

/-- A write is not seen on the paths that do not go through the entry. -/
theorem walk_setNext (h : Treelike next r n) (ht : walk next r q = some t) (hq : q.length ≤ n)
    (hp : p.length ≤ n + 1) (hpre : ¬q ++ [i] <+: p) (v : Option α) :
    walk (setNext next t i v) r p = walk next r p := by
  refine walk_congr fun q' j t' hq' ht' => if_neg ?_
  rintro ⟨rfl, rfl⟩
  have hlen := hq'.length_le
  rw [length_append, length_singleton] at hlen
  have heq := h q' q t' (by omega) hq ht' ht
  exact hpre (heq ▸ hq')

/-- **A new table** in an empty entry is seen on the path to it and nowhere else. -/
theorem walk_grow (h : Treelike next r n) (ht : walk next r q = some t) (hq : q.length ≤ n)
    (hnone : next t i = none) (hu : ∀ j, next u j = none) (hne : u ≠ t) (hp : p.length ≤ n + 1) :
    walk (setNext next t i (some u)) r p = if p = q ++ [i] then some u else walk next r p := by
  by_cases hpre : q ++ [i] <+: p
  · obtain ⟨rest, rfl⟩ := hpre
    have hself : walk (setNext next t i (some u)) r q = some t := by
      rw [h.walk_setNext ht hq (by omega) fun hpre => ?_, ht]
      have hlen := hpre.length_le
      rw [length_append, length_singleton] at hlen
      omega
    have hnew : walk (setNext next t i (some u)) r (q ++ [i]) = some u := by
      rw [walk_snoc hself]
      exact if_pos ⟨rfl, rfl⟩
    rw [walk_append, hnew, walk_append next, walk_snoc ht, hnone]
    cases rest with
    | nil => simp [walk]
    | cons j rest =>
      have hj : setNext next t i (some u) u j = none := by
        rw [setNext, if_neg fun hc => hne hc.1, hu]
      rw [if_neg (by simp), bind_some, walk, hj]
      rfl
  · have hne' : p ≠ q ++ [i] := fun hc => hpre (hc ▸ prefix_rfl)
    rw [h.walk_setNext ht hq hp hpre, if_neg hne']

/-- The tables still form a tree. -/
theorem grow (h : Treelike next r n) (ht : walk next r q = some t) (hq : q.length < n)
    (hnone : next t i = none) (hu : ∀ j, next u j = none)
    (hfresh : ∀ p, p.length ≤ n → walk next r p ≠ some u) :
    Treelike (setNext next t i (some u)) r n := by
  intro p p' w hp hp' hw hw'
  have hne : u ≠ t := fun hut => hfresh q hq.le (hut ▸ ht)
  rw [h.walk_grow ht hq.le hnone hu hne (by omega)] at hw hw'
  split_ifs at hw hw' with h1 h2 h2
  · rw [h1, h2]
  · exact absurd (hw'.trans hw.symm) (hfresh p' hp')
  · exact absurd (hw.trans hw'.symm) (hfresh p hp)
  · exact h p p' w hp hp' hw hw'

omit [DecidableEq α] in
/-- The tree depends on the tables in it only. -/
theorem congr {next' : α → ℕ → Option α} (h : Treelike next r n)
    (hsame : ∀ p, p.length ≤ n → walk next' r p = walk next r p) : Treelike next' r n :=
  fun p q w hp hq hw hw' => h p q w hp hq (hsame p hp ▸ hw) (hsame q hq ▸ hw')

end Treelike

end SysLib
