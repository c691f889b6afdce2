import Mathlib.Data.List.Basic

/-!
# Monitors

A protocol is told by a machine that reads a history entry by entry and gets stuck when an
entry is out of place. Such a machine is a partial step function; `Leads` says that
it reads a history from one state to another, and a history obeys the protocol if it leads
from the initial state anywhere at all.
-/

namespace SysLib

open List Option

variable {σ α β : Type} {step : σ → α → Option σ} {q q' q'' : σ} {l m : List α}

/-- **The machine reads a history** from one state to another. -/
def Leads (step : σ → α → Option σ) (q : σ) (l : List α) (q' : σ) : Prop :=
  l.foldlM step q = some q'

theorem leads_nil : Leads step q [] q := rfl

theorem leads_cons {a : α} (h : step q a = some q') (hl : Leads step q' l q'') :
    Leads step q (a :: l) q'' := by
  rw [Leads, foldlM_cons, h]
  exact hl

theorem leads_singleton {a : α} (h : step q a = some q') : Leads step q [a] q' :=
  leads_cons h leads_nil

theorem Leads.append (h : Leads step q l q') (hm : Leads step q' m q'') :
    Leads step q (l ++ m) q'' := by
  rw [Leads, foldlM_append, h]
  exact hm

/-- **One more entry**, read back. -/
theorem Leads.of_snoc {a : α} (h : Leads step q (l ++ [a]) q'') :
    ∃ q', Leads step q l q' ∧ step q' a = some q'' := by
  rw [Leads, foldlM_append] at h
  obtain ⟨q', h1, h2⟩ := bind_eq_some_iff.mp h
  refine ⟨q', h1, ?_⟩
  rw [foldlM_cons] at h2
  obtain ⟨q3, h3, h4⟩ := bind_eq_some_iff.mp h2
  rwa [← some.inj h4]

/-- Entries that the machine ignores. -/
theorem leads_of_silent (h : ∀ a ∈ l, step q a = some q) : Leads step q l q := by
  induction l with
  | nil => exact leads_nil
  | cons a l ih =>
    exact leads_cons (h a mem_cons_self) (ih fun b hb => h b (mem_cons_of_mem _ hb))

end SysLib
