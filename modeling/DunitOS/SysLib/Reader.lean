import DunitOS.SysLib.Prog
import Mathlib.Data.List.Basic

/-!
# Programs that read a format

A program that consumes an input, part by part, reads a *format*: a relation between
values and the words that spell them. `Reads` says that it does so exactly. It
returns a value only if the input starts with a word of the value, which is consumed; and
when the input starts with such a word, the value is returned. A program put together from
readers reads the format put together from theirs (`Reads.bind`), so that a
reader of a record is correct once those of its fields are.

The input is whatever the state leaves to be read; a condition on the state, such as that
a position lies inside its buffer, is kept along the way.
-/

namespace SysLib.Prog

variable {σ ε α β γ : Type}

/-- **A program reads a format**: it returns exactly the values whose words the input starts
with, and consumes the word. -/
structure Reads (I : σ → Prop) (rest : σ → List γ) (m : Prog σ ε α) (F : α → List γ → Prop) :
    Prop where
  sound : ∀ {s t a}, I s → m s = (.ok a, t) → ∃ w, F a w ∧ rest s = w ++ rest t ∧ I t
  complete : ∀ {s a w r}, I s → F a w → rest s = w ++ r →
    ∃ t, m s = (.ok a, t) ∧ rest t = r ∧ I t

namespace Reads

variable {I : σ → Prop} {rest : σ → List γ} {m : Prog σ ε α} {f : α → Prog σ ε β}
  {F F' : α → List γ → Prop} {G : α → β → List γ → Prop}

theorem congr (h : Reads I rest m F) (hF : ∀ a w, F a w ↔ F' a w) : Reads I rest m F' := by
  have : F = F' := funext fun a => funext fun w => propext (hF a w)
  exact this ▸ h

/-- Nothing is read. -/
theorem pure (a : α) : Reads I rest (Pure.pure a : Prog σ ε α) fun a' w => a' = a ∧ w = [] where
  sound hI h := by
    cases h
    exact ⟨[], ⟨rfl, rfl⟩, rfl, hI⟩
  complete hI hF hr := by
    obtain ⟨rfl, rfl⟩ := hF
    exact ⟨_, rfl, hr, hI⟩

/-- **The rule of sequence**: first the one word, then the other. -/
theorem bind (h : Reads I rest m F) (hf : ∀ a, Reads I rest (f a) (G a)) :
    Reads I rest (m >>= f) fun b w => ∃ a u v, w = u ++ v ∧ F a u ∧ G a b v where
  sound hI hrun := by
    obtain ⟨a, s', hm, hfa⟩ := bind_eq_ok hrun
    obtain ⟨u, hu, hs, hI'⟩ := h.sound hI hm
    obtain ⟨v, hv, hs', hI''⟩ := (hf a).sound hI' hfa
    exact ⟨u ++ v, ⟨a, u, v, rfl, hu, hv⟩, by rw [hs, hs', List.append_assoc], hI''⟩
  complete hI hF hr := by
    obtain ⟨a, u, v, rfl, hu, hv⟩ := hF
    rw [List.append_assoc] at hr
    obtain ⟨s', hm, hr', hI'⟩ := h.complete hI hu hr
    obtain ⟨t, hfa, ht, hI''⟩ := (hf a).complete hI' hv hr'
    exact ⟨t, (bind_ok hm).trans hfa, ht, hI''⟩

/-- A program that stops reads no format at all. -/
theorem stop (e : ε) : Reads I rest (stop e : Prog σ ε α) fun _ _ => False where
  sound _ h := by cases h
  complete _ hF := hF.elim

/-- A check of what has been read. -/
theorem refuse (b : Bool) (e : ε) :
    Reads I rest (Prog.refuse b e) fun _ w => b = false ∧ w = [] := by
  cases b with
  | false => exact (pure ()).congr fun _ _ => by simp
  | true => exact (stop e).congr fun _ _ => by simp

end Reads

end SysLib.Prog
