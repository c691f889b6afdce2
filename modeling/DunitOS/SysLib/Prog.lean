import Mathlib.Logic.Basic

/-!
# Programs that stop early and keep their effects

A method behind a mutable reference that is left early by an error leaves the
state as it was at the point of failure: nothing is rolled back. `Prog` is
the monad of such programs. It returns the state in both outcomes, so a proof about
a program has to say what holds on its error exits as well as on its normal one.

Four ways of reasoning are provided. The inversion lemma `Prog.bind_cases`
takes a run of a sequence apart; `Prog.Ends` puts the specifications of the
parts together, with one postcondition for each outcome, and `Prog.Keeps` does so for
a property that no part of a program breaks; and `Prog.Agrees`
compares two runs, from states that are alike.
-/

namespace SysLib

/-- A program on a state `σ` that returns an `α` or stops with an `ε`; the state it
has reached is kept in both cases. -/
def Prog (σ ε α : Type) : Type := σ → Except ε α × σ

namespace Prog

variable {σ ε α β : Type}

instance : Monad (Prog σ ε) where
  pure a := fun s => (.ok a, s)
  bind m f := fun s =>
    match m s with
    | (.ok a, t) => f a t
    | (.error e, t) => (.error e, t)

/-- Read the state. -/
def get : Prog σ ε σ := fun s => (.ok s, s)

/-- Change the state. -/
def modify (f : σ → σ) : Prog σ ε Unit := fun s => (.ok (), f s)

def stop (e : ε) : Prog σ ε α := fun s => (.error e, s)

/-- Run a program if a condition holds. -/
def when (c : Bool) (m : Prog σ ε Unit) : Prog σ ε Unit := if c then m else pure ()

/-- Stop with an error if a condition holds. -/
def refuse (c : Bool) (e : ε) : Prog σ ε Unit := when c (stop e)

/-- A computation that does not touch the state. -/
def ofExcept : Except ε α → Prog σ ε α
  | .ok a => pure a
  | .error e => stop e

/-- Run a program for each entry of a list, in order, until one stops. -/
def forEach (f : β → Prog σ ε Unit) : List β → Prog σ ε Unit
  | [] => pure ()
  | b :: bs => do
    f b
    forEach f bs

/-! ### Running a program -/

@[simp] theorem pure_run (a : α) (s : σ) : (pure a : Prog σ ε α) s = (.ok a, s) := rfl

@[simp] theorem get_run (s : σ) : (get : Prog σ ε σ) s = (.ok s, s) := rfl

@[simp] theorem modify_run (f : σ → σ) (s : σ) : (modify f : Prog σ ε Unit) s = (.ok (), f s) := rfl

@[simp] theorem stop_run (e : ε) (s : σ) : (stop e : Prog σ ε α) s = (.error e, s) := rfl

theorem bind_run (m : Prog σ ε α) (f : α → Prog σ ε β) (s : σ) : (m >>= f) s = match m s with
      | (.ok a, t) => f a t
      | (.error e, t) => (.error e, t) := rfl

/-- Steps that succeed one after the other succeed each. -/
theorem exists_of_bind_eq_ok {x : Except ε α} {f : α → Except ε β} {b : β}
    (h : (x >>= f) = .ok b) : ∃ a, x = .ok a ∧ f a = .ok b := by
  cases x with
  | error => cases h
  | ok a => exact ⟨a, rfl, h⟩

/-- What every round of a loop keeps. -/
theorem foldlM_keeps {P : σ → Prop} {f : σ → α → Except ε σ}
    (hf : ∀ s a t, P s → f s a = .ok t → P t) {l : List α} {s t : σ} (hs : P s)
    (h : l.foldlM f s = .ok t) : P t := by
  induction l generalizing s with
  | nil =>
    cases h
    exact hs
  | cons a _ ih =>
    obtain ⟨u, hfa, h⟩ := exists_of_bind_eq_ok h
    exact ih (hf s a u hs hfa) h

theorem bind_of_eq_ok {x : Except ε α} {a : α} (h : x = .ok a) (f : α → Except ε β) :
    (x >>= f) = f a := by
  rw [h]
  rfl

/-- The second program starts where the first one ended. -/
theorem bind_ok {m : Prog σ ε α} {f : α → Prog σ ε β} {s t : σ} {a : α} (h : m s = (.ok a, t)) :
    (m >>= f) s = f a t := by
  rw [bind_run, h]

/-- The second program does not run when the first one stops. -/
theorem bind_error {m : Prog σ ε α} {f : α → Prog σ ε β} {s t : σ} {e : ε}
    (h : m s = (.error e, t)) : (m >>= f) s = (.error e, t) := by
  rw [bind_run, h]

@[simp] theorem get_bind_run (f : σ → Prog σ ε β) (s : σ) : ((get >>= f) s) = f s s := rfl

@[simp] theorem modify_bind_run (g : σ → σ) (f : Unit → Prog σ ε β) (s : σ) :
    ((modify g >>= f) s) = f () (g s) := rfl

@[simp] theorem pure_bind_run (a : α) (f : α → Prog σ ε β) (s : σ) :
    (((pure a : Prog σ ε α) >>= f) s) = f a s := rfl

theorem refuse_bind_run (c : Bool) (e : ε) (f : Unit → Prog σ ε β) (s : σ) :
    ((refuse c e >>= f) s) = if c then (.error e, s) else f () s := by
  cases c <;> rfl

theorem forEach_append (f : β → Prog σ ε Unit) (l l' : List β) (s : σ) :
    forEach f (l ++ l') s = (forEach f l >>= fun _ => forEach f l') s := by
  induction l generalizing s with
  | nil => rfl
  | cons b l ih =>
    show (f b >>= fun _ => forEach f (l ++ l')) s = ((f b >>= fun _ => forEach f l) >>= _) s
    rcases hb : f b s with ⟨e | _, t⟩
    · rw [bind_error hb, bind_error (bind_error hb)]
    · rw [bind_ok hb, ih, bind_run (f b >>= _), bind_ok hb]
      rfl

@[simp] theorem ofExcept_ok (a : α) : (ofExcept (.ok a) : Prog σ ε α) = pure a := rfl

@[simp] theorem ofExcept_error (e : ε) : (ofExcept (.error e) : Prog σ ε α) = stop e := rfl

/-- **A run of a sequence, taken apart.** -/
theorem bind_cases {m : Prog σ ε α} {f : α → Prog σ ε β} {s t : σ} {r : Except ε β}
    (h : (m >>= f) s = (r, t)) :
    (∃ a u, m s = (.ok a, u) ∧ f a u = (r, t)) ∨ ∃ e, m s = (.error e, t) ∧ r = .error e := by
  rw [bind_run] at h
  rcases hm : m s with ⟨_ | a, u⟩
  · rename_i e
    rw [hm] at h
    obtain ⟨rfl, rfl⟩ := Prod.mk.inj h
    exact Or.inr ⟨e, rfl, rfl⟩
  · rw [hm] at h
    exact Or.inl ⟨a, u, rfl, h⟩

/-- A sequence that returns has run both its parts to their end. -/
theorem bind_eq_ok {m : Prog σ ε α} {f : α → Prog σ ε β} {s t : σ} {b : β}
    (h : (m >>= f) s = (.ok b, t)) : ∃ a u, m s = (.ok a, u) ∧ f a u = (.ok b, t) := by
  rcases bind_cases h with h | ⟨e, -, he⟩
  · exact h
  · exact absurd he (by simp)

/-! ### What holds at the end -/

/-- **What holds at the end of a run**: `Q` if the program returned, `E` if it stopped. -/
def Ends (Q : α → σ → Prop) (E : ε → σ → Prop) : Except ε α × σ → Prop
  | (.ok a, t) => Q a t
  | (.error e, t) => E e t

section

variable {Q Q' : α → σ → Prop} {R : β → σ → Prop} {E E' : ε → σ → Prop}
variable {m : Prog σ ε α} {f : α → Prog σ ε β} {s t : σ}

theorem Ends.of_ok {a : α} (h : Ends Q E (m s)) (hm : m s = (.ok a, t)) : Q a t := by
  rwa [hm] at h

theorem Ends.of_error {e : ε} (h : Ends Q E (m s)) (hm : m s = (.error e, t)) : E e t := by
  rwa [hm] at h

/-- What holds however the program ends holds of the state it leaves. -/
theorem Ends.state {I : σ → Prop} (h : Ends Q E (m s)) (hQ : ∀ a t, Q a t → I t)
    (hE : ∀ e t, E e t → I t) : I (m s).2 := by
  rcases hm : m s with ⟨e | a, t⟩
  · exact hE e t (h.of_error hm)
  · exact hQ a t (h.of_ok hm)

/-- **The rule of consequence.** -/
theorem Ends.imp (h : Ends Q E (m s)) (hQ : ∀ a t, Q a t → Q' a t) (hE : ∀ e t, E e t → E' e t) :
    Ends Q' E' (m s) := by
  rcases hm : m s with ⟨e | a, t⟩
  · exact hE e t (h.of_error hm)
  · exact hQ a t (h.of_ok hm)

/-- What does not depend on the run. -/
theorem Ends.of_forall {C : Prop} (h : C) : Ends (fun _ _ => C) (fun _ _ => True) (m s) := by
  rcases m s with ⟨e | a, t⟩
  · trivial
  · exact h

/-- Two specifications of one program. -/
theorem Ends.and (h : Ends Q E (m s)) (h' : Ends Q' E' (m s)) :
    Ends (fun a t => Q a t ∧ Q' a t) (fun e t => E e t ∧ E' e t) (m s) := by
  rcases hm : m s with ⟨e | a, t⟩
  · exact ⟨h.of_error hm, h'.of_error hm⟩
  · exact ⟨h.of_ok hm, h'.of_ok hm⟩

/-- **The rule of sequence.** -/
theorem Ends.bind (h : Ends Q E' (m s)) (hQ : ∀ a t, Q a t → Ends R E (f a t))
    (hE : ∀ e t, E' e t → E e t) : Ends R E ((m >>= f) s) := by
  rcases hm : m s with ⟨e | a, t⟩
  · rw [bind_error hm]
    exact hE e t (h.of_error hm)
  · rw [bind_ok hm]
    exact hQ a t (h.of_ok hm)

theorem Ends.ite {c : Prop} [Decidable c] {m1 m2 : Prog σ ε α} (h1 : c → Ends Q E (m1 s))
    (h2 : ¬c → Ends Q E (m2 s)) : Ends Q E ((if c then m1 else m2) s) := by
  by_cases hc : c
  · rw [if_pos hc]
    exact h1 hc
  · rw [if_neg hc]
    exact h2 hc

theorem Ends.when {c : Bool} {m : Prog σ ε Unit} {Q : Unit → σ → Prop}
    (h1 : c = true → Ends Q E (m s)) (h2 : c = false → Q () s) : Ends Q E (Prog.when c m s) := by
  cases c with
  | false => exact h2 rfl
  | true => exact h1 rfl

/-- A check that stops the program. -/
theorem Ends.refuse {c : Bool} {e : ε} {f : Unit → Prog σ ε β} (hE : c = true → E e s)
    (h : c = false → Ends R E (f () s)) : Ends R E ((refuse c e >>= f) s) := by
  cases c with
  | false => exact h rfl
  | true => exact hE rfl

/-- A computation that does not touch the state. -/
theorem Ends.ofExcept {r : Except ε α} (hE : ∀ e, r = .error e → E e s)
    (h : ∀ a, r = .ok a → Ends R E (f a s)) : Ends R E ((ofExcept r >>= f) s) := by
  cases r with
  | error e => exact hE e rfl
  | ok a => exact h a rfl

end

/-! ### What a program keeps -/

/-- **A program keeps a property** of the state, however it ends. -/
def Keeps (I : σ → Prop) (m : Prog σ ε α) : Prop := ∀ s, I s → I (m s).2

namespace Keeps

variable {I : σ → Prop} {m : Prog σ ε α} {f : α → Prog σ ε β}

theorem pure (a : α) : Keeps I (Pure.pure a : Prog σ ε α) := fun _ hs => hs

theorem stop (e : ε) : Keeps I (Prog.stop e : Prog σ ε α) := fun _ hs => hs

theorem get : Keeps I (Prog.get : Prog σ ε σ) := fun _ hs => hs

theorem modify {g : σ → σ} (h : ∀ s, I s → I (g s)) : Keeps I (Prog.modify g : Prog σ ε Unit) := h

theorem ofExcept (r : Except ε α) : Keeps I (Prog.ofExcept r : Prog σ ε α) := by
  cases r with
  | error e => exact stop e
  | ok a => exact pure a

/-- What a program has brought about is kept by what follows. -/
theorem after {s : σ} (h : I (m s).2) (hf : ∀ a, Keeps I (f a)) : I ((m >>= f) s).2 := by
  rcases hrun : m s with ⟨e | a, t⟩
  · rw [bind_error hrun]
    rwa [hrun] at h
  · rw [bind_ok hrun]
    rw [hrun] at h
    exact hf a t h

/-- **The rule of sequence.** -/
theorem bind (h : Keeps I m) (hf : ∀ a, Keeps I (f a)) : Keeps I (m >>= f) := fun s hs =>
  after (h s hs) hf

/-- A program that starts with a look at the state. -/
theorem get_bind {f : σ → Prog σ ε β} (hf : ∀ s, I s → I (f s s).2) : Keeps I (Prog.get >>= f) := hf

theorem when {b : Bool} {m : Prog σ ε Unit} (h : Keeps I m) : Keeps I (Prog.when b m) := by
  cases b with
  | false => exact pure ()
  | true => exact h

theorem refuse (b : Bool) (e : ε) : Keeps I (Prog.refuse b e : Prog σ ε Unit) := when (stop e)

/-- What comes after a computation may rely on its result. -/
theorem ofExcept_bind {r : Except ε α} (h : ∀ a, r = .ok a → Keeps I (f a)) :
    Keeps I (Prog.ofExcept r >>= f) := by
  cases r with
  | error => exact fun _ hs => hs
  | ok a => exact h a rfl

/-- What comes after a check may rely on it. -/
theorem refuse_bind {b : Bool} {e : ε} {f : Unit → Prog σ ε β} (h : b = false → Keeps I (f ())) :
    Keeps I (Prog.refuse b e >>= f) := by
  cases b with
  | false => exact h rfl
  | true => exact fun _ hs => hs

theorem ite {c : Prop} [Decidable c] {m1 m2 : Prog σ ε α} (h1 : Keeps I m1) (h2 : Keeps I m2) :
    Keeps I (if c then m1 else m2) := by
  by_cases hc : c
  · rwa [if_pos hc]
  · rwa [if_neg hc]

/-- A loop keeps what its body keeps. -/
theorem forEach {g : β → Prog σ ε Unit} {l : List β} (h : ∀ b ∈ l, Keeps I (g b)) :
    Keeps I (Prog.forEach g l) := by
  induction l with
  | nil => exact pure ()
  | cons b l ih =>
    exact (h b List.mem_cons_self).bind fun _ => ih fun b' hb' => h b' (List.mem_cons_of_mem _ hb')

end Keeps

/-- What holds before a computation that may stop and after it in each state it goes on with. -/
theorem ofExcept_after {P : σ → Prop} {r : Except ε α} {f : α → Prog σ ε β} {s : σ} (h : P s)
    (hf : ∀ a, r = .ok a → P (f a s).2) : P ((ofExcept r >>= f) s).2 := by
  cases r with
  | error => exact h
  | ok a => exact hf a rfl

theorem ite_after {P : σ → Prop} {c : Prop} [Decidable c] {m1 m2 : Prog σ ε α} {s : σ}
    (h1 : c → P (m1 s).2) (h2 : ¬c → P (m2 s).2) : P ((if c then m1 else m2) s).2 := by
  by_cases hc : c
  · rw [if_pos hc]
    exact h1 hc
  · rw [if_neg hc]
    exact h2 hc

/-! ### Two runs -/

/-- **Two runs agree**: they end alike, and in states that are alike. -/
def Agrees (R : σ → σ → Prop) (m m' : Prog σ ε α) (s s' : σ) : Prop :=
  (m s).1 = (m' s').1 ∧ R (m s).2 (m' s').2

namespace Agrees

variable {R : σ → σ → Prop} {m m' : Prog σ ε α} {f f' : α → Prog σ ε β} {s s' : σ}

theorem pure (h : R s s') (a : α) : Agrees R (Pure.pure a : Prog σ ε α) (Pure.pure a) s s' :=
  ⟨rfl, h⟩

theorem modify {g g' : σ → σ} (h : R (g s) (g' s')) :
    Agrees R (modify g : Prog σ ε Unit) (Prog.modify g') s s' := ⟨rfl, h⟩

/-- Both runs are refused, or go on. -/
theorem refuse_bind (h : R s s') {b : Bool} {e : ε} {f f' : Unit → Prog σ ε β}
    (hf : Agrees R (f ()) (f' ()) s s') :
    Agrees R (refuse b e >>= f) (Prog.refuse b e >>= f') s s' := by
  cases b with
  | false => exact hf
  | true => exact ⟨rfl, h⟩

theorem ofExcept_bind (h : R s s') {r : Except ε α} (hf : ∀ a, Agrees R (f a) (f' a) s s') :
    Agrees R (ofExcept r >>= f) (Prog.ofExcept r >>= f') s s' := by
  cases r with
  | error e => exact ⟨rfl, h⟩
  | ok a => exact hf a

/-- **The rule of sequence** for two runs. -/
theorem bind (h : Agrees R m m' s s')
    (hf : ∀ a t t', R t t' → Agrees R (f a) (f' a) t t') : Agrees R (m >>= f) (m' >>= f') s s' := by
  obtain ⟨hr, hR⟩ := h
  rcases hm : m s with ⟨e | a, t⟩ <;> rcases hm' : m' s' with ⟨e' | a', t'⟩ <;>
    rw [hm, hm'] at hr hR <;> cases hr
  · rw [Agrees, bind_error hm, bind_error hm']
    exact ⟨rfl, hR⟩
  · rw [Agrees, bind_ok hm, bind_ok hm']
    exact hf a t t' hR

/-- The two runs go on with what they have read. -/
theorem get_bind {f f' : σ → Prog σ ε β} (h : Agrees R (f s) (f' s') s s') :
    Agrees R (get >>= f) (get >>= f') s s' := h

end Agrees

end Prog

end SysLib
