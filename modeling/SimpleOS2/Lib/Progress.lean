/-
  File:      SimpleOS2/Lib/Progress.lean
  Subject:   WHAT COMES TO AN END. Nothing here names the kernel.

  * `acc_of_acyclic` -- from a point that reaches finitely many points and no cycle, every way ends;
  * `cycle_next` -- in a deterministic relation, what follows a point of a cycle is on a cycle too;
  * `Behaviour` -- a run without an end; `LeadsTo` -- what holds now or later in it, with the rules `of_unless` for
    one helpful step and `of_measure` for a number that gets smaller.
  * `Behaviour.idling` -- the run that takes a list of events and then does nothing; `idling_after`;
  * `Ended` -- nothing can happen any more; `Reach.ended`, `Behaviour.impossible` -- where every step makes a number
    smaller, there is such an end and no run without one.
-/
import Mathlib.Data.List.GetD
import Mathlib.Data.Set.Finite.Basic
import Mathlib.Logic.Relation
import Mathlib.Order.WellFounded
import SimpleOS2.Lib.Run

namespace SimpleOS2.Lib

open Relation

variable {α : Type _} {R : α → α → Prop} {a b : α}

/-! ## 1. Cycles -/

/-- **No cycle, no infinite way**, where only finitely many points are reached. -/
theorem acc_of_acyclic (hfin : {b | ReflTransGen R a b}.Finite)
    (h : ∀ b, ReflTransGen R a b → ¬ TransGen R b b) : Acc (flip R) a := by
  have : Finite {b // ReflTransGen R a b} := hfin.to_subtype
  -- on the points reached, "comes later" is transitive and irreflexive
  let later : {b // ReflTransGen R a b} → {b // ReflTransGen R a b} → Prop := fun x y => TransGen R y.1 x.1
  have htrans : IsTrans _ later := ⟨fun x y z hxy hyz => TransGen.trans hyz hxy⟩
  have hirrefl : Std.Irrefl later := ⟨fun x => h x.1 x.2⟩
  have hwf : WellFounded later := Finite.wellFounded_of_trans_of_irrefl later
  have hacc : ∀ x : {b // ReflTransGen R a b}, Acc (flip R) x.1 := fun x => by
    induction x using hwf.induction with
    | h x ih => exact ⟨_, fun y hy => ih ⟨y, x.2.tail hy⟩ (TransGen.single hy)⟩
  exact hacc ⟨a, ReflTransGen.refl⟩

/-- What follows a point of a cycle. -/
theorem cycle_next (hdet : ∀ {x y z}, R x y → R x z → y = z) (hab : R a b) (h : TransGen R a a) : TransGen R b b := by
  obtain ⟨c, hac, hca⟩ := TransGen.head'_iff.mp h
  obtain rfl := hdet hab hac
  exact TransGen.tail' hca hab

/-! ## 2. Runs without an end -/

section Behaviours

variable {σ ℓ : Type _} {step : σ → ℓ → σ → Prop}

/-- A run that takes a step at every time. -/
structure Behaviour (step : σ → ℓ → σ → Prop) where
  state : Nat → σ
  event : Nat → ℓ
  step : ∀ n, step (state n) (event n) (state (n + 1))

namespace Behaviour

/-- Where `P` holds, `Q` holds then or later. -/
def LeadsTo (r : Behaviour step) (P Q : σ → Prop) : Prop := ∀ n, P (r.state n) → ∃ m, n ≤ m ∧ Q (r.state m)

variable {r : Behaviour step} {init P Q R : σ → Prop}

theorem reach (h : Reach step init (r.state 0)) (n : Nat) : Reach step init (r.state n) := by
  induction n with
  | zero => exact h
  | succ n ih => exact .next _ _ _ ih (r.step n)

/-- What is kept by every step holds from then on. -/
theorem stable (hP : ∀ n, P (r.state n) → P (r.state (n + 1))) {m n : Nat} (hmn : m ≤ n) (h : P (r.state m)) :
    P (r.state n) := by
  induction hmn with
  | refl => exact h
  | step _ ih => exact hP _ ih

theorem LeadsTo.trans (h : r.LeadsTo P Q) (h' : r.LeadsTo Q R) : r.LeadsTo P R := by
  intro n hn
  obtain ⟨m, hnm, hm⟩ := h n hn
  obtain ⟨k, hmk, hk⟩ := h' m hm
  exact ⟨k, Nat.le_trans hnm hmk, hk⟩

/-- `P` stays until `Q` comes. -/
theorem until_or (hkeep : ∀ n, P (r.state n) → P (r.state (n + 1)) ∨ Q (r.state (n + 1))) {m n : Nat} (hmn : m ≤ n)
    (h : P (r.state m)) : P (r.state n) ∨ ∃ k, m ≤ k ∧ k ≤ n ∧ Q (r.state k) := by
  induction hmn with
  | refl => exact Or.inl h
  | @step n hmn ih =>
      rcases ih with hP | ⟨k, h1, h2, hQ⟩
      · exact (hkeep n hP).imp_right fun hQ => ⟨n + 1, Nat.le_succ_of_le hmn, Nat.le_refl _, hQ⟩
      · exact Or.inr ⟨k, h1, Nat.le_succ_of_le h2, hQ⟩

/-- **One helpful step**: `P` stays until `Q` comes, and sooner or later there is a step that brings `Q`. -/
theorem LeadsTo.of_unless (hkeep : ∀ n, P (r.state n) → P (r.state (n + 1)) ∨ Q (r.state (n + 1)))
    (hhelp : ∀ n, P (r.state n) → ∃ m, n ≤ m ∧ (P (r.state m) → Q (r.state (m + 1)))) : r.LeadsTo P Q := by
  intro n hn
  obtain ⟨m, hnm, hstep⟩ := hhelp n hn
  rcases until_or hkeep hnm hn with hP | ⟨k, hnk, -, hQ⟩
  · exact ⟨m + 1, Nat.le_succ_of_le hnm, hstep hP⟩
  · exact ⟨k, hnk, hQ⟩

/-- **A number that gets smaller**: again and again `P` holds with less of it, or `Q` has come. -/
theorem LeadsTo.of_measure (f : σ → Nat)
    (h : ∀ n, P (r.state n) → ∃ m, n ≤ m ∧ (Q (r.state m) ∨ P (r.state m) ∧ f (r.state m) < f (r.state n))) :
    r.LeadsTo P Q := by
  intro n hn
  induction hd : f (r.state n) using Nat.strong_induction_on generalizing n with
  | _ d ih =>
      obtain ⟨m, hnm, hQ | ⟨hP, hlt⟩⟩ := h n hn
      · exact ⟨m, hnm, hQ⟩
      · obtain ⟨k, hmk, hk⟩ := ih _ (hd ▸ hlt) m hP rfl
        exact ⟨k, Nat.le_trans hnm hmk, hk⟩

end Behaviour

end Behaviours

/-! ## 3. A list of events and nothing behind it -/

section Idling

variable {σ ℓ : Type _} (exec : σ → ℓ → Option σ) (idle : ℓ) (es : List ℓ) (s : σ)

/-- The states of the run that takes the events of the list and then idles. -/
def idlingState : Nat → σ
  | 0 => s
  | k + 1 => (exec (idlingState k) (es.getD k idle)).getD (idlingState k)

variable {exec idle es s}

theorem idling_step (hes : ∀ k, k < es.length → (exec (idlingState exec idle es s k) (es.getD k idle)).isSome = true)
    (hidle : ∀ s, (exec s idle).isSome = true) (k : Nat) :
    exec (idlingState exec idle es s k) (es.getD k idle) = some (idlingState exec idle es s (k + 1)) := by
  have hsome : (exec (idlingState exec idle es s k) (es.getD k idle)).isSome = true := by
    rcases Nat.lt_or_ge k es.length with hk | hk
    · exact hes k hk
    · rw [List.getD_eq_default es idle hk]
      exact hidle _
  obtain ⟨a, ha⟩ := Option.isSome_iff_exists.mp hsome
  rw [idlingState, ha]
  rfl

variable (exec idle es s) in
/-- **A list of events and nothing behind it**, as a run without an end. -/
def Behaviour.idling (hes : ∀ k, k < es.length → (exec (idlingState exec idle es s k) (es.getD k idle)).isSome = true)
    (hidle : ∀ s, (exec s idle).isSome = true) : Behaviour fun s e s' => exec s e = some s' where
  state := idlingState exec idle es s
  event k := es.getD k idle
  step := idling_step hes hidle

/-- What holds behind the list and is kept by idling. -/
theorem idling_after (P : σ → Prop) (hP : ∀ s s', P s → exec s idle = some s' → P s')
    (h : P (idlingState exec idle es s es.length)) {k : Nat} (hk : es.length ≤ k) :
    P (idlingState exec idle es s k) := by
  induction hk with
  | refl => exact h
  | @step k hk ih =>
      rw [idlingState, List.getD_eq_default es idle hk]
      cases hx : exec (idlingState exec idle es s k) idle with
      | none => exact ih
      | some a => exact hP _ a ih hx

end Idling

/-! ## 4. A number that every step makes smaller -/

section Bounded

variable {σ ℓ : Type _} {step : σ → ℓ → σ → Prop} {init : σ → Prop} {s : σ}

/-- Nothing can happen any more. -/
def Ended (step : σ → ℓ → σ → Prop) (s : σ) : Prop := ∀ l s', ¬ step s l s'

/-- **Every run can be taken to its end.** -/
theorem Reach.ended (f : σ → Nat) (hf : ∀ s l s', Reach step init s → step s l s' → f s' < f s)
    (h : Reach step init s) : ∃ s', Reach step init s' ∧ Ended step s' := by
  induction hd : f s using Nat.strong_induction_on generalizing s with
  | _ d ih =>
      by_cases hend : Ended step s
      · exact ⟨s, h, hend⟩
      · obtain ⟨l, hl⟩ := not_forall.mp hend
        obtain ⟨s', hs'⟩ := not_forall.mp hl
        have hs := not_not.mp hs'
        exact ih _ (hd ▸ hf s l s' h hs) (.next s l s' h hs) rfl

/-- **No run goes on for ever.** -/
theorem Behaviour.impossible (f : σ → Nat) (hf : ∀ s l s', Reach step init s → step s l s' → f s' < f s)
    (r : Behaviour step) : ¬ init (r.state 0) := by
  intro h0
  have hr : ∀ n, Reach step init (r.state n) := Behaviour.reach (.start _ h0)
  have hsum : ∀ n, f (r.state n) + n ≤ f (r.state 0) := by
    intro n
    induction n with
    | zero => exact Nat.le_refl _
    | succ n ih =>
        have := hf _ _ _ (hr n) (r.step n)
        omega
  have := hsum (f (r.state 0) + 1)
  omega

end Bounded

end SimpleOS2.Lib
