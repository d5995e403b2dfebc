/-
  File:      SimpleOS2/Lib/Run.lean
  Subject:   RUNS OF A LABELLED STEP RELATION. Nothing here names the kernel.

  A system is a relation `step : σ → ℓ → σ → Prop` and a set of start states. This file gives the
  states it reaches, the one induction every safety theorem of the development goes through, and
  the two ways a relation is narrowed:

  * `Reach`, `Reach.inv` -- reachable states, and "holds at the start and kept by every step";
  * `Reach.invStep` -- the same with reachability at hand in the step case, so that an invariant
    proved earlier may be used in proving the next one;
  * `Guarded` -- the runs all of whose steps meet a condition on the state BEFORE the step;
  * `Reach.foldlM` -- the run of a list of events; `Reach.mono` -- a narrower relation reaches no more;
  * `Halts` -- a loop written with fuel ends with a result: every large enough fuel gives it;
    `Steady` -- the loop's result does not depend on how much fuel is left over;
  * `forLoop` -- a counted loop, `forLoop_ends`;
  * `Settles` -- a computation that either ends well or, where it may fail, has only results that
    carry the mark of the failure; with the rules for sequence and for `forLoop`.
-/
import Mathlib.Order.Lattice

namespace SimpleOS2.Lib

variable {σ ℓ : Type _}

/-- The states a run of `step` reaches from a start state. -/
inductive Reach (step : σ → ℓ → σ → Prop) (init : σ → Prop) : σ → Prop where
  | start (s : σ) (h : init s) : Reach step init s
  | next (s : σ) (l : ℓ) (s' : σ) (h : Reach step init s) (hs : step s l s') : Reach step init s'

/-- The steps of `step` that are taken only where `ok` holds before them. -/
def Guarded (step : σ → ℓ → σ → Prop) (ok : σ → ℓ → Prop) : σ → ℓ → σ → Prop :=
  fun s l s' => step s l s' ∧ ok s l

section Rules

variable {step : σ → ℓ → σ → Prop} {init : σ → Prop}

/-- **The invariant rule.** -/
theorem Reach.inv {I : σ → Prop} (h0 : ∀ s, init s → I s)
    (hS : ∀ s l s', I s → step s l s' → I s') {s : σ} (h : Reach step init s) : I s := by
  induction h with
  | start s h => exact h0 s h
  | next s l s' _ hs ih => exact hS s l s' ih hs

/-- **The invariant rule with reachability at hand.** -/
theorem Reach.invStep {I : σ → Prop} (h0 : ∀ s, init s → I s)
    (hS : ∀ s l s', Reach step init s → I s → step s l s' → I s') {s : σ}
    (h : Reach step init s) : I s := by
  induction h with
  | start s h => exact h0 s h
  | next s l s' hr hs ih => exact hS s l s' hr ih hs

/-- A list of events, taken one after the other by a function. -/
theorem Reach.foldlM {exec : σ → ℓ → Option σ} {s s' : σ} {es : List ℓ} (h : Reach step init s)
    (hs : ∀ e ∈ es, ∀ s s', exec s e = some s' → step s e s') (hr : es.foldlM exec s = some s') :
    Reach step init s' := by
  induction es generalizing s with
  | nil => cases hr; exact h
  | cons e es ih =>
      obtain ⟨s1, h1, h2⟩ := Option.bind_eq_some_iff.mp hr
      exact ih (.next s e s1 h (hs e List.mem_cons_self s s1 h1))
        (fun e he => hs e (List.mem_cons_of_mem _ he)) h2

/-- A narrower relation with fewer starts reaches no more. -/
theorem Reach.mono {step' : σ → ℓ → σ → Prop} {init' : σ → Prop}
    (hi : ∀ s, init s → init' s) (hs : ∀ s l s', step s l s' → step' s l s') {s : σ}
    (h : Reach step init s) : Reach step' init' s := by
  induction h with
  | start s h => exact .start s (hi s h)
  | next s l s' _ h1 ih => exact .next s l s' ih (hs s l s' h1)

theorem Reach.guarded {ok : σ → ℓ → Prop} {s s' : σ} {l : ℓ} (h : Reach (Guarded step ok) init s)
    (hs : step s l s') (hg : ok s l) : Reach (Guarded step ok) init s' := .next s l s' h ⟨hs, hg⟩

end Rules

/-- The loop `f` ends with the result `r`: all fuel from some amount on gives `r`. -/
def Halts {α : Type _} (f : Nat → Option α) (r : α) : Prop := ∃ N, ∀ n, N ≤ n → f n = some r

theorem Halts.unique {α : Type _} {f : Nat → Option α} {r r' : α} (h : Halts f r)
    (h' : Halts f r') : r = r' := by
  obtain ⟨N, hN⟩ := h
  obtain ⟨N', hN'⟩ := h'
  have h1 := hN (max N N') (le_max_left _ _)
  rw [hN' (max N N') (le_max_right _ _)] at h1
  exact (Option.some.inj h1).symm

/-- Two loops in sequence, the second one about the result of the first. -/
theorem Halts.bind {α β : Type _} {f : Nat → Option α} {g : α → Nat → Option β} {a : α} {b : β}
    (hf : Halts f a) (hg : Halts (g a) b) : Halts (fun n => (f n).bind fun a => g a n) b := by
  obtain ⟨N, hN⟩ := hf
  obtain ⟨N', hN'⟩ := hg
  exact ⟨max N N', fun n hn => Option.bind_eq_some_iff.mpr
    ⟨a, hN n ((le_max_left N N').trans hn), hN' n ((le_max_right N N').trans hn)⟩⟩

theorem Halts.map {α β : Type _} {f : Nat → Option α} {a : α} (hf : Halts f a) (g : α → β) :
    Halts (fun n => (f n).map g) (g a) := by
  obtain ⟨N, hN⟩ := hf
  exact ⟨N, fun n hn => Option.map_eq_some_iff.mpr ⟨a, hN n hn, rfl⟩⟩

theorem Halts.const {α : Type _} (a : α) : Halts (fun _ => some a) a := ⟨0, fun _ _ => rfl⟩

/-- A loop that takes one turn before it is the other one. -/
theorem Halts.succ_iff {α : Type _} {f g : Nat → Option α} (h : ∀ n, f (n + 1) = g n) (r : α) :
    Halts f r ↔ Halts g r := by
  constructor
  · intro hx
    obtain ⟨N, hN⟩ := hx
    exact ⟨N, fun n hn => (h n).symm.trans (hN (n + 1) (Nat.le_succ_of_le hn))⟩
  · intro hx
    obtain ⟨N, hN⟩ := hx
    refine ⟨N + 1, fun n hn => ?_⟩
    obtain ⟨n, rfl⟩ : ∃ k, n = k + 1 := ⟨n - 1, by omega⟩
    exact (h n).trans (hN n (by omega))

/-- More fuel does not change a result once there is one. -/
def Steady {α : Type _} (f : Nat → Option α) : Prop := ∀ n r, f n = some r → f (n + 1) = some r

theorem Steady.after {α : Type _} {f : Nat → Option α} (hf : Steady f) {N n : Nat} {r : α}
    (h : f N = some r) (hn : N ≤ n) : f n = some r := by
  induction hn with
  | refl => exact h
  | step _ ih => exact hf _ r ih

theorem Steady.halts {α : Type _} {f : Nat → Option α} (hf : Steady f) {N : Nat} {r : α}
    (h : f N = some r) : Halts f r := ⟨N, fun _ hn => hf.after h hn⟩

theorem Steady.const {α : Type _} (a : Option α) : Steady fun _ => a := fun _ _ h => h

theorem Steady.map {α β : Type _} {f : Nat → Option α} (hf : Steady f) (g : α → β) :
    Steady fun n => (f n).map g := by
  intro n r h
  obtain ⟨a, h1, h2⟩ := Option.map_eq_some_iff.mp h
  exact Option.map_eq_some_iff.mpr ⟨a, hf n a h1, h2⟩

theorem Steady.bind {α β : Type _} {f : Nat → Option α} {g : α → Nat → Option β} (hf : Steady f)
    (hg : ∀ a, Steady (g a)) : Steady fun n => (f n).bind fun a => g a n := by
  intro n r h
  obtain ⟨a, h1, h2⟩ := Option.bind_eq_some_iff.mp h
  exact Option.bind_eq_some_iff.mpr ⟨a, hf n a h1, hg a n r h2⟩

/-- A loop `for(i = start; i < start + count; i++)` over a state. -/
def forLoop {σ : Type _} (body : Nat → σ → Option σ) : (count start : Nat) → σ → Option σ
  | 0, _, s => some s
  | count + 1, start, s => (body start s).bind fun s => forLoop body count (start + 1) s

theorem Steady.forLoop {σ : Type _} {f : Nat → Nat → σ → Option σ} (hf : ∀ i s, Steady fun n => f n i s)
    (count start : Nat) (s : σ) : Steady fun n => forLoop (f n) count start s := by
  induction count generalizing start s with
  | zero => exact Steady.const (some s)
  | succ count ih => exact (hf start s).bind fun a => ih (start + 1) a

/-- A loop whose turns all end: `J i` holds before the turn `i`. -/
theorem forLoop_ends {σ : Type _} {f : Nat → σ → Option σ} {J : Nat → σ → Prop} {e : Nat}
    (hJ : ∀ i s, i < e → J i s → ∃ s', f i s = some s' ∧ J (i + 1) s') (count start : Nat) (s : σ)
    (hl : start + count = e) (hs : J start s) : ∃ s', forLoop f count start s = some s' ∧ J e s' := by
  induction count generalizing start s with
  | zero => exact ⟨s, rfl, (show start = e from hl) ▸ hs⟩
  | succ count ih =>
      obtain ⟨s', h1, h2⟩ := hJ start s (by omega) hs
      obtain ⟨r, h3, h4⟩ := ih (start + 1) s' (by omega) h2
      refine ⟨r, ?_, h4⟩
      simp only [forLoop, h1, Option.bind_some]
      exact h3

/-- `f` ends with a result in `Q`, or it may fail (`E`) and every result it has with enough fuel is
    `B`. -/
def Settles {α : Type _} (E : Prop) (f : Nat → Option α) (B Q : α → Prop) : Prop :=
  (∃ r, Halts f r ∧ Q r) ∨ (E ∧ ∃ N, ∀ n, N ≤ n → ∀ r, f n = some r → B r)

section Settles

variable {α β : Type _} {E : Prop} {f : Nat → Option α} {B Q : α → Prop}

theorem Settles.mono {E' : Prop} {Q' : α → Prop} (h : Settles E f B Q) (hE : E → E')
    (hQ : ∀ r, Q r → Q' r) : Settles E' f B Q' := by
  rcases h with ⟨r, hr, hq⟩ | ⟨he, hb⟩
  · exact Or.inl ⟨r, hr, hQ r hq⟩
  · exact Or.inr ⟨hE he, hb⟩

/-- A result that is not bad is a good one. -/
theorem Settles.result (h : Settles E f B Q) {r : α} (hr : Halts f r) (hb : ¬ B r) : Q r := by
  rcases h with ⟨r', hr', hq⟩ | ⟨-, N', hall⟩
  · rw [hr.unique hr']
    exact hq
  · obtain ⟨N, hN⟩ := hr
    exact absurd (hall (max N N') (le_max_right _ _) r (hN _ (le_max_left _ _))) hb

/-- Where it cannot fail it ends well. -/
theorem Settles.halts (h : Settles E f B Q) (hE : ¬ E) : ∃ r, Halts f r ∧ Q r := by
  rcases h with h | ⟨he, -⟩
  · exact h
  · exact absurd he hE

/-- Where it ends well exactly if it cannot fail: what a good result has and no bad one. -/
theorem Settles.ends_iff {P : α → Prop} (h : Settles (¬ E) f B Q) (hQ : ∀ r, Q r → E ∧ P r)
    (hB : ∀ r, Halts f r → B r → ¬ P r) : (∃ r, Halts f r ∧ P r) ↔ E := by
  rcases h with ⟨r, hr, hq⟩ | ⟨hE, N, hall⟩
  · exact iff_of_true ⟨r, hr, (hQ r hq).2⟩ (hQ r hq).1
  · refine iff_of_false ?_ hE
    intro hx
    obtain ⟨r, hr, hP⟩ := hx
    obtain ⟨N', hN'⟩ := hr
    exact hB r ⟨N', hN'⟩ (hall (max N N') (le_max_left _ _) r (hN' _ (le_max_right _ _))) hP

/-- A loop that takes one turn before it is the other one. -/
theorem Settles.succ {g : Nat → Option α} (hfg : ∀ n, f (n + 1) = g n) (h : Settles E g B Q) : Settles E f B Q := by
  rcases h with ⟨r, hr, hq⟩ | ⟨he, N, hall⟩
  · exact Or.inl ⟨r, (Halts.succ_iff hfg r).mpr hr, hq⟩
  · refine Or.inr ⟨he, N + 1, fun n hn r hr => ?_⟩
    obtain ⟨n, rfl⟩ : ∃ k, n = k + 1 := ⟨n - 1, by omega⟩
    exact hall n (by omega) r ((hfg n).symm.trans hr)

theorem Settles.map {B' R : β → Prop} (h : Settles E f B Q) {g : α → β} (hg : ∀ a, Q a → R (g a))
    (hb : ∀ a, B a → B' (g a)) : Settles E (fun n => (f n).map g) B' R := by
  rcases h with ⟨a, ha, hq⟩ | ⟨he, N, hall⟩
  · exact Or.inl ⟨g a, ha.map g, hg a hq⟩
  · refine Or.inr ⟨he, N, fun n hn r hr => ?_⟩
    obtain ⟨a, h1, rfl⟩ := Option.map_eq_some_iff.mp hr
    exact hb a (hall n hn a h1)

/-- **Sequence**: what is bad stays bad in the second part. -/
theorem Settles.bind {B' R : β → Prop} {g : α → Nat → Option β} (h : Settles E f B Q)
    (hg : ∀ a, Q a → Settles E (g a) B' R) (hb : ∀ a n r, B a → g a n = some r → B' r) :
    Settles E (fun n => (f n).bind fun a => g a n) B' R := by
  rcases h with ⟨a, ha, hq⟩ | ⟨he, N, hall⟩
  · rcases hg a hq with ⟨r, hr, hR⟩ | ⟨he, N', hall⟩
    · exact Or.inl ⟨r, ha.bind hr, hR⟩
    · obtain ⟨N, hN⟩ := ha
      refine Or.inr ⟨he, max N N', fun n hn r hr => ?_⟩
      obtain ⟨a', h1, h2⟩ := Option.bind_eq_some_iff.mp hr
      rw [hN n ((le_max_left _ _).trans hn)] at h1
      exact hall n ((le_max_right _ _).trans hn) r (Option.some.inj h1 ▸ h2)
  · refine Or.inr ⟨he, N, fun n hn r hr => ?_⟩
    obtain ⟨a, h1, h2⟩ := Option.bind_eq_some_iff.mp hr
    exact hb a n r (hall n hn a h1) h2

/-- What the body of a loop keeps, the loop keeps. -/
theorem forLoop_keeps {B : α → Prop} {g : Nat → α → Option α}
    (hb : ∀ i s r, B s → g i s = some r → B r) {count start : Nat} {s r : α} (hs : B s)
    (h : forLoop g count start s = some r) : B r := by
  induction count generalizing start s with
  | zero => exact Option.some.inj h ▸ hs
  | succ count ih =>
      obtain ⟨s', h1, h2⟩ := Option.bind_eq_some_iff.mp h
      exact ih (hb start s s' hs h1) h2

/-- A loop that ends: `J i` holds before the turn `i`. -/
theorem forLoop_inv {J : Nat → α → Prop} {g : Nat → α → Option α} {e : Nat}
    (hJ : ∀ i s r, i < e → J i s → g i s = some r → J (i + 1) r) {count start : Nat} {s r : α}
    (hl : start + count = e) (hs : J start s) (h : forLoop g count start s = some r) : J e r := by
  induction count generalizing start s with
  | zero =>
      obtain rfl := Option.some.inj h
      exact (show start = e from hl) ▸ hs
  | succ count ih =>
      obtain ⟨s', h1, h2⟩ := Option.bind_eq_some_iff.mp h
      exact ih (by omega) (hJ start s s' (by omega) hs h1) h2

/-- The turn `k` of a loop that ends, and what comes after it. -/
theorem forLoop_turn {g : Nat → α → Option α} {count start k : Nat} {s r : α} (hk : start ≤ k)
    (hk' : k < start + count) (h : forLoop g count start s = some r) :
    ∃ a b, g k a = some b ∧ forLoop g (start + count - (k + 1)) (k + 1) b = some r := by
  induction count generalizing start s with
  | zero => omega
  | succ count ih =>
      obtain ⟨s', h1, h2⟩ := Option.bind_eq_some_iff.mp h
      rcases Nat.eq_or_lt_of_le hk with rfl | hlt
      · exact ⟨s, s', h1, by rwa [show start + (count + 1) - (start + 1) = count by omega]⟩
      · obtain ⟨a, b, h3, h4⟩ := ih hlt (by omega) h2
        exact ⟨a, b, h3, by rwa [show start + (count + 1) - (k + 1) = start + 1 + count - (k + 1) by omega]⟩

/-- **The loop rule**: `J i` holds before the turn `i`. -/
theorem Settles.forLoop {g : Nat → Nat → α → Option α} {J : Nat → α → Prop} {e : Nat}
    (hJ : ∀ i s, i < e → J i s → Settles E (fun n => g n i s) B (J (i + 1)))
    (hb : ∀ n i s r, B s → g n i s = some r → B r) (count start : Nat) (s : α)
    (hl : start + count = e) (hs : J start s) :
    Settles E (fun n => forLoop (g n) count start s) B (J e) := by
  induction count generalizing start s with
  | zero =>
      obtain rfl : start = e := hl
      exact Or.inl ⟨s, Halts.const s, hs⟩
  | succ count ih =>
      refine (hJ start s (by omega) hs).bind (fun a ha => ih (start + 1) a (by omega) ha) ?_
      exact fun a n r ha hr => forLoop_keeps (hb n) ha hr

end Settles

end SimpleOS2.Lib
