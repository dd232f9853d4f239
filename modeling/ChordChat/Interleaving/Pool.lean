import Mathlib.Logic.Function.Basic
import Mathlib.Logic.Relation

/-!
# Threads over a shared state

A pool of threads, each at a point of its program, works on one shared state. A
step moves one thread by an atomic action; `α` is what the action learns from
outside. Between steps the environment may change the shared state. Facts about
all threads are proved with assertions that the steps of every thread keep
(`Run.asserts`).
-/

namespace Interleaving
variable {ι σ τ α : Type*}

@[ext] structure Pool (ι σ τ : Type*) where
  shared : σ
  thread : ι → τ

namespace Pool
variable [DecidableEq ι] {step : α → σ → τ → Option (τ × σ)} {env : σ → σ → Prop}
  {allowed : Pool ι σ τ → ι → Prop} {p q : Pool ι σ τ}

def act (step : α → σ → τ → Option (τ × σ)) (p : Pool ι σ τ) (i : ι) (a : α) :
    Option (Pool ι σ τ) :=
  (step a p.shared (p.thread i)).map fun r => ⟨r.2, Function.update p.thread i r.1⟩

/-- One step of a thread that may take it, or one of the environment. -/
def Next (step : α → σ → τ → Option (τ × σ)) (env : σ → σ → Prop)
    (allowed : Pool ι σ τ → ι → Prop) (p q : Pool ι σ τ) : Prop :=
  (∃ i a, allowed p i ∧ p.act step i a = some q) ∨
    ∃ s, env p.shared s ∧ q = { p with shared := s }

abbrev Run (step : α → σ → τ → Option (τ × σ)) (env : σ → σ → Prop)
    (allowed : Pool ι σ τ → ι → Prop) : Pool ι σ τ → Pool ι σ τ → Prop :=
  Relation.ReflTransGen (Next step env allowed)

theorem act_eq_some {i : ι} {a : α} : p.act step i a = some q ↔
    ∃ t s, step a p.shared (p.thread i) = some (t, s) ∧
      q = ⟨s, Function.update p.thread i t⟩ := by
  rw [act, Option.map_eq_some_iff]
  constructor
  · intro h
    obtain ⟨r, hr, hq⟩ := h
    exact ⟨r.1, r.2, hr, hq.symm⟩
  · intro h
    obtain ⟨t, s, hr, hq⟩ := h
    exact ⟨(t, s), hr, hq.symm⟩

/-- `S` holds of the shared state and `A` of each thread. -/
structure Asserts (S : σ → Prop) (A : ι → σ → τ → Prop) (p : Pool ι σ τ) : Prop where
  shared : S p.shared
  thread : ∀ i, A i p.shared (p.thread i)

/-- Assertions that the steps of every thread and of the environment keep. -/
structure Stable (step : α → σ → τ → Option (τ × σ)) (env : σ → σ → Prop)
    (allowed : Pool ι σ τ → ι → Prop) (S : σ → Prop) (A : ι → σ → τ → Prop) : Prop where
  shared : ∀ (p : Pool ι σ τ) (i : ι) (a : α) (t : τ) (s : σ), Asserts S A p → allowed p i →
    step a p.shared (p.thread i) = some (t, s) → S s
  own : ∀ (p : Pool ι σ τ) (i : ι) (a : α) (t : τ) (s : σ), Asserts S A p → allowed p i →
    step a p.shared (p.thread i) = some (t, s) → A i s t
  other : ∀ (p : Pool ι σ τ) (i : ι) (a : α) (t : τ) (s : σ) (j : ι), Asserts S A p →
    allowed p i → step a p.shared (p.thread i) = some (t, s) → j ≠ i → A j s (p.thread j)
  env : ∀ (p : Pool ι σ τ) (s : σ), Asserts S A p → env p.shared s →
    Asserts S A { p with shared := s }

theorem Stable.next {S : σ → Prop} {A : ι → σ → τ → Prop} (hA : Stable step env allowed S A)
    (h : Asserts S A p) (hnext : Next step env allowed p q) : Asserts S A q := by
  obtain ⟨i, a, hallowed, hact⟩ | ⟨s, henv, rfl⟩ := hnext
  · obtain ⟨t, s, hstep, rfl⟩ := act_eq_some.mp hact
    refine ⟨hA.shared p i a t s h hallowed hstep, fun j => ?_⟩
    by_cases hj : j = i
    · subst hj
      dsimp only
      rw [Function.update_self]
      exact hA.own p j a t s h hallowed hstep
    · dsimp only
      rw [Function.update_of_ne hj]
      exact hA.other p i a t s j h hallowed hstep hj
  · exact hA.env p s h henv

theorem Run.asserts {S : σ → Prop} {A : ι → σ → τ → Prop} (hrun : Run step env allowed p q)
    (hA : Stable step env allowed S A) (h : Asserts S A p) : Asserts S A q := by
  induction hrun with
  | refl => exact h
  | tail _ hnext ih => exact hA.next ih hnext

def exec (step : α → σ → τ → Option (τ × σ)) : List (ι × α) → Pool ι σ τ → Option (Pool ι σ τ)
  | [], p => some p
  | m :: schedule, p => (p.act step m.1 m.2).bind (exec step schedule)

theorem exec_run {schedule : List (ι × α)} (h : exec step schedule p = some q) :
    Run step env (fun _ _ => True) p q := by
  induction schedule generalizing p with
  | nil =>
    cases h
    exact .refl
  | cons m schedule ih =>
    obtain ⟨r, hr, hq⟩ := Option.bind_eq_some_iff.mp h
    exact .head (Or.inl ⟨m.1, m.2, trivial, hr⟩) (ih hq)

/-! ### One thread alone -/

/-- Steps of one thread with nothing in between. -/
abbrev Solo (step : α → σ → τ → Option (τ × σ)) : τ × σ → τ × σ → Prop :=
  Relation.ReflTransGen fun x y => ∃ a, step a x.2 x.1 = some y

theorem Solo.run {i : ι} {x y : τ × σ} (h : Solo step x y) (ht : p.thread i = x.1)
    (hs : p.shared = x.2) (hallowed : ∀ q : Pool ι σ τ, allowed q i) :
    Run step env allowed p ⟨y.2, Function.update p.thread i y.1⟩ := by
  induction h with
  | refl =>
    rw [← ht, ← hs, Function.update_eq_self]
  | @tail y z _ hstep ih =>
    obtain ⟨a, ha⟩ := hstep
    refine ih.tail (Or.inl ⟨i, a, hallowed _, act_eq_some.mpr ⟨z.1, z.2, ?_, ?_⟩⟩)
    · dsimp only
      rw [Function.update_self]
      exact ha
    · dsimp only
      rw [Function.update_idem]

end Pool

end Interleaving
