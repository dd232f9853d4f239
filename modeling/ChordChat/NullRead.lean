import ChordChat.Notifying

/-!
# The two reads of `notify` (LocalNode.cpp)

`notify` tests the predecessor for null and reads it again to dereference it; the mutex
is free in between. The second read finds a node as long as nobody writes null while a
thread stands between its two reads (`predecessor_read`). `checkPredecessor` and `join`
write null without asking, and then the waiting thread dereferences it (`null_write_crashes`).
-/

namespace ChordChat
open Interleaving

namespace Host

/-- Outside the threads that write the predecessor: nodes come and go, the finger table changes. -/
def Elsewhere (h h' : Host) : Prop :=
  h'.node.info = h.node.info ∧ h'.node.predecessor = h.node.predecessor

end Host

namespace Point
variable {a : Answer} {h h' : Host} {t t' : Point}

/-- The thread is between its null test and the read that it dereferences. -/
def BetweenReads : Point → Prop
  | .notifyTest _ _ => True
  | _ => False

def ReadsNode (h : Host) (t : Point) : Prop :=
  (t.BetweenReads → h.node.predecessor ≠ none) ∧ t ≠ .crashed

theorem predecessor_eq_none {n : LocalNode} : n.predecessor = none ↔ n.predId = none := by
  rw [LocalNode.predId, Option.map_eq_none_iff]

theorem effect_predecessor {n : LocalNode} (hn : n.predecessor ≠ none)
    (hw : t.write n ≠ some none) : (t.effect n).predecessor ≠ none := by
  rw [ne_eq, predecessor_eq_none, effect_predId]
  cases hwrite : t.write n with
  | none =>
    rw [Option.getD_none, ← predecessor_eq_none]
    exact hn
  | some new =>
    rw [Option.getD_some]
    intro hnew
    rw [hwrite, hnew] at hw
    exact hw rfl

/-- A thread goes on to its second read when the first has found a node. -/
theorem betweenReads_next (hnext : t.next a h = some t') (ht : t'.BetweenReads) :
    t.effect h.node = h.node ∧ h.node.predecessor ≠ none := by
  cases t' with
  | notifyTest c n =>
    obtain rfl := next_came hnext
    refine ⟨rfl, fun hnull => ?_⟩
    simp only [next, hnull] at hnext
    cases hnext
  | _ => exact ht.elim

theorem readsNode_next (ht : ReadsNode h t) (hnext : t.next a h = some t') :
    ReadsNode { h with node := t.effect h.node } t' := by
  refine ⟨fun hbetween => ?_, fun hcrashed => ?_⟩
  · obtain ⟨hsame, hsome⟩ := betweenReads_next hnext hbetween
    rw [hsame]
    exact hsome
  · subst hcrashed
    obtain ⟨c, n, rfl, hnull⟩ := next_came hnext
    exact ht.1 trivial hnull

end Point

section Runs
variable {ι : Type*}

/-- Request handlers about to call `notify`, the periodic thread and the main thread. -/
def Started (p : Pool ι Host Point) : Prop :=
  ∀ i, p.thread i = .checkPredecessor ∨ (∃ n, p.thread i = .notify .handler n) ∨
    ∃ n, p.thread i = .join n

/-- Null is written to the predecessor only when no thread is between its two reads. -/
def WaitsForReads (p : Pool ι Host Point) (i : ι) : Prop :=
  (p.thread i).write p.shared.node = some none → ∀ j, ¬ (p.thread j).BetweenReads

theorem waits_stable : Pool.Stable Point.step Host.Elsewhere (WaitsForReads (ι := ι))
    (fun _ => True) (fun _ => Point.ReadsNode) where
  shared _ _ _ _ _ _ _ _ := trivial
  own p i a t s hp _ hstep := by
    obtain ⟨hnext, rfl⟩ := Point.step_eq_some.mp hstep
    exact Point.readsNode_next (hp.thread i) hnext
  other p i a t s j hp hwaits hstep _ := by
    obtain ⟨_, rfl⟩ := Point.step_eq_some.mp hstep
    refine ⟨fun hbetween => ?_, (hp.thread j).2⟩
    apply Point.effect_predecessor ((hp.thread j).1 hbetween)
    intro hw
    exact hwaits hw j hbetween
  env p s hp henv := by
    refine ⟨trivial, fun j => ⟨fun hbetween => ?_, (hp.thread j).2⟩⟩
    rw [henv.2]
    exact (hp.thread j).1 hbetween

variable [DecidableEq ι] {p q : Pool ι Host Point}

theorem predecessor_read (hp : Started p)
    (hrun : Pool.Run Point.step Host.Elsewhere WaitsForReads p q) (i : ι) :
    (∀ c n, q.thread i = .notifyTest c n → q.shared.node.predecessor ≠ none) ∧
      q.thread i ≠ .crashed := by
  have hstart : Pool.Asserts (fun _ => True) (fun _ => Point.ReadsNode) p := by
    refine ⟨trivial, fun j => ?_⟩
    rcases hp j with ht | ⟨n, ht⟩ | ⟨n, ht⟩
    all_goals
      rw [ht]
      exact ⟨fun hbetween => hbetween.elim, Point.noConfusion⟩
  have hall := (hrun.asserts waits_stable hstart).thread i
  refine ⟨fun c n ht => hall.1 ?_, hall.2⟩
  rw [ht]
  trivial

/-- A null write that does not wait: the next step of the thread between its reads ends the process. -/
theorem null_write_crashes {i j : ι} {a b : Answer} (hij : j ≠ i)
    (hw : (p.thread i).write p.shared.node = some none) (hj : (p.thread j).BetweenReads)
    (hact : p.act Point.step i a = some q) :
    ∃ r, q.act Point.step j b = some r ∧ r.thread j = .crashed := by
  obtain ⟨t, s, hstep, rfl⟩ := Pool.act_eq_some.mp hact
  obtain ⟨_, rfl⟩ := Point.step_eq_some.mp hstep
  have hnull : ((p.thread i).effect p.shared.node).predecessor = none := by
    rw [Point.predecessor_eq_none, Point.effect_predId, hw, Option.getD_some]
  cases ht : p.thread j with
  | notifyTest c n =>
    have hcrash : Point.step b { p.shared with node := (p.thread i).effect p.shared.node }
        (Function.update p.thread i t j) =
          some (.crashed, { p.shared with node := (p.thread i).effect p.shared.node }) := by
      rw [Function.update_of_ne hij, ht]
      exact Point.step_eq_some.mpr ⟨by simp only [Point.next, hnull], rfl⟩
    exact ⟨_, Pool.act_eq_some.mpr ⟨_, _, hcrash, rfl⟩, Function.update_self ..⟩
  | _ =>
    rw [ht] at hj
    exact hj.elim

end Runs

/-! ### Alice joins while she is notified -/

/-- Bob is Alice's predecessor, Carol's request is about to be handled, and Alice joins. -/
def joinAndNotify : Pool (Fin 3) Host Point where
  shared := ⟨(LocalNode.init alice).setPredecessor (some (.remote 1 bob)), fun _ => true⟩
  thread := ![.checkPredecessor, .notify .handler (.remote 2 carol), .join (some (.remote 3 bob))]

def carolTested : Pool (Fin 3) Host Point where
  shared := joinAndNotify.shared
  thread := ![.checkPredecessor, .notifyTest .handler (.remote 2 carol), .join (some (.remote 3 bob))]

def nullWritten : Pool (Fin 3) Host Point where
  shared := ⟨joinAndNotify.shared.node.setPredecessor none, fun _ => true⟩
  thread := ![.checkPredecessor, .notifyTest .handler (.remote 2 carol),
    .joinLookup (some (.remote 3 bob))]

theorem joinAndNotify_started : Started joinAndNotify := by
  intro i
  fin_cases i
  · exact Or.inl rfl
  · exact Or.inr (Or.inl ⟨_, rfl⟩)
  · exact Or.inr (Or.inr ⟨_, rfl⟩)

theorem carolTested_act : joinAndNotify.act Point.step 1 ⟨0, none⟩ = some carolTested :=
  congrArg some (pool_ext_three rfl rfl rfl rfl)

theorem nullWritten_act : carolTested.act Point.step 2 ⟨0, none⟩ = some nullWritten :=
  congrArg some (pool_ext_three rfl rfl rfl rfl)

theorem null_dereferenced : ∃ q, Started joinAndNotify ∧
    Pool.Run Point.step Host.Elsewhere (fun _ _ => True) joinAndNotify q ∧
      q.thread 1 = .notifyTest .handler (.remote 2 carol) ∧ q.shared.node.predecessor = none ∧
      ∃ r, q.act Point.step 1 ⟨0, none⟩ = some r ∧ r.thread 1 = .crashed := by
  refine ⟨nullWritten, joinAndNotify_started, ?_, rfl, rfl, ?_⟩
  · exact .tail (.single (Or.inl ⟨1, _, trivial, carolTested_act⟩))
      (Or.inl ⟨2, _, trivial, nullWritten_act⟩)
  · exact null_write_crashes (p := carolTested) (i := 2) (j := 1) (by decide) rfl trivial
      nullWritten_act

theorem predecessor_read_carol :
    (∀ c n, carolTested.thread 1 = .notifyTest c n → carolTested.shared.node.predecessor ≠ none) ∧
      carolTested.thread 1 ≠ .crashed := by
  refine predecessor_read joinAndNotify_started (.single (Or.inl ⟨1, _, ?_, carolTested_act⟩)) 1
  intro hw
  cases hw

end ChordChat
