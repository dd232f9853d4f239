import ChordChat.Repair
import ChordChat.Threads
import Mathlib.Data.Fin.VecNotation
import Mathlib.Tactic.FinCases

/-!
# Concurrent notifications

`notify` and `checkPredecessor` read the predecessor, decide and then write it, each
under the mutex but not together. If nobody writes between a thread's last read and
its write (`Undisturbed`), no live predecessor is lost and the closest candidate
stays (`undisturbed_lawful`).
-/

namespace ChordChat
open Clockwise Interleaving

namespace Host

/-- Between steps nodes fail, for good, and lookups go through the finger table. -/
def Fails (h h' : Host) : Prop :=
  h'.node.info = h.node.info ∧ h'.node.predecessor = h.node.predecessor ∧
    ∀ x, h'.alive x = true → h.alive x = true

/-- Writing this to the predecessor loses no live node. -/
def Lawful (h : Host) : Option ID → Prop
  | some c => ∀ v, h.node.predId = some v → h.live v = false ∨ InArc v c h.node.getId
  | none => ∃ v, h.node.predId = some v ∧ h.live v = false

/-- The predecessor is at least as close to the node as `c`. -/
def Covers (h : Host) (c : ID) : Prop :=
  ∃ x, h.node.predId = some x ∧ (c = x ∨ InArc c x h.node.getId)

theorem Fails.getId {h h' : Host} (hf : h.Fails h') : h'.node.getId = h.node.getId :=
  congrArg INode.id hf.1

theorem Fails.predId {h h' : Host} (hf : h.Fails h') : h'.node.predId = h.node.predId := by
  rw [LocalNode.predId, LocalNode.predId, hf.2.1]
  refine congrArg (fun f => Option.map f h.node.predecessor) (funext fun p => ?_)
  rw [LocalNode.idOf, hf.1, LocalNode.idOf]

theorem Fails.live {h h' : Host} (hf : h.Fails h') {x : ID} (hx : h'.live x = true) :
    h.live x = true := by
  rw [Host.live, Bool.or_eq_true, decide_eq_true_eq] at hx ⊢
  rw [hf.getId] at hx
  exact hx.imp_right (hf.2.2 x)

structure Respects (h h' : Host) : Prop where
  getId : h'.node.getId = h.node.getId
  live : ∀ x, h'.live x = true → h.live x = true
  pred : h'.node.predId = h.node.predId ∨ h.Lawful h'.node.predId

theorem Fails.respects {h h' : Host} (hf : h.Fails h') : h.Respects h' :=
  ⟨hf.getId, fun _ hx => hf.live hx, Or.inl hf.predId⟩

theorem Respects.covers {h h' : Host} {c : ID} (hr : h.Respects h')
    (hlive : ∀ x, h.node.predId = some x → h.live x = true) (hc : h.Covers c) : h'.Covers c := by
  obtain ⟨x, hx, hcx⟩ := hc
  cases hr.pred with
  | inl hsame => exact ⟨x, hsame.trans hx, hr.getId ▸ hcx⟩
  | inr hlaw =>
    cases hp : h'.node.predId with
    | none =>
      rw [hp] at hlaw
      obtain ⟨v, hv, hdead⟩ := hlaw
      rw [hlive v hv] at hdead
      cases hdead
    | some y =>
      rw [hp] at hlaw
      have hxy : InArc x y h.node.getId := by
        rcases hlaw x hx with hdead | harc
        · rw [hlive x hx] at hdead
          cases hdead
        · exact harc
      refine ⟨y, hp, Or.inr ?_⟩
      rw [hr.getId]
      rcases hcx with rfl | hcx
      · exact hxy
      · exact inArc_trans hcx hxy

end Host

namespace Point
variable {K : ID → Prop} {own : ID} {t₀ t t' : Point} {h h' : Host}

/-- The predecessor is still what the thread has read. -/
def Undisturbed (h : Host) : Point → Prop
  | .notifyTest _ _ => h.node.predecessor ≠ none
  | .notifySet _ _ read => h.node.predId = read
  | .checkSet n => h.node.predId = some (h.node.idOf n)
  | _ => True

/-- A thread that started at `t₀` notifies node `own` of `n`; `K` are the nodes that may
become the predecessor. -/
def Notifies (K : ID → Prop) (own : ID) (t₀ : Point) : Caller → Node → Prop
  | .handler, n => t₀ = .notify .handler n ∧ K (n.idAt own)
  | .periodic, n => n = .self

/-- What a thread carries along from its reads. -/
def Knows (K : ID → Prop) (own : ID) (t₀ : Point) (h : Host) : Point → Prop
  | .notify c n | .notifyTest c n => Notifies K own t₀ c n
  | .notifySet c n read =>
    Notifies K own t₀ c n ∧ ∀ v, read = some v → InArc v (n.idAt own) own
  | .checkSet n => h.live (n.idAt own) = false
  | .ended => ∃ n, t₀ = .notify .handler n ∧ ((∀ x, K x → h.live x = true) → h.Covers (n.idAt own))
  | .crashed | .join _ | .joinLookup _ | .joinSet _ | .joined _ => False
  | _ => True

theorem Notifies.known {c : Caller} {n : Node} (hK : K own) (hn : Notifies K own t₀ c n) :
    K (n.idAt own) := by
  cases c with
  | handler => exact hn.2
  | periodic =>
    have hself : n = .self := hn
    rw [hself]
    exact hK

theorem Knows.frame (hr : h.Respects h') (hpred : ∀ x, h.node.predId = some x → K x)
    (hk : Knows K own t₀ h t) : Knows K own t₀ h' t := by
  cases t with
  | checkSet n =>
    have hdead : h.live (n.idAt own) = false := hk
    refine Bool.eq_false_iff.mpr fun hlive => ?_
    rw [hr.live _ hlive] at hdead
    cases hdead
  | ended =>
    obtain ⟨n, hn, hcovers⟩ := hk
    refine ⟨n, hn, fun hlive => ?_⟩
    have hlive' : ∀ x, K x → h.live x = true := fun x hx => hr.live x (hlive x hx)
    exact hr.covers (fun x hx => hlive' x (hpred x hx)) (hcovers hlive')
  | _ => exact hk

/-! ### The writes of an undisturbed thread -/

theorem write_lawful {new : Option ID} (hown : h.node.getId = own) (hk : Knows K own t₀ h t)
    (hu : t.Undisturbed h) (hw : t.write h.node = some new) : h.Lawful new := by
  subst hown
  cases t with
  | notifySet c n read =>
    cases hw
    intro v hv
    rw [LocalNode.idOf_eq]
    exact Or.inr (hk.2 v (hu.symm.trans hv))
  | checkSet n =>
    cases hw
    have hdead : h.live (n.idAt h.node.getId) = false := hk
    rw [← LocalNode.idOf_eq] at hdead
    exact ⟨_, hu, hdead⟩
  | join => exact hk.elim
  | _ => cases hw

theorem write_known {x : ID} (hK : K own) (hown : h.node.getId = own) (hk : Knows K own t₀ h t)
    (hw : t.write h.node = some (some x)) : K x := by
  subst hown
  cases t with
  | notifySet c n read =>
    cases hw
    rw [LocalNode.idOf_eq]
    exact hk.1.known hK
  | checkSet => cases hw
  | join => cases hw
  | _ => cases hw

theorem effect_respects (hown : h.node.getId = own) (hk : Knows K own t₀ h t)
    (hu : t.Undisturbed h) : h.Respects { h with node := t.effect h.node } where
  getId := effect_getId _ _
  live x hx := by
    rw [live_effect] at hx
    exact hx
  pred := by
    rw [effect_predId]
    cases hw : t.write h.node with
    | none => exact Or.inl rfl
    | some new => exact Or.inr (write_lawful hown hk hu hw)

theorem knows_next {a : Answer} (hown : h.node.getId = own) (hk : Knows K own t₀ h t)
    (hu : t.Undisturbed h) (hnext : t.next a h = some t') :
    Knows K own t₀ { h with node := t.effect h.node } t' := by
  subst hown
  have hcame := next_came hnext
  cases t' with
  | notify c n =>
    obtain ⟨rfl, rfl, rfl⟩ := hcame
    exact rfl
  | notifyTest c n =>
    obtain rfl := hcame
    exact hk
  | notifySet c n read =>
    rcases hcame with ⟨rfl, rfl⟩ | ⟨rfl, q, rfl, harc⟩
    · exact ⟨hk, fun v hv => by cases hv⟩
    · refine ⟨hk, fun v hv => ?_⟩
      cases hv
      rw [← LocalNode.idOf_eq]
      exact harc
  | checkSet n =>
    obtain ⟨rfl, hdead⟩ := hcame
    rw [Host.ping, LocalNode.idOf_eq] at hdead
    exact hdead
  | ended =>
    obtain ⟨n, ⟨read, rfl⟩ | ⟨rfl, q, hpred, hout⟩⟩ := hcame
    · refine ⟨n, hk.1.1, fun _ => ⟨h.node.idOf n, effect_predId _ _, Or.inl ?_⟩⟩
      rw [LocalNode.idOf_eq]
    · refine ⟨n, hk.1, fun _ => ⟨q, hpred, ?_⟩⟩
      rw [← LocalNode.idOf_eq]
      exact (inArc_total hout).imp_left Eq.symm
  | crashed =>
    obtain ⟨c, n, rfl, hnull⟩ := hcame
    exact hu hnull
  | join => exact hcame.elim
  | joinLookup n =>
    obtain rfl := hcame
    exact hk.elim
  | joinSet n =>
    obtain rfl := hcame
    exact hk.elim
  | joined n =>
    obtain rfl := hcame
    exact hk.elim
  | _ => trivial

/-- What holds of the node; `v₀` is the predecessor at the start. -/
structure Guarded (K : ID → Prop) (own : ID) (v₀ : Option ID) (h : Host) : Prop where
  getId : h.node.getId = own
  known : ∀ x, h.node.predId = some x → K x
  kept : ∀ v, v₀ = some v → (∀ x, K x → h.live x = true) → h.Covers v

theorem Guarded.respects {v₀ : Option ID} (hh : Guarded K own v₀ h) (hr : h.Respects h')
    (hknown : ∀ x, h'.node.predId = some x → K x) : Guarded K own v₀ h' where
  getId := hr.getId.trans hh.getId
  known := hknown
  kept v hv hlive := by
    have hlive' : ∀ x, K x → h.live x = true := fun x hx => hr.live x (hlive x hx)
    exact hr.covers (fun x hx => hlive' x (hh.known x hx)) (hh.kept v hv hlive')

theorem Guarded.effect {v₀ : Option ID} (hK : K own) (hh : Guarded K own v₀ h)
    (hk : Knows K own t₀ h t) (hu : t.Undisturbed h) :
    Guarded K own v₀ { h with node := t.effect h.node } := by
  refine hh.respects (effect_respects hh.getId hk hu) fun x hx => ?_
  rw [effect_predId] at hx
  cases hw : t.write h.node with
  | none =>
    rw [hw, Option.getD_none] at hx
    exact hh.known x hx
  | some new =>
    rw [hw, Option.getD_some] at hx
    exact write_known hK hh.getId hk (hw.trans (congrArg some hx))

end Point

/-! ### Runs -/

section Runs
variable {ι : Type*} {p q : Pool ι Host Point}

/-- Request handlers about to call `notify`, and the periodic thread. -/
def Notifying (p : Pool ι Host Point) : Prop :=
  ∀ i, p.thread i = .checkPredecessor ∨ ∃ n, p.thread i = .notify .handler n

/-- The nodes that may become the predecessor: those of the requests, the one at the
start, and the node itself. -/
def Candidate (p : Pool ι Host Point) (x : ID) : Prop :=
  x = p.shared.node.getId ∨ p.shared.node.predId = some x ∨
    ∃ i n, p.thread i = .notify .handler n ∧ n.idAt p.shared.node.getId = x

theorem start_asserts (hp : Notifying p) :
    Pool.Asserts (Point.Guarded (Candidate p) p.shared.node.getId p.shared.node.predId)
      (fun i => Point.Knows (Candidate p) p.shared.node.getId (p.thread i)) p where
  shared := ⟨rfl, fun x hx => Or.inr (Or.inl hx), fun v hv _ => ⟨v, hv, Or.inl rfl⟩⟩
  thread i := by
    rcases hp i with ht | ⟨n, ht⟩
    · rw [ht]
      trivial
    · rw [ht]
      exact ⟨rfl, Or.inr (Or.inr ⟨i, n, ht, rfl⟩)⟩

abbrev UndisturbedRun [DecidableEq ι] : Pool ι Host Point → Pool ι Host Point → Prop :=
  Pool.Run Point.step Host.Fails fun p i => (p.thread i).Undisturbed p.shared

theorem undisturbed_stable {K : ID → Prop} {own : ID} (hK : K own) (v₀ : Option ID)
    (start : ι → Point) :
    Pool.Stable Point.step Host.Fails
      (fun (p : Pool ι Host Point) i => (p.thread i).Undisturbed p.shared)
      (Point.Guarded K own v₀) (fun i => Point.Knows K own (start i)) where
  shared p i a t s hp hu hstep := by
    obtain ⟨_, rfl⟩ := Point.step_eq_some.mp hstep
    exact hp.shared.effect hK (hp.thread i) hu
  own p i a t s hp hu hstep := by
    obtain ⟨hnext, rfl⟩ := Point.step_eq_some.mp hstep
    exact Point.knows_next hp.shared.getId (hp.thread i) hu hnext
  other p i a t s j hp hu hstep _ := by
    obtain ⟨_, rfl⟩ := Point.step_eq_some.mp hstep
    have hr := Point.effect_respects hp.shared.getId (hp.thread i) hu
    exact Point.Knows.frame hr hp.shared.known (hp.thread j)
  env p s hp henv := by
    have hr := Host.Fails.respects henv
    refine ⟨hp.shared.respects hr fun x hx => ?_, fun j => ?_⟩
    · rw [Host.Fails.predId henv] at hx
      exact hp.shared.known x hx
    · exact Point.Knows.frame hr hp.shared.known (hp.thread j)

/-- When no thread is disturbed, every write is lawful, no thread dereferences a null
predecessor, and among live candidates the predecessor is the closest one. -/
theorem undisturbed_lawful [DecidableEq ι] (hp : Notifying p) (hrun : UndisturbedRun p q) :
    (∀ i new, (q.thread i).Undisturbed q.shared →
      (q.thread i).write q.shared.node = some new → q.shared.Lawful new) ∧
    (∀ i, q.thread i ≠ .crashed) ∧
    (∀ x, q.shared.node.predId = some x → Candidate p x) ∧
    ((∀ x, Candidate p x → q.shared.live x = true) →
      (∀ v, p.shared.node.predId = some v → q.shared.Covers v) ∧
      ∀ i n, p.thread i = .notify .handler n → q.thread i = .ended →
        q.shared.Covers (n.idAt p.shared.node.getId)) := by
  have hall := hrun.asserts
    (undisturbed_stable (Or.inl rfl) p.shared.node.predId p.thread) (start_asserts hp)
  refine ⟨fun i new hu hw => ?_, fun i hi => ?_, hall.shared.known, fun hlive => ⟨fun v hv => ?_, ?_⟩⟩
  · exact Point.write_lawful hall.shared.getId (hall.thread i) hu hw
  · have hk := hall.thread i
    rw [hi] at hk
    exact hk
  · exact hall.shared.kept v hv hlive
  · intro i n hi hq
    have hk := hall.thread i
    rw [hq, hi] at hk
    obtain ⟨m, hm, hcovers⟩ := hk
    cases hm
    exact hcovers hlive

end Runs

/-! ### Two requests at Alice -/

def twoRequests : Pool (Fin 3) Host Point where
  shared := ⟨.init alice, fun _ => true⟩
  thread := ![.checkPredecessor, .notify .handler (.remote 1 carol),
    .notify .handler (.remote 2 bob)]

theorem pool_ext_three {p q : Pool (Fin 3) Host Point} (hs : p.shared = q.shared)
    (h0 : p.thread 0 = q.thread 0) (h1 : p.thread 1 = q.thread 1)
    (h2 : p.thread 2 = q.thread 2) : p = q := by
  refine Pool.ext hs (funext fun i => ?_)
  fin_cases i
  · exact h0
  · exact h1
  · exact h2

theorem twoRequests_notifying : Notifying twoRequests := by
  intro i
  fin_cases i
  · exact Or.inl rfl
  · exact Or.inr ⟨_, rfl⟩
  · exact Or.inr ⟨_, rfl⟩

/-- Both requests have read NULL, and Bob's has written. -/
def bobFirst : Pool (Fin 3) Host Point where
  shared := ⟨(LocalNode.init alice).setPredecessor (some (.remote 2 bob)), fun _ => true⟩
  thread := ![.checkPredecessor, .notifySet .handler (.remote 1 carol) none, .ended]

def carolLast : Pool (Fin 3) Host Point where
  shared := ⟨bobFirst.shared.node.setPredecessor (some (.remote 1 carol)), fun _ => true⟩
  thread := ![.checkPredecessor, .ended, .ended]

theorem bobFirst_exec : Pool.exec Point.step [(1, ⟨0, none⟩), (2, ⟨0, none⟩), (2, ⟨0, none⟩)]
    twoRequests = some bobFirst :=
  congrArg some (pool_ext_three rfl rfl rfl rfl)

theorem carolLast_act : bobFirst.act Point.step 1 ⟨0, none⟩ = some carolLast :=
  congrArg some (pool_ext_three rfl rfl rfl rfl)

theorem not_between_carol : ¬ InArc bob.id carol.id alice.id := by
  rw [← ID.isInInterval_iff, carol_id, alice_id, bob_id]
  decide +kernel

/-- Carol's request overwrites the live Bob, who is closer to Alice. -/
theorem live_predecessor_lost : ∃ q r,
    Pool.Run Point.step Host.Fails (fun _ _ => True) twoRequests q ∧
      (q.thread 1).write q.shared.node = some (some carol.id) ∧
      ¬ q.shared.Lawful (some carol.id) ∧ q.act Point.step 1 ⟨0, none⟩ = some r ∧
      r.thread 1 = .ended ∧ r.thread 2 = .ended ∧ ¬ r.shared.Covers bob.id := by
  refine ⟨bobFirst, carolLast, Pool.exec_run bobFirst_exec, rfl, fun hlaw => ?_, carolLast_act,
    rfl, rfl, fun hcovers => ?_⟩
  · rcases hlaw bob.id (LocalNode.setPredecessor_predId _ _) with hdead | harc
    · rw [Host.live, Bool.or_eq_false_iff] at hdead
      cases hdead.2
    · exact not_between_carol harc
  · obtain ⟨x, hx, hbob⟩ := hcovers
    have hcarol : x = carol.id :=
      Option.some.inj (hx.symm.trans (LocalNode.setPredecessor_predId _ _))
    subst hcarol
    rcases hbob with he | harc
    · exact carol_id_ne.2 he.symm
    · exact not_between_carol harc

def bobServed : Pool (Fin 3) Host Point where
  shared := ⟨(LocalNode.init alice).setPredecessor (some (.remote 2 bob)), fun _ => true⟩
  thread := ![.checkPredecessor, .notify .handler (.remote 1 carol), .ended]

theorem bobServed_run : UndisturbedRun twoRequests bobServed := by
  have hread : UndisturbedRun twoRequests { twoRequests with
      thread := ![.checkPredecessor, .notify .handler (.remote 1 carol),
        .notifySet .handler (.remote 2 bob) none] } := by
    refine .single (Or.inl ⟨2, ⟨0, none⟩, trivial, ?_⟩)
    exact congrArg some (pool_ext_three rfl rfl rfl rfl)
  refine hread.tail (Or.inl ⟨2, ⟨0, none⟩, rfl, ?_⟩)
  exact congrArg some (pool_ext_three rfl rfl rfl rfl)

theorem undisturbed_lawful_bob :
    (∀ i new, (bobServed.thread i).Undisturbed bobServed.shared →
      (bobServed.thread i).write bobServed.shared.node = some new → bobServed.shared.Lawful new) ∧
    (∀ i, bobServed.thread i ≠ .crashed) ∧
    (∀ x, bobServed.shared.node.predId = some x → Candidate twoRequests x) ∧
    ((∀ x, Candidate twoRequests x → bobServed.shared.live x = true) →
      (∀ v, twoRequests.shared.node.predId = some v → bobServed.shared.Covers v) ∧
      ∀ i n, twoRequests.thread i = .notify .handler n → bobServed.thread i = .ended →
        bobServed.shared.Covers (n.idAt twoRequests.shared.node.getId)) :=
  undisturbed_lawful twoRequests_notifying bobServed_run

end ChordChat
