import ChordChat.LocalNode
import ChordChat.Numeric
import Mathlib.Data.List.FinRange

/-!
# One hop of a lookup, measured in numbers

`closestPrecedingFinger` returns the entry of the highest slot that passes the
interval test. With right fingers the entry of some slot lies at least half way to
the last member before the identifier; the hop gets there when the interval test
rejects the entries past the identifier and accepts one of those half way.
-/

namespace ChordChat
open Clockwise

namespace ID

/-- `x` is met strictly between `lower` and `upper` on the way up from `lower`; equal
bounds are a whole turn. -/
def Between (lower x upper : ID) : Prop :=
  0 < gap lower x ∧ (lower = upper ∨ gap lower x < gap lower upper)

def FirstFromValue (members : Finset ID) (v : ℕ) (m : ID) : Prop :=
  m ∈ members ∧ ∀ q ∈ members, ((m.value : ℤ) - v) % 2 ^ M ≤ ((q.value : ℤ) - v) % 2 ^ M

def LastBefore (members : Finset ID) (id p : ID) : Prop :=
  p ∈ members ∧ p ≠ id ∧ ∀ q ∈ members, q ≠ id → gap p id ≤ gap q id

end ID

namespace LocalNode

def FingersRight (members : Finset ID) (n : LocalNode) : Prop :=
  ∀ k : Fin M, ∃ f, n.finger.entries k = some f ∧
    ID.FirstFromValue members ((n.getId.value + 2 ^ (k : ℕ)) % 2 ^ M) (n.idOf f)

end LocalNode

namespace ID

theorem pow_pos : (0 : ℤ) < 2 ^ M := by decide

theorem gap_nonneg (a b : ID) : 0 ≤ gap a b := Int.emod_nonneg _ (by decide)

theorem gap_lt (a b : ID) : gap a b < 2 ^ M := Int.emod_lt_of_pos _ pow_pos

theorem gap_self (a : ID) : gap a a = 0 := by rw [gap, Int.sub_self, Int.zero_emod]

theorem gap_eq_zero {a b : ID} : gap a b = 0 ↔ a = b := by
  constructor
  · intro h
    have ha := a.value_bounds
    have hb := b.value_bounds
    have hcases := distance_cases ha.1 ha.2 hb.1 hb.2
    rw [gap] at h
    apply value_inj.mp
    omega
  · intro h
    rw [h, gap_self]

theorem gap_of_le {n a b : ID} (h : gap n a ≤ gap n b) : gap a b = gap n b - gap n a :=
  distance_eq (n.value : ℤ) h pow_pos

theorem gap_of_lt {n a b : ID} (h : gap n b < gap n a) : gap a b = gap n b - gap n a + 2 ^ M :=
  distance_eq_add (n.value : ℤ) h pow_pos

theorem two_pow_lt (k : Fin M) : (0 : ℤ) < 2 ^ (k : ℕ) ∧ (2 : ℤ) ^ (k : ℕ) < 2 ^ M := by
  have hnat : 2 ^ (k : ℕ) < 2 ^ M := Nat.pow_lt_pow_right (by decide) k.isLt
  exact ⟨Int.pow_pos (by decide), by exact_mod_cast hnat⟩

theorem distance_start (n q : ID) (k : Fin M) :
    2 ^ (k : ℕ) ≤ gap n q ∧ ((q.value : ℤ) - ((n.value + 2 ^ (k : ℕ)) % 2 ^ M : ℕ)) % 2 ^ M =
        gap n q - 2 ^ (k : ℕ) ∨
      gap n q < 2 ^ (k : ℕ) ∧ ((q.value : ℤ) - ((n.value + 2 ^ (k : ℕ)) % 2 ^ M : ℕ)) % 2 ^ M =
        gap n q - 2 ^ (k : ℕ) + 2 ^ M := by
  have hpow := two_pow_lt k
  have hstart : ((q.value : ℤ) - ((n.value + 2 ^ (k : ℕ)) % 2 ^ M : ℕ)) % 2 ^ M =
      (gap n q - 2 ^ (k : ℕ)) % 2 ^ M := by
    rw [gap]
    push_cast
    rw [Int.sub_emod, Int.emod_emod_of_dvd _ (dvd_refl _), ← Int.sub_emod, Int.emod_sub_emod]
    congr 1
    ring
  rw [hstart]
  exact distance_cases (by omega) hpow.2 (gap_nonneg n q) (gap_lt n q)

theorem firstFromValue_iff {members : Finset ID} {n m : ID} {k : Fin M} (hn : n ∈ members) :
    FirstFromValue members ((n.value + 2 ^ (k : ℕ)) % 2 ^ M) m ↔
      m ∈ members ∧ FirstAt members (gap n) (2 ^ (k : ℕ)) m := by
  have hpow := two_pow_lt k
  have hdm := distance_start n m k
  have hm0 := gap_nonneg n m
  have hmlt := gap_lt n m
  refine and_congr_right fun hmem => ?_
  constructor
  · intro hfirst
    by_cases hm : 2 ^ (k : ℕ) ≤ gap n m
    · refine Or.inl ⟨hm, fun q hq hq' => ?_⟩
      have hle := hfirst q hq
      have hdq := distance_start n q k
      omega
    · -- the walk has gone past all members, the node itself is the next one
      refine Or.inr ⟨?_, fun q hq => ?_⟩
      · have hle := hfirst n hn
        have hdn := distance_start n n k
        rw [gap_self] at hdn
        omega
      · have hle := hfirst q hq
        have hdq := distance_start n q k
        have hlt := gap_lt n q
        omega
  · intro hfirst q hq
    have hdq := distance_start n q k
    have hq0 := gap_nonneg n q
    rcases hfirst with ⟨hm, hall⟩ | ⟨hzero, hall⟩
    · have hle := hall q hq
      omega
    · have hlt := hall q hq
      omega

/-- The last member before `id` is the farthest of the members before it. -/
theorem LastBefore.farthest {members : Finset ID} {n id p : ID} (h : LastBefore members id p)
    (hn : n ∈ members) (hp : p ≠ n) :
    Between n p id ∧ ∀ q ∈ members, Between n q id → gap n q ≤ gap n p := by
  obtain ⟨_, hpid, hlast⟩ := h
  have hp0 : gap n p ≠ 0 := fun he => hp (gap_eq_zero.mp he).symm
  have hpos : 0 < gap n p := lt_of_le_of_ne (gap_nonneg n p) (Ne.symm hp0)
  have hlt := gap_lt n p
  by_cases hnid : n = id
  · subst hnid
    have hback : ∀ q, 0 < gap n q → gap q n = 2 ^ M - gap n q := fun q hq => by
      have hgap := gap_of_lt (n := n) (a := q) (b := n) (by rwa [gap_self])
      rw [gap_self] at hgap
      omega
    refine ⟨⟨hpos, Or.inl rfl⟩, fun q hq hb => ?_⟩
    have hqn : q ≠ n := fun he => by
      have hq0 := hb.1
      rw [he, gap_self] at hq0
      exact lt_irrefl _ hq0
    have hle := hlast q hq hqn
    rw [hback p hpos, hback q hb.1] at hle
    omega
  · have hle := hlast n hn hnid
    have hbefore : gap n p < gap n id := by
      by_contra hge
      have hne : gap n p ≠ gap n id := fun he => by
        have hzero := gap_of_le (n := n) (a := p) (b := id) (Int.le_of_eq he)
        exact hpid (gap_eq_zero.mp (by omega))
      have hover := gap_of_lt (n := n) (a := p) (b := id) (by omega)
      omega
    refine ⟨⟨hpos, Or.inr hbefore⟩, fun q hq hb => ?_⟩
    have hqid : gap n q < gap n id := hb.2.resolve_left hnid
    have hq := hlast q hq fun he => by
      rw [he] at hqid
      exact lt_irrefl _ hqid
    rw [gap_of_le (Int.le_of_lt hbefore), gap_of_le (Int.le_of_lt hqid)] at hq
    omega

end ID

namespace LocalNode

/-- The loop ends at the highest slot whose node passes the interval test. -/
theorem closestPrecedingFinger_highest (n : LocalNode) (id : ID) :
    (∃ i f, n.finger.getNode i = some f ∧ (n.idOf f).isInInterval n.getId id = true ∧
        (∀ j, i < j → ∀ g, n.finger.getNode j = some g →
          (n.idOf g).isInInterval n.getId id = false) ∧ n.closestPrecedingFinger id = f) ∨
      (∀ i f, n.finger.getNode i = some f → (n.idOf f).isInInterval n.getId id = false) ∧
        n.closestPrecedingFinger id = .self := by
  unfold closestPrecedingFinger
  generalize hr : (List.finRange M).reverse.findSome? (fun i => (n.finger.getNode i).filter
    fun f => (n.idOf f).isInInterval n.getId id) = result
  have hrejected : ∀ {j g}, ((n.finger.getNode j).filter
      fun f => (n.idOf f).isInInterval n.getId id) = none → n.finger.getNode j = some g →
        (n.idOf g).isInInterval n.getId id = false := by
    intro j g hnone hg
    rw [hg] at hnone
    simpa using hnone
  cases result with
  | some f =>
    obtain ⟨above, i, below, hsplit, hi, habove⟩ := List.findSome?_eq_some_iff.mp hr
    obtain ⟨hget, hin⟩ := Option.filter_eq_some_iff.mp hi
    refine Or.inl ⟨i, f, hget, hin, fun j hj g hg => ?_, rfl⟩
    -- the list goes down, so the slots above `i` come before it
    have hdown : (above ++ i :: below).Pairwise fun a b => b < a := by
      rw [← hsplit, List.pairwise_reverse]
      exact List.pairwise_lt_finRange M
    have hmem : j ∈ above ++ i :: below := by
      rw [← hsplit]
      exact List.mem_reverse.mpr (List.mem_finRange j)
    rw [List.mem_append, List.mem_cons] at hmem
    rcases hmem with hmem | hmem | hmem
    · exact hrejected (habove j hmem) hg
    · exact absurd hmem (ne_of_gt hj)
    · have hlower := (List.pairwise_cons.mp (List.pairwise_append.mp hdown).2.1).1 j hmem
      exact absurd hj (not_lt_of_gt hlower)
  | none =>
    refine Or.inr ⟨fun i f hf => ?_, rfl⟩
    exact hrejected (List.findSome?_eq_none_iff.mp hr i
      (List.mem_reverse.mpr (List.mem_finRange i))) hf

theorem FingersRight.spec {members : Finset ID} {n : LocalNode} (h : n.FingersRight members)
    (hn : n.getId ∈ members) {k : Fin M} {f : Node} (hk : n.finger.entries k = some f) :
    n.idOf f ∈ members ∧ FirstAt members (ID.gap n.getId) (2 ^ (k : ℕ)) (n.idOf f) := by
  obtain ⟨f', hk', hfirst⟩ := h k
  rw [hk] at hk'
  cases hk'
  exact (ID.firstFromValue_iff hn).mp hfirst

theorem FingersRight.mono {members : Finset ID} {n : LocalNode} (h : n.FingersRight members)
    (hn : n.getId ∈ members) {j k : Fin M} {g f : Node} (hj : n.finger.entries j = some g)
    (hk : n.finger.entries k = some f) (hpos : 0 < ID.gap n.getId (n.idOf f)) (hjk : j ≤ k) :
    0 < ID.gap n.getId (n.idOf g) ∧ ID.gap n.getId (n.idOf g) ≤ ID.gap n.getId (n.idOf f) := by
  have hpow : (2 : ℤ) ^ (j : ℕ) ≤ 2 ^ (k : ℕ) := by
    have hnat : 2 ^ (j : ℕ) ≤ 2 ^ (k : ℕ) := Nat.pow_le_pow_right (by decide) hjk
    exact_mod_cast hnat
  have hfar := h.spec hn hk
  have hstep := (h.spec hn hj).2.mono hfar.2 hfar.1 hpos hpow
  have hone : (0 : ℤ) < 2 ^ (j : ℕ) := Int.pow_pos (by decide)
  exact ⟨by omega, hstep.2⟩

theorem FingersRight.getNode {members : Finset ID} {n : LocalNode} (h : n.FingersRight members)
    {k : Fin M} {f : Node} (hk : n.finger.getNode k = some f) : n.finger.entries k = some f := by
  obtain ⟨g, hg, _⟩ := h k
  rw [FingerTable.getNode_of_entry hg] at hk
  rw [hg, hk]

/-- The returned node lies before `id` and at least half way to `p`. -/
def HopHalves (n : LocalNode) (id p : ID) : Prop :=
  let f := n.idOf (n.closestPrecedingFinger id)
  ID.Between n.getId f id ∧ 2 * ID.gap f p ≤ ID.gap n.getId p

/-- With right fingers a hop gets half way exactly when the interval test rejects every finger
that is not before `id` and accepts one that is half way to the last member before `id`. -/
theorem hopHalves_iff {members : Finset ID} {n : LocalNode} {id p : ID}
    (hn : n.getId ∈ members) (hfingers : n.FingersRight members)
    (hp : ID.LastBefore members id p) (hpn : p ≠ n.getId) :
    n.HopHalves id p ↔
      (∀ k f, n.finger.entries k = some f → ¬ ID.Between n.getId (n.idOf f) id →
        (n.idOf f).isInInterval n.getId id = false) ∧
      ∃ k f, n.finger.entries k = some f ∧ ID.Between n.getId (n.idOf f) id ∧
        2 * ID.gap (n.idOf f) p ≤ ID.gap n.getId p ∧ (n.idOf f).isInInterval n.getId id = true := by
  obtain ⟨_, hfar⟩ := hp.farthest hn hpn
  constructor
  · intro h
    rcases n.closestPrecedingFinger_highest id with ⟨i, f, hget, hin, habove, hc⟩ | ⟨_, hc⟩
    · have hi := hfingers.getNode hget
      rw [HopHalves, hc] at h
      refine ⟨fun k g hk hnot => ?_, i, f, hi, h.1, h.2, hin⟩
      -- the slots up to `i` hold nodes before `id`, so this one was scanned first
      have hik : i < k := by
        by_contra hle
        have hmono := hfingers.mono hn hk hi h.1.1 (not_lt.mp hle)
        refine hnot ⟨hmono.1, h.1.2.imp_right fun hlt => ?_⟩
        omega
      exact habove k hik g (FingerTable.getNode_of_entry hk)
    · rw [HopHalves, hc] at h
      have hpos := h.1.1
      rw [idOf_self, ID.gap_self] at hpos
      exact absurd hpos (lt_irrefl _)
  · intro h
    obtain ⟨hrej, k, f, hk, hb, hhalf, hin⟩ := h
    have hgetk := FingerTable.getNode_of_entry hk
    rcases n.closestPrecedingFinger_highest id with ⟨i, g, hget, hing, habove, hc⟩ | ⟨hnone, _⟩
    · have hi := hfingers.getNode hget
      have hki : k ≤ i := by
        by_contra hlt
        rw [habove k (not_le.mp hlt) f hgetk] at hin
        cases hin
      have hbg : ID.Between n.getId (n.idOf g) id := by
        by_contra hnot
        rw [hrej i g hi hnot] at hing
        cases hing
      have hmono := hfingers.mono hn hk hi hbg.1 hki
      have hgp := hfar _ (hfingers.spec hn hi).1 hbg
      have hfp := hfar _ (hfingers.spec hn hk).1 hb
      rw [ID.gap_of_le hfp] at hhalf
      rw [HopHalves, hc]
      refine ⟨hbg, ?_⟩
      rw [ID.gap_of_le hgp]
      omega
    · rw [hnone k f hgetk] at hin
      cases hin

theorem FingersRight.exists_half_way {members : Finset ID} {n : LocalNode} {id p : ID}
    (h : n.FingersRight members) (hn : n.getId ∈ members) (hp : ID.LastBefore members id p)
    (hpn : p ≠ n.getId) :
    ∃ k f, n.finger.entries k = some f ∧ ID.Between n.getId (n.idOf f) id ∧
      2 * ID.gap (n.idOf f) p ≤ ID.gap n.getId p := by
  obtain ⟨hbp, _⟩ := hp.farthest hn hpn
  choose finger hfinger using h
  have hfirst : ∀ k : Fin M, FirstAt members (ID.gap n.getId) (2 ^ (k : ℕ)) (n.idOf (finger k)) :=
    fun k => ((ID.firstFromValue_iff hn).mp (hfinger k).2).2
  obtain ⟨k, hpos, hle, hhalf⟩ := Clockwise.exists_half_way hfirst hp.1 hbp.1 (ID.gap_lt _ _)
  refine ⟨k, finger k, (hfinger k).1, ⟨hpos, hbp.2.imp_right fun hlt => ?_⟩, ?_⟩
  · exact lt_of_le_of_lt hle hlt
  · rw [ID.gap_of_le hle]
    exact hhalf

/-- Where the interval test is the numeric one for all fingers, every hop gets half way. -/
theorem hopHalves_of_not_crosses {members : Finset ID} {n : LocalNode} {id p : ID}
    (hn : n.getId ∈ members) (hfingers : n.FingersRight members)
    (hp : ID.LastBefore members id p) (hpn : p ≠ n.getId) (hid : n.getId ≠ id)
    (hcross : ∀ k f, n.finger.entries k = some f →
      (n.getId.crosses (n.idOf f) ^^ (n.idOf f).crosses id ^^ id.crosses n.getId) = false) :
    n.HopHalves id p := by
  have hnumeric : ∀ k f, n.finger.entries k = some f →
      ((n.idOf f).isInInterval n.getId id = true ↔ ID.Between n.getId (n.idOf f) id) := by
    intro k f hk
    rw [(ID.isInInterval_numeric_iff hid).mpr (hcross k f hk), ID.Between, or_iff_right hid]
  apply (hopHalves_iff hn hfingers hp hpn).mpr
  constructor
  · intro k f hk hnot
    rw [← Bool.not_eq_true, hnumeric k f hk]
    exact hnot
  · obtain ⟨k, f, hk, hb, hhalf⟩ := hfingers.exists_half_way hn hp hpn
    exact ⟨k, f, hk, hb, hhalf, (hnumeric k f hk).mpr hb⟩

/-! ### A table of two nodes -/

/-- The node `own` on a ring with `other`, all fingers right. -/
def ofPair (own other : INode) : LocalNode where
  info := own
  predecessor := none
  finger := ⟨fun k => some (if 2 ^ (k : ℕ) ≤ ID.gap own.id other.id then .remote 0 other else .self)⟩
  rcvFn := false

theorem ofPair_fingersRight (own other : INode) :
    (ofPair own other).FingersRight {own.id, other.id} := by
  intro k
  have hpow := ID.two_pow_lt k
  have hown : ID.gap own.id own.id = 0 := ID.gap_self own.id
  refine ⟨_, rfl, ?_⟩
  apply (ID.firstFromValue_iff (Finset.mem_insert_self _ _)).mpr
  split
  next hfar =>
    refine ⟨Finset.mem_insert_of_mem (Finset.mem_singleton_self _), Or.inl ⟨hfar, fun q hq hq' => ?_⟩⟩
    rcases Finset.mem_insert.mp hq with rfl | hq
    · rw [hown] at hq'
      omega
    · rw [Finset.mem_singleton.mp hq]
      rfl
  next hnear =>
    refine ⟨Finset.mem_insert_self _ _, Or.inr ⟨hown, fun q hq => ?_⟩⟩
    rcases Finset.mem_insert.mp hq with rfl | hq
    · rw [hown]
      exact hpow.1
    · rw [Finset.mem_singleton.mp hq]
      exact not_le.mp hnear

end LocalNode

/-- Just behind Bob; the last characters of the two are on both sides of 0x80. -/
def behindBob : ID := .ofValue (bob.id.value + 0x80)

theorem bob_lastBefore : ID.LastBefore {alice.id, bob.id} behindBob bob.id := by
  refine ⟨Finset.mem_insert_of_mem (Finset.mem_singleton_self _), ?_, fun q hq _ => ?_⟩
  · intro h
    rw [behindBob, bob_id] at h
    exact absurd (congrArg ID.value h) (by decide +kernel)
  · rcases Finset.mem_insert.mp hq with rfl | hq
    · rw [behindBob, alice_id, bob_id]
      decide +kernel
    · rw [Finset.mem_singleton.mp hq]

/-- The interval test puts Bob behind the identifier, and Alice keeps the lookup. -/
theorem not_hopHalves_behindBob : (LocalNode.ofPair alice bob).FingersRight {alice.id, bob.id} ∧
    ID.LastBefore {alice.id, bob.id} behindBob bob.id ∧ bob.id ≠ alice.id ∧
    ¬ (LocalNode.ofPair alice bob).HopHalves behindBob bob.id := by
  refine ⟨LocalNode.ofPair_fingersRight alice bob, bob_lastBefore, alice_id_ne_bob_id.symm, ?_⟩
  have hself : alice.id.isInInterval alice.id behindBob = false := by
    rw [behindBob, alice_id, bob_id]
    decide +kernel
  have hother : bob.id.isInInterval alice.id behindBob = false := by
    rw [behindBob, alice_id, bob_id]
    decide +kernel
  have hkeep : (LocalNode.ofPair alice bob).closestPrecedingFinger behindBob = .self := by
    rcases LocalNode.closestPrecedingFinger_highest (LocalNode.ofPair alice bob) behindBob with
      ⟨i, f, hget, hin, _⟩ | ⟨_, hc⟩
    · obtain ⟨j, hj⟩ := FingerTable.entry_of_getNode hget
      have hf := Option.some.inj hj
      subst hf
      split at hin
      · exact absurd (hother.symm.trans hin) Bool.false_ne_true
      · exact absurd (hself.symm.trans hin) Bool.false_ne_true
    · exact hc
  intro h
  rw [LocalNode.HopHalves, hkeep] at h
  have hpos := h.1.1
  rw [LocalNode.idOf_self, ID.gap_self] at hpos
  exact lt_irrefl _ hpos

theorem hopHalves_iff_pair : (LocalNode.ofPair alice bob).HopHalves behindBob bob.id ↔
    (∀ k f, (LocalNode.ofPair alice bob).finger.entries k = some f →
      ¬ ID.Between alice.id ((LocalNode.ofPair alice bob).idOf f) behindBob →
        ((LocalNode.ofPair alice bob).idOf f).isInInterval alice.id behindBob = false) ∧
    ∃ k f, (LocalNode.ofPair alice bob).finger.entries k = some f ∧
      ID.Between alice.id ((LocalNode.ofPair alice bob).idOf f) behindBob ∧
      2 * ID.gap ((LocalNode.ofPair alice bob).idOf f) bob.id ≤ ID.gap alice.id bob.id ∧
      ((LocalNode.ofPair alice bob).idOf f).isInInterval alice.id behindBob = true :=
  LocalNode.hopHalves_iff (Finset.mem_insert_self _ _) (LocalNode.ofPair_fingersRight alice bob)
    bob_lastBefore alice_id_ne_bob_id.symm

end ChordChat
