import Mathlib.Data.List.Basic

/-!
# Chaining over the blocks of a message

A message is cut into blocks of `n` and a state goes from block to block.
`absorb` takes in the full blocks and keeps the rest, so a message can be taken in
by pieces (`absorb_append`). Two messages made of full blocks end in one state
exactly when their chains meet at a collision and go on alike
(`chain_eq_iff_merge`), provided messages of different length differ in their last
block.
-/

namespace Blocks
variable {α σ : Type*} (n : ℕ) (compress : σ → List α → σ)

def block (m : List α) (i : ℕ) : List α := (m.drop (n * i)).take n

/-- The state after `i` blocks. -/
def chain (s : σ) (m : List α) : ℕ → σ
  | 0 => s
  | i + 1 => compress (chain s m i) (block n m i)

/-- The state after the full blocks, and what is left. -/
def absorb (s : σ) (m : List α) : σ × List α :=
  (chain n compress s m (m.length / n), m.drop (n * (m.length / n)))

variable {n compress} {s : σ} {m l : List α} {i j k : ℕ}

theorem block_append (h : n * (i + 1) ≤ m.length) : block n (m ++ l) i = block n m i := by
  rw [Nat.mul_add_one] at h
  have hlen : n ≤ (m.drop (n * i)).length := by
    rw [List.length_drop]
    omega
  rw [block, block, List.drop_append_of_le_length (by omega), List.take_append_of_le_length hlen]

theorem block_drop : block n (m.drop (n * i)) j = block n m (i + j) := by
  rw [block, block, List.drop_drop, ← Nat.mul_add]

theorem chain_append (h : n * i ≤ m.length) :
    chain n compress s (m ++ l) i = chain n compress s m i := by
  induction i with
  | zero => rfl
  | succ i ih =>
    have hle : n * i ≤ n * (i + 1) := Nat.mul_le_mul_left n (Nat.le_succ i)
    rw [chain, chain, ih (Nat.le_trans hle h), block_append h]

theorem chain_add : chain n compress s m (i + j) =
    chain n compress (chain n compress s m i) (m.drop (n * i)) j := by
  induction j with
  | zero => rfl
  | succ j ih => rw [← Nat.add_assoc, chain, chain, ih, block_drop]

theorem absorb_of_lt (h : m.length < n) : absorb n compress s m = (s, m) := by
  rw [absorb, Nat.div_eq_of_lt h, Nat.mul_zero, List.drop_zero, chain]

/-- A first full block. -/
theorem absorb_block (hn : 0 < n) (h : m.length = n) :
    absorb n compress s (m ++ l) = absorb n compress (compress s m) l := by
  have hdiv : (m ++ l).length / n = 1 + l.length / n := by
    rw [List.length_append, h, Nat.add_div_left _ hn, Nat.add_comm]
  have hdrop : (m ++ l).drop n = l := List.drop_left' h
  have htake : (m ++ l).take n = m := List.take_left' h
  rw [absorb, absorb, hdiv, chain_add, Nat.mul_one, hdrop, Nat.mul_add, Nat.mul_one,
    ← List.drop_drop, hdrop]
  congr 2
  rw [chain, chain, block, Nat.mul_zero, List.drop_zero, htake]

theorem absorb_append (hn : 0 < n) : absorb n compress s (m ++ l) =
    absorb n compress (absorb n compress s m).1 ((absorb n compress s m).2 ++ l) := by
  have hle : n * (m.length / n) ≤ m.length := Nat.mul_div_le _ _
  have hdrop : (m ++ l).drop (n * (m.length / n)) = m.drop (n * (m.length / n)) ++ l :=
    List.drop_append_of_le_length hle
  have hlen : (m ++ l).length / n =
      m.length / n + (m.drop (n * (m.length / n)) ++ l).length / n := by
    have hall : (m ++ l).length =
        (m.drop (n * (m.length / n)) ++ l).length + n * (m.length / n) := by
      rw [List.length_append, List.length_append, List.length_drop]
      omega
    rw [hall, Nat.add_mul_div_left _ _ hn, Nat.add_comm]
  rw [absorb, absorb, absorb, hlen, chain_add, chain_append hle, hdrop, Nat.mul_add,
    ← List.drop_drop, hdrop]

/-- Full blocks leave nothing. -/
theorem absorb_full (h : m.length = n * k) (hn : 0 < n) :
    absorb n compress s m = (chain n compress s m k, []) := by
  rw [absorb, h, Nat.mul_div_cancel_left _ hn, ← h, List.drop_length]

/-! ### Collisions -/

/-- Two different steps into one state. -/
def Collide (n : ℕ) (compress : σ → List α → σ) (s : σ) (m m' : List α) (i i' : ℕ) : Prop :=
  (chain n compress s m i, block n m i) ≠ (chain n compress s m' i', block n m' i') ∧
    chain n compress s m (i + 1) = chain n compress s m' (i' + 1)

/-- The chains of two messages of `k` and `k'` blocks collide and go on alike. -/
def Merge (n : ℕ) (compress : σ → List α → σ) (s : σ) (m m' : List α) (k k' : ℕ) : Prop :=
  ∃ i i', i < k ∧ i' < k' ∧ Collide n compress s m m' i i' ∧
    m.drop (n * (i + 1)) = m'.drop (n * (i' + 1))

variable {m' : List α} {k' : ℕ}

theorem drop_block (m : List α) (i : ℕ) :
    m.drop (n * i) = block n m i ++ m.drop (n * (i + 1)) := by
  rw [block, Nat.mul_add_one, ← List.drop_drop, List.take_append_drop]

theorem Merge.length_sub (h : Merge n compress s m m' k k') (hn : 0 < n) (hm : m.length = n * k)
    (hm' : m'.length = n * k') : ∃ i i' j, Collide n compress s m m' i i' ∧
      k = i + 1 + j ∧ k' = i' + 1 + j ∧ m.drop (n * (i + 1)) = m'.drop (n * (i' + 1)) := by
  obtain ⟨i, i', hi, hi', hcol, hdrop⟩ := h
  have hlen := congrArg List.length hdrop
  rw [List.length_drop, List.length_drop, hm, hm', ← Nat.mul_sub, ← Nat.mul_sub] at hlen
  have hsub := Nat.eq_of_mul_eq_mul_left hn hlen
  exact ⟨i, i', k - (i + 1), hcol, by omega, by omega, hdrop⟩

theorem Merge.chain_eq (h : Merge n compress s m m' k k') (hn : 0 < n) (hm : m.length = n * k)
    (hm' : m'.length = n * k') : chain n compress s m k = chain n compress s m' k' := by
  obtain ⟨i, i', j, hcol, rfl, rfl, hdrop⟩ := h.length_sub hn hm hm'
  rw [chain_add, chain_add (i := i' + 1), hcol.2, hdrop]

/-- Two messages of one length with one final state: from the last blocks down, either all
blocks agree or there is a last difference. -/
theorem merge_of_chain_eq (hend : chain n compress s m k = chain n compress s m' k)
    (hrest : m.drop (n * k) = m'.drop (n * k)) (hne : m ≠ m') :
    Merge n compress s m m' k k := by
  induction k with
  | zero =>
    rw [Nat.mul_zero, List.drop_zero, List.drop_zero] at hrest
    exact absurd hrest hne
  | succ k ih =>
    by_cases hpair : (chain n compress s m k, block n m k) = (chain n compress s m' k, block n m' k)
    · obtain ⟨hchain, hblock⟩ := Prod.mk.inj hpair
      have hdrop : m.drop (n * k) = m'.drop (n * k) := by
        rw [drop_block, drop_block m', hblock, hrest]
      obtain ⟨i, i', hi, hi', hmerge⟩ := ih hchain hdrop
      exact ⟨i, i', by omega, by omega, hmerge⟩
    · exact ⟨k, k, Nat.lt_succ_self k, Nat.lt_succ_self k, ⟨hpair, hend⟩, hrest⟩

/-- Different messages of full blocks reach one state exactly by a collision, when the
last block tells their lengths apart. -/
theorem chain_eq_iff_merge (hn : 0 < n) (hm : m.length = n * k) (hm' : m'.length = n * k')
    (hk : 0 < k) (hk' : 0 < k') (hlast : k ≠ k' → block n m (k - 1) ≠ block n m' (k' - 1))
    (hne : m ≠ m') : chain n compress s m k = chain n compress s m' k' ↔
      Merge n compress s m m' k k' := by
  constructor
  · intro hend
    by_cases hkk : k = k'
    · subst hkk
      apply merge_of_chain_eq hend _ hne
      rw [← hm, List.drop_length, hm, ← hm', List.drop_length]
    · have hpred : k - 1 + 1 = k := Nat.succ_pred_eq_of_pos hk
      have hpred' : k' - 1 + 1 = k' := Nat.succ_pred_eq_of_pos hk'
      refine ⟨k - 1, k' - 1, by omega, by omega, ⟨?_, ?_⟩, ?_⟩
      · intro hpair
        exact hlast hkk (Prod.mk.inj hpair).2
      · rw [hpred, hpred', hend]
      · rw [hpred, hpred', ← hm, ← hm', List.drop_length, List.drop_length]
  · intro hmerge
    exact hmerge.chain_eq hn hm hm'

end Blocks
