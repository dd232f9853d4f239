import Mathlib.Data.Nat.Log
import Mathlib.Data.Finset.Defs
import Mathlib.Tactic.Ring

/-!
# Distances on a circle of numbers, and pointers at doubling distances

The clockwise distance of two numbers on a circle of `N` is `(b - a) % N`. A node
whose pointer number `k` goes to the first point at distance `2 ^ k` or more
reaches at least half way to any other point of the set (`exists_half_way`).
-/

namespace Clockwise

section distance
variable {N a b c : ℤ}

theorem distance_cases (ha : 0 ≤ a) (ha' : a < N) (hb : 0 ≤ b) (hb' : b < N) :
    a ≤ b ∧ (b - a) % N = b - a ∨ b < a ∧ (b - a) % N = b - a + N := by
  by_cases h : a ≤ b
  · exact Or.inl ⟨h, Int.emod_eq_of_lt (by omega) (by omega)⟩
  · refine Or.inr ⟨by omega, ?_⟩
    rw [← Int.add_emod_right]
    exact Int.emod_eq_of_lt (by omega) (by omega)

theorem distance_lt_iff (ha : 0 ≤ a) (ha' : a < N) (hb : 0 ≤ b) (hb' : b < N) (hc : 0 ≤ c)
    (hc' : c < N) :
    0 < (b - a) % N ∧ (b - a) % N < (c - a) % N ↔
      a < b ∧ b < c ∨ b < c ∧ c < a ∨ c < a ∧ a < b := by
  have h1 := distance_cases ha ha' hb hb'
  have h2 := distance_cases ha ha' hc hc'
  omega

/-- The distance of two points, from their distances to a third. -/
theorem distance_eq (o : ℤ) (h : (a - o) % N ≤ (b - o) % N) (hN : 0 < N) :
    (b - a) % N = (b - o) % N - (a - o) % N := by
  have ha := Int.emod_nonneg (a - o) (by omega : N ≠ 0)
  have hb := Int.emod_lt_of_pos (b - o) hN
  have hsub : b - a = (b - o) - (a - o) := by ring
  rw [hsub, Int.sub_emod]
  exact Int.emod_eq_of_lt (by omega) (by omega)

theorem distance_eq_add (o : ℤ) (h : (b - o) % N < (a - o) % N) (hN : 0 < N) :
    (b - a) % N = (b - o) % N - (a - o) % N + N := by
  have ha := Int.emod_lt_of_pos (a - o) hN
  have hb := Int.emod_nonneg (b - o) (by omega : N ≠ 0)
  have hsub : b - a = (b - o) - (a - o) := by ring
  rw [hsub, Int.sub_emod, ← Int.add_emod_right]
  exact Int.emod_eq_of_lt (by omega) (by omega)

end distance

section pointers
variable {α : Type*} {S : Finset α} {dist : α → ℤ} {t t' : ℤ} {f f' p : α}

/-- `f` is the first point of `S` at distance `t` or more; when there is none, the walk
ends at the origin. -/
def FirstAt (S : Finset α) (dist : α → ℤ) (t : ℤ) (f : α) : Prop :=
  t ≤ dist f ∧ (∀ q ∈ S, t ≤ dist q → dist f ≤ dist q) ∨ dist f = 0 ∧ ∀ q ∈ S, dist q < t

theorem FirstAt.mono (h : FirstAt S dist t f) (h' : FirstAt S dist t' f') (hf' : f' ∈ S)
    (hpos : 0 < dist f') (ht : t ≤ t') : t ≤ dist f ∧ dist f ≤ dist f' := by
  have hle : t' ≤ dist f' := by
    cases h' with
    | inl hfirst => exact hfirst.1
    | inr hnone => omega
  cases h with
  | inl hfirst => exact ⟨hfirst.1, hfirst.2 f' hf' (by omega)⟩
  | inr hnone =>
    have hlt := hnone.2 f' hf'
    omega

theorem FirstAt.le_of_le (h : FirstAt S dist t f) (hp : p ∈ S) (ht : t ≤ dist p) :
    t ≤ dist f ∧ dist f ≤ dist p := by
  cases h with
  | inl hfirst => exact ⟨hfirst.1, hfirst.2 p hp ht⟩
  | inr hnone =>
    have hlt := hnone.2 p hp
    omega

theorem exists_log {d : ℤ} {m : ℕ} (hpos : 0 < d) (hlt : d < 2 ^ m) :
    ∃ k < m, (2 : ℤ) ^ k ≤ d ∧ d < 2 * 2 ^ k := by
  obtain ⟨n, rfl⟩ := Int.eq_ofNat_of_zero_le (Int.le_of_lt hpos)
  have hn : n ≠ 0 := by omega
  have hnat : n < 2 ^ m := by exact_mod_cast hlt
  have hlow := Nat.pow_log_le_self 2 hn
  have hhigh := Nat.lt_pow_succ_log_self (b := 2) (by decide) n
  rw [Nat.pow_succ, Nat.mul_comm] at hhigh
  exact ⟨Nat.log 2 n, Nat.log_lt_of_lt_pow hn hnat, by exact_mod_cast hlow, by exact_mod_cast hhigh⟩

/-- One of the pointers at distances `2 ^ k` goes at least half way to `p`, and not past it. -/
theorem exists_half_way {m : ℕ} {finger : Fin m → α}
    (hfinger : ∀ k : Fin m, FirstAt S dist (2 ^ (k : ℕ)) (finger k)) (hp : p ∈ S)
    (hpos : 0 < dist p) (hlt : dist p < 2 ^ m) :
    ∃ k, 0 < dist (finger k) ∧ dist (finger k) ≤ dist p ∧
      2 * (dist p - dist (finger k)) ≤ dist p := by
  obtain ⟨k, hk, hle, hup⟩ := exists_log hpos hlt
  have hpow : (0 : ℤ) < 2 ^ k := Int.pow_pos (by decide)
  obtain ⟨hfar, hnear⟩ := (hfinger ⟨k, hk⟩).le_of_le hp hle
  dsimp only at hfar
  exact ⟨⟨k, hk⟩, by omega, hnear, by omega⟩

end pointers

end Clockwise
