import Mimuw.Lib.Runs

/-!
# What held since a call

An operation runs from its call to its return, while other steps go on.  A fact
about the time of the operation is a fact about some state since its last call.
-/

namespace Mimuw.Lib

variable {σ ℓ : Type*} {step : σ → ℓ → Option σ} {s t : σ} {call l : ℓ} {P : σ → Prop}
  {ls : List ℓ}

/-- In one of the states since the last `call`, the one right after it included, `P` held. -/
def Since (step : σ → ℓ → Option σ) (s : σ) (call : ℓ) (P : σ → Prop) (ls : List ℓ) : Prop :=
  ∃ before part rest t, ls = before ++ call :: (part ++ rest) ∧ call ∉ part ++ rest ∧
    run step s (before ++ call :: part) = some t ∧ P t

namespace Since

theorem append (h : Since step s call P ls) (hl : l ≠ call) : Since step s call P (ls ++ [l]) := by
  obtain ⟨before, part, rest, t, rfl, hnot, hrun, ht⟩ := h
  refine ⟨before, part, rest ++ [l], t, by simp, ?_, hrun, ht⟩
  rw [← List.append_assoc, List.mem_append, List.mem_singleton]
  rintro (hmem | rfl)
  · exact hnot hmem
  · exact hl rfl

theorem now (hcall : call ∈ ls) (hrun : run step s ls = some t) (ht : P t) :
    Since step s call P ls := by
  obtain ⟨after, before, heq, hnot⟩ := List.eq_append_cons_of_mem (List.mem_reverse.mpr hcall)
  have hls : ls = before.reverse ++ call :: after.reverse := by
    rw [← List.reverse_reverse ls, heq]
    simp
  refine ⟨before.reverse, after.reverse, [], t, by rw [hls, List.append_nil], ?_, hls ▸ hrun, ht⟩
  simpa using hnot

end Since

end Mimuw.Lib
