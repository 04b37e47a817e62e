import Mathlib.Data.List.Basic

/-!
# Machines that react

A machine reacts to an event with a change of state and with what can be observed of it.
Events that it does not react to can be left out.
-/

namespace Mimuw.Lib

variable {σ ε ω : Type*} {react : σ → ε → σ × List ω} {I : σ → Prop} {heard : ε → Bool} {s : σ}

/-- The state after some events, and what was observed. -/
def transcript (react : σ → ε → σ × List ω) (s : σ) : List ε → σ × List ω
  | [] => (s, [])
  | e :: es =>
      let rest := transcript react (react s e).1 es
      (rest.1, (react s e).2 ++ rest.2)

theorem forall_transcript {P : ω → Prop} (h : ∀ s e, ∀ o ∈ (react s e).2, P o) (s : σ)
    (es : List ε) : ∀ o ∈ (transcript react s es).2, P o := by
  induction es generalizing s with
  | nil => exact fun _ ho => absurd ho List.not_mem_nil
  | cons e es ih =>
      intro o ho
      rcases List.mem_append.mp ho with ho | ho
      · exact h s e o ho
      · exact ih _ o ho

theorem transcript_filter (hkeep : ∀ s e, I s → I (react s e).1)
    (hskip : ∀ s e, I s → heard e = false → react s e = (s, [])) (h : I s) (es : List ε) :
    transcript react s (es.filter heard) = transcript react s es := by
  induction es generalizing s with
  | nil => rfl
  | cons e es ih =>
      cases he : heard e with
      | true =>
          rw [List.filter_cons_of_pos he]
          simp only [transcript]
          rw [ih (hkeep s e h)]
      | false =>
          rw [List.filter_cons_of_neg (by simp [he]), ih h]
          simp only [transcript]
          rw [hskip s e h he]
          rfl

end Mimuw.Lib
