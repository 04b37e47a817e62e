import Mimuw.Lib.Imperative

/-!
# Two computations side by side

The rules of relational triples.  The first computation can be cut short, in a way that
nothing catches; else the two end alike, with values and states that are related.
-/

namespace Mimuw.Lib.Imp

variable {σ τ ε α β γ κ : Type}

/-- How two computations end; `S` says in which state the first one may be cut short by
an exception or with an exit code. -/
inductive Coupled (Q : α → β → σ → τ → Prop) (E : σ → τ → Prop) (S : ε ⊕ Int → σ → Prop) :
    Ending ε α × σ → Ending ε β × τ → Prop where
  | value {a : α} {b : β} {s : σ} {t : τ} (h : Q a b s t) :
      Coupled Q E S (.value a, s) (.value b, t)
  | raised {e : ε} {s : σ} {t : τ} (h : E s t) : Coupled Q E S (.raised e, s) (.raised e, t)
  | exited {code : Int} {s : σ} {t : τ} (h : E s t) :
      Coupled Q E S (.exited code, s) (.exited code, t)
  | cutRaised {e : ε} {s : σ} {result : Ending ε β × τ} (h : S (.inl e) s) :
      Coupled Q E S (.raised e, s) result
  | cutExited {code : Int} {s : σ} {result : Ending ε β × τ} (h : S (.inr code) s) :
      Coupled Q E S (.exited code, s) result

/-- From states with `P` the two computations end so. -/
def Couples (P : σ → τ → Prop) (m : Imp σ ε α) (m' : Imp τ ε β) (Q : α → β → σ → τ → Prop)
    (E : σ → τ → Prop) (S : ε ⊕ Int → σ → Prop) : Prop :=
  ∀ s t, P s t → Coupled Q E S (m s) (m' t)

theorem bind_of_raised {m : Imp σ ε α} {f : α → Imp σ ε γ} {s s' : σ} {e : ε}
    (h : m s = (.raised e, s')) : (m >>= f) s = (.raised e, s') := by
  change bind m f s = _
  rw [bind, h]

variable {P : σ → τ → Prop} {Q : α → β → σ → τ → Prop} {E : σ → τ → Prop}
  {S : ε ⊕ Int → σ → Prop}

theorem Coupled.mono {Q' : α → β → σ → τ → Prop} {E' : σ → τ → Prop}
    {result : Ending ε α × σ} {result' : Ending ε β × τ} (h : Coupled Q E S result result')
    (hQ : ∀ a b s t, Q a b s t → Q' a b s t) (hE : ∀ s t, E s t → E' s t) :
    Coupled Q' E' S result result' := by
  cases h with
  | value h => exact .value (hQ _ _ _ _ h)
  | raised h => exact .raised (hE _ _ h)
  | exited h => exact .exited (hE _ _ h)
  | cutRaised h => exact .cutRaised h
  | cutExited h => exact .cutExited h

theorem Couples.mono {m : Imp σ ε α} {m' : Imp τ ε β} {P' : σ → τ → Prop}
    {Q' : α → β → σ → τ → Prop} (h : Couples P m m' Q E S) (hP : ∀ s t, P' s t → P s t)
    (hQ : ∀ a b s t, Q a b s t → Q' a b s t) : Couples P' m m' Q' E S :=
  fun s t hst => (h s t (hP s t hst)).mono hQ fun _ _ h => h

theorem Couples.ofExists {m : Imp σ ε α} {m' : Imp τ ε β} {P : γ → σ → τ → Prop}
    (h : ∀ c, Couples (P c) m m' Q E S) : Couples (fun s t => ∃ c, P c s t) m m' Q E S :=
  fun s t ⟨c, hst⟩ => h c s t hst

/-- A fact that is not about the states. -/
theorem Couples.assuming {m : Imp σ ε α} {m' : Imp τ ε β} {p : Prop}
    (h : p → Couples P m m' Q E S) : Couples (fun s t => p ∧ P s t) m m' Q E S :=
  fun s t hst => h hst.1 s t hst.2

theorem Couples.pure {a : α} {b : β} (h : ∀ s t, P s t → Q a b s t) :
    Couples P (Pure.pure a : Imp σ ε α) (Pure.pure b : Imp τ ε β) Q E S :=
  fun s t hst => .value (h s t hst)

theorem Couples.raise {e : ε} (h : ∀ s t, P s t → E s t) :
    Couples P (raise e : Imp σ ε α) (raise e : Imp τ ε β) Q E S :=
  fun s t hst => .raised (h s t hst)

theorem Couples.exit {code : Int} (h : ∀ s t, P s t → E s t) :
    Couples P (exit code : Imp σ ε α) (exit code : Imp τ ε β) Q E S :=
  fun s t hst => .exited (h s t hst)

theorem Couples.read {f : σ → α} {f' : τ → β} (h : ∀ s t, P s t → Q (f s) (f' t) s t) :
    Couples P (read f : Imp σ ε α) (read f' : Imp τ ε β) Q E S :=
  fun s t hst => .value (h s t hst)

theorem Couples.update {f : σ → σ} {f' : τ → τ} {Q : Unit → Unit → σ → τ → Prop}
    (h : ∀ s t, P s t → Q () () (f s) (f' t)) :
    Couples P (update f : Imp σ ε Unit) (update f' : Imp τ ε Unit) Q E S :=
  fun s t hst => .value (h s t hst)

theorem Couples.bind {m : Imp σ ε α} {m' : Imp τ ε β} {f : α → Imp σ ε γ} {g : β → Imp τ ε κ}
    {R : γ → κ → σ → τ → Prop} (hm : Couples P m m' Q E S)
    (hf : ∀ a b, Couples (Q a b) (f a) (g b) R E S) :
    Couples P (m >>= f) (m' >>= g) R E S := by
  intro s t hst
  have hfirst := hm s t hst
  change Coupled R E S (Imp.bind m f s) (Imp.bind m' g t)
  rw [Imp.bind, Imp.bind]
  rcases hs : m s with ⟨ending, s'⟩
  rcases ht : m' t with ⟨ending', t'⟩
  rw [hs, ht] at hfirst
  cases hfirst with
  | value h => exact hf _ _ _ _ h
  | raised h => exact .raised h
  | exited h => exact .exited h
  | cutRaised h => exact .cutRaised h
  | cutExited h => exact .cutExited h

/-- Only the first computation does something more. -/
theorem Couples.ahead {m : Imp σ ε α} {f : α → Imp σ ε γ} {m' : Imp τ ε κ}
    {Q : α → σ → τ → Prop} {R : γ → κ → σ → τ → Prop}
    (hm : Couples P m (Pure.pure () : Imp τ ε Unit) (fun a _ => Q a) E S)
    (hf : ∀ a, Couples (Q a) (f a) m' R E S) : Couples P (m >>= f) m' R E S :=
  Couples.bind (g := fun _ => m') hm fun a _ => hf a

theorem Couples.first {m : Imp σ ε α} {f : α → Imp σ ε γ} {m' : Imp τ ε κ}
    {R : γ → κ → σ → τ → Prop} {P' : α → σ → τ → Prop}
    (hm : ∀ s t, P s t → ∃ a s', m s = (.value a, s') ∧ P' a s' t)
    (hf : ∀ a, Couples (P' a) (f a) m' R E S) : Couples P (m >>= f) m' R E S := by
  intro s t hst
  obtain ⟨a, s', hms, hP'⟩ := hm s t hst
  rw [bind_of_value hms]
  exact hf a s' t hP'

theorem Couples.attempt {m : Imp σ ε α} {m' : Imp τ ε β} {caught : ε → Bool}
    {handler : ε → Imp σ ε α} {handler' : ε → Imp τ ε β} (hm : Couples P m m' Q E S)
    (hcut : ∀ e s, S (.inl e) s → caught e = false)
    (hhandler : ∀ e, Couples E (handler e) (handler' e) Q E S) :
    Couples P (attempt m caught handler) (attempt m' caught handler') Q E S := by
  intro s t hst
  have hfirst := hm s t hst
  rw [Imp.attempt, Imp.attempt]
  rcases hs : m s with ⟨ending, s'⟩
  rcases ht : m' t with ⟨ending', t'⟩
  rw [hs, ht] at hfirst
  cases hfirst with
  | value h => exact .value h
  | exited h => exact .exited h
  | cutExited h => exact .cutExited h
  | @raised e _ _ h =>
      by_cases hcaught : caught e = true
      · simp only [if_pos hcaught]
        exact hhandler e s' t' h
      · simp only [if_neg hcaught]
        exact .raised h
  | @cutRaised e _ _ h =>
      have hfree : ¬ caught e = true := by simp [hcut e s' h]
      simp only [if_neg hfree]
      exact .cutRaised h

theorem Couples.forEach {bs : List γ} {body : γ → Imp σ ε Unit} {body' : γ → Imp τ ε Unit}
    (h : ∀ b, Couples P (body b) (body' b) (fun _ _ => P) E S) :
    Couples P (forEach bs body) (forEach bs body') (fun _ _ => P) E S := by
  induction bs with
  | nil => exact Couples.pure fun _ _ h => h
  | cons b bs ih => exact (h b).bind fun _ _ => ih

end Mimuw.Lib.Imp
