/-!
# Imperative computations

A computation changes a state, and it gives a value, raises an exception or ends the
program.  There are rules for what it keeps, and for two computations that run in step
until they part.
-/

namespace Mimuw.Lib

inductive Ending (ε α : Type) where
  | value (a : α)
  | raised (e : ε)
  | exited (code : Int)

def Imp (σ ε α : Type) : Type := σ → Ending ε α × σ

namespace Imp

variable {σ τ ε α β : Type}

def pure (a : α) : Imp σ ε α := fun s => (.value a, s)

def bind (m : Imp σ ε α) (f : α → Imp σ ε β) : Imp σ ε β := fun s =>
  match m s with
  | (.value a, s') => f a s'
  | (.raised e, s') => (.raised e, s')
  | (.exited code, s') => (.exited code, s')

instance : Monad (Imp σ ε) where
  pure := pure
  bind := bind

def raise (e : ε) : Imp σ ε α := fun s => (.raised e, s)

def exit (code : Int) : Imp σ ε α := fun s => (.exited code, s)

def read (f : σ → α) : Imp σ ε α := fun s => (.value (f s), s)

def update (f : σ → σ) : Imp σ ε Unit := fun s => (.value (), f s)

/-- The exceptions that are not caught go on. -/
def attempt (m : Imp σ ε α) (caught : ε → Bool) (handler : ε → Imp σ ε α) : Imp σ ε α := fun s =>
  match m s with
  | (.raised e, s') => if caught e then handler e s' else (.raised e, s')
  | (.value a, s') => (.value a, s')
  | (.exited code, s') => (.exited code, s')

def forEach : List β → (β → Imp σ ε Unit) → Imp σ ε Unit
  | [], _ => pure ()
  | b :: bs, body => do
      body b
      forEach bs body

/-! ## Equations -/

theorem bind_of_value {m : Imp σ ε α} {f : α → Imp σ ε β} {s s' : σ} {a : α}
    (h : m s = (.value a, s')) : (m >>= f) s = f a s' := by
  change bind m f s = _
  rw [bind, h]

theorem attempt_of_value {m : Imp σ ε α} {caught : ε → Bool} {handler : ε → Imp σ ε α} {s s' : σ}
    {a : α} (h : m s = (.value a, s')) : attempt m caught handler s = (.value a, s') := by
  rw [attempt, h]

/-! ## Triples -/

def EndsIn (Q : α → σ → Prop) (E : σ → Prop) : Ending ε α × σ → Prop
  | (.value a, s) => Q a s
  | (.raised _, s) => E s
  | (.exited _, s) => E s

/-- From a state with `P` the computation gives a value with `Q`, or it ends in a state
with `E`. -/
def Meets (P : σ → Prop) (m : Imp σ ε α) (Q : α → σ → Prop) (E : σ → Prop) : Prop :=
  ∀ s, P s → EndsIn Q E (m s)

section Meets

variable {P : σ → Prop} {Q : α → σ → Prop} {E : σ → Prop}

theorem Meets.pure {a : α} (h : ∀ s, P s → Q a s) : Meets P (Pure.pure a : Imp σ ε α) Q E := h

theorem Meets.raise {e : ε} (h : ∀ s, P s → E s) : Meets P (raise e : Imp σ ε α) Q E := h

theorem Meets.exit {code : Int} (h : ∀ s, P s → E s) : Meets P (exit code : Imp σ ε α) Q E := h

theorem Meets.read {f : σ → α} (h : ∀ s, P s → Q (f s) s) :
    Meets P (read f : Imp σ ε α) Q E := h

theorem Meets.update {f : σ → σ} {Q : Unit → σ → Prop} (h : ∀ s, P s → Q () (f s)) :
    Meets P (update f : Imp σ ε Unit) Q E := h

theorem Meets.bind {m : Imp σ ε α} {f : α → Imp σ ε β} {R : β → σ → Prop} (hm : Meets P m Q E)
    (hf : ∀ a, Meets (Q a) (f a) R E) : Meets P (m >>= f) R E := by
  intro s hs
  have hfirst := hm s hs
  change EndsIn R E (Imp.bind m f s)
  rw [Imp.bind]
  rcases hend : m s with ⟨ending, s'⟩
  rw [hend] at hfirst
  cases ending with
  | value a => exact hf a s' hfirst
  | raised e => exact hfirst
  | exited code => exact hfirst

theorem EndsIn.mono {Q' : α → σ → Prop} {E' : σ → Prop} {result : Ending ε α × σ}
    (h : EndsIn Q E result) (hQ : ∀ a s, Q a s → Q' a s) (hE : ∀ s, E s → E' s) :
    EndsIn Q' E' result := by
  obtain ⟨ending, s⟩ := result
  cases ending with
  | value a => exact hQ a s h
  | raised e => exact hE s h
  | exited code => exact hE s h

theorem Meets.mono {m : Imp σ ε α} {P' : σ → Prop} {Q' : α → σ → Prop} {E' : σ → Prop}
    (h : Meets P m Q E) (hP : ∀ s, P' s → P s) (hQ : ∀ a s, Q a s → Q' a s)
    (hE : ∀ s, E s → E' s) : Meets P' m Q' E' :=
  fun s hs => (h s (hP s hs)).mono hQ hE

theorem Meets.assuming {m : Imp σ ε α} {p : Prop} (h : p → Meets P m Q E) :
    Meets (fun s => P s ∧ p) m Q E :=
  fun s hs => h hs.2 s hs.1

theorem Meets.attempt {m : Imp σ ε α} {caught : ε → Bool} {handler : ε → Imp σ ε α}
    (hm : Meets P m Q E) (hhandler : ∀ e, Meets E (handler e) Q E) :
    Meets P (attempt m caught handler) Q E := by
  intro s hs
  have hfirst := hm s hs
  rw [Imp.attempt]
  rcases hend : m s with ⟨ending, s'⟩
  rw [hend] at hfirst
  cases ending with
  | value a => exact hfirst
  | exited code => exact hfirst
  | raised e =>
      by_cases hcaught : caught e = true
      · simp only [if_pos hcaught]
        exact hhandler e s' hfirst
      · simp only [if_neg hcaught]
        exact hfirst

theorem Meets.forEach {bs : List β} {body : β → Imp σ ε Unit}
    (h : ∀ b ∈ bs, Meets P (body b) (fun _ => P) E) :
    Meets P (forEach bs body) (fun _ => P) E := by
  induction bs with
  | nil => exact Meets.pure fun _ => id
  | cons b bs ih =>
      exact (h b List.mem_cons_self).bind fun _ =>
        ih fun b' hb' => h b' (List.mem_cons_of_mem b hb')

end Meets

section Keeps

variable {I : σ → Prop} {m : Imp σ ε α} {s : σ}

/-- `I` holds after the computation however it ends. -/
def Keeps (I : σ → Prop) (m : Imp σ ε α) : Prop := ∀ s, I s → I (m s).2

theorem Keeps.meets (h : Keeps I m) : Meets I m (fun _ => I) I := by
  intro s hs
  have hkeeps := h s hs
  rcases hend : m s with ⟨ending, s'⟩
  rw [hend] at hkeeps
  cases ending with
  | value a => exact hkeeps
  | raised e => exact hkeeps
  | exited code => exact hkeeps

theorem holds_bind {f : α → Imp σ ε β} (hf : ∀ a, Keeps I (f a)) (h : I (m s).2) :
    I ((m >>= f) s).2 := by
  change I (Imp.bind m f s).2
  rw [Imp.bind]
  rcases hend : m s with ⟨ending, s'⟩
  rw [hend] at h
  cases ending with
  | value a => exact hf a s' h
  | raised e => exact h
  | exited code => exact h

private theorem holds_attempt {caught : ε → Bool} {handler : ε → Imp σ ε α}
    (hhandler : ∀ e, Keeps I (handler e)) (h : I (m s).2) :
    I (attempt m caught handler s).2 := by
  rw [Imp.attempt]
  rcases hend : m s with ⟨ending, s'⟩
  rw [hend] at h
  cases ending with
  | value a => exact h
  | exited code => exact h
  | raised e =>
      by_cases hcaught : caught e = true
      · simp only [if_pos hcaught]
        exact hhandler e s' h
      · simp only [if_neg hcaught]
        exact h

theorem Keeps.bind {f : α → Imp σ ε β} (hm : Keeps I m) (hf : ∀ a, Keeps I (f a)) :
    Keeps I (m >>= f) :=
  fun s hs => holds_bind hf (hm s hs)

end Keeps

/-! ## Two computations in step -/

/-- From states with `R` the computations end alike in states with `R`, or the one has
got to `A` and the other one to `B`, which are kept. -/
structure Lockstep (R : σ → τ → Prop) (A : σ → Prop) (B : τ → Prop) (m : Imp σ ε α)
    (m' : Imp τ ε α) : Prop where
  together : ∀ s t, R s t →
    (m s).1 = (m' t).1 ∧ R (m s).2 (m' t).2 ∨ A (m s).2 ∧ B (m' t).2
  left : Keeps A m
  right : Keeps B m'

section Lockstep

variable {R : σ → τ → Prop} {A : σ → Prop} {B : τ → Prop}

theorem Lockstep.pure (a : α) :
    Lockstep R A B (Pure.pure a : Imp σ ε α) (Pure.pure a) :=
  ⟨fun _ _ h => .inl ⟨rfl, h⟩, fun _ h => h, fun _ h => h⟩

theorem Lockstep.raise (e : ε) : Lockstep R A B (raise e : Imp σ ε α) (raise e) :=
  ⟨fun _ _ h => .inl ⟨rfl, h⟩, fun _ h => h, fun _ h => h⟩

theorem Lockstep.exit (code : Int) : Lockstep R A B (exit code : Imp σ ε α) (exit code) :=
  ⟨fun _ _ h => .inl ⟨rfl, h⟩, fun _ h => h, fun _ h => h⟩

theorem Lockstep.bind {m : Imp σ ε α} {m' : Imp τ ε α} {f : α → Imp σ ε β} {f' : α → Imp τ ε β}
    (hm : Lockstep R A B m m') (hf : ∀ a, Lockstep R A B (f a) (f' a)) :
    Lockstep R A B (m >>= f) (m' >>= f') := by
  refine ⟨fun s t hst => ?_, hm.left.bind fun a => (hf a).left,
    hm.right.bind fun a => (hf a).right⟩
  rcases hm.together s t hst with ⟨hend, hstill⟩ | ⟨ha, hb⟩
  · change (Imp.bind m f s).1 = (Imp.bind m' f' t).1 ∧
        R (Imp.bind m f s).2 (Imp.bind m' f' t).2 ∨
      A (Imp.bind m f s).2 ∧ B (Imp.bind m' f' t).2
    rw [Imp.bind, Imp.bind]
    rcases hs : m s with ⟨ending, s'⟩
    rcases ht : m' t with ⟨ending', t'⟩
    rw [hs, ht] at hend hstill
    obtain rfl : ending = ending' := hend
    cases ending with
    | value a => exact (hf a).together s' t' hstill
    | raised e => exact .inl ⟨rfl, hstill⟩
    | exited code => exact .inl ⟨rfl, hstill⟩
  · exact .inr ⟨holds_bind (fun a => (hf a).left) ha, holds_bind (fun a => (hf a).right) hb⟩

theorem Lockstep.attempt {m : Imp σ ε α} {m' : Imp τ ε α} {caught : ε → Bool}
    {handler : ε → Imp σ ε α} {handler' : ε → Imp τ ε α} (hm : Lockstep R A B m m')
    (hhandler : ∀ e, Lockstep R A B (handler e) (handler' e)) :
    Lockstep R A B (attempt m caught handler) (attempt m' caught handler') := by
  refine ⟨fun s t hst => ?_,
    fun s hs => holds_attempt (fun e => (hhandler e).left) (hm.left s hs),
    fun t ht => holds_attempt (fun e => (hhandler e).right) (hm.right t ht)⟩
  rcases hm.together s t hst with ⟨hend, hstill⟩ | ⟨ha, hb⟩
  · rw [Imp.attempt, Imp.attempt]
    rcases hs : m s with ⟨ending, s'⟩
    rcases ht : m' t with ⟨ending', t'⟩
    rw [hs, ht] at hend hstill
    obtain rfl : ending = ending' := hend
    cases ending with
    | value a => exact .inl ⟨rfl, hstill⟩
    | exited code => exact .inl ⟨rfl, hstill⟩
    | raised e =>
        by_cases hcaught : caught e = true
        · simp only [if_pos hcaught]
          exact (hhandler e).together s' t' hstill
        · simp only [if_neg hcaught]
          exact .inl ⟨trivial, hstill⟩
  · exact .inr ⟨holds_attempt (fun e => (hhandler e).left) ha,
      holds_attempt (fun e => (hhandler e).right) hb⟩

theorem Lockstep.forEach {bs : List β} {body : β → Imp σ ε Unit} {body' : β → Imp τ ε Unit}
    (h : ∀ b, Lockstep R A B (body b) (body' b)) :
    Lockstep R A B (forEach bs body) (forEach bs body') := by
  induction bs with
  | nil => exact Lockstep.pure ()
  | cons b bs ih => exact (h b).bind fun _ => ih

end Lockstep

end Imp

end Mimuw.Lib
