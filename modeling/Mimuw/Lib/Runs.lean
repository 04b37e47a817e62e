import Mathlib.Data.List.Basic
import Mathlib.Data.List.Induction
import Mathlib.Logic.Basic
import Mathlib.Logic.Relation

/-!
# Runs of step functions

Two shapes of step function recur.  A *labelled* step may be disabled: it maps
a state and a label to the next state, if there is one, and a run is a list of
labels, so that a statement about every list of labels is a statement about
every interleaving.  A *call* step is total and answers, and a history is the
list of its answers.  The rules below turn what one step preserves into what a
whole run preserves.
-/

namespace Mimuw.Lib

/-! ## Labelled steps -/

section Labelled

variable {σ ℓ : Type*}

def run (step : σ → ℓ → Option σ) : σ → List ℓ → Option σ
  | s, [] => some s
  | s, l :: ls => (step s l).bind fun s' => run step s' ls

/-- Every step of the run starts in a state where `G` allows its label. -/
def Meets (step : σ → ℓ → Option σ) (G : σ → ℓ → Prop) : σ → List ℓ → Prop
  | _, [] => True
  | s, l :: ls => G s l ∧ ∀ s', step s l = some s' → Meets step G s' ls

variable {step : σ → ℓ → Option σ} {G : σ → ℓ → Prop}

instance decidableMeets [∀ s l, Decidable (G s l)] (s : σ) (ls : List ℓ) :
    Decidable (Meets step G s ls) :=
  match ls with
  | [] => isTrue trivial
  | l :: ls =>
      have (s' : σ) : Decidable (Meets step G s' ls) := decidableMeets s' ls
      inferInstanceAs (Decidable (G s l ∧ ∀ s' ∈ step s l, Meets step G s' ls))

@[simp] theorem run_nil (s : σ) : run step s [] = some s := rfl

theorem run_cons {s t : σ} {l : ℓ} {ls : List ℓ} :
    run step s (l :: ls) = some t ↔
      ∃ s', step s l = some s' ∧ run step s' ls = some t := by
  simp [run, Option.bind_eq_some_iff]

theorem run_append {s t : σ} {ls ms : List ℓ} :
    run step s (ls ++ ms) = some t ↔
      ∃ s', run step s ls = some s' ∧ run step s' ms = some t := by
  induction ls generalizing s with
  | nil => simp
  | cons l ls ih =>
      simp only [List.cons_append, run_cons, ih]
      constructor
      · rintro ⟨s₁, h₁, s₂, h₂, h₃⟩
        exact ⟨s₂, ⟨s₁, h₁, h₂⟩, h₃⟩
      · rintro ⟨s₂, ⟨s₁, h₁, h₂⟩, h₃⟩
        exact ⟨s₁, h₁, s₂, h₂, h₃⟩

/-- What every allowed step preserves holds at the end of every allowed run. -/
theorem guarded_run_invariant {I : σ → Prop}
    (hstep : ∀ s l s', I s → G s l → step s l = some s' → I s')
    {s t : σ} {ls : List ℓ} (hs : I s) (hmeets : Meets step G s ls)
    (hrun : run step s ls = some t) : I t := by
  induction ls generalizing s with
  | nil =>
      simp only [run_nil, Option.some.injEq] at hrun
      exact hrun ▸ hs
  | cons l ls ih =>
      obtain ⟨s', hl, hrest⟩ := run_cons.mp hrun
      exact ih (hstep s l s' hs hmeets.1 hl) (hmeets.2 s' hl) hrest

theorem meets_append {s : σ} {ls ms : List ℓ} :
    Meets step G s (ls ++ ms) ↔
      Meets step G s ls ∧ ∀ t, run step s ls = some t → Meets step G t ms := by
  induction ls generalizing s with
  | nil => simp [Meets]
  | cons l ls ih =>
      simp only [List.cons_append, Meets, ih, run_cons]
      constructor
      · rintro ⟨hl, hrest⟩
        exact ⟨⟨hl, fun s' hs' => (hrest s' hs').1⟩,
          fun t ⟨s', hs', ht⟩ => (hrest s' hs').2 t ht⟩
      · rintro ⟨⟨hl, hls⟩, hms⟩
        exact ⟨hl, fun s' hs' => ⟨hls s' hs', fun t ht => hms t ⟨s', hs', ht⟩⟩⟩

/-- Step by step, with what was done before and what is still to be done. -/
theorem meets_of_splits {s : σ} {ls : List ℓ}
    (h : ∀ before l after t, ls = before ++ l :: after → run step s before = some t → G t l) :
    Meets step G s ls := by
  induction ls generalizing s with
  | nil => trivial
  | cons l ls ih =>
      refine ⟨h [] l ls s rfl rfl, fun s' hs' => ih fun before m after t hls ht => ?_⟩
      exact h (l :: before) m after t (by rw [hls, List.cons_append])
        (run_cons.mpr ⟨s', hs', ht⟩)

/-- A property that exactly the allowed steps keep holds in every state of a run if and
only if every step of it is allowed. -/
theorem meets_iff_always {I P : σ → Prop} (hinv : ∀ s l s', I s → step s l = some s' → I s')
    (hstep : ∀ s l s', I s → P s → step s l = some s' → (P s' ↔ G s l))
    (hstuck : ∀ s l, step s l = none → G s l) {s : σ} (hs : I s) (hp : P s) (ls : List ℓ) :
    Meets step G s ls ↔ ∀ before t, before <+: ls → run step s before = some t → P t := by
  induction ls generalizing s with
  | nil =>
      refine iff_of_true trivial fun before t hbefore ht => ?_
      rw [List.prefix_nil.mp hbefore, run_nil] at ht
      exact Option.some_inj.mp ht ▸ hp
  | cons l ls ih =>
      constructor
      · rintro ⟨hl, hrest⟩ before t hbefore ht
        cases before with
        | nil => exact Option.some_inj.mp ht ▸ hp
        | cons m before =>
            obtain ⟨rfl, hprefix⟩ := List.cons_prefix_cons.mp hbefore
            obtain ⟨s', hs', ht⟩ := run_cons.mp ht
            have hp' : P s' := (hstep s m s' hs hp hs').mpr hl
            exact (ih (hinv s m s' hs hs') hp').mp (hrest s' hs') before t hprefix ht
      · intro h
        have hfirst : ∀ s', step s l = some s' → P s' := fun s' hs' =>
          h [l] s' (by simp) (run_cons.mpr ⟨s', hs', run_nil s'⟩)
        refine ⟨?_, fun s' hs' => (ih (hinv s l s' hs hs') (hfirst s' hs')).mpr ?_⟩
        · cases hl : step s l with
          | none => exact hstuck s l hl
          | some s' => exact (hstep s l s' hs hp hl).mp (hfirst s' hl)
        · intro before t hbefore ht
          exact h (l :: before) t (List.cons_prefix_cons.mpr ⟨rfl, hbefore⟩)
            (run_cons.mpr ⟨s', hs', ht⟩)

/-- An invariant that also speaks of the steps made so far. -/
theorem guarded_history_invariant {I : List ℓ → σ → Prop} {s : σ}
    (hstep : ∀ ls t l t', run step s ls = some t → I ls t → G t l → step t l = some t' →
      I (ls ++ [l]) t')
    (hs : I [] s) {ls : List ℓ} {t : σ} (hmeets : Meets step G s ls)
    (hrun : run step s ls = some t) : I ls t := by
  induction ls using List.reverseRecOn generalizing t with
  | nil =>
      simp only [run_nil, Option.some.injEq] at hrun
      exact hrun ▸ hs
  | append_singleton ls l ih =>
      obtain ⟨u, hu, hlast⟩ := run_append.mp hrun
      obtain ⟨hbefore, hguard⟩ := meets_append.mp hmeets
      obtain ⟨t', hl, ht⟩ := run_cons.mp hlast
      simp only [run_nil, Option.some.injEq] at ht
      subst ht
      exact hstep ls u l t' hu (ih hbefore hu) (hguard u hu).1 hl

theorem meets_of_forall (h : ∀ s l, G s l) (s : σ) (ls : List ℓ) :
    Meets step G s ls := by
  induction ls generalizing s with
  | nil => trivial
  | cons l ls ih => exact ⟨h s l, fun s' _ => ih s'⟩

theorem run_invariant {I : σ → Prop}
    (hstep : ∀ s l s', I s → step s l = some s' → I s')
    {s t : σ} {ls : List ℓ} (hs : I s) (hrun : run step s ls = some t) :
    I t :=
  guarded_run_invariant (G := fun _ _ => True)
    (fun s l s' hi _ hl => hstep s l s' hi hl) hs
    (meets_of_forall (fun _ _ => trivial) s ls) hrun

/-! ### Goals that cannot be missed -/

/-- Whatever is chosen, `Q` is reached within a bounded number of steps, and a
run that has not reached it yet is never stuck. -/
def Inevitable (step : σ → ℓ → Option σ) (Q : σ → Prop) (s : σ) : Prop :=
  ∃ bound, ∀ ls t, run step s ls = some t →
    Q t ∨ ls.length < bound ∧ ∃ l, (step t l).isSome

/-- The variant rule: before the goal some step is enabled, and every step
lowers the variant that comes with `I`. -/
theorem inevitable_of_variant {I : σ → Nat → Prop} {Q : σ → Prop}
    (hstep : ∀ s n, I s n → Q s ∨
      (∃ l, (step s l).isSome) ∧
        ∀ l s', step s l = some s' → ∃ m, m < n ∧ I s' m)
    (hgoal : ∀ s l s', Q s → step s l = some s' → Q s')
    {s : σ} {n : Nat} (hs : I s n) : Inevitable step Q s := by
  refine ⟨n + 1, fun ls t hrun => ?_⟩
  induction ls generalizing s n with
  | nil =>
      simp only [run_nil, Option.some.injEq] at hrun
      subst hrun
      rcases hstep s n hs with hQ | ⟨henabled, -⟩
      · exact .inl hQ
      · exact .inr ⟨Nat.succ_pos n, henabled⟩
  | cons l ls ih =>
      obtain ⟨s', hl, hrest⟩ := run_cons.mp hrun
      rcases hstep s n hs with hQ | ⟨-, hlower⟩
      · exact .inl (run_invariant hgoal (hgoal s l s' hQ hl) hrest)
      · obtain ⟨m, hmn, hs'⟩ := hlower l s' hl
        rcases ih hs' hrest with hQ | ⟨hlen, henabled⟩
        · exact .inl hQ
        · refine .inr ⟨?_, henabled⟩
          simp only [List.length_cons]
          omega

/-- A goal can be missed when a run leads to where `I` holds, which no step
leaves and which the goal is not part of. -/
theorem not_inevitable {I : σ → Prop} {Q : σ → Prop} (hgoal : ∀ s, I s → ¬ Q s)
    (hstep : ∀ s l s', I s → step s l = some s' → I s')
    {s t : σ} {ls : List ℓ} (hrun : run step s ls = some t) (ht : I t) :
    ¬ Inevitable step Q s := by
  rintro ⟨bound, h⟩
  have hlong : ∀ k, ∃ ms u, run step s ms = some u ∧ I u ∧ k ≤ ms.length := by
    intro k
    induction k with
    | zero => exact ⟨ls, t, hrun, ht, Nat.zero_le _⟩
    | succ k ih =>
        obtain ⟨ms, u, hms, hu, hk⟩ := ih
        rcases h ms u hms with hQ | ⟨-, l, hl⟩
        · exact absurd hQ (hgoal u hu)
        · obtain ⟨v, hv⟩ := Option.isSome_iff_exists.mp hl
          refine ⟨ms ++ [l], v, run_append.mpr ⟨u, hms, ?_⟩, hstep u l v hu hv, ?_⟩
          · simp [run, hv]
          · simp only [List.length_append, List.length_singleton]
            omega
  obtain ⟨ms, u, hms, hu, hk⟩ := hlong bound
  rcases h ms u hms with hQ | ⟨hlt, -⟩
  · exact hgoal u hu hQ
  · omega

end Labelled

/-! ## Steps without labels -/

section Trace

variable {σ : Type*}

/-- The states up to the one with no next step, if the fuel is enough to see it. -/
def trace (next : σ → Option σ) : Nat → σ → Option (List σ)
  | 0, _ => none
  | fuel + 1, s =>
      match next s with
      | some t => (trace next fuel t).map (s :: ·)
      | none => some [s]

theorem trace_of_steps {next : σ → Option σ} {s t : σ}
    (h : Relation.ReflTransGen (fun a b => next a = some b) s t) (ht : next t = none) :
    ∃ fuel path, trace next fuel s = some path ∧ path.getLast? = some t := by
  induction h using Relation.ReflTransGen.head_induction_on with
  | refl => exact ⟨1, [t], by simp [trace, ht], rfl⟩
  | @head a b hstep _ ih =>
      obtain ⟨fuel, path, hpath, hlast⟩ := ih
      refine ⟨fuel + 1, a :: path, by simp [trace, hstep, hpath], ?_⟩
      rw [List.getLast?_cons, hlast]
      rfl

/-- More fuel shows the same states. -/
theorem trace_mono {next : σ → Option σ} {fuel more : Nat} {s : σ} {path : List σ}
    (h : trace next fuel s = some path) (hle : fuel ≤ more) :
    trace next more s = some path := by
  induction fuel generalizing more s path with
  | zero => cases h
  | succ fuel ih =>
      obtain ⟨more, rfl⟩ : ∃ m, more = m + 1 := ⟨more - 1, by omega⟩
      cases hs : next s with
      | none => simpa [trace, hs] using h
      | some t =>
          simp only [trace, hs, Option.map_eq_some_iff] at h ⊢
          obtain ⟨rest, hrest, rfl⟩ := h
          exact ⟨rest, ih hrest (by omega), rfl⟩

/-- The run from one state up to another shows these values, in order. -/
inductive Shows {β : Type*} (next : σ → Option σ) (observe : σ → Option β) :
    σ → List β → σ → Prop where
  | refl (s : σ) : Shows next observe s [] s
  | head {s t u : σ} {bs : List β} (hstep : next s = some t) (hrest : Shows next observe t bs u) :
      Shows next observe s ((observe s).toList ++ bs) u

namespace Shows

variable {β : Type*} {next : σ → Option σ} {observe : σ → Option β} {s t u : σ} {bs cs : List β}

theorem single (h : next s = some t) : Shows next observe s (observe s).toList t := by
  have hone : Shows next observe s ((observe s).toList ++ []) t := .head h (.refl t)
  rwa [List.append_nil] at hone

theorem trans (h : Shows next observe s bs t) (h' : Shows next observe t cs u) :
    Shows next observe s (bs ++ cs) u := by
  induction h with
  | refl => exact h'
  | head hstep _ ih =>
      rw [List.append_assoc]
      exact .head hstep (ih h')

theorem reaches (h : Shows next observe s bs t) :
    Relation.ReflTransGen (fun a b => next a = some b) s t := by
  induction h with
  | refl => exact .refl
  | head hstep _ ih => exact .head hstep ih

/-- A whole run shows what is seen in the states that can be reached. -/
theorem mem_iff (h : Shows next observe s bs t) (hend : next t = none) (hquiet : observe t = none)
    {b : β} :
    (∃ u, Relation.ReflTransGen (fun a b => next a = some b) s u ∧ observe u = some b) ↔
      b ∈ bs := by
  induction h with
  | refl t =>
      refine iff_of_false ?_ List.not_mem_nil
      rintro ⟨u, hu, hb⟩
      rcases hu.cases_head with rfl | ⟨v, hv, -⟩
      · cases hquiet.symm.trans hb
      · cases hend.symm.trans hv
  | @head s v t bs hstep _ ih =>
      rw [List.mem_append, Option.mem_toList, ← ih hend hquiet]
      constructor
      · rintro ⟨u, hu, hb⟩
        rcases hu.cases_head with rfl | ⟨w, hw, hwu⟩
        · exact .inl hb
        · obtain rfl := Option.some.inj (hstep.symm.trans hw)
          exact .inr ⟨u, hwu, hb⟩
      · rintro (hb | ⟨u, hu, hb⟩)
        · exact ⟨s, .refl, hb⟩
        · exact ⟨u, .head hstep hu, hb⟩

end Shows

end Trace

/-! ## Calls that answer -/

section Calls

variable {σ τ ι ο : Type*}

/-- The state after a list of calls and the answers, in order. -/
def calls (step : σ → ι → σ × ο) : σ → List ι → σ × List ο
  | s, [] => (s, [])
  | s, i :: is =>
      let (s', o) := step s i
      let (t, os) := calls step s' is
      (t, o :: os)

/-- Every call of the history is made in a state where `G` allows it. -/
def CallsMeet (step : σ → ι → σ × ο) (G : σ → ι → Prop) : σ → List ι → Prop
  | _, [] => True
  | s, i :: is => G s i ∧ CallsMeet step G (step s i).1 is

variable {step : σ → ι → σ × ο} {T : τ → ι → τ × ο} {G : σ → ι → Prop}

theorem callsMeet_of_forall (h : ∀ s i, G s i) (s : σ) (is : List ι) : CallsMeet step G s is := by
  induction is generalizing s with
  | nil => trivial
  | cons i is ih => exact ⟨h s i, ih _⟩

@[simp] theorem calls_nil (s : σ) : calls step s [] = (s, []) := rfl

@[simp] theorem calls_cons (s : σ) (i : ι) (is : List ι) :
    calls step s (i :: is) =
      ((calls step (step s i).1 is).1,
        (step s i).2 :: (calls step (step s i).1 is).2) := rfl

theorem calls_singleton (s : σ) (i : ι) : (calls step s [i]).1 = (step s i).1 := rfl

theorem calls_append (s : σ) (is js : List ι) :
    calls step s (is ++ js) =
      ((calls step (calls step s is).1 js).1,
        (calls step s is).2 ++ (calls step (calls step s is).1 js).2) := by
  induction is generalizing s with
  | nil => simp
  | cons i is ih => simp [ih]

theorem calls_concat (s : σ) (is : List ι) (i : ι) :
    (calls step s (is ++ [i])).1 = (step (calls step s is).1 i).1 := by
  rw [calls_append, calls_singleton]

theorem calls_invariant {I : σ → Prop}
    (hstep : ∀ s i, I s → I (step s i).1) {s : σ} (hs : I s)
    (is : List ι) : I (calls step s is).1 := by
  induction is generalizing s with
  | nil => exact hs
  | cons i is ih => exact ih (hstep s i hs)

/-- A property that exactly the allowed calls preserve holds all along a history if and
only if every call of it is allowed. The invariant is only kept by the allowed calls. -/
theorem callsMeet_iff_always_of_allowed {I P : σ → Prop}
    (hinv : ∀ s i, I s → G s i → I (step s i).1)
    (hstep : ∀ s i, I s → (P (step s i).1 ↔ G s i)) {s : σ} (hs : I s) (hp : P s)
    (is : List ι) :
    CallsMeet step G s is ↔ ∀ before, before <+: is → P (calls step s before).1 := by
  induction is generalizing s with
  | nil =>
      refine iff_of_true trivial fun before hbefore => ?_
      rw [List.prefix_nil.mp hbefore]
      exact hp
  | cons i is ih =>
      constructor
      · rintro ⟨hi, his⟩ before hbefore
        cases before with
        | nil => exact hp
        | cons j before =>
            obtain ⟨rfl, hrest⟩ := List.cons_prefix_cons.mp hbefore
            exact (ih (hinv s j hs hi) ((hstep s j hs).mpr hi)).mp his before hrest
      · intro h
        have hfirst : P (step s i).1 := h [i] (by simp)
        have hi : G s i := (hstep s i hs).mp hfirst
        exact ⟨hi, (ih (hinv s i hs hi) hfirst).mpr fun before hbefore =>
          h (i :: before) (List.cons_prefix_cons.mpr ⟨rfl, hbefore⟩)⟩

theorem callsMeet_iff_always {I P : σ → Prop} (hinv : ∀ s i, I s → I (step s i).1)
    (hstep : ∀ s i, I s → P s → (P (step s i).1 ↔ G s i)) {s : σ} (hs : I s) (hp : P s)
    (is : List ι) :
    CallsMeet step G s is ↔ ∀ before, before <+: is → P (calls step s before).1 :=
  callsMeet_iff_always_of_allowed (I := fun s => I s ∧ P s)
    (fun s i hs hi => ⟨hinv s i hs.1, (hstep s i hs.1 hs.2).mpr hi⟩)
    (fun s i hs => hstep s i hs.1 hs.2) ⟨hs, hp⟩ hp is

/-- A relation that allowed calls preserve, with equal answers, makes the two
machines agree on every allowed history. -/
theorem calls_simulation {R : σ → τ → Prop}
    (hstep : ∀ s t i, R s t → G s i →
      R (step s i).1 (T t i).1 ∧ (step s i).2 = (T t i).2)
    {s : σ} {t : τ} (h : R s t) {is : List ι}
    (hmeet : CallsMeet step G s is) :
    R (calls step s is).1 (calls T t is).1 ∧
      (calls step s is).2 = (calls T t is).2 := by
  induction is generalizing s t with
  | nil => exact ⟨h, rfl⟩
  | cons i is ih =>
      obtain ⟨hR, ho⟩ := hstep s t i h hmeet.1
      obtain ⟨hR', hos⟩ := ih hR hmeet.2
      exact ⟨hR', by simp [ho, hos]⟩

end Calls

/-! ## Counting loops -/

section Loops

variable {β : Type*}

/-- `for (i = 0; i < n; i++) b = f(b, i)`. -/
def forLoop (n : Nat) (f : β → Nat → β) (b : β) : β :=
  (List.range n).foldl f b

@[simp] theorem forLoop_zero (f : β → Nat → β) (b : β) : forLoop 0 f b = b := rfl

theorem forLoop_succ (n : Nat) (f : β → Nat → β) (b : β) :
    forLoop (n + 1) f b = f (forLoop n f b) n := by
  simp [forLoop, List.range_succ]

/-- The loop rule: `I i` holds when the counter is `i`. -/
theorem forLoop_invariant {n : Nat} {f : β → Nat → β} {b : β}
    {I : Nat → β → Prop} (h0 : I 0 b)
    (hstep : ∀ i b, i < n → I i b → I (i + 1) (f b i)) :
    I n (forLoop n f b) := by
  induction n with
  | zero => exact h0
  | succ n ih =>
      rw [forLoop_succ]
      exact hstep n _ (Nat.lt_succ_self n)
        (ih fun i b hi => hstep i b (Nat.lt_succ_of_lt hi))

/-- Two loops whose bodies keep a relation. -/
theorem forLoop_simulation {γ : Type*} {R : β → γ → Prop} {n : Nat} {f : β → Nat → β}
    {g : γ → Nat → γ} {b : β} {c : γ} (h : R b c)
    (hstep : ∀ i b c, i < n → R b c → R (f b i) (g c i)) : R (forLoop n f b) (forLoop n g c) := by
  induction n with
  | zero => exact h
  | succ n ih =>
      rw [forLoop_succ, forLoop_succ]
      exact hstep n _ _ n.lt_succ_self (ih fun i b c hi => hstep i b c (Nat.lt_succ_of_lt hi))

end Loops

end Mimuw.Lib
