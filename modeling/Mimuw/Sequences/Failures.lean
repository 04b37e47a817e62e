import Mimuw.Sequences.Refinement

/-!
# Histories in which allocations fail

A trie that `seq_new` could not allocate refuses everything.  Any other keeps its
accounts, whichever allocations fail later, and a call that is refused leaves the
nodes, the records and the names as they were.
-/

namespace Mimuw.Sequences

open Mimuw.Lib

variable {A : Allocator} {s t : State} {root root' : Seq} {m m' : Memory}
  {M : Multiset (Option Addr)} {a : NamedSequences}

/-! ## What holds after every history -/

/-- There is no trie, or it holds some named sequences. -/
structure Sound (s : State) : Prop where
  accounts : Accounts s.memory s.root.labels
  held : s.root = .null ∨ ∃ a, Represents s a

theorem Represents.sound (h : Represents s a) : Sound s :=
  ⟨h.accounts, .inr ⟨a, h⟩⟩

/-- Without a trie every call answers with `EINVAL`. -/
private theorem step_null (m : Memory) (call : Call) :
    step A ⟨.null, m⟩ call = (⟨.null, m⟩, .code (.error .einval)) ∨
      step A ⟨.null, m⟩ call = (⟨.null, m⟩, .name (.error .einval)) := by
  cases call with
  | add w => exact .inl (by simp [step, answerCode, seqAdd])
  | remove w => exact .inl (by simp [step, answerCode, seqRemove])
  | valid w => exact .inl (by simp [step, answerCode, seqValid])
  | setName w n => exact .inl (by simp [step, answerCode, seqSetName])
  | getName w => exact .inr (by simp [step, seqGetName])
  | equiv w₁ w₂ => exact .inl (by simp [step, answerCode, seqEquiv])

private theorem specStep_defined (a : NamedSequences) (call : Call) :
    (specStep a call).2 ≠ .undefinedBehaviour := by
  cases call <;> simp only [specStep] <;> split <;> (try split_ifs) <;> simp

private theorem initial_sound (A : Allocator) : Sound (.initial A) := by
  rcases newNode_cases A .empty with ⟨⟨k, hnew⟩, -⟩ | ⟨k, hnew⟩
  · rw [State.initial, seqNew, hnew]
    exact ⟨accounts_empty k, .inl rfl⟩
  · rw [State.initial, seqNew, hnew]
    exact (new_represents k).sound

theorem step_sound (h : Sound s) (call : Call) :
    Sound (step A s call).1 ∧ (step A s call).2 ≠ .undefinedBehaviour := by
  rcases h.held with hnull | ⟨a, ha⟩
  · obtain ⟨root, m⟩ := s
    subst hnull
    rcases step_null (A := A) m call with heq | heq <;> rw [heq] <;> exact ⟨h, by simp⟩
  · rcases step_agrees (A := A) ha call with ⟨hanswer, hrep⟩ | ⟨hanswer, hrep, -⟩
    · exact ⟨hrep.sound, hanswer ▸ specStep_defined a call⟩
    · exact ⟨hrep.sound, by simp [hanswer]⟩

theorem calls_sound (A : Allocator) (history : List Call) :
    Sound (calls (step A) (.initial A) history).1 :=
  calls_invariant (I := Sound) (fun _ call h => (step_sound h call).1) (initial_sound A) history

/-! ## Records of classes -/

/-- What the counters and the pointers to records say. -/
structure ClassesCounted (s : State) : Prop where
  counter : ∀ c r, s.memory.classes.lookup c = some r → r.counter = s.root.labels.count (some c)
  used : ∀ c r, s.memory.classes.lookup c = some r → 1 ≤ r.counter
  name : ∀ c r, s.memory.classes.lookup c = some r → r.s ≠ none
  live : ∀ w c, s.root.label w = some (some c) → c ∈ s.memory.classes

private theorem Accounts.classesCounted (h : Accounts m root.labels) :
    ClassesCounted ⟨root, m⟩ := by
  refine ⟨fun c r hr => (h.counted c r hr).2, fun c r hr => ?_, fun c r hr => ?_, fun w c hw => ?_⟩
  · obtain ⟨hmem, hcounter⟩ := h.counted c r hr
    rw [hcounter]
    exact Multiset.one_le_count_iff_mem.mpr hmem
  · obtain ⟨b, n, hs, -⟩ := h.named c r hr
    simp [hs]
  · exact h.live c (Trie.mem_labels.mpr ⟨w, hw⟩)

/-- The nodes go with what they alone point to; the records of others stay. -/
private theorem Accounts.deleteAll {t : Seq} (h : Accounts m (t.labels + M)) :
    ∃ m', seqDeleteAll t m = some m' ∧ Accounts m' M ∧ excess m' = excess m := by
  induction t generalizing m M with
  | null => exact ⟨m, rfl, by simpa using h, rfl⟩
  | node a children ih =>
      have hlabels : (Trie.node a children).labels + M = (children .zero).labels +
          ((children .one).labels + ((children .two).labels + (a ::ₘ M))) := by
        rw [Trie.labels_node, sum_digits, Multiset.cons_add]
        simp [add_assoc]
      rw [hlabels] at h
      obtain ⟨m₁, hm₁, h₁, hexcess₁⟩ := ih .zero h
      obtain ⟨m₂, hm₂, h₂, hexcess₂⟩ := ih .one h₁
      obtain ⟨m₃, hm₃, h₃, hexcess₃⟩ := ih .two h₂
      have hexcess : excess m₃ = excess m := by rw [hexcess₃, hexcess₂, hexcess₁]
      simp only [seqDeleteAll, hm₁, hm₂, hm₃, Option.bind_eq_bind, Option.bind_some]
      cases a with
      | none => exact ⟨m₃, rfl, accounts_cons_none.mp h₃, hexcess⟩
      | some c =>
          obtain ⟨m', hm', h', hexcess', -⟩ := h₃.release
          exact ⟨m', hm', h', hexcess'.trans hexcess⟩

private theorem seqDelete_eq (root : Seq) (m : Memory) :
    seqDelete root m = seqDeleteAll root m := by
  cases root <;> rfl

theorem Accounts.delete (h : Accounts m root.labels) :
    ∃ m', seqDelete root m = some m' ∧ m'.classes = ∅ ∧ excess m' = excess m := by
  obtain ⟨m', hm', h', hexcess⟩ := Accounts.deleteAll (t := root) (M := 0) (by simpa using h)
  refine ⟨m', (seqDelete_eq root m).trans hm', Finmap.ext_lookup fun c => ?_, hexcess⟩
  rw [Finmap.lookup_empty, Finmap.lookup_eq_none]
  exact h'.not_live (Multiset.notMem_zero _)

/-- No record is lost and none is freed too early, with any allocations failing;
`seq_delete` leaves none. -/
theorem classes_counted (A : Allocator) (history : List Call) :
    let s := (calls (step A) (.initial A) history).1
    ClassesCounted s ∧ (∀ call, (step A s call).2 ≠ .undefinedBehaviour) ∧
      ∃ m, seqDelete s.root s.memory = some m ∧ m.classes = ∅ := by
  intro s
  have h : Sound s := calls_sound A history
  obtain ⟨m, hm, hempty, -⟩ := h.accounts.delete
  exact ⟨h.accounts.classesCounted, fun call => (step_sound h call).2, m, hm, hempty⟩

/-! ## Calls that are refused -/

/-- Only `malloc` was called. -/
def Untouched (s t : State) : Prop :=
  ∃ k, t = { s with memory := { s.memory with mallocs := k } }

/-- An answer of -1 comes with the nodes and blocks there were. -/
def RefusesUntouched (s : State) (x : Option (Except Errno Bool × Seq × Memory)) : Prop :=
  ∀ e root m, x = some (.error e, root, m) → Untouched s ⟨root, m⟩

private theorem refusesUntouched_error (s : State) (e : Errno) (k : Nat) :
    RefusesUntouched s (some (.error e, s.root, { s.memory with mallocs := k })) := by
  rintro _ _ _ ⟨⟩
  exact ⟨k, rfl⟩

private theorem refusesUntouched_ok (s : State) (b : Bool) (root : Seq) (m : Memory) :
    RefusesUntouched s (some (.ok b, root, m)) := by
  rintro _ _ _ ⟨⟩

private theorem seqAdd_refuses (A : Allocator) (root : Seq) (m : Memory) (w : CString) :
    RefusesUntouched ⟨root, m⟩ (seqAdd A root m w) := by
  cases hroot : root.label [] with
  | none => simpa [seqAdd, hroot] using refusesUntouched_error ⟨root, m⟩ .einval m.mallocs
  | some c =>
      have hsome : (root.label []).isSome := by simp [hroot]
      rcases word_cases w with ⟨hword, hbad⟩ | ⟨w, hw, hword, hbad, rfl⟩
      · simpa [seqAdd, hbad] using refusesUntouched_error ⟨root, m⟩ .einval m.mallocs
      cases hlabel : root.label w with
      | some c =>
          obtain ⟨l, hwalk⟩ := seqWalk_add hsome (w := w) (by simp [hlabel])
          simpa [seqAdd, hroot, hbad, hwalk] using refusesUntouched_ok ⟨root, m⟩ false root m
      | none =>
          obtain ⟨u, d, v, rfl, hu, hnew, hwalk⟩ := seqWalk_add_new hsome hlabel
          have hdrop : ((u ++ d :: v).map Digit.char).drop u.length = (d :: v).map Digit.char := by
            rw [List.map_append, List.drop_left' (by simp)]
          have hget : ((u ++ d :: v).map Digit.char)[u.length]? = some d.char := by simp
          obtain ⟨k, root', ⟨hadd, -⟩ | ⟨hadd, -, hframe⟩⟩ := addAll_spec A v (m := m) hu hnew
          all_goals
            generalize (d :: v).map Digit.char = rest at hdrop hadd
            generalize (u ++ d :: v).map Digit.char = str at hbad hwalk hdrop hget ⊢
          · simpa [seqAdd, hroot, hbad, hwalk, hdrop, hadd] using
              refusesUntouched_ok ⟨root, m⟩ true root' { m with mallocs := k }
          · -- The new nodes hang below one child, which is cut off.
            have hcut := cut_eq hu hnew hframe
            simpa [seqAdd, hroot, hbad, hwalk, hdrop, hget, hadd, hcut] using
              refusesUntouched_error ⟨root, m⟩ .enomem k

private theorem refusesUntouched_none (s : State) : RefusesUntouched s none := by
  rintro _ _ _ ⟨⟩

private theorem refusesUntouched_bind {s : State} {α : Type} {x : Option α}
    {f : α → Option (Except Errno Bool × Seq × Memory)}
    (h : ∀ y, x = some y → RefusesUntouched s (f y)) : RefusesUntouched s (x >>= f) := by
  cases x with
  | none => exact refusesUntouched_none s
  | some y => exact h y rfl

private theorem seqSetName_refuses (A : Allocator) (root : Seq) (m : Memory) (w n : CString) :
    RefusesUntouched ⟨root, m⟩ (seqSetName A root m w n) := by
  by_cases hbad : root.label [] = none ∨ seqBad w = -1 ∨ n = none ∨ n = some []
  · rw [seqSetName, if_pos hbad]
    exact refusesUntouched_error ⟨root, m⟩ .einval m.mallocs
  rw [seqSetName, if_neg hbad]
  refine refusesUntouched_bind fun w _ => refusesUntouched_bind fun n _ => ?_
  rcases newName_cases A m n with ⟨⟨k, hcopy⟩, -⟩ | ⟨b, k, hcopy, hb⟩
  · simp only [hcopy]
    exact refusesUntouched_error ⟨root, m⟩ .enomem k
  simp only [hcopy]
  split
  · exact refusesUntouched_bind fun m' _ => refusesUntouched_ok ⟨root, m⟩ _ _ _
  refine refusesUntouched_bind fun label _ => ?_
  cases label with
  | none =>
      rcases classNew_cases A { m with names := m.names.insert b n, mallocs := k } (some b) with
        ⟨⟨k', hclass⟩, -⟩ | ⟨c, k', hclass, -⟩
      · -- The copy of the name, which no record took, is freed.
        have hfree := freeName_new (n := n) (k := k') hb
        simpa [hclass, hfree] using refusesUntouched_error ⟨root, m⟩ .enomem k'
      · simp only [hclass]
        exact refusesUntouched_bind fun root' _ => refusesUntouched_ok ⟨root, m⟩ _ _ _
  | some c =>
      refine refusesUntouched_bind fun n' _ => ?_
      split
      · exact refusesUntouched_bind fun m' _ => refusesUntouched_ok ⟨root, m⟩ _ _ _
      · exact refusesUntouched_bind fun r _ =>
          refusesUntouched_bind fun m' _ => refusesUntouched_ok ⟨root, m⟩ _ _ _

private theorem pairClass_refuses (A : Allocator) (root : Seq) (m : Memory) (h₁ h₂ : Word) :
    RefusesUntouched ⟨root, m⟩ (pairClass A root m h₁ h₂) := by
  rw [pairClass]
  rcases newName_cases A m [] with ⟨⟨k, hname⟩, -⟩ | ⟨b, k, hname, hb⟩
  · rw [hname]
    exact refusesUntouched_error ⟨root, m⟩ .enomem k
  simp only [hname]
  rcases classNew_cases A { m with names := m.names.insert b [], mallocs := k } (some b) with
    ⟨⟨k', hclass⟩, -⟩ | ⟨c, k', hclass, -⟩
  · have hfree := freeName_new (n := []) (k := k') hb
    simpa [hclass, hfree] using refusesUntouched_error ⟨root, m⟩ .enomem k'
  · simp only [hclass]
    exact refusesUntouched_bind fun root₁ _ =>
      refusesUntouched_bind fun root₂ _ => refusesUntouched_ok ⟨root, m⟩ _ _ _

private theorem mergeClasses_refuses (A : Allocator) (root : Seq) (m : Memory) (c₁ c₂ : Addr) :
    RefusesUntouched ⟨root, m⟩ (mergeClasses A root m c₁ c₂) := by
  rw [mergeClasses]
  refine refusesUntouched_bind fun n₁ _ => refusesUntouched_bind fun n₂ _ =>
    refusesUntouched_bind fun r₁ _ => refusesUntouched_bind fun r₂ _ => ?_
  by_cases hsame : n₁ = n₂
  · simp only [if_pos hsame]
    rcases classNew_cases A m r₁.s with ⟨⟨k, hclass⟩, -⟩ | ⟨c, k, hclass, -⟩
    · rw [hclass]
      exact refusesUntouched_error ⟨root, m⟩ .enomem k
    · simp only [hclass]
      exact refusesUntouched_bind fun _ _ => refusesUntouched_bind fun _ _ =>
        refusesUntouched_bind fun _ _ => refusesUntouched_ok ⟨root, m⟩ _ _ _
  · simp only [if_neg hsame]
    rcases newName_cases A m (n₁ ++ n₂) with ⟨⟨k, hname⟩, -⟩ | ⟨b, k, hname, hb⟩
    · rw [hname]
      exact refusesUntouched_error ⟨root, m⟩ .enomem k
    simp only [hname]
    rcases classNew_cases A { m with names := m.names.insert b (n₁ ++ n₂), mallocs := k }
      (some b) with ⟨⟨k', hclass⟩, -⟩ | ⟨c, k', hclass, -⟩
    · have hfree := freeName_new (n := n₁ ++ n₂) (k := k') hb
      simpa [hclass, hfree] using refusesUntouched_error ⟨root, m⟩ .enomem k'
    · simp only [hclass]
      exact refusesUntouched_bind fun _ _ => refusesUntouched_bind fun _ _ =>
        refusesUntouched_bind fun _ _ => refusesUntouched_bind fun _ _ =>
          refusesUntouched_bind fun _ _ => refusesUntouched_ok ⟨root, m⟩ _ _ _

private theorem seqEquiv_refuses (A : Allocator) (root : Seq) (m : Memory) (w₁ w₂ : CString) :
    RefusesUntouched ⟨root, m⟩ (seqEquiv A root m w₁ w₂) := by
  by_cases hbad : root.label [] = none ∨ seqBad w₁ = -1 ∨ seqBad w₂ = -1
  · rw [seqEquiv, if_pos hbad]
    exact refusesUntouched_error ⟨root, m⟩ .einval m.mallocs
  rw [seqEquiv, if_neg hbad]
  refine refusesUntouched_bind fun w₁ _ => refusesUntouched_bind fun w₂ _ => ?_
  split
  · exact refusesUntouched_ok ⟨root, m⟩ false root m
  split
  · rename_i h₁ h₂ _ _
    refine refusesUntouched_bind fun l₁ _ => refusesUntouched_bind fun l₂ _ => ?_
    rcases l₁ with _ | c₁ <;> rcases l₂ with _ | c₂
    · exact pairClass_refuses A root m h₁ h₂
    · exact refusesUntouched_bind fun _ _ =>
        refusesUntouched_bind fun _ _ => refusesUntouched_ok ⟨root, m⟩ _ _ _
    · exact refusesUntouched_bind fun _ _ =>
        refusesUntouched_bind fun _ _ => refusesUntouched_ok ⟨root, m⟩ _ _ _
    · rw [joinNodes]
      split
      · exact refusesUntouched_ok ⟨root, m⟩ false root m
      · exact mergeClasses_refuses A root m c₁ c₂
  · exact refusesUntouched_ok ⟨root, m⟩ false root m

private theorem answerCode_refused {x : Option (Except Errno Bool × Seq × Memory)} {e : Errno}
    (hx : RefusesUntouched s x) (h : (answerCode s x).2 = .code (.error e)) :
    Untouched s (answerCode s x).1 := by
  rcases x with _ | ⟨r, root, m⟩
  · cases h
  · obtain rfl : r = .error e := by simpa [answerCode] using h
    exact hx e root m rfl

/-- The three functions that allocate. -/
def Call.Allocates : Call → Prop
  | .add _ | .setName _ _ | .equiv _ _ => True
  | _ => False

private theorem step_refused {call : Call} {e : Errno} (hcall : call.Allocates)
    (h : (step A s call).2 = .code (.error e)) : Untouched s (step A s call).1 := by
  cases call with
  | add w => exact answerCode_refused (seqAdd_refuses A s.root s.memory w) h
  | setName w n => exact answerCode_refused (seqSetName_refuses A s.root s.memory w n) h
  | equiv w₁ w₂ => exact answerCode_refused (seqEquiv_refuses A s.root s.memory w₁ w₂) h
  | _ => cases hcall

/-! ### What a caller sees of a trie -/

def sequences (s : State) : Set Word := {w | w ≠ [] ∧ (s.root.label w).isSome}

def sameClass (s : State) (u v : Word) : Prop :=
  ∃ c, s.root.label u = some (some c) ∧ s.root.label v = some (some c)

/-- The string of the class of `w`, if it has one. -/
def className (s : State) (w : Word) : Option (List Char) :=
  match s.root.label w with
  | some (some c) => s.memory.readName c
  | _ => none

/-- A call that answers -1 changes nothing that can be seen of the trie, wherever its
allocations failed. -/
theorem refused_unchanged (A : Allocator) (s : State) (call : Call) (e : Errno)
    (hcall : call.Allocates) (h : (step A s call).2 = .code (.error e)) :
    sequences (step A s call).1 = sequences s ∧ sameClass (step A s call).1 = sameClass s ∧
      className (step A s call).1 = className s := by
  obtain ⟨k, heq⟩ := step_refused hcall h
  rw [heq]
  exact ⟨rfl, rfl, rfl⟩

/-- Gives out the addresses in order; the `k`-th call of `malloc` fails. -/
def failingAt (k : Nat) : Allocator where
  malloc n used := if n = k then none else bumpAllocator.malloc n used
  fresh h := by
    split at h
    · cases h
    · exact bumpAllocator.fresh h

theorem refused_unchanged_third :
    (step (failingAt 2) (.initial (failingAt 2)) (.add (some ['0', '1']))).2 =
        .code (.error .enomem) ∧
      sequences (step (failingAt 2) (.initial (failingAt 2)) (.add (some ['0', '1']))).1 =
        sequences (.initial (failingAt 2)) := by
  have h : (step (failingAt 2) (.initial (failingAt 2)) (.add (some ['0', '1']))).2 =
      .code (.error .enomem) := rfl
  exact ⟨h, (refused_unchanged (failingAt 2) _ (.add (some ['0', '1'])) .enomem trivial h).1⟩

end Mimuw.Sequences
