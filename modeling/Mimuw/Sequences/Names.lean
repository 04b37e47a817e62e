import Mimuw.Sequences.Failures

/-!
# Names and their owners

Every call leaves as many names more than records as there were, but for one: where
two classes with equal names are joined, only one of the two names gets a new owner.
-/

namespace Mimuw.Sequences

open Mimuw.Lib

variable {A : Allocator} {s : State} {root root' : Seq} {m m' : Memory} {a : NamedSequences}
  {k : Int}

/-- Each name in use is that of exactly one record which a node points to. -/
def NamesOwned (s : State) : Prop :=
  ∀ b ∈ s.memory.names, ∃! c, (∃ r, s.memory.classes.lookup c = some r ∧ r.s = some b) ∧
    ∃ w, s.root.label w = some (some c)

/-- `seq_equiv` for two sequences of different classes whose names are equal. -/
def JoinsEqualNames (s : State) : Call → Prop
  | .equiv s₁ s₂ => ∃ w₁ w₂ c₁ c₂, word? s₁ = some w₁ ∧ word? s₂ = some w₂ ∧
      s.root.label w₁ = some (some c₁) ∧ s.root.label w₂ = some (some c₂) ∧ c₁ ≠ c₂ ∧
        s.memory.readName c₁ = s.memory.readName c₂
  | _ => False

/-! ## Names without an owner -/

/-- There are never more records than names, and as many when every name has an owner. -/
private theorem Accounts.namesOwned_iff (h : Accounts m root.labels) :
    NamesOwned ⟨root, m⟩ ↔ excess m = 0 := by
  let name (c : Addr) : Option Addr := (m.classes.lookup c).bind AClass.s
  have hname {c : Addr} {b : Addr} :
      name c = some b ↔ ∃ r, m.classes.lookup c = some r ∧ r.s = some b :=
    Option.bind_eq_some_iff
  have hrecord {c : Addr} (hc : c ∈ m.classes.keys) :
      ∃ r b, m.classes.lookup c = some r ∧ r.s = some b ∧ b ∈ m.names := by
    obtain ⟨r, hr⟩ := Finmap.mem_iff.mp (Finmap.mem_keys.mp hc)
    obtain ⟨b, n, hs, hn⟩ := h.named c r hr
    exact ⟨r, b, hr, hs, Finmap.mem_of_lookup_eq_some hn⟩
  have howned : (m.classes.keys.image name).card = m.classes.keys.card := by
    refine Finset.card_image_of_injOn fun c hc c' hc' heq => ?_
    obtain ⟨r, b, hr, hs, -⟩ := hrecord hc
    obtain ⟨r', b', hr', hs', -⟩ := hrecord hc'
    have hb : r.s = r'.s := by simpa [name, hr, hr'] using heq
    exact h.distinct c c' r r' hr hr' hb
  have hnames : (m.names.keys.image some).card = m.names.keys.card :=
    Finset.card_image_of_injective _ (Option.some_injective _)
  have hsub : m.classes.keys.image name ⊆ m.names.keys.image some := by
    refine Finset.image_subset_iff.mpr fun c hc => ?_
    obtain ⟨r, b, hr, hs, hb⟩ := hrecord hc
    exact Finset.mem_image.mpr ⟨b, Finmap.mem_keys.mpr hb, (hname.mpr ⟨r, hr, hs⟩).symm⟩
  constructor
  · intro hall
    have hsuper : m.names.keys.image some ⊆ m.classes.keys.image name := by
      refine Finset.image_subset_iff.mpr fun b hb => ?_
      obtain ⟨c, ⟨⟨r, hr, hs⟩, -⟩, -⟩ := hall b (Finmap.mem_keys.mp hb)
      exact Finset.mem_image.mpr
        ⟨c, Finmap.mem_keys.mpr (Finmap.mem_of_lookup_eq_some hr), hname.mpr ⟨r, hr, hs⟩⟩
    rw [excess, ← hnames, ← howned, hsub.antisymm hsuper, sub_self]
  · intro hexcess b hb
    rw [excess] at hexcess
    have heq := Finset.eq_of_subset_of_card_le hsub (by omega)
    have hmem : some b ∈ m.classes.keys.image name := by
      rw [heq]
      exact Finset.mem_image_of_mem _ (Finmap.mem_keys.mpr hb)
    obtain ⟨c, -, hc⟩ := Finset.mem_image.mp hmem
    obtain ⟨r, hr, hs⟩ := hname.mp hc
    refine ⟨c, ⟨⟨r, hr, hs⟩, Trie.mem_labels.mp (h.counted c r hr).1⟩, ?_⟩
    rintro c' ⟨⟨r', hr', hs'⟩, -⟩
    exact h.distinct c' c r' r hr' hr (hs'.trans hs.symm)

/-- What `seq_delete` leaves are the names without an owner. -/
private theorem Accounts.delete_names (h : Accounts m root.labels) :
    (∃ m', seqDelete root m = some m' ∧ m'.names = ∅) ↔ excess m = 0 := by
  obtain ⟨m', hm', hclasses, hexcess⟩ := h.delete
  have hcard : excess m = m'.names.keys.card := by
    rw [← hexcess, excess, hclasses]
    simp
  rw [hcard]
  constructor
  · rintro ⟨m'', hm'', hnames⟩
    obtain rfl := Option.some.inj (hm'.symm.trans hm'')
    simp [hnames]
  · intro hzero
    refine ⟨m', hm', Finmap.ext_lookup fun b => ?_⟩
    have hkeys : m'.names.keys = ∅ := Finset.card_eq_zero.mp (by omega)
    rw [Finmap.lookup_empty, Finmap.lookup_eq_none, ← Finmap.mem_keys, hkeys]
    exact Finset.notMem_empty b

/-! ## What each function leaves -/

/-- Whatever is answered, the excess is `k` then. -/
def Leaves (k : Int) (x : Option (Except Errno Bool × Seq × Memory)) : Prop :=
  ∀ r root m, x = some (r, root, m) → excess m = k

private theorem leaves_some (r : Except Errno Bool) (root : Seq) (h : excess m = k) :
    Leaves k (some (r, root, m)) := by
  rintro _ _ _ ⟨⟩
  exact h

private theorem leaves_bind {α : Type} {x : Option α}
    {f : α → Option (Except Errno Bool × Seq × Memory)}
    (h : ∀ y, x = some y → Leaves k (f y)) : Leaves k (x >>= f) := by
  cases x with
  | none => rintro _ _ _ ⟨⟩
  | some y => exact h y rfl

private theorem leaves_map {α : Type} {x : Option α} {f : α → Except Errno Bool × Seq × Memory}
    (h : ∀ y, excess (f y).2.2 = k) : Leaves k (x.map f) := by
  cases x with
  | none => rintro _ _ _ ⟨⟩
  | some y => exact leaves_some _ _ (h y)

theorem Accounts.excess_freeName {M : Multiset (Option Addr)} {c : Addr} {r : AClass}
    {m₁ : Memory} (h : Accounts m M) (hr : m.classes.lookup c = some r)
    (hm' : m₁.freeName r.s = some m') : excess m' = excess m₁ - 1 := by
  obtain ⟨b, n, hs, -⟩ := h.named c r hr
  rw [hs] at hm'
  exact Sequences.excess_freeName hm'

private theorem addAll_excess (A : Allocator) (h : Word) (v : List Char) {b : Bool}
    (hadd : addAll A root m h v = some (b, root', m')) : excess m' = excess m := by
  induction v generalizing root m h with
  | nil =>
      simp only [addAll, Option.some.injEq, Prod.mk.injEq] at hadd
      rw [hadd.2.2]
  | cons c v ih =>
      simp only [addAll, Option.bind_eq_bind, Option.bind_eq_some_iff] at hadd
      obtain ⟨⟨added, root₁, m₁⟩, hnew, hadd⟩ := hadd
      have hm₁ : excess m₁ = excess m := by
        rw [seqAddNew] at hnew
        rcases newNode_cases A m with ⟨⟨j, hnode⟩, -⟩ | ⟨j, hnode⟩
        · simp only [hnode, Option.some.injEq, Prod.mk.injEq] at hnew
          rw [← hnew.2.2, excess_mallocs]
        · simp only [hnode] at hnew
          split at hnew
          · obtain ⟨t, -, ht⟩ := Option.map_eq_some_iff.mp hnew
            cases ht
            rfl
          · cases hnew
            rfl
      split at hadd
      · split at hadd
        · exact (ih _ hadd).trans hm₁
        · exact (ih _ hadd).trans hm₁
      · cases hadd
        exact hm₁

private theorem seqAdd_leaves (A : Allocator) (root : Seq) (m : Memory) (w : CString) :
    Leaves (excess m) (seqAdd A root m w) := by
  rw [seqAdd]
  split
  · exact leaves_some _ _ rfl
  refine leaves_bind fun w _ => ?_
  split
  · exact leaves_some _ _ rfl
  refine leaves_bind fun y hadd => ?_
  obtain ⟨added, root', m'⟩ := y
  have hm' := addAll_excess A _ _ hadd
  dsimp only
  split
  · exact leaves_some _ _ hm'
  · split
    · exact leaves_map fun _ => hm'
    · exact leaves_some _ _ hm'

private theorem seqRemove_leaves (h : Accounts m root.labels) (w : CString) :
    Leaves (excess m) (seqRemove root m w) := by
  rw [seqRemove]
  split
  · exact leaves_some _ _ rfl
  refine leaves_bind fun w _ => ?_
  split
  · exact leaves_some _ _ rfl
  split
  · rename_i u _ _ _ d _
    split
    · exact leaves_some _ _ rfl
    · refine leaves_bind fun root' hcut => leaves_bind fun m' hm' => leaves_some _ _ ?_
      -- What is cut off is counted together with what stays.
      have hlabels := Trie.labels_setChild hcut
      rw [Trie.labels_null, add_zero, add_comm] at hlabels
      rw [← hlabels] at h
      obtain ⟨m'', hremove, -, hexcess, -⟩ := h.classRemove
      obtain rfl := Option.some.inj (hm'.symm.trans hremove)
      exact hexcess
  · exact leaves_some _ _ rfl

private theorem seqSetName_leaves (A : Allocator) (h : Accounts m root.labels) (w n : CString) :
    Leaves (excess m) (seqSetName A root m w n) := by
  rw [seqSetName]
  split
  · exact leaves_some _ _ rfl
  refine leaves_bind fun w _ => leaves_bind fun n _ => ?_
  rcases newName_cases A m n with ⟨⟨j, hcopy⟩, -⟩ | ⟨b, j, hcopy, hb⟩
  · simp only [hcopy]
    exact leaves_some _ _ rfl
  simp only [hcopy]
  have hnew := excess_newName hb n j
  split
  · refine leaves_bind fun m' hm' => leaves_some _ _ ?_
    rw [excess_freeName hm', hnew]
    omega
  refine leaves_bind fun label _ => ?_
  cases label with
  | none =>
      rcases classNew_cases A { m with names := m.names.insert b n, mallocs := j } (some b) with
        ⟨⟨j', hclass⟩, -⟩ | ⟨c, j', hclass, hc⟩
      · simp only [hclass]
        refine leaves_bind fun m' hm' => leaves_some _ _ ?_
        rw [excess_freeName hm', excess_newName hb]
        omega
      · simp only [hclass]
        refine leaves_bind fun root' _ => leaves_some _ _ ?_
        have := excess_classNew hc ⟨1, some b⟩ j'
        rw [this, hnew]
        omega
  | some c =>
      refine leaves_bind fun n' _ => ?_
      split
      · refine leaves_bind fun m' hm' => leaves_some _ _ ?_
        rw [excess_freeName hm', hnew]
        omega
      · refine leaves_bind fun r hr => leaves_bind fun m' hm' => leaves_some _ _ ?_
        have hset := excess_setClass
          (m := { m with names := m.names.insert b n, mallocs := j }) (c := c)
          (Finmap.mem_of_lookup_eq_some hr) { r with s := some b }
        rw [h.excess_freeName hr hm', hset, hnew]
        omega

private theorem pairClass_leaves (A : Allocator) (root : Seq) (m : Memory) (h₁ h₂ : Word) :
    Leaves (excess m) (pairClass A root m h₁ h₂) := by
  rw [pairClass]
  rcases newName_cases A m [] with ⟨⟨j, hname⟩, -⟩ | ⟨b, j, hname, hb⟩
  · rw [hname]
    exact leaves_some _ _ rfl
  simp only [hname]
  have hnew := excess_newName hb [] j
  rcases classNew_cases A { m with names := m.names.insert b [], mallocs := j } (some b) with
    ⟨⟨j', hclass⟩, -⟩ | ⟨c, j', hclass, hc⟩
  · simp only [hclass]
    refine leaves_bind fun m' hm' => leaves_some _ _ ?_
    rw [excess_freeName hm', excess_newName hb]
    omega
  · simp only [hclass]
    refine leaves_bind fun root₁ _ => leaves_bind fun root₂ _ => leaves_some _ _ ?_
    rw [excess_setClass (Finmap.mem_insert.mpr (.inl rfl)), excess_classNew hc _ j', hnew]
    omega

private theorem shareClass_leaves (root : Seq) (m : Memory) (h : Word) (c : Addr) :
    Leaves (excess m) (shareClass root m h c) :=
  leaves_bind fun _ _ => leaves_bind fun _ hr =>
    leaves_some _ _ (excess_setClass (Finmap.mem_of_lookup_eq_some hr) _)

private theorem changeNode_excess {old new : Addr} {c c' : Option Addr}
    (h : changeNode old new c m = some (c', m')) : excess m' = excess m := by
  rw [changeNode] at h
  split at h
  · simp only [Option.bind_eq_bind, Option.bind_eq_some_iff, Option.pure_def, Option.some.injEq,
      Prod.mk.injEq] at h
    obtain ⟨o, ho, n, hn, -, rfl⟩ := h
    rw [excess_setClass (Finmap.mem_of_lookup_eq_some hn),
      excess_setClass (Finmap.mem_of_lookup_eq_some ho)]
  · cases h
    rfl

private theorem classChange_excess {old new : Addr} {t t' : Seq}
    (h : classChange old new t m = some (t', m')) : excess m' = excess m := by
  induction t generalizing t' m m' with
  | null =>
      cases h
      rfl
  | node c children ih =>
      simp only [classChange, Option.bind_eq_bind, Option.bind_eq_some_iff, Prod.exists,
        Option.pure_def, Option.some.injEq, Prod.mk.injEq] at h
      obtain ⟨c', m₀, h₀, t₁, m₁, h₁, t₂, m₂, h₂, t₃, m₃, h₃, -, rfl⟩ := h
      rw [ih _ h₃, ih _ h₂, ih _ h₁, changeNode_excess h₀]

private theorem mergeInto_excess {c c₁ c₂ : Addr}
    (h : mergeInto root m c c₁ c₂ = some (root', m')) :
    excess m' = excess m := by
  simp only [mergeInto, Option.bind_eq_bind, Option.bind_eq_some_iff, Prod.exists] at h
  obtain ⟨r, hr, root₁, m₁, h₁, h₂⟩ := h
  rw [classChange_excess h₂, classChange_excess h₁,
    excess_setClass (Finmap.mem_of_lookup_eq_some hr)]

/-- The name of `c₁` is kept and that of `c₂` is not freed. -/
private theorem mergeClasses_leaves_same (hA : ¬ A.Fails) (root : Seq) {c₁ c₂ : Addr}
    (hsame : m.readName c₁ = m.readName c₂) :
    Leaves (excess m + 1) (mergeClasses A root m c₁ c₂) := by
  rw [mergeClasses]
  refine leaves_bind fun n₁ hn₁ => leaves_bind fun n₂ hn₂ =>
    leaves_bind fun r₁ _ => leaves_bind fun r₂ _ => ?_
  have hn : n₁ = n₂ := Option.some.inj (hn₁.symm.trans (hsame.trans hn₂))
  rw [if_pos hn]
  rcases classNew_cases A m r₁.s with ⟨-, hfails⟩ | ⟨c, j, hclass, hc⟩
  · exact absurd hfails hA
  simp only [hclass]
  refine leaves_bind fun y hmerge => ?_
  obtain ⟨root', m₁⟩ := y
  refine leaves_bind fun m₂ hm₂ => leaves_bind fun m₃ hm₃ => leaves_some _ _ ?_
  rw [excess_freeClass hm₃, excess_freeClass hm₂, mergeInto_excess hmerge, excess_classNew hc]
  omega

/-- Both names are freed, and there is a new one. -/
private theorem mergeClasses_leaves (A : Allocator) (h : Accounts m root.labels) {c₁ c₂ : Addr}
    (hdiff : m.readName c₁ ≠ m.readName c₂) :
    Leaves (excess m) (mergeClasses A root m c₁ c₂) := by
  rw [mergeClasses]
  refine leaves_bind fun n₁ hn₁ => leaves_bind fun n₂ hn₂ =>
    leaves_bind fun r₁ hr₁ => leaves_bind fun r₂ hr₂ => ?_
  have hn : n₁ ≠ n₂ := fun hn => hdiff (by rw [hn₁, hn₂, hn])
  rw [if_neg hn]
  rcases newName_cases A m (n₁ ++ n₂) with ⟨⟨j, hname⟩, -⟩ | ⟨b, j, hname, hb⟩
  · rw [hname]
    exact leaves_some _ _ rfl
  simp only [hname]
  have hnew := excess_newName hb (n₁ ++ n₂) j
  rcases classNew_cases A { m with names := m.names.insert b (n₁ ++ n₂), mallocs := j }
    (some b) with ⟨⟨j', hclass⟩, -⟩ | ⟨c, j', hclass, hc⟩
  · simp only [hclass]
    refine leaves_bind fun m' hm' => leaves_some _ _ ?_
    rw [excess_freeName hm', excess_newName hb]
    omega
  · simp only [hclass]
    refine leaves_bind fun y hmerge => ?_
    obtain ⟨root', m₁⟩ := y
    refine leaves_bind fun m₂ hm₂ => leaves_bind fun m₃ hm₃ => leaves_bind fun m₄ hm₄ =>
      leaves_bind fun m₅ hm₅ => leaves_some _ _ ?_
    rw [excess_freeClass hm₅, excess_freeClass hm₄, h.excess_freeName hr₂ hm₃,
      h.excess_freeName hr₁ hm₂, mergeInto_excess hmerge, excess_classNew hc, hnew]
    omega

/-! ## Every call -/

private theorem answerCode_excess {x : Option (Except Errno Bool × Seq × Memory)} (hx : Leaves k x)
    (hdefined : (answerCode s x).2 ≠ .undefinedBehaviour) :
    excess (answerCode s x).1.memory = k := by
  rcases x with _ | ⟨r, root, m⟩
  · exact absurd rfl hdefined
  · exact hx r root m rfl

private theorem joinNodes_leaves (A : Allocator) (h : Accounts m root.labels) (h₁ h₂ : Word)
    (a₁ a₂ : Option Addr)
    (hdiff : ∀ c₁ c₂, a₁ = some c₁ → a₂ = some c₂ → c₁ ≠ c₂ → m.readName c₁ ≠ m.readName c₂) :
    Leaves (excess m) (joinNodes A root m h₁ h₂ a₁ a₂) := by
  rcases a₁ with _ | c₁ <;> rcases a₂ with _ | c₂
  · exact pairClass_leaves A root m h₁ h₂
  · exact shareClass_leaves root m h₁ c₂
  · exact shareClass_leaves root m h₂ c₁
  · rw [joinNodes]
    split
    · exact leaves_some _ _ rfl
    · exact mergeClasses_leaves A h (hdiff c₁ c₂ rfl rfl ‹_›)

private theorem equiv_excess (h : Represents s a) (s₁ s₂ : CString)
    (hjoin : ¬ JoinsEqualNames s (.equiv s₁ s₂)) :
    excess (step A s (.equiv s₁ s₂)).1.memory = excess s.memory := by
  obtain ⟨root, m⟩ := s
  rcases word_cases s₁ with ⟨hword₁, hbad₁⟩ | ⟨w₁, -, hword₁, -⟩
  · simp [step, answerCode, seqEquiv, hbad₁]
  rcases word_cases s₂ with ⟨hword₂, hbad₂⟩ | ⟨w₂, -, hword₂, -⟩
  · simp [step, answerCode, seqEquiv, hbad₂]
  by_cases htrivial : w₁ = w₂ ∨ root.label w₁ = none ∨ root.label w₂ = none
  · rw [equiv_step_trivial h hword₁ hword₂ htrivial]
  · simp only [not_or] at htrivial
    obtain ⟨hne, hnone₁, hnone₂⟩ := htrivial
    obtain ⟨a₁, hlabel₁⟩ := Option.ne_none_iff_exists'.mp hnone₁
    obtain ⟨a₂, hlabel₂⟩ := Option.ne_none_iff_exists'.mp hnone₂
    have hdefined := (step_sound (A := A) h.sound (.equiv s₁ s₂)).2
    rw [equiv_step h hword₁ hword₂ hne hlabel₁ hlabel₂] at hdefined ⊢
    refine answerCode_excess (joinNodes_leaves A h.accounts w₁ w₂ a₁ a₂ ?_) hdefined
    rintro c₁ c₂ rfl rfl hc hname
    exact hjoin ⟨w₁, w₂, c₁, c₂, hword₁, hword₂, hlabel₁, hlabel₂, hc, hname⟩

/-- A call that joins nothing of equal names leaves the balance. -/
private theorem step_excess (h : Represents s a) {call : Call} (hjoin : ¬ JoinsEqualNames s call) :
    excess (step A s call).1.memory = excess s.memory := by
  have hdefined := (step_sound (A := A) h.sound call).2
  cases call with
  | add w => exact answerCode_excess (seqAdd_leaves A s.root s.memory w) hdefined
  | remove w => exact answerCode_excess (seqRemove_leaves h.accounts w) hdefined
  | valid w => exact answerCode_excess (leaves_map fun _ => rfl) hdefined
  | setName w n => exact answerCode_excess (seqSetName_leaves A h.accounts w n) hdefined
  | getName w =>
      simp only [step]
      split <;> rfl
  | equiv w₁ w₂ => exact equiv_excess h w₁ w₂ hjoin

/-- Where two classes of equal names are joined, one name too many is left. -/
private theorem step_excess_joined (hA : ¬ A.Fails) (h : Represents s a) {call : Call}
    (hjoin : JoinsEqualNames s call) :
    excess (step A s call).1.memory = excess s.memory + 1 := by
  cases call with
  | equiv s₁ s₂ =>
      obtain ⟨w₁, w₂, c₁, c₂, hword₁, hword₂, hlabel₁, hlabel₂, hc, hname⟩ := hjoin
      have hne : w₁ ≠ w₂ := by
        rintro rfl
        rw [hlabel₁] at hlabel₂
        exact hc (by simpa using hlabel₂)
      have hdefined := (step_sound (A := A) h.sound (.equiv s₁ s₂)).2
      rw [equiv_step h hword₁ hword₂ hne hlabel₁ hlabel₂, joinNodes, if_neg hc] at hdefined ⊢
      exact answerCode_excess (mergeClasses_leaves_same hA s.root hname) hdefined
  | _ => cases hjoin

theorem step_represents (hA : ¬ A.Fails) (h : Represents s a) (call : Call) :
    ∃ a', Represents (step A s call).1 a' := by
  rcases step_agrees (A := A) h call with ⟨-, hrep⟩ | ⟨-, -, hfail⟩
  · exact ⟨_, hrep⟩
  · exact absurd hfail hA

/-- The excess grows by one with each such join, and never shrinks. -/
private theorem calls_excess (hA : ¬ A.Fails) (history : List Call) (h : Represents s a) :
    excess s.memory ≤ excess (calls (step A) s history).1.memory ∧
      (excess (calls (step A) s history).1.memory = excess s.memory ↔
        CallsMeet (step A) (fun s call => ¬ JoinsEqualNames s call) s history) := by
  induction history generalizing s a with
  | nil => exact ⟨le_rfl, iff_of_true rfl trivial⟩
  | cons call history ih =>
      obtain ⟨a', h'⟩ := step_represents hA h call
      obtain ⟨hle, hiff⟩ := ih h'
      simp only [calls_cons, CallsMeet, ← hiff]
      by_cases hjoin : JoinsEqualNames s call
      · have hstep := step_excess_joined hA h hjoin
        exact ⟨by omega, iff_of_false (by omega) fun hmeets => hmeets.1 hjoin⟩
      · rw [step_excess h hjoin] at hle ⊢
        exact ⟨hle, (and_iff_right hjoin).symm⟩

private theorem excess_initial (A : Allocator) : excess (State.initial A).memory = 0 := by
  rcases newNode_cases A .empty with ⟨⟨k, hnew⟩, -⟩ | ⟨k, hnew⟩ <;>
    rw [State.initial, seqNew, hnew] <;> rfl

/-- As long as memory lasts, every name has its owner, and `seq_delete` leaves none, after
exactly the histories that never join two classes of equal names. -/
theorem names_owned_iff (A : Allocator) (hA : ∀ n used, (A.malloc n used).isSome)
    (history : List Call) :
    let s := (calls (step A) (.initial A) history).1
    NamesOwned s ∧ (∃ m, seqDelete s.root s.memory = some m ∧ m.names = ∅) ↔
      CallsMeet (step A) (fun s call => ¬ JoinsEqualNames s call) (.initial A) history := by
  intro s
  have hfails : ¬ A.Fails := by
    rintro ⟨n, used, hnone⟩
    simpa [hnone] using hA n used
  have hsound : Sound s := calls_sound A history
  have hexcess := (calls_excess hfails history (initial_represents hfails)).2
  rw [excess_initial] at hexcess
  rw [hsound.accounts.delete_names, ← hexcess, hsound.accounts.namesOwned_iff, and_self]

theorem names_owned_iff_unjoined :
    let s := (calls (step bumpAllocator) (.initial bumpAllocator)
      [.add (some ['0', '1']), .setName (some ['0']) (some ['a']), .remove (some ['0', '1'])]).1
    NamesOwned s ∧ ∃ m, seqDelete s.root s.memory = some m ∧ m.names = ∅ :=
  (names_owned_iff bumpAllocator (fun _ _ => rfl) _).mpr ⟨id, id, id, trivial⟩

def sameNameTwice : List Call :=
  [.add (some ['0']), .add (some ['1']), .setName (some ['0']) (some ['a']),
    .setName (some ['1']) (some ['a']), .equiv (some ['0']) (some ['1'])]

theorem name_lost :
    let s := (calls (step bumpAllocator) (.initial bumpAllocator) sameNameTwice).1
    ¬ NamesOwned s := by
  intro s h
  have hmem : ∃ b ∈ s.memory.names.keys, ∀ c ∈ s.memory.classes.keys,
      (s.memory.classes.lookup c).bind AClass.s ≠ some b := by
    decide
  obtain ⟨b, hb, hnone⟩ := hmem
  obtain ⟨c, ⟨⟨r, hr, hs⟩, -⟩, -⟩ := h b (Finmap.mem_keys.mp hb)
  refine hnone c (Finmap.mem_keys.mpr (Finmap.mem_of_lookup_eq_some hr)) ?_
  rw [hr, Option.bind_some, hs]

end Mimuw.Sequences
