import Mimuw.Sequences.Memory

/-!
# The trie and the named sequences

Every call answers as the set of named sequences does, or fails for want of
memory and changes nothing.
-/

namespace Mimuw.Sequences

open Mimuw.Lib

structure Represents (s : State) (a : NamedSequences) : Prop where
  accounts : Accounts s.memory s.root.labels
  root : s.root.label [] = some none
  members : ∀ w, w ∈ a.members ↔ w ≠ [] ∧ (s.root.label w).isSome
  same : ∀ u v, a.same u v ↔
    u = v ∨ ∃ c, s.root.label u = some (some c) ∧ s.root.label v = some (some c)
  name : ∀ w c, s.root.label w = some (some c) →
    s.memory.readName c = some ((a.name w).getD [])
  unnamed : ∀ w, s.root.label w = some none → a.name w = none

/-- The call answers as it should, or there was no memory for it. -/
def Agrees (A : Allocator) (s : State) (a : NamedSequences) (call : Call) : Prop :=
  (step A s call).2 = (specStep a call).2 ∧ Represents (step A s call).1 (specStep a call).1 ∨
    (step A s call).2 = .code (.error .enomem) ∧ Represents (step A s call).1 a ∧ A.Fails

variable {A : Allocator} {s : State} {root : Seq} {m m' : Memory} {a : NamedSequences}

namespace Represents

private theorem root_isSome (h : Represents s a) : (s.root.label []).isSome := by
  rw [h.root]
  rfl

private theorem root_ne_none (h : Represents s a) : s.root.label [] ≠ none := by
  rw [h.root]
  exact Option.some_ne_none _

theorem mem_iff (h : Represents s a) {w : Word} (hw : w ≠ []) :
    w ∈ a.members ↔ (s.root.label w).isSome := by
  rw [h.members w]
  exact and_iff_right hw

private theorem same_of_label (h : Represents s a) {u v : Word} {c : Addr}
    (hu : s.root.label u = some (some c)) :
    a.same v u ↔ s.root.label v = some (some c) := by
  rw [h.same]
  constructor
  · rintro (rfl | ⟨c', hv, hu'⟩)
    · exact hu
    · rw [hu, Option.some.injEq, Option.some.injEq] at hu'
      rw [hv, hu']
  · exact fun hv => .inr ⟨c, hv, hu⟩

private theorem same_of_none (h : Represents s a) {u v : Word} (hu : s.root.label u = some none) :
    a.same v u ↔ v = u := by
  rw [h.same]
  constructor
  · rintro (rfl | ⟨c, -, hu'⟩)
    · rfl
    · rw [hu] at hu'
      cases hu'
  · exact fun hv => .inl hv

/-- Only the records and names of the classes matter. -/
theorem memory (h : Represents ⟨root, m⟩ a) (hm' : Accounts m' root.labels)
    (hread : ∀ c, some c ∈ root.labels → m'.readName c = m.readName c) :
    Represents ⟨root, m'⟩ a := by
  refine ⟨hm', h.root, h.members, h.same, fun w c hw => ?_, h.unnamed⟩
  rw [hread c (Trie.mem_labels.mpr ⟨w, hw⟩)]
  exact h.name w c hw

theorem mallocs (h : Represents ⟨root, m⟩ a) (k : Nat) :
    Represents ⟨root, { m with mallocs := k }⟩ a :=
  h.memory (h.accounts.mallocs k) fun _ _ => rfl

end Represents

/-! ## Looking up -/

private theorem valid_agrees (h : Represents s a) (w : CString) : Agrees A s a (.valid w) := by
  refine .inl ?_
  rcases word_cases w with ⟨hword, hbad⟩ | ⟨w, hw, hword, hbad, rfl⟩
  · simp [step, answerCode, specStep, seqValid, hword, hbad, h]
  · have hfind := seqWalk_find h.root_isSome w
    have hmem := h.mem_iff hw
    cases hlabel : s.root.label w with
    | none =>
        simp only [hlabel, Option.isSome_none, Bool.false_eq_true, iff_false,
          if_false] at hmem hfind
        simp [step, answerCode, specStep, seqValid, hword, hbad, h, h.root, hfind, hmem]
    | some c =>
        simp only [hlabel, Option.isSome_some, iff_true, if_true] at hmem hfind
        simp [step, answerCode, specStep, seqValid, hword, hbad, h, h.root, hfind, hmem]

private theorem getName_agrees (h : Represents s a) (w : CString) : Agrees A s a (.getName w) := by
  refine .inl ?_
  rcases word_cases w with ⟨hword, hbad⟩ | ⟨w, hw, hword, hbad, rfl⟩
  · simp [step, specStep, seqGetName, hword, hbad, h]
  · have hfind := seqWalk_find h.root_isSome w
    cases hlabel : s.root.label w with
    | none =>
        have hname : a.name w = none := by
          by_contra hname
          have := (h.mem_iff hw).mp (a.name_member w hname)
          simp [hlabel] at this
        simp only [hlabel, Option.isSome_none, Bool.false_eq_true, if_false] at hfind
        simp [step, specStep, seqGetName, hword, hbad, h, h.root, hfind, hname]
    | some c =>
        simp only [hlabel, Option.isSome_some, if_true] at hfind
        cases c with
        | none =>
            have hname := h.unnamed w hlabel
            simp [step, specStep, seqGetName, hword, hbad, h, h.root, hfind, hlabel, hname]
        | some c =>
            have hread := h.name w c hlabel
            have hnonempty := a.name_nonempty w
            cases hname : a.name w with
            | none =>
                simp [step, specStep, seqGetName, hword, hbad, h, h.root, hfind,
                  hlabel, hread, hname]
            | some n =>
                have hn : n ≠ [] := fun hn => hnonempty (by rw [hname, hn])
                simp [step, specStep, seqGetName, hword, hbad, h, h.root, hfind, hlabel, hread,
                  hname, hn]

/-! ## Adding -/

private theorem seqAddNew_cases (A : Allocator) (root : Seq) (m : Memory) {u : Word} (d : Digit)
    (hu : (root.label u).isSome) :
    (∃ k, seqAddNew A root m u d.char = some (false, root, { m with mallocs := k })) ∧ A.Fails ∨
      ∃ k root', seqAddNew A root m u d.char = some (true, root', { m with mallocs := k }) ∧
        root.setChild u d (.node none fun _ => .null) = some root' := by
  rcases newNode_cases A m with ⟨⟨k, hnew⟩, hfails⟩ | ⟨k, hnew⟩
  · exact .inl ⟨⟨k, by rw [seqAddNew, hnew]⟩, hfails⟩
  · obtain ⟨root', hchild⟩ := Trie.exists_setChild hu d (.node none fun _ => .null)
    refine .inr ⟨k, root', ?_, hchild⟩
    rw [seqAddNew, hnew]
    simp [hchild]

/-- The nodes below `u` on the way of `v` are new and have no class. -/
structure Grown (root root' : Seq) (m m' : Memory) (u v : Word) : Prop where
  label : ∀ x c, root'.label x = some (some c) ↔ root.label x = some (some c)
  isSome : ∀ x, (root'.label x).isSome ↔
    (root.label x).isSome ∨ u <+: x ∧ x <+: u ++ v
  accounts : Accounts m root.labels → Accounts m' root'.labels
  readName : ∀ c, m'.readName c = m.readName c

private theorem grown_child {root' : Seq} {u : Word} {d : Digit} (k : Nat)
    (hchild : root.setChild u d (.node none fun _ => .null) = some root')
    (hnew : root.label (u ++ [d]) = none) (hu : (root.label u).isSome) :
    Grown root root' m { m with mallocs := k } u [d] := by
  have hlabel := Trie.label_setChild_leaf hchild hnew
  refine ⟨fun x c => ?_, fun x => ?_, fun h => ?_, fun _ => rfl⟩
  · rw [hlabel]
    split_ifs with hx
    · simp [hx, hnew]
    · rfl
  · rw [hlabel, List.prefix_concat_iff]
    split_ifs with hx
    · simp [hx]
    · simp only [hx, false_or]
      constructor
      · exact .inl
      · rintro (hx | ⟨hux, hxu⟩)
        · exact hx
        · rw [← hux.eq_of_length (le_antisymm hux.length_le hxu.length_le)]
          exact hu
  · have hlabels := Trie.labels_setChild hchild
    have hnull : (root.sub (u ++ [d])).labels = 0 := by
      have : root.sub (u ++ [d]) = .null :=
        Trie.ext fun w => by rw [Trie.label_sub, Trie.label_append_none hnew, Trie.label_null]
      rw [this, Trie.labels_null]
    have hcons : root'.labels = none ::ₘ root.labels := by
      rw [hnull, add_zero] at hlabels
      rw [hlabels]
      simp [add_comm, Multiset.singleton_add]
    rw [hcons]
    exact accounts_cons_none.mpr (h.mallocs k)

theorem Grown.cons {root₁ root' : Seq} {m₁ : Memory} {u v : Word} {d : Digit}
    (h : Grown root root₁ m m₁ u [d]) (h' : Grown root₁ root' m₁ m' (u ++ [d]) v) :
    Grown root root' m m' u (d :: v) := by
  refine ⟨fun x c => (h'.label x c).trans (h.label x c), fun x => ?_,
    fun hm => h'.accounts (h.accounts hm), fun c => (h'.readName c).trans (h.readName c)⟩
  have hassoc : u ++ [d] ++ v = u ++ d :: v := by simp
  rw [h'.isSome, h.isSome, or_assoc, hassoc]
  refine or_congr_right ⟨?_, fun ⟨hux, hxv⟩ => ?_⟩
  · rintro (⟨hux, hxd⟩ | ⟨hux, hxv⟩)
    · exact ⟨hux, hxd.trans (hassoc ▸ List.prefix_append _ _)⟩
    · exact ⟨(List.prefix_append _ _).trans hux, hxv⟩
  · have hdv : u ++ [d] <+: u ++ d :: v := hassoc ▸ List.prefix_append _ _
    rcases List.prefix_or_prefix_of_prefix hxv hdv with hx | hx
    · exact .inl ⟨hux, hx⟩
    · exact .inr ⟨hx, hxv⟩

theorem addAll_spec (A : Allocator) (v : Word) {root : Seq} {m : Memory} {u : Word} {d : Digit}
    (hu : (root.label u).isSome) (hnew : root.label (u ++ [d]) = none) :
    ∃ k root', addAll A root m u ((d :: v).map Digit.char) =
          some (true, root', { m with mallocs := k }) ∧
        Grown root root' m { m with mallocs := k } u (d :: v) ∨
      addAll A root m u ((d :: v).map Digit.char) =
          some (false, root', { m with mallocs := k }) ∧
        A.Fails ∧ ∀ x, ¬ u ++ [d] <+: x → root'.label x = root.label x := by
  induction v generalizing root m u d with
  | nil =>
      rcases seqAddNew_cases A root m d hu with ⟨⟨k, hadd⟩, hfails⟩ | ⟨k, root₁, hadd, hchild⟩
      · exact ⟨k, root, .inr ⟨by simp [addAll, hadd], hfails, fun _ _ => rfl⟩⟩
      · exact ⟨k, root₁, .inl ⟨by simp [addAll, hadd], grown_child k hchild hnew hu⟩⟩
  | cons e v ih =>
      rcases seqAddNew_cases A root m d hu with ⟨⟨k, hadd⟩, hfails⟩ | ⟨k, root₁, hadd, hchild⟩
      · exact ⟨k, root, .inr ⟨by simp [addAll, hadd], hfails, fun _ _ => rfl⟩⟩
      · have hlabel := Trie.label_setChild_leaf hchild hnew
        have hu₁ : (root₁.label (u ++ [d])).isSome := by simp [hlabel]
        have hnew₁ : root₁.label (u ++ [d] ++ [e]) = none := by
          rw [hlabel, if_neg (by simp), Trie.label_append_none hnew]
        have haddAll : addAll A root m u ((d :: e :: v).map Digit.char) =
            addAll A root₁ { m with mallocs := k } (u ++ [d]) ((e :: v).map Digit.char) := by
          rw [List.map_cons, addAll, hadd]
          simp
        rw [haddAll]
        obtain ⟨k', root', ⟨heq, hgrown⟩ | ⟨heq, hfails, hframe⟩⟩ :=
          ih (m := { m with mallocs := k }) hu₁ hnew₁
        · exact ⟨k', root', .inl ⟨heq, (grown_child k hchild hnew hu).cons hgrown⟩⟩
        · refine ⟨k', root', .inr ⟨heq, hfails, fun x hx => ?_⟩⟩
          have hx' : ¬ u ++ [d] ++ [e] <+: x := fun h => hx ((List.prefix_append _ _).trans h)
          have hne : x ≠ u ++ [d] := fun heq => hx (heq ▸ List.prefix_refl _)
          rw [hframe x hx', hlabel, if_neg hne]

/-- What was added below `u` is cut off again. -/
theorem cut_eq {root' : Seq} {u : Word} {d : Digit} (hu : (root.label u).isSome)
    (hnew : root.label (u ++ [d]) = none)
    (hframe : ∀ x, ¬ u ++ [d] <+: x → root'.label x = root.label x) :
    root'.setChild u d .null = some root := by
  have hu' : (root'.label u).isSome := by
    rw [hframe u fun h => by simpa using h.length_le]
    exact hu
  obtain ⟨cut, hcut⟩ := Trie.exists_setChild hu' d .null
  rw [hcut]
  refine congrArg some (Trie.ext fun x => ?_)
  rw [Trie.label_setChild hcut]
  split_ifs with hx
  · obtain ⟨y, rfl⟩ := hx
    rw [Trie.label_null, Trie.label_append_none hnew]
  · exact hframe x hx

private theorem grown_represents {root' : Seq} {u v : Word} (h : Represents ⟨root, m⟩ a)
    (hu : (root.label u).isSome) (hgrown : Grown root root' m m' u v) :
    Represents ⟨root', m'⟩ (a.insert (u ++ v)) := by
  have hsame (x : Word) : root'.label x = some none ↔
      root.label x = some none ∨ root.label x = none ∧ u <+: x ∧ x <+: u ++ v := by
    have hlabel := hgrown.label x
    have hsome := hgrown.isSome x
    cases hx : root'.label x with
    | none =>
        simp only [hx, Option.isSome_none, Bool.false_eq_true, false_iff, not_or] at hsome
        have hnone : root.label x = none := by simpa using hsome.1
        simp [hnone, hsome.2]
    | some c =>
        cases c with
        | none =>
            simp only [hx, Option.isSome_some, true_iff] at hsome
            cases hr : root.label x with
            | none => simpa [hr] using hsome
            | some c =>
                cases c with
                | none => simp
                | some c => simpa [hx] using (hlabel c).mpr hr
        | some c => simp [(hlabel c).mp hx]
  refine ⟨hgrown.accounts h.accounts, (hsame []).mpr (.inl h.root), fun w => ?_, fun x y => ?_,
    fun w c hw => ?_, fun w hw => ?_⟩
  · rw [hgrown.isSome, and_or_left, ← h.members w]
    refine or_congr_right' fun hw => ?_
    constructor
    · rintro ⟨hne, hpre⟩
      refine ⟨hne, ?_, hpre⟩
      rcases List.prefix_or_prefix_of_prefix hpre (List.prefix_append u v) with hx | hx
      · obtain ⟨y, rfl⟩ := hx
        exact absurd ((h.members w).mpr ⟨hne, Trie.label_of_append hu⟩) hw
      · exact hx
    · exact fun ⟨hne, _, hpre⟩ => ⟨hne, hpre⟩
  · simp only [hgrown.label]
    exact h.same x y
  · rw [hgrown.readName]
    exact h.name w c ((hgrown.label w c).mp hw)
  · rcases (hsame w).mp hw with hw | ⟨hw, -⟩
    · exact h.unnamed w hw
    · by_contra hname
      have := ((h.members w).mp (a.name_member w hname)).2
      simp [hw] at this

private theorem add_agrees (h : Represents s a) (w : CString) : Agrees A s a (.add w) := by
  obtain ⟨root, m⟩ := s
  rcases word_cases w with ⟨hword, hbad⟩ | ⟨w, hw, hword, hbad, rfl⟩
  · refine .inl ?_
    simp [step, answerCode, specStep, seqAdd, hword, hbad, h]
  · have hmem := h.mem_iff hw
    cases hlabel : root.label w with
    | some c =>
        refine .inl ?_
        obtain ⟨l, hwalk⟩ := seqWalk_add h.root_isSome (w := w) (by simp [hlabel])
        simp only [hlabel, Option.isSome_some, iff_true] at hmem
        simp [step, answerCode, specStep, seqAdd, hword, hbad, hwalk, hmem, h, h.root_ne_none]
    | none =>
        obtain ⟨u, d, v, rfl, hu, hnew, hwalk⟩ := seqWalk_add_new h.root_isSome hlabel
        simp only [hlabel, Option.isSome_none, Bool.false_eq_true, iff_false] at hmem
        have hdrop : ((u ++ d :: v).map Digit.char).drop u.length = (d :: v).map Digit.char := by
          rw [List.map_append, List.drop_left' (by simp)]
        have hget : ((u ++ d :: v).map Digit.char)[u.length]? = some d.char := by simp
        obtain ⟨k, root', ⟨hadd, hgrown⟩ | ⟨hadd, hfails, hframe⟩⟩ :=
          addAll_spec A v (m := m) hu hnew
        all_goals
          generalize (d :: v).map Digit.char = rest at hdrop hadd
          generalize (u ++ d :: v).map Digit.char = str at hword hbad hwalk hdrop hget ⊢
        · refine .inl ?_
          have hrep := grown_represents h hu hgrown
          simp [step, answerCode, specStep, seqAdd, hword, hbad, hwalk, hmem, hdrop, hadd, hrep,
            h.root_ne_none]
        · refine .inr ?_
          have hrep := h.mallocs k
          have hcut := cut_eq hu hnew hframe
          simp [step, answerCode, seqAdd, hbad, hwalk, hdrop, hget, hadd, hrep, hfails, hcut,
            h.root_ne_none]

/-! ## Removing -/

private theorem cut_represents {root' : Seq} {u : Word} {d : Digit} (h : Represents ⟨root, m⟩ a)
    (hcut : root.setChild u d .null = some root') (hm' : Accounts m' root'.labels)
    (hread : ∀ c, some c ∈ root'.labels → m'.readName c = m.readName c) :
    Represents ⟨root', m'⟩ (a.erase (u ++ [d])) := by
  have hlabel (x : Word) :
      root'.label x = if u ++ [d] <+: x then none else root.label x := by
    rw [Trie.label_setChild hcut, Trie.label_null]
  refine ⟨hm', ?_, fun w => ?_, fun x y => ?_, fun w c hw => ?_, fun w hw => ?_⟩
  · rw [hlabel, if_neg fun hpre => by simpa using hpre.length_le]
    exact h.root
  · rw [hlabel]
    change w ∈ a.members ∧ ¬ u ++ [d] <+: w ↔ _
    rw [h.members w]
    split_ifs with hw <;> simp [hw]
  · rw [hlabel, hlabel]
    change x = y ∨ a.same x y ∧ ¬ u ++ [d] <+: x ∧ ¬ u ++ [d] <+: y ↔ _
    rw [h.same]
    by_cases hx : u ++ [d] <+: x
    · simp [hx]
    · by_cases hy : u ++ [d] <+: y
      · simp [hy]
      · simp [hx, hy]
  · rw [hread c (Trie.mem_labels.mpr ⟨w, hw⟩)]
    rw [hlabel] at hw
    split_ifs at hw with hpre
    change m.readName c = some ((if u ++ [d] <+: w then none else a.name w).getD [])
    rw [if_neg hpre]
    exact h.name w c hw
  · rw [hlabel] at hw
    split_ifs at hw with hpre
    change (if u ++ [d] <+: w then none else a.name w) = none
    rw [if_neg hpre]
    exact h.unnamed w hw

private theorem remove_agrees (h : Represents s a) (w : CString) : Agrees A s a (.remove w) := by
  obtain ⟨root, m⟩ := s
  refine .inl ?_
  rcases word_cases w with ⟨hword, hbad⟩ | ⟨w, hw, hword, hbad, rfl⟩
  · simp [step, answerCode, specStep, seqRemove, hword, hbad, h]
  · obtain ⟨u, d, rfl⟩ : ∃ u d, w = u ++ [d] := ⟨_, _, (List.dropLast_append_getLast hw).symm⟩
    have hmem := h.mem_iff hw
    rcases seqWalk_remove h.root_isSome u d with ⟨hu, hwalk⟩ | ⟨hu, l, hwalk⟩
    · have hget : ((u ++ [d]).map Digit.char)[u.length]? = some d.char := by simp
      generalize (u ++ [d]).map Digit.char = str at hword hbad hwalk hget ⊢
      cases hlabel : root.label (u ++ [d]) with
      | none =>
          simp only [hlabel, Option.isSome_none, Bool.false_eq_true, iff_false] at hmem
          simp [step, answerCode, specStep, seqRemove, hword, hbad, hwalk, hget, hlabel, hmem, h,
            h.root_ne_none]
      | some c =>
          simp only [hlabel, Option.isSome_some, iff_true] at hmem
          obtain ⟨root', hcut⟩ := Trie.exists_setChild hu d .null
          have hlabels := Trie.labels_setChild hcut
          rw [Trie.labels_null, add_zero, add_comm] at hlabels
          have haccounts := h.accounts
          simp only [← hlabels] at haccounts
          obtain ⟨m', hremove, hm', -, hread⟩ := haccounts.classRemove
          have hrep := cut_represents h hcut hm' hread
          simp [step, answerCode, specStep, seqRemove, hword, hbad, hwalk, hget, hlabel, hmem, hcut,
            hremove, hrep, h.root_ne_none]
    · have hmem' : u ++ [d] ∉ a.members := by
        rw [hmem, Trie.label_append_none hu]
        simp
      generalize (u ++ [d]).map Digit.char = str at hword hbad hwalk ⊢
      simp [step, answerCode, specStep, seqRemove, hword, hbad, hwalk, hmem', h, h.root_ne_none]

/-! ## Classes -/

private theorem unite_represents {root' : Seq} {a' : NamedSequences} {S : Set Word} {c : Addr}
    {n : Option (List Char)} (h : Represents ⟨root, m⟩ a)
    (hS : ∀ x ∈ S, x ∈ a.members) (hclosed : ∀ x y, a.same x y → y ∈ S → x ∈ S)
    (hlabel : ∀ x ∈ S, root'.label x = some (some c))
    (hrest : ∀ x ∉ S, root'.label x = root.label x)
    (hc : ∀ x, root.label x = some (some c) → x ∈ S)
    (hm' : Accounts m' root'.labels) (hread : m'.readName c = some (n.getD []))
    (hothers : ∀ x c', x ∉ S → root.label x = some (some c') →
      m'.readName c' = m.readName c')
    (hmembers : a'.members = a.members)
    (hsame : ∀ x y, a'.same x y ↔ a.same x y ∨ x ∈ S ∧ y ∈ S)
    (hname : ∀ x ∈ S, a'.name x = n) (hkept : ∀ x ∉ S, a'.name x = a.name x) :
    Represents ⟨root', m'⟩ a' := by
  have hroot : [] ∉ S := fun hnil => a.nonempty (hS [] hnil)
  refine ⟨hm', (hrest [] hroot).trans h.root, fun w => ?_, fun x y => ?_, fun w c' hw => ?_,
    fun w hw => ?_⟩
  · rw [hmembers]
    by_cases hw : w ∈ S
    · have hmem := hS w hw
      simp only [hmem, hlabel w hw, Option.isSome_some, and_true, true_iff]
      exact ((h.members w).mp hmem).1
    · rw [hrest w hw]
      exact h.members w
  · rw [hsame]
    by_cases hx : x ∈ S
    · by_cases hy : y ∈ S
      · simp [hx, hy, hlabel x hx, hlabel y hy]
      · have hxy : ¬ a.same x y := fun hxy => hy (hclosed y x (a.same.symm hxy) hx)
        have hne : x ≠ y := fun heq => hy (heq ▸ hx)
        have hyc : root.label y ≠ some (some c) := fun heq => hy (hc y heq)
        simp [hy, hxy, hne, hlabel x hx, hrest y hy, hyc]
    · rw [hrest x hx]
      by_cases hy : y ∈ S
      · have hxy : ¬ a.same x y := fun hxy => hx (hclosed x y hxy hy)
        have hne : x ≠ y := fun heq => hx (heq ▸ hy)
        have hxc : root.label x ≠ some (some c) := fun heq => hx (hc x heq)
        simp [hx, hxy, hne, hlabel y hy, hxc]
      · simpa [hx, hrest y hy] using h.same x y
  · by_cases hwS : w ∈ S
    · rw [hlabel w hwS, Option.some.injEq, Option.some.injEq] at hw
      rw [← hw, hread, hname w hwS]
    · rw [hrest w hwS] at hw
      rw [hothers w c' hwS hw, hkept w hwS]
      exact h.name w c' hw
  · by_cases hwS : w ∈ S
    · rw [hlabel w hwS] at hw
      cases hw
    · rw [hrest w hwS] at hw
      rw [hkept w hwS]
      exact h.unnamed w hw

private theorem rename_represents {root' : Seq} {w : Word} {n : List Char} {c : Addr}
    (h : Represents ⟨root, m⟩ a) (hw : w ∈ a.members) (hn : n ≠ [])
    (hlabel : ∀ x, a.same x w → root'.label x = some (some c))
    (hrest : ∀ x, ¬ a.same x w → root'.label x = root.label x)
    (hc : ∀ x, root.label x = some (some c) → a.same x w)
    (hm' : Accounts m' root'.labels) (hread : m'.readName c = some n)
    (hothers : ∀ c', c' ≠ c → some c' ∈ root.labels → m'.readName c' = m.readName c') :
    Represents ⟨root', m'⟩ (a.rename w n hw hn) := by
  refine unite_represents (S := {x | a.same x w}) (n := some n) h ?_ ?_ hlabel hrest hc hm' hread
    ?_ rfl ?_ (fun x hx => if_pos hx) fun x hx => if_neg hx
  · exact fun x hx => (a.alone x w hx).elim (fun heq => heq ▸ hw) And.left
  · exact fun x y hxy hy => a.same.trans hxy hy
  · intro x c' hx hlabel'
    refine hothers c' ?_ (Trie.mem_labels.mpr ⟨x, hlabel'⟩)
    rintro rfl
    exact hx (hc x hlabel')
  · intro x y
    exact ⟨.inl, fun h => h.elim id fun h => a.same.trans h.1 (a.same.symm h.2)⟩

private theorem join_represents {root' : Seq} {w₁ w₂ : Word} {c : Addr} (h : Represents ⟨root, m⟩ a)
    (hw₁ : w₁ ∈ a.members) (hw₂ : w₂ ∈ a.members)
    (hlabel : ∀ x, a.same x w₁ ∨ a.same x w₂ → root'.label x = some (some c))
    (hrest : ∀ x, ¬ (a.same x w₁ ∨ a.same x w₂) → root'.label x = root.label x)
    (hc : ∀ x, root.label x = some (some c) → a.same x w₁ ∨ a.same x w₂)
    (hm' : Accounts m' root'.labels)
    (hread : m'.readName c =
      some ((NamedSequences.joinNames (a.name w₁) (a.name w₂)).getD []))
    (hothers : ∀ x c', ¬ (a.same x w₁ ∨ a.same x w₂) → root.label x = some (some c') →
      m'.readName c' = m.readName c') :
    Represents ⟨root', m'⟩ (a.join w₁ w₂ hw₁ hw₂) := by
  refine unite_represents (S := {x | a.same x w₁ ∨ a.same x w₂}) h ?_ ?_ hlabel hrest hc hm' hread
    hothers rfl (fun _ _ => Iff.rfl) (fun x hx => if_pos hx) fun x hx => if_neg hx
  · rintro x (hx | hx)
    · exact (a.alone x w₁ hx).elim (fun heq => heq ▸ hw₁) And.left
    · exact (a.alone x w₂ hx).elim (fun heq => heq ▸ hw₂) And.left
  · exact fun x y hxy hy => hy.imp (a.same.trans hxy) (a.same.trans hxy)

/-! ## Naming -/

private theorem count_setLabel {root' : Seq} {w : Word} {c : Addr} (hw : root.label w = some none)
    (hroot' : root.setLabel w (some c) = some root') (c' : Addr) :
    root'.labels.count (some c') = root.labels.count (some c') + if c' = c then 1 else 0 := by
  have hlabels := congrArg (Multiset.count (some c')) (Trie.labels_setLabel hroot' hw)
  rw [Multiset.count_cons_of_ne (by simp), Multiset.count_cons] at hlabels
  rw [hlabels]
  simp

private theorem setName_agrees (h : Represents s a) (w n : CString) :
    Agrees A s a (.setName w n) := by
  obtain ⟨root, m⟩ := s
  rcases word_cases w with ⟨hword, hbad⟩ | ⟨w, hw, hword, hbad, rfl⟩
  · refine .inl ?_
    simp [step, answerCode, specStep, seqSetName, hword, hbad, h]
  rcases n with _ | n
  · refine .inl ?_
    simp [step, answerCode, specStep, seqSetName, hword, h]
  by_cases hn : n = []
  · refine .inl ?_
    simp [step, answerCode, specStep, seqSetName, hword, hn, h]
  have hfind := seqWalk_find h.root_isSome w
  have hmem := h.mem_iff hw
  generalize w.map Digit.char = str at hword hbad hfind ⊢
  rcases newName_cases A m n with ⟨⟨k, hcopy⟩, hfails⟩ | ⟨b, k, hcopy, hb⟩
  · refine .inr ?_
    have hrep := h.mallocs k
    simp [step, answerCode, seqSetName, hbad, hn, hcopy, hrep, hfails, h.root_ne_none]
  have hfree := freeName_new (n := n) (k := k) hb
  obtain ⟨hnew, hnewRead⟩ := h.accounts.newName hb n k
  cases hlabel : root.label w with
  | none =>
      refine .inl ?_
      have hrep := h.mallocs k
      simp only [hlabel, Option.isSome_none, Bool.false_eq_true, iff_false, if_false] at hmem hfind
      simp [step, answerCode, specStep, seqSetName, hword, hbad, hn, hcopy, hfind, hmem, hfree,
        hrep, h.root_ne_none]
  | some c =>
      simp only [hlabel, Option.isSome_some, iff_true, if_true] at hmem hfind
      cases c with
      | none =>
          have hname := h.unnamed w hlabel
          rcases classNew_cases A { m with names := m.names.insert b n, mallocs := k } (some b) with
            ⟨⟨k', hclass⟩, hfails⟩ | ⟨c, k', hclass, hc⟩
          · refine .inr ?_
            have hfree' := freeName_new (n := n) (k := k') hb
            have hrep := h.mallocs k'
            simp [step, answerCode, seqSetName, hbad, hn, hcopy, hfind, hlabel, hclass, hfree',
              hrep, hfails, h.root_ne_none]
          · refine .inl ?_
            obtain ⟨root', hroot'⟩ := Trie.exists_setLabel (t := root) (w := w)
              (by simp [hlabel]) (some c)
            have hcount := count_setLabel hlabel hroot'
            have hone : root'.labels.count (some c) = 1 := by
              have hnot : some c ∉ root.labels := fun hmem => hc (h.accounts.live c hmem)
              rw [hcount, Multiset.count_eq_zero.mpr hnot, if_pos rfl]
            obtain ⟨hm', hread, hothers⟩ := h.accounts.newClass root'.labels hb hc n k'
              (by simp [hone]) fun c' hc' => by simp [hcount, hc']
            simp only [hone] at hm' hread hothers
            have hrep : Represents
                ⟨root', m.classes.insert c ⟨1, some b⟩, m.names.insert b n, k'⟩
                (a.rename w n hmem hn) := by
              have hlabel' := Trie.label_setLabel hroot'
              have hsame (x : Word) : a.same x w ↔ x = w := h.same_of_none hlabel
              refine rename_represents h hmem hn (fun x hx => ?_) (fun x hx => ?_) (fun x hx => ?_)
                hm' hread fun c' _ hc' => hothers c' hc'
              · rw [hlabel', if_pos ((hsame x).mp hx)]
              · rw [hlabel', if_neg fun heq => hx ((hsame x).mpr heq)]
              · exact absurd (h.accounts.live c (Trie.mem_labels.mpr ⟨x, hx⟩)) hc
            simp [step, answerCode, specStep, seqSetName, hword, hbad, hn, hcopy, hfind, hmem,
              hlabel, hclass, hroot', hname, hrep, h.root_ne_none]
      | some c =>
          refine .inl ?_
          have hcmem : some c ∈ root.labels := Trie.mem_labels.mpr ⟨w, hlabel⟩
          have hread := (hnewRead c hcmem).trans (h.name w c hlabel)
          by_cases hsame : a.name w = some n
          · have hrep := h.mallocs k
            simp [step, answerCode, specStep, seqSetName, hword, hbad, hn, hcopy, hfind, hmem,
              hlabel, hread, hsame, hfree, hrep, h.root_ne_none]
          · obtain ⟨r, hr⟩ := Finmap.mem_iff.mp (h.accounts.live c hcmem)
            obtain ⟨m', hrename, hm', hread', hothers⟩ := h.accounts.rename hcmem hb n k hr
            have hrep : Represents ⟨root, m'⟩ (a.rename w n hmem hn) := by
              have hclass (x : Word) : a.same x w ↔ root.label x = some (some c) :=
                h.same_of_label hlabel
              exact rename_represents h hmem hn (fun x hx => (hclass x).mp hx) (fun _ _ => rfl)
                (fun x hx => (hclass x).mpr hx) hm' hread' hothers
            have hne : n ≠ (a.name w).getD [] := by
              cases hw' : a.name w with
              | none => simpa using hn
              | some n' =>
                  rintro rfl
                  exact hsame hw'
            simp [step, answerCode, specStep, seqSetName, hword, hbad, hn, hcopy, hfind, hmem,
              hlabel, hread, hsame, hne, hr, hrename, hrep, h.root_ne_none]

/-! ## Joining -/

private theorem joinNames_none_right (n : Option (List Char)) :
    NamedSequences.joinNames n none = n := by
  cases n <;> rfl

private theorem retain_represents {w v : Word} {c : Addr} (h : Represents ⟨root, m⟩ a)
    (hw : w ∈ a.members) (hv : v ∈ a.members) (hlabel : root.label w = some none)
    (hlabel' : root.label v = some (some c)) :
    ∃ root' r, root.setLabel w (some c) = some root' ∧ m.classes.lookup c = some r ∧
      Represents ⟨root', m.setClass c { r with counter := r.counter + 1 }⟩ (a.join w v hw hv) ∧
      Represents ⟨root', m.setClass c { r with counter := r.counter + 1 }⟩ (a.join v w hv hw) := by
  have hc : some c ∈ root.labels := Trie.mem_labels.mpr ⟨v, hlabel'⟩
  obtain ⟨root', hroot'⟩ := Trie.exists_setLabel (t := root) (w := w) (by simp [hlabel]) (some c)
  obtain ⟨r, hr⟩ := Finmap.mem_iff.mp (h.accounts.live c hc)
  obtain ⟨hm', hread⟩ := h.accounts.retain hr
  have hlabels := Trie.labels_setLabel hroot' hlabel
  have hm'' : Accounts (m.setClass c { r with counter := r.counter + 1 }) root'.labels := by
    rw [← accounts_cons_none, hlabels]
    exact hm'
  have hlabel'' := Trie.label_setLabel hroot'
  have hsame (x : Word) : a.same x w ↔ x = w := h.same_of_none hlabel
  have hclass (x : Word) : a.same x v ↔ root.label x = some (some c) := h.same_of_label hlabel'
  have hjoined (x : Word) (hx : a.same x w ∨ a.same x v) : root'.label x = some (some c) := by
    rw [hlabel'']
    split_ifs with hxw
    · rfl
    · exact (hclass x).mp (hx.resolve_left fun hx => hxw ((hsame x).mp hx))
  have hrest (x : Word) (hx : ¬ (a.same x w ∨ a.same x v)) : root'.label x = root.label x := by
    rw [hlabel'', if_neg fun hxw => hx (.inl ((hsame x).mpr hxw))]
  have hname : a.name w = none := h.unnamed w hlabel
  have hread' : (m.setClass c { r with counter := r.counter + 1 }).readName c =
      some ((a.name v).getD []) := (hread c hc).trans (h.name v c hlabel')
  have hothers (x : Word) (c' : Addr) (_ : ¬ (a.same x w ∨ a.same x v))
      (hx : root.label x = some (some c')) :
      (m.setClass c { r with counter := r.counter + 1 }).readName c' = m.readName c' :=
    hread c' (Trie.mem_labels.mpr ⟨x, hx⟩)
  refine ⟨root', r, hroot', hr, join_represents h hw hv hjoined hrest
      (fun x hx => .inr ((hclass x).mpr hx)) hm'' ?_ hothers,
    join_represents h hv hw (fun x hx => hjoined x hx.symm) (fun x hx => hrest x (hx ∘ .symm))
      (fun x hx => .inl ((hclass x).mpr hx)) hm'' ?_ fun x c' hx => hothers x c' (hx ∘ .symm)⟩
  · rw [hname, hread']
    rfl
  · rw [hname, joinNames_none_right, hread']

private theorem pair_represents {w v : Word} {b c : Addr} (h : Represents ⟨root, m⟩ a)
    (hw : w ∈ a.members) (hv : v ∈ a.members) (hne : v ≠ w) (hlabel : root.label w = some none)
    (hlabel' : root.label v = some none) (hb : b ∉ m.names) (hc : c ∉ m.classes) (k : Nat) :
    ∃ root₁ root₂, root.setLabel w (some c) = some root₁ ∧
      root₁.setLabel v (some c) = some root₂ ∧
      Represents ⟨root₂, m.classes.insert c ⟨2, some b⟩, m.names.insert b [], k⟩
        (a.join w v hw hv) := by
  obtain ⟨root₁, hroot₁⟩ := Trie.exists_setLabel (t := root) (w := w) (by simp [hlabel]) (some c)
  have hlabel₁ := Trie.label_setLabel hroot₁
  have hv₁ : root₁.label v = some none := by rw [hlabel₁, if_neg hne, hlabel']
  obtain ⟨root₂, hroot₂⟩ := Trie.exists_setLabel (t := root₁) (w := v) (by simp [hv₁]) (some c)
  have hlabel₂ := Trie.label_setLabel hroot₂
  have hcount (c' : Addr) : root₂.labels.count (some c') =
      root.labels.count (some c') + if c' = c then 2 else 0 := by
    rw [count_setLabel hv₁ hroot₂, count_setLabel hlabel hroot₁, Nat.add_assoc]
    split_ifs <;> rfl
  have htwo : root₂.labels.count (some c) = 2 := by
    have hnot : some c ∉ root.labels := fun hmem => hc (h.accounts.live c hmem)
    rw [hcount, Multiset.count_eq_zero.mpr hnot, if_pos rfl]
  obtain ⟨hm', hread, hothers⟩ := h.accounts.newClass root₂.labels hb hc [] k
    (by simp [htwo]) fun c' hc' => by simp [hcount, hc']
  simp only [htwo] at hm' hread hothers
  have hw' (x : Word) : a.same x w ↔ x = w := h.same_of_none hlabel
  have hv' (x : Word) : a.same x v ↔ x = v := h.same_of_none hlabel'
  refine ⟨root₁, root₂, hroot₁, hroot₂,
    join_represents (c := c) h hw hv (fun x hx => ?_) (fun x hx => ?_)
    (fun x hx => ?_) hm' ?_ fun x c' _ hx => hothers c' (Trie.mem_labels.mpr ⟨x, hx⟩)⟩
  · rw [hw', hv'] at hx
    rw [hlabel₂, hlabel₁]
    rcases hx with rfl | rfl <;> simp
  · rw [hw', hv', not_or] at hx
    rw [hlabel₂, hlabel₁, if_neg hx.2, if_neg hx.1]
  · exact absurd (h.accounts.live c (Trie.mem_labels.mpr ⟨x, hx⟩)) hc
  · rw [hread, h.unnamed w hlabel, h.unnamed v hlabel']
    rfl

private theorem label_mergedRoot {c c₁ c₂ : Addr} (x : Word) :
    (mergedRoot root c c₁ c₂).label x =
      if root.label x = some (some c₁) ∨ root.label x = some (some c₂) then some (some c)
      else root.label x := by
  rw [mergedRoot, Trie.label_map, Trie.label_map]
  cases root.label x with
  | none => simp
  | some a =>
      simp only [Option.map_some, relabel, Option.some.injEq]
      split_ifs <;> simp_all

private theorem merge_represents {w₁ w₂ : Word} {c c₁ c₂ : Addr} (h : Represents ⟨root, m⟩ a)
    (hw₁ : w₁ ∈ a.members) (hw₂ : w₂ ∈ a.members) (hlabel₁ : root.label w₁ = some (some c₁))
    (hlabel₂ : root.label w₂ = some (some c₂)) (hc : c ∉ m.classes)
    (hm' : Accounts m' (mergedRoot root c c₁ c₂).labels)
    (hread : m'.readName c =
      some ((NamedSequences.joinNames (a.name w₁) (a.name w₂)).getD []))
    (hothers : ∀ c', c' ≠ c → c' ≠ c₁ → c' ≠ c₂ → some c' ∈ root.labels →
      m'.readName c' = m.readName c') :
    Represents ⟨mergedRoot root c c₁ c₂, m'⟩ (a.join w₁ w₂ hw₁ hw₂) := by
  have h₁ (x : Word) : a.same x w₁ ↔ root.label x = some (some c₁) := h.same_of_label hlabel₁
  have h₂ (x : Word) : a.same x w₂ ↔ root.label x = some (some c₂) := h.same_of_label hlabel₂
  have hnew (x : Word) : root.label x ≠ some (some c) := fun hx =>
    hc (h.accounts.live c (Trie.mem_labels.mpr ⟨x, hx⟩))
  refine join_represents h hw₁ hw₂ (fun x hx => ?_) (fun x hx => ?_)
    (fun x hx => absurd hx (hnew x)) hm' hread fun x c' hx hlabel => ?_
  · rw [h₁, h₂] at hx
    rw [label_mergedRoot, if_pos hx]
  · rw [h₁, h₂] at hx
    rw [label_mergedRoot, if_neg hx]
  · rw [h₁, h₂, not_or, hlabel] at hx
    refine hothers c' ?_ (by simpa using hx.1) (by simpa using hx.2)
      (Trie.mem_labels.mpr ⟨x, hlabel⟩)
    rintro rfl
    exact hnew x hlabel

/-- What is left of the call once both nodes are found. -/
theorem equiv_step {w₁ w₂ : Word} {a₁ a₂ : Option Addr} {str₁ str₂ : CString}
    (h : Represents ⟨root, m⟩ a) (hword₁ : word? str₁ = some w₁) (hword₂ : word? str₂ = some w₂)
    (hne : w₁ ≠ w₂) (hlabel₁ : root.label w₁ = some a₁) (hlabel₂ : root.label w₂ = some a₂) :
    step A ⟨root, m⟩ (.equiv str₁ str₂) =
      answerCode ⟨root, m⟩ (joinNodes A root m w₁ w₂ a₁ a₂) := by
  have hfind₁ := seqWalk_find h.root_isSome w₁
  have hfind₂ := seqWalk_find h.root_isSome w₂
  simp only [hlabel₁, Option.isSome_some, if_true] at hfind₁
  simp only [hlabel₂, Option.isSome_some, if_true] at hfind₂
  rcases word_cases str₁ with ⟨hword, -⟩ | ⟨w, -, hword, hbad₁, hstr₁⟩
  · simp [hword] at hword₁
  obtain rfl := Option.some.inj (hword.symm.trans hword₁)
  rcases word_cases str₂ with ⟨hword', -⟩ | ⟨w', -, hword', hbad₂, hstr₂⟩
  · simp [hword'] at hword₂
  obtain rfl := Option.some.inj (hword'.symm.trans hword₂)
  have hstr : w.map Digit.char ≠ w'.map Digit.char := by
    intro heq
    rw [hstr₁, heq, ← hstr₂, hword₂] at hword₁
    exact hne (Option.some.inj hword₁).symm
  generalize w.map Digit.char = s₁ at hstr₁ hfind₁ hstr
  generalize w'.map Digit.char = s₂ at hstr₂ hfind₂ hstr
  subst hstr₁ hstr₂
  simp [step, seqEquiv, hbad₁, hbad₂, h.root_ne_none, hstr, hfind₁, hfind₂, hlabel₁, hlabel₂]

private theorem pairClass_agrees {w₁ w₂ : Word} (h : Represents ⟨root, m⟩ a) (hw₁ : w₁ ∈ a.members)
    (hw₂ : w₂ ∈ a.members) (hne : w₂ ≠ w₁) (hlabel₁ : root.label w₁ = some none)
    (hlabel₂ : root.label w₂ = some none) :
    ∃ r root' m', pairClass A root m w₁ w₂ = some (r, root', m') ∧
      (r = .ok true ∧ Represents ⟨root', m'⟩ (a.join w₁ w₂ hw₁ hw₂) ∨
        r = .error .enomem ∧ Represents ⟨root', m'⟩ a ∧ A.Fails) := by
  rcases newName_cases A m [] with ⟨⟨k, hname⟩, hfails⟩ | ⟨b, k, hname, hb⟩
  · exact ⟨_, _, _, by rw [pairClass, hname], .inr ⟨rfl, h.mallocs k, hfails⟩⟩
  rcases classNew_cases A { m with names := m.names.insert b [], mallocs := k } (some b) with
    ⟨⟨k', hclass⟩, hfails⟩ | ⟨c, k', hclass, hc⟩
  · have hfree := freeName_new (n := []) (k := k') hb
    exact ⟨_, _, _, by simp [pairClass, hname, hclass, hfree], .inr ⟨rfl, h.mallocs k', hfails⟩⟩
  · obtain ⟨root₁, root₂, hroot₁, hroot₂, hrep⟩ :=
      pair_represents h hw₁ hw₂ hne hlabel₁ hlabel₂ hb hc k'
    refine ⟨_, _, _, ?_, .inl ⟨rfl, hrep⟩⟩
    simp [pairClass, hname, hclass, hroot₁, hroot₂, Memory.setClass]

private theorem mergeClasses_agrees {w₁ w₂ : Word} {c₁ c₂ : Addr} (h : Represents ⟨root, m⟩ a)
    (hw₁ : w₁ ∈ a.members) (hw₂ : w₂ ∈ a.members) (hne : c₁ ≠ c₂)
    (hlabel₁ : root.label w₁ = some (some c₁)) (hlabel₂ : root.label w₂ = some (some c₂)) :
    ∃ r root' m', mergeClasses A root m c₁ c₂ = some (r, root', m') ∧
      (r = .ok true ∧ Represents ⟨root', m'⟩ (a.join w₁ w₂ hw₁ hw₂) ∨
        r = .error .enomem ∧ Represents ⟨root', m'⟩ a ∧ A.Fails) := by
  have hm := h.accounts
  have hc₁ : some c₁ ∈ root.labels := Trie.mem_labels.mpr ⟨w₁, hlabel₁⟩
  have hc₂ : some c₂ ∈ root.labels := Trie.mem_labels.mpr ⟨w₂, hlabel₂⟩
  have hread₁ := h.name w₁ c₁ hlabel₁
  have hread₂ := h.name w₂ c₂ hlabel₂
  have hjoin := NamedSequences.joinNames_getD (a.name_nonempty w₁) (a.name_nonempty w₂)
  obtain ⟨b₁, n₁, hr₁, hn₁⟩ := hm.record hc₁
  obtain ⟨b₂, n₂, hr₂, hn₂⟩ := hm.record hc₂
  have hb₁₂ : b₁ ≠ b₂ := fun heq => hne (hm.distinct c₁ c₂ _ _ hr₁ hr₂ (by rw [heq]))
  obtain rfl : n₁ = (a.name w₁).getD [] :=
    Option.some.inj ((readName_eq hr₁ rfl hn₁).symm.trans hread₁)
  obtain rfl : n₂ = (a.name w₂).getD [] :=
    Option.some.inj ((readName_eq hr₂ rfl hn₂).symm.trans hread₂)
  by_cases hsame : (a.name w₁).getD [] = (a.name w₂).getD []
  · rw [if_pos hsame] at hjoin
    rcases classNew_cases A m (some b₁) with ⟨⟨k, hclass⟩, hfails⟩ | ⟨c, k, hclass, hc⟩
    · refine ⟨_, _, _, ?_, .inr ⟨rfl, h.mallocs k, hfails⟩⟩
      simp [mergeClasses, hread₁, hread₂, hr₁, hr₂, ← hsame, hclass]
    · obtain ⟨m₂, hmerge, hnames, hfrees⟩ :=
        hm.mergeInto (b := b₁) (k := k) hne hc₁ hc₂ hc m.names
      obtain ⟨m₃, m', hfree₁, hfree₂, hm', hread, hothers⟩ := hfrees m₂ _ rfl
        (by rw [hnames]; exact hn₁) fun c' j b' h₁ h₂ hr => by
          refine ⟨?_, by rw [hnames]⟩
          rintro rfl
          exact h₁ (hm.distinct c' c₁ _ _ hr hr₁ rfl)
      refine ⟨_, _, _, ?_, .inl ⟨rfl, merge_represents h hw₁ hw₂ hlabel₁ hlabel₂ hc hm'
        (by rw [hread, hjoin]) hothers⟩⟩
      simp [mergeClasses, hread₁, hread₂, hr₁, hr₂, ← hsame, hclass, hmerge, hfree₁, hfree₂]
  · rw [if_neg hsame] at hjoin
    generalize hn : (a.name w₁).getD [] ++ (a.name w₂).getD [] = n at hjoin
    rcases newName_cases A m n with ⟨⟨k, hname⟩, hfails⟩ | ⟨b, k, hname, hb⟩
    · refine ⟨_, _, _, ?_, .inr ⟨rfl, h.mallocs k, hfails⟩⟩
      simp [mergeClasses, hread₁, hread₂, hr₁, hr₂, hsame, hn, hname]
    rcases classNew_cases A { m with names := m.names.insert b n, mallocs := k } (some b) with
      ⟨⟨k', hclass⟩, hfails⟩ | ⟨c, k', hclass, hc⟩
    · have hfree := freeName_new (n := n) (k := k') hb
      refine ⟨_, _, _, ?_, .inr ⟨rfl, h.mallocs k', hfails⟩⟩
      simp [mergeClasses, hread₁, hread₂, hr₁, hr₂, hsame, hn, hname, hclass, hfree]
    · obtain ⟨m₂, hmerge, hnames, hfrees⟩ :=
        hm.mergeInto (b := b) (k := k') hne hc₁ hc₂ hc (m.names.insert b n)
      have hmem₁ : b₁ ∈ m.names := Finmap.mem_of_lookup_eq_some hn₁
      have hmem₂ : b₂ ∈ m.names := Finmap.mem_of_lookup_eq_some hn₂
      have hlookup {b'} (h₁ : b' ≠ b₁) (h₂ : b' ≠ b₂) :
          (((m.names.insert b n).erase b₁).erase b₂).lookup b' =
            (m.names.insert b n).lookup b' := by
        rw [Finmap.lookup_erase_ne h₂, Finmap.lookup_erase_ne h₁]
      obtain ⟨m₄, m', hfree₁, hfree₂, hm', hread, hothers⟩ :=
        hfrees { m₂ with names := ((m.names.insert b n).erase b₁).erase b₂ } n rfl
          (by
            have hne₁ : b ≠ b₁ := fun heq => hb (heq ▸ hmem₁)
            have hne₂ : b ≠ b₂ := fun heq => hb (heq ▸ hmem₂)
            exact (hlookup hne₁ hne₂).trans (Finmap.lookup_insert _))
          fun c' j b' h₁ h₂ hr => by
            obtain ⟨b₃, n', hs, hn'⟩ := hm.named c' _ hr
            obtain rfl : b' = b₃ := Option.some.inj hs
            have hnew : b' ≠ b := fun heq => hb (heq ▸ Finmap.mem_of_lookup_eq_some hn')
            have hold₁ : b' ≠ b₁ := by
              rintro rfl
              exact h₁ (hm.distinct c' c₁ _ _ hr hr₁ rfl)
            have hold₂ : b' ≠ b₂ := by
              rintro rfl
              exact h₂ (hm.distinct c' c₂ _ _ hr hr₂ rfl)
            exact ⟨hnew, (hlookup hold₁ hold₂).trans (Finmap.lookup_insert_of_ne _ hnew)⟩
      have hfreeName₁ : m₂.freeName (some b₁) =
          some { m₂ with names := (m.names.insert b n).erase b₁ } := by
        have : b₁ ∈ m₂.names := hnames ▸ Finmap.mem_insert.mpr (.inr hmem₁)
        rw [Memory.freeName, if_pos this, hnames]
      have hfreeName₂ : ({ m₂ with names := (m.names.insert b n).erase b₁ } : Memory).freeName
          (some b₂) = some { m₂ with names := ((m.names.insert b n).erase b₁).erase b₂ } := by
        have : b₂ ∈ (m.names.insert b n).erase b₁ :=
          Finmap.mem_erase.mpr ⟨hb₁₂.symm, Finmap.mem_insert.mpr (.inr hmem₂)⟩
        simp [Memory.freeName, this]
      refine ⟨_, _, _, ?_, .inl ⟨rfl, merge_represents h hw₁ hw₂ hlabel₁ hlabel₂ hc hm'
        (by rw [hread, hjoin]) hothers⟩⟩
      simp [mergeClasses, hread₁, hread₂, hr₁, hr₂, hsame, hn, hname, hclass, hmerge, hfreeName₁,
        hfreeName₂, hfree₁, hfree₂]

theorem equiv_step_trivial {w₁ w₂ : Word} {str₁ str₂ : CString} (h : Represents ⟨root, m⟩ a)
    (hword₁ : word? str₁ = some w₁) (hword₂ : word? str₂ = some w₂)
    (htrivial : w₁ = w₂ ∨ root.label w₁ = none ∨ root.label w₂ = none) :
    step A ⟨root, m⟩ (.equiv str₁ str₂) = (⟨root, m⟩, .code (.ok false)) := by
  have hfind₁ := seqWalk_find h.root_isSome w₁
  have hfind₂ := seqWalk_find h.root_isSome w₂
  rcases word_cases str₁ with ⟨hword, -⟩ | ⟨w, -, hword, hbad₁, hstr₁⟩
  · simp [hword] at hword₁
  obtain rfl := Option.some.inj (hword.symm.trans hword₁)
  rcases word_cases str₂ with ⟨hword', -⟩ | ⟨w', -, hword', hbad₂, hstr₂⟩
  · simp [hword'] at hword₂
  obtain rfl := Option.some.inj (hword'.symm.trans hword₂)
  by_cases hw : w = w'
  · subst hw
    generalize w.map Digit.char = s₁ at hstr₁ hstr₂
    subst hstr₁ hstr₂
    simp [step, answerCode, seqEquiv, hbad₁, h.root_ne_none]
  · have hnone := htrivial.resolve_left hw
    generalize w.map Digit.char = s₁ at hstr₁ hfind₁
    generalize w'.map Digit.char = s₂ at hstr₂ hfind₂
    subst hstr₁ hstr₂
    rcases hnone with hnone | hnone
    · simp only [hnone, Option.isSome_none, Bool.false_eq_true, if_false] at hfind₁
      simp [step, answerCode, seqEquiv, hbad₁, hbad₂, h.root_ne_none, hfind₁]
    · simp only [hnone, Option.isSome_none, Bool.false_eq_true, if_false] at hfind₂
      simp [step, answerCode, seqEquiv, hbad₁, hbad₂, h.root_ne_none, hfind₂]

private theorem equiv_agrees (h : Represents s a) (w₁ w₂ : CString) :
    Agrees A s a (.equiv w₁ w₂) := by
  obtain ⟨root, m⟩ := s
  rcases word_cases w₁ with ⟨hword₁, hbad₁⟩ | ⟨v₁, hv₁, hword₁, -⟩
  · refine .inl ?_
    simp [step, answerCode, specStep, seqEquiv, hword₁, hbad₁, h]
  rcases word_cases w₂ with ⟨hword₂, hbad₂⟩ | ⟨v₂, hv₂, hword₂, -⟩
  · refine .inl ?_
    simp [step, answerCode, specStep, seqEquiv, hword₁, hword₂, hbad₂, h]
  have hmem₁ := h.mem_iff hv₁
  have hmem₂ := h.mem_iff hv₂
  by_cases htrivial : v₁ = v₂ ∨ root.label v₁ = none ∨ root.label v₂ = none
  · refine .inl ?_
    rw [equiv_step_trivial h hword₁ hword₂ htrivial]
    have hnot : ¬ (v₁ ∈ a.members ∧ v₂ ∈ a.members ∧ ¬ a.same v₁ v₂) := by
      rw [hmem₁, hmem₂]
      rintro ⟨hsome₁, hsome₂, hsame⟩
      rcases htrivial with rfl | hnone | hnone
      · exact hsame (a.same.refl v₁)
      · simp [hnone] at hsome₁
      · simp [hnone] at hsome₂
    simp only [specStep, hword₁, hword₂, dif_neg hnot]
    exact ⟨trivial, h⟩
  · simp only [not_or] at htrivial
    obtain ⟨hne, hnone₁, hnone₂⟩ := htrivial
    obtain ⟨a₁, hlabel₁⟩ := Option.ne_none_iff_exists'.mp hnone₁
    obtain ⟨a₂, hlabel₂⟩ := Option.ne_none_iff_exists'.mp hnone₂
    have hin₁ : v₁ ∈ a.members := hmem₁.mpr (by simp [hlabel₁])
    have hin₂ : v₂ ∈ a.members := hmem₂.mpr (by simp [hlabel₂])
    rw [Agrees, equiv_step h hword₁ hword₂ hne hlabel₁ hlabel₂]
    have hspec (hsame : ¬ a.same v₁ v₂) : specStep a (.equiv w₁ w₂) =
        (a.join v₁ v₂ hin₁ hin₂, .code (.ok true)) := by
      simp only [specStep, hword₁, hword₂, dif_pos (And.intro hin₁ (And.intro hin₂ hsame))]
    have hagrees {x : Option (Except Errno Bool × Seq × Memory)} (hsame : ¬ a.same v₁ v₂)
        (hx : ∃ r root' m', x = some (r, root', m') ∧
          (r = .ok true ∧ Represents ⟨root', m'⟩ (a.join v₁ v₂ hin₁ hin₂) ∨
            r = .error .enomem ∧ Represents ⟨root', m'⟩ a ∧ A.Fails)) :
        (answerCode ⟨root, m⟩ x).2 = (specStep a (.equiv w₁ w₂)).2 ∧
            Represents (answerCode ⟨root, m⟩ x).1 (specStep a (.equiv w₁ w₂)).1 ∨
          (answerCode ⟨root, m⟩ x).2 = .code (.error .enomem) ∧
            Represents (answerCode ⟨root, m⟩ x).1 a ∧ A.Fails := by
      obtain ⟨r, root', m', rfl, ⟨rfl, hrep⟩ | ⟨rfl, hrep, hfails⟩⟩ := hx
      · exact .inl (by rw [hspec hsame]; exact ⟨rfl, hrep⟩)
      · exact .inr ⟨rfl, hrep, hfails⟩
    cases a₁ with
    | none =>
        have hsame : ¬ a.same v₁ v₂ := fun hsame =>
          hne ((h.same_of_none hlabel₁).mp (a.same.symm hsame)).symm
        cases a₂ with
        | none => exact hagrees hsame (pairClass_agrees h hin₁ hin₂ (Ne.symm hne) hlabel₁ hlabel₂)
        | some c =>
            obtain ⟨root', r, hroot', hr, hrep, -⟩ :=
              retain_represents h hin₁ hin₂ hlabel₁ hlabel₂
            exact hagrees hsame ⟨_, _, _, by simp [joinNodes, shareClass, hroot', hr],
              .inl ⟨rfl, hrep⟩⟩
    | some c₁ =>
        cases a₂ with
        | none =>
            have hsame : ¬ a.same v₁ v₂ := fun hsame => hne ((h.same_of_none hlabel₂).mp hsame)
            obtain ⟨root', r, hroot', hr, -, hrep⟩ :=
              retain_represents h hin₂ hin₁ hlabel₂ hlabel₁
            exact hagrees hsame ⟨_, _, _, by simp [joinNodes, shareClass, hroot', hr],
              .inl ⟨rfl, hrep⟩⟩
        | some c₂ =>
            have hclass := h.same_of_label (v := v₁) hlabel₂
            rw [hlabel₁, Option.some.injEq, Option.some.injEq] at hclass
            by_cases hc : c₁ = c₂
            · refine .inl ?_
              have hnot : ¬ (v₁ ∈ a.members ∧ v₂ ∈ a.members ∧ ¬ a.same v₁ v₂) := by
                simp [hclass.mpr hc]
              rw [joinNodes, if_pos hc]
              simp only [specStep, hword₁, hword₂, dif_neg hnot]
              exact ⟨rfl, h⟩
            · rw [joinNodes, if_neg hc]
              exact hagrees (mt hclass.mp hc) (mergeClasses_agrees h hin₁ hin₂ hc hlabel₁ hlabel₂)

/-! ## Every history -/

theorem step_agrees (h : Represents s a) (call : Call) : Agrees A s a call := by
  cases call with
  | add w => exact add_agrees h w
  | remove w => exact remove_agrees h w
  | valid w => exact valid_agrees h w
  | setName w n => exact setName_agrees h w n
  | getName w => exact getName_agrees h w
  | equiv w₁ w₂ => exact equiv_agrees h w₁ w₂

theorem accounts_empty (k : Nat) : Accounts { Memory.empty with mallocs := k } 0 := by
  refine ⟨fun c hc => ?_, fun c r hr => ?_, fun c r hr => ?_, fun c c' r r' hr => ?_⟩
  all_goals simp [Memory.empty] at *

theorem new_represents (k : Nat) :
    Represents ⟨.node none fun _ => .null, { Memory.empty with mallocs := k }⟩ .empty := by
  refine ⟨accounts_cons_none.mpr (accounts_empty k), rfl, fun w => ?_, fun u v => ?_,
    fun w c hw => ?_, fun _ _ => rfl⟩
  · cases w <;> simp [NamedSequences.empty]
  · have hnone (w : Word) (c : Addr) :
        ((.node none fun _ => .null : Seq)).label w ≠ some (some c) := by
      cases w <;> simp
    simp only [hnone, false_and, exists_false, or_false]
    exact Iff.rfl
  · cases w <;> simp at hw

theorem initial_represents (hA : ¬ A.Fails) : Represents (.initial A) .empty := by
  rcases newNode_cases A .empty with ⟨-, hfails⟩ | ⟨k, hnew⟩
  · exact absurd hfails hA
  rw [State.initial, seqNew, hnew]
  exact new_represents k

/-- As long as memory lasts the answers are those of the named sequences. -/
theorem sequences_refine (A : Allocator) (hA : ∀ n used, (A.malloc n used).isSome)
    (history : List Call) :
    (calls (step A) (.initial A) history).2 = (calls specStep .empty history).2 := by
  have hfails : ¬ A.Fails := by
    rintro ⟨n, used, hnone⟩
    simpa [hnone] using hA n used
  refine (calls_simulation (R := Represents) (G := fun _ _ => True) (fun s a call h _ => ?_)
    (initial_represents hfails) (callsMeet_of_forall (fun _ _ => trivial) _ history)).2
  rcases step_agrees h call with ⟨hanswer, hrep⟩ | ⟨-, -, hfail⟩
  · exact ⟨hrep, hanswer⟩
  · exact absurd hfail hfails

def bumpAllocator : Allocator where
  malloc _ used := some (used.sup id + 1)
  fresh h hmem := by
    obtain rfl := Option.some.inj h
    exact absurd (Finset.le_sup (f := id) hmem) (Nat.not_succ_le_self _)

theorem sequences_refine_bump :
    (calls (step bumpAllocator) (.initial bumpAllocator)
        [.add (some ['0', '1']), .setName (some ['0']) (some ['a']), .remove (some ['0', '1']),
          .getName (some ['0'])]).2 =
      (calls specStep .empty
        [.add (some ['0', '1']), .setName (some ['0']) (some ['a']), .remove (some ['0', '1']),
          .getName (some ['0'])]).2 :=
  sequences_refine bumpAllocator (fun _ _ => rfl) _

end Mimuw.Sequences
