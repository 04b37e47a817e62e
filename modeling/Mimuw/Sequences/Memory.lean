import Mimuw.Sequences.Walk

/-!
# Class records and names

The records agree with the nodes: each counts the nodes that point to it, and
has a name of its own.
-/

namespace Mimuw.Sequences

open Mimuw.Lib

/-- The labels of all nodes account for the class records, and the records for
the names. -/
structure Accounts (m : Memory) (M : Multiset (Option Addr)) : Prop where
  live : ∀ c, some c ∈ M → c ∈ m.classes
  counted : ∀ c r, m.classes.lookup c = some r → some c ∈ M ∧ r.counter = M.count (some c)
  named : ∀ c r, m.classes.lookup c = some r → ∃ b n, r.s = some b ∧ m.names.lookup b = some n
  distinct : ∀ c c' r r', m.classes.lookup c = some r → m.classes.lookup c' = some r' →
    r.s = r'.s → c = c'

variable {m m' : Memory} {M : Multiset (Option Addr)} {c : Addr}

theorem Accounts.record (h : Accounts m M) (hc : some c ∈ M) :
    ∃ b n, m.classes.lookup c = some ⟨M.count (some c), some b⟩ ∧
      m.names.lookup b = some n := by
  obtain ⟨r, hr⟩ := Finmap.mem_iff.mp (h.live c hc)
  obtain ⟨b, n, hs, hn⟩ := h.named c r hr
  refine ⟨b, n, ?_, hn⟩
  rw [hr, ← (h.counted c r hr).2, ← hs]

theorem readName_eq {r : AClass} {b : Addr} {n : List Char}
    (hr : m.classes.lookup c = some r) (hs : r.s = some b) (hn : m.names.lookup b = some n) :
    m.readName c = some n := by
  simp [Memory.readName, hr, hs, hn]

private theorem readName_congr (hclass : m'.classes.lookup c = m.classes.lookup c)
    (hname : ∀ r b, m.classes.lookup c = some r → r.s = some b →
      m'.names.lookup b = m.names.lookup b) :
    m'.readName c = m.readName c := by
  rw [Memory.readName, Memory.readName, hclass]
  cases hr : m.classes.lookup c with
  | none => rfl
  | some r =>
      cases hs : r.s with
      | none => simp [hs]
      | some b => simp [hs, hname r b hr hs]

theorem accounts_cons_none : Accounts m (none ::ₘ M) ↔ Accounts m M := by
  constructor
  · intro h
    refine ⟨fun c hc => h.live c (Multiset.mem_cons_of_mem hc), fun c r hr => ?_, h.named,
      h.distinct⟩
    simpa using h.counted c r hr
  · intro h
    refine ⟨fun c hc => h.live c (by simpa using hc), fun c r hr => ?_, h.named, h.distinct⟩
    simpa using h.counted c r hr

/-- A change that touches one class at most: what the others need. -/
theorem Accounts.change (h : Accounts m M) (m' : Memory)
    (M' : Multiset (Option Addr)) (c₀ b₀ : Addr)
    (htouched : some c₀ ∈ M' → m'.classes.lookup c₀ = some ⟨M'.count (some c₀), some b₀⟩ ∧
      b₀ ∈ m'.names)
    (hlive : ∀ c, some c ∉ M' → c ∉ m'.classes)
    (hcount : ∀ c, c ≠ c₀ → some c ∈ M' → M'.count (some c) = M.count (some c))
    (hrest : ∀ c k b, c ≠ c₀ → some c ∈ M' → m.classes.lookup c = some ⟨k, some b⟩ →
      b ≠ b₀ ∧ m'.classes.lookup c = m.classes.lookup c ∧ m'.names.lookup b = m.names.lookup b) :
    Accounts m' M' ∧ ∀ c, c ≠ c₀ → some c ∈ M' → m'.readName c = m.readName c := by
  have hold {c : Addr} (hc : c ≠ c₀) (hM' : some c ∈ M') : ∃ b n,
      m.classes.lookup c = some ⟨M'.count (some c), some b⟩ ∧ m.names.lookup b = some n ∧
        b ≠ b₀ ∧ m'.classes.lookup c = some ⟨M'.count (some c), some b⟩ ∧
          m'.names.lookup b = some n := by
    have hM : some c ∈ M := by
      rw [← Multiset.count_pos, ← hcount c hc hM', Multiset.count_pos]
      exact hM'
    obtain ⟨b, n, hr, hn⟩ := h.record hM
    rw [← hcount c hc hM'] at hr
    obtain ⟨hb, hr', hn'⟩ := hrest c _ b hc hM' hr
    exact ⟨b, n, hr, hn, hb, hr'.trans hr, hn'.trans hn⟩
  have hrecord {c : Addr} {r : AClass} (hr : m'.classes.lookup c = some r) : some c ∈ M' ∧
      r.counter = M'.count (some c) ∧ ∃ b, r.s = some b ∧ b ∈ m'.names ∧
        (c = c₀ ∧ b = b₀ ∨ c ≠ c₀ ∧ b ≠ b₀ ∧ m.classes.lookup c = some r) := by
    have hM' : some c ∈ M' := by
      by_contra hM'
      exact hlive c hM' (Finmap.mem_of_lookup_eq_some hr)
    by_cases hc : c = c₀
    · subst hc
      obtain ⟨htouched, hb₀⟩ := htouched hM'
      obtain rfl := Option.some.inj (hr.symm.trans htouched)
      exact ⟨hM', rfl, b₀, rfl, hb₀, .inl ⟨rfl, rfl⟩⟩
    · obtain ⟨b, n, hr₀, hn, hb, hr', hn'⟩ := hold hc hM'
      obtain rfl := Option.some.inj (hr.symm.trans hr')
      exact ⟨hM', rfl, b, rfl, Finmap.mem_of_lookup_eq_some hn', .inr ⟨hc, hb, hr₀⟩⟩
  refine ⟨⟨fun c hM' => ?_, fun c r hr => ?_, fun c r hr => ?_, fun c c' r r' hr hr' hs => ?_⟩,
    fun c hc hM' => ?_⟩
  · by_cases hc : c = c₀
    · subst hc
      exact Finmap.mem_of_lookup_eq_some (htouched hM').1
    · obtain ⟨b, n, -, -, -, hr', -⟩ := hold hc hM'
      exact Finmap.mem_of_lookup_eq_some hr'
  · obtain ⟨hM', hcounter, -⟩ := hrecord hr
    exact ⟨hM', hcounter⟩
  · obtain ⟨-, -, b, hs, hb, -⟩ := hrecord hr
    obtain ⟨n, hn⟩ := Finmap.mem_iff.mp hb
    exact ⟨b, n, hs, hn⟩
  · obtain ⟨-, -, b, hb, -, hcase⟩ := hrecord hr
    obtain ⟨-, -, b', hb', -, hcase'⟩ := hrecord hr'
    obtain rfl : b = b' := Option.some.inj (hb.symm.trans (hs.trans hb'))
    rcases hcase with ⟨rfl, rfl⟩ | ⟨-, hne, hold₁⟩
    · rcases hcase' with ⟨rfl, -⟩ | ⟨-, hne, -⟩
      · rfl
      · exact absurd rfl hne
    · rcases hcase' with ⟨-, rfl⟩ | ⟨-, -, hold₂⟩
      · exact absurd rfl hne
      · exact h.distinct c c' r r' hold₁ hold₂ hs
  · obtain ⟨b, n, hr, hn, -, hr', hn'⟩ := hold hc hM'
    rw [readName_eq hr rfl hn, readName_eq hr' rfl hn']

/-! ## Names and records in balance -/

private theorem keys_insert {β : Type} (f : Finmap fun _ : Addr => β) (c : Addr) (x : β) :
    (f.insert c x).keys = insert c f.keys := by
  ext c'
  rw [Finmap.mem_keys, Finmap.mem_insert, Finset.mem_insert, Finmap.mem_keys]

/-- How many more names there are than records. -/
def excess (m : Memory) : Int := m.names.keys.card - m.classes.keys.card

@[simp] theorem excess_mallocs (m : Memory) (k : Nat) :
    excess { m with mallocs := k } = excess m := rfl

theorem excess_newName {b : Addr} (hb : b ∉ m.names) (n : List Char) (k : Nat) :
    excess { m with names := m.names.insert b n, mallocs := k } = excess m + 1 := by
  have hcard := Finset.card_insert_of_notMem (mt Finmap.mem_keys.mp hb)
  simp only [excess, keys_insert, hcard]
  omega

theorem excess_classNew (hc : c ∉ m.classes) (r : AClass) (k : Nat) :
    excess { m with classes := m.classes.insert c r, mallocs := k } = excess m - 1 := by
  have hcard := Finset.card_insert_of_notMem (mt Finmap.mem_keys.mp hc)
  simp only [excess, keys_insert, hcard]
  omega

theorem excess_setClass (hc : c ∈ m.classes) (r : AClass) :
    excess (m.setClass c r) = excess m := by
  simp only [excess, Memory.setClass, keys_insert,
    Finset.insert_eq_of_mem (Finmap.mem_keys.mpr hc)]

theorem excess_freeName {b : Addr} (h : m.freeName (some b) = some m') :
    excess m' = excess m - 1 := by
  rw [Memory.freeName] at h
  split_ifs at h with hb
  obtain rfl := Option.some.inj h
  have hcard := Finset.card_erase_add_one (Finmap.mem_keys.mpr hb)
  simp only [excess, Finmap.keys_erase]
  omega

theorem excess_freeClass (h : m.freeClass c = some m') : excess m' = excess m + 1 := by
  rw [Memory.freeClass] at h
  split_ifs at h with hc
  obtain rfl := Option.some.inj h
  have hcard := Finset.card_erase_add_one (Finmap.mem_keys.mpr hc)
  simp only [excess, Finmap.keys_erase]
  omega

/-! ## Nodes that go -/

theorem sum_digits (f : Digit → Multiset (Option Addr)) :
    ∑ d, f d = f .zero + f .one + f .two := by
  change f .zero + (f .one + (f .two + 0)) = _
  rw [add_zero, add_assoc]

theorem Accounts.not_live (h : Accounts m M) (hc : some c ∉ M) : c ∉ m.classes := by
  intro hmem
  obtain ⟨r, hr⟩ := Finmap.mem_iff.mp hmem
  exact hc (h.counted c r hr).1

theorem Accounts.release (h : Accounts m (some c ::ₘ M)) :
    ∃ m', release m (some c) = some m' ∧ Accounts m' M ∧ excess m' = excess m ∧
      ∀ c', some c' ∈ M → m'.readName c' = m.readName c' := by
  obtain ⟨b, n, hr, hn⟩ := h.record (Multiset.mem_cons_self _ _)
  have hb : b ∈ m.names := Finmap.mem_of_lookup_eq_some hn
  have hc : c ∈ m.classes := Finmap.mem_of_lookup_eq_some hr
  rw [Multiset.count_cons_self] at hr
  have hother {c' k b'} (hc' : c' ≠ c) (hr' : m.classes.lookup c' = some ⟨k, some b'⟩) :
      b' ≠ b := by
    rintro rfl
    exact hc' (h.distinct c' c _ _ hr' hr rfl)
  have hcount (c') (hc' : c' ≠ c) (_ : some c' ∈ M) :
    M.count (some c') = (some c ::ₘ M).count (some c') := by
    rw [Multiset.count_cons_of_ne (by simpa using hc')]
  by_cases hlast : M.count (some c) = 0
  · -- The last node of the class takes the record and its name along.
    have hgone : some c ∉ M := Multiset.count_eq_zero.mp hlast
    obtain ⟨haccounts, hread⟩ := h.change
      { m with names := m.names.erase b, classes := m.classes.erase c } M c b
      (fun hM => absurd hM hgone)
      (fun c' hM hc' => by
        obtain ⟨hne, hc'⟩ := Finmap.mem_erase.mp hc'
        exact h.not_live (by simpa [hne] using hM) hc')
      hcount
      (fun c' k b' hc' _ hr' =>
        ⟨hother hc' hr', Finmap.lookup_erase_ne hc', Finmap.lookup_erase_ne (hother hc' hr')⟩)
    refine ⟨_, ?_, haccounts, ?_, fun c' hc' => hread c' ?_ hc'⟩
    · simp [Sequences.release, hr, hlast, Memory.freeName, Memory.freeClass, hb, hc]
    · have hname : m.freeName (some b) = some { m with names := m.names.erase b } := if_pos hb
      have hclass : ({ m with names := m.names.erase b } : Memory).freeClass c =
          some { m with names := m.names.erase b, classes := m.classes.erase c } := if_pos hc
      rw [excess_freeClass hclass, excess_freeName hname]
      omega
    · rintro rfl
      exact hgone hc'
  · have hmem : some c ∈ M := Multiset.count_ne_zero.mp hlast
    obtain ⟨haccounts, hread⟩ := h.change (m.setClass c ⟨M.count (some c), some b⟩) M c b
      (fun _ => ⟨Finmap.lookup_insert _, hb⟩)
      (fun c' hM hc' => by
        rcases Finmap.mem_insert.mp hc' with rfl | hc'
        · exact hM hmem
        · have hcons : some c' ∉ some c ::ₘ M := by
            rw [Multiset.mem_cons]
            rintro (heq | hcons)
            · exact hM (heq ▸ hmem)
            · exact hM hcons
          exact h.not_live hcons hc')
      hcount
      (fun c' k b' hc' _ hr' => ⟨hother hc' hr', Finmap.lookup_insert_of_ne _ hc', rfl⟩)
    refine ⟨_, ?_, haccounts, excess_setClass hc _, fun c' hc' => ?_⟩
    · simp [Sequences.release, hr, hlast, Nat.pos_of_ne_zero hlast]
    · by_cases hc' : c' = c
      · subst hc'
        rw [readName_eq hr rfl hn]
        exact readName_eq (Finmap.lookup_insert _) rfl hn
      · exact hread c' hc' ‹_›

theorem Accounts.classRemove {t : Seq} (h : Accounts m (t.labels + M)) :
    ∃ m', seqClassRemove t m = some m' ∧ Accounts m' M ∧ excess m' = excess m ∧
      ∀ c, some c ∈ M → m'.readName c = m.readName c := by
  induction t generalizing m M with
  | null => exact ⟨m, rfl, by simpa using h, rfl, fun _ _ => rfl⟩
  | node a children ih =>
      have hlabels : (Trie.node a children).labels + M = a ::ₘ ((children .zero).labels +
          ((children .one).labels + ((children .two).labels + M))) := by
        rw [Trie.labels_node, Multiset.cons_add]
        congr 1
        rw [sum_digits, add_assoc, add_assoc]
      rw [hlabels] at h
      have hnode : ∃ m₀, Sequences.release m a = some m₀ ∧
          Accounts m₀ ((children .zero).labels +
            ((children .one).labels + ((children .two).labels + M))) ∧ excess m₀ = excess m ∧
          ∀ c, some c ∈ M → m₀.readName c = m.readName c := by
        cases a with
        | none => exact ⟨m, rfl, accounts_cons_none.mp h, rfl, fun _ _ => rfl⟩
        | some c =>
            obtain ⟨m₀, hm₀, h₀, hexcess, hread⟩ := h.release
            exact ⟨m₀, hm₀, h₀, hexcess, fun c' hc' => hread c' (by simp [hc'])⟩
      obtain ⟨m₀, hm₀, h₀, hexcess₀, hread₀⟩ := hnode
      obtain ⟨m₁, hm₁, h₁, hexcess₁, hread₁⟩ := ih .zero h₀
      obtain ⟨m₂, hm₂, h₂, hexcess₂, hread₂⟩ := ih .one h₁
      obtain ⟨m₃, hm₃, h₃, hexcess₃, hread₃⟩ := ih .two h₂
      refine ⟨m₃, ?_, h₃, ?_, fun c hc => ?_⟩
      · simp [seqClassRemove, hm₀, hm₁, hm₂, hm₃]
      · rw [hexcess₃, hexcess₂, hexcess₁, hexcess₀]
      · rw [hread₃ c hc, hread₂ c (by simp [hc]), hread₁ c (by simp [hc]), hread₀ c hc]

/-! ## Blocks that come -/

section Allocation

variable {A : Allocator} {n : List Char} {b : Addr}

/-- Some call of `malloc` fails. -/
def Allocator.Fails (A : Allocator) : Prop := ∃ n used, A.malloc n used = none

theorem newName_cases (A : Allocator) (m : Memory) (n : List Char) :
    (∃ k, newName A m n = (none, { m with mallocs := k })) ∧ A.Fails ∨
      ∃ b k, newName A m n = (some b, { m with names := m.names.insert b n, mallocs := k }) ∧
        b ∉ m.names := by
  rw [newName]
  cases hb : A.malloc m.mallocs m.used with
  | none => exact .inl ⟨⟨_, rfl⟩, _, _, hb⟩
  | some b =>
      refine .inr ⟨b, _, rfl, fun hmem => A.fresh hb ?_⟩
      exact Finset.mem_union_right _ (Finmap.mem_keys.mpr hmem)

theorem classNew_cases (A : Allocator) (m : Memory) (s : Option Addr) :
    (∃ k, classNew A m s = (none, { m with mallocs := k })) ∧ A.Fails ∨
      ∃ c k, classNew A m s =
          (some c, { m with classes := m.classes.insert c ⟨1, s⟩, mallocs := k }) ∧
        c ∉ m.classes := by
  rw [classNew]
  cases hc : A.malloc m.mallocs m.used with
  | none => exact .inl ⟨⟨_, rfl⟩, _, _, hc⟩
  | some c =>
      refine .inr ⟨c, _, rfl, fun hmem => A.fresh hc ?_⟩
      exact Finset.mem_union_left _ (Finmap.mem_keys.mpr hmem)

theorem newNode_cases (A : Allocator) (m : Memory) :
    (∃ k, newNode A m = (.null, { m with mallocs := k })) ∧ A.Fails ∨
      ∃ k, newNode A m = (.node none fun _ => .null, { m with mallocs := k }) := by
  rw [newNode]
  cases hp : A.malloc m.mallocs m.used with
  | none => exact .inl ⟨⟨_, rfl⟩, _, _, hp⟩
  | some p => exact .inr ⟨_, rfl⟩

theorem Accounts.mallocs (h : Accounts m M) (k : Nat) : Accounts { m with mallocs := k } M :=
  ⟨h.live, h.counted, h.named, h.distinct⟩

theorem freeName_new {k : Nat} (hb : b ∉ m.names) :
    ({ m with names := m.names.insert b n, mallocs := k } : Memory).freeName (some b) =
      some { m with mallocs := k } := by
  have herase : (m.names.insert b n).erase b = m.names := by
    refine Finmap.ext_lookup fun x => ?_
    by_cases hx : x = b
    · subst hx
      rw [Finmap.lookup_erase, Finmap.lookup_eq_none.mpr hb]
    · rw [Finmap.lookup_erase_ne hx, Finmap.lookup_insert_of_ne _ hx]
  have hmem : b ∈ m.names.insert b n := Finmap.mem_insert.mpr (.inl rfl)
  rw [Memory.freeName, if_pos hmem, herase]

theorem Accounts.newName (h : Accounts m M) (hb : b ∉ m.names) (n : List Char) (k : Nat) :
    Accounts { m with names := m.names.insert b n, mallocs := k } M ∧
      ∀ c, some c ∈ M →
        ({ m with names := m.names.insert b n, mallocs := k } : Memory).readName c =
          m.readName c := by
  have hlookup {b' n'} (hn' : m.names.lookup b' = some n') :
      (m.names.insert b n).lookup b' = m.names.lookup b' := by
    refine Finmap.lookup_insert_of_ne _ ?_
    rintro rfl
    exact hb (Finmap.mem_of_lookup_eq_some hn')
  refine ⟨⟨h.live, h.counted, fun c r hr => ?_, h.distinct⟩, fun c hc => ?_⟩
  · obtain ⟨b', n', hs, hn'⟩ := h.named c r hr
    exact ⟨b', n', hs, (hlookup hn').trans hn'⟩
  · refine readName_congr rfl fun r b' hr hs => ?_
    obtain ⟨b'', n', hs', hn'⟩ := h.named c r hr
    obtain rfl : b' = b'' := Option.some.inj (hs.symm.trans hs')
    exact hlookup hn'

theorem Accounts.newClass (h : Accounts m M) (M' : Multiset (Option Addr)) (hb : b ∉ m.names)
    (hc : c ∉ m.classes) (n : List Char) (k : Nat) (hpos : M'.count (some c) ≠ 0)
    (hcount : ∀ c', c' ≠ c → M'.count (some c') = M.count (some c')) :
    let m' : Memory :=
      ⟨m.classes.insert c ⟨M'.count (some c), some b⟩, m.names.insert b n, k⟩
    Accounts m' M' ∧ m'.readName c = some n ∧
      ∀ c', some c' ∈ M → m'.readName c' = m.readName c' := by
  intro m'
  obtain ⟨haccounts, hread⟩ := h.change m' M' c b
    (fun _ => ⟨Finmap.lookup_insert _, Finmap.mem_insert.mpr (.inl rfl)⟩)
    (fun c' hc' hmem => by
      rcases Finmap.mem_insert.mp hmem with rfl | hmem
      · exact hc' (Multiset.count_ne_zero.mp hpos)
      · have hne : c' ≠ c := fun heq => hc (heq ▸ hmem)
        rw [← Multiset.count_eq_zero, hcount c' hne, Multiset.count_eq_zero] at hc'
        exact h.not_live hc' hmem)
    (fun c' hc' _ => hcount c' hc')
    (fun c' j b' hc' _ hr => by
      obtain ⟨b'', n', hs, hn'⟩ := h.named c' _ hr
      obtain rfl : b' = b'' := Option.some.inj hs
      have hne : b' ≠ b := fun heq => hb (heq ▸ Finmap.mem_of_lookup_eq_some hn')
      exact ⟨hne, Finmap.lookup_insert_of_ne _ hc', Finmap.lookup_insert_of_ne _ hne⟩)
  refine ⟨haccounts, readName_eq (Finmap.lookup_insert _) rfl (Finmap.lookup_insert _),
    fun c' hc' => ?_⟩
  have hne : c' ≠ c := fun heq => hc (heq ▸ h.live c' hc')
  refine hread c' hne ?_
  rw [← Multiset.count_pos, hcount c' hne, Multiset.count_pos]
  exact hc'

theorem Accounts.rename (h : Accounts m M) (hc : some c ∈ M) (hb : b ∉ m.names) (n : List Char)
    (k : Nat) {r : AClass} (hr : m.classes.lookup c = some r) :
    ∃ m', (({ m with names := m.names.insert b n, mallocs := k } : Memory).setClass c
        { r with s := some b }).freeName r.s = some m' ∧
      Accounts m' M ∧ m'.readName c = some n ∧
      ∀ c', c' ≠ c → some c' ∈ M → m'.readName c' = m.readName c' := by
  obtain ⟨b', n', hr', hn'⟩ := h.record hc
  obtain rfl := Option.some.inj (hr.symm.trans hr')
  have hb' : b' ∈ m.names := Finmap.mem_of_lookup_eq_some hn'
  have hne : b ≠ b' := fun heq => hb (heq ▸ hb')
  have hn : ((m.names.insert b n).erase b').lookup b = some n := by
    rw [Finmap.lookup_erase_ne hne, Finmap.lookup_insert]
  obtain ⟨haccounts, hread⟩ := h.change
    ⟨m.classes.insert c ⟨M.count (some c), some b⟩, (m.names.insert b n).erase b', k⟩ M c b
    (fun _ => ⟨Finmap.lookup_insert _, Finmap.mem_of_lookup_eq_some hn⟩)
    (fun c' hc' hmem => by
      rcases Finmap.mem_insert.mp hmem with rfl | hmem
      · exact hc' hc
      · exact h.not_live hc' hmem)
    (fun _ _ _ => rfl)
    (fun c' j b'' hc' _ hr'' => by
      obtain ⟨b₂, n'', hs, hn''⟩ := h.named c' _ hr''
      obtain rfl : b'' = b₂ := Option.some.inj hs
      have hnew : b'' ≠ b := fun heq => hb (heq ▸ Finmap.mem_of_lookup_eq_some hn'')
      have hold : b'' ≠ b' := by
        rintro rfl
        exact hc' (h.distinct c' c _ _ hr'' hr rfl)
      exact ⟨hnew, Finmap.lookup_insert_of_ne _ hc', by
        rw [Finmap.lookup_erase_ne hold, Finmap.lookup_insert_of_ne _ hnew]⟩)
  refine ⟨_, ?_, haccounts, readName_eq (Finmap.lookup_insert _) rfl hn, hread⟩
  have hmem : b' ∈ m.names.insert b n := Finmap.mem_insert.mpr (.inr hb')
  simp [Memory.freeName, Memory.setClass, hmem]

end Allocation

/-! ## Classes that are joined -/

theorem Accounts.retain (h : Accounts m M) {r : AClass} (hr : m.classes.lookup c = some r) :
    Accounts (m.setClass c { r with counter := r.counter + 1 }) (some c ::ₘ M) ∧
      ∀ c', some c' ∈ M →
        (m.setClass c { r with counter := r.counter + 1 }).readName c' = m.readName c' := by
  obtain ⟨hmem, hcounter⟩ := h.counted c r hr
  obtain ⟨b, n, hs, hn⟩ := h.named c r hr
  obtain ⟨haccounts, hread⟩ := h.change
    (m.setClass c { r with counter := r.counter + 1 }) (some c ::ₘ M) c b
    (fun _ => by
      refine ⟨?_, Finmap.mem_of_lookup_eq_some hn⟩
      rw [Multiset.count_cons_self, ← hcounter, ← hs]
      exact Finmap.lookup_insert _)
    (fun c' hM hc' => by
      rcases Finmap.mem_insert.mp hc' with rfl | hc'
      · exact hM (Multiset.mem_cons_self _ _)
      · exact h.not_live (fun hc => hM (Multiset.mem_cons_of_mem hc)) hc')
    (fun c' hc' _ => Multiset.count_cons_of_ne (by simpa using hc') _)
    (fun c' k b' hc' _ hr' => by
      refine ⟨?_, Finmap.lookup_insert_of_ne _ hc', rfl⟩
      rintro rfl
      exact hc' (h.distinct c' c _ _ hr' hr hs.symm))
  refine ⟨haccounts, fun c' hc' => ?_⟩
  by_cases heq : c' = c
  · subst heq
    rw [readName_eq hr hs hn]
    exact readName_eq (Finmap.lookup_insert _) hs hn
  · exact hread c' heq (Multiset.mem_cons_of_mem hc')

/-- What `class_change` makes of a pointer. -/
def relabel (old new : Addr) (c : Option Addr) : Option Addr :=
  if c = some old then some new else c

private theorem count_relabel {old new : Addr} (hne : old ≠ new) (M : Multiset (Option Addr))
    (c : Addr) : (M.map (relabel old new)).count (some c) =
      if c = new then M.count (some new) + M.count (some old)
      else if c = old then 0
      else M.count (some c) := by
  induction M using Multiset.induction_on with
  | empty => simp
  | cons a M ih =>
      rw [Multiset.map_cons, Multiset.count_cons, ih, Multiset.count_cons, Multiset.count_cons,
        Multiset.count_cons]
      simp only [relabel]
      by_cases ha : a = some old
      · subst ha
        by_cases hc : c = new
        · simp only [hc, if_true, Option.some.injEq, Ne.symm hne, if_false]
          omega
        · by_cases hold : c = old <;> simp [hc, hold, hne]
      · by_cases hc : c = new
        · simp only [hc, if_true, ha, Ne.symm ha, if_false]
          omega
        · by_cases hold : c = old <;> simp [hc, hold, ha, Ne.symm ha, hne]

section Change

variable {old new : Addr} {r : AClass}

private theorem changeNode_spec (hne : old ≠ new) (hold : old ∈ m.classes)
    (hnew : m.classes.lookup new = some r) (a : Option Addr) :
    ∃ m', changeNode old new a m = some (relabel old new a, m') ∧ m'.names = m.names ∧
      old ∈ m'.classes ∧
      m'.classes.lookup new =
        some { r with counter := r.counter + ({a} : Multiset _).count (some old) } ∧
      ∀ c, c ≠ old → c ≠ new → m'.classes.lookup c = m.classes.lookup c := by
  obtain ⟨o, ho⟩ := Finmap.mem_iff.mp hold
  by_cases ha : a = some old
  · have hnew' : (m.setClass old { o with s := none }).classes.lookup new = some r := by
      rw [Memory.setClass, Finmap.lookup_insert_of_ne _ hne.symm, hnew]
    refine ⟨(m.setClass old { o with s := none }).setClass new
      { r with counter := r.counter + 1 },
      by simp [changeNode, relabel, ha, ho, hnew'], rfl, ?_, ?_, fun c hc hc' => ?_⟩
    · exact Finmap.mem_insert.mpr (.inr (Finmap.mem_insert.mpr (.inl rfl)))
    · simp [Memory.setClass, ha]
    · simp [Memory.setClass, Finmap.lookup_insert_of_ne, hc, hc']
  · refine ⟨m, by simp [changeNode, relabel, ha], rfl, hold, ?_, fun _ _ _ => rfl⟩
    simpa [Ne.symm ha] using hnew

private theorem classChange_spec (hne : old ≠ new) (t : Seq) (hold : old ∈ m.classes)
    (hnew : m.classes.lookup new = some r) :
    ∃ m', classChange old new t m = some (t.map (relabel old new), m') ∧ m'.names = m.names ∧
      old ∈ m'.classes ∧
      m'.classes.lookup new = some { r with counter := r.counter + t.labels.count (some old) } ∧
      ∀ c, c ≠ old → c ≠ new → m'.classes.lookup c = m.classes.lookup c := by
  induction t generalizing m r with
  | null => exact ⟨m, rfl, rfl, hold, by simpa using hnew, fun _ _ _ => rfl⟩
  | node a children ih =>
      obtain ⟨m₀, hm₀, hnames₀, hold₀, hnew₀, hrest₀⟩ := changeNode_spec hne hold hnew a
      obtain ⟨m₁, hm₁, hnames₁, hold₁, hnew₁, hrest₁⟩ := ih .zero hold₀ hnew₀
      obtain ⟨m₂, hm₂, hnames₂, hold₂, hnew₂, hrest₂⟩ := ih .one hold₁ hnew₁
      obtain ⟨m₃, hm₃, hnames₃, hold₃, hnew₃, hrest₃⟩ := ih .two hold₂ hnew₂
      refine ⟨m₃, ?_, ?_, hold₃, ?_, fun c hc hc' => ?_⟩
      · simp only [classChange, hm₀, hm₁, hm₂, hm₃, Trie.map, Option.bind_eq_bind,
          Option.bind_some, Option.pure_def]
        congr 3
        funext d
        cases d <;> rfl
      · rw [hnames₃, hnames₂, hnames₁, hnames₀]
      · rw [hnew₃]
        simp [sum_digits, Multiset.count_cons, Multiset.count_singleton, Nat.add_assoc,
          Nat.add_comm, Nat.add_left_comm]
      · rw [hrest₃ c hc hc', hrest₂ c hc hc', hrest₁ c hc hc', hrest₀ c hc hc']

end Change

section Merge

variable {root : Seq} {c₁ c₂ b : Addr} {k : Nat}

/-- The nodes after both changes. -/
def mergedRoot (root : Seq) (c c₁ c₂ : Addr) : Seq :=
  (root.map (relabel c₁ c)).map (relabel c₂ c)

private theorem count_mergedRoot (root : Seq) (h₁ : c₁ ≠ c) (h₂ : c₂ ≠ c) (h : c₁ ≠ c₂)
    (c' : Addr) : (mergedRoot root c c₁ c₂).labels.count (some c') =
      if c' = c then
        root.labels.count (some c) + root.labels.count (some c₁) + root.labels.count (some c₂)
      else if c' = c₁ ∨ c' = c₂ then 0
      else root.labels.count (some c') := by
  rw [mergedRoot, Trie.labels_map, count_relabel h₂, Trie.labels_map, count_relabel h₁,
    count_relabel h₁, count_relabel h₁]
  by_cases hc : c' = c
  · simp [hc, h₂, Ne.symm h]
  · by_cases hc₁ : c' = c₁
    · simp [hc₁, h₁, h]
    · by_cases hc₂ : c' = c₂ <;> simp [hc, hc₁, hc₂, h₂]

private theorem mergeInto_spec (root : Seq) (h₁ : c₁ ≠ c) (h₂ : c₂ ≠ c) (h : c₁ ≠ c₂)
    (hc₁ : c₁ ∈ m.classes) (hc₂ : c₂ ∈ m.classes) {r : AClass}
    (hr : m.classes.lookup c = some r) :
    ∃ m', mergeInto root m c c₁ c₂ = some (mergedRoot root c c₁ c₂, m') ∧ m'.names = m.names ∧
      c₁ ∈ m'.classes ∧ c₂ ∈ m'.classes ∧
      m'.classes.lookup c =
        some { r with counter := root.labels.count (some c₁) + root.labels.count (some c₂) } ∧
      ∀ c', c' ≠ c → c' ≠ c₁ → c' ≠ c₂ → m'.classes.lookup c' = m.classes.lookup c' := by
  have hmem {c'} (hc' : c' ∈ m.classes) :
      c' ∈ (m.setClass c { r with counter := 0 }).classes := Finmap.mem_insert.mpr (.inr hc')
  obtain ⟨m₁, hm₁, hnames₁, hold₁, hnew₁, hrest₁⟩ :=
    classChange_spec (r := { r with counter := 0 }) h₁ root (hmem hc₁) (Finmap.lookup_insert _)
  have hc₂' : c₂ ∈ m₁.classes := by
    rw [← Finmap.lookup_isSome, hrest₁ c₂ h.symm h₂, Finmap.lookup_isSome]
    exact hmem hc₂
  obtain ⟨m₂, hm₂, hnames₂, hold₂, hnew₂, hrest₂⟩ :=
    classChange_spec h₂ (root.map (relabel c₁ c)) hc₂' hnew₁
  refine ⟨m₂, by simp [mergeInto, hr, hm₁, hm₂, mergedRoot], hnames₂.trans hnames₁, ?_, hold₂, ?_,
    fun c' hc' hc'₁ hc'₂ => ?_⟩
  · rw [← Finmap.lookup_isSome, hrest₂ c₁ h h₁, Finmap.lookup_isSome]
    exact hold₁
  · rw [hnew₂, Trie.labels_map, count_relabel h₁, if_neg h₂, if_neg h.symm, Nat.zero_add]
  · rw [hrest₂ c' hc'₂ hc', hrest₁ c' hc'₁ hc']
    exact Finmap.lookup_insert_of_ne _ hc'

/-- The accounts after a merge, when the records of `c₁` and `c₂` are gone. -/
private theorem Accounts.merge (hm : Accounts m root.labels) (m' : Memory) (h : c₁ ≠ c₂)
    (hc₁ : some c₁ ∈ root.labels) (hc₂ : some c₂ ∈ root.labels) (hc : c ∉ m.classes)
    (hclass : m'.classes.lookup c =
      some ⟨root.labels.count (some c₁) + root.labels.count (some c₂), some b⟩)
    (hgone₁ : c₁ ∉ m'.classes) (hgone₂ : c₂ ∉ m'.classes)
    (hrest : ∀ c', c' ≠ c → c' ≠ c₁ → c' ≠ c₂ →
      m'.classes.lookup c' = m.classes.lookup c')
    (hb : b ∈ m'.names)
    (hnames : ∀ c' k b', c' ≠ c₁ → c' ≠ c₂ → m.classes.lookup c' = some ⟨k, some b'⟩ →
      b' ≠ b ∧ m'.names.lookup b' = m.names.lookup b') :
    Accounts m' (mergedRoot root c c₁ c₂).labels ∧
      ∀ c', c' ≠ c → c' ≠ c₁ → c' ≠ c₂ → some c' ∈ root.labels →
        m'.readName c' = m.readName c' := by
  have h₁ : c₁ ≠ c := fun heq => hc (heq ▸ hm.live c₁ hc₁)
  have h₂ : c₂ ≠ c := fun heq => hc (heq ▸ hm.live c₂ hc₂)
  have hzero : root.labels.count (some c) = 0 :=
    Multiset.count_eq_zero.mpr fun hmem => hc (hm.live c hmem)
  have hcount := count_mergedRoot root h₁ h₂ h
  have hold {c'} (hc' : c' ≠ c) (hmem : some c' ∈ (mergedRoot root c c₁ c₂).labels) :
      c' ≠ c₁ ∧ c' ≠ c₂ := by
    rw [← Multiset.count_pos, hcount, if_neg hc'] at hmem
    refine ⟨?_, ?_⟩ <;> rintro rfl <;> simp at hmem
  have hmem {c'} (hc' : c' ≠ c) (hc'₁ : c' ≠ c₁) (hc'₂ : c' ≠ c₂) :
      some c' ∈ (mergedRoot root c c₁ c₂).labels ↔ some c' ∈ root.labels := by
    rw [← Multiset.count_pos, hcount, if_neg hc', if_neg (by simp [hc'₁, hc'₂]),
      Multiset.count_pos]
  obtain ⟨haccounts, hread⟩ := hm.change m' (mergedRoot root c c₁ c₂).labels c b
    (fun _ => by
      refine ⟨?_, hb⟩
      rw [hclass, hcount, if_pos rfl, hzero, Nat.zero_add])
    (fun c' hc' hlive => by
      by_cases heq : c' = c
      · subst heq
        have hpos := Multiset.count_pos.mpr hc₁
        have := Multiset.count_eq_zero.mpr hc'
        rw [hcount, if_pos rfl] at this
        omega
      · have h₁' : c' ≠ c₁ := fun h => hgone₁ (h ▸ hlive)
        have h₂' : c' ≠ c₂ := fun h => hgone₂ (h ▸ hlive)
        rw [← Finmap.lookup_isSome, hrest c' heq h₁' h₂', Finmap.lookup_isSome] at hlive
        exact hm.not_live (fun hin => hc' ((hmem heq h₁' h₂').mpr hin)) hlive)
    (fun c' hc' hin => by
      obtain ⟨h₁', h₂'⟩ := hold hc' hin
      rw [hcount, if_neg hc', if_neg (by simp [h₁', h₂'])])
    (fun c' k b' hc' hin hr => by
      obtain ⟨h₁', h₂'⟩ := hold hc' hin
      obtain ⟨hne, hlookup⟩ := hnames c' k b' h₁' h₂' hr
      exact ⟨hne, hrest c' hc' h₁' h₂', hlookup⟩)
  exact ⟨haccounts, fun c' hc' h₁' h₂' hin => hread c' hc' ((hmem hc' h₁' h₂').mpr hin)⟩

/-- A merge into a new record, whatever happens to the names before the two old
records are freed. -/
theorem Accounts.mergeInto (hm : Accounts m root.labels) (h : c₁ ≠ c₂)
    (hc₁ : some c₁ ∈ root.labels) (hc₂ : some c₂ ∈ root.labels) (hc : c ∉ m.classes)
    (names : Finmap fun _ : Addr => List Char) :
    ∃ m₂, mergeInto root ⟨m.classes.insert c ⟨1, some b⟩, names, k⟩ c c₁ c₂ =
        some (mergedRoot root c c₁ c₂, m₂) ∧ m₂.names = names ∧
      ∀ (m₃ : Memory) (n : List Char), m₃.classes = m₂.classes →
        m₃.names.lookup b = some n →
        (∀ c' k b', c' ≠ c₁ → c' ≠ c₂ → m.classes.lookup c' = some ⟨k, some b'⟩ →
          b' ≠ b ∧ m₃.names.lookup b' = m.names.lookup b') →
        ∃ m₄ m' : Memory, m₃.freeClass c₁ = some m₄ ∧ m₄.freeClass c₂ = some m' ∧
          Accounts m' (mergedRoot root c c₁ c₂).labels ∧ m'.readName c = some n ∧
          ∀ c', c' ≠ c → c' ≠ c₁ → c' ≠ c₂ → some c' ∈ root.labels →
            m'.readName c' = m.readName c' := by
  have h₁ : c₁ ≠ c := fun heq => hc (heq ▸ hm.live c₁ hc₁)
  have h₂ : c₂ ≠ c := fun heq => hc (heq ▸ hm.live c₂ hc₂)
  obtain ⟨m₂, hmerge, hnames₂, hlive₁, hlive₂, hclass, hrest⟩ :=
    mergeInto_spec (m := ⟨m.classes.insert c ⟨1, some b⟩, names, k⟩) root h₁ h₂ h
      (Finmap.mem_insert.mpr (.inr (hm.live c₁ hc₁)))
      (Finmap.mem_insert.mpr (.inr (hm.live c₂ hc₂))) (Finmap.lookup_insert _)
  refine ⟨m₂, hmerge, hnames₂, fun m₃ n hclasses hn hnames => ?_⟩
  have hfree₁ : c₁ ∈ m₃.classes := hclasses ▸ hlive₁
  have hfree₂ : c₂ ∈ m₃.classes.erase c₁ :=
    Finmap.mem_erase.mpr ⟨h.symm, hclasses ▸ hlive₂⟩
  have hlookup {c'} (h₁' : c' ≠ c₁) (h₂' : c' ≠ c₂) :
      ((m₃.classes.erase c₁).erase c₂).lookup c' = m₂.classes.lookup c' := by
    rw [Finmap.lookup_erase_ne h₂', Finmap.lookup_erase_ne h₁', hclasses]
  have hclass' := (hlookup h₁.symm h₂.symm).trans hclass
  obtain ⟨haccounts, hothers⟩ := hm.merge (b := b)
      { m₃ with classes := (m₃.classes.erase c₁).erase c₂ } h hc₁ hc₂ hc hclass'
    (fun hmem => (Finmap.mem_erase.mp (Finmap.mem_erase.mp hmem).2).1 rfl)
    (fun hmem => (Finmap.mem_erase.mp hmem).1 rfl)
    (fun c' hc' h₁' h₂' => by
      rw [hlookup h₁' h₂', hrest c' hc' h₁' h₂']
      exact Finmap.lookup_insert_of_ne _ hc')
    (Finmap.mem_of_lookup_eq_some hn) hnames
  exact ⟨_, _, if_pos hfree₁, if_pos hfree₂, haccounts, readName_eq hclass' rfl hn, hothers⟩

end Merge

end Mimuw.Sequences
