import Mimuw.Sequences.Model

/-!
# What the sequences are for

A set of sequences closed under initial segments, parted into classes of which
each may have a name.
-/

namespace Mimuw.Sequences

section Classes

variable {α : Type*}

/-- The classes of `x` and `y` become one. -/
def joinClasses (r : Setoid α) (x y : α) : Setoid α where
  r u v := r u v ∨ (r u x ∨ r u y) ∧ (r v x ∨ r v y)
  iseqv := {
    refl := fun u => .inl (r.refl u)
    symm := fun h => h.imp r.symm And.symm
    trans := by
      intro u v w huv hvw
      have hmove {a b : α} (h : r a b) (hb : r b x ∨ r b y) : r a x ∨ r a y :=
        hb.imp (r.trans h) (r.trans h)
      rcases huv with huv | ⟨hu, hv⟩
      · rcases hvw with hvw | ⟨hv, hw⟩
        · exact .inl (r.trans huv hvw)
        · exact .inr ⟨hmove huv hv, hw⟩
      · rcases hvw with hvw | ⟨-, hw⟩
        · exact .inr ⟨hu, hmove (r.symm hvw) hv⟩
        · exact .inr ⟨hu, hw⟩ }

/-- Whatever is not kept is in no class but its own. -/
def keepClasses (r : Setoid α) (kept : Set α) : Setoid α where
  r u v := u = v ∨ r u v ∧ u ∈ kept ∧ v ∈ kept
  iseqv := {
    refl := fun u => .inl rfl
    symm := fun h => h.imp Eq.symm fun ⟨h, hu, hv⟩ => ⟨r.symm h, hv, hu⟩
    trans := by
      rintro u v w (rfl | ⟨huv, hu, hv⟩) hvw
      · exact hvw
      · rcases hvw with rfl | ⟨hvw, -, hw⟩
        · exact .inr ⟨huv, hu, hv⟩
        · exact .inr ⟨r.trans huv hvw, hu, hw⟩ }

end Classes

structure NamedSequences where
  members : Set Word
  same : Setoid Word
  name : Word → Option (List Char)
  nonempty : [] ∉ members
  closed : ∀ w v, w ≠ [] → w ++ v ∈ members → w ∈ members
  alone : ∀ u v, same u v → u = v ∨ u ∈ members ∧ v ∈ members
  name_same : ∀ u v, same u v → name u = name v
  name_member : ∀ w, name w ≠ none → w ∈ members
  name_nonempty : ∀ w, name w ≠ some []

namespace NamedSequences

def empty : NamedSequences where
  members := ∅
  same := ⊥
  name _ := none
  nonempty h := h
  closed _ _ _ h := h
  alone _ _ h := .inl h
  name_same _ _ _ := rfl
  name_member _ h := absurd rfl h
  name_nonempty _ h := by cases h

/-- A word joins with all its initial segments, each in a class of its own. -/
def insert (a : NamedSequences) (w : Word) : NamedSequences where
  members := a.members ∪ {v | v ≠ [] ∧ v <+: w}
  same := a.same
  name := a.name
  nonempty h := h.elim a.nonempty fun h => h.1 rfl
  closed u v hu h := h.imp (a.closed u v hu) fun h => ⟨hu, (List.prefix_append u v).trans h.2⟩
  alone u v h := (a.alone u v h).imp_right fun h => ⟨.inl h.1, .inl h.2⟩
  name_same := a.name_same
  name_member w h := .inl (a.name_member w h)
  name_nonempty := a.name_nonempty

open Classical in
/-- Every word that starts with `w` goes. -/
noncomputable def erase (a : NamedSequences) (w : Word) : NamedSequences where
  members := {v | v ∈ a.members ∧ ¬ w <+: v}
  same := keepClasses a.same {v | ¬ w <+: v}
  name v := if w <+: v then none else a.name v
  nonempty h := a.nonempty h.1
  closed u v hu h :=
    ⟨a.closed u v hu h.1, fun hw => h.2 (hw.trans (List.prefix_append u v))⟩
  alone u v h := by
    rcases h with rfl | ⟨h, hu, hv⟩
    · exact .inl rfl
    · exact (a.alone u v h).imp_right fun hm => ⟨⟨hm.1, hu⟩, hm.2, hv⟩
  name_same u v h := by
    rcases h with rfl | ⟨h, hu, hv⟩
    · rfl
    · rw [if_neg hu, if_neg hv, a.name_same u v h]
  name_member v h := by
    by_cases hv : w <+: v
    · exact absurd (if_pos hv) h
    · rw [if_neg hv] at h
      exact ⟨a.name_member v h, hv⟩
  name_nonempty v h := by
    split_ifs at h
    exact a.name_nonempty v h

open Classical in
noncomputable def rename (a : NamedSequences) (w : Word) (n : List Char) (hw : w ∈ a.members)
    (hn : n ≠ []) : NamedSequences where
  members := a.members
  same := a.same
  name v := if a.same v w then some n else a.name v
  nonempty := a.nonempty
  closed := a.closed
  alone := a.alone
  name_same u v h := by
    have hiff : a.same u w ↔ a.same v w := ⟨a.same.trans (a.same.symm h), a.same.trans h⟩
    simp only [hiff, a.name_same u v h]
  name_member v h := by
    by_cases hv : a.same v w
    · exact (a.alone v w hv).elim (fun heq => heq ▸ hw) And.left
    · rw [if_neg hv] at h
      exact a.name_member v h
  name_nonempty v h := by
    split_ifs at h
    · exact hn (Option.some.inj h)
    · exact a.name_nonempty v h

/-- The common name, the only name, or the first followed by the second. -/
def joinNames : Option (List Char) → Option (List Char) → Option (List Char)
  | none, n => n
  | n, none => n
  | some n₁, some n₂ => if n₁ = n₂ then some n₁ else some (n₁ ++ n₂)

private theorem joinNames_nonempty {n₁ n₂ : Option (List Char)} (h₁ : n₁ ≠ some [])
    (h₂ : n₂ ≠ some []) :
    joinNames n₁ n₂ ≠ some [] := by
  cases n₁ with
  | none => exact h₂
  | some n₁ =>
      cases n₂ with
      | none => exact h₁
      | some n₂ =>
          simp only [joinNames]
          split_ifs <;> simp_all

theorem joinNames_getD {n₁ n₂ : Option (List Char)} (h₁ : n₁ ≠ some []) (h₂ : n₂ ≠ some []) :
    (joinNames n₁ n₂).getD [] =
      if n₁.getD [] = n₂.getD [] then n₁.getD [] else n₁.getD [] ++ n₂.getD [] := by
  cases n₁ with
  | none =>
      cases n₂ with
      | none => rfl
      | some n₂ => split_ifs <;> simp_all [joinNames]
  | some n₁ =>
      cases n₂ with
      | none => split_ifs <;> simp_all [joinNames]
      | some n₂ =>
          simp only [joinNames, Option.getD_some]
          split_ifs <;> rfl

open Classical in
noncomputable def join (a : NamedSequences) (w₁ w₂ : Word) (hw₁ : w₁ ∈ a.members)
    (hw₂ : w₂ ∈ a.members) : NamedSequences where
  members := a.members
  same := joinClasses a.same w₁ w₂
  name v :=
    if a.same v w₁ ∨ a.same v w₂ then joinNames (a.name w₁) (a.name w₂) else a.name v
  nonempty := a.nonempty
  closed := a.closed
  alone u v h := by
    have hmember {u : Word} (h : a.same u w₁ ∨ a.same u w₂) : u ∈ a.members :=
      h.elim (fun h => (a.alone u w₁ h).elim (fun heq => heq ▸ hw₁) And.left)
        fun h => (a.alone u w₂ h).elim (fun heq => heq ▸ hw₂) And.left
    rcases h with h | ⟨hu, hv⟩
    · exact a.alone u v h
    · exact .inr ⟨hmember hu, hmember hv⟩
  name_same u v h := by
    rcases h with h | ⟨hu, hv⟩
    · have hiff (w : Word) : a.same u w ↔ a.same v w :=
        ⟨a.same.trans (a.same.symm h), a.same.trans h⟩
      simp only [hiff, a.name_same u v h]
    · rw [if_pos hu, if_pos hv]
  name_member v h := by
    by_cases hv : a.same v w₁ ∨ a.same v w₂
    · rcases hv with hv | hv
      · exact (a.alone v w₁ hv).elim (fun heq => heq ▸ hw₁) And.left
      · exact (a.alone v w₂ hv).elim (fun heq => heq ▸ hw₂) And.left
    · rw [if_neg hv] at h
      exact a.name_member v h
  name_nonempty v h := by
    split_ifs at h
    · exact joinNames_nonempty (a.name_nonempty w₁) (a.name_nonempty w₂) h
    · exact a.name_nonempty v h

end NamedSequences

/-- The sequence a string stands for, if it is a nonempty one over the digits. -/
def word? (s : CString) : Option Word :=
  (s.bind fun s => s.mapM digit?).filter (· ≠ [])

open Classical in
noncomputable def specStep (a : NamedSequences) : Call → NamedSequences × Answer
  | .add s =>
      match word? s with
      | none => (a, .code (.error .einval))
      | some w =>
          if w ∈ a.members then (a, .code (.ok false)) else (a.insert w, .code (.ok true))
  | .remove s =>
      match word? s with
      | none => (a, .code (.error .einval))
      | some w =>
          if w ∈ a.members then (a.erase w, .code (.ok true)) else (a, .code (.ok false))
  | .valid s =>
      match word? s with
      | none => (a, .code (.error .einval))
      | some w => (a, .code (.ok (decide (w ∈ a.members))))
  | .setName s n =>
      match word? s, n with
      | some w, some n =>
          if hn : n = [] then (a, .code (.error .einval))
          else if hw : w ∈ a.members then
            if a.name w = some n then (a, .code (.ok false))
            else (a.rename w n hw hn, .code (.ok true))
          else (a, .code (.ok false))
      | _, _ => (a, .code (.error .einval))
  | .getName s =>
      match word? s with
      | none => (a, .name (.error .einval))
      | some w => (a, .name (.ok (a.name w)))
  | .equiv s₁ s₂ =>
      match word? s₁, word? s₂ with
      | some w₁, some w₂ =>
          if h : w₁ ∈ a.members ∧ w₂ ∈ a.members ∧ ¬ a.same w₁ w₂ then
            (a.join w₁ w₂ h.1 h.2.1, .code (.ok true))
          else (a, .code (.ok false))
      | _, _ => (a, .code (.error .einval))

end Mimuw.Sequences
