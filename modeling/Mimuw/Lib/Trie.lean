import Mathlib.Algebra.BigOperators.Group.Finset.Basic
import Mathlib.Algebra.Order.BigOperators.Group.Multiset
import Mathlib.Data.Fintype.BigOperators
import Mathlib.Tactic

/-!
# Labelled tries

A trie is known by the label it has at each word; its nodes are a set of words
closed under initial segments.
-/

namespace Mimuw.Lib

inductive Trie (ι α : Type*) where
  | null
  | node (label : α) (children : ι → Trie ι α)

namespace Trie

variable {ι α β : Type*}

/-- The label at a word, if there is a node. -/
def label : Trie ι α → List ι → Option α
  | null, _ => none
  | node a _, [] => some a
  | node _ children, d :: w => (children d).label w

@[simp] theorem label_null (w : List ι) : (null : Trie ι α).label w = none := by
  cases w <;> rfl

@[simp] theorem label_node_nil (a : α) (children : ι → Trie ι α) :
    (node a children).label [] = some a := rfl

@[simp] theorem label_node_cons (a : α) (children : ι → Trie ι α) (d : ι) (w : List ι) :
    (node a children).label (d :: w) = (children d).label w := rfl

/-- What hangs at a word. -/
def sub : Trie ι α → List ι → Trie ι α
  | t, [] => t
  | null, _ :: _ => null
  | node _ children, d :: w => (children d).sub w

@[simp] theorem sub_null (w : List ι) : (null : Trie ι α).sub w = null := by
  cases w <;> rfl

@[simp] theorem sub_nil (t : Trie ι α) : t.sub [] = t := by
  cases t <;> rfl

@[simp] theorem sub_node_cons (a : α) (children : ι → Trie ι α) (d : ι) (w : List ι) :
    (node a children).sub (d :: w) = (children d).sub w := rfl

private theorem sub_append (t : Trie ι α) (w v : List ι) : t.sub (w ++ v) = (t.sub w).sub v := by
  induction w generalizing t with
  | nil => simp
  | cons d w ih => cases t <;> simp [ih]

theorem label_sub (t : Trie ι α) (w v : List ι) : (t.sub w).label v = t.label (w ++ v) := by
  induction w generalizing t with
  | nil => simp
  | cons d w ih => cases t <;> simp [ih]

private theorem sub_of_label {t : Trie ι α} {w : List ι} {a : α} (h : t.label w = some a) :
    ∃ children, t.sub w = node a children := by
  rw [← List.append_nil w, ← label_sub] at h
  cases hsub : t.sub w with
  | null => simp [hsub] at h
  | node b children =>
      rw [hsub] at h
      obtain rfl := Option.some.inj h
      exact ⟨children, rfl⟩

theorem ext {t u : Trie ι α} (h : ∀ w, t.label w = u.label w) : t = u := by
  induction t generalizing u with
  | null =>
      cases u with
      | null => rfl
      | node b children => simpa using h []
  | node a children ih =>
      cases u with
      | null => simpa using h []
      | node b others =>
          have hroot : a = b := by simpa using h []
          have hchildren : children = others := funext fun d => ih d fun w => h (d :: w)
          rw [hroot, hchildren]

theorem label_of_append {t : Trie ι α} {w v : List ι} (h : (t.label (w ++ v)).isSome) :
    (t.label w).isSome := by
  cases hw : t.label w with
  | some a => rfl
  | none =>
      have hnull : t.sub w = null := by
        cases hsub : t.sub w with
        | null => rfl
        | node a children =>
            have := label_sub t w []
            simp [hsub, hw] at this
      rw [← label_sub, hnull, label_null] at h
      cases h

theorem label_append_none {t : Trie ι α} {w : List ι} (h : t.label w = none) (v : List ι) :
    t.label (w ++ v) = none := by
  cases hv : t.label (w ++ v) with
  | none => rfl
  | some a =>
      have := label_of_append (Option.isSome_of_eq_some hv)
      simp [h] at this

/-! ## Changing one node -/

section Modify

variable [DecidableEq ι]

/-- The node at a word replaced; none if there is no such node. -/
def modify (f : α → (ι → Trie ι α) → Trie ι α) : List ι → Trie ι α → Option (Trie ι α)
  | _, null => none
  | [], node a children => some (f a children)
  | d :: w, node a children =>
      (modify f w (children d)).map fun t => node a (Function.update children d t)

def setLabel (t : Trie ι α) (w : List ι) (a : α) : Option (Trie ι α) :=
  modify (fun _ children => node a children) w t

def setChild (t : Trie ι α) (w : List ι) (d : ι) (s : Trie ι α) : Option (Trie ι α) :=
  modify (fun a children => node a (Function.update children d s)) w t

variable {f : α → (ι → Trie ι α) → Trie ι α} {t t' s : Trie ι α} {w : List ι} {d : ι} {a : α}

private theorem modify_isSome : (modify f w t).isSome ↔ (t.label w).isSome := by
  induction w generalizing t with
  | nil => cases t <;> simp [modify]
  | cons d w ih =>
      cases t with
      | null => simp [modify]
      | node a children => simpa [modify] using ih

private theorem exists_modify (h : (t.label w).isSome) : ∃ t', modify f w t = some t' :=
  Option.isSome_iff_exists.mp (modify_isSome.mpr h)

theorem exists_setLabel (h : (t.label w).isSome) (a : α) : ∃ t', t.setLabel w a = some t' :=
  exists_modify h

theorem exists_setChild (h : (t.label w).isSome) (d : ι) (s : Trie ι α) :
    ∃ t', t.setChild w d s = some t' :=
  exists_modify h

theorem label_setLabel (h : t.setLabel w a = some t') (v : List ι) :
    t'.label v = if v = w then some a else t.label v := by
  rw [setLabel] at h
  induction w generalizing t t' v with
  | nil =>
      cases t with
      | null => cases h
      | node b children =>
          cases h
          cases v <;> simp
  | cons d w ih =>
      cases t with
      | null => cases h
      | node b children =>
          simp only [modify, Option.map_eq_some_iff] at h
          obtain ⟨s, hs, rfl⟩ := h
          cases v with
          | nil => simp
          | cons e v =>
              by_cases he : e = d
              · subst he
                simp [ih hs]
              · simp [he]

theorem label_setChild (h : t.setChild w d s = some t') (v : List ι) :
    t'.label v = if w ++ [d] <+: v then s.label (v.drop (w.length + 1)) else t.label v := by
  rw [setChild] at h
  induction w generalizing t t' v with
  | nil =>
      cases t with
      | null => cases h
      | node b children =>
          cases h
          cases v with
          | nil => simp
          | cons e v =>
              by_cases he : e = d
              · subst he
                simp
              · simp [he, Ne.symm he]
  | cons e w ih =>
      cases t with
      | null => cases h
      | node b children =>
          simp only [modify, Option.map_eq_some_iff] at h
          obtain ⟨u, hu, rfl⟩ := h
          cases v with
          | nil => simp
          | cons e' v =>
              by_cases he : e' = e
              · subst he
                simp [ih hu]
              · simp [he, Ne.symm he]

theorem label_setChild_leaf (h : t.setChild w d (node a fun _ => null) = some t')
    (hnew : t.label (w ++ [d]) = none) (v : List ι) :
    t'.label v = if v = w ++ [d] then some a else t.label v := by
  rw [label_setChild h]
  by_cases hv : w ++ [d] <+: v
  · obtain ⟨u, rfl⟩ := hv
    cases u with
    | nil => simp
    | cons e u =>
        rw [if_pos ⟨_, rfl⟩, if_neg (by simp), label_append_none hnew]
        rw [List.drop_append_of_le_length (by simp)]
        simp
  · have hne : v ≠ w ++ [d] := fun heq => hv (heq ▸ List.prefix_refl _)
    rw [if_neg hv, if_neg hne]

end Modify

/-! ## The labels that occur -/

section Labels

variable [Fintype ι]

def labels : Trie ι α → Multiset α
  | null => 0
  | node a children => a ::ₘ ∑ d, (children d).labels

@[simp] theorem labels_null : (null : Trie ι α).labels = 0 := rfl

@[simp] theorem labels_node (a : α) (children : ι → Trie ι α) :
    (node a children).labels = a ::ₘ ∑ d, (children d).labels := rfl

theorem mem_labels {t : Trie ι α} {a : α} : a ∈ t.labels ↔ ∃ w, t.label w = some a := by
  induction t with
  | null => simp
  | node b children ih =>
      simp only [labels_node, Multiset.mem_cons, Multiset.mem_sum, Finset.mem_univ, true_and, ih]
      constructor
      · rintro (rfl | ⟨d, w, hw⟩)
        · exact ⟨[], rfl⟩
        · exact ⟨d :: w, hw⟩
      · rintro ⟨w, hw⟩
        cases w with
        | nil => exact .inl (Option.some.inj hw).symm
        | cons d w => exact .inr ⟨d, w, hw⟩

variable [DecidableEq ι] {t t' s : Trie ι α} {w : List ι} {d : ι} {a b : α}

private theorem sum_update_labels (children : ι → Trie ι α) (d : ι) (s : Trie ι α) :
    (∑ e, (Function.update children d s e).labels) + (children d).labels =
      (∑ e, (children e).labels) + s.labels := by
  rw [← Finset.add_sum_erase _ _ (Finset.mem_univ d),
    ← Finset.add_sum_erase Finset.univ (fun e => (children e).labels) (Finset.mem_univ d)]
  have hrest : ∑ e ∈ Finset.univ.erase d, (Function.update children d s e).labels =
      ∑ e ∈ Finset.univ.erase d, (children e).labels := by
    refine Finset.sum_congr rfl fun e he => ?_
    rw [Function.update_of_ne (Finset.ne_of_mem_erase he)]
  rw [hrest, Function.update_self]
  abel

private theorem labels_modify {f : α → (ι → Trie ι α) → Trie ι α} {children : ι → Trie ι α}
    (h : modify f w t = some t') (hw : t.sub w = node a children) :
    t'.labels + (node a children).labels = t.labels + (f a children).labels := by
  induction w generalizing t t' with
  | nil =>
      cases t with
      | null => cases h
      | node b others =>
          cases h
          cases hw
          exact add_comm _ _
  | cons d w ih =>
      cases t with
      | null => cases h
      | node b others =>
          simp only [modify, Option.map_eq_some_iff] at h
          obtain ⟨s, hs, rfl⟩ := h
          have hchild := ih hs hw
          have hsum := sum_update_labels others d s
          have hcancel : (∑ e, (Function.update others d s e).labels) +
              (node a children).labels + (others d).labels =
                (∑ e, (others e).labels) + (f a children).labels + (others d).labels := by
            rw [add_right_comm, hsum, add_assoc, hchild]
            abel
          rw [labels_node b, labels_node b, Multiset.cons_add, Multiset.cons_add,
            add_right_cancel hcancel]

theorem labels_setLabel (h : t.setLabel w a = some t') (hw : t.label w = some b) :
    b ::ₘ t'.labels = a ::ₘ t.labels := by
  obtain ⟨children, hsub⟩ := sub_of_label hw
  have hsum := labels_modify h hsub
  simp only [labels_node, Multiset.add_cons] at hsum
  rw [← Multiset.cons_add, ← Multiset.cons_add] at hsum
  exact add_right_cancel hsum

theorem labels_setChild (h : t.setChild w d s = some t') :
    t'.labels + (t.sub (w ++ [d])).labels = t.labels + s.labels := by
  obtain ⟨a, hw⟩ := Option.isSome_iff_exists.mp
    (modify_isSome.mp (Option.isSome_iff_exists.mpr ⟨t', h⟩))
  obtain ⟨children, hsub⟩ := sub_of_label hw
  have hsum := labels_modify h hsub
  have hchild : t.sub (w ++ [d]) = children d := by
    rw [sub_append, hsub, sub_node_cons, sub_nil]
  have hothers := sum_update_labels children d s
  simp only [labels_node, Multiset.add_cons] at hsum
  have hsum' := (Multiset.cons_inj_right a).mp hsum
  have hcancel : t'.labels + (children d).labels +
      (∑ e, (children e).labels) = t.labels + s.labels + ∑ e, (children e).labels := by
    rw [add_right_comm, hsum', add_assoc, hothers]
    abel
  rw [hchild, add_right_cancel hcancel]

end Labels

/-! ## Changing every label -/

section Map

def map (f : α → β) : Trie ι α → Trie ι β
  | null => null
  | node a children => node (f a) fun d => (children d).map f

theorem label_map (f : α → β) (t : Trie ι α) (w : List ι) :
    (t.map f).label w = (t.label w).map f := by
  induction t generalizing w with
  | null => simp [map]
  | node a children ih =>
      cases w with
      | nil => rfl
      | cons d w => exact ih d w

theorem labels_map [Fintype ι] (f : α → β) (t : Trie ι α) :
    (t.map f).labels = t.labels.map f := by
  induction t with
  | null => rfl
  | node a children ih =>
      simp only [map, labels_node, Multiset.map_cons, ih]
      rw [← Multiset.coe_mapAddMonoidHom, map_sum]

end Map

end Trie

end Mimuw.Lib
