import Mathlib.Data.Finset.Prod
import Mathlib.Data.Finset.Card
import Mimuw.Lib.Exploration
import Mimuw.SameGame.Model

/-!
# The group of a block

`usun_grupe` explores the cells of one colour and erases each that it visits. What a
branch explores depends on what the branches before it have erased.
-/

namespace Mimuw.SameGame

open Mimuw.Lib

/-- Horizontally or vertically adjacent. -/
def Sasiad (p q : Nat × Nat) : Prop :=
  p.2 = q.2 ∧ (p.1 + 1 = q.1 ∨ q.1 + 1 = p.1) ∨ p.1 = q.1 ∧ (p.2 + 1 = q.2 ∨ q.2 + 1 = p.2)

/-- The cells of the board that hold `klocek` -/
def kolor (n m : Nat) (klocek : Char) (a : Plansza) : Set (Nat × Nat) :=
  {p | p.1 < n ∧ p.2 < m ∧ a p.1 p.2 = klocek}

/-- Connected by adjacent cells of the colour of the first one. -/
def Polaczone (n m : Nat) (a : Plansza) (p q : Nat × Nat) : Prop :=
  Reaches Sasiad (kolor n m (a p.1 p.2) a) p q

def liczba (n m : Nat) (klocek : Char) (a : Plansza) : Nat :=
  ((Finset.range n ×ˢ Finset.range m).filter fun p => a p.1 p.2 = klocek).card

/-- Some cells that held `klocek` have been erased. -/
def Wymazane (n m : Nat) (klocek : Char) (a b : Plansza) : Prop :=
  ∀ p : Nat × Nat, b p.1 p.2 = a p.1 p.2 ∨ p ∈ kolor n m klocek a ∧ b p.1 p.2 = puste

section Erasing

variable {n m fuel w k : Nat} {klocek : Char} {a b c : Plansza} {v u : Nat × Nat}

private theorem sasiad_down : Sasiad (w, k) (w + 1, k) := by
  simp [Sasiad]

private theorem sasiad_up : Sasiad (w, k) (w - 1, k) ↔ 1 ≤ w := by
  simp only [Sasiad, true_and]
  omega

private theorem sasiad_right : Sasiad (w, k) (w, k + 1) := by
  simp [Sasiad]

private theorem sasiad_left : Sasiad (w, k) (w, k - 1) ↔ 1 ≤ k := by
  simp only [Sasiad, true_and]
  omega

private theorem sasiad_cases (h : Sasiad (w, k) v) :
    v = (w + 1, k) ∨ 1 ≤ w ∧ v = (w - 1, k) ∨ v = (w, k + 1) ∨ 1 ≤ k ∧ v = (w, k - 1) := by
  obtain ⟨i, j⟩ := v
  simp only [Sasiad, Prod.mk.injEq] at h ⊢
  omega

private theorem liczba_lt (h : kolor n m klocek b ⊆ kolor n m klocek a)
    (hv : v ∈ kolor n m klocek a)
    (hnot : v ∉ kolor n m klocek b) : liczba n m klocek b < liczba n m klocek a := by
  apply Finset.card_lt_card
  rw [Finset.ssubset_iff_of_subset]
  · exact ⟨v, by simpa [kolor, and_assoc] using hv, by simpa [kolor, and_assoc] using hnot⟩
  · intro p hp
    have hpa : p ∈ kolor n m klocek a := h (by simpa [kolor, and_assoc] using hp)
    simpa [kolor, and_assoc] using hpa

theorem Wymazane.trans (hab : Wymazane n m klocek a b) (hbc : Wymazane n m klocek b c) :
    Wymazane n m klocek a c := by
  intro p
  rcases hbc p with heq | ⟨hp, hc⟩
  · rw [heq]
    exact hab p
  · right
    refine ⟨⟨hp.1, hp.2.1, ?_⟩, hc⟩
    rcases hab p with heq | ⟨hpa, -⟩
    · rw [← heq]
      exact hp.2.2
    · exact hpa.2.2

private theorem wymazane_ustaw (hv : (w, k) ∈ kolor n m klocek a) :
    Wymazane n m klocek a (ustaw a w k puste) := by
  intro p
  rw [ustaw_apply]
  by_cases hp : p.1 = w ∧ p.2 = k
  · right
    obtain rfl : p = (w, k) := Prod.ext hp.1 hp.2
    exact ⟨hv, by simp⟩
  · left
    simp [hp]

private theorem kolor_ustaw (hklocek : klocek ≠ puste) :
    kolor n m klocek (ustaw a w k puste) = kolor n m klocek a \ {(w, k)} := by
  ext p
  obtain ⟨i, j⟩ := p
  by_cases hp : i = w ∧ j = k
  · simp [kolor, ustaw_apply, hp, hklocek.symm]
  · simp [kolor, ustaw_apply, hp]

/-- The specification of `usun_grupe` -/
def Usuwa (n m fuel : Nat) (klocek : Char) : Prop :=
  ∀ a w k, (w, k) ∈ kolor n m klocek a → liczba n m klocek a ≤ fuel →
    ∃ b, usunGrupe n m fuel a w k klocek = some b ∧ Wymazane n m klocek a b ∧
      Explored Sasiad (w, k) (kolor n m klocek a) (kolor n m klocek b)

/-- One of the four branches, after which the neighbour on its side is gone. -/
theorem branch (husuwa : Usuwa n m fuel klocek) {i j : Nat} (side : Prop) [Decidable side]
    (hside : side ↔ Sasiad v (i, j) ∧ (i, j) ∈ kolor n m klocek b)
    (hfuel : liczba n m klocek b ≤ fuel) (hab : Wymazane n m klocek a b)
    (h : Exploring Sasiad v (kolor n m klocek a) (kolor n m klocek b)) :
    ∃ c, (if side then usunGrupe n m fuel b i j klocek else some b) = some c ∧
      Wymazane n m klocek a c ∧
      Exploring Sasiad v (kolor n m klocek a) (kolor n m klocek c) ∧
      kolor n m klocek c ⊆ kolor n m klocek b ∧ liczba n m klocek c ≤ fuel ∧
      (Sasiad v (i, j) → (i, j) ∉ kolor n m klocek c) := by
  by_cases hs : side
  · obtain ⟨hnext, hmem⟩ := hside.mp hs
    obtain ⟨c, hc, hbc, hvisit⟩ := husuwa b i j hmem hfuel
    rw [if_pos hs]
    have hfuel' := (liczba_lt hvisit.subset hmem hvisit.start).le.trans hfuel
    exact ⟨c, hc, hab.trans hbc, h.visit hmem hnext hvisit, hvisit.subset, hfuel',
      fun _ => hvisit.start⟩
  · rw [if_neg hs]
    refine ⟨b, rfl, hab, h, subset_rfl, hfuel, fun hnext hmem => ?_⟩
    exact hs (hside.mpr ⟨hnext, hmem⟩)

private theorem usuwa (hklocek : klocek ≠ puste) : Usuwa n m fuel klocek := by
  induction fuel with
  | zero =>
      intro a w k hv hfuel
      have hpos : 0 < liczba n m klocek a := by
        apply Finset.card_pos.mpr
        exact ⟨(w, k), by simpa [kolor, and_assoc] using hv⟩
      omega
  | succ fuel ih =>
      intro a w k hv hfuel
      have hremove : Exploring Sasiad (w, k) (kolor n m klocek a)
          (kolor n m klocek (ustaw a w k puste)) := by
        rw [kolor_ustaw hklocek]
        exact .remove
      have hfuel₀ : liczba n m klocek (ustaw a w k puste) ≤ fuel :=
        Nat.le_of_lt_succ ((liczba_lt hremove.subset hv hremove.start).trans_le hfuel)
      have hw : w < n := hv.1
      have hk : k < m := hv.2.1
      obtain ⟨a₁, h₁, hab₁, hex₁, hsub₁, hfuel₁, hdown⟩ := branch (i := w + 1) (j := k) ih
        (w + 1 < n ∧ ustaw a w k puste (w + 1) k = klocek)
        (by simp [sasiad_down, kolor, hk]) hfuel₀ (wymazane_ustaw hv) hremove
      obtain ⟨a₂, h₂, hab₂, hex₂, hsub₂, hfuel₂, hup⟩ := branch (i := w - 1) (j := k) ih
        (1 ≤ w ∧ a₁ (w - 1) k = klocek)
        (by simp [sasiad_up, kolor, hk, show w - 1 < n by omega]) hfuel₁ hab₁ hex₁
      obtain ⟨a₃, h₃, hab₃, hex₃, hsub₃, hfuel₃, hright⟩ := branch (i := w) (j := k + 1) ih
        (k + 1 < m ∧ a₂ w (k + 1) = klocek)
        (by simp [sasiad_right, kolor, hw]) hfuel₂ hab₂ hex₂
      obtain ⟨a₄, h₄, hab₄, hex₄, hsub₄, -, hleft⟩ := branch (i := w) (j := k - 1) ih
        (1 ≤ k ∧ a₃ w (k - 1) = klocek)
        (by simp [sasiad_left, kolor, hw, show k - 1 < m by omega]) hfuel₃ hab₃ hex₃
      refine ⟨a₄, ?_, hab₄, ⟨hex₄, ?_⟩⟩
      · rw [usunGrupe]
        simp only [Option.bind_eq_bind]
        rw [h₁, Option.bind_some, h₂, Option.bind_some, h₃, Option.bind_some, h₄]
      · intro p hnext hmem
        rcases sasiad_cases hnext with rfl | ⟨hw, rfl⟩ | rfl | ⟨hk, rfl⟩
        · exact hdown sasiad_down (hsub₂ (hsub₃ (hsub₄ hmem)))
        · exact hup (sasiad_up.mpr hw) (hsub₃ (hsub₄ hmem))
        · exact hright sasiad_right (hsub₄ hmem)
        · exact hleft (sasiad_left.mpr hk) hmem

theorem Wymazane.erased (h : Wymazane n m klocek a b) (hv : v ∈ kolor n m klocek a)
    (hnot : v ∉ kolor n m klocek b) : b v.1 v.2 = puste := by
  rcases h v with heq | ⟨-, hb⟩
  · exact absurd ⟨hv.1, hv.2.1, heq.trans hv.2.2⟩ hnot
  · exact hb

theorem Wymazane.kept (h : Wymazane n m klocek a b) (hklocek : klocek ≠ puste)
    (hv : v ∈ kolor n m klocek a → v ∈ kolor n m klocek b) : b v.1 v.2 = a v.1 v.2 := by
  rcases h v with heq | ⟨hmem, hb⟩
  · exact heq
  · exact absurd ((hv hmem).2.2.symm.trans hb) hklocek

private theorem liczba_le : liczba n m klocek a ≤ n * m := by
  apply (Finset.card_filter_le _ _).trans
  simp

end Erasing

/-- Started at a block, `usun_grupe` ends and erases the cells connected to it, and no other. -/
theorem usunGrupe_grupa (n m : Nat) (a : Plansza) (w k : Nat) (hw : w < n) (hk : k < m)
    (hklocek : a w k ≠ puste) : ∃ fuel, ∀ fuel' ≥ fuel, ∃ b,
      usunGrupe n m fuel' a w k (a w k) = some b ∧
      ∀ i j, (Polaczone n m a (w, k) (i, j) → b i j = puste) ∧
        (¬ Polaczone n m a (w, k) (i, j) → b i j = a i j) := by
  have hv : (w, k) ∈ kolor n m (a w k) a := ⟨hw, hk, rfl⟩
  refine ⟨n * m, fun fuel hfuel => ?_⟩
  obtain ⟨b, hb, hab, hex⟩ := usuwa hklocek a w k hv (liczba_le.trans hfuel)
  refine ⟨b, hb, fun i j => ?_⟩
  constructor
  · intro hpath
    apply hab.erased (v := (i, j))
    · cases hpath with
      | refl => exact hv
      | tail _ hstep => exact hstep.2
    · exact hex.gone hpath
  · intro hpath
    apply hab.kept (v := (i, j)) hklocek
    intro hmem
    exact hex.mem_iff.mpr ⟨hmem, hpath⟩

theorem usunGrupe_grupa_full : ∃ fuel, ∀ fuel' ≥ fuel, ∃ b,
    usunGrupe 2 3 fuel' (fun _ _ => 'a') 0 1 'a' = some b ∧
    ∀ i j, (Polaczone 2 3 (fun _ _ => 'a') (0, 1) (i, j) → b i j = puste) ∧
      (¬ Polaczone 2 3 (fun _ _ => 'a') (0, 1) (i, j) → b i j = 'a') :=
  usunGrupe_grupa 2 3 (fun _ _ => 'a') 0 1 (by decide) (by decide) (by decide)

end Mimuw.SameGame
