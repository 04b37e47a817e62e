import Mimuw.Lib.Compaction
import Mimuw.SameGame.Model

/-!
# Falling blocks and columns that close up

Both loops exchange a gap with the next block or column that is none. The second one
looks at the bottom row only, where a column that has fallen shows whether it is empty.
-/

namespace Mimuw.SameGame

open Mimuw.Lib

def kolumna (n : Nat) (a : Plansza) (k : Nat) : List Char := firsts (a · k) n

def kolumny (n m : Nat) (a : Plansza) : List (List Char) := firsts (kolumna n a) m

section Exchanges

variable {n m w k w' k' i j : Nat} {a b : Plansza}

private theorem zamien_apply (a : Plansza) (w k w' k' i j : Nat) : zamien a w k w' k' i j =
    if i = w' ∧ j = k' then a w k else if i = w ∧ j = k then a w' k' else a i j := by
  rw [zamien, ustaw_apply, ustaw_apply]

private theorem zamienKolumny_apply (i j : Nat) : zamienKolumny n a k k' i j =
    if i < n ∧ j = k' then a i k else if i < n ∧ j = k then a i k' else a i j := by
  induction n generalizing i j with
  | zero => simp [zamienKolumny]
  | succ n ih =>
      have hstep : zamienKolumny (n + 1) a k k' = zamien (zamienKolumny n a k k') n k n k' := by
        simp [zamienKolumny, List.range_succ]
      rw [hstep, zamien_apply, ih, ih, ih]
      by_cases hi : i = n
      · subst hi
        simp
      · have hlt : i < n + 1 ↔ i < n := by omega
        simp [hi, hlt]

private theorem zamienKolumny_kolumna :
    kolumna n (zamienKolumny n a k k') j =
      if j = k' then kolumna n a k else if j = k then kolumna n a k' else kolumna n a j := by
  have hcongr : ∀ {f g : Nat → Char}, (∀ i < n, f i = g i) → firsts f n = firsts g n := by
    intro f g h
    exact List.map_congr_left fun i hi => h i (List.mem_range.mp hi)
  split
  next hj => exact hcongr fun i hi => by simp [zamienKolumny_apply, hi, hj]
  next hj =>
    split
    next hjk =>
      subst hjk
      exact hcongr fun i hi => by simp [zamienKolumny_apply, hi, hj]
    next hjk => exact hcongr fun i hi => by simp [zamienKolumny_apply, hj, hjk]

end Exchanges

/-! ## One column -/

section Falling

variable {n m w k i j : Nat} {a b : Plansza}

private theorem noweW_le : noweW a k w ≤ w := by
  induction w with
  | zero => exact le_rfl
  | succ w ih =>
      rw [noweW]
      split <;> omega

private theorem noweW_puste (hlo : noweW a k w ≤ i) (hhi : i < w) : a i k = puste := by
  induction w with
  | zero => omega
  | succ w ih =>
      rw [noweW] at hlo
      split at hlo
      next hempty =>
        by_cases hi : i = w
        · rw [hi]
          exact hempty
        · exact ih hlo (by omega)
      next => omega

private theorem noweW_klocek (h : noweW a k w ≠ 0) : a (noweW a k w - 1) k ≠ puste := by
  induction w with
  | zero => exact absurd rfl h
  | succ w ih =>
      rw [noweW] at h ⊢
      split
      next hempty =>
        rw [if_pos hempty] at h
        exact ih h
      next hblock => exact hblock

/-- Above a gap in the rows from `w` on there are gaps only. -/
def OpadlaOd (n k w : Nat) (a : Plansza) : Prop :=
  ∀ p q, p < q → q < n → w ≤ q → a q k = puste → a p k = puste

/-- `b` is `a` with its column `k` fallen. -/
structure Opada (n k : Nat) (a b : Plansza) : Prop where
  column : solid puste (kolumna n b k) = solid puste (kolumna n a k)
  others : ∀ i j, n ≤ i ∨ j ≠ k → b i j = a i j

/-- One round of the inner loop of `przesun_w_dol` -/
private theorem opada_zamien (hw : w + 1 < n) (h : OpadlaOd n k (w + 2) a) :
    let nowe := noweW a k (w + 1)
    let b := if a (w + 1) k = puste ∧ nowe ≠ 0 then zamien a (w + 1) k (nowe - 1) k else a
    Opada n k a b ∧ OpadlaOd n k (w + 1) b := by
  intro nowe b
  have hle : nowe ≤ w + 1 := noweW_le
  by_cases hswap : a (w + 1) k = puste ∧ nowe ≠ 0
  · have hb : b = zamien a (w + 1) k (nowe - 1) k := if_pos hswap
    have hblock : a (nowe - 1) k ≠ puste := noweW_klocek hswap.2
    rw [hb]
    refine ⟨⟨?_, ?_⟩, ?_⟩
    · apply solid_exchange (i := nowe - 1) (j := w + 1) (by omega) hw (.inr hswap.1)
      · intro p hlo hhi
        exact noweW_puste (by omega : noweW a k (w + 1) ≤ p) hhi
      · simp [zamien_apply]
      · simp [zamien_apply]
        omega
      · intro p hp hp'
        simp [zamien_apply, hp, hp']
    · intro i j hij
      rw [zamien_apply, if_neg (by omega), if_neg (by omega)]
    · intro p q hpq hq hwq hgap
      rw [zamien_apply] at hgap
      by_cases hqw : q = w + 1
      · subst hqw
        rw [if_neg (by omega), if_pos ⟨rfl, rfl⟩] at hgap
        exact absurd hgap hblock
      · -- no gap below: the block that moved would have been above it
        rw [if_neg (by omega), if_neg (by omega)] at hgap
        exact absurd (h (nowe - 1) q (by omega) hq (by omega) hgap) hblock
  · have hb : b = a := if_neg hswap
    rw [hb]
    refine ⟨⟨rfl, fun _ _ _ => rfl⟩, fun p q hpq hq hwq hgap => ?_⟩
    by_cases hqw : q = w + 1
    · subst hqw
      have hnowe : nowe = 0 := by
        by_contra hne
        exact hswap ⟨hgap, hne⟩
      exact noweW_puste (w := w + 1) (by change nowe ≤ p; omega) hpq
    · exact h p q hpq hq (by omega) hgap

private theorem przesunKolumne_opada (hw : w < n) (h : OpadlaOd n k (w + 1) a) :
    Opada n k a (przesunKolumne k w a) ∧ OpadlaOd n k 0 (przesunKolumne k w a) := by
  induction w generalizing a with
  | zero =>
      refine ⟨⟨rfl, fun _ _ _ => rfl⟩, fun p q hpq hq _ => ?_⟩
      exact h p q hpq hq (by omega)
  | succ w ih =>
      obtain ⟨hstep, hfallen⟩ := opada_zamien hw h
      obtain ⟨hrest, hall⟩ := ih (by omega) hfallen
      refine ⟨⟨hrest.column.trans hstep.column, fun i j hij => ?_⟩, hall⟩
      exact (hrest.others i j hij).trans (hstep.others i j hij)

private theorem przesunKolumne_kolumna (hn : 1 ≤ n) :
    kolumna n (przesunKolumne k (n - 1) a) k = toBack puste (kolumna n a k) := by
  obtain ⟨hstep, hfallen⟩ := przesunKolumne_opada (a := a) (k := k) (n := n) (w := n - 1) (by omega)
    (fun p q _ hq hwq _ => by omega)
  apply firsts_eq_toBack
  · simp [kolumna, firsts]
  · exact hstep.column
  · intro p q hpq hq
    exact hfallen p q hpq hq (Nat.zero_le q)

private theorem przesunKolumne_others (hn : 1 ≤ n) (h : n ≤ i ∨ j ≠ k) :
    przesunKolumne k (n - 1) a i j = a i j :=
  (przesunKolumne_opada (a := a) (k := k) (n := n) (w := n - 1) (by omega)
    (fun p q _ hq hwq _ => by omega)).1.others i j h

private theorem przesunWDol_others (hn : 1 ≤ n) (h : n ≤ i ∨ m ≤ j) :
    przesunWDol n m a i j = a i j := by
  induction m with
  | zero => rfl
  | succ m ih =>
      have hstep : przesunWDol n (m + 1) a = przesunKolumne m (n - 1) (przesunWDol n m a) := by
        simp [przesunWDol, List.range_succ]
      rw [hstep, przesunKolumne_others hn (by omega)]
      exact ih (by omega)

private theorem przesunWDol_kolumna (hn : 1 ≤ n) (hk : k < m) :
    kolumna n (przesunWDol n m a) k = toBack puste (kolumna n a k) := by
  induction m with
  | zero => omega
  | succ m ih =>
      have hstep : przesunWDol n (m + 1) a = przesunKolumne m (n - 1) (przesunWDol n m a) := by
        simp [przesunWDol, List.range_succ]
      rw [hstep]
      by_cases hkm : k = m
      · subst hkm
        rw [przesunKolumne_kolumna hn]
        congr 1
        apply List.map_congr_left
        intro i _
        exact przesunWDol_others hn (.inr le_rfl)
      · rw [← ih (by omega)]
        apply List.map_congr_left
        intro i _
        exact przesunKolumne_others hn (.inr hkm)

private theorem przesunWDol_kolumny (hn : 1 ≤ n) :
    kolumny n m (przesunWDol n m a) = (kolumny n m a).map (toBack puste) := by
  rw [kolumny, kolumny, firsts, firsts, List.map_map]
  apply List.map_congr_left
  intro k hk
  exact przesunWDol_kolumna hn (List.mem_range.mp hk)

end Falling

/-! ## The columns -/

section Closing

variable {n m k p j i : Nat} {a b : Plansza}

private theorem noweK_bounds (h : k ≤ m - 1) (w : Nat) :
    k ≤ noweK m a w k ∧ noweK m a w k ≤ m - 1 := by
  fun_induction noweK m a w k with
  | case1 k hk ih =>
      have hbounds := ih (by omega)
      omega
  | case2 k hk => omega

private theorem noweK_puste {w : Nat} (hlo : k < p) (hhi : p ≤ noweK m a w k) : a w p = puste := by
  fun_induction noweK m a w k with
  | case1 k hk ih =>
      by_cases hp : p = k + 1
      · rw [hp]
        exact hk.2
      · exact ih (by omega) hhi
  | case2 k hk => omega

private theorem noweK_klocek {w : Nat} (hk : k ≤ m - 1) (h : noweK m a w k ≠ m - 1) :
    a w (noweK m a w k + 1) ≠ puste := by
  fun_induction noweK m a w k with
  | case1 k hk' ih => exact ih (by omega) h
  | case2 k hstop =>
      intro hempty
      exact hstop ⟨by omega, hempty⟩

def pusta (n : Nat) : List Char := List.replicate n puste

/-- A column is empty when its bottom is. -/
def Opadle (n m : Nat) (a : Plansza) : Prop :=
  ∀ k < m, a (n - 1) k = puste → kolumna n a k = pusta n

private theorem bottom_of_pusta (hn : 1 ≤ n) (h : kolumna n a k = pusta n) :
    a (n - 1) k = puste := by
  have hmem : a (n - 1) k ∈ kolumna n a k :=
    List.mem_map.mpr ⟨n - 1, List.mem_range.mpr (by omega), rfl⟩
  rw [h] at hmem
  exact List.eq_of_mem_replicate hmem

private theorem opadle_przesunWDol (hn : 1 ≤ n) : Opadle n m (przesunWDol n m a) := by
  intro k hk hempty
  have hcolumn := przesunWDol_kolumna (a := a) hn hk
  have hlast : (kolumna n (przesunWDol n m a) k).getLast? = some puste := by
    obtain ⟨n, rfl⟩ : ∃ n', n = n' + 1 := ⟨n - 1, by omega⟩
    rw [Nat.add_sub_cancel] at hempty
    simp [kolumna, firsts, List.range_succ, hempty]
  have hsolid : solid puste (kolumna n a k) = [] := by
    -- the bottom is the last of the blocks that have fallen
    by_contra hne
    rw [hcolumn, toBack, List.getLast?_append_of_ne_nil _ hne] at hlast
    have hmem := List.mem_of_getLast? hlast
    simp [solid] at hmem
  rw [hcolumn]
  apply List.eq_replicate_iff.mpr
  constructor
  · rw [← hcolumn]
    simp [kolumna, firsts]
  · simp [toBack, hsolid]

/-- The columns before `t` have no gap before them, and nothing is lost. -/
structure Zsuwa (n m t : Nat) (a b : Plansza) : Prop where
  columns : solid (pusta n) (kolumny n m b) = solid (pusta n) (kolumny n m a)
  closed : ∀ p q, p < q → q < m → p < t → kolumna n b p = pusta n → kolumna n b q = pusta n
  fallen : Opadle n m b
  others : ∀ i j, n ≤ i ∨ m ≤ j → b i j = a i j

/-- One round of `przesun_w_lewo` -/
theorem Zsuwa.round {t : Nat} (hn : 1 ≤ n) (ht : t < m - 1) (h : Zsuwa n m t a b) :
    let nowe := noweK m b (n - 1) t
    Zsuwa n m (t + 1) a
      (if b (n - 1) t = puste ∧ nowe ≠ m - 1 then zamienKolumny n b t (nowe + 1) else b) := by
  intro nowe
  obtain ⟨hlo, hhi⟩ : t ≤ nowe ∧ nowe ≤ m - 1 := noweK_bounds (by omega) (n - 1)
  split
  next hswap =>
    have hgap : kolumna n b t = pusta n := h.fallen t (by omega) hswap.1
    have hblock : kolumna n b (nowe + 1) ≠ pusta n := by
      intro hpusta
      exact noweK_klocek (by omega) hswap.2 (bottom_of_pusta hn hpusta)
    have hcol : ∀ j, kolumna n (zamienKolumny n b t (nowe + 1)) j =
        if j = nowe + 1 then kolumna n b t else if j = t then kolumna n b (nowe + 1)
          else kolumna n b j := fun j => zamienKolumny_kolumna
    refine ⟨?_, ?_, ?_, ?_⟩
    · rw [← h.columns]
      apply solid_exchange (i := t) (j := nowe + 1) (by omega) (by omega) (.inl hgap)
      · intro p hp hp'
        exact h.fallen p (by omega) (noweK_puste (w := n - 1) hp (by change p ≤ nowe; omega))
      · rw [hcol, if_neg (by omega), if_pos rfl]
      · rw [hcol, if_pos rfl]
      · intro p hp hp'
        rw [hcol, if_neg hp', if_neg hp]
    · intro p q hpq hq hpt hgap'
      by_cases hp : p = t
      · subst hp
        rw [hcol, if_neg (by omega), if_pos rfl] at hgap'
        exact absurd hgap' hblock
      · -- a gap before `t` would have no block after it
        rw [hcol, if_neg (by omega), if_neg hp] at hgap'
        exact absurd (h.closed p (nowe + 1) (by omega) (by omega) (by omega) hgap') hblock
    · intro j hj hempty
      rw [zamienKolumny_apply] at hempty
      rw [hcol]
      split
      next => exact hgap
      next hj' =>
        rw [if_neg (by omega)] at hempty
        split
        next hjt =>
          rw [if_pos ⟨by omega, hjt⟩] at hempty
          exact h.fallen _ (by omega) hempty
        next hjt =>
          rw [if_neg (by omega)] at hempty
          exact h.fallen j hj hempty
    · intro i j hij
      rw [zamienKolumny_apply, if_neg (by omega), if_neg (by omega)]
      exact h.others i j hij
  next hswap =>
    refine ⟨h.columns, fun p q hpq hq hpt hgap => ?_, h.fallen, h.others⟩
    by_cases hp : p = t
    · subst hp
      have hnowe : nowe = m - 1 := by
        by_contra hne
        exact hswap ⟨bottom_of_pusta hn hgap, hne⟩
      exact h.fallen q hq (noweK_puste hpq (by change q ≤ nowe; omega))
    · exact h.closed p q hpq hq (by omega) hgap

private theorem zsuwa_przesunWLewo (hn : 1 ≤ n) (h : Opadle n m a) :
    Zsuwa n m (m - 1) a (przesunWLewo n m a) := by
  have hrun : ∀ t ≤ m - 1, Zsuwa n m t a ((List.range t).foldl
      (fun a k =>
        let nowe := noweK m a (n - 1) k
        if a (n - 1) k = puste ∧ nowe ≠ m - 1 then zamienKolumny n a k (nowe + 1) else a) a) := by
    intro t ht
    induction t with
    | zero => exact ⟨rfl, fun _ _ _ _ hlt => absurd hlt (Nat.not_lt_zero _), h, fun _ _ _ => rfl⟩
    | succ t ih =>
        rw [List.range_succ, List.foldl_concat]
        exact (ih (by omega)).round hn (by omega)
  exact hrun (m - 1) le_rfl

end Closing

/-- The blocks of each column fall to the bottom and the columns with a block move to the left,
in their order. -/
theorem porzadkujPlansze_eq (n m : Nat) (a : Plansza) (hn : 1 ≤ n) :
    kolumny n m (porzadkujPlansze n m a) =
        toFront (pusta n) ((kolumny n m a).map (toBack puste)) ∧
      ∀ i j, n ≤ i ∨ m ≤ j → porzadkujPlansze n m a i j = a i j := by
  have h := zsuwa_przesunWLewo (m := m) hn (opadle_przesunWDol hn : Opadle n m (przesunWDol n m a))
  constructor
  · rw [← przesunWDol_kolumny hn]
    apply firsts_eq_toFront
    · simp [kolumny, firsts]
    · exact h.columns
    · intro p q hpq hq
      exact h.closed p q hpq hq (by omega)
  · intro i j hij
    exact (h.others i j hij).trans (przesunWDol_others hn hij)

/-- A board with gaps in its first and its last column, and an empty column between them. -/
def szczeliny : Plansza := fun w k =>
  ([['a', '.', 'c'], ['.', '.', '.'], ['b', '.', '.']].getD w []).getD k puste

theorem porzadkujPlansze_eq_szczeliny : kolumny 3 3 (porzadkujPlansze 3 3 szczeliny) =
      [['.', 'a', 'b'], ['.', '.', 'c'], ['.', '.', '.']] ∧
    ∀ i j, 3 ≤ i ∨ 3 ≤ j → porzadkujPlansze 3 3 szczeliny i j = szczeliny i j := by
  have hspec := porzadkujPlansze_eq 3 3 szczeliny (by decide)
  exact ⟨hspec.1.trans (by decide), hspec.2⟩

end Mimuw.SameGame
