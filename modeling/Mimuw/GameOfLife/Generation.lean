import Mathlib
import Mimuw.GameOfLife.Dump

/-!
# The next generation

The walk along the list appends the dead neighbours of the living cells and removes those
that stay dead.  It gets to the appended records only if there is one when it passes the
last living cell, which is so unless that cell is the only one.
-/

namespace Mimuw.GameOfLife

/-! ## The grid -/

def sasiedztwo (p : Int × Int) : Set (Int × Int) :=
  {q | q ≠ p ∧ (p.1 - 1 ≤ q.1 ∧ q.1 ≤ p.1 + 1) ∧ p.2 - 1 ≤ q.2 ∧ q.2 ≤ p.2 + 1}

noncomputable def liczbaSasiadow (zywe : Set (Int × Int)) (p : Int × Int) : Nat :=
  (sasiedztwo p ∩ zywe).ncard

/-- A living cell lives on with two or three living neighbours, and a dead one comes to life
with three. -/
def nastepne (zywe : Set (Int × Int)) : Set (Int × Int) :=
  {p | p ∈ zywe ∧ (liczbaSasiadow zywe p = 2 ∨ liczbaSasiadow zywe p = 3) ∨
    p ∉ zywe ∧ liczbaSasiadow zywe p = 3}

/-- What the walk makes of the cells: a lone one is replaced by its neighbours. -/
def krok (zywe : Set (Int × Int)) : Set (Int × Int) :=
  {p | (∃ q, zywe = {q} ∧ p ∈ sasiedztwo q) ∨ (∀ q, zywe ≠ {q}) ∧ p ∈ nastepne zywe}

private theorem krok_lone (q : Int × Int) : krok {q} = sasiedztwo q := by
  ext p
  simp [krok]

private theorem krok_eq {zywe : Set (Int × Int)} (h : ∀ q, zywe ≠ {q}) :
    krok zywe = nastepne zywe := by
  ext p
  simp [krok, h]

private theorem nastepne_lone (q : Int × Int) : nastepne {q} = ∅ := by
  have hfew (p : Int × Int) : liczbaSasiadow {q} p ≤ 1 :=
    (Set.ncard_le_ncard Set.inter_subset_right).trans (Set.ncard_singleton q).le
  refine Set.eq_empty_of_forall_notMem fun p hp => ?_
  have hp : _ ∨ _ := hp
  have hle := hfew p
  omega

private theorem krok_eq_nastepne_iff {zywe : Set (Int × Int)} :
    krok zywe = nastepne zywe ↔ ∀ q, zywe ≠ {q} := by
  refine ⟨?_, krok_eq⟩
  rintro h q rfl
  rw [krok_lone, nastepne_lone] at h
  have hbelow : (q.1 + 1, q.2) ∈ sasiedztwo q := by
    simp only [sasiedztwo, Set.mem_ofPred_eq, ne_eq, Prod.ext_iff]
    omega
  rw [h] at hbelow
  exact hbelow

private theorem sasiedztwo_comm {p q : Int × Int} : p ∈ sasiedztwo q ↔ q ∈ sasiedztwo p := by
  simp only [sasiedztwo, Set.mem_ofPred_eq, ne_eq, eq_comm (a := p)]
  constructor <;> rintro ⟨h, hrow, hcolumn⟩ <;> exact ⟨h, by omega, by omega⟩

/-! ## Records and cells -/

def Komorka.miejsce (c : Komorka) : Int × Int := (c.nrWiersza, c.nrKolumny)

def zywe (l : Lista) : Set (Int × Int) := {p | p ∈ l.map Komorka.miejsce}

/-- What the turns of a living cell and of its neighbours compute is in the range of `int`. -/
def Swobodna (p : Int × Int) : Prop :=
  (wZakresie (p.1 - 2) ∧ wZakresie (p.1 + 2)) ∧ wZakresie (p.2 - 2) ∧ wZakresie (p.2 + 2)

private theorem Swobodna.zywa {c : Komorka} (h : Swobodna c.miejsce) : Przejscie.miesciSie c 2 := by
  simp only [Swobodna, Komorka.miejsce, Przejscie.miesciSie, wZakresie] at h ⊢
  omega

theorem Swobodna.martwa {c d : Komorka} (h : Swobodna c.miejsce)
    (hd : c.miejsce ∈ sasiedztwo d.miejsce) : Przejscie.miesciSie d 1 := by
  simp only [Swobodna, Komorka.miejsce, Przejscie.miesciSie, wZakresie, sasiedztwo,
    Set.mem_ofPred_eq] at h hd ⊢
  omega

/-- The records of a generation: one for each living cell. -/
structure Pokolenie (l : Lista) : Prop where
  rozne : (l.map Komorka.miejsce).Nodup
  nieujemne : ∀ c ∈ l, 0 ≤ c.zywiSasiedzi

section Records

variable {l A B : Lista} {c : Komorka} {p : Int × Int} {i j : Int}

private theorem wMiejscu_iff : c.wMiejscu i j = true ↔ c.miejsce = (i, j) := by
  simp [Komorka.wMiejscu, Komorka.miejsce]

private theorem wMiejscu_swoim : c.wMiejscu c.nrWiersza c.nrKolumny = true := wMiejscu_iff.mpr rfl

private theorem sprawdzajCzyWLiscie_iff :
    sprawdzajCzyWLiscie l i j = true ↔ (i, j) ∈ l.map Komorka.miejsce := by
  simp [sprawdzajCzyWLiscie, wMiejscu_iff]

private theorem sasiaduje_iff : c.sasiaduje i j = true ↔ c.miejsce ∈ sasiedztwo (i, j) := by
  simp only [Komorka.sasiaduje, Komorka.wMiejscu, Komorka.miejsce, sasiedztwo, Set.mem_ofPred_eq,
    Bool.or_eq_true, Bool.and_eq_true, decide_eq_true_eq, ne_eq, Prod.mk.injEq]
  omega

private theorem liczbaSasiadow_zywe (h : (l.map Komorka.miejsce).Nodup) (i j : Int) :
    liczbaSasiadow (zywe l) (i, j) = l.countP (·.sasiaduje i j) := by
  classical
  have hset : sasiedztwo (i, j) ∩ zywe l =
      ↑((l.filter (·.sasiaduje i j)).map Komorka.miejsce).toFinset := by
    ext p
    simp only [zywe, Set.mem_inter_iff, Set.mem_ofPred_eq, List.coe_toFinset, List.mem_map,
      List.mem_filter, sasiaduje_iff]
    constructor
    · rintro ⟨hp, c, hc, rfl⟩
      exact ⟨c, ⟨hc, hp⟩, rfl⟩
    · rintro ⟨c, ⟨hc, hp⟩, rfl⟩
      exact ⟨hp, c, hc, rfl⟩
  have hnodup : ((l.filter (·.sasiaduje i j)).map Komorka.miejsce).Nodup :=
    h.sublist (List.filter_sublist.map _)
  rw [liczbaSasiadow, hset, Set.ncard_coe_finset, List.toFinset_card_of_nodup hnodup,
    List.length_map, List.countP_eq_length_filter]

private theorem wMiejscu_other (h : ((A ++ c :: B).map Komorka.miejsce).Nodup) {d : Komorka}
    (hd : d ∈ A ∨ d ∈ B) : d.wMiejscu c.nrWiersza c.nrKolumny = false := by
  rw [Bool.eq_false_iff, ne_eq, wMiejscu_iff]
  intro heq
  have heq : d.miejsce = c.miejsce := heq
  rw [List.map_append, List.map_cons, List.nodup_append, List.nodup_cons] at h
  rcases hd with hd | hd
  · exact h.2.2 _ (List.mem_map_of_mem hd) _ List.mem_cons_self heq
  · exact h.2.1.1 (heq ▸ List.mem_map_of_mem hd)

private theorem sprawdzCzyMartwa_eq (h : ((A ++ c :: B).map Komorka.miejsce).Nodup) :
    sprawdzCzyMartwa (A ++ c :: B) c.nrWiersza c.nrKolumny = c.zywiSasiedzi := by
  have hB (n : Int) : ∀ D ⊆ B, D.foldl (fun czyMartwa d =>
      if d.wMiejscu c.nrWiersza c.nrKolumny then d.zywiSasiedzi else czyMartwa) n = n := by
    intro D hD
    induction D generalizing n with
    | nil => rfl
    | cons d D ih =>
        have hd := wMiejscu_other h (.inr (hD List.mem_cons_self))
        rw [List.foldl_cons, if_neg (by simp [hd])]
        exact ih n fun e he => hD (List.mem_cons_of_mem d he)
  rw [sprawdzCzyMartwa, List.foldl_append, List.foldl_cons, if_pos wMiejscu_swoim]
  exact hB _ B (List.Subset.refl B)

private theorem dodajZywychSasiadow_eq (h : ((A ++ c :: B).map Komorka.miejsce).Nodup) (n : Int) :
    dodajZywychSasiadow c.nrWiersza c.nrKolumny n (A ++ c :: B) =
      A ++ { c with zywiSasiedzi := n } :: B := by
  induction A with
  | nil => rw [List.nil_append, dodajZywychSasiadow, if_pos wMiejscu_swoim, List.nil_append]
  | cons a A ih =>
      have ha := wMiejscu_other h (.inl List.mem_cons_self)
      rw [List.cons_append, dodajZywychSasiadow, if_neg (by simp [ha]), ih, List.cons_append]
      rw [List.cons_append, List.map_cons, List.nodup_cons] at h
      exact h.2

private theorem filter_other (h : ((A ++ c :: B).map Komorka.miejsce).Nodup) {D : Lista}
    (hD : D ⊆ A ∨ D ⊆ B) : (D.filter fun d => !d.wMiejscu c.nrWiersza c.nrKolumny) = D := by
  refine List.filter_eq_self.mpr fun d hd => ?_
  rw [wMiejscu_other h (hD.imp (· hd) (· hd)), Bool.not_false]

end Records

/-! ## The walk -/

def policzona (l : Lista) (c : Komorka) : Komorka :=
  { c with zywiSasiedzi := (l.countP (·.sasiaduje c.nrWiersza c.nrKolumny) : Nat) }

/-- The appended records, after the turns of the living cells of `A`. -/
structure Martwe (l A D : Lista) : Prop where
  liczba : ∀ d ∈ D, d.zywiSasiedzi = -1
  rozne : (D.map Komorka.miejsce).Nodup
  miejsca : ∀ p, p ∈ D.map Komorka.miejsce ↔
    p ∉ l.map Komorka.miejsce ∧ ∃ c ∈ A, c.miejsce ∈ sasiedztwo p

section Walk

open Przejscie

variable {l A B D E : Lista} {c : Komorka}

private theorem map_policzona (A : Lista) :
    (A.map (policzona l)).map Komorka.miejsce = A.map Komorka.miejsce := by
  rw [List.map_map]
  rfl

/-- Dead cells are not counted, and living ones are whether they have been counted or not. -/
private theorem zliczanie_eq (hl : l = A ++ B) (hB : ∀ b ∈ B, 0 ≤ b.zywiSasiedzi)
    (hD : ∀ d ∈ D, d.zywiSasiedzi = -1) {s : Lista} (hs : s.Perm (A.map (policzona l) ++ B ++ D))
    (i j : Int) : zliczanieZywychSasiadow s i j = l.countP (·.sasiaduje i j) := by
  have hdead : D.countP (fun c => c.sasiaduje i j && c.zywiSasiedzi ≠ -1) = 0 :=
    List.countP_eq_zero.mpr fun d hd => by simp [hD d hd]
  have hrest : B.countP (fun c => c.sasiaduje i j && c.zywiSasiedzi ≠ -1) =
      B.countP (·.sasiaduje i j) := by
    refine List.countP_congr fun b hb => ?_
    have hb := hB b hb
    simp [show b.zywiSasiedzi ≠ -1 by omega]
  have hdone : (A.map (policzona l)).countP
      (fun c => c.sasiaduje i j && c.zywiSasiedzi ≠ -1) = A.countP (·.sasiaduje i j) := by
    rw [List.countP_map]
    refine List.countP_congr fun a _ => ?_
    have ha : (policzona l a).zywiSasiedzi ≠ -1 := by
      simp only [policzona]
      omega
    simp only [Function.comp_apply, ha, ne_eq, not_false_eq_true, decide_true, Bool.and_true]
    exact Iff.rfl
  rw [zliczanieZywychSasiadow, hs.countP_eq, List.countP_append, List.countP_append, hdone, hrest,
    hdead, hl, List.countP_append, Nat.add_zero]

private theorem mem_miejsca {i j : Int} {p : Int × Int} :
    p ∈ Przejscie.miejsca i j ↔ p = (i, j) ∨ (i, j) ∈ sasiedztwo p := by
  simp only [Przejscie.miejsca, sasiedztwo, List.mem_flatMap, List.mem_map, List.mem_range,
    Set.mem_ofPred_eq, ne_eq, Prod.ext_iff]
  constructor
  · rintro ⟨w, hw, k, hk, hrow, hcolumn⟩
    omega
  · intro h
    refine ⟨(p.1 - (i - 1)).toNat, by omega, (p.2 - (j - 1)).toNat, by omega, by omega, by omega⟩

private theorem wstawMartwe_spec (s : Przejscie) (ps : List (Int × Int)) : ∃ N : Lista,
    (s.wstawMartwe ps =
      if s.po = [] then ⟨s.przed ++ N, []⟩ else ⟨s.przed, s.po ++ N⟩) ∧
    (∀ d ∈ N, d.zywiSasiedzi = -1) ∧ (N.map Komorka.miejsce).Nodup ∧
    ∀ p, p ∈ N.map Komorka.miejsce ↔ p ∈ ps ∧ p ∉ s.lista.map Komorka.miejsce := by
  induction ps generalizing s with
  | nil =>
      refine ⟨[], ?_, by simp, by simp, by simp⟩
      rw [wstawMartwe, List.foldl_nil]
      split
      next h => rw [List.append_nil, ← h]
      next => rw [List.append_nil]
  | cons p ps ih =>
      obtain ⟨w, k⟩ := p
      have hcons : s.wstawMartwe ((w, k) :: ps) =
          (if sprawdzajCzyWLiscie s.lista w k then s else s.wstawNaKoniec w k (-1)).wstawMartwe
            ps := rfl
      rw [hcons]
      by_cases hin : sprawdzajCzyWLiscie s.lista w k = true
      · rw [if_pos hin]
        obtain ⟨N, heq, hdead, hnodup, hmem⟩ := ih s
        refine ⟨N, heq, hdead, hnodup, fun p => ?_⟩
        rw [hmem, List.mem_cons]
        refine ⟨fun ⟨hp, hnot⟩ => ⟨.inr hp, hnot⟩, fun ⟨hp, hnot⟩ => ⟨?_, hnot⟩⟩
        refine hp.resolve_left fun hwk => hnot ?_
        rw [hwk]
        exact sprawdzajCzyWLiscie_iff.mp hin
      · rw [if_neg hin]
        have hnotin : (w, k) ∉ s.lista.map Komorka.miejsce := fun h =>
          hin (sprawdzajCzyWLiscie_iff.mpr h)
        obtain ⟨N, heq, hdead, hnodup, hmem⟩ := ih (s.wstawNaKoniec w k (-1))
        have hlista : (s.wstawNaKoniec w k (-1)).lista = s.lista ++ [⟨k, w, -1⟩] := by
          unfold Przejscie.wstawNaKoniec
          split
          next hpo => simp [Przejscie.lista, GameOfLife.wstawNaKoniec, hpo]
          next => simp [Przejscie.lista, GameOfLife.wstawNaKoniec]
        have hplace : (⟨k, w, -1⟩ : Komorka).miejsce = (w, k) := rfl
        rw [hlista, List.map_append, List.map_singleton, hplace] at hmem
        refine ⟨⟨k, w, -1⟩ :: N, ?_, ?_, ?_, fun p => ?_⟩
        · rw [heq]
          by_cases hpo : s.po = []
          · simp [Przejscie.wstawNaKoniec, GameOfLife.wstawNaKoniec, hpo]
          · simp [Przejscie.wstawNaKoniec, GameOfLife.wstawNaKoniec, hpo]
        · exact List.forall_mem_cons.mpr ⟨rfl, hdead⟩
        · rw [List.map_cons, hplace, List.nodup_cons, hmem]
          exact ⟨fun h => h.2 (List.mem_append_right _ (List.mem_singleton_self _)), hnodup⟩
        · rw [List.map_cons, hplace, List.mem_cons, List.mem_cons, hmem, List.mem_append,
            List.mem_singleton]
          constructor
          · rintro (rfl | ⟨hp, hnot⟩)
            · exact ⟨.inl rfl, hnotin⟩
            · exact ⟨.inr hp, fun h => hnot (.inl h)⟩
          · rintro ⟨hp, hnot⟩
            by_cases hwk : p = (w, k)
            · exact .inl hwk
            · exact .inr ⟨hp.resolve_left hwk, fun h => h.elim hnot hwk⟩

/-! ### The living cells -/

private theorem Martwe.rozneWszystkie (h : Martwe l A D) (hl : Pokolenie l) :
    (l.map Komorka.miejsce ++ D.map Komorka.miejsce).Nodup := by
  refine List.nodup_append.mpr ⟨hl.rozne, h.rozne, fun p hp q hq heq => ?_⟩
  exact ((h.miejsca q).mp hq).1 (heq ▸ hp)

private theorem policz_zywa {X P Y : Lista}
    (hrozne : ((X ++ c :: (P ++ Y)).map Komorka.miejsce).Nodup) (hc : 0 ≤ c.zywiSasiedzi)
    (hn : zliczanieZywychSasiadow (X ++ c :: (P ++ Y)) c.nrWiersza c.nrKolumny =
      l.countP (·.sasiaduje c.nrWiersza c.nrKolumny)) :
    (⟨X ++ c :: P, Y⟩ : Przejscie).policz c.nrWiersza c.nrKolumny =
      some ⟨X ++ policzona l c :: P, Y⟩ := by
  have hlista : (⟨X ++ c :: P, Y⟩ : Przejscie).lista = X ++ c :: (P ++ Y) := by
    rw [Przejscie.lista, List.append_assoc, List.cons_append]
  have hmartwa : c.zywiSasiedzi ≠ -1 := by omega
  have hsplit : X ++ policzona l c :: (P ++ Y) = (X ++ policzona l c :: P) ++ Y := by
    rw [List.append_assoc, List.cons_append]
  have hlength : (X ++ c :: P).length = (X ++ policzona l c :: P).length := by simp
  have hdodaj : (⟨X ++ c :: P, Y⟩ : Przejscie).dodajZywychSasiadow c.nrWiersza c.nrKolumny
      (l.countP (·.sasiaduje c.nrWiersza c.nrKolumny) : Nat) =
      ⟨X ++ policzona l c :: P, Y⟩ := by
    rw [Przejscie.dodajZywychSasiadow, hlista, dodajZywychSasiadow_eq hrozne]
    change Przejscie.mk ((X ++ policzona l c :: (P ++ Y)).take (X ++ c :: P).length)
      ((X ++ policzona l c :: (P ++ Y)).drop (X ++ c :: P).length) = _
    rw [hsplit, hlength, List.take_left, List.drop_left]
  simp only [policz, hlista, hn, sprawdzCzyMartwa_eq hrozne, hmartwa, false_and, if_false,
    ne_eq, not_false_eq_true, if_true, hdodaj]

private theorem turn_zywa (hl : Pokolenie l) (heq : l = A ++ c :: B) (hc : miesciSie c 2)
    (hD : Martwe l A D) (n : Nat) :
    ∃ N, Martwe l (A ++ [c]) (D ++ N) ∧
      przejdzZywe (n + 1) ⟨A.map (policzona l), c :: (B ++ D)⟩ =
        przejdzZywe n
          (if B ++ D = [] then ⟨(A ++ [c]).map (policzona l) ++ N, []⟩
            else ⟨(A ++ [c]).map (policzona l), B ++ D ++ N⟩) := by
  have hplaces : (A.map (policzona l) ++ [c] ++ (B ++ D)).map Komorka.miejsce =
      l.map Komorka.miejsce ++ D.map Komorka.miejsce := by
    simp only [List.map_append, map_policzona, heq, List.map_cons, List.append_assoc,
      List.cons_append, List.nil_append]
  have hall := hD.rozneWszystkie hl
  obtain ⟨N, hN, hdead, hnodup, hmem⟩ := wstawMartwe_spec
    ⟨A.map (policzona l) ++ [c], B ++ D⟩ (miejsca c.nrWiersza c.nrKolumny)
  simp only [Przejscie.lista, hplaces, mem_miejsca] at hmem
  have hmartwe : Martwe l (A ++ [c]) (D ++ N) := by
    refine ⟨fun d hd => (List.mem_append.mp hd).elim (hD.liczba d) (hdead d), ?_, fun p => ?_⟩
    · rw [List.map_append]
      refine List.nodup_append.mpr ⟨hD.rozne, hnodup, fun p hp q hq hpq => ?_⟩
      exact ((hmem q).mp hq).2 (List.mem_append_right _ (hpq ▸ hp))
    · have hc : c.miejsce ∈ l.map Komorka.miejsce := by simp [heq]
      have hmore : (∃ a ∈ A ++ [c], a.miejsce ∈ sasiedztwo p) ↔
          (∃ a ∈ A, a.miejsce ∈ sasiedztwo p) ∨ c.miejsce ∈ sasiedztwo p := by
        simp only [List.mem_append, List.mem_singleton, or_and_right, exists_or, exists_eq_left]
      rw [List.map_append, List.mem_append, hmem, List.mem_append, hD.miejsca, hmore]
      constructor
      · rintro (⟨hp, hA⟩ | ⟨hpc | hpc, hnot⟩)
        · exact ⟨hp, .inl hA⟩
        · exact absurd (.inl (show p ∈ l.map Komorka.miejsce from hpc ▸ hc)) hnot
        · exact ⟨fun hp => hnot (.inl hp), .inr hpc⟩
      · rintro ⟨hp, hA | hpc⟩
        · exact .inl ⟨hp, hA⟩
        · by_cases hA : ∃ a ∈ A, a.miejsce ∈ sasiedztwo p
          · exact .inl ⟨hp, hA⟩
          · exact .inr ⟨.inr hpc, fun h => h.elim hp fun h => hA h.2⟩
  -- the record of the cell stands in the middle of the list
  have hrozne : ((A.map (policzona l) ++ c :: (B ++ D ++ N)).map Komorka.miejsce).Nodup := by
    have hwhole := hmartwe.rozneWszystkie hl
    have hplaces' : (A.map (policzona l) ++ c :: (B ++ D ++ N)).map Komorka.miejsce =
        l.map Komorka.miejsce ++ (D ++ N).map Komorka.miejsce := by
      simp only [List.map_append, map_policzona, heq, List.map_cons, List.append_assoc,
        List.cons_append]
    rwa [hplaces']
  have hcount : zliczanieZywychSasiadow (A.map (policzona l) ++ c :: (B ++ D ++ N)) c.nrWiersza
      c.nrKolumny = l.countP (·.sasiaduje c.nrWiersza c.nrKolumny) := by
    refine zliczanie_eq heq (fun b hb => hl.nieujemne b ?_) hmartwe.liczba ?_ _ _
    · exact heq ▸ List.mem_append_right A hb
    · simp only [List.append_assoc, List.cons_append]
      exact List.Perm.refl _
  have hliczba : 0 ≤ c.zywiSasiedzi := hl.nieujemne c (by simp [heq])
  have hmap : (A ++ [c]).map (policzona l) = A.map (policzona l) ++ [policzona l c] := by simp
  refine ⟨N, hmartwe, ?_⟩
  rw [przejdzZywe]
  simp only [hc, if_true, hN]
  by_cases hlast : B ++ D = []
  · rw [hlast, List.nil_append] at hrozne hcount
    rw [if_pos hlast, if_pos hlast, List.append_assoc, List.singleton_append,
      policz_zywa (l := l) (by simpa using hrozne) hliczba (by simpa using hcount), hmap,
      List.append_assoc]
    rfl
  · have hturn := policz_zywa (P := []) (Y := B ++ D ++ N) hrozne hliczba hcount
    rw [if_neg hlast, if_neg hlast, hmap]
    exact congrArg (· >>= przejdzZywe n) hturn

/-- There is a dead cell at the side of the first living ones, unless there is none of these. -/
private theorem sasiad_martwy (hl : Pokolenie l) (heq : l = A ++ [c]) (hA : A ≠ []) :
    ∃ p, p ∉ l.map Komorka.miejsce ∧ ∃ a ∈ A, a.miejsce ∈ sasiedztwo p := by
  have hne : l.toFinset.Nonempty := ⟨c, by simp [heq]⟩
  obtain ⟨M, hM, hmax⟩ := l.toFinset.exists_max_image polozenie hne
  obtain ⟨m, hm, hmin⟩ := l.toFinset.exists_min_image polozenie hne
  simp only [List.mem_toFinset, polozenie, Prod.Lex.toLex_le_toLex] at hM hm hmax hmin
  have hout {d : Komorka} {p : Int × Int} (hd : d ∈ A) (hp : p ≠ d.miejsce)
      (hrow : d.nrWiersza - 1 ≤ p.1 ∧ p.1 ≤ d.nrWiersza + 1) (hcolumn : p.2 = d.nrKolumny)
      (hnot : ∀ e ∈ l, e.miejsce ≠ p) :
      ∃ p, p ∉ l.map Komorka.miejsce ∧ ∃ a ∈ A, a.miejsce ∈ sasiedztwo p := by
    refine ⟨p, fun h => ?_, d, hd, hp.symm, ?_, ?_⟩
    · obtain ⟨e, he, hep⟩ := List.mem_map.mp h
      exact hnot e he hep
    · simp only [Komorka.miejsce]
      omega
    · simp only [Komorka.miejsce]
      omega
  by_cases hMA : M ∈ A
  · refine hout (p := (M.nrWiersza + 1, M.nrKolumny)) hMA ?_ (by simp only; omega) rfl ?_
    · simp [Komorka.miejsce]
    · intro e he hep
      have hrow : e.nrWiersza = M.nrWiersza + 1 := congrArg Prod.fst hep
      have hle := hmax e he
      omega
  by_cases hmA : m ∈ A
  · refine hout (p := (m.nrWiersza - 1, m.nrKolumny)) hmA ?_ (by simp only; omega) rfl ?_
    · simp only [Komorka.miejsce, ne_eq, Prod.mk.injEq]
      omega
    · intro e he hep
      have hrow : e.nrWiersza = m.nrWiersza - 1 := congrArg Prod.fst hep
      have hle := hmin e he
      omega
  -- the first and the last cell are the same, so all of them are
  have hlast {d : Komorka} (hd : d ∈ l) (hnot : d ∉ A) : d = c := by simpa [heq, hnot] using hd
  obtain ⟨a, ha⟩ := List.exists_mem_of_ne_nil A hA
  have hal : a ∈ l := by simp [heq, ha]
  have hle := hmax a hal
  have hge := hmin a hal
  rw [hlast hM hMA] at hle
  rw [hlast hm hmA] at hge
  have hsame : a.miejsce = c.miejsce := Prod.ext (by simp only [Komorka.miejsce]; omega)
    (by simp only [Komorka.miejsce]; omega)
  have hrozne := hl.rozne
  rw [heq, List.map_append, List.nodup_append] at hrozne
  exact absurd hsame (hrozne.2.2 _ (List.mem_map_of_mem ha) _ (by simp))

private theorem przejdzZywe_spec (hl : Pokolenie l) (hroom : ∀ p ∈ zywe l, Swobodna p)
    (hlength : l.length ≠ 1) (heq : l = A ++ B) (hD : Martwe l A D) : ∃ D', Martwe l l D' ∧
      przejdzZywe B.length ⟨A.map (policzona l), B ++ D⟩ =
        some ⟨l.map (policzona l), D'⟩ := by
  induction B generalizing A D with
  | nil =>
      obtain rfl : l = A := by simpa using heq
      exact ⟨D, hD, rfl⟩
  | cons c B ih =>
      have hc := (hroom c.miejsce (List.mem_map_of_mem (by simp [heq]))).zywa
      obtain ⟨N, hmartwe, hturn⟩ := turn_zywa hl heq hc hD B.length
      have hgoes : B ++ D ≠ [] := by
        intro hnil
        obtain ⟨rfl, rfl⟩ := List.append_eq_nil_iff.mp hnil
        have hA : A ≠ [] := by
          rintro rfl
          simp [heq] at hlength
        obtain ⟨p, hp⟩ := sasiad_martwy hl heq hA
        exact List.not_mem_nil ((hD.miejsca p).mpr hp)
      rw [List.length_cons, List.cons_append, hturn, if_neg hgoes, List.append_assoc]
      exact ih (by simp [heq]) hmartwe

/-! ### The dead cells -/

def ozywa (l : Lista) (d : Komorka) : Bool := l.countP (·.sasiaduje d.nrWiersza d.nrKolumny) = 3

private theorem przejdzMartwe_spec (hdead : ∀ d ∈ E ++ D, d.zywiSasiedzi = -1)
    (hroom : ∀ d ∈ D, miesciSie d 1)
    (hall : (l.map Komorka.miejsce ++ (E ++ D).map Komorka.miejsce).Nodup) :
    przejdzMartwe D.length ⟨l.map (policzona l) ++ E, D⟩ =
      some ⟨l.map (policzona l) ++ E ++ D.filter (ozywa l), []⟩ := by
  induction D generalizing E with
  | nil => simp [przejdzMartwe]
  | cons d D ih =>
      have hrozne :
          ((l.map (policzona l) ++ E ++ d :: D).map Komorka.miejsce).Nodup := by
        have hplaces : (l.map (policzona l) ++ E ++ d :: D).map Komorka.miejsce =
            l.map Komorka.miejsce ++ (E ++ d :: D).map Komorka.miejsce := by
          simp only [List.map_append, map_policzona, List.append_assoc]
        rwa [hplaces]
      have hcount : zliczanieZywychSasiadow (l.map (policzona l) ++ E ++ d :: D) d.nrWiersza
          d.nrKolumny = l.countP (·.sasiaduje d.nrWiersza d.nrKolumny) := by
        refine zliczanie_eq (A := l) (B := []) (D := E ++ d :: D) (by simp) (by simp) hdead ?_ _ _
        rw [List.append_nil, List.append_assoc]
      have hd : d.zywiSasiedzi = -1 := hdead d (by simp)
      have hlista : (⟨l.map (policzona l) ++ E ++ [d], D⟩ : Przejscie).lista =
          l.map (policzona l) ++ E ++ d :: D := by simp [Przejscie.lista]
      have hrest : ∀ e ∈ D, miesciSie e 1 := fun e he => hroom e (List.mem_cons_of_mem d he)
      rw [List.length_cons, przejdzMartwe]
      simp only [hroom d List.mem_cons_self, if_true, policz, hlista, hcount,
        sprawdzCzyMartwa_eq hrozne, hd, ne_eq, not_true_eq_false, if_false, true_and]
      by_cases hthree : l.countP (·.sasiaduje d.nrWiersza d.nrKolumny) = 3
      · have hlives : ozywa l d = true := by simp [ozywa, hthree]
        have hwalk := ih (E := E ++ [d]) (by simpa using hdead) hrest (by simpa using hall)
        rw [← List.append_assoc] at hwalk
        rw [if_neg (by simp [hthree]), List.filter_cons_of_pos hlives]
        simp only [Option.bind_eq_bind, Option.bind_some]
        rw [hwalk, List.append_assoc _ [d], List.singleton_append]
      · have hstays : ¬ ozywa l d = true := by simp [ozywa, hthree]
        have hhead : D.head?.any (·.wMiejscu d.nrWiersza d.nrKolumny) = false := by
          cases D with
          | nil => rfl
          | cons e D => exact wMiejscu_other hrozne (.inr List.mem_cons_self)
        have hfree : (⟨l.map (policzona l) ++ E ++ [d], D⟩ : Przejscie).usunWszystkieWskazane
            d.nrWiersza d.nrKolumny = some ⟨l.map (policzona l) ++ E, D⟩ := by
          rw [usunWszystkieWskazane, if_neg (by simp [hhead]), List.filter_append,
            filter_other hrozne (.inl (List.Subset.refl _)),
            filter_other hrozne (.inr (List.Subset.refl _)), List.filter_cons_of_neg,
            List.filter_nil, List.append_nil]
          simp [wMiejscu_swoim]
        have hfewer : (E ++ D).Sublist (E ++ d :: D) :=
          (List.Sublist.refl E).append (List.sublist_cons_self d D)
        rw [if_pos hthree, hfree, List.filter_cons_of_neg hstays]
        simp only [Option.bind_eq_bind, Option.bind_some]
        exact ih (fun e he => hdead e (hfewer.subset he)) hrest
          (hall.sublist ((List.Sublist.refl _).append (hfewer.map _)))

end Walk

/-! ## A generation -/

section Generation

variable {l : Lista} {c : Komorka}

private theorem usunZyweKomorki_sublist (l : Lista) :
    ((usunZyweKomorki l).map Komorka.miejsce).Sublist (l.map Komorka.miejsce) := by
  induction l with
  | nil => exact List.Sublist.refl _
  | cons c l ih =>
      rw [usunZyweKomorki]
      split_ifs
      · exact ih.cons _
      · exact ih.cons_cons _
      · exact ih.cons_cons _

private theorem usunZyweKomorki_nieujemne (l : Lista) :
    ∀ c ∈ usunZyweKomorki l, 0 ≤ c.zywiSasiedzi := by
  induction l with
  | nil => exact List.forall_mem_nil _
  | cons c l ih =>
      rw [usunZyweKomorki]
      split_ifs with hgoes hdead
      · exact ih
      · exact List.forall_mem_cons.mpr ⟨show (0 : Int) ≤ 3 by decide, ih⟩
      · exact List.forall_mem_cons.mpr ⟨by omega, ih⟩

private theorem mem_usunZyweKomorki {p : Int × Int} : p ∈ (usunZyweKomorki l).map Komorka.miejsce ↔
    ∃ c ∈ l, c.miejsce = p ∧
      (c.zywiSasiedzi = -1 ∨ c.zywiSasiedzi = 2 ∨ c.zywiSasiedzi = 3) := by
  induction l with
  | nil => simp [usunZyweKomorki]
  | cons c l ih =>
      rw [usunZyweKomorki]
      simp only [List.exists_mem_cons_iff]
      split_ifs with hgoes hdead
      · rw [ih]
        refine ⟨.inr, fun h => ?_⟩
        obtain ⟨-, hc⟩ | h := h
        · omega
        · exact h
      · rw [List.map_cons, List.mem_cons, ih]
        exact or_congr_left ⟨fun h => ⟨h.symm, .inl hdead⟩, fun h => h.1.symm⟩
      · rw [List.map_cons, List.mem_cons, ih]
        exact or_congr_left ⟨fun h => ⟨h.symm, by omega⟩, fun h => h.1.symm⟩

private theorem zywe_usunZyweKomorki {D : Lista} (hl : Pokolenie l) (hD : Martwe l l D) :
    zywe (usunZyweKomorki (l.map (policzona l) ++ D.filter (ozywa l))) = nastepne (zywe l) := by
  have hcount (c : Komorka) : liczbaSasiadow (zywe l) c.miejsce =
      l.countP (·.sasiaduje c.nrWiersza c.nrKolumny) := liczbaSasiadow_zywe hl.rozne _ _
  ext p
  rw [zywe, Set.mem_ofPred_eq, mem_usunZyweKomorki]
  simp only [List.mem_append, List.mem_map, List.mem_filter, nastepne, Set.mem_ofPred_eq]
  constructor
  · rintro ⟨c, ⟨a, ha, rfl⟩ | ⟨hc, hlives⟩, rfl, hnumber⟩
    · left
      have hplace : (policzona l a).miejsce = a.miejsce := rfl
      have hnumber' : ((l.countP (·.sasiaduje a.nrWiersza a.nrKolumny) : Nat) : Int) = -1 ∨
          ((l.countP (·.sasiaduje a.nrWiersza a.nrKolumny) : Nat) : Int) = 2 ∨
          ((l.countP (·.sasiaduje a.nrWiersza a.nrKolumny) : Nat) : Int) = 3 := hnumber
      rw [hplace, hcount]
      exact ⟨List.mem_map_of_mem ha, by omega⟩
    · right
      rw [hcount]
      exact ⟨((hD.miejsca c.miejsce).mp (List.mem_map_of_mem hc)).1, by simpa [ozywa] using hlives⟩
  · rintro (⟨hp, hnumber⟩ | ⟨hp, hnumber⟩)
    · obtain ⟨a, ha, rfl⟩ := List.mem_map.mp hp
      rw [hcount] at hnumber
      refine ⟨policzona l a, .inl ⟨a, ha, rfl⟩, rfl, .inr ?_⟩
      change ((l.countP (·.sasiaduje a.nrWiersza a.nrKolumny) : Nat) : Int) = 2 ∨
        ((l.countP (·.sasiaduje a.nrWiersza a.nrKolumny) : Nat) : Int) = 3
      omega
    · -- a cell with three living neighbours is at the side of one of them
      obtain ⟨q, hq⟩ := Set.nonempty_of_ncard_ne_zero
        (show (sasiedztwo p ∩ zywe l).ncard ≠ 0 by rw [liczbaSasiadow] at hnumber; omega)
      obtain ⟨a, ha, rfl⟩ := List.mem_map.mp hq.2
      obtain ⟨d, hd, rfl⟩ := List.mem_map.mp ((hD.miejsca p).mpr ⟨hp, a, ha, hq.1⟩)
      rw [hcount] at hnumber
      exact ⟨d, .inr ⟨hd, by simp [ozywa, hnumber]⟩, rfl, .inl (hD.liczba d hd)⟩

private theorem martwe_nil (l : Lista) : Martwe l [] [] :=
  ⟨by simp, by simp, by simp⟩

private theorem nowaGeneracjaLista_many (hl : Pokolenie l) (hroom : ∀ p ∈ zywe l, Swobodna p)
    (hlength : l.length ≠ 1) :
    ∃ l', nowaGeneracjaLista l = some l' ∧ Pokolenie l' ∧ zywe l' = nastepne (zywe l) := by
  obtain ⟨D, hD, hfirst⟩ := przejdzZywe_spec hl hroom hlength rfl (martwe_nil l)
  have hdead (d : Komorka) (hd : d ∈ D) : Przejscie.miesciSie d 1 := by
    obtain ⟨-, a, ha, hnear⟩ := (hD.miejsca d.miejsce).mp (List.mem_map_of_mem hd)
    exact (hroom a.miejsce (List.mem_map_of_mem ha)).martwa hnear
  have hsecond := przejdzMartwe_spec (l := l) (E := []) (D := D) hD.liczba hdead
    (hD.rozneWszystkie hl)
  have hnext := zywe_usunZyweKomorki hl hD
  rw [List.map_nil, List.append_nil] at hfirst
  rw [List.append_nil] at hsecond
  refine ⟨_, ?_, ⟨?_, usunZyweKomorki_nieujemne _⟩, hnext⟩
  · simp only [nowaGeneracjaLista, hfirst, hsecond, Option.bind_eq_bind, Option.bind_some,
      Przejscie.lista, List.append_nil]
    rfl
  · have hrozne := hD.rozneWszystkie hl
    refine (hrozne.sublist ?_).sublist (usunZyweKomorki_sublist _)
    rw [List.map_append, map_policzona]
    exact (List.Sublist.refl _).append (List.filter_sublist.map _)

/-- The walk is at the end of the list before the neighbours of a lone cell are appended, and
no turn is left for them. -/
private theorem nowaGeneracjaLista_lone (hc : 0 ≤ c.zywiSasiedzi) (hroom : Swobodna c.miejsce) :
    ∃ l', nowaGeneracjaLista [c] = some l' ∧ Pokolenie l' ∧
      zywe l' = sasiedztwo c.miejsce := by
  have hl : Pokolenie [c] := ⟨by simp, by simpa using hc⟩
  obtain ⟨N, hN, hturn⟩ := turn_zywa (A := []) (B := []) hl rfl hroom.zywa (martwe_nil [c]) 0
  replace hN : Martwe [c] [c] N := hN
  have hwalk : nowaGeneracjaLista [c] = some (usunZyweKomorki (policzona [c] c :: N)) := by
    have hfirst : Przejscie.przejdzZywe 1 ⟨[], [c]⟩ = some ⟨policzona [c] c :: N, []⟩ := hturn
    have hlength : ([c] : Lista).length = 1 := rfl
    simp only [nowaGeneracjaLista, hlength, hfirst, Option.bind_eq_bind, Option.bind_some,
      List.length_nil, Przejscie.przejdzMartwe, Przejscie.lista, List.append_nil]
    rfl
  have hdies : (policzona [c] c).zywiSasiedzi = 0 := by
    have hself : c.sasiaduje c.nrWiersza c.nrKolumny = false := by
      rw [Bool.eq_false_iff, ne_eq, sasiaduje_iff]
      exact fun h => h.1 rfl
    simp [policzona, hself]
  have hrest : usunZyweKomorki (policzona [c] c :: N) = usunZyweKomorki N := by
    rw [usunZyweKomorki, if_pos (.inl (by omega))]
  refine ⟨_, hwalk, ⟨?_, usunZyweKomorki_nieujemne _⟩, ?_⟩
  · rw [hrest]
    exact hN.rozne.sublist (usunZyweKomorki_sublist N)
  · ext p
    rw [hrest, zywe, Set.mem_ofPred_eq, mem_usunZyweKomorki]
    have hkept : (∃ d ∈ N, d.miejsce = p ∧
        (d.zywiSasiedzi = -1 ∨ d.zywiSasiedzi = 2 ∨ d.zywiSasiedzi = 3)) ↔
        p ∈ N.map Komorka.miejsce := by
      rw [List.mem_map]
      exact exists_congr fun d => and_congr_right fun hd => and_iff_left (.inl (hN.liczba d hd))
    rw [hkept, hN.miejsca]
    simp only [List.map_cons, List.map_nil, List.mem_singleton, exists_eq_left]
    constructor
    · rintro ⟨-, hp⟩
      exact sasiedztwo_comm.mp hp
    · intro hp
      exact ⟨hp.1, sasiedztwo_comm.mp hp⟩

private theorem zywe_lone_iff (hl : Pokolenie l) : (∃ q, zywe l = {q}) ↔ l.length = 1 := by
  constructor
  · rintro ⟨q, hq⟩
    have hmem (p : Int × Int) : p ∈ l.map Komorka.miejsce ↔ p = q := by
      change p ∈ zywe l ↔ _
      rw [hq, Set.mem_singleton_iff]
    have hperm : (l.map Komorka.miejsce).Perm [q] :=
      (List.perm_ext_iff_of_nodup hl.rozne (List.nodup_singleton q)).mpr fun p => by
        rw [hmem, List.mem_singleton]
    simpa using hperm.length_eq
  · intro h
    obtain ⟨c, rfl⟩ := List.length_eq_one_iff.mp h
    exact ⟨c.miejsce, by ext p; simp [zywe]⟩

theorem krok_blisko {Z : Set (Int × Int)} {p : Int × Int} (h : p ∈ krok Z) :
    ∃ q ∈ Z, (q.1 - 1 ≤ p.1 ∧ p.1 ≤ q.1 + 1) ∧ q.2 - 1 ≤ p.2 ∧ p.2 ≤ q.2 + 1 := by
  rcases h with ⟨q, rfl, -, hnear⟩ | ⟨-, ⟨hp, -⟩ | ⟨-, hthree⟩⟩
  · exact ⟨q, Set.mem_singleton q, hnear⟩
  · exact ⟨p, hp, by omega, by omega⟩
  · obtain ⟨q, ⟨-, hrow, hcolumn⟩, hq⟩ := Set.nonempty_of_ncard_ne_zero
      (show (sasiedztwo p ∩ Z).ncard ≠ 0 by rw [liczbaSasiadow] at hthree; omega)
    exact ⟨q, hq, by omega, by omega⟩

/-- A list of distinct cells becomes one of the cells of the next generation, except when it
has one cell. -/
theorem nowaGeneracjaLista_spec (hl : Pokolenie l) (hroom : ∀ p ∈ zywe l, Swobodna p) :
    ∃ l', nowaGeneracjaLista l = some l' ∧ Pokolenie l' ∧ zywe l' = krok (zywe l) := by
  by_cases hlength : l.length = 1
  · obtain ⟨c, rfl⟩ := List.length_eq_one_iff.mp hlength
    have hlone : zywe [c] = {c.miejsce} := by
      ext p
      simp [zywe]
    rw [hlone] at hroom ⊢
    rw [krok_lone]
    exact nowaGeneracjaLista_lone (hl.nieujemne c List.mem_cons_self) (hroom _ rfl)
  · rw [krok_eq fun q hq => hlength ((zywe_lone_iff hl).mp ⟨q, hq⟩)]
    exact nowaGeneracjaLista_many hl hroom hlength

/-- The walk gives the next generation of the game exactly when there is not one cell only. -/
theorem nowaGeneracjaLista_life (l : Lista) (hl : Pokolenie l)
    (hroom : ∀ p ∈ zywe l, Swobodna p) :
    ∃ l', nowaGeneracjaLista l = some l' ∧ Pokolenie l' ∧
      (∀ p ∈ zywe l', wZakresie p.1 ∧ wZakresie p.2) ∧
      (zywe l' = nastepne (zywe l) ↔ l.length ≠ 1) := by
  obtain ⟨l', hwalk, hl', hcells⟩ := nowaGeneracjaLista_spec hl hroom
  refine ⟨l', hwalk, hl', fun p hp => ?_, ?_⟩
  · rw [hcells] at hp
    obtain ⟨q, hq, hrow, hcolumn⟩ := krok_blisko hp
    have hfree := hroom q hq
    simp only [Swobodna, wZakresie] at hfree ⊢
    omega
  · rw [hcells, krok_eq_nastepne_iff, ne_eq, ← zywe_lone_iff hl]
    exact not_exists.symm

def blinker : Lista := [⟨-1, 0, 0⟩, ⟨0, 0, 2⟩, ⟨1, 0, 0⟩]

theorem nowaGeneracjaLista_life_blinker : ∃ l',
    nowaGeneracjaLista blinker = some l' ∧ Pokolenie l' ∧
      (∀ p ∈ zywe l', wZakresie p.1 ∧ wZakresie p.2) ∧
      (zywe l' = nastepne (zywe blinker) ↔ blinker.length ≠ 1) :=
  nowaGeneracjaLista_life _ ⟨by decide, by decide⟩ fun p hp => by
    have hplace : p = (0, -1) ∨ p = (0, 0) ∨ p = (0, 1) := by
      simpa [zywe, blinker, Komorka.miejsce] using hp
    rcases hplace with rfl | rfl | rfl <;> simp [Swobodna, wZakresie]

end Generation

end Mimuw.GameOfLife
