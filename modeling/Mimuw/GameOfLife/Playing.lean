import Mathlib
import Mimuw.GameOfLife.Generation

/-!
# Playing

The program reads a generation and commands. What it writes depends on the set of the
living cells only, not on the list that holds them.
-/

namespace Mimuw.GameOfLife

/-! ## Commands and what they show -/

inductive Polecenie
  | nastepna
  | generacje (a : Int)
  | okno (a b : Int)
  deriving DecidableEq, Repr

def Polecenie.tekst : Polecenie → Str
  | nastepna => ['\n']
  | generacje a => wypisz a ++ ['\n']
  | okno a b => wypisz a ++ ' ' :: (wypisz b ++ ['\n'])

open Classical in
/-- The window whose first cell is in row `i` and column `j` -/
noncomputable def obraz (zywe : Set (Int × Int)) (i j : Int) : Tablica :=
  (List.range wiersze).map fun m : Nat =>
    (List.range kolumny).map fun n : Nat => if (i + m, j + n) ∈ zywe then '0' else '.'

open Classical in
/-- The text of a generation, which is the same for every list of its cells -/
noncomputable def zapis (zywe : Set (Int × Int)) : Str :=
  if h : ∃ l, Pokolenie l ∧ GameOfLife.zywe l = zywe then (zrzutAktualnejGeneracji h.choose).2
  else []

/-- The living cells, and the first cell of the window -/
structure Widok where
  zywe : Set (Int × Int)
  w : Int
  k : Int

namespace Widok

def wykonaj (s : Widok) : Polecenie → Widok
  | .nastepna => { s with zywe := krok s.zywe }
  | .generacje a => { s with zywe := krok^[a.toNat] s.zywe }
  | .okno a b => { s with w := a, k := b }

noncomputable def rysunek (s : Widok) : Str := drukuj (obraz s.zywe s.w s.k)

/-- The numbers that a command makes the program compute are in the range of `int`. -/
def Miesci (s : Widok) : Polecenie → Prop
  | .nastepna => ∀ p ∈ s.zywe, Swobodna p
  | .generacje a => wZakresie a ∧ ∀ m < a.toNat, ∀ p ∈ krok^[m] s.zywe, Swobodna p
  | .okno a b => (wZakresie a ∧ wZakresie (a + wiersze)) ∧ wZakresie b ∧ wZakresie (b + kolumny)

/-- So are those of the commands one after the other, and the cells in the end. -/
def MiesciSesje (s : Widok) : List Polecenie → Prop
  | [] => ∀ p ∈ s.zywe, wZakresie p.1 ∧ wZakresie p.2
  | p :: ps => s.Miesci p ∧ (s.wykonaj p).MiesciSesje ps

noncomputable def sesja (s : Widok) : List Polecenie → Str
  | [] => []
  | p :: ps =>
      (if p = .generacje 0 then zapis s.zywe else []) ++ (s.wykonaj p).rysunek ++
        (s.wykonaj p).sesja ps

end Widok

/-! ## The window -/

section Window

variable {Z : Set (Int × Int)} {i j : Int} {c : Komorka}

private theorem wypelnij_eq (i j : Int) : wypelnij = obraz ∅ i j := by
  simp only [wypelnij, obraz, Set.mem_empty_iff_false, if_false, List.map_const',
    List.length_range]

private theorem modify_map_range {α : Type} (f : Nat → α) (g : α → α) (n p : Nat) :
    ((List.range n).map f).modify p g =
      (List.range n).map fun m => if m = p then g (f m) else f m := by
  apply List.ext_getElem (by simp)
  intro m _ _
  simp only [List.getElem_modify, List.getElem_map, List.getElem_range, eq_comm (a := p)]

private theorem set_map_range {α : Type} (f : Nat → α) (a : α) (n p : Nat) :
    ((List.range n).map f).set p a = (List.range n).map fun m => if m = p then a else f m := by
  apply List.ext_getElem (by simp)
  intro m _ _
  simp only [List.getElem_set, List.getElem_map, List.getElem_range, eq_comm (a := p)]

private theorem zaznacz_obraz (hi : wZakresie (i + wiersze)) (hj : wZakresie (j + kolumny)) :
    zaznacz i j (obraz Z i j) c = some (obraz (insert c.miejsce Z) i j) := by
  have hcell (m n : Nat) : (i + (m : Int), j + (n : Int)) = c.miejsce ↔
      i + m = c.nrWiersza ∧ j + n = c.nrKolumny := by
    rw [Komorka.miejsce, Prod.mk.injEq]
  have hkept {m n : Nat} (h : ¬ (i + m = c.nrWiersza ∧ j + n = c.nrKolumny)) :
      (i + (m : Int), j + (n : Int)) ∈ insert c.miejsce Z ↔ (i + (m : Int), j + (n : Int)) ∈ Z :=
    Set.mem_insert_iff.trans (or_iff_right fun hp => h ((hcell m n).mp hp))
  have houtside (h : ∀ m < wiersze, ∀ n < kolumny, ¬ (i + m = c.nrWiersza ∧ j + n = c.nrKolumny)) :
      obraz Z i j = obraz (insert c.miejsce Z) i j := by
    refine List.map_congr_left fun m hm => List.map_congr_left fun n hn => ?_
    rw [hkept (h m (List.mem_range.mp hm) n (List.mem_range.mp hn))]
  unfold zaznacz
  rw [if_neg (not_not.mpr hi), if_neg (not_not.mpr hj)]
  split_ifs with habove hbelow hright
  · rw [houtside fun m _ n _ => by omega]
  · rw [houtside fun m hm n _ => by omega]
  · rw [houtside fun m _ n hn => by omega]
  · unfold obraz
    rw [modify_map_range]
    refine congrArg some (List.map_congr_left fun m hm => ?_)
    rw [set_map_range]
    split_ifs with hrow
    · refine List.map_congr_left fun n hn => ?_
      by_cases hcolumn : n = (c.nrKolumny - j).toNat
      · rw [if_pos hcolumn, if_pos (.inl ((hcell m n).mpr (by omega)))]
      · rw [if_neg hcolumn, hkept (by omega)]
    · refine List.map_congr_left fun n hn => ?_
      rw [hkept (by omega)]

private theorem drukowanieGeneracji_eq (l : Lista) (hi : wZakresie (i + wiersze))
    (hj : wZakresie (j + kolumny)) :
    drukowanieGeneracji l i j = some (drukuj (obraz (zywe l) i j)) := by
  have hfold (Z : Set (Int × Int)) :
      l.foldlM (zaznacz i j) (obraz Z i j) = some (obraz (Z ∪ zywe l) i j) := by
    induction l generalizing Z with
    | nil => simp [zywe]
    | cons c l ih =>
        have hcells : insert c.miejsce Z ∪ zywe l = Z ∪ zywe (c :: l) := by
          ext p
          simp only [zywe, Set.mem_union, Set.mem_insert_iff, Set.mem_ofPred_eq, List.map_cons,
            List.mem_cons]
          tauto
        rw [List.foldlM_cons, zaznacz_obraz hi hj, Option.bind_eq_bind, Option.bind_some, ih,
          hcells]
  rw [drukowanieGeneracji, wypelnij_eq i j, hfold, Set.empty_union]
  rfl

end Window

/-! ## Writing a generation -/

section Writing

variable {klucz : Komorka → Int} {warunek : Komorka → Komorka → Bool}
  {przepisz : Komorka → Komorka → Komorka} {l l' : Lista}

private theorem posortuj_zywiSasiedzi
    (h : ∀ a b, (przepisz a b).zywiSasiedzi = a.zywiSasiedzi) (l : Lista) :
    (posortuj klucz warunek przepisz l).map Komorka.zywiSasiedzi =
      l.map Komorka.zywiSasiedzi := by
  induction hn : l.length generalizing l with
  | zero =>
      obtain rfl := List.length_eq_zero_iff.mp hn
      rw [posortuj]
  | succ n ih =>
      obtain ⟨pom, nast, rfl⟩ := List.exists_cons_of_length_eq_add_one hn
      have hlength : (zamiana klucz warunek przepisz pom nast).2.length = n := by
        rw [length_zamiana]
        simpa using hn
      rw [posortuj_cons, List.map_cons, List.map_cons, h, ih _ hlength]
      congr 1
      rcases zamiana_cases klucz warunek przepisz pom nast with heq | ⟨p, z, -, -, heq⟩
      · rw [heq]
      · rw [heq]
        apply List.ext_getElem?
        intro i
        rw [List.getElem?_map, List.getElem?_map, List.getElem?_modify]
        cases nast[i]? with
        | none => rfl
        | some c => by_cases hi : p = i <;> simp [hi, h]

/-- The list as `zrzut_aktualnej_generacji` leaves it -/
def posortowana (l : Lista) : Lista := posortujListeKolumny (posortujListeWiersze l)

private theorem posortowana_perm (l : Lista) :
    ((posortowana l).map Komorka.miejsce).Perm (l.map Komorka.miejsce) :=
  (posortujListeKolumny_perm _).trans (posortujListeWiersze_perm l)

private theorem zywe_posortowana (l : Lista) : zywe (posortowana l) = zywe l := by
  ext p
  exact (posortowana_perm l).mem_iff

private theorem pokolenie_posortowana (hl : Pokolenie l) : Pokolenie (posortowana l) := by
  refine ⟨(posortowana_perm l).nodup_iff.mpr hl.rozne, fun c hc => ?_⟩
  have hsame : (posortowana l).map Komorka.zywiSasiedzi = l.map Komorka.zywiSasiedzi := by
    exact (posortuj_zywiSasiedzi (by intros; rfl) _).trans
      (posortuj_zywiSasiedzi (by intros; rfl) l)
  have hmem : c.zywiSasiedzi ∈ l.map Komorka.zywiSasiedzi := hsame ▸ List.mem_map_of_mem hc
  obtain ⟨d, hd, hcd⟩ := List.mem_map.mp hmem
  rw [← hcd]
  exact hl.nieujemne d hd

private theorem posortowana_pairwise (hl : Pokolenie l) :
    ((posortowana l).map polozenie).Pairwise (· < ·) := by
  have hsorted := posortujListeKolumny_pairwise (posortujListeWiersze_pairwise l)
  have hdistinct : ((posortowana l).map polozenie).Nodup := (pokolenie_posortowana hl).rozne
  exact (hsorted.and hdistinct).imp fun h => lt_of_le_of_ne h.1 h.2

def tekst : Lista → Str
  | [] => ['/', '\n']
  | pom :: nast => '/' :: (wypisz pom.nrWiersza ++ ' ' :: wypisz pom.nrKolumny) ++
      zrzutDalej pom.nrWiersza nast ++ ['\n'] ++ ['/', '\n']

private theorem zrzutAktualnejGeneracji_eq (l : Lista) :
    zrzutAktualnejGeneracji l = (posortowana l, tekst (posortowana l)) := by
  rw [zrzutAktualnejGeneracji, ← posortowana]
  cases posortowana l <;> rfl

private theorem zrzutDalej_congr (a : Int) (h : l.map Komorka.miejsce = l'.map Komorka.miejsce) :
    zrzutDalej a l = zrzutDalej a l' := by
  induction l generalizing l' a with
  | nil =>
      obtain rfl := List.map_eq_nil_iff.mp h.symm
      rfl
  | cons c l ih =>
      obtain ⟨c', l', rfl, hc, hl⟩ := List.map_eq_cons_iff.mp h.symm
      obtain ⟨hrow, hcolumn⟩ := Prod.mk.inj hc
      rw [zrzutDalej, zrzutDalej, hrow, hcolumn, ih _ hl.symm]

private theorem tekst_congr (h : l.map Komorka.miejsce = l'.map Komorka.miejsce) :
    tekst l = tekst l' := by
  cases l with
  | nil =>
      obtain rfl := List.map_eq_nil_iff.mp h.symm
      rfl
  | cons c l =>
      obtain ⟨c', l', rfl, hc, hl⟩ := List.map_eq_cons_iff.mp h.symm
      obtain ⟨hrow, hcolumn⟩ := Prod.mk.inj hc
      rw [tekst, tekst, hrow, hcolumn, zrzutDalej_congr _ hl.symm]

private theorem tekst_posortowana (hl : Pokolenie l) (hl' : Pokolenie l') (h : zywe l = zywe l') :
    tekst (posortowana l) = tekst (posortowana l') := by
  have hcells (p : Int × Int) : p ∈ l.map Komorka.miejsce ↔ p ∈ l'.map Komorka.miejsce := by
    change p ∈ zywe l ↔ p ∈ zywe l'
    rw [h]
  have hsame := (List.perm_ext_iff_of_nodup hl.rozne hl'.rozne).mpr hcells
  have hperm : ((posortowana l).map polozenie).Perm ((posortowana l').map polozenie) :=
    (posortowana_perm l).trans (hsame.trans (posortowana_perm l').symm)
  refine tekst_congr (hperm.eq_of_pairwise ?_ (posortowana_pairwise hl) (posortowana_pairwise hl'))
  exact fun p q _ _ hpq hqp => absurd hqp (lt_asymm hpq)

private theorem zapis_zywe (hl : Pokolenie l) : zapis (zywe l) = tekst (posortowana l) := by
  have hex : ∃ l', Pokolenie l' ∧ zywe l' = zywe l := ⟨l, hl, rfl⟩
  rw [zapis, dif_pos hex, zrzutAktualnejGeneracji_eq]
  exact tekst_posortowana hex.choose_spec.1 hl hex.choose_spec.2

end Writing

/-! ## The commands -/

section Session

variable {l : Lista} {w k : Int} {fuel : Nat} {rest wyjscie : Str}

private theorem noweGeneracje_spec (hl : Pokolenie l) (n : Nat)
    (hroom : ∀ m < n, ∀ p ∈ krok^[m] (zywe l), Swobodna p) :
    ∃ l', noweGeneracje n l = some l' ∧ Pokolenie l' ∧ zywe l' = krok^[n] (zywe l) := by
  induction n generalizing l with
  | zero => exact ⟨l, rfl, hl, rfl⟩
  | succ n ih =>
      obtain ⟨l₁, hstep, hl₁, hcells⟩ := nowaGeneracjaLista_spec hl (hroom 0 n.succ_pos)
      have hroom₁ (m : Nat) (hm : m < n) : ∀ p ∈ krok^[m] (zywe l₁), Swobodna p := by
        rw [hcells, ← Function.iterate_succ_apply]
        exact hroom (m + 1) (by omega)
      obtain ⟨l', hsteps, hl', hcells'⟩ := ih hl₁ hroom₁
      refine ⟨l', ?_, hl', ?_⟩
      · rw [noweGeneracje, hstep]
        exact hsteps
      · rw [hcells', hcells, Function.iterate_succ_apply]

private theorem liczba_wypisz {n : Int} (hn : wZakresie n) {rest : Str}
    (hrest : ∀ c ∈ rest.head?, c.isDigit = false) :
    liczba (wypisz n ++ rest) = some (n, rest) := by
  have hscan := scanf_wypisz n hrest
  rw [liczba, hscan, Option.bind_eq_bind, Option.bind_some, if_pos hn]

private theorem getchar_wypisz (n : Int) (rest : Str) :
    (getchar (wypisz n ++ rest)).1 ≠ '.'.toNat ∧ (getchar (wypisz n ++ rest)).1 ≠ '\n'.toNat := by
  obtain ⟨first, digits, hfirst, hcase⟩ := wypisz_cons n
  rw [hfirst, List.cons_append, getchar]
  have hother {c : Char} (hc : c ≠ '-') (hdigit : c.isDigit = false) :
      (first.toNat : Int) ≠ c.toNat := by
    intro heq
    obtain rfl : first = c := Char.toNat_inj.mp (Int.ofNat.inj heq)
    rcases hcase with rfl | hyes
    · exact hc rfl
    · rw [hdigit] at hyes
      cases hyes
  exact ⟨hother (by decide) rfl, hother (by decide) rfl⟩

private theorem grajDalej_wypisz {n : Int} (hn : wZakresie n) (c : Char) (hc : c.isDigit = false) :
    grajDalej (fuel + 1) l w k (getchar (wypisz n ++ c :: rest)).1
      (getchar (wypisz n ++ c :: rest)).2 wyjscie =
    if c = ' ' then
      liczba rest >>= fun b => drukowanieGeneracji l n b.1 >>= fun obraz =>
        grajDalej fuel l n b.1 (getchar (getchar b.2).2).1 (getchar (getchar b.2).2).2
          (wyjscie ++ obraz)
    else if n = 1 then
      nowaGeneracjaLista l >>= fun l => drukowanieGeneracji l w k >>= fun obraz =>
        grajDalej fuel l w k (getchar rest).1 (getchar rest).2 (wyjscie ++ obraz)
    else if n = 0 then
      drukowanieGeneracji (zrzutAktualnejGeneracji l).1 w k >>= fun obraz =>
        grajDalej fuel (zrzutAktualnejGeneracji l).1 w k (getchar rest).1 (getchar rest).2
          (wyjscie ++ (zrzutAktualnejGeneracji l).2 ++ obraz)
    else
      noweGeneracje n.toNat l >>= fun l => drukowanieGeneracji l w k >>= fun obraz =>
        grajDalej fuel l w k (getchar rest).1 (getchar rest).2 (wyjscie ++ obraz) := by
  obtain ⟨hend, hline⟩ := getchar_wypisz n (c :: rest)
  have hne : wypisz n ++ c :: rest ≠ [] := by simp
  have hscan : liczba (wypisz n ++ c :: rest) = some (n, c :: rest) :=
    liczba_wypisz hn (by simpa using hc)
  have hspace : ((c.toNat : Int) = ' '.toNat) ↔ c = ' ' := by
    rw [Int.natCast_inj, Char.toNat_inj]
  rw [grajDalej, if_neg hend, if_neg hline, ungetc_getchar hne]
  simp only [hscan, getchar, hspace, Option.bind_eq_bind, Option.bind_some]

def Widok.OknoMiesci (s : Widok) : Prop := wZakresie (s.w + wiersze) ∧ wZakresie (s.k + kolumny)

theorem Widok.OknoMiesci.wykonaj {s : Widok} {p : Polecenie} (h : s.OknoMiesci)
    (hp : s.Miesci p) : (s.wykonaj p).OknoMiesci := by
  cases p with
  | nastepna => exact h
  | generacje a => exact h
  | okno a b => exact ⟨hp.1.2, hp.2.2⟩

private theorem grajDalej_polecenie (hl : Pokolenie l) {p : Polecenie} (hokno : (⟨zywe l, w, k⟩ :
    Widok).OknoMiesci) (hp : Widok.Miesci ⟨zywe l, w, k⟩ p) (rest wyjscie : Str) :
    ∃ l', Pokolenie l' ∧ zywe l' = (Widok.wykonaj ⟨zywe l, w, k⟩ p).zywe ∧
      ∀ fuel, grajDalej (fuel + 1) l w k (getchar (p.tekst ++ rest)).1
          (getchar (p.tekst ++ rest)).2 wyjscie =
        grajDalej fuel l' (Widok.wykonaj ⟨zywe l, w, k⟩ p).w (Widok.wykonaj ⟨zywe l, w, k⟩ p).k
          (getchar rest).1 (getchar rest).2
          (wyjscie ++ (if p = .generacje 0 then zapis (zywe l) else []) ++
            (Widok.wykonaj ⟨zywe l, w, k⟩ p).rysunek) := by
  have hshown (l : Lista) : drukowanieGeneracji l w k = some (drukuj (obraz (zywe l) w k)) :=
    drukowanieGeneracji_eq l hokno.1 hokno.2
  cases p with
  | nastepna =>
      obtain ⟨l', hstep, hl', hcells⟩ := nowaGeneracjaLista_spec hl hp
      refine ⟨l', hl', hcells, fun fuel => ?_⟩
      have hfirst : getchar (Polecenie.nastepna.tekst ++ rest) =
          (('\n'.toNat : Int), rest) := rfl
      have hdot : (('\n'.toNat : Nat) : Int) ≠ '.'.toNat := by decide
      rw [hfirst, grajDalej, if_neg hdot, if_pos rfl, hstep]
      simp only [Option.bind_eq_bind, Option.bind_some, reduceCtorEq, if_false, List.append_nil,
        Widok.wykonaj, Widok.rysunek, hshown, hcells]
  | generacje a =>
      have htext : (Polecenie.generacje a).tekst ++ rest = wypisz a ++ '\n' :: rest := by
        simp [Polecenie.tekst]
      rw [htext]
      by_cases hzero : a = 0
      · refine ⟨posortowana l, pokolenie_posortowana hl, ?_, fun fuel => ?_⟩
        · rw [zywe_posortowana, hzero]
          rfl
        · rw [grajDalej_wypisz hp.1 '\n' rfl, if_neg (by decide), if_neg (by omega), if_pos hzero,
            zrzutAktualnejGeneracji_eq]
          simp only [hzero, if_true, hshown, zywe_posortowana, zapis_zywe hl, Option.bind_eq_bind,
            Option.bind_some]
          rfl
      · obtain ⟨l', hsteps, hl', hcells⟩ := noweGeneracje_spec hl a.toNat hp.2
        refine ⟨l', hl', hcells, fun fuel => ?_⟩
        have hwalk : (if a = 1 then nowaGeneracjaLista l else noweGeneracje a.toNat l) =
            some l' := by
          split
          next hone =>
            rw [hone] at hsteps
            have hlast : noweGeneracje (1 : Int).toNat l = nowaGeneracjaLista l :=
              Option.bind_fun_some _
            rw [← hlast, hsteps]
          next => exact hsteps
        rw [grajDalej_wypisz hp.1 '\n' rfl, if_neg (by decide), if_neg hzero]
        simp only [Polecenie.generacje.injEq, hzero, if_false, List.append_nil, Widok.wykonaj,
          Widok.rysunek]
        split at hwalk
        next hone =>
          rw [if_pos hone, hwalk]
          simp only [Option.bind_eq_bind, Option.bind_some, hshown, hcells]
        next hone =>
          rw [if_neg hone, hwalk]
          simp only [Option.bind_eq_bind, Option.bind_some, hshown, hcells]
  | okno a b =>
      refine ⟨l, hl, rfl, fun fuel => ?_⟩
      have htext : (Polecenie.okno a b).tekst ++ rest =
          wypisz a ++ ' ' :: (wypisz b ++ '\n' :: rest) := by
        simp [Polecenie.tekst]
      have hscan : liczba (wypisz b ++ '\n' :: rest) = some (b, '\n' :: rest) :=
        liczba_wypisz hp.2.1 (by simp)
      rw [htext, grajDalej_wypisz hp.1.1 ' ' rfl, if_pos rfl, hscan]
      simp only [Option.bind_eq_bind, Option.bind_some, reduceCtorEq, if_false, List.append_nil,
        drukowanieGeneracji_eq l hp.1.2 hp.2.2]
      rfl

private theorem grajDalej_spec (hl : Pokolenie l) {ps : List Polecenie} (hokno : (⟨zywe l, w, k⟩ :
    Widok).OknoMiesci) (hps : Widok.MiesciSesje ⟨zywe l, w, k⟩ ps) (rest wyjscie : Str) :
    ∃ l', Pokolenie l' ∧ ∀ fuel > ps.length,
      grajDalej fuel l w k (getchar (ps.flatMap Polecenie.tekst ++ '.' :: rest)).1
          (getchar (ps.flatMap Polecenie.tekst ++ '.' :: rest)).2 wyjscie =
        some (l', rest, wyjscie ++ Widok.sesja ⟨zywe l, w, k⟩ ps) := by
  induction ps generalizing l w k wyjscie with
  | nil =>
      refine ⟨l, hl, fun fuel hfuel => ?_⟩
      obtain ⟨fuel, rfl⟩ : ∃ f, fuel = f + 1 := ⟨fuel - 1, by simp at hfuel; omega⟩
      have hdot : (getchar ('.' :: rest)).1 = '.'.toNat := rfl
      rw [List.flatMap_nil, List.nil_append, grajDalej, if_pos hdot, Widok.sesja, List.append_nil]
      rfl
  | cons p ps ih =>
      obtain ⟨hp, hrest⟩ := hps
      obtain ⟨l₁, hl₁, hcells, hturn⟩ := grajDalej_polecenie hl hokno hp
        (ps.flatMap Polecenie.tekst ++ '.' :: rest) wyjscie
      have hview : (⟨zywe l₁, (Widok.wykonaj ⟨zywe l, w, k⟩ p).w,
          (Widok.wykonaj ⟨zywe l, w, k⟩ p).k⟩ : Widok) = Widok.wykonaj ⟨zywe l, w, k⟩ p := by
        rw [hcells]
      have hokno₁ := hokno.wykonaj hp
      rw [← hview] at hokno₁ hrest
      obtain ⟨l', hl', hrun⟩ := ih hl₁ hokno₁ hrest _
      refine ⟨l', hl', fun fuel hfuel => ?_⟩
      rw [List.length_cons] at hfuel
      obtain ⟨fuel, rfl⟩ : ∃ f, fuel = f + 1 := ⟨fuel - 1, by omega⟩
      rw [List.flatMap_cons, List.append_assoc, hturn, hrun fuel (by omega), hview, Widok.sesja]
      simp only [List.append_assoc]

end Session

/-! ## The program -/

private theorem wczytaj_tekst {l : Lista} (hl : Pokolenie l) (rest : Str) :
    ∃ l', Pokolenie l' ∧ zywe l' = zywe l ∧ ∀ fuel ≥ 2 * l.length + 2,
      wczytaj fuel (tekst l ++ rest) [] = some (l', rest) := by
  refine ⟨l.map swieza, ⟨?_, ?_⟩, ?_, fun fuel hfuel => ?_⟩
  · rw [List.map_map]
    exact hl.rozne
  · intro c hc
    obtain ⟨d, -, rfl⟩ := List.mem_map.mp hc
    exact Int.le_refl 0
  · ext p
    rw [zywe, List.map_map]
    rfl
  · obtain ⟨fuel, rfl⟩ : ∃ f, fuel = f + 1 + 1 := ⟨fuel - 2, by omega⟩
    cases l with
    | nil => simp [tekst, wczytaj, getchar, wczytajDalej]
    | cons pom nast =>
        rw [List.length_cons] at hfuel
        have hhead := head_zrzutDalej pom.nrWiersza nast ('/' :: '\n' :: rest)
        have hread : wczytajDalej (fuel + 1 + 1) _ _ [] = _ :=
          (wczytajDalej_wiersz pom.nrWiersza).trans (dalej_kolumna pom.nrKolumny hhead)
        rw [dalej_zrzut (by omega) (by omega)] at hread
        simpa [tekst, wczytaj, getchar, wstawNaKoniec, swieza] using hread

private theorem exists_pokolenie (Z : Finset (Int × Int)) :
    ∃ l, Pokolenie l ∧ zywe l = (Z : Set (Int × Int)) := by
  have hplaces : (Z.toList.map fun p => (⟨p.2, p.1, 0⟩ : Komorka)).map Komorka.miejsce =
      Z.toList := by
    rw [List.map_map]
    exact List.map_id _
  refine ⟨Z.toList.map fun p => ⟨p.2, p.1, 0⟩, ⟨?_, ?_⟩, ?_⟩
  · rw [hplaces]
    exact Z.nodup_toList
  · intro c hc
    obtain ⟨p, -, rfl⟩ := List.mem_map.mp hc
    exact Int.le_refl 0
  · ext p
    rw [zywe, hplaces]
    exact Finset.mem_toList

/-- The program shows the generation it reads and what every command leaves to be seen, as
long as the numbers are in the range of `int`. -/
theorem main_sesja (Z : Finset (Int × Int)) (ps : List Polecenie) (rest : Str)
    (hps : Widok.MiesciSesje ⟨Z, 1, 1⟩ ps) :
    ∃ fuel, ∀ fuel' ≥ fuel,
      main fuel' (zapis Z ++ (ps.flatMap Polecenie.tekst ++ '.' :: rest)) =
        some ((⟨Z, 1, 1⟩ : Widok).rysunek ++ Widok.sesja ⟨Z, 1, 1⟩ ps, rest) := by
  obtain ⟨l, hl, hZ⟩ := exists_pokolenie Z
  have hsorted := pokolenie_posortowana hl
  obtain ⟨l₁, hl₁, hcells, hread⟩ := wczytaj_tekst hsorted
    (ps.flatMap Polecenie.tekst ++ '.' :: rest)
  rw [zywe_posortowana, hZ] at hcells
  have hrows : wZakresie (1 + wiersze) := by decide
  have hcolumns : wZakresie (1 + kolumny) := by decide
  have hshown := drukowanieGeneracji_eq l₁ hrows hcolumns
  obtain ⟨l', -, hrun⟩ := grajDalej_spec (w := 1) (k := 1) hl₁ ⟨hrows, hcolumns⟩ (hcells ▸ hps)
    rest (drukuj (obraz (zywe l₁) 1 1))
  rw [hcells] at hshown hrun
  refine ⟨2 * (posortowana l).length + 2 + ps.length + 1, fun fuel hfuel => ?_⟩
  have hplay := hrun fuel (by omega)
  rw [main, ← hZ, zapis_zywe hl, hread fuel (by omega)]
  simp only [Option.bind_eq_bind, Option.bind_some, graj, hshown, hplay, hZ]
  rfl

/-- In `n` generations the cells come `n` nearer to the bounds. -/
private theorem krok_iterate_blisko {Z : Set (Int × Int)} (n : Nat) {p : Int × Int}
    (h : p ∈ krok^[n] Z) :
    ∃ q ∈ Z, (q.1 - n ≤ p.1 ∧ p.1 ≤ q.1 + n) ∧ q.2 - n ≤ p.2 ∧ p.2 ≤ q.2 + n := by
  induction n generalizing p with
  | zero => exact ⟨p, h, by omega, by omega⟩
  | succ n ih =>
      rw [Function.iterate_succ_apply'] at h
      obtain ⟨p', hp', hrow, hcolumn⟩ := krok_blisko h
      obtain ⟨q, hq, hrow', hcolumn'⟩ := ih hp'
      exact ⟨q, hq, by omega, by omega⟩

theorem main_sesja_blinker : ∃ fuel, ∀ fuel' ≥ fuel,
    main fuel' (zapis ({(0, -1), (0, 0), (0, 1)} : Finset (Int × Int)) ++
      ([.generacje 2, .okno (-5) 3, .nastepna, .generacje 0].flatMap Polecenie.tekst ++
        '.' :: ['\n'])) =
      some ((⟨({(0, -1), (0, 0), (0, 1)} : Finset (Int × Int)), 1, 1⟩ : Widok).rysunek ++
        Widok.sesja ⟨({(0, -1), (0, 0), (0, 1)} : Finset (Int × Int)), 1, 1⟩
          [.generacje 2, .okno (-5) 3, .nastepna, .generacje 0], ['\n']) := by
  have hroom (n : Nat) (hn : n ≤ 3) (p : Int × Int)
      (hp : p ∈ krok^[n] (({(0, -1), (0, 0), (0, 1)} : Finset (Int × Int)) : Set (Int × Int))) :
      Swobodna p := by
    obtain ⟨q, hq, hrow, hcolumn⟩ := krok_iterate_blisko n hp
    have hq : q = (0, -1) ∨ q = (0, 0) ∨ q = (0, 1) := by simpa using hq
    simp only [Swobodna, wZakresie]
    rcases hq with rfl | rfl | rfl <;> omega
  refine main_sesja _ _ _ ⟨⟨by decide, fun m hm => hroom m ?_⟩, ⟨by decide, by decide⟩, hroom 2 ?_,
    ⟨by decide, fun m hm => absurd hm (Nat.not_lt_zero m)⟩, fun p hp => ?_⟩
  · have hm : m < 2 := hm
    omega
  · omega
  · have hfree := hroom 3 (Nat.le_refl 3) p hp
    simp only [Swobodna, wZakresie] at hfree ⊢
    omega

end Mimuw.GameOfLife
