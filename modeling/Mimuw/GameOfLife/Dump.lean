import Mathlib.Data.List.Perm.Basic
import Mathlib.Data.Prod.Lex
import Mimuw.GameOfLife.Model

/-!
# Writing a generation and reading it back

The two sorts together order the cells by row and column. The text that is written has
a line for each row, and the reader takes each line for a row again.
-/

namespace Mimuw.GameOfLife

/-- Row and column, ordered by the row first -/
def polozenie (c : Komorka) : Int ×ₗ Int := toLex (c.nrWiersza, c.nrKolumny)

/-! ## The sorts -/

section Sorting

variable {klucz : Komorka → Int} {warunek : Komorka → Komorka → Bool}
  {przepisz : Komorka → Komorka → Komorka} {pom : Komorka} {l nast : Lista}

private theorem szukaj_least (klucz : Komorka → Int) (w : Komorka → Bool) (pom2 : Nat × Komorka)
    (i : Nat) (nast : Lista) : klucz (szukaj klucz w pom2 i nast).2 ≤ klucz pom2.2 ∧
      ∀ z ∈ nast.takeWhile w, klucz (szukaj klucz w pom2 i nast).2 ≤ klucz z := by
  induction nast generalizing pom2 i with
  | nil => exact ⟨le_rfl, by simp⟩
  | cons pom3 nast ih =>
      rw [szukaj]
      by_cases hw : w pom3 = true
      · rw [if_pos hw, List.takeWhile_cons_of_pos hw]
        obtain ⟨hle, hall⟩ := ih (if klucz pom2.2 > klucz pom3 then (i, pom3) else pom2) (i + 1)
        have hboth :
            klucz (if klucz pom2.2 > klucz pom3 then (i, pom3) else pom2).2 ≤ klucz pom2.2 ∧
              klucz (if klucz pom2.2 > klucz pom3 then (i, pom3) else pom2).2 ≤ klucz pom3 := by
          split
          next hlt => exact ⟨le_of_lt hlt, le_rfl⟩
          next hle => exact ⟨le_rfl, not_lt.mp hle⟩
        refine ⟨hle.trans hboth.1, fun z hz => ?_⟩
        rcases List.mem_cons.mp hz with rfl | hz
        · exact hle.trans hboth.2
        · exact hall z hz
      · rw [if_neg hw, List.takeWhile_cons_of_neg hw]
        exact ⟨le_rfl, by simp⟩

private theorem szukaj_place (klucz : Komorka → Int) (w : Komorka → Bool) (pom2 : Nat × Komorka)
    (i : Nat) (nast : Lista) : szukaj klucz w pom2 i nast = pom2 ∨
      ∃ p z, szukaj klucz w pom2 i nast = (i + p, z) ∧ nast[p]? = some z ∧ w z = true := by
  induction nast generalizing pom2 i with
  | nil => exact .inl rfl
  | cons pom3 nast ih =>
      rw [szukaj]
      by_cases hw : w pom3 = true
      · rw [if_pos hw]
        rcases ih (if klucz pom2.2 > klucz pom3 then (i, pom3) else pom2) (i + 1) with
          heq | ⟨p, z, heq, hz, hwz⟩
        · rw [heq]
          split
          · exact .inr ⟨0, pom3, rfl, rfl, hw⟩
          · exact .inl rfl
        · rw [heq]
          exact .inr ⟨p + 1, z, by rw [Nat.add_right_comm, Nat.add_assoc], hz, hwz⟩
      · rw [if_neg hw]
        exact .inl rfl

/-- What `pom` is exchanged with, and the records after it when that is done. -/
def zamiana (klucz : Komorka → Int) (warunek : Komorka → Komorka → Bool)
    (przepisz : Komorka → Komorka → Komorka) (pom : Komorka) (nast : Lista) : Komorka × Lista :=
  let pom2 := szukaj klucz (warunek pom) (0, pom) 1 nast
  (pom2.2, if pom2.1 = 0 then nast else nast.modify (pom2.1 - 1) (przepisz · pom))

theorem length_zamiana :
    (zamiana klucz warunek przepisz pom nast).2.length = nast.length := by
  unfold zamiana
  dsimp only
  split <;> simp

theorem posortuj_cons : posortuj klucz warunek przepisz (pom :: nast) =
    przepisz pom (zamiana klucz warunek przepisz pom nast).1 ::
      posortuj klucz warunek przepisz (zamiana klucz warunek przepisz pom nast).2 := by
  rw [posortuj]
  rfl

/-- The record that is exchanged is `pom` itself or one after it. -/
theorem zamiana_cases (klucz : Komorka → Int) (warunek : Komorka → Komorka → Bool)
    (przepisz : Komorka → Komorka → Komorka) (pom : Komorka) (nast : Lista) :
    zamiana klucz warunek przepisz pom nast = (pom, nast) ∨
    ∃ p z, nast[p]? = some z ∧ warunek pom z = true ∧
      zamiana klucz warunek przepisz pom nast = (z, nast.modify p (przepisz · pom)) := by
  rcases szukaj_place klucz (warunek pom) (0, pom) 1 nast with heq | ⟨p, z, heq, hz, hw⟩
  · left
    simp [zamiana, heq]
  · right
    exact ⟨p, z, hz, hw, by simp [zamiana, heq]⟩

/-- The places are exchanged, the records keep their number of neighbours. -/
structure Przepisuje (warunek : Komorka → Komorka → Bool)
    (przepisz : Komorka → Komorka → Komorka) : Prop where
  same : ∀ a, warunek a a = true
  first : ∀ a b, warunek a b = true → polozenie (przepisz a b) = polozenie b
  second : ∀ a b, warunek a b = true → polozenie (przepisz b a) = polozenie a

private theorem zamiana_perm (klucz : Komorka → Int) (h : Przepisuje warunek przepisz) :
    (polozenie (przepisz pom (zamiana klucz warunek przepisz pom nast).1) ::
      (zamiana klucz warunek przepisz pom nast).2.map polozenie).Perm
        ((pom :: nast).map polozenie) := by
  rcases zamiana_cases klucz warunek przepisz pom nast with heq | ⟨p, z, hz, hw, heq⟩
  · rw [heq, h.first pom pom (h.same pom)]
    rfl
  · obtain ⟨hp, hget⟩ := List.getElem?_eq_some_iff.mp hz
    have hmap : (nast.modify p (przepisz · pom)).map polozenie =
        (nast.map polozenie).set p (polozenie pom) := by
      rw [List.modify_eq_set_getElem? , hz]
      simp [List.map_set, h.second pom z hw]
    have hp' : p < (nast.map polozenie).length := by simpa using hp
    have hget' : (nast.map polozenie)[p] = polozenie z := by simp [hget]
    rw [heq]
    dsimp only
    rw [h.first pom z hw, hmap, List.map_cons, ← hget']
    have hset := (List.set_perm_cons_eraseIdx hp' (polozenie pom)).cons (nast.map polozenie)[p]
    have herase := (List.getElem_cons_eraseIdx_perm hp').cons (polozenie pom)
    exact hset.trans ((List.Perm.swap _ _ _).trans herase)

private theorem posortuj_perm (klucz : Komorka → Int) (h : Przepisuje warunek przepisz)
    (l : Lista) : ((posortuj klucz warunek przepisz l).map polozenie).Perm (l.map polozenie) := by
  induction hn : l.length generalizing l with
  | zero =>
      obtain rfl := List.length_eq_zero_iff.mp hn
      rw [posortuj]
  | succ n ih =>
      obtain ⟨pom, nast, rfl⟩ := List.exists_cons_of_length_eq_add_one hn
      rw [posortuj_cons, List.map_cons]
      have hlength : (zamiana klucz warunek przepisz pom nast).2.length = n := by
        rw [length_zamiana]
        simpa using hn
      exact ((ih _ hlength).cons _).trans (zamiana_perm klucz h)

/-- What holds of the list and makes the record that is exchanged come first, sorts the list. -/
private theorem posortuj_pairwise (klucz : Komorka → Int) {R : Int ×ₗ Int → Int ×ₗ Int → Prop}
    {I : Lista → Prop} (h : Przepisuje warunek przepisz)
    (hkept : ∀ pom nast, I (pom :: nast) → I (zamiana klucz warunek przepisz pom nast).2)
    (hleast : ∀ pom nast, I (pom :: nast) → ∀ b ∈ pom :: nast,
      R (polozenie (przepisz pom (zamiana klucz warunek przepisz pom nast).1)) (polozenie b))
    (l : Lista) (hl : I l) : ((posortuj klucz warunek przepisz l).map polozenie).Pairwise R := by
  induction hn : l.length generalizing l with
  | zero =>
      obtain rfl := List.length_eq_zero_iff.mp hn
      simp [posortuj]
  | succ n ih =>
      obtain ⟨pom, nast, rfl⟩ := List.exists_cons_of_length_eq_add_one hn
      have hlength : (zamiana klucz warunek przepisz pom nast).2.length = n := by
        rw [length_zamiana]
        simpa using hn
      rw [posortuj_cons, List.map_cons, List.pairwise_cons]
      refine ⟨fun q hq => ?_, ih _ (hkept pom nast hl) hlength⟩
      have hmem : q ∈ (pom :: nast).map polozenie := by
        apply (zamiana_perm klucz h).subset
        exact List.mem_cons_of_mem _ ((posortuj_perm klucz h _).subset hq)
      obtain ⟨b, hb, rfl⟩ := List.mem_map.mp hmem
      exact hleast pom nast hl b hb

private theorem zamiana_least (klucz : Komorka → Int) (warunek : Komorka → Komorka → Bool)
    (przepisz : Komorka → Komorka → Komorka) (pom : Komorka) (nast : Lista) :
    klucz (zamiana klucz warunek przepisz pom nast).1 ≤ klucz pom ∧
      ∀ z ∈ nast.takeWhile (warunek pom),
        klucz (zamiana klucz warunek przepisz pom nast).1 ≤ klucz z :=
  szukaj_least klucz (warunek pom) (0, pom) 1 nast

end Sorting

section Rows

private theorem przepisuje_wiersze : Przepisuje (fun _ _ => true)
    fun a b => { a with nrWiersza := b.nrWiersza, nrKolumny := b.nrKolumny } where
  same _ := rfl
  first _ _ _ := rfl
  second _ _ _ := rfl

theorem posortujListeWiersze_perm (l : Lista) :
    ((posortujListeWiersze l).map polozenie).Perm (l.map polozenie) :=
  posortuj_perm _ przepisuje_wiersze l

theorem posortujListeWiersze_pairwise (l : Lista) :
    (posortujListeWiersze l).Pairwise fun a b => a.nrWiersza ≤ b.nrWiersza := by
  have hsorted := posortuj_pairwise Komorka.nrWiersza (I := fun _ => True)
    (R := fun p q => (ofLex p).1 ≤ (ofLex q).1) przepisuje_wiersze (fun _ _ _ => trivial)
    (fun pom nast _ b hb => ?_) l trivial
  · rwa [List.pairwise_map] at hsorted
  · obtain ⟨hpom, hall⟩ := zamiana_least Komorka.nrWiersza (fun _ _ => true)
      (fun a b => { a with nrWiersza := b.nrWiersza, nrKolumny := b.nrKolumny }) pom nast
    rw [List.takeWhile_eq_self_iff.mpr fun _ _ => rfl] at hall
    rcases List.mem_cons.mp hb with rfl | hb
    · exact hpom
    · exact hall b hb

end Rows

section Columns

variable {pom : Komorka} {l nast : Lista}

private theorem przepisuje_kolumny : Przepisuje (fun pom pom3 => pom3.nrWiersza = pom.nrWiersza)
    fun a b => { a with nrKolumny := b.nrKolumny } where
  same a := by simp
  first a b h := by
    have hrow : b.nrWiersza = a.nrWiersza := by simpa using h
    simp [polozenie, hrow]
  second a b h := by
    have hrow : b.nrWiersza = a.nrWiersza := by simpa using h
    simp [polozenie, hrow]

theorem posortujListeKolumny_perm (l : Lista) :
    ((posortujListeKolumny l).map polozenie).Perm (l.map polozenie) :=
  posortuj_perm _ przepisuje_kolumny l

private theorem mem_takeWhile_row (h : (pom :: nast).Pairwise fun a b => a.nrWiersza ≤ b.nrWiersza)
    {b : Komorka} (hb : b ∈ nast) (hrow : b.nrWiersza = pom.nrWiersza) :
    b ∈ nast.takeWhile fun pom3 => pom3.nrWiersza = pom.nrWiersza := by
  induction nast with
  | nil => cases hb
  | cons c nast ih =>
      rw [List.pairwise_cons, List.pairwise_cons] at h
      obtain ⟨hpom, hc, hnast⟩ := h
      have hle : c.nrWiersza ≤ b.nrWiersza := by
        rcases List.mem_cons.mp hb with rfl | hb
        · exact le_rfl
        · exact hc b hb
      have heq : c.nrWiersza = pom.nrWiersza :=
        le_antisymm (hle.trans hrow.le) (hpom c List.mem_cons_self)
      rw [List.takeWhile_cons_of_pos (by simpa using heq)]
      rcases List.mem_cons.mp hb with rfl | hb
      · exact List.mem_cons_self
      · apply List.mem_cons_of_mem
        apply ih _ hb
        rw [List.pairwise_cons]
        exact ⟨fun d hd => hpom d (List.mem_cons_of_mem c hd), hnast⟩

theorem posortujListeKolumny_pairwise
    (hl : l.Pairwise fun a b => a.nrWiersza ≤ b.nrWiersza) :
    ((posortujListeKolumny l).map polozenie).Pairwise (· ≤ ·) := by
  apply posortuj_pairwise Komorka.nrKolumny
    (I := fun l => l.Pairwise fun a b => a.nrWiersza ≤ b.nrWiersza) przepisuje_kolumny _ _ l hl
  · intro pom nast h
    rw [List.pairwise_cons] at h
    rcases zamiana_cases Komorka.nrKolumny (fun pom pom3 => pom3.nrWiersza = pom.nrWiersza)
      (fun a b => { a with nrKolumny := b.nrKolumny }) pom nast with
      heq | ⟨p, z, -, -, heq⟩
    · rw [heq]
      exact h.2
    · -- the rows stay where they are
      rw [heq]
      have hrows : (nast.modify p fun a => { a with nrKolumny := pom.nrKolumny }).map
          Komorka.nrWiersza = nast.map Komorka.nrWiersza := by
        apply List.ext_getElem?
        intro i
        rw [List.getElem?_map, List.getElem?_map, List.getElem?_modify]
        cases nast[i]? with
        | none => simp
        | some c => by_cases hi : p = i <;> simp [hi]
      rw [← List.pairwise_map, hrows, List.pairwise_map]
      exact h.2
  · intro pom nast h b hb
    obtain ⟨hpom, hall⟩ := zamiana_least Komorka.nrKolumny
      (fun pom pom3 => pom3.nrWiersza = pom.nrWiersza)
      (fun a b => { a with nrKolumny := b.nrKolumny }) pom nast
    apply Prod.Lex.toLex_le_toLex.mpr
    rcases List.mem_cons.mp hb with rfl | hb
    · exact .inr ⟨rfl, hpom⟩
    · rcases ((List.pairwise_cons.mp h).1 b hb).lt_or_eq with hlt | heq
      · exact .inl hlt
      · exact .inr ⟨heq, hall b (mem_takeWhile_row h hb heq.symm)⟩

end Columns

/-! ## Numbers -/

section Numbers

variable {n : Int} {rest : Str}

private theorem digits_append (n : Nat) (hrest : ∀ c ∈ rest.head?, c.isDigit = false) :
    (Nat.toDigits 10 n ++ rest).takeWhile Char.isDigit = Nat.toDigits 10 n ∧
      (Nat.toDigits 10 n ++ rest).dropWhile Char.isDigit = rest := by
  have hdigit : ∀ c ∈ Nat.toDigits 10 n, c.isDigit = true := fun c hc =>
    Nat.isDigit_of_mem_toDigits (by decide) (by decide) hc
  rw [List.takeWhile_append_of_pos hdigit, List.dropWhile_append_of_pos hdigit]
  cases rest with
  | nil => simp
  | cons c rest =>
      have hc : ¬ c.isDigit = true := by simp [hrest c rfl]
      rw [List.takeWhile_cons_of_neg hc, List.dropWhile_cons_of_neg hc, List.append_nil]
      exact ⟨rfl, rfl⟩

theorem wypisz_cons (n : Int) : ∃ first digits, wypisz n = first :: digits ∧
    (first = '-' ∨ first.isDigit = true) := by
  by_cases hn : n < 0
  · exact ⟨'-', _, if_pos hn, .inl rfl⟩
  · obtain ⟨c, digits, hdigits⟩ := List.exists_cons_of_ne_nil
      (Nat.toDigits_ne_nil (b := 10) (n := n.natAbs))
    refine ⟨c, digits, (if_neg hn).trans hdigits, .inr ?_⟩
    apply Nat.isDigit_of_mem_toDigits (n := n.natAbs) (b := 10) (by decide) (by decide)
    rw [hdigits]
    exact List.mem_cons_self

theorem scanf_wypisz (n : Int) (hrest : ∀ c ∈ rest.head?, c.isDigit = false) :
    scanf (wypisz n ++ rest) = (some n, rest) := by
  obtain ⟨htake, hdrop⟩ := digits_append n.natAbs hrest
  have hvalue : Nat.ofDigitChars 10 (Nat.toDigits 10 n.natAbs) 0 = n.natAbs :=
    Nat.ofDigitChars_ten_toDigits
  have hne : Nat.toDigits 10 n.natAbs ≠ [] := Nat.toDigits_ne_nil
  by_cases hn : n < 0
  · have hstart : ('-' :: (Nat.toDigits 10 n.natAbs ++ rest)).dropWhile isspace =
        '-' :: (Nat.toDigits 10 n.natAbs ++ rest) := List.dropWhile_cons_of_neg (by decide)
    simp only [scanf, wypisz, if_pos hn, List.cons_append, hstart, List.head?_cons, true_or,
      if_true, List.tail_cons, htake, hdrop, hvalue, if_neg hne]
    congr 2
    omega
  · obtain ⟨c, digits, hdigits⟩ := List.exists_cons_of_ne_nil hne
    have hc : c.isDigit = true := by
      apply Nat.isDigit_of_mem_toDigits (n := n.natAbs) (b := 10) (by decide) (by decide)
      rw [hdigits]
      exact List.mem_cons_self
    have hspace : ¬ isspace c = true := by
      intro hspace
      simp only [isspace, List.mem_cons, List.not_mem_nil, or_false, decide_eq_true_eq] at hspace
      rcases hspace with rfl | rfl | rfl | rfl | rfl | rfl <;> cases hc
    have hminus : c ≠ '-' := by
      rintro rfl
      cases hc
    have hplus : c ≠ '+' := by
      rintro rfl
      cases hc
    have hstart : (Nat.toDigits 10 n.natAbs ++ rest).dropWhile isspace =
        Nat.toDigits 10 n.natAbs ++ rest := by
      rw [hdigits, List.cons_append, List.dropWhile_cons_of_neg hspace]
    have hhead : (Nat.toDigits 10 n.natAbs ++ rest).head? = some c := by simp [hdigits]
    simp only [scanf, wypisz, if_neg hn, hstart, hhead, Option.some.injEq, hminus, hplus, or_self,
      if_false, htake, hdrop, hvalue, if_neg hne]
    congr 2
    omega

end Numbers

/-! ## Reading what was written -/

section Reading

variable {fuel : Nat} {c : Int} {l nast : Lista} {rest : Str} {pom : Komorka}

def swieza (c : Komorka) : Komorka := { c with zywiSasiedzi := 0 }

theorem ungetc_getchar {wejscie : Str} (h : wejscie ≠ []) :
    ungetc (getchar wejscie).1 (getchar wejscie).2 = wejscie := by
  obtain ⟨c, wejscie, rfl⟩ := List.exists_cons_of_ne_nil h
  have hc : ((c.toNat : Int) = -1) = False := by
    simp
  simp [getchar, ungetc, hc]

theorem head_zrzutDalej (a : Int) (nast : Lista) (rest : Str) :
    ∀ c ∈ (zrzutDalej a nast ++ ['\n'] ++ rest).head?, c.isDigit = false := by
  cases nast with
  | nil => simp [zrzutDalej]
  | cons pom nast =>
      rw [zrzutDalej]
      split <;> simp

/-- What the reader does after a number of row `c`. -/
def dalej (c : Int) (fuel fuel' : Nat) (wejscie : Str) (l : Lista) : Option (Lista × Str) :=
  match wczytajWiersz c fuel (getchar wejscie).1 (getchar wejscie).2 l with
  | none => none
  | some (l, wejscie) =>
      wczytajDalej fuel' (getchar (getchar wejscie).2).1 (getchar (getchar wejscie).2).2 l

theorem dalej_kolumna (k : Int) {fuel' : Nat} (hrest : ∀ c ∈ rest.head?, c.isDigit = false) :
    dalej c (fuel + 1) fuel' (' ' :: (wypisz k ++ rest)) l =
      dalej c fuel fuel' rest (wstawNaKoniec l c k 0) := by
  simp [dalej, getchar, wczytajWiersz, scanf_wypisz k hrest]

private theorem dalej_koniec {fuel' : Nat} : dalej c (fuel + 1) fuel' ('\n' :: '/' :: rest) l =
    wczytajDalej fuel' (getchar rest).1 (getchar rest).2 l := by
  simp [dalej, getchar, wczytajWiersz]

theorem wczytajDalej_wiersz (n : Int) :
    wczytajDalej (fuel + 1) (getchar (wypisz n ++ ' ' :: rest)).1
      (getchar (wypisz n ++ ' ' :: rest)).2 l = dalej n fuel fuel (' ' :: rest) l := by
  have hne : wypisz n ++ ' ' :: rest ≠ [] := by simp
  have hfirst : (getchar (wypisz n ++ ' ' :: rest)).1 ≠ '\n'.toNat := by
    obtain ⟨first, digits, hfirst, hcase⟩ := wypisz_cons n
    rw [hfirst, List.cons_append, getchar]
    rcases hcase with rfl | hdigit
    · exact (by decide : ('-'.toNat : Int) ≠ '\n'.toNat)
    · intro heq
      obtain rfl : first = '\n' := Char.toNat_inj.mp (Int.ofNat.inj heq)
      cases hdigit
  rw [wczytajDalej, if_neg hfirst, ungetc_getchar hne]
  have hscan : scanf (wypisz n ++ ' ' :: rest) = (some n, ' ' :: rest) := scanf_wypisz n (by simp)
  simp only [hscan, Option.getD_some]
  rfl

theorem dalej_zrzut {fuel' : Nat} (hfuel : 2 * nast.length + 1 ≤ fuel)
    (hfuel' : 2 * nast.length + 1 ≤ fuel') :
    dalej c fuel fuel' (zrzutDalej c nast ++ ['\n'] ++ '/' :: '\n' :: rest) l =
      some (l ++ nast.map swieza, rest) := by
  induction nast generalizing c fuel fuel' l with
  | nil =>
      obtain ⟨fuel, rfl⟩ : ∃ f, fuel = f + 1 := ⟨fuel - 1, by omega⟩
      obtain ⟨fuel', rfl⟩ : ∃ f, fuel' = f + 1 := ⟨fuel' - 1, by omega⟩
      have hend : zrzutDalej c [] ++ ['\n'] ++ '/' :: '\n' :: rest =
          '\n' :: '/' :: '\n' :: rest := rfl
      rw [hend, dalej_koniec]
      simp [wczytajDalej, getchar]
  | cons pom nast ih =>
      rw [List.length_cons] at hfuel hfuel'
      obtain ⟨fuel, rfl⟩ : ∃ f, fuel = f + 1 := ⟨fuel - 1, by omega⟩
      have hhead := head_zrzutDalej pom.nrWiersza nast ('/' :: '\n' :: rest)
      by_cases hrow : c = pom.nrWiersza
      · have htext : zrzutDalej c (pom :: nast) ++ ['\n'] ++ '/' :: '\n' :: rest =
            ' ' :: (wypisz pom.nrKolumny ++
              (zrzutDalej pom.nrWiersza nast ++ ['\n'] ++ '/' :: '\n' :: rest)) := by
          simp [zrzutDalej, hrow]
        rw [htext, dalej_kolumna pom.nrKolumny hhead, hrow, ih (by omega) (by omega)]
        simp [wstawNaKoniec, swieza]
      · have htext : zrzutDalej c (pom :: nast) ++ ['\n'] ++ '/' :: '\n' :: rest =
            '\n' :: '/' :: (wypisz pom.nrWiersza ++ ' ' :: (wypisz pom.nrKolumny ++
              (zrzutDalej pom.nrWiersza nast ++ ['\n'] ++ '/' :: '\n' :: rest))) := by
          simp [zrzutDalej, hrow]
        obtain ⟨fuel', rfl⟩ : ∃ f, fuel' = f + 1 + 1 := ⟨fuel' - 2, by omega⟩
        rw [htext, dalej_koniec, wczytajDalej_wiersz, dalej_kolumna pom.nrKolumny hhead,
          ih (by omega) (by omega)]
        simp [wstawNaKoniec, swieza]

end Reading

/-- A generation that is written and read again has the same cells, in the order of rows and
columns. -/
theorem wczytaj_zrzut (l : Lista) (hl : (l.map polozenie).Nodup) (rest : Str) :
    ∃ fuel, ∀ fuel' ≥ fuel, ∃ l',
      wczytaj fuel' ((zrzutAktualnejGeneracji l).2 ++ rest) [] = some (l', rest) ∧
      (∀ p, p ∈ l'.map polozenie ↔ p ∈ l.map polozenie) ∧
      (l'.map polozenie).Pairwise (· < ·) := by
  have hsorted := posortujListeKolumny_pairwise (posortujListeWiersze_pairwise l)
  have hperm := (posortujListeKolumny_perm (posortujListeWiersze l)).trans
    (posortujListeWiersze_perm l)
  have hdistinct := hperm.nodup_iff.mpr hl
  have hlength := hperm.length_eq
  rw [List.length_map, List.length_map] at hlength
  refine ⟨2 * l.length + 2, fun fuel hfuel => ?_⟩
  refine ⟨(posortujListeKolumny (posortujListeWiersze l)).map swieza, ?_, ?_, ?_⟩
  · rw [zrzutAktualnejGeneracji]
    generalize posortujListeKolumny (posortujListeWiersze l) = sorted at hlength
    cases sorted with
    | nil =>
        obtain ⟨fuel, rfl⟩ : ∃ f, fuel = f + 1 := ⟨fuel - 1, by omega⟩
        simp [wczytaj, getchar, wczytajDalej]
    | cons pom nast =>
        rw [List.length_cons] at hlength
        obtain ⟨fuel, rfl⟩ : ∃ f, fuel = f + 1 + 1 := ⟨fuel - 2, by omega⟩
        have hhead := head_zrzutDalej pom.nrWiersza nast ('/' :: '\n' :: rest)
        have hread : wczytajDalej (fuel + 1 + 1) _ _ [] = _ :=
          (wczytajDalej_wiersz pom.nrWiersza).trans (dalej_kolumna pom.nrKolumny hhead)
        rw [dalej_zrzut (by omega) (by omega)] at hread
        simpa [wczytaj, getchar, wstawNaKoniec, swieza] using hread
  · intro p
    rw [List.map_map]
    exact hperm.mem_iff
  · rw [List.map_map]
    exact (hsorted.and hdistinct).imp fun h => lt_of_le_of_ne h.1 h.2

theorem wczytaj_zrzut_pair : ∃ fuel, ∀ fuel' ≥ fuel, ∃ l',
    wczytaj fuel' ((zrzutAktualnejGeneracji [⟨2, -1, 0⟩, ⟨0, -3, 3⟩]).2 ++ ['x']) [] =
      some (l', ['x']) ∧
    (∀ p, p ∈ l'.map polozenie ↔ p ∈ [⟨2, -1, 0⟩, ⟨0, -3, 3⟩].map polozenie) ∧
    (l'.map polozenie).Pairwise (· < ·) :=
  wczytaj_zrzut [⟨2, -1, 0⟩, ⟨0, -3, 3⟩] (by decide) ['x']

end Mimuw.GameOfLife
