import Mimuw.Interpreter.StepCount

/-!
# The environments of calls

Each call of a procedure in a run is made in an environment whose lists have cells with
names, and whose procedures have passed the test of their parameters.
-/

namespace Mimuw.Interpreter

open Mimuw.Lib
open Mimuw.Lib.Imp (Meets Keeps)

/-! ## Cells -/

/-- A cell that has been made, with a name. -/
def Srodowisko.Komorka (srodowisko : Srodowisko) (a : Adres) : Prop :=
  a < srodowisko.nastepny ∧ (srodowisko.pamiec a).nazwa.isSome

structure Poprawne (srodowisko : Srodowisko) : Prop where
  komorki : ∀ lista ∈ srodowisko.listaListZmiennych, ∀ a ∈ lista, srodowisko.Komorka a
  procedury : ∀ lista ∈ srodowisko.listaListaProcedur, ∀ d ∈ lista,
    d.sprawdzCzyDobreParametry = true

section Szukanie

variable {pamiec : Adres → Zmienna}

theorem szukaj_eq {zmienne : List Adres} (nazwa : Option String)
    (h : ∀ a ∈ zmienne, (pamiec a).nazwa.isSome) :
    szukaj pamiec nazwa zmienne = .ok (zmienne.find? fun a => (pamiec a).nazwa = nazwa) := by
  induction zmienne with
  | nil => rfl
  | cons z zmienne ih =>
      have hz := h z List.mem_cons_self
      have hrest := ih fun a ha => h a (List.mem_cons_of_mem z ha)
      rw [szukaj, List.find?_cons]
      cases hnazwa : (pamiec z).nazwa with
      | none => simp [hnazwa] at hz
      | some x =>
          by_cases heq : some x = nazwa
          · simp [heq]
          · simp [heq, hrest]

theorem dolacz_subset {swoje ojca lista : List Adres} (h : dolacz pamiec swoje ojca = .ok lista) :
    lista ⊆ swoje ++ ojca := by
  induction ojca generalizing swoje with
  | nil =>
      obtain rfl := Except.ok.inj h
      simp
  | cons z ojca ih =>
      rw [dolacz] at h
      cases hnazwa : (pamiec z).nazwa with
      | none =>
          simp only [hnazwa] at h
          split at h
          · rename_i hempty
            have hsub := ih h
            simpa [hempty] using hsub
          · cases h
      | some x =>
          simp only [hnazwa] at h
          split at h
          · refine List.Subset.trans (ih h) fun a ha => ?_
            simp only [List.mem_append, List.mem_cons] at ha ⊢
            tauto
          · have hsub := ih h
            simpa using hsub

end Szukanie

/-! ## The journal of a run -/

abbrev Dziennik := List (Instrukcja × Srodowisko)

/-- In the place of the debugger: the instructions, with their environments. -/
def zapamietaj (instrukcja : Instrukcja) : Akcja Dziennik Unit :=
  Imp.update fun s => { s with debugger := (instrukcja, s.srodowisko) :: s.debugger }

/-- The calls in the journal. -/
def Zapisane (s : Stan Dziennik) : Prop :=
  ∀ nazwa wyrazenia srodowisko,
    (.wykonajProcedure nazwa wyrazenia, srodowisko) ∈ s.debugger → Poprawne srodowisko

/-- Some more cells are in hand, and some procedures have not been tested yet. -/
structure Dobry (trzymane : List Adres) (noweProcedury : List DeklaracjaProcedury)
    (s : Stan Dziennik) : Prop where
  komorki : ∀ lista ∈ s.srodowisko.listaListZmiennych, ∀ a ∈ lista, s.srodowisko.Komorka a
  wReku : ∀ a ∈ trzymane, s.srodowisko.Komorka a
  procedury : ∀ lista ∈ s.srodowisko.listaListaProcedur, ∀ d ∈ lista,
    d ∈ noweProcedury ∨ d.sprawdzCzyDobreParametry = true
  zapisane : Zapisane s

variable {trzymane : List Adres} {noweProcedury : List DeklaracjaProcedury}

private theorem Dobry.poprawne {s : Stan Dziennik} (h : Dobry trzymane [] s) :
    Poprawne s.srodowisko :=
  ⟨h.komorki, fun lista hlista d hd => (h.procedury lista hlista d hd).resolve_left
    List.not_mem_nil⟩

theorem Dobry.zamiana {s : Stan Dziennik} {srodowisko : Srodowisko}
    (h : Dobry trzymane noweProcedury s)
    (hkomorka : ∀ a, s.srodowisko.Komorka a → srodowisko.Komorka a)
    (hlisty : srodowisko.listaListZmiennych = s.srodowisko.listaListZmiennych)
    (hprocedury : srodowisko.listaListaProcedur = s.srodowisko.listaListaProcedur) :
    Dobry trzymane noweProcedury { s with srodowisko := srodowisko } where
  komorki lista hlista a ha := hkomorka a (h.komorki lista (hlisty ▸ hlista) a ha)
  wReku a ha := hkomorka a (h.wReku a ha)
  procedury lista hlista d hd := h.procedury lista (hprocedury ▸ hlista) d hd
  zapisane := h.zapisane

private theorem komorka_setWartosc {srodowisko : Srodowisko} {z a : Adres} (wartosc : Int32)
    (h : srodowisko.Komorka a) : (srodowisko.setWartosc z wartosc).Komorka a := by
  refine ⟨h.1, ?_⟩
  change (if a = z then ({ srodowisko.pamiec z with wartosc := wartosc } : Zmienna)
    else srodowisko.pamiec a).nazwa.isSome
  split
  · rename_i heq
    exact heq ▸ h.2
  · exact h.2

private theorem komorka_nowa {srodowisko : Srodowisko} {a : Adres} (zmienna : Zmienna)
    (h : srodowisko.Komorka a) : (srodowisko.nowa zmienna).Komorka a := by
  refine ⟨Nat.lt_succ_of_lt h.1, ?_⟩
  change (if a = srodowisko.nastepny then zmienna else srodowisko.pamiec a).nazwa.isSome
  rw [if_neg (Nat.ne_of_lt h.1)]
  exact h.2

/-! ## Parts -/

theorem Dobry.mono {wiecej : List Adres} {s : Stan Dziennik} (h : Dobry wiecej noweProcedury s)
    (hsub : trzymane ⊆ wiecej) : Dobry trzymane noweProcedury s :=
  ⟨h.komorki, fun a ha => h.wReku a (hsub ha), h.procedury, h.zapisane⟩

private theorem alikeZapisane :
    Alike (fun (_ _ : Stan Dziennik) => False) Zapisane fun _ => True where
  odczytaj _ := ⟨fun _ _ h => h.elim, fun _ h => h, fun _ h => h⟩
  zmien _ := ⟨fun _ _ h => h.elim, fun _ h => h, fun _ h => h⟩
  wypisz _ := ⟨fun _ _ h => h.elim, fun _ h => h, fun _ h => h⟩

private theorem meets_zglosBlad {α : Type} {Q : α → Stan Dziennik → Prop} (slowo : String)
    (e : Wyjatek) :
    Meets Zapisane (zglosBlad slowo e : Akcja Dziennik α) Q Zapisane :=
  (alikeZapisane.wypisz _).left.meets.bind fun _ => (alikeZapisane.wypisz _).left.meets.bind
    fun _ => (alikeZapisane.odczytaj _).left.meets.bind fun _ =>
    (alikeZapisane.wypiszZmienne _).left.meets.bind fun _ => Meets.exit fun _ h => h

private theorem meets_odczytaj {α : Type} {P E : Stan Dziennik → Prop} (f : Srodowisko → α) :
    Meets P (odczytaj f) (fun _ => P) E :=
  Meets.read fun _ h => h

private theorem meets_wynikiem {α : Type} {P E : Stan Dziennik → Prop} (h : ∀ s, P s → E s)
    (wynik : Except Wyjatek α) :
    Meets P (wynikiem wynik) (fun a s => P s ∧ wynik = .ok a) E := by
  cases wynik with
  | ok a => exact Meets.pure fun _ hs => ⟨hs, rfl⟩
  | error e => exact Meets.raise h

private theorem meets_wynik {α : Type} (wynik : Except Wyjatek α) :
    Meets (Dobry trzymane noweProcedury) (wynikiem wynik)
      (fun _ => Dobry trzymane noweProcedury) Zapisane :=
  (meets_wynikiem (fun _ h => h.zapisane) wynik).mono (fun _ h => h) (fun _ _ h => h.1)
    fun _ h => h

private theorem meets_wypisz {tekst : String} :
    Meets (Dobry trzymane noweProcedury) (wypisz tekst) (fun _ => Dobry trzymane noweProcedury)
      Zapisane :=
  Meets.update fun _ h => ⟨h.komorki, h.wReku, h.procedury, h.zapisane⟩

private theorem meets_setWartosc (z : Adres) (wartosc : Int32) :
    Meets (Dobry trzymane noweProcedury) (zmien (Srodowisko.setWartosc z wartosc))
      (fun _ => Dobry trzymane noweProcedury) Zapisane :=
  Meets.update fun _ h => h.zamiana (fun _ => komorka_setWartosc wartosc) rfl rfl

/-- A call is only seen when all procedures have been tested. -/
private theorem meets_zapamietaj (i : Instrukcja)
    (h : (∀ nazwa wyrazenia, i ≠ .wykonajProcedure nazwa wyrazenia) ∨ noweProcedury = []) :
    Meets (Dobry trzymane noweProcedury) (zapamietaj i)
      (fun _ => Dobry trzymane noweProcedury) Zapisane := by
  refine Meets.update fun s hs => ⟨hs.komorki, hs.wReku, hs.procedury, ?_⟩
  intro nazwa wyrazenia srodowisko hmem
  rcases List.mem_cons.mp hmem with heq | hmem
  · obtain ⟨rfl, rfl⟩ := Prod.mk.inj heq
    rcases h with hnot | rfl
    · exact absurd rfl (hnot nazwa wyrazenia)
    · exact hs.poprawne
  · exact hs.zapisane nazwa wyrazenia srodowisko hmem

private theorem meets_obliczWyrazenie (wyrazenie : Wyrazenie) (zmienne : List Adres) :
    Meets (Dobry trzymane noweProcedury) (obliczWyrazenie wyrazenie zmienne)
      (fun _ => Dobry trzymane noweProcedury) Zapisane :=
  (meets_odczytaj _).bind fun _ => meets_wynik _

private theorem meets_obliczTutaj (wyrazenie : Wyrazenie) :
    Meets (Dobry trzymane noweProcedury) (obliczTutaj wyrazenie)
      (fun _ => Dobry trzymane noweProcedury) Zapisane :=
  (meets_odczytaj _).bind fun _ => meets_obliczWyrazenie wyrazenie _

private theorem meets_obliczZmienna {z : Adres} {zmienne : List Adres} (hz : z ∈ zmienne)
    (hsub : zmienne ⊆ trzymane) :
    Meets (Dobry trzymane noweProcedury) (obliczZmienna z zmienne)
      (fun _ => Dobry trzymane noweProcedury) Zapisane := by
  intro s hs
  have hnazwy : ∀ a ∈ zmienne, (s.srodowisko.pamiec a).nazwa.isSome :=
    fun a ha => (hs.wReku a (hsub ha)).2
  obtain ⟨inna, hinna⟩ := Option.isSome_iff_exists.mp
    (List.find?_isSome.mpr ⟨z, hz, decide_eq_true rfl⟩ :
      (zmienne.find? fun a => (s.srodowisko.pamiec a).nazwa =
        (s.srodowisko.pamiec z).nazwa).isSome = true)
  have hszukaj : (odczytaj fun sr => szukaj sr.pamiec (s.srodowisko.pamiec z).nazwa zmienne) s =
      (.value (.ok (some inna)), s) := by
    rw [← hinna, ← szukaj_eq (s.srodowisko.pamiec z).nazwa hnazwy]
    rfl
  have hrun : obliczZmienna z zmienne s = (.value (s.srodowisko.pamiec inna).wartosc,
      { s with srodowisko := s.srodowisko.setWartosc z (s.srodowisko.pamiec inna).wartosc }) := by
    have hnazwa : (odczytaj fun sr => (sr.pamiec z).nazwa) s =
        (.value (s.srodowisko.pamiec z).nazwa, s) := rfl
    rw [obliczZmienna, Imp.bind_of_value hnazwa, Imp.bind_of_value hszukaj]
    rfl
  rw [hrun]
  exact hs.zamiana (fun _ => komorka_setWartosc _) rfl rfl

private theorem meets_wypiszZmienne {zmienne : List Adres} (hsub : zmienne ⊆ trzymane) :
    Meets (Dobry trzymane noweProcedury) (wypiszZmienne zmienne)
      (fun _ => Dobry trzymane noweProcedury) Zapisane :=
  Meets.forEach fun _ hz => (meets_odczytaj _).bind fun _ =>
    (meets_obliczZmienna hz hsub).bind fun _ => meets_wypisz

private theorem meets_dodajDoSwojejListyZmienne (zmienneSwoje : List Adres) :
    Meets (Dobry (zmienneSwoje ++ trzymane) noweProcedury)
      (dodajDoSwojejListyZmienne zmienneSwoje)
      (fun lista => Dobry (lista ++ trzymane) noweProcedury) Zapisane := by
  intro s hs
  change Imp.EndsIn _ _ (wynikiem (dolacz s.srodowisko.pamiec zmienneSwoje
    s.srodowisko.dajOstatniaListe) s)
  cases hdolacz : dolacz s.srodowisko.pamiec zmienneSwoje s.srodowisko.dajOstatniaListe with
  | error e => exact hs.zapisane
  | ok lista =>
      refine ⟨hs.komorki, fun a ha => ?_, hs.procedury, hs.zapisane⟩
      rcases List.mem_append.mp ha with hlista | htrzymane
      · rcases List.mem_append.mp (dolacz_subset hdolacz hlista) with hswoje | hojca
        · exact hs.wReku a (List.mem_append_left _ hswoje)
        · cases hlisty : s.srodowisko.listaListZmiennych with
          | nil => simp [Srodowisko.dajOstatniaListe, hlisty] at hojca
          | cons ostatnia listy =>
              rw [Srodowisko.dajOstatniaListe, hlisty] at hojca
              exact hs.komorki ostatnia (by simp [hlisty]) a hojca
      · exact hs.wReku a (List.mem_append_right _ htrzymane)

private theorem meets_dodajListeZmiennych (lista : List Adres) (hsub : lista ⊆ trzymane) :
    Meets (Dobry trzymane noweProcedury) (zmien (Srodowisko.dodajListeZmiennych lista))
      (fun _ => Dobry trzymane noweProcedury) Zapisane := by
  refine Meets.update fun s hs => ⟨fun l hl a ha => ?_, hs.wReku, hs.procedury, hs.zapisane⟩
  rcases List.mem_cons.mp hl with rfl | hl
  · exact hs.wReku a (hsub ha)
  · exact hs.komorki l hl a ha

private theorem meets_usunOstatniaListeZmiennych :
    Meets (Dobry trzymane noweProcedury) (zmien Srodowisko.usunOstatniaListeZmiennych)
      (fun _ => Dobry trzymane noweProcedury) Zapisane :=
  Meets.update fun _ hs => ⟨fun l hl => hs.komorki l (List.mem_of_mem_tail hl), hs.wReku,
    hs.procedury, hs.zapisane⟩

private theorem meets_dodajListeProcedur (lista : List DeklaracjaProcedury) :
    Meets (Dobry trzymane []) (zmien (Srodowisko.dodajListeProcedur lista))
      (fun _ => Dobry trzymane lista) Zapisane := by
  refine Meets.update fun s hs => ⟨hs.komorki, hs.wReku, fun l hl d hd => ?_, hs.zapisane⟩
  rcases List.mem_cons.mp hl with rfl | hl
  · exact .inl hd
  · exact .inr (hs.poprawne.procedury l hl d hd)

private theorem meets_usunOstatniaListeProcedur :
    Meets (Dobry trzymane noweProcedury) (zmien Srodowisko.usunOstatniaListeProcedur)
      (fun _ => Dobry trzymane noweProcedury) Zapisane :=
  Meets.update fun _ hs => ⟨hs.komorki, hs.wReku,
    fun l hl => hs.procedury l (List.mem_of_mem_tail hl), hs.zapisane⟩

private theorem meets_opuscBlok {zmienneSwoje : List Adres} (hsub : zmienneSwoje ⊆ trzymane) :
    Meets (Dobry trzymane noweProcedury) (opuscBlok zmienneSwoje)
      (fun _ => Dobry trzymane noweProcedury) Zapisane := by
  refine meets_usunOstatniaListeZmiennych.bind fun _ => meets_usunOstatniaListeProcedur.bind
    fun _ => (meets_odczytaj _).bind fun listy => ?_
  split
  · exact meets_wypiszZmienne hsub
  · exact Meets.pure fun _ h => h

variable [Java]

private theorem meets_nowaZmienna {nazwa : Option String} (h : dobraNazwa nazwa = true) :
    Meets (Dobry trzymane noweProcedury) (nowaZmienna nazwa)
      (fun z => Dobry (z :: trzymane) noweProcedury) Zapisane := by
  intro s hs
  rw [nowaZmienna_dobra h]
  have hkomorka : (s.srodowisko.nowa ⟨nazwa, 0⟩).Komorka s.srodowisko.nastepny := by
    refine ⟨Nat.lt_succ_self _, ?_⟩
    change (if _ = _ then (⟨nazwa, 0⟩ : Zmienna) else _).nazwa.isSome
    rw [if_pos rfl]
    cases nazwa with
    | none => cases h
    | some x => rfl
  have hnowa : Dobry trzymane noweProcedury
      { s with srodowisko := s.srodowisko.nowa ⟨nazwa, 0⟩ } :=
    hs.zamiana (fun _ => komorka_nowa _) rfl rfl
  refine ⟨hnowa.komorki, fun a ha => ?_, hnowa.procedury, hnowa.zapisane⟩
  rcases List.mem_cons.mp ha with rfl | ha
  · exact hkomorka
  · exact hnowa.wReku a ha

private theorem dobraNazwa_litery {s : String} (hlength : s.length = 1)
    (hlitery : malymiLiterami s = true) : dobraNazwa (some s) = true := by
  obtain ⟨c, hc⟩ := List.length_eq_one_iff.mp ((String.length_toList (s := s)).trans hlength)
  have hrange : s ≠ "" ∧ 'a' ≤ c ∧ c ≤ 'z' := by simpa [malymiLiterami, hc] using hlitery
  have hz : c.val.toNat ≤ 122 := UInt32.le_iff_toNat_le.mp hrange.2.2
  have hlower : c.isLower = true :=
    Bool.and_eq_true_iff.mpr ⟨decide_eq_true hrange.2.1, decide_eq_true hrange.2.2⟩
  have hascii : c.val < 128 := UInt32.lt_iff_toNat_lt.mpr (Nat.lt_of_le_of_lt hz (by decide))
  have hplane : c.val < 0x10000 := UInt32.lt_iff_toNat_lt.mpr (Nat.lt_of_le_of_lt hz (by decide))
  simp only [dobraNazwa, hc, Java.isLowerCase_ascii c hascii, hlower, hplane]
  rfl

theorem dobraNazwa_parametru {set parametry : List String}
    (h : DeklaracjaProcedury.sprawdzParametry set parametry = true) :
    (∀ p ∈ parametry, p ∉ set ∧ dobraNazwa (some p) = true) ∧ parametry.Nodup := by
  induction parametry generalizing set with
  | nil => exact ⟨by simp, List.nodup_nil⟩
  | cons p parametry ih =>
      rw [DeklaracjaProcedury.sprawdzParametry] at h
      split at h
      · cases h
      · rename_i hlitera
        split at h
        · cases h
        · rename_i hset
          obtain ⟨hrest, hnodup⟩ := ih h
          refine ⟨fun q hq => ?_, List.nodup_cons.mpr ⟨fun hp => ?_, hnodup⟩⟩
          · rcases List.mem_cons.mp hq with rfl | hq
            · have hlitery : malymiLiterami q = true := by
                simpa using fun hnot => hlitera (.inr hnot)
              exact ⟨hset, dobraNazwa_litery (by tauto) hlitery⟩
            · obtain ⟨hnot, hdobra⟩ := hrest q hq
              exact ⟨fun hmem => hnot (List.mem_cons_of_mem p hmem), hdobra⟩
          · exact (hrest p hp).1 List.mem_cons_self

/-! ## Blocks and procedures -/

private theorem meets_deklarujKolejne (deklaracje : List DeklaracjaZmiennej) (nowe : List Adres) :
    Meets (Dobry (nowe ++ trzymane) noweProcedury) (deklarujKolejne zapamietaj nowe deklaracje)
      (fun lista => Dobry (lista ++ trzymane) noweProcedury) Zapisane := by
  induction deklaracje generalizing nowe with
  | nil => exact Meets.pure fun _ h => h
  | cons deklaracja deklaracje ih =>
      refine (meets_zapamietaj _ (.inl (by simp))).bind fun _ =>
        (meets_wynikiem (fun _ h => h.zapisane) _).bind fun nazwa => Meets.assuming fun hnazwa => ?_
      have hdobra : dobraNazwa nazwa = true := by
        rw [DeklaracjaZmiennej.getNazwa] at hnazwa
        split at hnazwa
        · rename_i hdobra
          obtain rfl := Except.ok.inj hnazwa
          exact hdobra
        · cases hnazwa
      refine (meets_nowaZmienna hdobra).bind fun z =>
        (meets_wynik _).bind fun wartosc => (meets_setWartosc z wartosc).bind fun _ =>
        (meets_odczytaj _).bind fun _ => (meets_wynik _).bind fun istnieje => ?_
      cases istnieje with
      | some a => exact Meets.raise fun _ h => h.zapisane
      | none =>
          refine (ih (nowe ++ [z])).mono (fun _ h => h.mono fun a ha => ?_) (fun _ _ h => h)
            fun _ h => h
          simp only [List.mem_append, List.mem_cons, List.not_mem_nil, or_false] at ha ⊢
          tauto

omit [Java] in
private theorem meets_deklarujNastepne (procedury deklaracje : List DeklaracjaProcedury) :
    Meets (Dobry trzymane procedury) (deklarujNastepne zapamietaj deklaracje procedury)
      (fun _ => Dobry trzymane []) Zapisane := by
  induction procedury generalizing deklaracje with
  | nil => exact Meets.pure fun _ h => h
  | cons deklaracja procedury ih =>
      refine (meets_zapamietaj _ (.inl (by simp))).bind fun _ => ?_
      split
      · exact Meets.raise fun _ h => h.zapisane
      · split
        · exact Meets.raise fun _ h => h.zapisane
        · rename_i hparametry
          split
          · exact Meets.raise fun _ h => h.zapisane
          · refine (ih _).mono (fun s h => ?_) (fun _ _ h => h) fun _ h => h
            refine ⟨h.komorki, h.wReku, fun l hl d hd => ?_, h.zapisane⟩
            rcases h.procedury l hl d hd with hnowa | hdobra
            · rcases List.mem_cons.mp hnowa with rfl | hnowa
              · exact .inr (by simpa using hparametry)
              · exact .inl hnowa
            · exact .inr hdobra

section Instrukcje

variable {wykonaj : Instrukcja → Akcja Dziennik Unit}
  (hwykonaj : ∀ i trzymane, Meets (Dobry trzymane []) (wykonaj i) (fun _ => Dobry trzymane [])
    Zapisane)
include hwykonaj

omit [Java] in
private theorem meets_poKolei (instrukcje : List Instrukcja) :
    Meets (Dobry trzymane []) (poKolei zapamietaj wykonaj instrukcje)
      (fun _ => Dobry trzymane []) Zapisane :=
  Meets.forEach fun i _ => (meets_zapamietaj i (.inr rfl)).bind fun _ => hwykonaj i trzymane

private theorem meets_wykonajBlok (blok : Blok) :
    Meets (Dobry trzymane []) (wykonajBlok zapamietaj wykonaj blok)
      (fun _ => Dobry trzymane []) Zapisane := by
  have hzmienne : Meets (Dobry trzymane []) (deklarujZmienne zapamietaj blok)
      (fun lista => Dobry (lista ++ trzymane) []) Zapisane :=
    Meets.attempt (meets_deklarujKolejne _ []) fun e => meets_zglosBlad _ e
  refine hzmienne.bind fun nowe => (meets_dodajDoSwojejListyZmienne nowe).bind fun swoje =>
    (meets_dodajListeZmiennych swoje (List.subset_append_left _ _)).bind fun _ =>
    (meets_dodajListeProcedur _).bind fun _ =>
    (Meets.attempt (meets_deklarujNastepne _ []) fun e => meets_zglosBlad _ e).bind fun _ =>
    (meets_poKolei hwykonaj _).bind fun _ => ?_
  exact (meets_opuscBlok (List.subset_append_left _ _)).mono (fun _ h => h)
    (fun _ _ h => h.mono (List.subset_append_right _ _)) fun _ h => h

omit [Java] in
private theorem meets_obrot (nazwa : Option String) (zmienneSwoje : List Adres)
    (instrukcje : List Instrukcja) (i : Nat) :
    Meets (Dobry trzymane []) (obrot zapamietaj wykonaj nazwa zmienneSwoje instrukcje i)
      (fun _ => Dobry trzymane []) Zapisane := by
  refine (meets_odczytaj _).bind fun _ => (meets_wynik _).bind fun zmienna =>
    Meets.bind ?_ fun _ => meets_poKolei hwykonaj instrukcje
  cases zmienna with
  | none => exact Meets.update fun _ h => h
  | some z => exact meets_setWartosc z _

private theorem meets_wykonajPetle (nazwa : Option String) (wyrazenie : Wyrazenie)
    (instrukcje : List Instrukcja) :
    Meets (Dobry trzymane []) (wykonajPetle zapamietaj wykonaj nazwa wyrazenie instrukcje)
      (fun _ => Dobry trzymane []) Zapisane := by
  refine Meets.attempt ?_ fun e => meets_zglosBlad _ e
  split
  · exact Meets.raise fun _ h => h.zapisane
  · rename_i hnazwa
    have hlista : Meets (Dobry trzymane []) (stworzListeZmiennych nazwa)
        (fun lista => Dobry (lista ++ trzymane) []) Zapisane :=
      (meets_nowaZmienna (by simpa using hnazwa)).bind fun z => (meets_setWartosc z 0).bind
        fun _ => meets_dodajDoSwojejListyZmienne [z]
    refine hlista.bind fun swoje => (meets_obliczWyrazenie _ _).bind fun wartosc =>
      (meets_dodajListeZmiennych swoje (List.subset_append_left _ _)).bind fun _ =>
      (Meets.forEach fun i _ => meets_obrot hwykonaj nazwa swoje instrukcje i).bind fun _ => ?_
    exact meets_usunOstatniaListeZmiennych.mono (fun _ h => h)
      (fun _ _ h => h.mono (List.subset_append_right _ _)) fun _ h => h

omit [Java] in
private theorem meets_wykonajWarunkowa (lewe prawe : Wyrazenie) (operator : Option String)
    (prawda falsz : List Instrukcja) :
    Meets (Dobry trzymane [])
      (wykonajWarunkowa zapamietaj wykonaj lewe prawe operator prawda falsz)
      (fun _ => Dobry trzymane []) Zapisane :=
  Meets.attempt ((meets_obliczTutaj _).bind fun _ => (meets_obliczTutaj _).bind fun _ =>
    (meets_wynik _).bind fun _ => meets_poKolei hwykonaj _) fun e => meets_zglosBlad _ e

omit hwykonaj

omit [Java] in
private theorem meets_wykonajPrint (wyrazenie : Wyrazenie) :
    Meets (Dobry trzymane []) (wykonajPrint wyrazenie) (fun _ => Dobry trzymane []) Zapisane :=
  Meets.attempt ((meets_odczytaj _).bind fun _ =>
    (meets_wynik _).bind fun _ => (meets_obliczTutaj _).bind fun _ => meets_wypisz) fun e =>
      meets_zglosBlad _ e

omit [Java] in
private theorem meets_wykonajPrzypisanie (nazwa : Option String) (wyrazenie : Wyrazenie) :
    Meets (Dobry trzymane []) (wykonajPrzypisanie nazwa wyrazenie)
      (fun _ => Dobry trzymane []) Zapisane := by
  refine Meets.attempt ((meets_obliczTutaj _).bind fun wartosc => (meets_odczytaj _).bind
    fun _ => (meets_wynik _).bind fun zmienna => ?_) fun e => meets_zglosBlad _ e
  cases zmienna with
  | some z => exact meets_setWartosc z wartosc
  | none => exact Meets.raise fun _ h => h.zapisane

private theorem meets_nowePokolei {parametry : List String}
    (h : ∀ p ∈ parametry, dobraNazwa (some p) = true) :
    Meets (Dobry trzymane []) (nowePokolei parametry)
      (fun lista => Dobry (lista ++ trzymane) []) Zapisane := by
  induction parametry generalizing trzymane with
  | nil => exact Meets.pure fun _ h => h
  | cons p parametry ih =>
      refine (meets_nowaZmienna (h p List.mem_cons_self)).bind fun z =>
        (ih fun q hq => h q (List.mem_cons_of_mem p hq)).bind fun reszta =>
          Meets.pure fun _ hs => hs.mono fun a ha => ?_
      simp only [List.cons_append, List.mem_cons, List.mem_append] at ha ⊢
      tauto

omit [Java] in
private theorem meets_przypiszWartoscZmiennym (wyrazenia : List Wyrazenie) (zmienne : List Adres) :
    Meets (Dobry trzymane []) (przypiszWartoscZmiennym wyrazenia zmienne)
      (fun _ => Dobry trzymane []) Zapisane := by
  unfold przypiszWartoscZmiennym
  split
  · exact (meets_zglosBlad _ _).mono (fun _ h => h.zapisane) (fun _ _ h => h) fun _ h => h
  · exact Meets.forEach fun z _ => (meets_obliczTutaj _).bind fun wartosc =>
      meets_setWartosc z wartosc

private theorem meets_wejdz {deklaracja : DeklaracjaProcedury} (wyrazenia : List Wyrazenie)
    (h : deklaracja.sprawdzCzyDobreParametry = true) :
    Meets (Dobry trzymane []) (wejdz deklaracja wyrazenia) (fun _ => Dobry trzymane [])
      Zapisane := by
  have hdobre := (dobraNazwa_parametru h).1
  refine (meets_nowePokolei fun p hp => (hdobre p hp).2).bind fun swoje =>
    (meets_przypiszWartoscZmiennym wyrazenia swoje).bind fun _ =>
      (meets_dodajDoSwojejListyZmienne swoje).bind fun lista => ?_
  exact (meets_dodajListeZmiennych lista (List.subset_append_left _ _)).mono (fun _ h => h)
    (fun _ _ h => h.mono (List.subset_append_right _ _)) fun _ h => h

omit [Java] in
/-- A procedure that is found has passed the test. -/
theorem dajDeklaracjeProcedury_dobra {srodowisko : Srodowisko} {nazwa : String}
    {deklaracja : DeklaracjaProcedury} (h : Poprawne srodowisko)
    (hfind : srodowisko.dajDeklaracjeProcedury nazwa = some deklaracja) :
    deklaracja.sprawdzCzyDobreParametry = true := by
  obtain ⟨lista, hlista, hmem⟩ := List.mem_flatten.mp (List.mem_of_find?_eq_some hfind)
  exact h.procedury lista hlista deklaracja hmem

include hwykonaj in
private theorem meets_wykonajProcedure (nazwa : String) (wyrazenia : List Wyrazenie) :
    Meets (Dobry trzymane []) (wykonajProcedure zapamietaj wykonaj nazwa wyrazenia)
      (fun _ => Dobry trzymane []) Zapisane := by
  have hznaleziona : Meets (Dobry trzymane [])
      (odczytaj (Srodowisko.dajDeklaracjeProcedury · nazwa))
      (fun znaleziona s => Dobry trzymane [] s ∧ ∀ deklaracja, znaleziona = some deklaracja →
        deklaracja.sprawdzCzyDobreParametry = true) Zapisane :=
    Meets.read fun s hs => ⟨hs, fun _ => dajDeklaracjeProcedury_dobra hs.poprawne⟩
  refine Meets.attempt (hznaleziona.bind fun znaleziona => Meets.assuming fun hdobra => ?_)
    fun e => meets_zglosBlad _ e
  cases znaleziona with
  | none => exact Meets.raise fun _ h => h.zapisane
  | some deklaracja =>
      exact (meets_wejdz wyrazenia (hdobra deklaracja rfl)).bind fun _ =>
        (meets_wykonajBlok hwykonaj _).bind fun _ => meets_usunOstatniaListeZmiennych

end Instrukcje

/-! ## Runs -/

private theorem meets_wykonajInstrukcje (n : Nat) (i : Instrukcja) (trzymane : List Adres) :
    Meets (Dobry trzymane []) (wykonajInstrukcje zapamietaj n i) (fun _ => Dobry trzymane [])
      Zapisane := by
  induction n generalizing i trzymane with
  | zero => exact Meets.raise fun _ h => h.zapisane
  | succ n ih =>
      cases i with
      | przypisanie nazwa wyrazenie => exact meets_wykonajPrzypisanie nazwa wyrazenie
      | print wyrazenie => exact meets_wykonajPrint wyrazenie
      | warunkowa lewe prawe operator prawda falsz =>
          exact meets_wykonajWarunkowa ih lewe prawe operator prawda falsz
      | petla nazwa wyrazenie instrukcje => exact meets_wykonajPetle ih nazwa wyrazenie instrukcje
      | blok blok => exact meets_wykonajBlok ih blok
      | wykonajProcedure nazwa wyrazenia => exact meets_wykonajProcedure ih nazwa wyrazenia
      | deklaracjaProcedury deklaracja => exact meets_wykonajBlok ih deklaracja.dajBlok
      | deklaracjaZmiennej deklaracja => exact Meets.pure fun _ h => h

/-- Every call of every run. -/
theorem poprawne_wywolania (n : Nat) (wejscie : List String) (blokGlowny : Blok) :
    Zapisane (wykonajProgram zapamietaj n [] wejscie blokGlowny).2 := by
  have hstart : Dobry [] [] ⟨Srodowisko.poczatkowe, ([] : Dziennik), wejscie, []⟩ := by
    refine ⟨?_, ?_, ?_, ?_⟩ <;> simp [Srodowisko.poczatkowe, Zapisane]
  have hrun := meets_wykonajBlok (meets_wykonajInstrukcje n) blokGlowny _ hstart
  change Imp.EndsIn _ _ (wykonajProgram zapamietaj n [] wejscie blokGlowny) at hrun
  rcases hend : wykonajProgram zapamietaj n [] wejscie blokGlowny with ⟨ending, s⟩
  rw [hend] at hrun
  cases ending with
  | value u => exact hrun.zapisane
  | raised e => exact hrun
  | exited code => exact hrun

end Mimuw.Interpreter
