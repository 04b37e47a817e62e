import Mathlib.Data.List.Find
import Mathlib.Data.List.Forall2
import Mimuw.Interpreter.WellFormed

/-!
# Calls of procedures

The variables of a procedure are new cells for its parameters and the cells of the
caller whose names are not among them.  The first argument is evaluated for each of the
parameters.
-/

namespace Mimuw.Interpreter

open Mimuw.Lib

/-! ## What is visible -/

/-- The name is that of the cell, where the instructions look for it. -/
def Widzi (srodowisko : Srodowisko) (nazwa : String) (a : Adres) : Prop :=
  szukaj srodowisko.pamiec (some nazwa) srodowisko.dajOstatniaListe = .ok (some a)

/-- Each parameter is visible with the value of its argument. -/
def Zwiazane (srodowisko : Srodowisko) (parametry : List String) (wartosci : List Int32) : Prop :=
  ∀ (i : Nat) (p : String) (v : Int32), parametry[i]? = some p → wartosci[i]? = some v →
    ∃ a, Widzi srodowisko p a ∧ (srodowisko.pamiec a).wartosc = v

/-- The other variables are visible with their cells, and these are as before. -/
def Pozostale (srodowisko srodowisko' : Srodowisko) (parametry : List String) : Prop :=
  ∀ x a, x ∉ parametry → Widzi srodowisko x a →
    Widzi srodowisko' x a ∧ srodowisko'.pamiec a = srodowisko.pamiec a

section Pamiec

variable {pamiec pamiec' : Adres → Zmienna}

private theorem szukaj_congr {zmienne : List Adres} (nazwa : Option String)
    (h : ∀ a ∈ zmienne, pamiec' a = pamiec a) :
    szukaj pamiec' nazwa zmienne = szukaj pamiec nazwa zmienne := by
  induction zmienne with
  | nil => rfl
  | cons z zmienne ih =>
      rw [szukaj, szukaj, h z List.mem_cons_self, ih fun a ha => h a (List.mem_cons_of_mem z ha)]

private theorem szukaj_mem {zmienne : List Adres} {nazwa : Option String} {a : Adres}
    (h : szukaj pamiec nazwa zmienne = .ok (some a)) : a ∈ zmienne := by
  induction zmienne with
  | nil => simp [szukaj] at h
  | cons z zmienne ih =>
      rw [szukaj] at h
      split at h
      · cases h
      · split at h
        · obtain rfl : z = a := by simpa using h
          exact List.mem_cons_self
        · exact List.mem_cons_of_mem z (ih h)

private theorem oblicz_congr {zmienne : List Adres} (wyrazenie : Wyrazenie)
    (h : ∀ a ∈ zmienne, pamiec' a = pamiec a) :
    wyrazenie.oblicz pamiec' zmienne = wyrazenie.oblicz pamiec zmienne := by
  induction wyrazenie with
  | null => rfl
  | literal w => rfl
  | zmienna nazwa =>
      rw [Wyrazenie.oblicz, Wyrazenie.oblicz, szukaj_congr nazwa h]
      cases hszukaj : szukaj pamiec nazwa zmienne with
      | error e => rfl
      | ok wynik =>
          cases wynik with
          | none => rfl
          | some a => simp only [h a (szukaj_mem hszukaj)]
  | operator dzialanie lewe prawe ihl ihp => rw [Wyrazenie.oblicz, Wyrazenie.oblicz, ihl, ihp]

def nazwana (pamiec : Adres → Zmienna) (x : String) (a : Adres) : Bool :=
  (pamiec a).nazwa = some x

/-- A name is looked for among the own cells first. -/
private theorem dolacz_find {ojca : List Adres} (swoje : List Adres)
    (h : ∀ a ∈ ojca, (pamiec a).nazwa.isSome) :
    ∃ lista, dolacz pamiec swoje ojca = .ok lista ∧ ∀ x,
      lista.find? (nazwana pamiec x) =
        (swoje.find? (nazwana pamiec x)).or (ojca.find? (nazwana pamiec x)) := by
  induction ojca generalizing swoje with
  | nil => exact ⟨swoje, rfl, fun x => by simp⟩
  | cons z ojca ih =>
      obtain ⟨y, hy⟩ := Option.isSome_iff_exists.mp (h z List.mem_cons_self)
      have hrest : ∀ a ∈ ojca, (pamiec a).nazwa.isSome :=
        fun a ha => h a (List.mem_cons_of_mem z ha)
      rw [dolacz, hy]
      by_cases hjest : (swoje.any fun a => (pamiec a).nazwa = some y) = true
      · obtain ⟨lista, hlista, hfind⟩ := ih swoje hrest
        refine ⟨lista, by simp only [if_pos hjest, hlista], fun x => ?_⟩
        rw [hfind x, List.find?_cons]
        by_cases hxy : x = y
        · subst hxy
          obtain ⟨a, ha, hname⟩ := List.any_eq_true.mp hjest
          have hsome : (swoje.find? (nazwana pamiec x)).isSome :=
            List.find?_isSome.mpr ⟨a, ha, hname⟩
          obtain ⟨b, hb⟩ := Option.isSome_iff_exists.mp hsome
          rw [hb]
          rfl
        · have hnot : nazwana pamiec x z = false := by
            simpa [nazwana, hy] using fun heq => hxy heq.symm
          rw [hnot]
      · obtain ⟨lista, hlista, hfind⟩ := ih (swoje ++ [z]) hrest
        refine ⟨lista, by simp only [if_neg hjest, hlista], fun x => ?_⟩
        rw [hfind x, List.find?_append, List.find?_cons, List.find?_cons, Option.or_assoc]
        cases nazwana pamiec x z with
        | true => rfl
        | false => simp

private theorem find_nazwana {zmienne : List Adres} {parametry : List String}
    (h : List.Forall₂ (fun a p => (pamiec a).nazwa = some p) zmienne parametry)
    (hnodup : parametry.Nodup) {i : Nat} {p : String} (hp : parametry[i]? = some p) :
    zmienne.find? (nazwana pamiec p) = zmienne[i]? := by
  induction h generalizing i with
  | nil => simp at hp
  | @cons z q zmienne parametry hz _ ih =>
      obtain ⟨hq, hnodup⟩ := List.nodup_cons.mp hnodup
      rw [List.find?_cons]
      cases i with
      | zero =>
          obtain rfl := Option.some.inj hp
          simp [nazwana, hz]
      | succ i =>
          rw [List.getElem?_cons_succ] at hp ⊢
          have hne : nazwana pamiec p z = false := by
            have hpq : q ≠ p := by
              rintro rfl
              exact hq (List.mem_of_getElem? hp)
            simpa [nazwana, hz] using hpq
          rw [hne]
          exact ih hnodup hp

private theorem nazwane_isSome {zmienne : List Adres} {parametry : List String}
    (h : List.Forall₂ (fun a p => (pamiec a).nazwa = some p) zmienne parametry) {a : Adres}
    (ha : a ∈ zmienne) : (pamiec a).nazwa.isSome := by
  induction h with
  | nil => cases ha
  | cons hz _ ih =>
      rcases List.mem_cons.mp ha with rfl | ha
      · rw [hz]
        rfl
      · exact ih ha

private theorem find_nazwana_none {zmienne : List Adres} {parametry : List String}
    (h : List.Forall₂ (fun a p => (pamiec a).nazwa = some p) zmienne parametry) {x : String}
    (hx : x ∉ parametry) : zmienne.find? (nazwana pamiec x) = none := by
  induction h with
  | nil => rfl
  | @cons z q zmienne parametry hz _ ih =>
      obtain ⟨hne, hrest⟩ := not_or.mp (mt List.mem_cons.mpr hx)
      rw [List.find?_cons]
      have hnot : nazwana pamiec x z = false := by
        simpa [nazwana, hz] using fun heq : q = x => hne heq.symm
      rw [hnot]
      exact ih hrest

end Pamiec

/-! ## The steps of a call -/

namespace Srodowisko

def noweKomorki (srodowisko : Srodowisko) (parametry : List String) : Srodowisko :=
  parametry.foldl (fun sr p => sr.nowa ⟨some p, 0⟩) srodowisko

def wpisz (srodowisko : Srodowisko) (zmienne : List Adres) (wartosc : Int32) : Srodowisko :=
  { srodowisko with
    pamiec := fun a =>
      if a ∈ zmienne then { srodowisko.pamiec a with wartosc := wartosc }
      else srodowisko.pamiec a }

variable {srodowisko : Srodowisko}

theorem noweKomorki_frame (parametry : List String) :
    (∀ a < srodowisko.nastepny,
      (srodowisko.noweKomorki parametry).pamiec a = srodowisko.pamiec a) ∧
    (srodowisko.noweKomorki parametry).listaListZmiennych = srodowisko.listaListZmiennych ∧
    (srodowisko.noweKomorki parametry).listaListaProcedur = srodowisko.listaListaProcedur := by
  induction parametry generalizing srodowisko with
  | nil => exact ⟨fun _ _ => rfl, rfl, rfl⟩
  | cons p parametry ih =>
      obtain ⟨hpamiec, hlisty, hprocedury⟩ := @ih (srodowisko.nowa ⟨some p, 0⟩)
      refine ⟨fun a ha => ?_, hlisty, hprocedury⟩
      have hsame := hpamiec a (Nat.lt_succ_of_lt ha)
      rw [noweKomorki, List.foldl_cons, ← noweKomorki, hsame]
      change (if a = srodowisko.nastepny then _ else srodowisko.pamiec a) = _
      rw [if_neg (Nat.ne_of_lt ha)]

private theorem noweKomorki_nazwy (parametry : List String) :
    List.Forall₂ (fun a p => ((srodowisko.noweKomorki parametry).pamiec a).nazwa = some p)
      (List.range' srodowisko.nastepny parametry.length) parametry := by
  induction parametry generalizing srodowisko with
  | nil => exact .nil
  | cons p parametry ih =>
      refine .cons ?_ ih
      have hsame := (@noweKomorki_frame (srodowisko.nowa ⟨some p, 0⟩) parametry).1
        srodowisko.nastepny (Nat.lt_succ_self _)
      rw [noweKomorki, List.foldl_cons, ← noweKomorki, hsame]
      change (if _ = _ then (⟨some p, 0⟩ : Zmienna) else _).nazwa = some p
      rw [if_pos rfl]

private theorem wpisz_nazwa (zmienne : List Adres) (wartosc : Int32) (a : Adres) :
    ((srodowisko.wpisz zmienne wartosc).pamiec a).nazwa = (srodowisko.pamiec a).nazwa := by
  change (if a ∈ zmienne then ({ srodowisko.pamiec a with wartosc := wartosc } : Zmienna)
    else srodowisko.pamiec a).nazwa = _
  split <;> rfl

private theorem wpisz_wartosc {zmienne : List Adres} (wartosc : Int32) {a : Adres}
    (h : a ∈ zmienne) : ((srodowisko.wpisz zmienne wartosc).pamiec a).wartosc = wartosc := by
  change (if a ∈ zmienne then ({ srodowisko.pamiec a with wartosc := wartosc } : Zmienna)
    else srodowisko.pamiec a).wartosc = _
  rw [if_pos h]

private theorem wpisz_inna {zmienne : List Adres} (wartosc : Int32) {a : Adres} (h : a ∉ zmienne) :
    (srodowisko.wpisz zmienne wartosc).pamiec a = srodowisko.pamiec a :=
  if_neg h

theorem wpisz_nil (wartosc : Int32) : srodowisko.wpisz [] wartosc = srodowisko := by
  rw [wpisz]
  simp

private theorem wpisz_cons (z : Adres) (zmienne : List Adres) (wartosc : Int32) :
    (srodowisko.setWartosc z wartosc).wpisz zmienne wartosc =
      srodowisko.wpisz (z :: zmienne) wartosc := by
  rw [wpisz, wpisz, setWartosc, ustaw]
  congr 1
  funext a
  by_cases haz : a = z
  · subst haz
    simp
  · simp [haz]

end Srodowisko

/-- The environment with the parameters in new cells, all with that value. -/
def Srodowisko.zParametrami (srodowisko : Srodowisko) (parametry : List String)
    (wartosc : Int32) : Srodowisko :=
  (srodowisko.noweKomorki parametry).wpisz (.range' srodowisko.nastepny parametry.length) wartosc

section Parametry

variable {srodowisko : Srodowisko} (parametry : List String) (wartosc : Int32)

theorem zParametrami_dawne {a : Adres} (h : a < srodowisko.nastepny) :
    (srodowisko.zParametrami parametry wartosc).pamiec a = srodowisko.pamiec a := by
  have hnot : a ∉ List.range' srodowisko.nastepny parametry.length :=
    fun hmem => absurd (List.mem_range'_1.mp hmem).1 (Nat.not_le.mpr h)
  rw [Srodowisko.zParametrami, Srodowisko.wpisz_inna wartosc hnot]
  exact (Srodowisko.noweKomorki_frame parametry).1 a h

theorem zParametrami_nazwy :
    List.Forall₂
      (fun a p => ((srodowisko.zParametrami parametry wartosc).pamiec a).nazwa = some p)
      (List.range' srodowisko.nastepny parametry.length) parametry :=
  List.Forall₂.imp (fun _ _ h => (Srodowisko.wpisz_nazwa _ wartosc _).trans h)
    (Srodowisko.noweKomorki_nazwy parametry)

theorem zParametrami_wartosc {a : Adres}
    (h : a ∈ List.range' srodowisko.nastepny parametry.length) :
    ((srodowisko.zParametrami parametry wartosc).pamiec a).wartosc = wartosc :=
  Srodowisko.wpisz_wartosc wartosc h

theorem Poprawne.ostatnia (h : Poprawne srodowisko) :
    ∀ a ∈ srodowisko.dajOstatniaListe, srodowisko.Komorka a := by
  intro a ha
  rw [Srodowisko.dajOstatniaListe] at ha
  cases hlisty : srodowisko.listaListZmiennych with
  | nil => simp [hlisty] at ha
  | cons lista listy =>
      rw [hlisty] at ha
      exact h.komorki lista (by simp [hlisty]) a ha

end Parametry

section Kroki

variable {δ : Type} {s : Stan δ}

theorem nowePokolei_eq [Java] {parametry : List String}
    (h : ∀ p ∈ parametry, dobraNazwa (some p) = true) (s : Stan δ) :
    nowePokolei parametry s =
      (.value (List.range' s.srodowisko.nastepny parametry.length),
        { s with srodowisko := s.srodowisko.noweKomorki parametry }) := by
  induction parametry generalizing s with
  | nil => rfl
  | cons p parametry ih =>
      rw [nowePokolei, Imp.bind_of_value (nowaZmienna_dobra (h p List.mem_cons_self) s),
        Imp.bind_of_value (ih (fun q hq => h q (List.mem_cons_of_mem p hq)) _)]
      rfl

private theorem obliczTutaj_eq {wyrazenie : Wyrazenie} {w : Int32}
    (h : wyrazenie.oblicz s.srodowisko.pamiec s.srodowisko.dajOstatniaListe = .ok w) :
    obliczTutaj wyrazenie s = (.value w, s) := by
  change wynikiem (wyrazenie.oblicz s.srodowisko.pamiec s.srodowisko.dajOstatniaListe) s = _
  rw [h]
  rfl

/-- The writing to the new cells does not change the value of the expression. -/
theorem przypisania_eq {wyrazenie : Wyrazenie} {w : Int32} {zmienne : List Adres}
    (h : wyrazenie.oblicz s.srodowisko.pamiec s.srodowisko.dajOstatniaListe = .ok w)
    (hnowe : ∀ z ∈ zmienne, z ∉ s.srodowisko.dajOstatniaListe) :
    Imp.forEach zmienne (fun z => do
        let wartosc ← obliczTutaj wyrazenie
        zmien (Srodowisko.setWartosc z wartosc)) s =
      (.value (), { s with srodowisko := s.srodowisko.wpisz zmienne w }) := by
  induction zmienne generalizing s with
  | nil =>
      rw [Srodowisko.wpisz_nil]
      rfl
  | cons z zmienne ih =>
      have hfirst : (do
          let wartosc ← obliczTutaj wyrazenie
          zmien (Srodowisko.setWartosc z wartosc)) s =
          (.value (), { s with srodowisko := s.srodowisko.setWartosc z w }) := by
        rw [Imp.bind_of_value (obliczTutaj_eq h)]
        rfl
      rw [Imp.forEach, Imp.bind_of_value hfirst, ih ?_ ?_]
      · simp only [Srodowisko.wpisz_cons]
      · refine (oblicz_congr wyrazenie fun a ha => ?_).trans h
        have hne : a ≠ z := by
          rintro rfl
          exact hnowe a List.mem_cons_self ha
        exact if_neg hne
      · exact fun y hy => hnowe y (List.mem_cons_of_mem z hy)

end Kroki

/-! ## Calls -/

section Wywolanie

variable {δ : Type} [Java]

def cialoProcedury (debugger wykonaj : Instrukcja → Akcja δ Unit)
    (deklaracja : DeklaracjaProcedury) : Akcja δ Unit :=
  Imp.attempt (do
    wykonajBlok debugger wykonaj deklaracja.dajBlok
    zmien Srodowisko.usunOstatniaListeZmiennych)
    Wyjatek.lapanyPrzyWywolaniu (zglosBlad "Wywolanie procedury")

private theorem wykonajProcedure_eq {debugger wykonaj : Instrukcja → Akcja δ Unit} {nazwa : String}
    {wyrazenia : List Wyrazenie} {deklaracja : DeklaracjaProcedury} {s s' : Stan δ}
    (hfind : s.srodowisko.dajDeklaracjeProcedury nazwa = some deklaracja)
    (hwejdz : wejdz deklaracja wyrazenia s = (.value (), s')) :
    wykonajProcedure debugger wykonaj nazwa wyrazenia s =
      cialoProcedury debugger wykonaj deklaracja s' := by
  have hznaleziona : (odczytaj (Srodowisko.dajDeklaracjeProcedury · nazwa)) s =
      (.value (some deklaracja), s) := by
    rw [← hfind]
    rfl
  rw [wykonajProcedure, cialoProcedury, Imp.attempt, Imp.bind_of_value hznaleziona, Imp.attempt]
  simp only [Imp.bind_of_value hwejdz]

variable {deklaracja : DeklaracjaProcedury} {wyrazenia : List Wyrazenie}
  {wartosci : List Int32} {s : Stan δ}

/-- The arguments have these values for the caller. -/
abbrev Wartosci (s : Stan δ) (wyrazenia : List Wyrazenie) (wartosci : List Int32) : Prop :=
  List.Forall₂ (fun wyrazenie w =>
    wyrazenie.oblicz s.srodowisko.pamiec s.srodowisko.dajOstatniaListe = .ok w) wyrazenia wartosci

omit [Java] in
private theorem przypiszWartoscZmiennym_eq {zmienne : List Adres} {s' : Stan δ}
    (hlength : wyrazenia.length = zmienne.length) (hwartosci : Wartosci s' wyrazenia wartosci)
    (hnowe : ∀ z ∈ zmienne, z ∉ s'.srodowisko.dajOstatniaListe) :
    przypiszWartoscZmiennym wyrazenia zmienne s' =
      (.value (), { s' with srodowisko := s'.srodowisko.wpisz zmienne (wartosci.headD 0) }) := by
  rw [przypiszWartoscZmiennym, if_neg (by simpa using hlength)]
  cases hwartosci with
  | nil =>
      obtain rfl := List.length_eq_zero_iff.mp hlength.symm
      rw [Srodowisko.wpisz_nil]
      rfl
  | cons h _ => exact przypisania_eq h hnowe

omit [Java] in
/-- The arguments are evaluated when the new cells have been made. -/
private theorem przypisz_parametrom {parametry : List String} (hs : Poprawne s.srodowisko)
    (hlength : wyrazenia.length = parametry.length) (hwartosci : Wartosci s wyrazenia wartosci) :
    przypiszWartoscZmiennym wyrazenia (.range' s.srodowisko.nastepny parametry.length)
        { s with srodowisko := s.srodowisko.noweKomorki parametry } =
      (.value (),
        { s with srodowisko := s.srodowisko.zParametrami parametry (wartosci.headD 0) }) := by
  obtain ⟨hpamiec, hlisty, -⟩ := @Srodowisko.noweKomorki_frame s.srodowisko parametry
  have hsame : (s.srodowisko.noweKomorki parametry).dajOstatniaListe =
      s.srodowisko.dajOstatniaListe := congrArg (List.headD · []) hlisty
  refine przypiszWartoscZmiennym_eq (by rw [List.length_range', hlength]) ?_ ?_
  · refine List.Forall₂.imp (fun wyrazenie w h => ?_) hwartosci
    change wyrazenie.oblicz _ (s.srodowisko.noweKomorki parametry).dajOstatniaListe = _
    rw [hsame, ← h]
    exact oblicz_congr wyrazenie fun a ha => hpamiec a (hs.ostatnia a ha).1
  · intro z hz hmem
    change z ∈ (s.srodowisko.noweKomorki parametry).dajOstatniaListe at hmem
    rw [hsame] at hmem
    exact absurd (List.mem_range'_1.mp hz).1 (Nat.not_le.mpr (hs.ostatnia z hmem).1)

private theorem wejdz_eq (hs : Poprawne s.srodowisko)
    (hparametry : deklaracja.sprawdzCzyDobreParametry = true)
    (hlength : wyrazenia.length = deklaracja.dajListaParametrow.length)
    (hwartosci : Wartosci s wyrazenia wartosci) {sr : Srodowisko}
    (hsr : sr = s.srodowisko.zParametrami deklaracja.dajListaParametrow (wartosci.headD 0)) :
    ∃ lista, wejdz deklaracja wyrazenia s =
        (.value (), { s with srodowisko := sr.dodajListeZmiennych lista }) ∧
      (∀ a ∈ lista, (sr.pamiec a).nazwa.isSome) ∧
      ∀ x, lista.find? (nazwana sr.pamiec x) =
        ((List.range' s.srodowisko.nastepny deklaracja.dajListaParametrow.length).find?
          (nazwana sr.pamiec x)).or
          (s.srodowisko.dajOstatniaListe.find? (nazwana s.srodowisko.pamiec x)) := by
  obtain ⟨hdobre, -⟩ := dobraNazwa_parametru hparametry
  have hostatnia := hs.ostatnia
  have hdawne : ∀ a ∈ s.srodowisko.dajOstatniaListe, sr.pamiec a = s.srodowisko.pamiec a := by
    intro a ha
    rw [hsr]
    exact zParametrami_dawne _ _ (hostatnia a ha).1
  have hojca : ∀ a ∈ s.srodowisko.dajOstatniaListe, (sr.pamiec a).nazwa.isSome := by
    intro a ha
    rw [hdawne a ha]
    exact (hostatnia a ha).2
  obtain ⟨lista, hlista, hfind⟩ := dolacz_find
    (List.range' s.srodowisko.nastepny deklaracja.dajListaParametrow.length) hojca
  have hsame : sr.dajOstatniaListe = s.srodowisko.dajOstatniaListe := by
    rw [hsr, Srodowisko.dajOstatniaListe, Srodowisko.dajOstatniaListe]
    exact congrArg (List.headD · []) (Srodowisko.noweKomorki_frame _).2.1
  refine ⟨lista, ?_, fun a ha => ?_, fun x => ?_⟩
  · rw [wejdz, dajZmienneZParametrow,
      Imp.bind_of_value (nowePokolei_eq (fun p hp => (hdobre p hp).2) s),
      Imp.bind_of_value (przypisz_parametrom hs hlength hwartosci), ← hsr]
    have hdodaj : dodajDoSwojejListyZmienne
        (List.range' s.srodowisko.nastepny deklaracja.dajListaParametrow.length)
        { s with srodowisko := sr } = (.value lista, { s with srodowisko := sr }) := by
      change wynikiem (dolacz sr.pamiec _ sr.dajOstatniaListe) _ = _
      rw [hsame, hlista]
      rfl
    rw [Imp.bind_of_value hdodaj]
    rfl
  · rcases List.mem_append.mp (dolacz_subset hlista ha) with hnowe | hjego
    · rw [hsr]
      exact nazwane_isSome (zParametrami_nazwy _ _) hnowe
    · exact hojca a hjego
  · rw [hfind x]
    congr 1
    exact List.find?_congr fun a ha => by rw [nazwana, nazwana, hdawne a ha]

omit [Java] in
private theorem widzi_iff {sr : Srodowisko} {lista : List Adres}
    (hnazwy : ∀ a ∈ lista, (sr.pamiec a).nazwa.isSome) (x : String) (a : Adres) :
    Widzi (sr.dodajListeZmiennych lista) x a ↔ lista.find? (nazwana sr.pamiec x) = some a := by
  change szukaj sr.pamiec (some x) lista = _ ↔ _
  rw [szukaj_eq (some x) hnazwy, Except.ok.injEq]
  rfl

omit [Java] in
/-- The parameters are in the new cells, and these have the first value. -/
private theorem zwiazane_iff {sr : Srodowisko} {parametry : List String} {nowe : List Adres}
    (hwidzi : ∀ (i : Nat) p a, parametry[i]? = some p → (Widzi sr p a ↔ nowe[i]? = some a))
    (hwartosc : ∀ a ∈ nowe, (sr.pamiec a).wartosc = wartosci.headD 0)
    (hnowe : nowe.length = parametry.length) (hwartosci : wartosci.length = parametry.length) :
    Zwiazane sr parametry wartosci ↔ ∀ w ∈ wartosci, wartosci.head? = some w := by
  have hhead {w : Int32} (hw : w ∈ wartosci) :
      wartosci.head? = some w ↔ wartosci.headD 0 = w := by
    cases wartosci with
    | nil => cases hw
    | cons v wartosci => simp
  constructor
  · intro h w hw
    obtain ⟨i, hi, hget⟩ := List.getElem_of_mem hw
    obtain ⟨a, ha, hvalue⟩ := h i parametry[i] w (List.getElem?_eq_getElem (by omega))
      (by rw [List.getElem?_eq_getElem hi, hget])
    have hcell := (hwidzi i _ a (List.getElem?_eq_getElem (by omega))).mp ha
    rw [hhead hw, ← hvalue, hwartosc a (List.mem_of_getElem? hcell)]
  · intro h i p w hp hw
    have hi : i < nowe.length := by
      have := (List.getElem?_eq_some_iff.mp hp).1
      omega
    have hcell : nowe[i]? = some nowe[i] := List.getElem?_eq_getElem hi
    have hmem := List.mem_of_getElem? hw
    refine ⟨nowe[i], (hwidzi i p _ hp).mpr hcell, ?_⟩
    rw [hwartosc _ (List.mem_of_getElem? hcell)]
    exact (hhead hmem).mp (h w hmem)

/-- A call in the environment of the caller, up to the body of the procedure. -/
private theorem wejdz_iff (hs : Poprawne s.srodowisko)
    (hparametry : deklaracja.sprawdzCzyDobreParametry = true)
    (hlength : wyrazenia.length = deklaracja.dajListaParametrow.length)
    (hwartosci : Wartosci s wyrazenia wartosci) :
    ∃ s', wejdz deklaracja wyrazenia s = (.value (), s') ∧
      Pozostale s.srodowisko s'.srodowisko deklaracja.dajListaParametrow ∧
      (Zwiazane s'.srodowisko deklaracja.dajListaParametrow wartosci ↔
        ∀ w ∈ wartosci, wartosci.head? = some w) := by
  obtain ⟨-, hnodup⟩ := dobraNazwa_parametru hparametry
  obtain ⟨lista, hwejdz, hnazwy, hfind⟩ := wejdz_eq hs hparametry hlength hwartosci rfl
  have hkomorki := @zParametrami_nazwy s.srodowisko deklaracja.dajListaParametrow
    (wartosci.headD 0)
  refine ⟨_, hwejdz, fun x a hx ha => ?_, ?_⟩
  · have hostatnia : szukaj s.srodowisko.pamiec (some x) s.srodowisko.dajOstatniaListe =
        .ok (some a) := ha
    have hmem := szukaj_mem hostatnia
    rw [szukaj_eq (some x) fun b hb => (hs.ostatnia b hb).2, Except.ok.injEq] at hostatnia
    refine ⟨(widzi_iff hnazwy x a).mpr ?_, zParametrami_dawne _ _ (hs.ostatnia a hmem).1⟩
    rw [hfind x, find_nazwana_none hkomorki hx]
    exact hostatnia
  · refine zwiazane_iff (fun i p a hp => ?_) (fun _ => zParametrami_wartosc _ _)
      List.length_range' (hwartosci.length_eq.symm.trans hlength)
    have hi : i < deklaracja.dajListaParametrow.length := (List.getElem?_eq_some_iff.mp hp).1
    rw [widzi_iff hnazwy, hfind p, find_nazwana hkomorki hnodup hp, List.getElem?_range' hi]
    rfl

/-- The body of a procedure starts in an environment where the other variables of the
caller are visible with their cells; the parameters are bound to the arguments if and
only if all arguments have the value of the first one. -/
theorem wykonajProcedure_iff {nazwa : String} (hs : Poprawne s.srodowisko)
    (hfind : s.srodowisko.dajDeklaracjeProcedury nazwa = some deklaracja)
    (hlength : wyrazenia.length = deklaracja.dajListaParametrow.length)
    (hwartosci : Wartosci s wyrazenia wartosci) :
    ∃ s', wejdz deklaracja wyrazenia s = (.value (), s') ∧
      (∀ debugger wykonaj, wykonajProcedure debugger wykonaj nazwa wyrazenia s =
        cialoProcedury debugger wykonaj deklaracja s') ∧
      Pozostale s.srodowisko s'.srodowisko deklaracja.dajListaParametrow ∧
      (Zwiazane s'.srodowisko deklaracja.dajListaParametrow wartosci ↔
        ∀ w ∈ wartosci, wartosci.head? = some w) := by
  obtain ⟨s', hwejdz, hpozostale, hiff⟩ :=
    wejdz_iff hs (dajDeklaracjeProcedury_dobra hs hfind) hlength hwartosci
  exact ⟨s', hwejdz, fun _ _ => wykonajProcedure_eq hfind hwejdz, hpozostale, hiff⟩

end Wywolanie

/-! ## Two arguments -/

abbrev ascii : Java :=
  ⟨Char.isLower, fun c => if c.isDigit then some (c.toNat - '0'.toNat) else none,
    fun _ => false, fun _ _ => rfl, fun _ _ => rfl⟩

/-- `procedure p(a, b) {}` -/
def dwaParametry : DeklaracjaProcedury := .mk "p" ["a", "b"] (.mk [] [] [])

def zProcedura : Stan Nat := ⟨⟨fun _ => ⟨none, 0⟩, 0, [[]], [[dwaParametry]]⟩, 0, [], []⟩

private theorem poprawne_zProcedura : Poprawne zProcedura.srodowisko := by
  refine ⟨by simp [zProcedura], fun lista hlista d hd => ?_⟩
  obtain rfl : lista = [dwaParametry] := by simpa [zProcedura] using hlista
  obtain rfl : d = dwaParametry := by simpa using hd
  decide

theorem wykonajProcedure_iff_siedem : ∃ _ : Java, ∃ s',
    wejdz dwaParametry [.literal 7, .literal 7] zProcedura = (.value (), s') ∧
      Zwiazane s'.srodowisko ["a", "b"] [7, 7] := by
  refine ⟨ascii, ?_⟩
  obtain ⟨s', hwejdz, -, -, hiff⟩ := @wykonajProcedure_iff Nat ascii dwaParametry
    [.literal 7, .literal 7] [7, 7] zProcedura "p" poprawne_zProcedura rfl rfl
    (.cons rfl (.cons rfl .nil))
  exact ⟨s', hwejdz, hiff.mpr (by simp)⟩

/-- `p(1, 2)` -/
theorem wejdz_wrong : ¬ ∃ _ : Java, ∀ (deklaracja : DeklaracjaProcedury)
    (wyrazenia : List Wyrazenie) (wartosci : List Int32) (s s' : Stan Nat),
    Poprawne s.srodowisko → deklaracja.sprawdzCzyDobreParametry = true →
      wyrazenia.length = deklaracja.dajListaParametrow.length → Wartosci s wyrazenia wartosci →
      wejdz deklaracja wyrazenia s = (.value (), s') →
        Zwiazane s'.srodowisko deklaracja.dajListaParametrow wartosci := by
  rintro ⟨_, h⟩
  have hwartosci : Wartosci zProcedura [.literal 1, .literal 2] [1, 2] :=
    .cons rfl (.cons rfl .nil)
  obtain ⟨s', hwejdz, -, hiff⟩ := @wejdz_iff Nat _ dwaParametry _ _ zProcedura
    poprawne_zProcedura (by decide) rfl hwartosci
  have hzwiazane := h dwaParametry _ _ zProcedura s' poprawne_zProcedura (by decide) rfl
    hwartosci hwejdz
  exact absurd (hiff.mp hzwiazane 2 (by simp)) (by simp)

example : (@wykonajBezDebugga ascii 3 [] (.mk []
    [.wykonajProcedure "p" [.literal 1, .literal 2]]
    [.mk "p" ["a", "b"] (.mk [] [.print (.zmienna "a"), .print (.zmienna "b")] [])])).2.wyjscie =
      [.linia "1", .linia "1"] := by decide

end Mimuw.Interpreter
