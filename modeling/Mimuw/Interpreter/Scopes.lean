import Mimuw.Interpreter.Frames
import Mimuw.Lib.Coupled

/-!
# Scopes

An instruction does in the environment what it does in the chain of frames, whatever
looks on at the instructions.  It leaves the lists of variables and of procedures as
they were.
-/

namespace Mimuw.Interpreter

open Mimuw.Lib
open Mimuw.Lib.Imp (Coupled Couples)

/-! ## Environments and chains -/

/-- The cells of the frames, the lists of variables and those of procedures. -/
structure Zarys where
  wlasne : List (List Adres)
  listy : List (List Adres)
  procedury : List (List DeklaracjaProcedury)

section Zgodnosc

variable {δ : Type} {obok : List Zdarzenie → List String → List Zdarzenie → Prop}

/-- The environment has the frames of the chain; some procedures have not been tested
yet, and `obok` is about the outputs and the input. -/
structure Zgodne (obok : List Zdarzenie → List String → List Zdarzenie → Prop) (z : Zarys)
    (nowe : List DeklaracjaProcedury) (s : Stan δ) (t : Lancuch) : Prop where
  komorki : Komorki s.srodowisko z.wlasne t.ramki
  listy : s.srodowisko.listaListZmiennych = z.listy
  listy_eq : z.listy = plaskie s.srodowisko.pamiec z.wlasne
  procedury : s.srodowisko.listaListaProcedur = z.procedury
  lancuch : t.procedury = z.procedury
  sprawdzone : ∀ lista ∈ z.procedury, ∀ d ∈ lista,
    d ∈ nowe ∨ d.sprawdzCzyDobreParametry = true
  obok : obok s.wyjscie s.wejscie t.wyjscie

def Gdzies (obok : List Zdarzenie → List String → List Zdarzenie → Prop) (s : Stan δ)
    (t : Lancuch) : Prop :=
  ∃ z nowe, Zgodne obok z nowe s t

/-- A frame is in hand. -/
abbrev Trzymane (obok : List Zdarzenie → List String → List Zdarzenie → Prop) (z : Zarys)
    (nowe : List DeklaracjaProcedury) (swoje : List Adres) (ramka : Ramka) (s : Stan δ)
    (t : Lancuch) : Prop :=
  Zgodne obok z nowe s t ∧ Komorki s.srodowisko (swoje :: z.wlasne) (ramka :: t.ramki)

variable {z : Zarys} {nowe : List DeklaracjaProcedury} {s : Stan δ} {t : Lancuch}

theorem Zgodne.ostatnia (h : Zgodne obok z nowe s t) :
    s.srodowisko.dajOstatniaListe = widac s.srodowisko.pamiec z.wlasne := by
  rw [Srodowisko.dajOstatniaListe, h.listy, h.listy_eq]
  rfl

private theorem Zgodne.gdzies (h : Zgodne obok z nowe s t) : Gdzies obok s t := ⟨z, nowe, h⟩

theorem Zgodne.zamiana (h : Zgodne obok z nowe s t) {srodowisko : Srodowisko}
    {ramki : List Ramka} (hkomorki : Komorki srodowisko z.wlasne ramki)
    (hnazwy : ∀ a ∈ z.wlasne.flatten,
      (srodowisko.pamiec a).nazwa = (s.srodowisko.pamiec a).nazwa)
    (hlisty : srodowisko.listaListZmiennych = s.srodowisko.listaListZmiennych)
    (hprocedury : srodowisko.listaListaProcedur = s.srodowisko.listaListaProcedur) :
    Zgodne obok z nowe { s with srodowisko := srodowisko } { t with ramki := ramki } where
  komorki := hkomorki
  listy := hlisty.trans h.listy
  listy_eq := h.listy_eq.trans (plaskie_congr hnazwy).1.symm
  procedury := hprocedury.trans h.procedury
  lancuch := h.lancuch
  sprawdzone := h.sprawdzone
  obok := h.obok

theorem Zgodne.zostaje (h : Zgodne obok z nowe s t) {srodowisko : Srodowisko}
    (hpamiec : ∀ a < s.srodowisko.nastepny, srodowisko.pamiec a = s.srodowisko.pamiec a)
    (hnastepny : s.srodowisko.nastepny ≤ srodowisko.nastepny)
    (hlisty : srodowisko.listaListZmiennych = s.srodowisko.listaListZmiennych)
    (hprocedury : srodowisko.listaListaProcedur = s.srodowisko.listaListaProcedur) :
    Zgodne obok z nowe { s with srodowisko := srodowisko } t :=
  h.zamiana (h.komorki.zostaje hpamiec hnastepny)
    (fun a ha => by rw [hpamiec a (h.komorki.zrobione a ha)]) hlisty hprocedury

private theorem Zgodne.dodaj {swoje : List Adres} {ramka : Ramka}
    (h : Trzymane obok z nowe swoje ramka s t)
    {lista : List Adres} (hlista : lista = widac s.srodowisko.pamiec (swoje :: z.wlasne)) :
    Zgodne obok ⟨swoje :: z.wlasne, lista :: z.listy, z.procedury⟩ nowe
      { s with srodowisko := s.srodowisko.dodajListeZmiennych lista }
      { t with ramki := ramka :: t.ramki } where
  komorki := ⟨h.2.wartosci, h.2.rozne, h.2.zrobione, h.2.nazwy⟩
  listy := congrArg (lista :: ·) h.1.listy
  listy_eq := by rw [hlista, h.1.listy_eq]; rfl
  procedury := h.1.procedury
  lancuch := h.1.lancuch
  sprawdzone := h.1.sprawdzone
  obok := h.1.obok

private theorem Zgodne.usun {swoje : List Adres} {wlasne : List (List Adres)} {lista : List Adres}
    {listy : List (List Adres)} {procedury : List (List DeklaracjaProcedury)}
    (h : Zgodne obok ⟨swoje :: wlasne, lista :: listy, procedury⟩ nowe s t) :
    Zgodne obok ⟨wlasne, listy, procedury⟩ nowe
      { s with srodowisko := s.srodowisko.usunOstatniaListeZmiennych }
      { t with ramki := t.ramki.tail } where
  komorki := by
    obtain ⟨ramki, procedury', wyjscie⟩ := t
    cases ramki with
    | nil => cases h.komorki.wartosci
    | cons ramka ramki =>
        have htail := h.komorki.tail
        exact ⟨htail.wartosci, htail.rozne, htail.zrobione, htail.nazwy⟩
  listy := by
    change s.srodowisko.listaListZmiennych.tail = listy
    rw [h.listy]
    rfl
  listy_eq := (List.cons.inj h.listy_eq).2
  procedury := h.procedury
  lancuch := h.lancuch
  sprawdzone := h.sprawdzone
  obok := h.obok

private theorem Zgodne.dodajProcedury (h : Zgodne obok z [] s t)
    (lista : List DeklaracjaProcedury) :
    Zgodne obok ⟨z.wlasne, z.listy, lista :: z.procedury⟩ lista
      { s with srodowisko := s.srodowisko.dodajListeProcedur lista }
      { t with procedury := lista :: t.procedury } where
  komorki := ⟨h.komorki.wartosci, h.komorki.rozne, h.komorki.zrobione, h.komorki.nazwy⟩
  listy := h.listy
  listy_eq := h.listy_eq
  procedury := congrArg (lista :: ·) h.procedury
  lancuch := congrArg (lista :: ·) h.lancuch
  sprawdzone l hl d hd := by
    rcases List.mem_cons.mp hl with rfl | hl
    · exact .inl hd
    · exact .inr ((h.sprawdzone l hl d hd).resolve_left List.not_mem_nil)
  obok := h.obok

private theorem Zgodne.usunProcedury {wlasne listy : List (List Adres)}
    {lista : List DeklaracjaProcedury} {procedury : List (List DeklaracjaProcedury)}
    (h : Zgodne obok ⟨wlasne, listy, lista :: procedury⟩ [] s t) :
    Zgodne obok ⟨wlasne, listy, procedury⟩ []
      { s with srodowisko := s.srodowisko.usunOstatniaListeProcedur }
      { t with procedury := t.procedury.tail } where
  komorki := ⟨h.komorki.wartosci, h.komorki.rozne, h.komorki.zrobione, h.komorki.nazwy⟩
  listy := h.listy
  listy_eq := h.listy_eq
  procedury := by
    change s.srodowisko.listaListaProcedur.tail = procedury
    rw [h.procedury]
    rfl
  lancuch := by
    change t.procedury.tail = procedury
    rw [h.lancuch]
    rfl
  sprawdzone l hl := h.sprawdzone l (List.mem_cons_of_mem lista hl)
  obok := h.obok

end Zgodnosc

/-! ## Printing -/

section Wypisywanie

variable {δ : Type} {s : Stan δ}

theorem obliczZmienna_eq {z : Adres} {zmienne : List Adres} (hz : z ∈ zmienne)
    (hsome : ∀ a ∈ zmienne, (s.srodowisko.pamiec a).nazwa.isSome)
    (hnodup : (zmienne.map fun a => (s.srodowisko.pamiec a).nazwa).Nodup) :
    obliczZmienna z zmienne s = (.value (s.srodowisko.pamiec z).wartosc, s) := by
  have hfind : zmienne.find? (fun a => (s.srodowisko.pamiec a).nazwa =
      (s.srodowisko.pamiec z).nazwa) = some z := by
    obtain ⟨inna, hinna⟩ := Option.isSome_iff_exists.mp
      (List.find?_isSome.mpr ⟨z, hz, decide_eq_true rfl⟩ :
        (zmienne.find? fun a => (s.srodowisko.pamiec a).nazwa =
          (s.srodowisko.pamiec z).nazwa).isSome = true)
    have hname := List.find?_some hinna
    have hsame := List.inj_on_of_nodup_map hnodup (List.mem_of_find?_eq_some hinna) hz
      (of_decide_eq_true hname)
    rw [hinna, hsame]
  have hnazwa : (odczytaj fun sr => (sr.pamiec z).nazwa) s =
      (.value (s.srodowisko.pamiec z).nazwa, s) := rfl
  have hszukaj : (odczytaj fun sr => szukaj sr.pamiec (s.srodowisko.pamiec z).nazwa zmienne) s =
      (.value (.ok (some z)), s) := by
    rw [← hfind, ← szukaj_eq (s.srodowisko.pamiec z).nazwa hsome]
    rfl
  have hself : s.srodowisko.setWartosc z (s.srodowisko.pamiec z).wartosc = s.srodowisko := by
    rw [Srodowisko.setWartosc, Srodowisko.ustaw]
    congr 1
    funext a
    by_cases ha : a = z
    · rw [if_pos ha, ha]
    · rw [if_neg ha]
  rw [obliczZmienna, Imp.bind_of_value hnazwa, Imp.bind_of_value hszukaj]
  change (Ending.value (s.srodowisko.pamiec z).wartosc,
    { s with srodowisko := s.srodowisko.setWartosc z (s.srodowisko.pamiec z).wartosc }) = _
  rw [hself]

theorem wypiszZmienne_eq {zmienne : List Adres} {ramka : Ramka}
    (h : Trzyma s.srodowisko.pamiec zmienne ramka) (hnodup : (ramka.map Prod.fst).Nodup) :
    wypiszZmienne zmienne s =
      (.value (), { s with wyjscie := ramka.linie.reverse ++ s.wyjscie }) := by
  have hnames : (zmienne.map fun a => (s.srodowisko.pamiec a).nazwa).Nodup := by
    rw [h.nazwy]
    have hsome := hnodup.map (Option.some_injective String)
    rwa [List.map_map] at hsome
  suffices hreszta : ∀ {reszta : List Adres} {r : Ramka} (s' : Stan δ),
      s'.srodowisko = s.srodowisko → reszta ⊆ zmienne → Trzyma s.srodowisko.pamiec reszta r →
      Imp.forEach reszta (fun z => do
        let nazwa ← odczytaj fun s => (s.pamiec z).nazwa
        let wartosc ← obliczZmienna z zmienne
        wypisz ("Nazwa " ++ nazwa.getD "null" ++ "| Wartosc " ++ toString wartosc)) s' =
        (.value (), { s' with wyjscie := r.linie.reverse ++ s'.wyjscie }) from
    hreszta s rfl (List.Subset.refl _) h
  intro reszta r s' hs' hsub hr
  induction hr generalizing s' with
  | nil => rfl
  | @cons z y reszta r hy _ ih =>
      have hz := hsub List.mem_cons_self
      have hnazwa : (odczytaj fun s => (s.pamiec z).nazwa) s' = (.value (some y.1), s') := by
        change (Ending.value (s'.srodowisko.pamiec z).nazwa, s') = _
        rw [hs', hy]
      have hwartosc : obliczZmienna z zmienne s' = (.value y.2, s') := by
        rw [obliczZmienna_eq hz (hs'.symm ▸ h.isSome) (hs'.symm ▸ hnames), hs', hy]
      have hbody : (do
          let nazwa ← odczytaj fun s => (s.pamiec z).nazwa
          let wartosc ← obliczZmienna z zmienne
          wypisz ("Nazwa " ++ nazwa.getD "null" ++ "| Wartosc " ++ toString wartosc)) s' =
          (.value (), { s' with
            wyjscie := .linia ("Nazwa " ++ y.1 ++ "| Wartosc " ++ toString y.2) ::
              s'.wyjscie }) := by
        rw [Imp.bind_of_value hnazwa, Imp.bind_of_value hwartosc]
        rfl
      have hrest := ih { s' with
        wyjscie := .linia ("Nazwa " ++ y.1 ++ "| Wartosc " ++ toString y.2) :: s'.wyjscie }
        hs' fun a ha => hsub (List.mem_cons_of_mem z ha)
      rw [Imp.forEach, Imp.bind_of_value hbody]
      refine hrest.trans ?_
      simp [Ramka.linie]

end Wypisywanie

/-! ## The cells of a call -/

section Parametry

variable {δ : Type} {obok : List Zdarzenie → List String → List Zdarzenie → Prop}

private theorem nastepny_noweKomorki (srodowisko : Srodowisko) (parametry : List String) :
    (srodowisko.noweKomorki parametry).nastepny = srodowisko.nastepny + parametry.length := by
  induction parametry generalizing srodowisko with
  | nil => rfl
  | cons p parametry ih =>
      rw [Srodowisko.noweKomorki, List.foldl_cons, ← Srodowisko.noweKomorki, ih,
        List.length_cons]
      change srodowisko.nastepny + 1 + _ = _
      rw [Nat.add_right_comm, Nat.add_assoc]

private theorem trzyma_parametry {z : Zarys} {s : Stan δ} {t : Lancuch} (h : Zgodne obok z [] s t)
    {parametry : List String} (hparametry : parametry.Nodup) (v : Int32) :
    Trzymane obok z [] (.range' s.srodowisko.nastepny parametry.length)
      (parametry.map fun p => (p, v))
      { s with srodowisko := s.srodowisko.zParametrami parametry v } t := by
  have hdawne : ∀ a < s.srodowisko.nastepny,
      (s.srodowisko.zParametrami parametry v).pamiec a = s.srodowisko.pamiec a :=
    fun a ha => zParametrami_dawne parametry v ha
  have hnastepny : (s.srodowisko.zParametrami parametry v).nastepny =
      s.srodowisko.nastepny + parametry.length :=
    nastepny_noweKomorki _ _
  have hle : s.srodowisko.nastepny ≤ (s.srodowisko.zParametrami parametry v).nastepny :=
    hnastepny ▸ Nat.le_add_right _ _
  have hramka := @Srodowisko.noweKomorki_frame s.srodowisko parametry
  refine ⟨h.zostaje hdawne hle hramka.2.1 hramka.2.2, (h.komorki.zostaje hdawne hle).cons
    ?_ List.nodup_range' (fun a ha hmem => ?_) (fun a ha => ?_) ?_⟩
  · have hnazwy := @zParametrami_nazwy s.srodowisko parametry v
    refine List.forall₂_map_right_iff.mpr (List.Forall₂.imp (fun a p hp => ?_)
      ((List.forall₂_and_left _ _).mpr ⟨fun a ha => ha, hnazwy⟩))
    have hwartosc := zParametrami_wartosc parametry v hp.1
    exact congrArg₂ Zmienna.mk hp.2 hwartosc
  · exact absurd (List.mem_range'_1.mp ha).1 (Nat.not_le.mpr (h.komorki.zrobione a hmem))
  · rw [hnastepny]
    exact (List.mem_range'_1.mp ha).2
  · rw [List.map_map]
    simpa [Function.comp_def] using hparametry

end Parametry

/-! ## Instructions and their meaning -/

section Znaczenie

variable {δ : Type} {obok : List Zdarzenie → List String → List Zdarzenie → Prop}
  {S : Wyjatek ⊕ Int → Stan δ → Prop}

/-- What looks on at the instructions leaves the environment alone, or it stops the
program. -/
structure Obserwator (obok : List Zdarzenie → List String → List Zdarzenie → Prop)
    (S : Wyjatek ⊕ Int → Stan δ → Prop) (debugger : Instrukcja → Akcja δ Unit) : Prop where
  zdarzenie : ∀ {o i o'} zdarzenie, obok o i o' → obok (zdarzenie :: o) i (zdarzenie :: o')
  przerwanie : ∀ e s, S (.inl e) s → e = .noSuchElement
  debugger : ∀ i z nowe s t, Zgodne obok z nowe s t →
    Coupled (fun _ _ s' t' => s'.srodowisko = s.srodowisko ∧ t' = t ∧
      obok s'.wyjscie s'.wejscie t.wyjscie) (Gdzies obok) S (debugger i s)
      ((.value (), t) : Ending Wyjatek Unit × Lancuch)

namespace Obserwator

variable {debugger : Instrukcja → Akcja δ Unit} (hob : Obserwator obok S debugger)
  {z : Zarys} {nowe : List DeklaracjaProcedury}
include hob

private theorem patrzy (i : Instrukcja) (P : Srodowisko → List Ramka → Prop) :
    Couples (fun s t => Zgodne obok z nowe s t ∧ P s.srodowisko t.ramki) (debugger i)
      (pure () : Lancuch.Akcja Unit)
      (fun _ _ s t => Zgodne obok z nowe s t ∧ P s.srodowisko t.ramki) (Gdzies obok) S := by
  intro s t h
  refine (hob.debugger i z nowe s t h.1).mono (fun _ _ s' t' h' => ?_) fun _ _ h' => h'
  obtain ⟨hsame, rfl, hobok⟩ := h'
  rw [hsame]
  refine ⟨⟨?_, ?_, ?_, ?_, h.1.lancuch, h.1.sprawdzone, hobok⟩, h.2⟩
  · rw [hsame]
    exact h.1.komorki
  · rw [hsame]
    exact h.1.listy
  · rw [hsame]
    exact h.1.listy_eq
  · rw [hsame]
    exact h.1.procedury

private theorem patrzyTu (i : Instrukcja) :
    Couples (Zgodne obok z nowe) (debugger i) (pure () : Lancuch.Akcja Unit)
      (fun _ _ => Zgodne obok z nowe) (Gdzies obok) S :=
  (hob.patrzy i fun _ _ => True).mono (fun _ _ h => ⟨h, trivial⟩) fun _ _ _ _ h => h.1

private theorem wolny {caught : Wyjatek → Bool} (h : caught .noSuchElement = false) (e : Wyjatek)
    (s : Stan δ) (hs : S (.inl e) s) : caught e = false := by
  rw [hob.przerwanie e s hs, h]

/-! ### Parts -/

theorem wypisz (tekst : String) :
    Couples (Zgodne obok z nowe) (wypisz tekst) (Lancuch.wypisz tekst)
      (fun _ _ => Zgodne obok z nowe) (Gdzies obok) S :=
  Couples.update fun _ _ h => ⟨⟨h.komorki.wartosci, h.komorki.rozne, h.komorki.zrobione,
    h.komorki.nazwy⟩, h.listy, h.listy_eq, h.procedury, h.lancuch, h.sprawdzone,
    hob.zdarzenie _ h.obok⟩

private theorem obok_append {o : List Zdarzenie} {i : List String} {o' : List Zdarzenie}
    (zdarzenia : List Zdarzenie) (h : obok o i o') : obok (zdarzenia ++ o) i (zdarzenia ++ o') := by
  induction zdarzenia with
  | nil => exact h
  | cons zdarzenie zdarzenia ih => exact hob.zdarzenie zdarzenie ih

/-- The list has the variables that are visible in the chain. -/
theorem wypiszZmienne (lista : List Adres) (ramka : Ramka) :
    Couples (fun s t => Zgodne obok z nowe s t ∧ Trzyma s.srodowisko.pamiec lista ramka ∧
        (ramka.map Prod.fst).Nodup)
      (wypiszZmienne lista) (Lancuch.wypiszZmienne ramka) (fun _ _ => Zgodne obok z nowe)
      (Gdzies obok) S := by
  rintro s t ⟨h, htrzyma, hnodup⟩
  rw [wypiszZmienne_eq htrzyma hnodup]
  exact .value ⟨⟨h.komorki.wartosci, h.komorki.rozne, h.komorki.zrobione, h.komorki.nazwy⟩,
    h.listy, h.listy_eq, h.procedury, h.lancuch, h.sprawdzone, hob.obok_append _ h.obok⟩

theorem zglosBlad {α β : Type} {Q : α → β → Stan δ → Lancuch → Prop} (slowo : String)
    (e : Wyjatek) :
    Couples (Gdzies obok) (zglosBlad slowo e : Akcja δ α)
      (Lancuch.zglosBlad slowo e : Lancuch.Akcja β) Q (Gdzies obok) S := by
  refine Couples.ofExists fun z => Couples.ofExists fun nowe => ?_
  have hlista : Couples (Zgodne obok z nowe) (odczytaj Srodowisko.dajOstatniaListe)
      (Imp.read fun t => Ramka.widoczne t.ramki : Lancuch.Akcja Ramka)
      (fun lista ramka s t => Zgodne obok z nowe s t ∧ Trzyma s.srodowisko.pamiec lista ramka ∧
        (ramka.map Prod.fst).Nodup) (Gdzies obok) S := by
    refine Couples.read fun s t h => ⟨h, ?_, nodup_widoczne h.komorki.nazwy⟩
    rw [h.ostatnia]
    exact h.komorki.widac
  exact (hob.wypisz _).bind fun _ _ => (hob.wypisz _).bind fun _ _ => hlista.bind
    fun lista ramka => (hob.wypiszZmienne lista ramka).bind fun _ _ => Couples.exit
    fun _ _ h => h.gdzies

omit hob in
theorem wynikiem {α : Type} {P : Stan δ → Lancuch → Prop} (h : ∀ s t, P s t → Gdzies obok s t)
    (wynik : Except Wyjatek α) :
    Couples P (wynikiem wynik) (Lancuch.wynikiem wynik)
      (fun a b s t => a = b ∧ wynik = .ok a ∧ P s t) (Gdzies obok) S := by
  cases wynik with
  | ok a => exact Couples.pure fun _ _ hst => ⟨rfl, rfl, hst⟩
  | error e => exact Couples.raise h

omit hob in
theorem obliczTutaj (wyrazenie : Wyrazenie) :
    Couples (Zgodne obok z nowe) (obliczTutaj wyrazenie) (Lancuch.oblicz wyrazenie)
      (fun a b s t => a = b ∧ Zgodne obok z nowe s t) (Gdzies obok) S := by
  intro s t h
  have heq : wyrazenie.oblicz s.srodowisko.pamiec s.srodowisko.dajOstatniaListe =
      wyrazenie.wLancuchu t.ramki := by
    rw [h.ostatnia]
    exact h.komorki.oblicz wyrazenie
  change Coupled _ _ _ (Interpreter.wynikiem (wyrazenie.oblicz s.srodowisko.pamiec
    s.srodowisko.dajOstatniaListe) s) (Lancuch.wynikiem (wyrazenie.wLancuchu t.ramki) t)
  rw [heq]
  exact (wynikiem (fun _ _ h => Zgodne.gdzies h) _ s t h).mono
    (fun _ _ _ _ h => ⟨h.1, h.2.2⟩) fun _ _ h => h

omit hob in
private theorem przypisz_none {pamiec : Adres → Zmienna} {wlasne : List (List Adres)}
    {ramki : List Ramka} {x : String} (h : List.Forall₂ (Trzyma pamiec) wlasne ramki)
    (hx : wlasne.flatten.find? (nazwana pamiec x) = none) (v : Int32) :
    Ramka.przypisz x v ramki = ramki := by
  induction h with
  | nil => rfl
  | @cons swoje ramka wlasne ramki hswoje _ ih =>
      rw [List.flatten_cons, List.find?_append, Option.or_eq_none_iff] at hx
      have hnot : x ∉ ramka.map Prod.fst := by
        intro hmem
        obtain ⟨a, ha, hname⟩ := List.any_eq_true.mp ((hswoje.any_nazwa x).mpr hmem)
        exact List.find?_eq_none.mp hx.1 a ha hname
      rw [Ramka.przypisz, if_neg hnot, ih hx.2]

omit hob in
private theorem ustawienie (x : String) (v : Int32) (znaleziona : Option Adres) :
    Couples (fun s t => Zgodne obok z nowe s t ∧
        znaleziona = z.wlasne.flatten.find? (nazwana s.srodowisko.pamiec x))
      (zmien fun s => znaleziona.elim s fun a => s.setWartosc a v)
      (Lancuch.naRamkach (Ramka.przypisz x v)) (fun _ _ => Zgodne obok z nowe)
      (Gdzies obok) S := by
  refine Couples.update fun s t ⟨h, hfind⟩ => ?_
  cases znaleziona with
  | none =>
      rw [przypisz_none h.komorki.wartosci hfind.symm]
      exact h
  | some a =>
      exact h.zamiana (h.komorki.setWartosc hfind.symm v) (fun b _ => setWartosc_nazwa a v b)
        rfl rfl

theorem wykonajPrint (wyrazenie : Wyrazenie) :
    Couples (Zgodne obok z nowe) (wykonajPrint wyrazenie) (Lancuch.wykonajPrint wyrazenie)
      (fun _ _ => Zgodne obok z nowe) (Gdzies obok) S := by
  refine Couples.attempt ?_ (hob.wolny rfl) fun e => hob.zglosBlad _ e
  have hnazwa : Couples (Zgodne obok z nowe)
      (odczytaj fun s => sprawdzNazwe s.pamiec s.dajOstatniaListe wyrazenie)
      (Imp.read fun t => Lancuch.sprawdzNazwe t.ramki wyrazenie :
        Lancuch.Akcja (Except Wyjatek Unit))
      (fun a b s t => a = b ∧ Zgodne obok z nowe s t) (Gdzies obok) S := by
    refine Couples.read fun s t h => ⟨?_, h⟩
    dsimp only
    rw [h.ostatnia]
    cases wyrazenie with
    | null => rfl
    | literal w => rfl
    | operator dzialanie lewe prawe => rfl
    | zmienna nazwa =>
        cases nazwa with
        | none => rfl
        | some x =>
            obtain ⟨znaleziona, hszukaj, hwartosc, -⟩ := h.komorki.szukaj (some x)
            rw [Option.bind_some] at hwartosc
            rw [sprawdzNazwe, Lancuch.sprawdzNazwe, hszukaj, ← hwartosc]
            cases znaleziona <;> rfl
  refine hnazwa.bind fun a b => Couples.assuming fun heq => ?_
  subst heq
  exact (wynikiem (fun _ _ h => Zgodne.gdzies h) a).bind fun _ _ =>
    ((obliczTutaj wyrazenie).mono (fun _ _ h => h.2.2) fun _ _ _ _ h => h).bind fun v w =>
      Couples.assuming fun heq => heq ▸ hob.wypisz _

theorem wykonajPrzypisanie (nazwa : Option String) (wyrazenie : Wyrazenie) :
    Couples (Zgodne obok z nowe) (wykonajPrzypisanie nazwa wyrazenie)
      (Lancuch.wykonajPrzypisanie nazwa wyrazenie) (fun _ _ => Zgodne obok z nowe)
      (Gdzies obok) S := by
  refine Couples.attempt ?_ (hob.wolny rfl) fun e => hob.zglosBlad _ e
  refine (obliczTutaj wyrazenie).bind fun v w => Couples.assuming fun heq => ?_
  subst heq
  intro s t h
  obtain ⟨znaleziona, hszukaj, hwartosc, hfind⟩ := h.komorki.szukaj nazwa
  have hodczyt : (odczytaj fun s => szukaj s.pamiec nazwa s.dajOstatniaListe) s =
      (.value (.ok znaleziona), s) := by
    rw [← hszukaj, ← h.ostatnia]
    rfl
  have hramki : (Imp.read Lancuch.ramki : Lancuch.Akcja (List Ramka)) t =
      (.value t.ramki, t) := rfl
  have hok : (Interpreter.wynikiem (.ok znaleziona) : Akcja δ (Option Adres)) s =
      (.value znaleziona, s) := rfl
  rw [Imp.bind_of_value hodczyt, Imp.bind_of_value hok, Imp.bind_of_value hramki, ← hwartosc]
  cases znaleziona with
  | none => exact .raised h.gdzies
  | some a =>
      cases nazwa with
      | none => cases hwartosc
      | some x => exact ustawienie x v (some a) s t ⟨h, hfind x rfl⟩

/-! ### New variables -/

omit hob in
private theorem dodajDoSwojejListy {swoje : List Adres} {ramka : Ramka} (s : Stan δ) (t : Lancuch)
    (h : Trzymane obok z nowe swoje ramka s t) :
    ∃ lista s', dodajDoSwojejListyZmienne swoje s = (.value lista, s') ∧
      Trzymane obok z nowe swoje ramka s' t ∧
      lista = widac s'.srodowisko.pamiec (swoje :: z.wlasne) := by
  refine ⟨_, s, ?_, h, rfl⟩
  change Interpreter.wynikiem (dolacz s.srodowisko.pamiec swoje
    s.srodowisko.dajOstatniaListe) s = _
  rw [h.1.ostatnia, h.2.dolacz]
  rfl

omit hob in
private theorem dodajListe (swoje : List Adres) (ramka : Ramka) (lista : List Adres) :
    Couples (fun s t => Trzymane obok z nowe swoje ramka s t ∧
        lista = widac s.srodowisko.pamiec (swoje :: z.wlasne))
      (zmien (Srodowisko.dodajListeZmiennych lista)) (Lancuch.naRamkach (ramka :: ·))
      (fun _ _ => Zgodne obok ⟨swoje :: z.wlasne, lista :: z.listy, z.procedury⟩ nowe)
      (Gdzies obok) S :=
  Couples.update fun _ _ h => Zgodne.dodaj h.1 h.2

omit hob in
private theorem usunListe {swoje : List Adres} {wlasne : List (List Adres)} {lista : List Adres}
    {listy : List (List Adres)} {procedury : List (List DeklaracjaProcedury)} :
    Couples (Zgodne obok ⟨swoje :: wlasne, lista :: listy, procedury⟩ nowe)
      (zmien Srodowisko.usunOstatniaListeZmiennych) (Lancuch.naRamkach List.tail)
      (fun _ _ => Zgodne obok ⟨wlasne, listy, procedury⟩ nowe) (Gdzies obok) S :=
  Couples.update fun _ _ h => h.usun

omit hob in
private theorem dodajProcedury (lista : List DeklaracjaProcedury) :
    Couples (Zgodne obok z []) (zmien (Srodowisko.dodajListeProcedur lista))
      (Lancuch.naProcedurach (lista :: ·))
      (fun _ _ => Zgodne obok ⟨z.wlasne, z.listy, lista :: z.procedury⟩ lista)
      (Gdzies obok) S :=
  Couples.update fun _ _ h => h.dodajProcedury lista

omit hob in
private theorem nowa_setWartosc (srodowisko : Srodowisko) (nazwa : Option String) (v : Int32) :
    (∀ a < srodowisko.nastepny, (((srodowisko.nowa ⟨nazwa, 0⟩).setWartosc
        srodowisko.nastepny v).pamiec a) = srodowisko.pamiec a) ∧
      (((srodowisko.nowa ⟨nazwa, 0⟩).setWartosc srodowisko.nastepny v).pamiec
        srodowisko.nastepny) = ⟨nazwa, v⟩ := by
  constructor
  · intro a ha
    rw [setWartosc_inna v (Nat.ne_of_lt ha)]
    exact if_neg (Nat.ne_of_lt ha)
  · rw [setWartosc_ta]
    change ({ (if srodowisko.nastepny = srodowisko.nastepny then (⟨nazwa, 0⟩ : Zmienna)
      else _) with wartosc := v } : Zmienna) = _
    rw [if_pos rfl]

variable [Java]

omit hob in
private theorem getNazwa_some {deklaracja : DeklaracjaZmiennej} {nazwa : Option String}
    (h : deklaracja.getNazwa = .ok nazwa) : ∃ x, nazwa = some x ∧ dobraNazwa (some x) = true := by
  rw [DeklaracjaZmiennej.getNazwa] at h
  split at h
  · rename_i hdobra
    obtain rfl := Except.ok.inj h
    cases hnazwa : deklaracja.nazwa with
    | none => simp [hnazwa, dobraNazwa] at hdobra
    | some x => exact ⟨x, rfl, hnazwa ▸ hdobra⟩
  · cases h

omit hob [Java] in
private theorem nowaZmiennaBloku {swoje : List Adres} {ramka : Ramka} {x : String} {v : Int32}
    {s : Stan δ} {t : Lancuch} {srodowisko : Srodowisko}
    (h : Trzymane obok z nowe swoje ramka s t)
    (hsr : srodowisko = (s.srodowisko.nowa ⟨some x, 0⟩).setWartosc s.srodowisko.nastepny v)
    {reszta : List Adres → Akcja δ (List Adres)} {znaczenie : Ramka → Except Wyjatek Ramka}
    {dalej : Option Adres → Akcja δ (List Adres)}
    (hnone : dalej none = reszta (swoje ++ [s.srodowisko.nastepny]))
    (hsome : ∀ a, dalej (some a) =
      Imp.raise (.illegalArgument "Zmienna o danej nazwie juz istnieje."))
    (hreszta : ∀ swoje' ramka', Couples (Trzymane obok z nowe swoje' ramka') (reszta swoje')
      (Lancuch.wynikiem (znaczenie ramka')) (fun lista r => Trzymane obok z nowe lista r)
      (Gdzies obok) S) :
    Coupled (fun lista r => Trzymane obok z nowe lista r) (Gdzies obok) S
      ((Interpreter.wynikiem (szukaj srodowisko.pamiec (some x) swoje) >>= dalej)
        { s with srodowisko := srodowisko })
      (Lancuch.wynikiem (if x ∈ ramka.map Prod.fst then
        .error (.illegalArgument "Zmienna o danej nazwie juz istnieje.")
        else znaczenie (ramka ++ [(x, v)])) t) := by
  obtain ⟨hdawne, hnowa⟩ := nowa_setWartosc s.srodowisko (some x) v
  rw [← hsr] at hdawne hnowa
  have hnastepny : srodowisko.nastepny = s.srodowisko.nastepny + 1 := by rw [hsr]; rfl
  have hle : s.srodowisko.nastepny ≤ srodowisko.nastepny := hnastepny ▸ Nat.le_succ _
  have hs' := h.1.zostaje hdawne hle (by rw [hsr]; rfl) (by rw [hsr]; rfl)
  have hlista := (List.forall₂_cons.mp (h.2.zostaje hdawne hle).wartosci).1
  have hmem := hlista.any_nazwa x
  rw [List.any_eq_true, ← List.find?_isSome] at hmem
  have hok (znaleziona : Option Adres) : (Interpreter.wynikiem (.ok znaleziona) :
      Akcja δ (Option Adres)) { s with srodowisko := srodowisko } =
      (.value znaleziona, { s with srodowisko := srodowisko }) := rfl
  rw [szukaj_eq (some x) hlista.isSome, Imp.bind_of_value (hok _)]
  cases hfind : swoje.find? fun a => (srodowisko.pamiec a).nazwa = some x with
  | some a =>
      rw [if_pos (hmem.mp (by rw [hfind]; rfl)), hsome]
      exact .raised hs'.gdzies
  | none =>
      have hnot : x ∉ ramka.map Prod.fst := by
        intro hin
        have hfound := hmem.mpr hin
        rw [hfind] at hfound
        cases hfound
      rw [if_neg hnot, hnone]
      exact hreszta _ _ _ t ⟨hs', h.2.snoc hdawne hnowa hnastepny hnot⟩

theorem deklarujKolejne (deklaracje : List DeklaracjaZmiennej) (swoje : List Adres)
    (ramka : Ramka) :
    Couples (Trzymane obok z nowe swoje ramka) (deklarujKolejne debugger swoje deklaracje)
      (Lancuch.wynikiem (Lancuch.nowaRamka ramka deklaracje))
      (fun lista r => Trzymane obok z nowe lista r) (Gdzies obok) S := by
  induction deklaracje generalizing swoje ramka with
  | nil => exact Couples.pure fun _ _ h => h
  | cons deklaracja deklaracje ih =>
      refine Couples.ahead (hob.patrzy _ fun sr ramki =>
        Komorki sr (swoje :: z.wlasne) (ramka :: ramki)) fun _ => ?_
      intro s t h
      rw [Lancuch.nowaRamka]
      cases hnazwa : deklaracja.getNazwa with
      | error e => exact .raised h.1.gdzies
      | ok nazwa =>
          obtain ⟨x, rfl, hdobra⟩ := getNazwa_some hnazwa
          have hok : (Interpreter.wynikiem (.ok (some x)) : Akcja δ (Option String)) s =
              (.value (some x), s) := rfl
          rw [Imp.bind_of_value hok, Imp.bind_of_value (nowaZmienna_dobra hdobra s)]
          cases deklaracja.getWartosc with
          | error e =>
              exact .raised (Zgodne.gdzies (h.1.zostaje (fun a ha => if_neg (Nat.ne_of_lt ha))
                (Nat.le_succ _) rfl rfl))
          | ok v => exact nowaZmiennaBloku (v := v) h rfl rfl (fun _ => rfl) ih

omit [Java] in
theorem deklarujNastepne (procedury deklaracje : List DeklaracjaProcedury) :
    Couples (Zgodne obok z procedury) (deklarujNastepne debugger deklaracje procedury)
      (Lancuch.wynikiem (Lancuch.sprawdzProcedury deklaracje procedury))
      (fun _ _ => Zgodne obok z []) (Gdzies obok) S := by
  induction procedury generalizing deklaracje with
  | nil => exact Couples.pure fun _ _ h => h
  | cons deklaracja procedury ih =>
      refine Couples.ahead (hob.patrzyTu _) fun _ => ?_
      rw [Lancuch.sprawdzProcedury]
      split
      · exact Couples.raise fun _ _ h => h.gdzies
      · split
        · exact Couples.raise fun _ _ h => h.gdzies
        · rename_i hparametry
          split
          · exact Couples.raise fun _ _ h => h.gdzies
          · refine (ih _).mono (fun s t h => ?_) fun _ _ _ _ h => h
            refine { h with sprawdzone := fun l hl d hd => ?_ }
            rcases h.sprawdzone l hl d hd with hnowa | hdobra
            · rcases List.mem_cons.mp hnowa with rfl | hnowa
              · exact .inr (by simpa using hparametry)
              · exact .inl hnowa
            · exact .inr hdobra

/-! ### Instructions -/

section Instrukcje

variable {wykonaj : Instrukcja → Akcja δ Unit} {wykonaj' : Instrukcja → Lancuch.Akcja Unit}
  (hwykonaj : ∀ i z, Couples (Zgodne obok z []) (wykonaj i) (wykonaj' i)
    (fun _ _ => Zgodne obok z []) (Gdzies obok) S)
include hwykonaj

omit [Java] in
theorem poKolei (instrukcje : List Instrukcja) :
    Couples (Zgodne obok z []) (poKolei debugger wykonaj instrukcje)
      (Imp.forEach instrukcje wykonaj') (fun _ _ => Zgodne obok z []) (Gdzies obok) S :=
  Couples.forEach fun i => Couples.ahead (hob.patrzyTu i) fun _ => hwykonaj i z

omit hwykonaj [Java] in
theorem opuscBlok {swoje lista : List Adres} {wlasne listy : List (List Adres)}
    {deklaracje : List DeklaracjaProcedury} {procedury : List (List DeklaracjaProcedury)} :
    Couples (Zgodne obok ⟨swoje :: wlasne, lista :: listy, deklaracje :: procedury⟩ [])
      (opuscBlok lista) Lancuch.opuscBlok
      (fun _ _ => Zgodne obok ⟨wlasne, listy, procedury⟩ []) (Gdzies obok) S := by
  have hkoniec (ramka : Ramka) : Couples
      (fun s t => Zgodne obok ⟨wlasne, listy, procedury⟩ [] s t ∧
        Trzyma s.srodowisko.pamiec lista ramka ∧ (ramka.map Prod.fst).Nodup)
      (do
        let listy ← odczytaj Srodowisko.listaListZmiennych
        if listy = [] then Interpreter.wypiszZmienne lista else return ())
      (do
        let ramki ← Imp.read Lancuch.ramki
        if ramki = [] then Lancuch.wypiszZmienne ramka else return ())
      (fun _ _ => Zgodne obok ⟨wlasne, listy, procedury⟩ []) (Gdzies obok) S := by
    intro s t h
    have hlength : s.srodowisko.listaListZmiennych.length = t.ramki.length := by
      rw [h.1.listy, h.1.listy_eq, length_plaskie, h.1.komorki.wartosci.length_eq]
    change Coupled _ _ _ ((if s.srodowisko.listaListZmiennych = [] then
      Interpreter.wypiszZmienne lista else pure () : Akcja δ Unit) s)
      ((if t.ramki = [] then Lancuch.wypiszZmienne ramka else pure () : Lancuch.Akcja Unit) t)
    have hiff : s.srodowisko.listaListZmiennych = [] ↔ t.ramki = [] := by
      rw [← List.length_eq_zero_iff, hlength, List.length_eq_zero_iff]
    by_cases hempty : t.ramki = []
    · rw [if_pos hempty, if_pos (hiff.mpr hempty)]
      exact hob.wypiszZmienne lista ramka s t h
    · rw [if_neg hempty, if_neg (mt hiff.mp hempty)]
      exact .value h.1
  intro s t h
  refine hkoniec (Ramka.widoczne t.ramki) _ _ ⟨h.usun.usunProcedury, ?_,
    nodup_widoczne h.komorki.nazwy⟩
  have hwidac := h.komorki.widac
  rwa [widac, ← h.listy_eq] at hwidac

theorem wykonajBlok (blok : Blok) :
    Couples (Zgodne obok z []) (wykonajBlok debugger wykonaj blok)
      (Lancuch.wykonajBlok wykonaj' blok) (fun _ _ => Zgodne obok z []) (Gdzies obok) S := by
  have hzmienne : Couples (Zgodne obok z []) (deklarujZmienne debugger blok)
      (Imp.attempt (Lancuch.wynikiem (Lancuch.nowaRamka [] blok.deklaracjaZmiennych))
        Wyjatek.lapanyPrzyZmiennych (Lancuch.zglosBlad "Deklaracja zmiennej"))
      (fun lista ramka => Trzymane obok z [] lista ramka) (Gdzies obok) S := by
    refine Couples.attempt ?_ (hob.wolny rfl) fun e => hob.zglosBlad _ e
    refine (hob.deklarujKolejne blok.deklaracjaZmiennych [] []).mono (fun s t h => ?_)
      fun _ _ _ _ h => h
    exact ⟨h, h.komorki.cons .nil List.nodup_nil (by simp) (by simp) List.nodup_nil⟩
  refine hzmienne.bind fun swoje ramka => Couples.first dodajDoSwojejListy fun lista => ?_
  refine (dodajListe swoje ramka lista).bind fun _ _ =>
    (dodajProcedury blok.deklaracjaProcedur).bind fun _ _ => ?_
  exact (Couples.attempt (hob.deklarujNastepne _ []) (hob.wolny rfl)
    fun e => hob.zglosBlad _ e).bind fun _ _ =>
      (hob.poKolei hwykonaj blok.instrukcje).bind fun _ _ => hob.opuscBlok

omit [Java] in
theorem wykonajWarunkowa (lewe prawe : Wyrazenie) (operator : Option String)
    (prawda falsz : List Instrukcja) :
    Couples (Zgodne obok z [])
      (wykonajWarunkowa debugger wykonaj lewe prawe operator prawda falsz)
      (Lancuch.wykonajWarunkowa wykonaj' lewe prawe operator prawda falsz)
      (fun _ _ => Zgodne obok z []) (Gdzies obok) S := by
  refine Couples.attempt ?_ (hob.wolny rfl) fun e => hob.zglosBlad _ e
  refine (obliczTutaj lewe).bind fun v v' => Couples.assuming fun hv =>
    (obliczTutaj prawe).bind fun w w' => Couples.assuming fun hw => ?_
  subst hv hw
  refine (wynikiem (fun _ _ h => h.gdzies) _).bind fun warunek warunek' =>
    Couples.assuming fun heq => ?_
  subst heq
  exact (hob.poKolei hwykonaj _).mono (fun _ _ h => h.2) fun _ _ _ _ h => h

omit [Java] in
/-- One turn of the loop: its counter is the variable that the list has first. -/
theorem obrot (x : String) (lista : List Adres) {wlasne listy : List (List Adres)}
    {procedury : List (List DeklaracjaProcedury)} (instrukcje : List Instrukcja) (i : Nat) :
    Couples (Zgodne obok ⟨wlasne, lista :: listy, procedury⟩ [])
      (obrot debugger wykonaj (some x) lista instrukcje i)
      (do
        Lancuch.naRamkach (Ramka.przypisz x (Int32.ofNat i))
        Imp.forEach instrukcje wykonaj')
      (fun _ _ => Zgodne obok ⟨wlasne, lista :: listy, procedury⟩ []) (Gdzies obok) S := by
  intro s t h
  obtain ⟨znaleziona, hszukaj, -, hfind⟩ := h.komorki.szukaj (some x)
  have hread : (odczytaj fun s => szukaj s.pamiec (some x) lista) s =
      (.value (.ok znaleziona), s) := by
    have hlista : lista = widac s.srodowisko.pamiec wlasne := by
      rw [widac, ← h.listy_eq, List.headD_cons]
    rw [hlista, ← hszukaj]
    rfl
  have hok : (Interpreter.wynikiem (.ok znaleziona) : Akcja δ (Option Adres)) s =
      (.value znaleziona, s) := rfl
  rw [Interpreter.obrot, Imp.bind_of_value hread, Imp.bind_of_value hok]
  exact (ustawienie x (Int32.ofNat i) znaleziona).bind
    (fun _ _ => hob.poKolei hwykonaj instrukcje) s t ⟨h, hfind x rfl⟩

theorem wykonajPetle (nazwa : Option String) (wyrazenie : Wyrazenie)
    (instrukcje : List Instrukcja) :
    Couples (Zgodne obok z []) (wykonajPetle debugger wykonaj nazwa wyrazenie instrukcje)
      (Lancuch.wykonajPetle wykonaj' nazwa wyrazenie instrukcje) (fun _ _ => Zgodne obok z [])
      (Gdzies obok) S := by
  refine Couples.attempt ?_ (hob.wolny rfl) fun e => hob.zglosBlad _ e
  split
  · exact Couples.raise fun _ _ h => h.gdzies
  · rename_i hdobra
    cases nazwa with
    | none => exact absurd rfl hdobra
    | some x =>
        -- the list of the loop, before it is among the lists
        have hlista (s : Stan δ) (t : Lancuch) (h : Zgodne obok z [] s t) :
            ∃ lista s', stworzListeZmiennych (some x) s = (.value lista, s') ∧
              ∃ a, Trzymane obok z [] [a] [(x, 0)] s' t ∧
                lista = widac s'.srodowisko.pamiec ([a] :: z.wlasne) := by
          obtain ⟨hdawne, hnowa⟩ := nowa_setWartosc s.srodowisko (some x) 0
          have hstart : Komorki s.srodowisko ([] :: z.wlasne) ([] :: t.ramki) :=
            h.komorki.cons .nil List.nodup_nil (by simp) (by simp) List.nodup_nil
          have hs' := h.zostaje hdawne (Nat.le_succ _) rfl rfl
          obtain ⟨lista, s', hrun, htrzymane, hwidac⟩ := dodajDoSwojejListy _ t
            ⟨hs', hstart.snoc hdawne hnowa rfl List.not_mem_nil⟩
          refine ⟨lista, s', ?_, _, htrzymane, hwidac⟩
          rw [stworzListeZmiennych,
            Imp.bind_of_value (nowaZmienna_dobra (by simpa using hdobra) s)]
          exact hrun
        refine Couples.first hlista fun lista => Couples.ofExists fun a => ?_
        have hwynik : Couples
            (fun s t => Trzymane obok z [] [a] [(x, 0)] s t ∧
              lista = widac s.srodowisko.pamiec ([a] :: z.wlasne))
            (obliczWyrazenie wyrazenie lista)
            (Imp.read (fun t => wyrazenie.wLancuchu ([(x, 0)] :: t.ramki)) >>= Lancuch.wynikiem)
            (fun v w s t => v = w ∧ Trzymane obok z [] [a] [(x, 0)] s t ∧
              lista = widac s.srodowisko.pamiec ([a] :: z.wlasne)) (Gdzies obok) S := by
          intro s t h
          have hoblicz : wyrazenie.oblicz s.srodowisko.pamiec lista =
              wyrazenie.wLancuchu ([(x, 0)] :: t.ramki) := by
            rw [h.2]
            exact h.1.2.oblicz wyrazenie
          change Coupled _ _ _ (Interpreter.wynikiem (wyrazenie.oblicz s.srodowisko.pamiec lista) s)
            (Lancuch.wynikiem (wyrazenie.wLancuchu ([(x, 0)] :: t.ramki)) t)
          rw [hoblicz]
          exact (wynikiem (fun _ _ h => Zgodne.gdzies h.1.1) _ s t h).mono
            (fun _ _ _ _ h => ⟨h.1, h.2.2⟩) fun _ _ h => h
        refine Couples.bind (g := fun wartosc => do
          Lancuch.naRamkach ([(x, 0)] :: ·)
          Imp.forEach (List.range wartosc.toInt.toNat) fun i => do
            Lancuch.naRamkach (Ramka.przypisz x (Int32.ofNat i))
            Imp.forEach instrukcje wykonaj'
          Lancuch.naRamkach List.tail) hwynik fun v w => Couples.assuming fun heq => ?_
        subst heq
        exact (dodajListe [a] [(x, 0)] lista).bind fun _ _ => (Couples.forEach fun i =>
          hob.obrot hwykonaj x lista instrukcje i).bind fun _ _ => usunListe

/-! ### Calls -/

omit hwykonaj [Java] in
theorem przypiszWartoscZmiennym {parametry : List String} (wyrazenia : List Wyrazenie)
    (hparametry : parametry.Nodup) (s : Stan δ) (t : Lancuch) (h : Zgodne obok z [] s t) :
    Coupled (fun _ ramka => Trzymane obok z []
        (.range' s.srodowisko.nastepny parametry.length) ramka) (Gdzies obok) S
      (przypiszWartoscZmiennym wyrazenia (.range' s.srodowisko.nastepny parametry.length)
        { s with srodowisko := s.srodowisko.noweKomorki parametry })
      (Lancuch.ramkaParametrow parametry wyrazenia t) := by
  have hpuste := trzyma_parametry h hparametry
  have hramka := @Srodowisko.noweKomorki_frame s.srodowisko parametry
  have hnastepny := nastepny_noweKomorki s.srodowisko parametry
  have hs' := h.zostaje hramka.1 (hnastepny ▸ Nat.le_add_right _ _) hramka.2.1 hramka.2.2
  rw [Interpreter.przypiszWartoscZmiennym, Lancuch.ramkaParametrow, List.length_range']
  by_cases hlength : wyrazenia.length ≠ parametry.length
  · rw [if_pos hlength, if_pos hlength]
    exact hob.zglosBlad _ _ _ t hs'.gdzies
  · rw [if_neg hlength, if_neg hlength]
    cases parametry with
    | nil =>
        have hzero := hpuste 0
        rw [Srodowisko.zParametrami, List.length_nil, List.range'_zero,
          Srodowisko.wpisz_nil] at hzero
        exact .value hzero
    | cons p parametry =>
        have hoblicz : (wyrazenia.headD .null).oblicz (s.srodowisko.noweKomorki (p ::
            parametry)).pamiec (s.srodowisko.noweKomorki (p :: parametry)).dajOstatniaListe =
            (wyrazenia.headD .null).wLancuchu t.ramki := by
          have hostatnia := hs'.ostatnia
          dsimp only at hostatnia
          rw [hostatnia]
          exact hs'.komorki.oblicz _
        rw [if_neg (List.cons_ne_nil p parametry)]
        cases hwynik : (wyrazenia.headD .null).wLancuchu t.ramki with
        | error e =>
            have hleft : Interpreter.obliczTutaj (wyrazenia.headD .null) { s with
                srodowisko := s.srodowisko.noweKomorki (p :: parametry) } = (.raised e, { s with
                  srodowisko := s.srodowisko.noweKomorki (p :: parametry) }) := by
              change Interpreter.wynikiem (Wyrazenie.oblicz _ _ _) _ = _
              rw [hoblicz, hwynik]
              rfl
            have hright : Lancuch.oblicz (wyrazenia.headD .null) t = (.raised e, t) := by
              change Lancuch.wynikiem (Wyrazenie.wLancuchu _ _) _ = _
              rw [hwynik]
              rfl
            rw [List.length_cons, List.range'_succ, Imp.forEach,
              Imp.bind_of_raised (Imp.bind_of_raised hleft), Imp.bind_of_raised hright]
            exact .raised hs'.gdzies
        | ok v =>
            have hright : Lancuch.oblicz (wyrazenia.headD .null) t = (.value v, t) := by
              change Lancuch.wynikiem (Wyrazenie.wLancuchu _ _) _ = _
              rw [hwynik]
              rfl
            rw [przypisania_eq (hoblicz.trans hwynik) fun a ha hmem => ?_,
              Imp.bind_of_value hright]
            · exact .value (hpuste v)
            · have hlista := hs'.ostatnia
              dsimp only at hlista hmem
              rw [hlista] at hmem
              have hdawna := h.komorki.zrobione a ((plaskie_congr fun _ _ => rfl).2 a hmem)
              exact absurd (List.mem_range'_1.mp ha).1 (Nat.not_le.mpr hdawna)

omit hwykonaj in
theorem wejdz {deklaracja : DeklaracjaProcedury} (wyrazenia : List Wyrazenie)
    (h : deklaracja.sprawdzCzyDobreParametry = true) :
    Couples (Zgodne obok z []) (wejdz deklaracja wyrazenia)
      (Lancuch.wejdz deklaracja wyrazenia)
      (fun _ _ s t => ∃ swoje lista, Zgodne obok
        ⟨swoje :: z.wlasne, lista :: z.listy, z.procedury⟩ [] s t) (Gdzies obok) S := by
  obtain ⟨hdobre, hparametry⟩ := dobraNazwa_parametru h
  intro s t hst
  have hnowe := nowePokolei_eq (fun p hp => (hdobre p hp).2) s
  have hramka : Couples
      (fun s' t' => s' = { s with
        srodowisko := s.srodowisko.noweKomorki deklaracja.dajListaParametrow } ∧ t' = t)
      (Interpreter.przypiszWartoscZmiennym wyrazenia
        (.range' s.srodowisko.nastepny deklaracja.dajListaParametrow.length))
      (Lancuch.ramkaParametrow deklaracja.dajListaParametrow wyrazenia)
      (fun _ ramka => Trzymane obok z []
        (.range' s.srodowisko.nastepny deklaracja.dajListaParametrow.length) ramka)
      (Gdzies obok) S := by
    rintro _ _ ⟨rfl, rfl⟩
    exact hob.przypiszWartoscZmiennym wyrazenia hparametry s _ hst
  rw [Interpreter.wejdz, dajZmienneZParametrow, Imp.bind_of_value hnowe]
  refine hramka.bind (fun _ ramka => Couples.first dodajDoSwojejListy fun lista => ?_) _ t
    ⟨rfl, rfl⟩
  exact (dodajListe _ ramka lista).mono (fun _ _ h => h) fun _ _ _ _ h => ⟨_, _, h⟩

theorem wykonajProcedure (nazwa : String) (wyrazenia : List Wyrazenie) :
    Couples (Zgodne obok z []) (wykonajProcedure debugger wykonaj nazwa wyrazenia)
      (Lancuch.wykonajProcedure wykonaj' nazwa wyrazenia) (fun _ _ => Zgodne obok z [])
      (Gdzies obok) S := by
  refine Couples.attempt ?_ (hob.wolny rfl) fun e => hob.zglosBlad _ e
  have hznaleziona : Couples (Zgodne obok z [])
      (odczytaj (Srodowisko.dajDeklaracjeProcedury · nazwa))
      (Imp.read fun t => t.procedury.flatten.find? (·.dajNazwaProcedury = nazwa) :
        Lancuch.Akcja (Option DeklaracjaProcedury))
      (fun d d' s t => (d = d' ∧ ∀ deklaracja, d = some deklaracja →
        deklaracja.sprawdzCzyDobreParametry = true) ∧ Zgodne obok z [] s t) (Gdzies obok) S := by
    refine Couples.read fun s t h => ⟨⟨?_, fun deklaracja hfind => ?_⟩, h⟩
    · change s.srodowisko.listaListaProcedur.flatten.find? _ = t.procedury.flatten.find? _
      rw [h.procedury, h.lancuch]
    · change s.srodowisko.listaListaProcedur.flatten.find? _ = _ at hfind
      rw [h.procedury] at hfind
      obtain ⟨lista, hlista, hmem⟩ := List.mem_flatten.mp (List.mem_of_find?_eq_some hfind)
      exact (h.sprawdzone lista hlista deklaracja hmem).resolve_left List.not_mem_nil
  refine hznaleziona.bind fun znaleziona znaleziona' => Couples.assuming fun ⟨heq, hdobra⟩ => ?_
  subst heq
  cases znaleziona with
  | none => exact Couples.raise fun _ _ h => h.gdzies
  | some deklaracja =>
      refine (hob.wejdz wyrazenia (hdobra deklaracja rfl)).bind fun _ _ =>
        Couples.ofExists fun swoje => Couples.ofExists fun lista => ?_
      exact (hob.wykonajBlok hwykonaj deklaracja.dajBlok).bind fun _ _ => usunListe

end Instrukcje

/-! ### Runs -/

theorem wykonajInstrukcje (n : Nat) (i : Instrukcja) (z : Zarys) :
    Couples (Zgodne obok z []) (wykonajInstrukcje debugger n i) (Lancuch.wykonajInstrukcje n i)
      (fun _ _ => Zgodne obok z []) (Gdzies obok) S := by
  induction n generalizing i z with
  | zero => exact Couples.raise fun _ _ h => h.gdzies
  | succ n ih =>
      cases i with
      | przypisanie nazwa wyrazenie => exact hob.wykonajPrzypisanie nazwa wyrazenie
      | print wyrazenie => exact hob.wykonajPrint wyrazenie
      | warunkowa lewe prawe operator prawda falsz =>
          exact hob.wykonajWarunkowa ih lewe prawe operator prawda falsz
      | petla nazwa wyrazenie instrukcje => exact hob.wykonajPetle ih nazwa wyrazenie instrukcje
      | blok blok => exact hob.wykonajBlok ih blok
      | wykonajProcedure nazwa wyrazenia => exact hob.wykonajProcedure ih nazwa wyrazenia
      | deklaracjaProcedury deklaracja => exact hob.wykonajBlok ih deklaracja.dajBlok
      | deklaracjaZmiennej deklaracja => exact Couples.pure fun _ _ h => h

theorem wykonajProgram (n : Nat) (stan : δ) (wejscie : List String) (blokGlowny : Blok)
    (hstart : obok [] wejscie []) :
    Coupled (fun _ _ => Zgodne obok ⟨[], [], []⟩ []) (Gdzies obok) S
      (wykonajProgram debugger n stan wejscie blokGlowny)
      (Lancuch.wykonajProgram n blokGlowny) := by
  refine hob.wykonajBlok (hob.wykonajInstrukcje n) blokGlowny _ _ ⟨⟨.nil, ?_, ?_, ?_⟩, rfl, rfl,
    rfl, rfl, ?_, hstart⟩ <;> simp [Srodowisko.poczatkowe]

end Obserwator

end Znaczenie

/-! ## Without a debugger -/

section BezPatrzenia

variable [Java]

def nic (_ : Instrukcja) : Akcja Unit Unit := pure ()

abbrev Rowne (wyjscie : List Zdarzenie) (_ : List String) (wyjscie' : List Zdarzenie) : Prop :=
  wyjscie = wyjscie'

omit [Java] in
theorem obserwator_nic : Obserwator Rowne (fun _ _ => False) nic where
  zdarzenie zdarzenie h := congrArg (zdarzenie :: ·) h
  przerwanie _ _ h := h.elim
  debugger _ _ _ _ _ h := .value ⟨rfl, rfl, h.obok⟩

omit [Java] in
theorem Coupled.sameEnd {α : Type} {Q : α → α → Stan Unit → Lancuch → Prop}
    {result : Ending Wyjatek α × Stan Unit} {result' : Ending Wyjatek α × Lancuch}
    (h : Coupled Q (Gdzies Rowne) (fun _ _ => False) result result')
    (hQ : ∀ a b s t, Q a b s t → a = b ∧ s.wyjscie = t.wyjscie) :
    result.1 = result'.1 ∧ result.2.wyjscie = result'.2.wyjscie := by
  cases h with
  | value h =>
      obtain ⟨rfl, hwyjscie⟩ := hQ _ _ _ _ h
      exact ⟨rfl, hwyjscie⟩
  | raised h =>
      obtain ⟨z, nowe, h⟩ := h
      exact ⟨rfl, h.obok⟩
  | exited h =>
      obtain ⟨z, nowe, h⟩ := h
      exact ⟨rfl, h.obok⟩
  | cutRaised h => exact h.elim
  | cutExited h => exact h.elim

/-- A program means what it does with the lists of cells. -/
theorem wykonajProgram_lancuch (n : Nat) (wejscie : List String) (blokGlowny : Blok) :
    (wykonajProgram nic n () wejscie blokGlowny).1 = (Lancuch.wykonajProgram n blokGlowny).1 ∧
      (wykonajProgram nic n () wejscie blokGlowny).2.wyjscie =
        (Lancuch.wykonajProgram n blokGlowny).2.wyjscie :=
  Coupled.sameEnd (obserwator_nic.wykonajProgram n () wejscie blokGlowny rfl)
    fun _ _ _ _ h => ⟨rfl, h.obok⟩

/-- The assignment is to the variable of the inner block. -/
example : (@Lancuch.wykonajProgram ascii 2 (.mk [⟨"a", .literal 1⟩]
    [.blok (.mk [⟨"a", .literal 2⟩]
      [.przypisanie "a" (.literal 3), .print (.zmienna "a")] []), .print (.zmienna "a")]
    [])).2.wyjscie = [.linia "Nazwa a| Wartosc 1", .linia "1", .linia "3"] := by decide

/-- An instruction leaves the lists as they were, and it does to the chain what it
means. -/
theorem wykonajInstrukcje_lancuch (n : Nat) (i : Instrukcja) {z : Zarys} {s : Stan Unit}
    {t : Lancuch} (h : Zgodne Rowne z [] s t) :
    ((wykonajInstrukcje nic n i s).1 = (Lancuch.wykonajInstrukcje n i t).1 ∧
      (wykonajInstrukcje nic n i s).2.wyjscie = (Lancuch.wykonajInstrukcje n i t).2.wyjscie) ∧
    ((wykonajInstrukcje nic n i s).1 = .value () →
      (wykonajInstrukcje nic n i s).2.srodowisko.listaListZmiennych =
        s.srodowisko.listaListZmiennych ∧
      (wykonajInstrukcje nic n i s).2.srodowisko.listaListaProcedur =
        s.srodowisko.listaListaProcedur ∧
      Zgodne Rowne z [] (wykonajInstrukcje nic n i s).2 (Lancuch.wykonajInstrukcje n i t).2) := by
  have hrun := obserwator_nic.wykonajInstrukcje n i z s t h
  refine ⟨Coupled.sameEnd hrun fun _ _ _ _ h => ⟨rfl, h.obok⟩, fun hvalue => ?_⟩
  rcases hs : wykonajInstrukcje nic n i s with ⟨ending, s'⟩
  rcases ht : Lancuch.wykonajInstrukcje n i t with ⟨ending', t'⟩
  rw [hs, ht] at hrun
  rw [hs] at hvalue
  cases hrun with
  | value h' =>
      exact ⟨h'.listy.trans h.listy.symm, h'.procedury.trans h.procedury.symm, h'⟩
  | raised h' => cases hvalue
  | exited h' => cases hvalue
  | cutRaised h' => exact h'.elim
  | cutExited h' => exact h'.elim

/-- In the main block, with a variable `a` that is 5. -/
def zeZmiennaA : Stan Unit :=
  ⟨⟨fun b => if b = 0 then ⟨some "a", 5⟩ else ⟨none, 0⟩, 1, [[0]], [[]]⟩, (), [], []⟩

omit [Java] in
private theorem zgodne_zeZmiennaA :
    Zgodne Rowne ⟨[[0]], [[0]], [[]]⟩ [] zeZmiennaA ⟨[[("a", 5)]], [[]], []⟩ := by
  refine ⟨⟨.cons (.cons rfl .nil) .nil, ?_, ?_, ?_⟩, rfl, rfl, rfl, rfl, ?_, rfl⟩ <;>
    simp [zeZmiennaA]

end BezPatrzenia

theorem wykonajInstrukcje_lancuch_przypisanie : ∃ _ : Java,
    (wykonajInstrukcje nic 1 (.przypisanie "a" (.literal 7)) zeZmiennaA).1 = .value () ∧
      (wykonajInstrukcje nic 1 (.przypisanie "a" (.literal 7))
        zeZmiennaA).2.srodowisko.listaListZmiennych = [[0]] := by
  refine ⟨ascii, rfl, ?_⟩
  have hrun := @wykonajInstrukcje_lancuch ascii 1 (.przypisanie "a" (.literal 7)) _ _ _
    zgodne_zeZmiennaA
  exact (hrun.2 rfl).1

end Mimuw.Interpreter
