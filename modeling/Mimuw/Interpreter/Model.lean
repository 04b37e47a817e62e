import Mimuw.Lib.Imperative

/-!
# The interpreter of programs

Expressions, instructions and procedures, the environment with its lists of variables
and procedures, and the execution of an instruction.  The variables of an environment
are cells of a memory, as one cell can be in several lists.
-/

namespace Mimuw.Interpreter

open Mimuw.Lib

/-! ## Characters -/

/-- What the program asks the Java library about characters and files. -/
class Java where
  isLowerCase : Char → Bool
  digit : Char → Option Nat
  /-- `file.exists() && file.isFile() && file.canWrite()` -/
  doZapisu : String → Bool
  isLowerCase_ascii : ∀ c : Char, c.val < 128 → isLowerCase c = c.isLower
  digit_ascii : ∀ c : Char, c.val < 128 →
    digit c = if c.isDigit then some (c.toNat - '0'.toNat) else none

/-- `s.matches("[a-z]+")` -/
def malymiLiterami (s : String) : Bool := s ≠ "" && s.toList.all fun c => 'a' ≤ c && c ≤ 'z'

section Nazwy

variable [Java]

/-- `null` is not the name of a variable; a `char` is one of the first plane. -/
def dobraNazwa : Option String → Bool
  | none => false
  | some nazwa =>
      match nazwa.toList with
      | [c] => c.val < 0x10000 && Java.isLowerCase c
      | _ => false

end Nazwy

/-! ## Exceptions and output -/

inductive Wyjatek where
  | arithmetic (komunikat : String)
  | illegalArgument (komunikat : String)
  /-- The virtual machine gives no message. -/
  | nullPointer (komunikat : Option String)
  | noSuchElement
  | stackOverflow
  deriving DecidableEq

def Wyjatek.getMessage : Wyjatek → String
  | .arithmetic komunikat => komunikat
  | .illegalArgument komunikat => komunikat
  | .nullPointer komunikat => komunikat.getD "null"
  | .noSuchElement => "No line found"
  | .stackOverflow => "null"

inductive Zdarzenie where
  | linia (tekst : String)
  /-- The line "Wprowadz polecenie: " of the debugger. -/
  | polecenie
  | zapis (sciezkaDoPliku : String) (linie : List String)
  deriving DecidableEq

/-! ## Expressions -/

/-- A cell; the name is `null` when the constructor did not accept it. -/
structure Zmienna where
  nazwa : Option String
  wartosc : Int32
  deriving DecidableEq

inductive Dzialanie where
  | dodawanie
  | odejmowanie
  | mnozenie
  | dzielenie
  | modulo
  deriving DecidableEq

def Dzialanie.getSymbol : Dzialanie → String
  | .dodawanie => "+"
  | .odejmowanie => "-"
  | .mnozenie => "*"
  | .dzielenie => "/"
  | .modulo => "%"

def Dzialanie.wynik (lewa prawa : Int32) : Dzialanie → Except Wyjatek Int32
  | .dodawanie => .ok (lewa + prawa)
  | .odejmowanie => .ok (lewa - prawa)
  | .mnozenie => .ok (lewa * prawa)
  | .dzielenie =>
      if prawa = 0 then .error (.arithmetic "Dzielenie przez zero") else .ok (lewa / prawa)
  | .modulo =>
      if prawa = 0 then .error (.arithmetic "Dzielenie przez zero") else .ok (lewa % prawa)

inductive Wyrazenie where
  | null
  | literal (wartosc : Int32)
  | zmienna (nazwa : Option String)
  | operator (dzialanie : Dzialanie) (lewe prawe : Wyrazenie)
  deriving DecidableEq

abbrev Adres := Nat

/-- The loop of `ustawWartoscZmiennej` and of its likes, with `getNazwa().equals(nazwa)`:
the first cell with that name. -/
def szukaj (pamiec : Adres → Zmienna) (nazwa : Option String) :
    List Adres → Except Wyjatek (Option Adres)
  | [] => .ok none
  | z :: zmienne =>
      match (pamiec z).nazwa with
      | none => .error (.nullPointer none)
      | some x => if some x = nazwa then .ok (some z) else szukaj pamiec nazwa zmienne

/-- The node of a variable forgets its name when this is not found.  The exception that
follows ends the program, so the nodes keep no state here. -/
def Wyrazenie.oblicz (pamiec : Adres → Zmienna) (zmienne : List Adres) :
    Wyrazenie → Except Wyjatek Int32
  | .null => .error (.nullPointer none)
  | .literal wartosc => .ok wartosc
  | .zmienna nazwa =>
      match szukaj pamiec nazwa zmienne with
      | .error e => .error e
      | .ok none => .error (.nullPointer "Podana nieprawidlowa nazwe.")
      | .ok (some z) => .ok (pamiec z).wartosc
  | .operator dzialanie lewe prawe =>
      if lewe = .null ∨ prawe = .null then .error (.nullPointer "Blad wyliczenia.")
      else
        match lewe.oblicz pamiec zmienne with
        | .error e => .error e
        | .ok lewaWartosc =>
            match prawe.oblicz pamiec zmienne with
            | .error e => .error e
            | .ok prawaWartosc => dzialanie.wynik lewaWartosc prawaWartosc

def Wyrazenie.toString : Wyrazenie → Except Wyjatek String
  | .null => .error (.nullPointer none)
  | .literal wartosc => .ok s!"{wartosc}"
  | .zmienna nazwa => .ok (nazwa.getD "null")
  | .operator dzialanie lewe prawe =>
      if lewe = .null ∨ prawe = .null then
        .error (.nullPointer "Nie mozna wypisac nastepnej instrukcji bo jest blad.")
      else
        match lewe.toString with
        | .error e => .error e
        | .ok lewy =>
            match prawe.toString with
            | .error e => .error e
            | .ok prawy => .ok (lewy ++ dzialanie.getSymbol ++ prawy)

/-! ## Instructions -/

structure DeklaracjaZmiennej where
  nazwa : Option String
  wyrazenie : Wyrazenie

mutual

inductive Instrukcja where
  | przypisanie (nazwa : Option String) (wyrazenie : Wyrazenie)
  | print (wyrazenie : Wyrazenie)
  | warunkowa (leweWyrazenie praweWyrazenie : Wyrazenie) (operator : Option String)
      (prawdaInstrukcje falszInstrukcje : List Instrukcja)
  | petla (nazwa : Option String) (wyrazenie : Wyrazenie) (instrukcje : List Instrukcja)
  | blok (blok : Blok)
  | wykonajProcedure (nazwaProcedury : String) (wyrazenia : List Wyrazenie)
  | deklaracjaProcedury (deklaracja : DeklaracjaProcedury)
  | deklaracjaZmiennej (deklaracja : DeklaracjaZmiennej)

inductive Blok where
  | mk (deklaracjaZmiennych : List DeklaracjaZmiennej) (instrukcje : List Instrukcja)
      (deklaracjaProcedur : List DeklaracjaProcedury)

inductive DeklaracjaProcedury where
  | mk (nazwaProcedury : String) (listaParametrow : List String) (blok : Blok)

end

namespace Blok

def deklaracjaZmiennych : Blok → List DeklaracjaZmiennej
  | mk zmienne _ _ => zmienne

def instrukcje : Blok → List Instrukcja
  | mk _ instrukcje _ => instrukcje

def deklaracjaProcedur : Blok → List DeklaracjaProcedury
  | mk _ _ procedury => procedury

end Blok

namespace DeklaracjaProcedury

def dajNazwaProcedury : DeklaracjaProcedury → String
  | mk nazwa _ _ => nazwa

def dajListaParametrow : DeklaracjaProcedury → List String
  | mk _ parametry _ => parametry

def dajBlok : DeklaracjaProcedury → Blok
  | mk _ _ blok => blok

/-- The loop, with the set of the parameters before. -/
def sprawdzParametry (set : List String) : List String → Bool
  | [] => true
  | s :: parametry =>
      if s.length ≠ 1 ∨ malymiLiterami s = false then false
      else if s ∈ set then false
      else sprawdzParametry (s :: set) parametry

def sprawdzCzyDobreParametry (deklaracja : DeklaracjaProcedury) : Bool :=
  sprawdzParametry [] deklaracja.dajListaParametrow

end DeklaracjaProcedury

/-! ## The environment -/

/-- `Srodowisko`, with the lists added last at the front. -/
structure Srodowisko where
  pamiec : Adres → Zmienna
  nastepny : Adres
  listaListZmiennych : List (List Adres)
  listaListaProcedur : List (List DeklaracjaProcedury)

namespace Srodowisko

def poczatkowe : Srodowisko := ⟨fun _ => ⟨none, 0⟩, 0, [], []⟩

def dajOstatniaListe (srodowisko : Srodowisko) : List Adres :=
  srodowisko.listaListZmiennych.headD []

def dajDeklaracjeProcedury (srodowisko : Srodowisko) (nazwaProcedury : String) :
    Option DeklaracjaProcedury :=
  srodowisko.listaListaProcedur.flatten.find? (·.dajNazwaProcedury = nazwaProcedury)

def dodajListeZmiennych (lista : List Adres) (srodowisko : Srodowisko) : Srodowisko :=
  { srodowisko with listaListZmiennych := lista :: srodowisko.listaListZmiennych }

def usunOstatniaListeZmiennych (srodowisko : Srodowisko) : Srodowisko :=
  { srodowisko with listaListZmiennych := srodowisko.listaListZmiennych.tail }

def dodajListeProcedur (lista : List DeklaracjaProcedury) (srodowisko : Srodowisko) :
    Srodowisko :=
  { srodowisko with listaListaProcedur := lista :: srodowisko.listaListaProcedur }

def usunOstatniaListeProcedur (srodowisko : Srodowisko) : Srodowisko :=
  { srodowisko with listaListaProcedur := srodowisko.listaListaProcedur.tail }

def nowa (zmienna : Zmienna) (srodowisko : Srodowisko) : Srodowisko :=
  { srodowisko with
    pamiec := fun a => if a = srodowisko.nastepny then zmienna else srodowisko.pamiec a
    nastepny := srodowisko.nastepny + 1 }

def ustaw (a : Adres) (zmienna : Zmienna) (srodowisko : Srodowisko) : Srodowisko :=
  { srodowisko with pamiec := fun b => if b = a then zmienna else srodowisko.pamiec b }

def setWartosc (a : Adres) (wartosc : Int32) (srodowisko : Srodowisko) : Srodowisko :=
  srodowisko.ustaw a { srodowisko.pamiec a with wartosc := wartosc }

end Srodowisko

/-- The state of a run, with a state of the debugger; the output has the last line first. -/
structure Stan (δ : Type) where
  srodowisko : Srodowisko
  debugger : δ
  wejscie : List String
  wyjscie : List Zdarzenie

abbrev Akcja (δ α : Type) := Imp (Stan δ) Wyjatek α

section Akcje

variable {δ α : Type}

def odczytaj (f : Srodowisko → α) : Akcja δ α := Imp.read fun s => f s.srodowisko

def zmien (f : Srodowisko → Srodowisko) : Akcja δ Unit :=
  Imp.update fun s => { s with srodowisko := f s.srodowisko }

def zapisz (zdarzenie : Zdarzenie) : Akcja δ Unit :=
  Imp.update fun s => { s with wyjscie := zdarzenie :: s.wyjscie }

/-- `System.out.println` -/
def wypisz (tekst : String) : Akcja δ Unit := zapisz (.linia tekst)

def wynikiem : Except Wyjatek α → Akcja δ α
  | .ok a => pure a
  | .error e => Imp.raise e

end Akcje

/-! ## Parts of the instructions -/

section Czesci

variable {δ α : Type}

/-- `Zmienna.oblicz` for a cell, which takes the value over. -/
def obliczZmienna (z : Adres) (zmienne : List Adres) : Akcja δ Int32 := do
  let nazwa ← odczytaj fun s => (s.pamiec z).nazwa
  let znaleziona ← odczytaj fun s => szukaj s.pamiec nazwa zmienne
  let zmienna ← wynikiem znaleziona
  match zmienna with
  | some inna => do
      let wartosc ← odczytaj fun s => (s.pamiec inna).wartosc
      zmien (Srodowisko.setWartosc z wartosc)
      return wartosc
  | none => do
      zmien fun s => s.ustaw z { s.pamiec z with nazwa := none }
      Imp.raise (.nullPointer "Podana nieprawidlowa nazwe.")

def wypiszZmienne (zmienne : List Adres) : Akcja δ Unit :=
  Imp.forEach zmienne fun z => do
    let nazwa ← odczytaj fun s => (s.pamiec z).nazwa
    let wartosc ← obliczZmienna z zmienne
    wypisz ("Nazwa " ++ nazwa.getD "null" ++ "| Wartosc " ++ toString wartosc)

/-- The `catch` of each instruction, with the word it prints. -/
def zglosBlad (slowo : String) (e : Wyjatek) : Akcja δ α := do
  wypisz ("Wystapil blad: " ++ e.getMessage)
  wypisz slowo
  let lista ← odczytaj Srodowisko.dajOstatniaListe
  wypiszZmienne lista
  Imp.exit (-1)

def obliczWyrazenie (wyrazenie : Wyrazenie) (zmienne : List Adres) : Akcja δ Int32 := do
  let wynik ← odczytaj fun s => wyrazenie.oblicz s.pamiec zmienne
  wynikiem wynik

def obliczTutaj (wyrazenie : Wyrazenie) : Akcja δ Int32 := do
  let lista ← odczytaj Srodowisko.dajOstatniaListe
  obliczWyrazenie wyrazenie lista

/-- The variables of the list whose names the ones before do not have are added. -/
def dolacz (pamiec : Adres → Zmienna) (zmienneSwoje : List Adres) :
    List Adres → Except Wyjatek (List Adres)
  | [] => .ok zmienneSwoje
  | zmiennaOjca :: zmienne =>
      match (pamiec zmiennaOjca).nazwa with
      | none =>
          if zmienneSwoje = [] then dolacz pamiec [zmiennaOjca] zmienne
          else .error (.nullPointer none)
      | some x =>
          if zmienneSwoje.any fun zmiennaSwoja => (pamiec zmiennaSwoja).nazwa = some x then
            dolacz pamiec zmienneSwoje zmienne
          else dolacz pamiec (zmienneSwoje ++ [zmiennaOjca]) zmienne

def dodajDoSwojejListyZmienne (zmienneSwoje : List Adres) : Akcja δ (List Adres) := do
  let wynik ← odczytaj fun s => dolacz s.pamiec zmienneSwoje s.dajOstatniaListe
  wynikiem wynik

variable [Java]

/-- `new Zmienna(nazwa)` -/
def nowaZmienna (nazwa : Option String) : Akcja δ Adres := do
  let z ← odczytaj Srodowisko.nastepny
  if dobraNazwa nazwa then
    zmien (Srodowisko.nowa ⟨nazwa, 0⟩)
    return z
  else
    wypisz "Blad wykonania: Nazwa zmiennej musi byc jednoliterowa od 'a' do 'z'."
    zmien (Srodowisko.nowa ⟨none, 0⟩)
    return z

theorem nowaZmienna_dobra {nazwa : Option String} (h : dobraNazwa nazwa = true) (s : Stan δ) :
    nowaZmienna nazwa s = (.value s.srodowisko.nastepny,
      { s with srodowisko := s.srodowisko.nowa ⟨nazwa, 0⟩ }) := by
  change (if dobraNazwa nazwa = true then _ else _ : Akcja δ Adres) s = _
  rw [if_pos h]
  rfl

end Czesci

/-! ## Instructions, one class after another -/

def zlaNazwaZmiennej : Wyjatek :=
  .illegalArgument "Nazwa zmiennej musi byc jednoliterowa od 'a' do 'z'."

/-- `catch (ArithmeticException | IllegalArgumentException | NullPointerException e)` -/
def Wyjatek.lapany : Wyjatek → Bool
  | .arithmetic _ | .illegalArgument _ | .nullPointer _ => true
  | .noSuchElement | .stackOverflow => false

section Klasy

variable {δ : Type} [Java] (debugger : Instrukcja → Akcja δ Unit)
  (wykonajInstrukcje : Instrukcja → Akcja δ Unit)

/-- Each instruction of a list, with the debugger before it. -/
def poKolei (instrukcje : List Instrukcja) : Akcja δ Unit :=
  Imp.forEach instrukcje fun instrukcja => do
    debugger instrukcja
    wykonajInstrukcje instrukcja

def DeklaracjaZmiennej.getNazwa (deklaracja : DeklaracjaZmiennej) :
    Except Wyjatek (Option String) :=
  if dobraNazwa deklaracja.nazwa then .ok deklaracja.nazwa else .error zlaNazwaZmiennej

def DeklaracjaZmiennej.getWartosc (deklaracja : DeklaracjaZmiennej) : Except Wyjatek Int32 :=
  deklaracja.wyrazenie.oblicz (fun _ => ⟨none, 0⟩) []

/-! ### `Blok` -/

/-- The loop of `deklarujZmienne`. -/
def deklarujKolejne (noweZmienne : List Adres) :
    List DeklaracjaZmiennej → Akcja δ (List Adres)
  | [] => return noweZmienne
  | deklaracja :: deklaracje => do
      debugger (.deklaracjaZmiennej deklaracja)
      let nazwa ← wynikiem deklaracja.getNazwa
      let z ← nowaZmienna nazwa
      let wartosc ← wynikiem deklaracja.getWartosc
      zmien (Srodowisko.setWartosc z wartosc)
      let zmienna ← odczytaj fun s => szukaj s.pamiec nazwa noweZmienne
      let istnieje ← wynikiem zmienna
      match istnieje with
      | some _ => Imp.raise (.illegalArgument "Zmienna o danej nazwie juz istnieje.")
      | none => deklarujKolejne (noweZmienne ++ [z]) deklaracje

def Wyjatek.lapanyPrzyZmiennych : Wyjatek → Bool
  | .arithmetic _ | .illegalArgument _ => true
  | _ => false

def deklarujZmienne (blok : Blok) : Akcja δ (List Adres) :=
  Imp.attempt (deklarujKolejne debugger [] blok.deklaracjaZmiennych)
    Wyjatek.lapanyPrzyZmiennych (zglosBlad "Deklaracja zmiennej")

/-- The loop of `deklarujProcedury`. -/
def deklarujNastepne (deklaracje : List DeklaracjaProcedury) :
    List DeklaracjaProcedury → Akcja δ Unit
  | [] => return ()
  | deklaracjaProcedury :: procedury => do
      debugger (.deklaracjaProcedury deklaracjaProcedury)
      if malymiLiterami deklaracjaProcedury.dajNazwaProcedury = false then
        Imp.raise (.illegalArgument "Nieprawidlowa nazwa procedury.")
      else if deklaracjaProcedury.sprawdzCzyDobreParametry = false then
        Imp.raise (.illegalArgument "Nieprawidlowe parametry.")
      else if deklaracje.any fun dp =>
          dp.dajNazwaProcedury = deklaracjaProcedury.dajNazwaProcedury then
        Imp.raise (.illegalArgument "Deklaracja o danej nazwie juz istnieje.")
      else deklarujNastepne (deklaracje ++ [deklaracjaProcedury]) procedury

def Wyjatek.lapanyPrzyProcedurach : Wyjatek → Bool
  | .illegalArgument _ => true
  | _ => false

def deklarujProcedury (blok : Blok) : Akcja δ Unit :=
  Imp.attempt (deklarujNastepne debugger [] blok.deklaracjaProcedur)
    Wyjatek.lapanyPrzyProcedurach (zglosBlad "Deklaracja procedury")

/-- The variables of the main block are printed at its end. -/
def opuscBlok (zmienneSwoje : List Adres) : Akcja δ Unit := do
  zmien Srodowisko.usunOstatniaListeZmiennych
  zmien Srodowisko.usunOstatniaListeProcedur
  let listy ← odczytaj Srodowisko.listaListZmiennych
  if listy = [] then wypiszZmienne zmienneSwoje else return ()

def wykonajBlok (blok : Blok) : Akcja δ Unit := do
  let nowe ← deklarujZmienne debugger blok
  let zmienneSwoje ← dodajDoSwojejListyZmienne nowe
  zmien (Srodowisko.dodajListeZmiennych zmienneSwoje)
  zmien (Srodowisko.dodajListeProcedur blok.deklaracjaProcedur)
  deklarujProcedury debugger blok
  poKolei debugger wykonajInstrukcje blok.instrukcje
  opuscBlok zmienneSwoje

/-! ### `Petla` -/

def stworzListeZmiennych (nazwa : Option String) : Akcja δ (List Adres) := do
  let nowa ← nowaZmienna nazwa
  zmien (Srodowisko.setWartosc nowa 0)
  dodajDoSwojejListyZmienne [nowa]

def obrot (nazwa : Option String) (zmienneSwoje : List Adres) (instrukcje : List Instrukcja)
    (i : Nat) : Akcja δ Unit := do
  let znaleziona ← odczytaj fun s => szukaj s.pamiec nazwa zmienneSwoje
  let zmienna ← wynikiem znaleziona
  zmien fun s => zmienna.elim s fun z => s.setWartosc z (Int32.ofNat i)
  poKolei debugger wykonajInstrukcje instrukcje

def wykonajPetle (nazwa : Option String) (wyrazenie : Wyrazenie)
    (instrukcje : List Instrukcja) : Akcja δ Unit :=
  Imp.attempt (do
    if dobraNazwa nazwa = false then Imp.raise zlaNazwaZmiennej
    else do
      let zmienneSwoje ← stworzListeZmiennych nazwa
      let wartosc ← obliczWyrazenie wyrazenie zmienneSwoje
      zmien (Srodowisko.dodajListeZmiennych zmienneSwoje)
      Imp.forEach (List.range wartosc.toInt.toNat)
        (obrot debugger wykonajInstrukcje nazwa zmienneSwoje instrukcje)
      zmien Srodowisko.usunOstatniaListeZmiennych)
    Wyjatek.lapany (zglosBlad "Petla")

/-! ### `Warunkowa` -/

def porownaj (lewaWartosc prawaWartosc : Int32) : Option String → Except Wyjatek Bool
  | none => .error (.nullPointer none)
  | some "=" => .ok (lewaWartosc = prawaWartosc)
  | some "<>" => .ok (lewaWartosc ≠ prawaWartosc)
  | some "<" => .ok (lewaWartosc < prawaWartosc)
  | some ">" => .ok (lewaWartosc > prawaWartosc)
  | some "<=" => .ok (lewaWartosc ≤ prawaWartosc)
  | some ">=" => .ok (lewaWartosc ≥ prawaWartosc)
  | some operator => .error (.illegalArgument ("Nieprawidlowy operator: " ++ operator))

def wykonajWarunkowa (leweWyrazenie praweWyrazenie : Wyrazenie) (operator : Option String)
    (prawdaInstrukcje falszInstrukcje : List Instrukcja) : Akcja δ Unit :=
  Imp.attempt (do
    let lewaWartosc ← obliczTutaj leweWyrazenie
    let prawaWartosc ← obliczTutaj praweWyrazenie
    let warunek ← wynikiem (porownaj lewaWartosc prawaWartosc operator)
    poKolei debugger wykonajInstrukcje (if warunek then prawdaInstrukcje else falszInstrukcje))
    Wyjatek.lapany (zglosBlad "Warunkowa")

/-! ### `Print` -/

/-- `ustawWartoscZmiennej`, and the test after it. -/
def sprawdzNazwe (pamiec : Adres → Zmienna) (zmienne : List Adres) :
    Wyrazenie → Except Wyjatek Unit
  | .null => .error (.nullPointer none)
  | .zmienna (some nazwa) =>
      match szukaj pamiec (some nazwa) zmienne with
      | .error e => .error e
      | .ok none => .error (.illegalArgument "Nieprawidlowa podana nazwa.")
      | .ok (some _) => .ok ()
  | _ => .ok ()

def wykonajPrint (wyrazenie : Wyrazenie) : Akcja δ Unit :=
  Imp.attempt (do
    let wynik ← odczytaj fun s => sprawdzNazwe s.pamiec s.dajOstatniaListe wyrazenie
    wynikiem wynik
    let wartosc ← obliczTutaj wyrazenie
    wypisz (toString wartosc))
    Wyjatek.lapany (zglosBlad "Print")

/-! ### `Przypisanie` -/

def wykonajPrzypisanie (nazwa : Option String) (wyrazenie : Wyrazenie) : Akcja δ Unit :=
  Imp.attempt (do
    let wartosc ← obliczTutaj wyrazenie
    let znaleziona ← odczytaj fun s => szukaj s.pamiec nazwa s.dajOstatniaListe
    let zmienna ← wynikiem znaleziona
    match zmienna with
    | some z => zmien (Srodowisko.setWartosc z wartosc)
    | none => Imp.raise (.illegalArgument "Podano nieprawidlowa nazwe."))
    Wyjatek.lapany (zglosBlad "Przypisanie")

/-! ### `WykonajProcedure` -/

def nowePokolei : List String → Akcja δ (List Adres)
  | [] => return []
  | s :: parametry => do
      let z ← nowaZmienna (some s)
      let reszta ← nowePokolei parametry
      return z :: reszta

def dajZmienneZParametrow (deklaracja : DeklaracjaProcedury) : Akcja δ (List Adres) :=
  nowePokolei deklaracja.dajListaParametrow

/-- `wyrazenia.get(0)`: there is one if there is a variable. -/
def przypiszWartoscZmiennym (wyrazenia : List Wyrazenie) (zmienne : List Adres) :
    Akcja δ Unit :=
  if wyrazenia.length ≠ zmienne.length then
    zglosBlad "Wywolanie procedury" (.illegalArgument "Liczba parametrow sie rozni.")
  else
    Imp.forEach zmienne fun z => do
      let wartosc ← obliczTutaj (wyrazenia.headD .null)
      zmien (Srodowisko.setWartosc z wartosc)

/-- What is done before the block of the procedure. -/
def wejdz (deklaracja : DeklaracjaProcedury) (wyrazenia : List Wyrazenie) : Akcja δ Unit := do
  let swoje ← dajZmienneZParametrow deklaracja
  przypiszWartoscZmiennym wyrazenia swoje
  let zmienneSwoje ← dodajDoSwojejListyZmienne swoje
  zmien (Srodowisko.dodajListeZmiennych zmienneSwoje)

def Wyjatek.lapanyPrzyWywolaniu : Wyjatek → Bool
  | .nullPointer _ => true
  | _ => false

def wykonajProcedure (nazwaProcedury : String) (wyrazenia : List Wyrazenie) : Akcja δ Unit :=
  Imp.attempt (do
    let znaleziona ← odczytaj (Srodowisko.dajDeklaracjeProcedury · nazwaProcedury)
    match znaleziona with
    | none => Imp.raise (.nullPointer "Nie istnieje procedura o danej nazwie.")
    | some deklaracja => do
        wejdz deklaracja wyrazenia
        wykonajBlok debugger wykonajInstrukcje deklaracja.dajBlok
        zmien Srodowisko.usunOstatniaListeZmiennych)
    Wyjatek.lapanyPrzyWywolaniu (zglosBlad "Wywolanie procedury")

end Klasy

/-! ## Execution -/

section Wykonanie

variable {δ : Type} [Java] (debugger : Instrukcja → Akcja δ Unit)

/-- The number bounds the depth of the calls on the stack. -/
def wykonajInstrukcje : Nat → Instrukcja → Akcja δ Unit
  | 0, _ => Imp.raise .stackOverflow
  | n + 1, instrukcja =>
      match instrukcja with
      | .przypisanie nazwa wyrazenie => wykonajPrzypisanie nazwa wyrazenie
      | .print wyrazenie => wykonajPrint wyrazenie
      | .warunkowa lewe prawe operator prawda falsz =>
          wykonajWarunkowa debugger (wykonajInstrukcje n) lewe prawe operator prawda falsz
      | .petla nazwa wyrazenie instrukcje =>
          wykonajPetle debugger (wykonajInstrukcje n) nazwa wyrazenie instrukcje
      | .blok blok => wykonajBlok debugger (wykonajInstrukcje n) blok
      | .wykonajProcedure nazwa wyrazenia =>
          wykonajProcedure debugger (wykonajInstrukcje n) nazwa wyrazenia
      | .deklaracjaProcedury deklaracja =>
          wykonajBlok debugger (wykonajInstrukcje n) deklaracja.dajBlok
      | .deklaracjaZmiennej _ => return ()

/-- The main block, from a new environment. -/
def wykonajProgram (n : Nat) (stan : δ) (wejscie : List String) (blokGlowny : Blok) :
    Ending Wyjatek Unit × Stan δ :=
  wykonajBlok debugger (wykonajInstrukcje debugger n) blokGlowny
    ⟨Srodowisko.poczatkowe, stan, wejscie, []⟩

end Wykonanie

end Mimuw.Interpreter
