import Mathlib.Data.List.Basic
import Mimuw.Interpreter.Model

/-!
# The language with a chain of frames

What the programs mean: a block, a loop and a call have a frame of variables each, with
their values, and a name is the one in the innermost frame that has it.  There are no
cells, no lists of visible variables and no debugger.
-/

namespace Mimuw.Interpreter

open Mimuw.Lib

abbrev Ramka := List (String × Int32)

/-- The chain has the innermost frame first, the output the last line. -/
structure Lancuch where
  ramki : List Ramka
  procedury : List (List DeklaracjaProcedury)
  wyjscie : List Zdarzenie

/-! ## Frames -/

namespace Ramka

def wartosc (ramki : List Ramka) (nazwa : String) : Option Int32 := ramki.flatten.lookup nazwa

/-- A new value in the frame. -/
def zmieniona (nazwa : String) (wartosc : Int32) (ramka : Ramka) : Ramka :=
  ramka.map fun y => if y.1 = nazwa then (nazwa, wartosc) else y

/-- The assignment to the variable of the innermost frame that has one of that name. -/
def przypisz (nazwa : String) (wartosc : Int32) : List Ramka → List Ramka
  | [] => []
  | ramka :: ramki =>
      if nazwa ∈ ramka.map Prod.fst then zmieniona nazwa wartosc ramka :: ramki
      else ramka :: przypisz nazwa wartosc ramki

/-- The variables that are not hidden by one of the same name. -/
def widoczne : List Ramka → Ramka
  | [] => []
  | ramka :: ramki => ramka ++ (widoczne ramki).filter fun y => y.1 ∉ ramka.map Prod.fst

def linie (ramka : Ramka) : List Zdarzenie :=
  ramka.map fun y => .linia ("Nazwa " ++ y.1 ++ "| Wartosc " ++ toString y.2)

end Ramka

def Wyrazenie.wLancuchu (ramki : List Ramka) : Wyrazenie → Except Wyjatek Int32
  | .null => .error (.nullPointer none)
  | .literal wartosc => .ok wartosc
  | .zmienna nazwa =>
      match nazwa.bind (Ramka.wartosc ramki) with
      | none => .error (.nullPointer "Podana nieprawidlowa nazwe.")
      | some wartosc => .ok wartosc
  | .operator dzialanie lewe prawe =>
      if lewe = .null ∨ prawe = .null then .error (.nullPointer "Blad wyliczenia.")
      else
        match lewe.wLancuchu ramki with
        | .error e => .error e
        | .ok lewaWartosc =>
            match prawe.wLancuchu ramki with
            | .error e => .error e
            | .ok prawaWartosc => dzialanie.wynik lewaWartosc prawaWartosc

/-! ## Instructions -/

namespace Lancuch

abbrev Akcja (α : Type) := Imp Lancuch Wyjatek α

def wynikiem {α : Type} : Except Wyjatek α → Akcja α
  | .ok a => pure a
  | .error e => Imp.raise e

def wypisz (tekst : String) : Akcja Unit :=
  Imp.update fun t => { t with wyjscie := .linia tekst :: t.wyjscie }

def wypiszZmienne (ramka : Ramka) : Akcja Unit :=
  Imp.update fun t => { t with wyjscie := ramka.linie.reverse ++ t.wyjscie }

def naRamkach (f : List Ramka → List Ramka) : Akcja Unit :=
  Imp.update fun t => { t with ramki := f t.ramki }

def naProcedurach (f : List (List DeklaracjaProcedury) → List (List DeklaracjaProcedury)) :
    Akcja Unit :=
  Imp.update fun t => { t with procedury := f t.procedury }

def zglosBlad {α : Type} (slowo : String) (e : Wyjatek) : Akcja α := do
  wypisz ("Wystapil blad: " ++ e.getMessage)
  wypisz slowo
  let widac ← Imp.read fun t => Ramka.widoczne t.ramki
  wypiszZmienne widac
  Imp.exit (-1)

def oblicz (wyrazenie : Wyrazenie) : Akcja Int32 := do
  let wynik ← Imp.read fun t => wyrazenie.wLancuchu t.ramki
  wynikiem wynik

variable [Java] (wykonaj : Instrukcja → Akcja Unit)

/-! ### Blocks -/

def nowaRamka (ramka : Ramka) : List DeklaracjaZmiennej → Except Wyjatek Ramka
  | [] => .ok ramka
  | deklaracja :: deklaracje =>
      match deklaracja.getNazwa with
      | .error e => .error e
      | .ok nazwa =>
          match deklaracja.getWartosc with
          | .error e => .error e
          | .ok wartosc =>
              if nazwa.getD "" ∈ ramka.map Prod.fst then
                .error (.illegalArgument "Zmienna o danej nazwie juz istnieje.")
              else nowaRamka (ramka ++ [(nazwa.getD "", wartosc)]) deklaracje

def sprawdzProcedury (deklaracje : List DeklaracjaProcedury) :
    List DeklaracjaProcedury → Except Wyjatek Unit
  | [] => .ok ()
  | deklaracja :: procedury =>
      if malymiLiterami deklaracja.dajNazwaProcedury = false then
        .error (.illegalArgument "Nieprawidlowa nazwa procedury.")
      else if deklaracja.sprawdzCzyDobreParametry = false then
        .error (.illegalArgument "Nieprawidlowe parametry.")
      else if deklaracje.any fun dp => dp.dajNazwaProcedury = deklaracja.dajNazwaProcedury then
        .error (.illegalArgument "Deklaracja o danej nazwie juz istnieje.")
      else sprawdzProcedury (deklaracje ++ [deklaracja]) procedury

/-- The end of a block; the main one prints its variables. -/
def opuscBlok : Akcja Unit := do
  let widac ← Imp.read fun t => Ramka.widoczne t.ramki
  naRamkach List.tail
  naProcedurach List.tail
  let ramki ← Imp.read ramki
  if ramki = [] then wypiszZmienne widac else return ()

def wykonajBlok (blok : Blok) : Akcja Unit := do
  let ramka ← Imp.attempt (wynikiem (nowaRamka [] blok.deklaracjaZmiennych))
    Wyjatek.lapanyPrzyZmiennych (zglosBlad "Deklaracja zmiennej")
  naRamkach (ramka :: ·)
  naProcedurach (blok.deklaracjaProcedur :: ·)
  Imp.attempt (wynikiem (sprawdzProcedury [] blok.deklaracjaProcedur))
    Wyjatek.lapanyPrzyProcedurach (zglosBlad "Deklaracja procedury")
  Imp.forEach blok.instrukcje wykonaj
  opuscBlok

/-! ### The other instructions -/

/-- The counter of the loop is visible in its bound, with the value 0. -/
def wykonajPetle (nazwa : Option String) (wyrazenie : Wyrazenie)
    (instrukcje : List Instrukcja) : Akcja Unit :=
  Imp.attempt (do
    if dobraNazwa nazwa = false then Imp.raise zlaNazwaZmiennej
    else do
      let licznik := nazwa.getD ""
      let wynik ← Imp.read fun t => wyrazenie.wLancuchu ([(licznik, 0)] :: t.ramki)
      let wartosc ← wynikiem wynik
      naRamkach ([(licznik, 0)] :: ·)
      Imp.forEach (List.range wartosc.toInt.toNat) fun i => do
        naRamkach (Ramka.przypisz licznik (Int32.ofNat i))
        Imp.forEach instrukcje wykonaj
      naRamkach List.tail)
    Wyjatek.lapany (zglosBlad "Petla")

def wykonajWarunkowa (leweWyrazenie praweWyrazenie : Wyrazenie) (operator : Option String)
    (prawdaInstrukcje falszInstrukcje : List Instrukcja) : Akcja Unit :=
  Imp.attempt (do
    let lewaWartosc ← oblicz leweWyrazenie
    let prawaWartosc ← oblicz praweWyrazenie
    let warunek ← wynikiem (porownaj lewaWartosc prawaWartosc operator)
    Imp.forEach (if warunek then prawdaInstrukcje else falszInstrukcje) wykonaj)
    Wyjatek.lapany (zglosBlad "Warunkowa")

def sprawdzNazwe (ramki : List Ramka) : Wyrazenie → Except Wyjatek Unit
  | .null => .error (.nullPointer none)
  | .zmienna (some nazwa) =>
      if Ramka.wartosc ramki nazwa = none then
        .error (.illegalArgument "Nieprawidlowa podana nazwa.")
      else .ok ()
  | _ => .ok ()

def wykonajPrint (wyrazenie : Wyrazenie) : Akcja Unit :=
  Imp.attempt (do
    let wynik ← Imp.read fun t => sprawdzNazwe t.ramki wyrazenie
    wynikiem wynik
    let wartosc ← oblicz wyrazenie
    wypisz (toString wartosc))
    Wyjatek.lapany (zglosBlad "Print")

def wykonajPrzypisanie (nazwa : Option String) (wyrazenie : Wyrazenie) : Akcja Unit :=
  Imp.attempt (do
    let wartosc ← oblicz wyrazenie
    let ramki ← Imp.read ramki
    if nazwa.bind (Ramka.wartosc ramki) = none then
      Imp.raise (.illegalArgument "Podano nieprawidlowa nazwe.")
    else naRamkach (Ramka.przypisz (nazwa.getD "") wartosc))
    Wyjatek.lapany (zglosBlad "Przypisanie")

/-- The frame of a call: the first argument is the value of each parameter. -/
def ramkaParametrow (parametry : List String) (wyrazenia : List Wyrazenie) : Akcja Ramka :=
  if wyrazenia.length ≠ parametry.length then
    zglosBlad "Wywolanie procedury" (.illegalArgument "Liczba parametrow sie rozni.")
  else if parametry = [] then return []
  else do
    let wartosc ← oblicz (wyrazenia.headD .null)
    return parametry.map fun p => (p, wartosc)

def wejdz (deklaracja : DeklaracjaProcedury) (wyrazenia : List Wyrazenie) : Akcja Unit := do
  let ramka ← ramkaParametrow deklaracja.dajListaParametrow wyrazenia
  naRamkach (ramka :: ·)

/-- The body runs in the chain of the caller. -/
def wykonajProcedure (nazwaProcedury : String) (wyrazenia : List Wyrazenie) : Akcja Unit :=
  Imp.attempt (do
    let znaleziona ← Imp.read fun t =>
      t.procedury.flatten.find? (·.dajNazwaProcedury = nazwaProcedury)
    match znaleziona with
    | none => Imp.raise (.nullPointer "Nie istnieje procedura o danej nazwie.")
    | some deklaracja => do
        wejdz deklaracja wyrazenia
        wykonajBlok wykonaj deklaracja.dajBlok
        naRamkach List.tail)
    Wyjatek.lapanyPrzyWywolaniu (zglosBlad "Wywolanie procedury")

def wykonajInstrukcje : Nat → Instrukcja → Akcja Unit
  | 0, _ => Imp.raise .stackOverflow
  | n + 1, instrukcja =>
      match instrukcja with
      | .przypisanie nazwa wyrazenie => wykonajPrzypisanie nazwa wyrazenie
      | .print wyrazenie => wykonajPrint wyrazenie
      | .warunkowa lewe prawe operator prawda falsz =>
          wykonajWarunkowa (wykonajInstrukcje n) lewe prawe operator prawda falsz
      | .petla nazwa wyrazenie instrukcje =>
          wykonajPetle (wykonajInstrukcje n) nazwa wyrazenie instrukcje
      | .blok blok => wykonajBlok (wykonajInstrukcje n) blok
      | .wykonajProcedure nazwa wyrazenia =>
          wykonajProcedure (wykonajInstrukcje n) nazwa wyrazenia
      | .deklaracjaProcedury deklaracja =>
          wykonajBlok (wykonajInstrukcje n) deklaracja.dajBlok
      | .deklaracjaZmiennej _ => return ()

def wykonajProgram (n : Nat) (blokGlowny : Blok) : Ending Wyjatek Unit × Lancuch :=
  wykonajBlok (wykonajInstrukcje n) blokGlowny ⟨[], [], []⟩

end Lancuch

end Mimuw.Interpreter
