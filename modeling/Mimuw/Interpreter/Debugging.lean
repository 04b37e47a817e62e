import Mathlib
import Mimuw.Interpreter.Model

/-!
# The debugger

The debugger counts the instructions and asks for a command when its counter is at the
number of steps to make.  Without the debugger that number is -1, and the 32-bit
counter gets there with the instruction number 2^32.
-/

namespace Mimuw.Interpreter

open Mimuw.Lib

/-! ## What an instruction prints of itself -/

def Instrukcja.wypiszInstrukcje : Instrukcja → Except Wyjatek String
  | .przypisanie nazwa wyrazenie =>
      wyrazenie.toString.map fun w => "Przypisanie: " ++ nazwa.getD "null" ++ " := " ++ w
  | .print wyrazenie => wyrazenie.toString.map fun w => "Print: " ++ w
  | .warunkowa lewe prawe operator _ _ =>
      match lewe.toString with
      | .error e => .error e
      | .ok l =>
          prawe.toString.map fun p =>
            "Warunkowa: " ++ l ++ " " ++ operator.getD "null" ++ " " ++ p
  | .petla nazwa wyrazenie _ =>
      wyrazenie.toString.map fun w => "Petla: " ++ nazwa.getD "null" ++ " " ++ w
  | .blok _ => .ok "Blok"
  | .wykonajProcedure nazwa _ => .ok ("Wykonanie procedury: " ++ nazwa)
  | .deklaracjaProcedury deklaracja =>
      .ok ("Deklaracja procedury: " ++ deklaracja.dajNazwaProcedury)
  | .deklaracjaZmiennej deklaracja =>
      deklaracja.wyrazenie.toString.map fun w =>
        "Deklaracja: " ++ deklaracja.nazwa.getD "null" ++ " : " ++ w

/-! ## Commands -/

structure Debugger where
  obecnyKrok : Int32
  ileKrokowWykonac : Int32
  poziomZagniezdzenia : Int32
  zrzut : Bool
  sciezkaDoPliku : Option String

def trim (s : String) : String :=
  String.ofList (((s.toList.dropWhile (· ≤ ' ')).reverse.dropWhile (· ≤ ' ')).reverse)

inductive Komenda where
  | c
  | s (liczba : Int32)
  | d (liczba : Int32)
  | e
  | m (sciezkaDoPliku : String)
  | nieznana

section Komendy

variable [Java]

def parseLiczba (ujemna : Bool) (cyfry : List Char) : Option Int32 :=
  if cyfry = [] then none
  else
    match cyfry.mapM Java.digit with
    | none => none
    | some wartosci =>
        let liczba : Int := wartosci.foldl (fun acc cyfra => 10 * acc + cyfra) 0
        let liczba := if ujemna then -liczba else liczba
        if -2 ^ 31 ≤ liczba ∧ liczba < 2 ^ 31 then some (Int32.ofInt liczba) else none

/-- `Integer.parseInt` -/
def parseInt (s : String) : Option Int32 :=
  match s.toList with
  | '-' :: cyfry => parseLiczba true cyfry
  | '+' :: cyfry => parseLiczba false cyfry
  | cyfry => parseLiczba false cyfry

/-- The number or the path stands after the first character of the line, trimmed or not. -/
def czytajKomende (komenda : String) : Komenda :=
  let reszta := trim (String.ofList komenda.toList.tail)
  match (trim komenda).toList with
  | 's' :: _ => (parseInt reszta).elim .nieznana .s
  | 'd' :: _ => (parseInt reszta).elim .nieznana .d
  | 'm' :: _ => if Java.doZapisu reszta then .m reszta else .nieznana
  | _ => if komenda = "c" then .c else if komenda = "e" then .e else .nieznana

end Komendy

/-! ## The debugger -/

/-- One reader for all prompts, where the source makes a `Scanner` for each, which may read
ahead. -/
def nextLine {δ : Type} : Akcja δ String := fun s =>
  match s.wejscie with
  | [] => (.raised .noSuchElement, s)
  | linia :: wejscie => (.value linia, { s with wejscie := wejscie })

def zmienDebugger {δ : Type} (f : δ → δ) : Akcja δ Unit :=
  Imp.update fun s => { s with debugger := f s.debugger }

/-- Whether the command is the last one for now. -/
def wykonajKomende : Komenda → Akcja Debugger Bool
  | .c => do
      zmienDebugger fun d => { d with ileKrokowWykonac := -1, zrzut := false }
      return true
  | .s liczba =>
      if 0 ≤ liczba then do
        zmienDebugger fun d =>
          { d with
            ileKrokowWykonac := liczba
            obecnyKrok := 0
            poziomZagniezdzenia := -1
            zrzut := false }
        return true
      else do
        wypisz "Nieprawidlowe polecenie."
        return false
  | .d liczba =>
      if 0 ≤ liczba then do
        zmienDebugger fun d =>
          { d with
            obecnyKrok := 0
            ileKrokowWykonac := 0
            poziomZagniezdzenia := liczba
            zrzut := false }
        return true
      else do
        wypisz "Nieprawidlowe polecenie."
        return false
  | .e => Imp.exit 0
  | .m sciezkaDoPliku => do
      zmienDebugger fun _ => ⟨0, 0, -1, true, some sciezkaDoPliku⟩
      return true
  | .nieznana => do
      wypisz "Nieprawdilowe polecenie."
      return false

section Pytania

variable [Java]

/-- The loop of `debugKomenda`; each turn takes a line of the input. -/
def kolejneKomendy : Nat → Akcja Debugger Unit
  | 0 => Imp.raise .noSuchElement
  | n + 1 => do
      zapisz .polecenie
      let komenda ← nextLine
      let stop ← wykonajKomende (czytajKomende komenda)
      if stop then return () else kolejneKomendy n

def debugKomenda : Akcja Debugger Unit := do
  let linie ← Imp.read fun s => s.wejscie.length
  kolejneKomendy (linie + 1)

/-- `wypiszInstrukcje` with its `catch`. -/
def pokazInstrukcje (instrukcja : Instrukcja) : Akcja Debugger Unit :=
  match instrukcja.wypiszInstrukcje with
  | .ok tekst => wypisz tekst
  | .error (.nullPointer komunikat) => wypisz (komunikat.getD "null")
  | .error e => Imp.raise e

def Srodowisko.dajWidoczneDeklaracje (srodowisko : Srodowisko) : List DeklaracjaProcedury :=
  srodowisko.listaListaProcedur.flatten.foldl (fun lista deklaracja =>
    if lista.any fun dp => dp.dajNazwaProcedury = deklaracja.dajNazwaProcedury then lista
    else lista ++ [deklaracja]) []

def linieZmiennych (zmienne : List Adres) : List Adres → Akcja Debugger (List String)
  | [] => return []
  | z :: reszta => do
      let nazwa ← odczytaj fun s => (s.pamiec z).nazwa
      let wartosc ← obliczZmienna z zmienne
      let linie ← linieZmiennych zmienne reszta
      return ("Nazwa " ++ nazwa.getD "null" ++ "| Wartosc " ++ toString wartosc) :: linie

def zrzut (sciezkaDoPliku : String) : Akcja Debugger Unit := do
  let deklaracje ← odczytaj Srodowisko.dajWidoczneDeklaracje
  let lista ← odczytaj Srodowisko.dajOstatniaListe
  let linie ← linieZmiennych lista lista
  zapisz (.zapis sciezkaDoPliku (deklaracje.map (fun dp =>
    dp.dajNazwaProcedury ++ "[" ++ ", ".intercalate dp.dajListaParametrow ++ "]") ++ linie))

def pokazZmienne (poziomZagniezdzenia : Int32) : Akcja Debugger Unit := do
  let listy ← odczytaj Srodowisko.listaListZmiennych
  match listy[poziomZagniezdzenia.toInt.toNat]? with
  | some lista => wypiszZmienne lista
  | none =>
      wypisz
        "Podana liczba jest wieksza niz poziom zagniezdzenia biezacej instrukcji programu."

/-- The loop of `debugger`; each turn asks again. -/
def pokazuj (instrukcja : Instrukcja) : Nat → Akcja Debugger Unit
  | 0 => Imp.raise .noSuchElement
  | n + 1 => do
      let d ← Imp.read Stan.debugger
      if d.obecnyKrok = 0 ∧ d.ileKrokowWykonac = 0 then do
        (if d.zrzut then zrzut (d.sciezkaDoPliku.getD "null") else pure ())
        (if d.poziomZagniezdzenia = -1 then pokazInstrukcje instrukcja
          else pokazZmienne d.poziomZagniezdzenia)
        debugKomenda
        pokazuj instrukcja n
      else return ()

def zapytaj (instrukcja : Instrukcja) (ileKrokowWykonac : Int32) : Akcja Debugger Unit := do
  (if 0 < ileKrokowWykonac then pokazInstrukcje instrukcja else pure ())
  debugKomenda
  let linie ← Imp.read fun s => s.wejscie.length
  pokazuj instrukcja (linie + 1)

def debugger (instrukcja : Instrukcja) : Akcja Debugger Unit := do
  let d ← Imp.read Stan.debugger
  (if d.obecnyKrok = d.ileKrokowWykonac then zapytaj instrukcja d.ileKrokowWykonac
    else pure ())
  zmienDebugger fun d => { d with obecnyKrok := d.obecnyKrok + 1 }

/-- `ustawDebugger(0, -1, 0)` -/
def bezDebuggera : Debugger := ⟨0, -1, 0, false, none⟩

def wykonajBezDebugga (n : Nat) (wejscie : List String) (blokGlowny : Blok) :
    Ending Wyjatek Unit × Stan Debugger :=
  wykonajProgram debugger n bezDebuggera wejscie blokGlowny

end Pytania

end Mimuw.Interpreter
