import Mimuw.Interpreter.Debugging

/-!
# A run without the debugger

The run is compared with one in which the instructions are only counted.  The two are
in step up to the instruction number 2^32, before which the debugger asks.
-/

namespace Mimuw.Interpreter

open Mimuw.Lib
open Mimuw.Lib.Imp (Lockstep Keeps holds_bind)

/-! ## Two runs in step -/

section InStep

variable {δ δ' : Type} {R : Stan δ → Stan δ' → Prop} {A : Stan δ → Prop} {B : Stan δ' → Prop}

/-- The relation is about nothing but what the instructions do alike. -/
structure Alike (R : Stan δ → Stan δ' → Prop) (A : Stan δ → Prop) (B : Stan δ' → Prop) :
    Prop where
  odczytaj : ∀ {α : Type} (f : Srodowisko → α), Lockstep R A B (odczytaj f) (odczytaj f)
  zmien : ∀ f, Lockstep R A B (zmien f) (zmien f)
  wypisz : ∀ tekst, Lockstep R A B (wypisz tekst) (wypisz tekst)

namespace Alike

variable (h : Alike R A B)
include h

omit h in
theorem wynikiem {α : Type} (wynik : Except Wyjatek α) :
    Lockstep R A B (wynikiem wynik) (Interpreter.wynikiem wynik) := by
  cases wynik with
  | ok a => exact Lockstep.pure a
  | error e => exact Lockstep.raise e

private theorem szukanie {α : Type} (f : Srodowisko → Except Wyjatek α) :
    Lockstep R A B (do let wynik ← Interpreter.odczytaj f; Interpreter.wynikiem wynik)
      (do let wynik ← Interpreter.odczytaj f; Interpreter.wynikiem wynik) :=
  (h.odczytaj f).bind wynikiem

theorem obliczZmienna (z : Adres) (zmienne : List Adres) :
    Lockstep R A B (obliczZmienna z zmienne) (Interpreter.obliczZmienna z zmienne) := by
  refine (h.odczytaj _).bind fun nazwa => (h.odczytaj _).bind fun znaleziona =>
    (wynikiem _).bind fun zmienna => ?_
  cases zmienna with
  | some inna =>
      exact (h.odczytaj _).bind fun wartosc => (h.zmien _).bind fun _ => Lockstep.pure _
  | none => exact (h.zmien _).bind fun _ => Lockstep.raise _

theorem wypiszZmienne (zmienne : List Adres) :
    Lockstep R A B (wypiszZmienne zmienne) (Interpreter.wypiszZmienne zmienne) :=
  Lockstep.forEach fun z => (h.odczytaj _).bind fun _ =>
    (h.obliczZmienna z zmienne).bind fun _ => h.wypisz _

theorem zglosBlad {α : Type} (slowo : String) (e : Wyjatek) :
    Lockstep R A B (zglosBlad slowo e : Akcja δ α) (Interpreter.zglosBlad slowo e) :=
  (h.wypisz _).bind fun _ => (h.wypisz _).bind fun _ => (h.odczytaj _).bind fun lista =>
    (h.wypiszZmienne lista).bind fun _ => Lockstep.exit _

theorem obliczWyrazenie (wyrazenie : Wyrazenie) (zmienne : List Adres) :
    Lockstep R A B (obliczWyrazenie wyrazenie zmienne)
      (Interpreter.obliczWyrazenie wyrazenie zmienne) :=
  h.szukanie _

theorem obliczTutaj (wyrazenie : Wyrazenie) :
    Lockstep R A B (obliczTutaj wyrazenie) (Interpreter.obliczTutaj wyrazenie) :=
  (h.odczytaj _).bind fun _ => h.obliczWyrazenie wyrazenie _

theorem dodajDoSwojejListyZmienne (zmienneSwoje : List Adres) :
    Lockstep R A B (dodajDoSwojejListyZmienne zmienneSwoje)
      (Interpreter.dodajDoSwojejListyZmienne zmienneSwoje) :=
  h.szukanie _

theorem przypiszWartoscZmiennym (wyrazenia : List Wyrazenie) (zmienne : List Adres) :
    Lockstep R A B (przypiszWartoscZmiennym wyrazenia zmienne)
      (Interpreter.przypiszWartoscZmiennym wyrazenia zmienne) := by
  unfold Interpreter.przypiszWartoscZmiennym
  split
  · exact h.zglosBlad _ _
  · exact Lockstep.forEach fun z => (h.obliczTutaj _).bind fun _ => h.zmien _

theorem opuscBlok (zmienneSwoje : List Adres) :
    Lockstep R A B (opuscBlok zmienneSwoje) (Interpreter.opuscBlok zmienneSwoje) := by
  refine (h.zmien _).bind fun _ => (h.zmien _).bind fun _ => (h.odczytaj _).bind fun listy => ?_
  split
  · exact h.wypiszZmienne _
  · exact Lockstep.pure _

theorem wykonajPrint (wyrazenie : Wyrazenie) :
    Lockstep R A B (wykonajPrint wyrazenie) (Interpreter.wykonajPrint wyrazenie) :=
  Lockstep.attempt ((h.odczytaj _).bind fun _ => (wynikiem _).bind fun _ =>
    (h.obliczTutaj _).bind fun _ => h.wypisz _) fun e => h.zglosBlad _ e

theorem wykonajPrzypisanie (nazwa : Option String) (wyrazenie : Wyrazenie) :
    Lockstep R A B (wykonajPrzypisanie nazwa wyrazenie)
      (Interpreter.wykonajPrzypisanie nazwa wyrazenie) := by
  refine Lockstep.attempt ((h.obliczTutaj _).bind fun wartosc => (h.odczytaj _).bind fun _ =>
    (wynikiem _).bind fun zmienna => ?_) fun e => h.zglosBlad _ e
  cases zmienna with
  | some z => exact h.zmien _
  | none => exact Lockstep.raise _

variable [Java]

theorem nowaZmienna (nazwa : Option String) :
    Lockstep R A B (nowaZmienna nazwa) (Interpreter.nowaZmienna nazwa) := by
  refine (h.odczytaj _).bind fun z => ?_
  split
  · exact (h.zmien _).bind fun _ => Lockstep.pure _
  · exact (h.wypisz _).bind fun _ => (h.zmien _).bind fun _ => Lockstep.pure _

theorem nowePokolei (parametry : List String) :
    Lockstep R A B (nowePokolei parametry) (Interpreter.nowePokolei parametry) := by
  induction parametry with
  | nil => exact Lockstep.pure _
  | cons s parametry ih =>
      exact (h.nowaZmienna _).bind fun _ => ih.bind fun _ => Lockstep.pure _

theorem wejdz (deklaracja : DeklaracjaProcedury) (wyrazenia : List Wyrazenie) :
    Lockstep R A B (wejdz deklaracja wyrazenia) (Interpreter.wejdz deklaracja wyrazenia) :=
  (h.nowePokolei _).bind fun swoje => (h.przypiszWartoscZmiennym _ swoje).bind fun _ =>
    (h.dodajDoSwojejListyZmienne _).bind fun _ => h.zmien _

/-! ### With the debugger -/

variable {debugger : Instrukcja → Akcja δ Unit} {debugger' : Instrukcja → Akcja δ' Unit}
  (hdebugger : ∀ i, Lockstep R A B (debugger i) (debugger' i))
include hdebugger

theorem deklarujKolejne (deklaracje : List DeklaracjaZmiennej) (noweZmienne : List Adres) :
    Lockstep R A B (deklarujKolejne debugger noweZmienne deklaracje)
      (Interpreter.deklarujKolejne debugger' noweZmienne deklaracje) := by
  induction deklaracje generalizing noweZmienne with
  | nil => exact Lockstep.pure _
  | cons deklaracja deklaracje ih =>
      refine (hdebugger _).bind fun _ => (wynikiem _).bind fun nazwa =>
        (h.nowaZmienna nazwa).bind fun z => (wynikiem _).bind fun _ => (h.zmien _).bind fun _ =>
          (h.odczytaj _).bind fun _ => (wynikiem _).bind fun istnieje => ?_
      cases istnieje with
      | some a => exact Lockstep.raise _
      | none => exact ih _

omit h [Java] in
theorem deklarujNastepne (procedury deklaracje : List DeklaracjaProcedury) :
    Lockstep R A B (deklarujNastepne debugger deklaracje procedury)
      (Interpreter.deklarujNastepne debugger' deklaracje procedury) := by
  induction procedury generalizing deklaracje with
  | nil => exact Lockstep.pure _
  | cons deklaracja procedury ih =>
      refine (hdebugger _).bind fun _ => ?_
      split
      · exact Lockstep.raise _
      · split
        · exact Lockstep.raise _
        · split
          · exact Lockstep.raise _
          · exact ih _

variable {wykonaj : Instrukcja → Akcja δ Unit} {wykonaj' : Instrukcja → Akcja δ' Unit}
  (hwykonaj : ∀ i, Lockstep R A B (wykonaj i) (wykonaj' i))
include hwykonaj

omit h [Java] in
theorem poKolei (instrukcje : List Instrukcja) :
    Lockstep R A B (poKolei debugger wykonaj instrukcje)
      (Interpreter.poKolei debugger' wykonaj' instrukcje) :=
  Lockstep.forEach fun i => (hdebugger i).bind fun _ => hwykonaj i

theorem wykonajBlok (blok : Blok) :
    Lockstep R A B (wykonajBlok debugger wykonaj blok)
      (Interpreter.wykonajBlok debugger' wykonaj' blok) :=
  (Lockstep.attempt (h.deklarujKolejne hdebugger _ _) fun e => h.zglosBlad _ e).bind
    fun nowe => (h.dodajDoSwojejListyZmienne nowe).bind fun zmienneSwoje =>
    (h.zmien _).bind fun _ => (h.zmien _).bind fun _ =>
    (Lockstep.attempt (deklarujNastepne hdebugger _ _) fun e => h.zglosBlad _ e).bind fun _ =>
    (poKolei hdebugger hwykonaj _).bind fun _ => h.opuscBlok zmienneSwoje

theorem wykonajPetle (nazwa : Option String) (wyrazenie : Wyrazenie)
    (instrukcje : List Instrukcja) :
    Lockstep R A B (wykonajPetle debugger wykonaj nazwa wyrazenie instrukcje)
      (Interpreter.wykonajPetle debugger' wykonaj' nazwa wyrazenie instrukcje) := by
  refine Lockstep.attempt ?_ fun e => h.zglosBlad _ e
  split
  · exact Lockstep.raise _
  · have hlista : Lockstep R A B (stworzListeZmiennych nazwa) (stworzListeZmiennych nazwa) :=
      (h.nowaZmienna nazwa).bind fun _ => (h.zmien _).bind fun _ => h.dodajDoSwojejListyZmienne _
    refine hlista.bind fun zmienneSwoje => (h.obliczWyrazenie _ _).bind fun wartosc =>
      (h.zmien _).bind fun _ => (Lockstep.forEach fun i => ?_).bind fun _ => h.zmien _
    exact (h.odczytaj _).bind fun _ => (wynikiem _).bind fun _ => (h.zmien _).bind fun _ =>
      poKolei hdebugger hwykonaj _

omit [Java] in
theorem wykonajWarunkowa (lewe prawe : Wyrazenie) (operator : Option String)
    (prawda falsz : List Instrukcja) :
    Lockstep R A B (wykonajWarunkowa debugger wykonaj lewe prawe operator prawda falsz)
      (Interpreter.wykonajWarunkowa debugger' wykonaj' lewe prawe operator prawda falsz) :=
  Lockstep.attempt ((h.obliczTutaj _).bind fun _ => (h.obliczTutaj _).bind fun _ =>
    (wynikiem _).bind fun _ => poKolei hdebugger hwykonaj _) fun e => h.zglosBlad _ e

theorem wykonajProcedure (nazwa : String) (wyrazenia : List Wyrazenie) :
    Lockstep R A B (wykonajProcedure debugger wykonaj nazwa wyrazenia)
      (Interpreter.wykonajProcedure debugger' wykonaj' nazwa wyrazenia) := by
  refine Lockstep.attempt ((h.odczytaj _).bind fun znaleziona => ?_) fun e => h.zglosBlad _ e
  cases znaleziona with
  | none => exact Lockstep.raise _
  | some deklaracja =>
      exact (h.wejdz deklaracja wyrazenia).bind fun _ =>
        (h.wykonajBlok hdebugger hwykonaj _).bind fun _ => h.zmien _

omit hwykonaj

theorem wykonajInstrukcje (n : Nat) (i : Instrukcja) :
    Lockstep R A B (wykonajInstrukcje debugger n i)
      (Interpreter.wykonajInstrukcje debugger' n i) := by
  induction n generalizing i with
  | zero => exact Lockstep.raise _
  | succ n ih =>
      cases i with
      | przypisanie nazwa wyrazenie => exact h.wykonajPrzypisanie _ _
      | print wyrazenie => exact h.wykonajPrint _
      | warunkowa lewe prawe operator prawda falsz =>
          exact h.wykonajWarunkowa hdebugger ih _ _ _ _ _
      | petla nazwa wyrazenie instrukcje => exact h.wykonajPetle hdebugger ih _ _ _
      | blok blok => exact h.wykonajBlok hdebugger ih _
      | wykonajProcedure nazwa wyrazenia => exact h.wykonajProcedure hdebugger ih _ _
      | deklaracjaProcedury deklaracja => exact h.wykonajBlok hdebugger ih _
      | deklaracjaZmiennej deklaracja => exact Lockstep.pure _

end Alike

end InStep

/-! ## The debugger and the counter -/

section Asked

/-- The debugger has asked for a command. -/
def Pytal {δ : Type} (s : Stan δ) : Prop := Zdarzenie.polecenie ∈ s.wyjscie

/-- The debugger of a run is not needed to count the instructions. -/
def licz (_ : Instrukcja) : Akcja Nat Unit := zmienDebugger (· + 1)

def poKrokach (k : Nat) : Debugger := { bezDebuggera with obecnyKrok := Int32.ofNat k }

/-- As long as the counter has not wrapped. -/
structure WKroku (s : Stan Debugger) (t : Stan Nat) : Prop where
  mniej : t.debugger < 2 ^ 32
  debugger : s.debugger = poKrokach t.debugger
  srodowisko : s.srodowisko = t.srodowisko
  wyjscie : s.wyjscie = t.wyjscie
  niePytal : ¬ Pytal s

def Przekroczyl (t : Stan Nat) : Prop := 2 ^ 32 ≤ t.debugger

private theorem keeps_zapisz (zdarzenie : Zdarzenie) :
    Keeps (Pytal (δ := Debugger)) (zapisz zdarzenie) :=
  fun _ h => List.mem_cons_of_mem _ h

private theorem alike : Alike WKroku Pytal Przekroczyl where
  odczytaj f := by
    refine ⟨fun s t h => .inl ⟨?_, h⟩, fun _ h => h, fun _ h => h⟩
    exact congrArg (fun srodowisko => Ending.value (f srodowisko)) h.srodowisko
  zmien f := by
    refine ⟨fun s t h => .inl ⟨rfl, ?_⟩, fun _ h => h, fun _ h => h⟩
    exact ⟨h.mniej, h.debugger, congrArg f h.srodowisko, h.wyjscie, h.niePytal⟩
  wypisz tekst := by
    refine ⟨fun s t h => .inl ⟨rfl, ?_⟩, keeps_zapisz _, fun _ h => h⟩
    refine ⟨h.mniej, h.debugger, h.srodowisko, congrArg (_ :: ·) h.wyjscie, fun hpytal => ?_⟩
    rcases List.mem_cons.mp hpytal with hlinia | hpytal
    · cases hlinia
    · exact h.niePytal hpytal

/-! ### What the debugger does keeps the question -/

private theorem keeps_pure {α : Type} (a : α) : Keeps Pytal (pure a : Akcja Debugger α) :=
  fun _ h => h

private theorem keeps_wypisz (tekst : String) : Keeps (Pytal (δ := Debugger)) (wypisz tekst) :=
  keeps_zapisz _

private theorem keeps_zmienDebugger (f : Debugger → Debugger) : Keeps Pytal (zmienDebugger f) :=
  fun _ h => h

private theorem keeps_nextLine : Keeps (Pytal (δ := Debugger)) nextLine := by
  intro s hs
  rw [nextLine]
  cases s.wejscie with
  | nil => exact hs
  | cons linia wejscie => exact hs

private theorem keeps_wykonajKomende (komenda : Komenda) :
    Keeps Pytal (wykonajKomende komenda) := by
  cases komenda with
  | c => exact (keeps_zmienDebugger _).bind fun _ => keeps_pure _
  | s liczba =>
      rw [wykonajKomende]
      split
      · exact (keeps_zmienDebugger _).bind fun _ => keeps_pure _
      · exact (keeps_wypisz _).bind fun _ => keeps_pure _
  | d liczba =>
      rw [wykonajKomende]
      split
      · exact (keeps_zmienDebugger _).bind fun _ => keeps_pure _
      · exact (keeps_wypisz _).bind fun _ => keeps_pure _
  | e => exact fun _ h => h
  | m sciezka => exact (keeps_zmienDebugger _).bind fun _ => keeps_pure _
  | nieznana => exact (keeps_wypisz _).bind fun _ => keeps_pure _

private theorem keeps_pokazInstrukcje (i : Instrukcja) : Keeps Pytal (pokazInstrukcje i) := by
  unfold pokazInstrukcje
  split
  · exact keeps_wypisz _
  · exact keeps_wypisz _
  · exact fun _ h => h

private theorem keeps_linieZmiennych (zmienne reszta : List Adres) :
    Keeps Pytal (linieZmiennych zmienne reszta) := by
  induction reszta with
  | nil => exact keeps_pure _
  | cons z reszta ih =>
      exact (alike.odczytaj _).left.bind fun _ => (alike.obliczZmienna z zmienne).left.bind
        fun _ => ih.bind fun _ => keeps_pure _

private theorem keeps_zrzut (sciezkaDoPliku : String) : Keeps Pytal (zrzut sciezkaDoPliku) :=
  (alike.odczytaj _).left.bind fun _ => (alike.odczytaj _).left.bind fun _ =>
    (keeps_linieZmiennych _ _).bind fun _ => keeps_zapisz _

private theorem keeps_pokazZmienne (poziom : Int32) : Keeps Pytal (pokazZmienne poziom) := by
  refine (alike.odczytaj _).left.bind fun listy => ?_
  split
  · exact (alike.wypiszZmienne _).left
  · exact keeps_wypisz _

private theorem krok_iff {k : Nat} (hk : k < 2 ^ 32) : Int32.ofNat k = -1 ↔ k + 1 = 2 ^ 32 := by
  have hbits : (-1 : Int32).toBitVec = BitVec.ofNat 32 (2 ^ 32 - 1) := by decide
  rw [← Int32.toBitVec_inj, hbits, ← BitVec.toNat_inj]
  change (BitVec.ofNat 32 k).toNat = _ ↔ _
  simp only [BitVec.toNat_ofNat, Nat.mod_eq_of_lt hk]
  omega

variable [Java]

private theorem keeps_kolejneKomendy (n : Nat) : Keeps Pytal (kolejneKomendy n) := by
  induction n with
  | zero => exact fun _ h => h
  | succ n ih =>
      refine (keeps_zapisz _).bind fun _ => keeps_nextLine.bind fun komenda =>
        (keeps_wykonajKomende _).bind fun stop => ?_
      cases stop with
      | true => exact keeps_pure _
      | false => exact ih

private theorem pytal_debugKomenda (s : Stan Debugger) : Pytal (debugKomenda s).2 := by
  change Pytal (kolejneKomendy (s.wejscie.length + 1) s).2
  refine holds_bind (fun _ => keeps_nextLine.bind fun komenda =>
    (keeps_wykonajKomende _).bind fun stop => ?_) List.mem_cons_self
  cases stop with
  | true => exact keeps_pure _
  | false => exact keeps_kolejneKomendy _

private theorem keeps_pokazuj (i : Instrukcja) (n : Nat) : Keeps Pytal (pokazuj i n) := by
  induction n with
  | zero => exact fun _ h => h
  | succ n ih =>
      refine Keeps.bind (fun _ h => h) fun d => ?_
      split
      · refine Keeps.bind ?_ fun _ => Keeps.bind ?_ fun _ =>
          Keeps.bind (fun s _ => pytal_debugKomenda s) fun _ => ih
        · split
          · exact keeps_zrzut _
          · exact keeps_pure _
        · split
          · exact keeps_pokazInstrukcje i
          · exact keeps_pokazZmienne _
      · exact keeps_pure _

private theorem keeps_poPytaniu (i : Instrukcja) : Keeps Pytal (do
    debugKomenda
    let linie ← Imp.read fun s => s.wejscie.length
    pokazuj i (linie + 1)) :=
  Keeps.bind (fun s _ => pytal_debugKomenda s) fun _ =>
    Keeps.bind (fun _ h => h) fun _ => keeps_pokazuj i _

private theorem keeps_debugger (i : Instrukcja) : Keeps Pytal (debugger i) := by
  refine Keeps.bind (fun _ h => h) fun d => Keeps.bind ?_ fun _ => keeps_zmienDebugger _
  split
  · refine Keeps.bind ?_ fun _ => keeps_poPytaniu i
    split
    · exact keeps_pokazInstrukcje i
    · exact keeps_pure _
  · exact keeps_pure _

private theorem pytal_zapytaj (i : Instrukcja) (s : Stan Debugger) :
    Pytal (zapytaj i (-1) s).2 := by
  rw [zapytaj, if_neg (by decide)]
  change Pytal ((debugKomenda >>= fun _ => _) s).2
  exact holds_bind (fun _ => Keeps.bind (fun _ h => h) fun _ => keeps_pokazuj i _)
    (pytal_debugKomenda s)

/-- The step number 2^32 is the one before which the debugger asks. -/
private theorem debugger_inStep (i : Instrukcja) :
    Lockstep WKroku Pytal Przekroczyl (debugger i) (licz i) := by
  refine ⟨fun s t h => ?_, keeps_debugger i, fun t ht => Nat.le_succ_of_le ht⟩
  have hcall : debugger i s = ((if s.debugger.obecnyKrok = s.debugger.ileKrokowWykonac then
      zapytaj i s.debugger.ileKrokowWykonac else pure ()) >>= fun _ =>
        zmienDebugger fun d => { d with obecnyKrok := d.obecnyKrok + 1 }) s := rfl
  have hlast : s.debugger.obecnyKrok = s.debugger.ileKrokowWykonac ↔ t.debugger + 1 = 2 ^ 32 := by
    rw [h.debugger]
    exact krok_iff h.mniej
  have hile : s.debugger.ileKrokowWykonac = -1 := by rw [h.debugger]; rfl
  rw [hcall]
  by_cases heq : t.debugger + 1 = 2 ^ 32
  · right
    rw [if_pos (hlast.mpr heq), hile]
    exact ⟨holds_bind (fun _ => keeps_zmienDebugger _) (pytal_zapytaj i s), Nat.le_of_eq heq.symm⟩
  · left
    rw [if_neg (mt hlast.mp heq)]
    refine ⟨rfl, ?_, ?_, h.srodowisko, h.wyjscie, h.niePytal⟩
    · have hmniej := h.mniej
      change t.debugger + 1 < 2 ^ 32
      omega
    · change { s.debugger with obecnyKrok := s.debugger.obecnyKrok + 1 } = _
      rw [h.debugger]
      change Debugger.mk (Int32.ofNat t.debugger + 1) (-1) 0 false none =
        Debugger.mk (Int32.ofNat (t.debugger + 1)) (-1) 0 false none
      rw [Int32.ofNat_add]
      rfl

/-! ## Whole runs -/

/-- The run in which the instructions are counted, and nothing else is done with them. -/
def ileInstrukcji (n : Nat) (blokGlowny : Blok) : Nat :=
  (wykonajProgram licz n 0 [] blokGlowny).2.debugger

/-- The two runs end alike, or one has been stopped by a question. -/
theorem wykonajBezDebugga_inStep (n : Nat) (wejscie : List String) (blokGlowny : Blok) :
    (wykonajBezDebugga n wejscie blokGlowny).1 = (wykonajProgram licz n 0 [] blokGlowny).1 ∧
        WKroku (wykonajBezDebugga n wejscie blokGlowny).2
          (wykonajProgram licz n 0 [] blokGlowny).2 ∨
      Pytal (wykonajBezDebugga n wejscie blokGlowny).2 ∧
        Przekroczyl (wykonajProgram licz n 0 [] blokGlowny).2 := by
  have hstep := alike.wykonajBlok debugger_inStep (alike.wykonajInstrukcje debugger_inStep n)
    blokGlowny
  refine hstep.together _ _ ⟨?_, rfl, rfl, rfl, ?_⟩
  · change 0 < 2 ^ 32
    omega
  · exact List.not_mem_nil

/-- The debugger asks for no command if and only if the program has fewer than 2^32
instructions to execute. -/
theorem wykonajBezDebugga_iff (n : Nat) (wejscie : List String) (blokGlowny : Blok) :
    Zdarzenie.polecenie ∉ (wykonajBezDebugga n wejscie blokGlowny).2.wyjscie ↔
      ileInstrukcji n blokGlowny < 2 ^ 32 := by
  rcases wykonajBezDebugga_inStep n wejscie blokGlowny with ⟨-, hkrok⟩ | ⟨hpytal, hwiecej⟩
  · exact iff_of_true hkrok.niePytal hkrok.mniej
  · exact iff_of_false (fun hnot => hnot hpytal) (Nat.not_lt.mpr hwiecej)

/-! ## A loop with too many turns -/

def pusty : Instrukcja := .blok (.mk [] [] [])

/-- `for i in w: {} … {}` -/
def petlaPustych (w : Int32) (m : Nat) : Instrukcja :=
  .petla (some "i") (.literal w) (.replicate m pusty)

def blokZPetla (w : Int32) (m : Nat) : Blok := .mk [] [petlaPustych w m] []

structure WPetli (t : Stan Nat) : Prop where
  listy : t.srodowisko.listaListZmiennych = [[0], []]
  nazwa : (t.srodowisko.pamiec 0).nazwa = some "i"

private theorem pusty_counts {t : Stan Nat} (h : WPetli t) :
    wykonajInstrukcje licz 1 pusty t = (.value (), t) := by
  obtain ⟨⟨pamiec, nastepny, listy, procedury⟩, k, wejscie, wyjscie⟩ := t
  obtain rfl : listy = [[0], []] := h.listy
  have hnazwa : (pamiec 0).nazwa = some "i" := h.nazwa
  have hlista : dolacz pamiec [] [0] = .ok [0] := by simp [dolacz, hnazwa]
  have hdodaj : dodajDoSwojejListyZmienne [] (Stan.mk ⟨pamiec, nastepny, [[0], []], procedury⟩ k
      wejscie wyjscie) = (.value [0], ⟨⟨pamiec, nastepny, [[0], []], procedury⟩, k, wejscie,
        wyjscie⟩) := by
    change wynikiem (dolacz pamiec [] [0]) _ = _
    rw [hlista]
    rfl
  change (dodajDoSwojejListyZmienne [] >>= fun _ => _) _ = _
  rw [Imp.bind_of_value hdodaj]
  rfl

omit [Java] in
private theorem WPetli.licz {t : Stan Nat} (h : WPetli t) (k : Nat) :
    WPetli { t with debugger := k } :=
  ⟨h.listy, h.nazwa⟩

private theorem poKolei_counts {t : Stan Nat} (h : WPetli t) (m : Nat) :
    poKolei licz (wykonajInstrukcje licz 1) (List.replicate m pusty) t =
      (.value (), { t with debugger := t.debugger + m }) := by
  induction m generalizing t with
  | zero => rfl
  | succ m ih =>
      have hnext := h.licz (t.debugger + 1)
      change ((wykonajInstrukcje licz 1 pusty >>= fun _ => _) : Akcja Nat Unit)
        { t with debugger := t.debugger + 1 } = _
      rw [Imp.bind_of_value (pusty_counts hnext)]
      change poKolei licz (wykonajInstrukcje licz 1) (List.replicate m pusty) _ = _
      rw [ih hnext]
      have hsum : t.debugger + 1 + m = t.debugger + (m + 1) := by omega
      exact congrArg (fun k => (Ending.value (), { t with debugger := k })) hsum

private theorem obrot_counts {t : Stan Nat} (h : WPetli t) (m i : Nat) :
    ∃ t', obrot licz (wykonajInstrukcje licz 1) (some "i") [0] (List.replicate m pusty) i t =
      (.value (), t') ∧ WPetli t' ∧ t'.debugger = t.debugger + m := by
  have hszukaj : szukaj t.srodowisko.pamiec (some "i") [0] = .ok (some 0) := by
    simp [szukaj, h.nazwa]
  have hznaleziona : (odczytaj fun s => szukaj s.pamiec (some "i") [0]) t =
      (.value (.ok (some 0)), t) := by
    rw [← hszukaj]
    rfl
  have hustawiona : WPetli
      { t with srodowisko := t.srodowisko.setWartosc 0 (Int32.ofNat i) } := ⟨h.listy, h.nazwa⟩
  refine ⟨_, ?_, hustawiona.licz (t.debugger + m), rfl⟩
  rw [obrot, Imp.bind_of_value hznaleziona]
  exact poKolei_counts hustawiona m

private theorem obroty_counts {t : Stan Nat} (h : WPetli t) (m : Nat) (numery : List Nat) :
    ∃ t', Imp.forEach numery
      (obrot licz (wykonajInstrukcje licz 1) (some "i") [0] (List.replicate m pusty)) t =
        (.value (), t') ∧ t'.debugger = t.debugger + m * numery.length := by
  induction numery generalizing t with
  | nil => exact ⟨t, rfl, rfl⟩
  | cons i numery ih =>
      obtain ⟨t₁, hobrot, hdalej, hlicznik⟩ := obrot_counts h m i
      obtain ⟨t₂, hreszta, hrazem⟩ := ih hdalej
      refine ⟨t₂, ?_, ?_⟩
      · rw [Imp.forEach, Imp.bind_of_value hobrot]
        exact hreszta
      · rw [hrazem, hlicznik, List.length_cons, Nat.mul_succ]
        omega

def przedPetla : Stan Nat := ⟨⟨fun _ => ⟨none, 0⟩, 0, [[]], [[]]⟩, 1, [], []⟩

def zeZmienna : Stan Nat :=
  { przedPetla with
    srodowisko := (przedPetla.srodowisko.nowa ⟨some "i", 0⟩).setWartosc 0 0 }

private theorem dobraNazwa_i : dobraNazwa (some "i") = true := by
  have hlista : "i".toList = ['i'] := by decide
  simp [dobraNazwa, hlista, Java.isLowerCase_ascii]

private theorem stworzListeZmiennych_i :
    stworzListeZmiennych (some "i") przedPetla = (.value [0], zeZmienna) := by
  rw [stworzListeZmiennych, Imp.bind_of_value (nowaZmienna_dobra dobraNazwa_i przedPetla)]
  rfl

omit [Java] in
private theorem wPetli_zeZmienna : WPetli
    { zeZmienna with srodowisko := zeZmienna.srodowisko.dodajListeZmiennych [0] } :=
  ⟨rfl, rfl⟩

private theorem petla_counts (w : Int32) (m : Nat) :
    ∃ t, wykonajInstrukcje licz 2 (petlaPustych w m) przedPetla = (.value (), t) ∧
      t.debugger = 1 + m * w.toInt.toNat := by
  obtain ⟨t, hobroty, hlicznik⟩ :=
    obroty_counts wPetli_zeZmienna m (List.range w.toInt.toNat)
  rw [List.length_range] at hlicznik
  refine ⟨{ t with srodowisko := t.srodowisko.usunOstatniaListeZmiennych },
    Imp.attempt_of_value ?_, hlicznik⟩
  rw [if_neg (by simp [dobraNazwa_i]), Imp.bind_of_value stworzListeZmiennych_i]
  change (Imp.forEach _ _ >>= fun _ => _)
    { zeZmienna with srodowisko := zeZmienna.srodowisko.dodajListeZmiennych [0] } = _
  rw [Imp.bind_of_value hobroty]
  rfl

/-- What follows the loop does not take the count back. -/
private theorem blokZPetla_counts (w : Int32) (m : Nat) (h : 2 ^ 32 ≤ 1 + m * w.toInt.toNat) :
    2 ^ 32 ≤ ileInstrukcji 2 (blokZPetla w m) := by
  obtain ⟨t, hpetla, hlicznik⟩ := petla_counts w m
  have hpoKolei : poKolei licz (wykonajInstrukcje licz 2) [petlaPustych w m]
      { przedPetla with debugger := 0 } = (.value (), t) := by
    change (wykonajInstrukcje licz 2 (petlaPustych w m) >>= fun _ => _) przedPetla = _
    rw [Imp.bind_of_value hpetla]
    rfl
  have hblok : wykonajProgram licz 2 0 [] (blokZPetla w m) = opuscBlok [] t := by
    change (poKolei licz (wykonajInstrukcje licz 2) [petlaPustych w m] >>= fun _ => _)
      { przedPetla with debugger := 0 } = _
    rw [Imp.bind_of_value hpoKolei]
  have hkeeps : Keeps Przekroczyl (opuscBlok [] : Akcja Nat Unit) := (alike.opuscBlok []).right
  have hmany : Przekroczyl t := by rwa [Przekroczyl, hlicznik]
  rw [ileInstrukcji, hblok]
  exact hkeeps t hmany

end Asked

/-- `for i in 2147483647: {} {} {}` -/
theorem wykonajBezDebugga_asks : ¬ ∃ _ : Java, ∀ n wejscie blokGlowny,
    Zdarzenie.polecenie ∉ (wykonajBezDebugga n wejscie blokGlowny).2.wyjscie := by
  rintro ⟨_, h⟩
  have hnot := h 2 [] (blokZPetla 2147483647 3)
  rcases wykonajBezDebugga_inStep 2 [] (blokZPetla 2147483647 3) with ⟨-, hkrok⟩ | ⟨hpytal, -⟩
  · have hmany := blokZPetla_counts 2147483647 3 (by decide)
    exact absurd hkrok.mniej (Nat.not_lt.mpr hmany)
  · exact hnot hpytal

end Mimuw.Interpreter
