import Mimuw.Interpreter.Scopes

/-!
# What the debugger does to a program

The debugger prints the variables through the method that evaluates them, and this one
writes to their cells.  All the same a program that is debugged does what it does
without the debugger, up to a command that ends it or the end of the commands.
-/

namespace Mimuw.Interpreter

open Mimuw.Lib
open Mimuw.Lib.Imp (Coupled Couples)

/-! ## Texts -/

private theorem toString_error {wyrazenie : Wyrazenie} {e : Wyjatek}
    (h : wyrazenie.toString = .error e) :
    ∃ komunikat, e = .nullPointer komunikat := by
  induction wyrazenie with
  | null => exact ⟨_, (Except.error.inj h).symm⟩
  | literal w => cases h
  | zmienna nazwa => cases h
  | operator dzialanie lewe prawe ihl ihp =>
      rw [Wyrazenie.toString] at h
      split at h
      · exact ⟨_, (Except.error.inj h).symm⟩
      · split at h
        · rename_i hlewe
          exact ihl (hlewe.trans h)
        · split at h
          · rename_i hprawe
            exact ihp (hprawe.trans h)
          · cases h

private theorem map_error {wyrazenie : Wyrazenie} {f : String → String} {e : Wyjatek}
    (h : wyrazenie.toString.map f = .error e) : ∃ komunikat, e = .nullPointer komunikat := by
  cases hw : wyrazenie.toString with
  | ok tekst =>
      rw [hw] at h
      cases h
  | error e' =>
      rw [hw] at h
      obtain rfl : e' = e := Except.error.inj h
      exact toString_error hw

private theorem wypiszInstrukcje_error {i : Instrukcja} {e : Wyjatek}
    (h : i.wypiszInstrukcje = .error e) : ∃ komunikat, e = .nullPointer komunikat := by
  cases i with
  | przypisanie nazwa wyrazenie => exact map_error h
  | print wyrazenie => exact map_error h
  | warunkowa lewe prawe operator prawda falsz =>
      rw [Instrukcja.wypiszInstrukcje] at h
      split at h
      · rename_i hlewe
        exact toString_error (hlewe.trans h)
      · exact map_error h
  | petla nazwa wyrazenie instrukcje => exact map_error h
  | blok blok => cases h
  | wykonajProcedure nazwa wyrazenia => cases h
  | deklaracjaProcedury deklaracja => cases h
  | deklaracjaZmiennej deklaracja => exact map_error h

/-- The command that ends the program is the line "e". -/
private theorem czytajKomende_e [Java] {komenda : String} (h : czytajKomende komenda = .e) :
    komenda = "e" := by
  rw [czytajKomende] at h
  split at h
  · cases hliczba : parseInt (trim (String.ofList komenda.toList.tail)) <;>
      simp [hliczba] at h
  · cases hliczba : parseInt (trim (String.ofList komenda.toList.tail)) <;>
      simp [hliczba] at h
  · split at h <;> cases h
  · split at h
    · cases h
    · split at h
      · assumption
      · cases h

/-! ## The debugger looks on -/

/-- The debugger adds lines to the output, and takes commands from the input. -/
abbrev Dopisane (wejscie : List String) (wyjscie : List Zdarzenie) (reszta : List String)
    (wyjscie' : List Zdarzenie) : Prop :=
  wyjscie'.Sublist wyjscie ∧ reszta <:+ wejscie

/-- The input has ended, or a command has ended the program. -/
def Przerwany (wejscie : List String) (powod : Wyjatek ⊕ Int) (s : Stan Debugger) : Prop :=
  powod = .inl .noSuchElement ∧ s.wejscie = [] ∨ powod = .inr 0 ∧ "e" ∈ wejscie

/-- Before an instruction, with fewer than `n` lines in the input. -/
structure Patrzy (wejscie : List String) (srodowisko : Srodowisko) (lancuch : Lancuch) (n : Nat)
    (s : Stan Debugger) (t : Lancuch) : Prop where
  srodowisko : s.srodowisko = srodowisko
  dopisane : Dopisane wejscie s.wyjscie s.wejscie lancuch.wyjscie
  lancuch : t = lancuch
  linie : s.wejscie.length < n

/-- The lists have variables with different names. -/
def Czytelne (srodowisko : Srodowisko) : Prop :=
  ∀ lista ∈ srodowisko.listaListZmiennych,
    ∃ ramka, Trzyma srodowisko.pamiec lista ramka ∧ (ramka.map Prod.fst).Nodup

private theorem czytelne_plaskie {pamiec : Adres → Zmienna} {wlasne : List (List Adres)}
    {ramki : List Ramka} (h : List.Forall₂ (Trzyma pamiec) wlasne ramki)
    (hnazwy : ∀ ramka ∈ ramki, (ramka.map Prod.fst).Nodup) :
    ∀ lista ∈ plaskie pamiec wlasne,
      ∃ ramka, Trzyma pamiec lista ramka ∧ (ramka.map Prod.fst).Nodup := by
  induction h with
  | nil => simp [plaskie]
  | @cons swoje ramka wlasne ramki hswoje hreszta ih =>
      intro lista hlista
      rw [plaskie] at hlista
      rcases List.mem_cons.mp hlista with rfl | hlista
      · exact ⟨_, wartosci_widac (.cons hswoje hreszta), nodup_widoczne hnazwy⟩
      · exact ih (fun r hr => hnazwy r (List.mem_cons_of_mem ramka hr)) lista hlista

private theorem Zgodne.czytelne {obok : List Zdarzenie → List String → List Zdarzenie → Prop}
    {z : Zarys} {nowe : List DeklaracjaProcedury} {s : Stan Debugger} {t : Lancuch}
    (h : Zgodne obok z nowe s t) : Czytelne s.srodowisko := by
  rw [Czytelne, h.listy, h.listy_eq]
  exact czytelne_plaskie h.komorki.wartosci h.komorki.nazwy

theorem Czytelne.ostatnia {srodowisko : Srodowisko} (h : Czytelne srodowisko) :
    ∃ ramka, Trzyma srodowisko.pamiec srodowisko.dajOstatniaListe ramka ∧
      (ramka.map Prod.fst).Nodup := by
  rw [Srodowisko.dajOstatniaListe]
  cases hlisty : srodowisko.listaListZmiennych with
  | nil => exact ⟨[], .nil, List.nodup_nil⟩
  | cons lista listy => exact h lista (by rw [hlisty]; exact List.mem_cons_self)

section Patrzenie

variable {wejscie : List String} {srodowisko : Srodowisko} {lancuch : Lancuch} {n : Nat}
  {E : Stan Debugger → Lancuch → Prop}

/-- The computation of the debugger, beside nothing. -/
abbrev Obok {α : Type} (wejscie : List String) (P : Stan Debugger → Lancuch → Prop)
    (m : Akcja Debugger α) (Q : α → Stan Debugger → Lancuch → Prop)
    (E : Stan Debugger → Lancuch → Prop) : Prop :=
  Couples P m (pure () : Lancuch.Akcja Unit) (fun a _ => Q a) E (Przerwany wejscie)

private theorem obok_zapisz (zdarzenie : Zdarzenie) :
    Obok wejscie (Patrzy wejscie srodowisko lancuch n) (zapisz zdarzenie)
      (fun _ => Patrzy wejscie srodowisko lancuch n) E :=
  fun _ _ h => .value ⟨h.srodowisko, ⟨h.dopisane.1.cons zdarzenie, h.dopisane.2⟩, h.lancuch,
    h.linie⟩

private theorem obok_zmienDebugger (f : Debugger → Debugger) :
    Obok wejscie (Patrzy wejscie srodowisko lancuch n) (zmienDebugger f)
      (fun _ => Patrzy wejscie srodowisko lancuch n) E :=
  fun _ _ h => .value ⟨h.srodowisko, h.dopisane, h.lancuch, h.linie⟩

private theorem obok_pure {α : Type} {P : Stan Debugger → Lancuch → Prop} (a : α) :
    Obok wejscie P (pure a) (fun _ => P) E :=
  Couples.pure fun _ _ h => h

private theorem obok_odczytaj {α : Type} (f : Srodowisko → α) :
    Obok wejscie (Patrzy wejscie srodowisko lancuch n) (odczytaj f)
      (fun a s t => a = f srodowisko ∧ Patrzy wejscie srodowisko lancuch n s t) E :=
  fun _ _ h => .value ⟨congrArg f h.srodowisko, h⟩

private theorem obok_pokazInstrukcje (i : Instrukcja) :
    Obok wejscie (Patrzy wejscie srodowisko lancuch n) (pokazInstrukcje i)
      (fun _ => Patrzy wejscie srodowisko lancuch n) E := by
  unfold pokazInstrukcje
  split
  · exact obok_zapisz _
  · exact obok_zapisz _
  · rename_i hnot herror
    obtain ⟨komunikat, rfl⟩ := wypiszInstrukcje_error herror
    exact absurd rfl (hnot komunikat)

private theorem obok_wypiszZmienne {zmienne : List Adres} {ramka : Ramka}
    (h : Trzyma srodowisko.pamiec zmienne ramka) (hnodup : (ramka.map Prod.fst).Nodup) :
    Obok wejscie (Patrzy wejscie srodowisko lancuch n) (wypiszZmienne zmienne)
      (fun _ => Patrzy wejscie srodowisko lancuch n) E := by
  intro s t hst
  rw [wypiszZmienne_eq (hst.srodowisko.symm ▸ h) hnodup]
  exact .value ⟨hst.srodowisko,
    ⟨hst.dopisane.1.trans (List.sublist_append_right _ _), hst.dopisane.2⟩, hst.lancuch, hst.linie⟩

private theorem obok_pokazZmienne (hczytelne : Czytelne srodowisko) (poziom : Int32) :
    Obok wejscie (Patrzy wejscie srodowisko lancuch n) (pokazZmienne poziom)
      (fun _ => Patrzy wejscie srodowisko lancuch n) E := by
  refine Couples.ahead (obok_odczytaj Srodowisko.listaListZmiennych) fun listy =>
    Couples.assuming fun hlisty => ?_
  split
  · rename_i lista hlista
    obtain ⟨ramka, htrzyma, hnodup⟩ := hczytelne lista (hlisty ▸ List.mem_of_getElem? hlista)
    exact obok_wypiszZmienne htrzyma hnodup
  · exact obok_zapisz _

private theorem obok_linieZmiennych {zmienne : List Adres} {ramka : Ramka}
    (h : Trzyma srodowisko.pamiec zmienne ramka) (hnodup : (ramka.map Prod.fst).Nodup)
    {reszta : List Adres} (hsub : reszta ⊆ zmienne) :
    Obok wejscie (Patrzy wejscie srodowisko lancuch n) (linieZmiennych zmienne reszta)
      (fun _ => Patrzy wejscie srodowisko lancuch n) E := by
  have hnames : (zmienne.map fun a => (srodowisko.pamiec a).nazwa).Nodup := by
    rw [h.nazwy]
    have hsome := hnodup.map (Option.some_injective String)
    rwa [List.map_map] at hsome
  induction reszta with
  | nil => exact obok_pure _
  | cons z reszta ih =>
      have hz := hsub List.mem_cons_self
      have hwartosc : Obok wejscie (Patrzy wejscie srodowisko lancuch n) (obliczZmienna z zmienne)
          (fun _ => Patrzy wejscie srodowisko lancuch n) E := by
        intro s t hst
        rw [obliczZmienna_eq hz (hst.srodowisko.symm ▸ h.isSome)
          (hst.srodowisko.symm ▸ hnames)]
        exact .value hst
      exact Couples.ahead (obok_odczytaj _) fun _ => Couples.assuming fun _ =>
        Couples.ahead hwartosc fun _ => Couples.ahead
          (ih fun a ha => hsub (List.mem_cons_of_mem z ha)) fun _ => obok_pure _

private theorem obok_zrzut (hczytelne : Czytelne srodowisko) (sciezkaDoPliku : String) :
    Obok wejscie (Patrzy wejscie srodowisko lancuch n) (zrzut sciezkaDoPliku)
      (fun _ => Patrzy wejscie srodowisko lancuch n) E := by
  refine Couples.ahead (obok_odczytaj _) fun _ => Couples.assuming fun _ =>
    Couples.ahead (obok_odczytaj _) fun lista => Couples.assuming fun hlista => ?_
  subst hlista
  obtain ⟨ramka, htrzyma, hnodup⟩ := hczytelne.ostatnia
  exact Couples.ahead (obok_linieZmiennych htrzyma hnodup (List.Subset.refl _)) fun _ =>
    obok_zapisz _

/-! ### Commands -/

private theorem obok_nextLine :
    Obok wejscie (Patrzy wejscie srodowisko lancuch (n + 1)) nextLine
      (fun komenda s t => komenda ∈ wejscie ∧ Patrzy wejscie srodowisko lancuch n s t) E := by
  intro s t h
  rw [nextLine]
  cases hwejscie : s.wejscie with
  | nil => exact .cutRaised (.inl ⟨rfl, hwejscie⟩)
  | cons linia reszta =>
      obtain ⟨hwyjscie, hsuffix⟩ := h.dopisane
      have hlinie := h.linie
      rw [hwejscie] at hsuffix hlinie
      exact .value ⟨hsuffix.mem List.mem_cons_self, h.srodowisko,
        ⟨hwyjscie, (List.suffix_cons linia reszta).trans hsuffix⟩, h.lancuch,
        Nat.lt_of_succ_lt_succ hlinie⟩

variable [Java]

private theorem obok_wykonajKomende {komenda : String} (hkomenda : komenda ∈ wejscie) :
    Obok wejscie (Patrzy wejscie srodowisko lancuch n) (wykonajKomende (czytajKomende komenda))
      (fun _ => Patrzy wejscie srodowisko lancuch n) E := by
  cases hczytaj : czytajKomende komenda with
  | c => exact Couples.ahead (obok_zmienDebugger _) fun _ => obok_pure _
  | s liczba =>
      rw [wykonajKomende]
      split
      · exact Couples.ahead (obok_zmienDebugger _) fun _ => obok_pure _
      · exact Couples.ahead (obok_zapisz _) fun _ => obok_pure _
  | d liczba =>
      rw [wykonajKomende]
      split
      · exact Couples.ahead (obok_zmienDebugger _) fun _ => obok_pure _
      · exact Couples.ahead (obok_zapisz _) fun _ => obok_pure _
  | e => exact fun _ _ _ => .cutExited (.inr ⟨rfl, czytajKomende_e hczytaj ▸ hkomenda⟩)
  | m sciezka => exact Couples.ahead (obok_zmienDebugger _) fun _ => obok_pure _
  | nieznana => exact Couples.ahead (obok_zapisz _) fun _ => obok_pure _

/-- A turn takes a line, so the lines last as long as the turns. -/
private theorem obok_kolejneKomendy (m n : Nat) (hmn : n < m) :
    Obok wejscie (Patrzy wejscie srodowisko lancuch (n + 1)) (kolejneKomendy m)
      (fun _ => Patrzy wejscie srodowisko lancuch n) E := by
  induction m generalizing n with
  | zero => exact absurd hmn (Nat.not_lt_zero n)
  | succ m ih =>
      refine Couples.ahead (obok_zapisz _) fun _ => Couples.ahead obok_nextLine fun komenda =>
        Couples.assuming fun hkomenda =>
        Couples.ahead (obok_wykonajKomende hkomenda) fun stop => ?_
      cases stop with
      | true => exact obok_pure ()
      | false =>
          cases n with
          | zero => exact fun _ _ h => absurd h.linie (Nat.not_lt_zero _)
          | succ n =>
              exact (ih n (Nat.lt_of_succ_lt_succ hmn)).mono (fun _ _ h => h) fun _ _ _ _ h =>
                { h with linie := Nat.lt_succ_of_lt h.linie }

private theorem obok_debugKomenda :
    Obok wejscie (Patrzy wejscie srodowisko lancuch (n + 1)) debugKomenda
      (fun _ => Patrzy wejscie srodowisko lancuch n) E := by
  intro s t h
  have hlinie := h.linie
  refine (obok_kolejneKomendy (s.wejscie.length + 1) s.wejscie.length (Nat.lt_succ_self _) s t
    { h with linie := Nat.lt_succ_self _ }).mono (fun _ _ _ _ h' => ?_) fun _ _ h' => h'
  exact { h' with linie := Nat.lt_of_lt_of_le h'.linie (Nat.le_of_lt_succ hlinie) }

private theorem obok_pokazuj (hczytelne : Czytelne srodowisko) (i : Instrukcja) :
    Obok wejscie (Patrzy wejscie srodowisko lancuch n) (pokazuj i n)
      (fun _ => Patrzy wejscie srodowisko lancuch n) E := by
  induction n with
  | zero => exact fun _ _ h => absurd h.linie (Nat.not_lt_zero _)
  | succ n ih =>
      have hdebugger : Obok wejscie (Patrzy wejscie srodowisko lancuch (n + 1))
          (Imp.read Stan.debugger) (fun _ => Patrzy wejscie srodowisko lancuch (n + 1)) E :=
        fun _ _ h => .value h
      refine Couples.ahead hdebugger fun d => ?_
      split
      · refine Couples.ahead (Q := fun _ => Patrzy wejscie srodowisko lancuch (n + 1)) ?_ fun _ =>
          Couples.ahead (Q := fun _ => Patrzy wejscie srodowisko lancuch (n + 1)) ?_ fun _ =>
          Couples.ahead obok_debugKomenda fun _ => ih.mono (fun _ _ h => h) fun _ _ _ _ h =>
            { h with linie := Nat.lt_succ_of_lt h.linie }
        · split
          · exact obok_zrzut hczytelne _
          · exact obok_pure ()
        · split
          · exact obok_pokazInstrukcje i
          · exact obok_pokazZmienne hczytelne _
      · exact obok_pure ()

private theorem obok_debugger (hczytelne : Czytelne srodowisko) (i : Instrukcja) :
    Obok wejscie (Patrzy wejscie srodowisko lancuch (n + 1)) (debugger i)
      (fun _ => Patrzy wejscie srodowisko lancuch (n + 1)) E := by
  have hdebugger : Obok wejscie (Patrzy wejscie srodowisko lancuch (n + 1))
      (Imp.read Stan.debugger) (fun _ => Patrzy wejscie srodowisko lancuch (n + 1)) E :=
    fun _ _ h => .value h
  refine Couples.ahead hdebugger fun d => Couples.ahead
    (Q := fun _ => Patrzy wejscie srodowisko lancuch (n + 1)) ?_ fun _ => obok_zmienDebugger _
  split
  · refine Couples.ahead (Q := fun _ => Patrzy wejscie srodowisko lancuch (n + 1)) ?_ fun _ =>
      Couples.ahead obok_debugKomenda fun _ => ?_
    · split
      · exact obok_pokazInstrukcje i
      · exact obok_pure ()
    · intro s t h
      have hlinie := h.linie
      refine (obok_pokazuj (n := s.wejscie.length + 1) hczytelne i s t
        { h with linie := Nat.lt_succ_self _ }).mono (fun _ _ _ _ h' => ?_) fun _ _ h' => h'
      exact { h' with linie := Nat.lt_of_lt_of_le h'.linie (Nat.le_succ_of_le hlinie) }
  · exact obok_pure ()

private theorem obserwator_debugger (wejscie : List String) :
    Obserwator (Dopisane wejscie) (Przerwany wejscie) debugger where
  zdarzenie zdarzenie h := ⟨h.1.cons_cons zdarzenie, h.2⟩
  przerwanie e s h := by
    rcases h with ⟨he, -⟩ | ⟨he, -⟩
    · exact Sum.inl.inj he
    · cases he
  debugger i z nowe s t h := by
    refine (obok_debugger h.czytelne i s t ⟨rfl, h.obok, rfl, Nat.lt_succ_self _⟩).mono
      (fun _ _ s' t' h' => ?_) fun _ _ h' => h'
    exact ⟨h'.srodowisko, h'.lancuch, h'.dopisane⟩

end Patrzenie

/-! ## Programs -/

section Programy

variable [Java]

/-- With any commands a program ends as it does without the debugger, and prints what it
prints then, with lines of the debugger in between; or it has been ended by the command
"e", or the debugger has asked for a command when there are no more lines. -/
theorem debugger_przezroczysty (n : Nat) (stan : Debugger) (wejscie : List String)
    (blokGlowny : Blok) :
    ((wykonajProgram debugger n stan wejscie blokGlowny).1 =
        (wykonajProgram nic n () [] blokGlowny).1 ∧
      (wykonajProgram nic n () [] blokGlowny).2.wyjscie.Sublist
        (wykonajProgram debugger n stan wejscie blokGlowny).2.wyjscie) ∨
    ((wykonajProgram debugger n stan wejscie blokGlowny).1 = .exited 0 ∧ "e" ∈ wejscie) ∨
    ((wykonajProgram debugger n stan wejscie blokGlowny).1 = .raised .noSuchElement ∧
      (wykonajProgram debugger n stan wejscie blokGlowny).2.wejscie = []) := by
  have hnic := Coupled.sameEnd (obserwator_nic.wykonajProgram n () [] blokGlowny rfl)
    fun _ _ _ _ h => ⟨rfl, h.obok⟩
  have hrun := (obserwator_debugger wejscie).wykonajProgram n stan wejscie blokGlowny
    ⟨List.Sublist.refl _, List.suffix_refl _⟩
  rw [hnic.1, hnic.2]
  rcases hs : wykonajProgram debugger n stan wejscie blokGlowny with ⟨ending, s'⟩
  rcases ht : Lancuch.wykonajProgram n blokGlowny with ⟨ending', t'⟩
  rw [hs, ht] at hrun
  cases hrun with
  | value h => exact .inl ⟨rfl, h.obok.1⟩
  | raised h =>
      obtain ⟨z, nowe, h⟩ := h
      exact .inl ⟨rfl, h.obok.1⟩
  | exited h =>
      obtain ⟨z, nowe, h⟩ := h
      exact .inl ⟨rfl, h.obok.1⟩
  | cutRaised h =>
      rcases h with ⟨he, hwejscie⟩ | ⟨he, -⟩
      · obtain rfl := Sum.inl.inj he
        exact .inr (.inr ⟨rfl, hwejscie⟩)
      · cases he
  | cutExited h =>
      rcases h with ⟨he, -⟩ | ⟨he, hmem⟩
      · cases he
      · obtain rfl := Sum.inr.inj he
        exact .inr (.inl ⟨rfl, hmem⟩)

end Programy

end Mimuw.Interpreter
