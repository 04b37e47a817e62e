import Mathlib.Data.List.TakeWhile
import Mathlib.Tactic.Common

/-!
# The list of living cells

Sorting, writing and reading a generation. The records of the list stay where they
are; the sorts exchange what is written in them.
-/

namespace Mimuw.GameOfLife

abbrev Str := List Char

/-- `struct lista`, without the pointer to the next record -/
structure Komorka where
  nrKolumny : Int
  nrWiersza : Int
  zywiSasiedzi : Int
  deriving DecidableEq, Repr

abbrev Lista := List Komorka

def wstawNaKoniec (l : Lista) (i j k : Int) : Lista :=
  l ++ [{ nrKolumny := j, nrWiersza := i, zywiSasiedzi := k }]

/-! ## The next generation

The number of neighbours is -1 in the record of a dead cell.  Arithmetic beyond the range
of `int` is undefined. -/

def wZakresie (n : Int) : Prop := -0x80000000 ≤ n ∧ n ≤ 0x7fffffff

instance (n : Int) : Decidable (wZakresie n) := inferInstanceAs (Decidable (_ ∧ _))

def Komorka.wMiejscu (i j : Int) (c : Komorka) : Bool := c.nrWiersza = i && c.nrKolumny = j

def sprawdzajCzyWLiscie (l : Lista) (i j : Int) : Bool := l.any (·.wMiejscu i j)

/-- The condition of `zliczanie_zywych_sasiadow` -/
def Komorka.sasiaduje (i j : Int) (c : Komorka) : Bool :=
  c.wMiejscu (i - 1) (j - 1) || c.wMiejscu (i - 1) j || c.wMiejscu (i - 1) (j + 1) ||
    c.wMiejscu i (j - 1) || c.wMiejscu i (j + 1) ||
    c.wMiejscu (i + 1) (j - 1) || c.wMiejscu (i + 1) j || c.wMiejscu (i + 1) (j + 1)

def zliczanieZywychSasiadow (l : Lista) (i j : Int) : Nat :=
  l.countP fun c => c.sasiaduje i j && c.zywiSasiedzi ≠ -1

/-- The last record of the cell is the one that counts. -/
def sprawdzCzyMartwa (l : Lista) (i j : Int) : Int :=
  l.foldl (fun czyMartwa c => if c.wMiejscu i j then c.zywiSasiedzi else czyMartwa) 0

def dodajZywychSasiadow (i j sasiedzi : Int) : Lista → Lista
  | [] => []
  | c :: l =>
      if c.wMiejscu i j then { c with zywiSasiedzi := sasiedzi } :: l
      else c :: dodajZywychSasiadow i j sasiedzi l

def usunZyweKomorki : Lista → Lista
  | [] => []
  | c :: l =>
      if c.zywiSasiedzi < 2 ∧ c.zywiSasiedzi ≠ -1 ∨ c.zywiSasiedzi > 3 then usunZyweKomorki l
      else if c.zywiSasiedzi = -1 then { c with zywiSasiedzi := 3 } :: usunZyweKomorki l
      else c :: usunZyweKomorki l

/-- The list while `pom` goes along it: `pom` points to the first record of `po`, and it is
`NULL` when there is none. -/
structure Przejscie where
  przed : Lista
  po : Lista

namespace Przejscie

def lista (s : Przejscie) : Lista := s.przed ++ s.po

/-- A `pom` that is `NULL` stays `NULL`. -/
def wstawNaKoniec (s : Przejscie) (i j k : Int) : Przejscie :=
  if s.po = [] then { s with przed := GameOfLife.wstawNaKoniec s.przed i j k }
  else { s with po := GameOfLife.wstawNaKoniec s.po i j k }

def dodajZywychSasiadow (s : Przejscie) (i j sasiedzi : Int) : Przejscie :=
  let l := GameOfLife.dodajZywychSasiadow i j sasiedzi s.lista
  ⟨l.take s.przed.length, l.drop s.przed.length⟩

/-- When the record of `pom` is freed, its use is undefined. -/
def usunWszystkieWskazane (s : Przejscie) (i j : Int) : Option Przejscie :=
  if s.po.head?.any (·.wMiejscu i j) then none
  else
    some ⟨s.przed.filter fun c => !c.wMiejscu i j, s.po.filter fun c => !c.wMiejscu i j⟩

/-- The numbers from one less than those of the cell to `n` more, which its turn computes -/
def miesciSie (c : Komorka) (n : Int) : Prop :=
  wZakresie (c.nrWiersza - 1) ∧ wZakresie (c.nrWiersza + n) ∧
    wZakresie (c.nrKolumny - 1) ∧ wZakresie (c.nrKolumny + n)

instance (c : Komorka) (n : Int) : Decidable (miesciSie c n) :=
  inferInstanceAs (Decidable (_ ∧ _))

/-- The loops over `w` and `k`. -/
def miejsca (i j : Int) : List (Int × Int) :=
  (List.range 3).flatMap fun w : Nat => (List.range 3).map fun k : Nat => (i - 1 + w, j - 1 + k)

def wstawMartwe (s : Przejscie) (miejsca : List (Int × Int)) : Przejscie :=
  miejsca.foldl (fun s (w, k) =>
    if sprawdzajCzyWLiscie s.lista w k then s else s.wstawNaKoniec w k (-1)) s

/-- The end of a turn of both loops. -/
def policz (s : Przejscie) (i j : Int) : Option Przejscie :=
  let zywiSasiedzi := zliczanieZywychSasiadow s.lista i j
  let martwa := sprawdzCzyMartwa s.lista i j
  let s := if martwa ≠ -1 then s.dodajZywychSasiadow i j zywiSasiedzi else s
  if martwa = -1 ∧ zywiSasiedzi ≠ 3 then s.usunWszystkieWskazane i j else some s

/-- The first loop, with `licznik - liczenie`. Its `w` and `k` end two after the cell. -/
def przejdzZywe : Nat → Przejscie → Option Przejscie
  | 0, s => some s
  | n + 1, s =>
      match s.po with
      | [] => some s
      | pom :: nast =>
          if miesciSie pom 2 then do
            let s := (⟨s.przed ++ [pom], nast⟩ : Przejscie).wstawMartwe
              (miejsca pom.nrWiersza pom.nrKolumny)
            let s ← s.policz pom.nrWiersza pom.nrKolumny
            przejdzZywe n s
          else none

/-- The second loop; no record is added there, so the length of the list bounds its turns. -/
def przejdzMartwe : Nat → Przejscie → Option Przejscie
  | 0, s => some s
  | n + 1, s =>
      match s.po with
      | [] => some s
      | pom :: nast =>
          if miesciSie pom 1 then do
            let s ← (⟨s.przed ++ [pom], nast⟩ : Przejscie).policz pom.nrWiersza pom.nrKolumny
            przejdzMartwe n s
          else none

end Przejscie

def nowaGeneracjaLista (l : Lista) : Option Lista := do
  let s ← Przejscie.przejdzZywe l.length ⟨[], l⟩
  let s ← s.przejdzMartwe s.po.length
  return usunZyweKomorki s.lista

/-! ## Sorting -/

/-- The inner loop of both sorts: where `pom2` stands, counted from `pom`, and what it holds. -/
def szukaj (klucz : Komorka → Int) (warunek : Komorka → Bool) :
    Nat × Komorka → Nat → Lista → Nat × Komorka
  | pom2, _, [] => pom2
  | pom2, i, pom3 :: nast =>
      if warunek pom3 then
        szukaj klucz warunek (if klucz pom2.2 > klucz pom3 then (i, pom3) else pom2) (i + 1) nast
      else pom2

/-- The outer loop of both sorts. `przepisz a b` writes to `a` the fields of `b` that the sort
exchanges. -/
def posortuj (klucz : Komorka → Int) (warunek : Komorka → Komorka → Bool)
    (przepisz : Komorka → Komorka → Komorka) : Lista → Lista
  | [] => []
  | pom :: nast =>
      let pom2 := szukaj klucz (warunek pom) (0, pom) 1 nast
      przepisz pom pom2.2 :: posortuj klucz warunek przepisz
        (if pom2.1 = 0 then nast else nast.modify (pom2.1 - 1) (przepisz · pom))
termination_by l => l.length
decreasing_by split <;> simp

def posortujListeWiersze : Lista → Lista :=
  posortuj Komorka.nrWiersza (fun _ _ => true)
    fun a b => { a with nrWiersza := b.nrWiersza, nrKolumny := b.nrKolumny }

def posortujListeKolumny : Lista → Lista :=
  posortuj Komorka.nrKolumny (fun pom pom3 => pom3.nrWiersza = pom.nrWiersza)
    fun a b => { a with nrKolumny := b.nrKolumny }

/-! ## Writing -/

/-- `printf("%d", n)` -/
def wypisz (n : Int) : Str :=
  if n < 0 then '-' :: Nat.toDigits 10 n.natAbs else Nat.toDigits 10 n.natAbs

/-- The loop of `zrzut_aktualnej_generacji`, after a cell of row `a` -/
def zrzutDalej (a : Int) : Lista → Str
  | [] => []
  | pom :: nast =>
      (if a = pom.nrWiersza then ' ' :: wypisz pom.nrKolumny
        else '\n' :: '/' :: (wypisz pom.nrWiersza ++ ' ' :: wypisz pom.nrKolumny)) ++
      zrzutDalej pom.nrWiersza nast

/-- The list as it is sorted, and what is written. -/
def zrzutAktualnejGeneracji (l : Lista) : Lista × Str :=
  let l := posortujListeKolumny (posortujListeWiersze l)
  match l with
  | [] => (l, ['/', '\n'])
  | pom :: nast =>
      (l, '/' :: (wypisz pom.nrWiersza ++ ' ' :: wypisz pom.nrKolumny) ++
        zrzutDalej pom.nrWiersza nast ++ ['\n'] ++ ['/', '\n'])

/-! ## Reading -/

/-- The character that is read, `-1` at the end, and what is left of the input. -/
def getchar : Str → Int × Str
  | [] => (-1, [])
  | c :: wejscie => (c.toNat, wejscie)

def ungetc (c : Int) (wejscie : Str) : Str :=
  if c = -1 then wejscie else .ofNat c.toNat :: wejscie

def isspace (c : Char) : Bool := c ∈ [' ', '\t', '\n', '\x0b', '\x0c', '\r']

/-- `scanf("%d", ...)`, which stores nothing when no number is found. -/
def scanf (wejscie : Str) : Option Int × Str :=
  let wejscie := wejscie.dropWhile isspace
  let znak := wejscie.head? = some '-'
  let cyfry := if znak ∨ wejscie.head? = some '+' then wejscie.tail else wejscie
  let liczba : Int := Nat.ofDigitChars 10 (cyfry.takeWhile Char.isDigit) 0
  (if cyfry.takeWhile Char.isDigit = [] then none else some (if znak then -liczba else liczba),
    cyfry.dropWhile Char.isDigit)

/-- The inner loop of `wczytaj`, for row `c`. Fuel bounds the rounds, as the loop does not end
at the end of the input. -/
def wczytajWiersz (c : Int) : Nat → Int → Str → Lista → Option (Lista × Str)
  | 0, _, _, _ => none
  | fuel + 1, k, wejscie, l =>
      if k = '\n'.toNat then some (l, wejscie)
      else
        let (k, wejscie) :=
          if k = ' '.toNat then ((scanf wejscie).1.getD k, (scanf wejscie).2) else (k, wejscie)
        let l := wstawNaKoniec l c k 0
        let (k, wejscie) := getchar wejscie
        wczytajWiersz c fuel k wejscie l

/-- The outer loop of `wczytaj`; the test before its `break` is that of the loop. -/
def wczytajDalej : Nat → Int → Str → Lista → Option (Lista × Str)
  | 0, _, _, _ => none
  | fuel + 1, c, wejscie, l =>
      if c = '\n'.toNat then some (l, wejscie)
      else
        let wejscie := ungetc c wejscie
        let (wiersz, wejscie) := scanf wejscie
        let (k, wejscie) := getchar wejscie
        match wczytajWiersz (wiersz.getD c) fuel k wejscie l with
        | none => none
        | some (l, wejscie) =>
            let (_, wejscie) := getchar wejscie
            let (c, wejscie) := getchar wejscie
            wczytajDalej fuel c wejscie l

def wczytaj (fuel : Nat) (wejscie : Str) (l : Lista) : Option (Lista × Str) :=
  let (_, wejscie) := getchar wejscie
  let (c, wejscie) := getchar wejscie
  wczytajDalej fuel c wejscie l

/-! ## Playing -/

def wiersze : Nat := 22

def kolumny : Nat := 80

/-- The array of `drukowanie_generacji` -/
abbrev Tablica := List (List Char)

def wypelnij : Tablica := List.replicate wiersze (List.replicate kolumny '.')

def drukuj (a : Tablica) : Str :=
  a.flatMap (· ++ ['\n']) ++ List.replicate kolumny '=' ++ ['\n']

/-- A turn of the loop of `drukowanie_generacji`, which adds to `i` and `j` only where the
comparisons before are true -/
def zaznacz (i j : Int) (a : Tablica) (pom : Komorka) : Option Tablica :=
  if pom.nrWiersza < i then some a
  else if ¬ wZakresie (i + wiersze) then none
  else if pom.nrWiersza > i + wiersze - 1 ∨ pom.nrKolumny < j then some a
  else if ¬ wZakresie (j + kolumny) then none
  else if pom.nrKolumny > j + kolumny - 1 then some a
  else some (a.modify (pom.nrWiersza - i).toNat (·.set (pom.nrKolumny - j).toNat '0'))

def drukowanieGeneracji (l : Lista) (i j : Int) : Option Str := do
  let a ← l.foldlM (zaznacz i j) wypelnij
  return drukuj a

/-- The loop over `i` in `graj` -/
def noweGeneracje : Nat → Lista → Option Lista
  | 0, l => some l
  | n + 1, l => do
      let l ← nowaGeneracjaLista l
      noweGeneracje n l

/-- `scanf` into a variable that has no value yet, of a number that `int` can hold -/
def liczba (wejscie : Str) : Option (Int × Str) := do
  let a ← (scanf wejscie).1
  if wZakresie a then some (a, (scanf wejscie).2) else none

/-- The loop of `graj`, with what has been written. `none` is also undefined behaviour. -/
def grajDalej : Nat → Lista → Int → Int → Int → Str → Str → Option (Lista × Str × Str)
  | 0, _, _, _, _, _, _ => none
  | fuel + 1, l, w, k, c, wejscie, wyjscie =>
      if c = '.'.toNat then some (l, wejscie, wyjscie)
      else if c = '\n'.toNat then do
        let l ← nowaGeneracjaLista l
        let obraz ← drukowanieGeneracji l w k
        let (c, wejscie) := getchar wejscie
        grajDalej fuel l w k c wejscie (wyjscie ++ obraz)
      else do
        let wejscie := ungetc c wejscie
        let (a, wejscie) ← liczba wejscie
        let (c, wejscie) := getchar wejscie
        if c = ' '.toNat then
          let (b, wejscie) ← liczba wejscie
          let obraz ← drukowanieGeneracji l a b
          let (_, wejscie) := getchar wejscie
          let (c, wejscie) := getchar wejscie
          grajDalej fuel l a b c wejscie (wyjscie ++ obraz)
        else if a = 1 then
          let l ← nowaGeneracjaLista l
          let obraz ← drukowanieGeneracji l w k
          let (c, wejscie) := getchar wejscie
          grajDalej fuel l w k c wejscie (wyjscie ++ obraz)
        else if a = 0 then
          let (l, zrzut) := zrzutAktualnejGeneracji l
          let obraz ← drukowanieGeneracji l w k
          let (c, wejscie) := getchar wejscie
          grajDalej fuel l w k c wejscie (wyjscie ++ zrzut ++ obraz)
        else
          let l ← noweGeneracje a.toNat l
          let obraz ← drukowanieGeneracji l w k
          let (c, wejscie) := getchar wejscie
          grajDalej fuel l w k c wejscie (wyjscie ++ obraz)

def graj (fuel : Nat) (wejscie : Str) (l : Lista) : Option (Lista × Str × Str) := do
  let obraz ← drukowanieGeneracji l 1 1
  let (c, wejscie) := getchar wejscie
  grajDalej fuel l 1 1 c wejscie obraz

/-- What `main` writes, and what is left of its input. -/
def main (fuel : Nat) (wejscie : Str) : Option (Str × Str) := do
  let (l, wejscie) ← wczytaj fuel wejscie []
  let (_, wejscie, wyjscie) ← graj fuel wejscie l
  return (wyjscie, wejscie)

end Mimuw.GameOfLife
