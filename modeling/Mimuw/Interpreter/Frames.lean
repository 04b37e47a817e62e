import Mathlib.Data.List.Forall2
import Mimuw.Interpreter.Calls
import Mimuw.Interpreter.Chain

/-!
# Cells and frames

Each frame of the chain has its cells.  The lists of an environment are made of these:
a list has the cells of its own frame, and the ones of the list below whose names the
frame does not have.
-/

namespace Mimuw.Interpreter

open Mimuw.Lib

/-! ## Lists of cells -/

section Listy

variable {pamiec : Adres → Zmienna}

/-- The cells have the names and values of the frame. -/
abbrev Trzyma (pamiec : Adres → Zmienna) : List Adres → Ramka → Prop :=
  List.Forall₂ fun a y => pamiec a = ⟨some y.1, y.2⟩

theorem Trzyma.nazwy {lista : List Adres} {ramka : Ramka} (h : Trzyma pamiec lista ramka) :
    lista.map (fun a => (pamiec a).nazwa) = ramka.map fun y => some y.1 := by
  induction h with
  | nil => rfl
  | cons hy _ ih => rw [List.map_cons, List.map_cons, hy, ih]

theorem Trzyma.isSome {lista : List Adres} {ramka : Ramka} (h : Trzyma pamiec lista ramka) :
    ∀ a ∈ lista, (pamiec a).nazwa.isSome := by
  intro a ha
  have hmem : (pamiec a).nazwa ∈ lista.map fun a => (pamiec a).nazwa :=
    List.mem_map_of_mem ha
  rw [h.nazwy] at hmem
  obtain ⟨y, -, hy⟩ := List.mem_map.mp hmem
  rw [← hy]
  rfl

theorem Trzyma.any_nazwa {lista : List Adres} {ramka : Ramka} (h : Trzyma pamiec lista ramka)
    (x : String) : (lista.any fun a => (pamiec a).nazwa = some x) ↔ x ∈ ramka.map Prod.fst := by
  induction h with
  | nil => simp
  | @cons a y lista ramka hy _ ih =>
      rw [List.any_cons, List.map_cons, List.mem_cons, Bool.or_eq_true, ih, hy]
      simp [eq_comm]

/-- The first cell with the name has the value of the first variable with it. -/
theorem Trzyma.find {lista : List Adres} {ramka : Ramka} (h : Trzyma pamiec lista ramka)
    (x : String) :
    (lista.find? (nazwana pamiec x)).map (fun a => (pamiec a).wartosc) = ramka.lookup x := by
  induction h with
  | nil => rfl
  | @cons a y lista ramka hy _ ih =>
      obtain ⟨nazwa, wartosc⟩ := y
      rw [List.find?_cons, List.lookup_cons]
      by_cases hx : x = nazwa
      · subst hx
        simp [nazwana, hy]
      · have hne : nazwana pamiec x a = false := by simpa [nazwana, hy] using fun heq => hx heq.symm
        have hbeq : (x == nazwa) = false := beq_eq_false_iff_ne.mpr hx
        rw [hne, hbeq]
        exact ih

/-- What is added to a list are the cells whose names it does not have. -/
private theorem dolacz_eq {lista : List Adres} (swoje : List Adres)
    (hsome : ∀ a ∈ lista, (pamiec a).nazwa.isSome)
    (hnodup : (lista.map fun a => (pamiec a).nazwa).Nodup) :
    dolacz pamiec swoje lista = .ok (swoje ++ lista.filter fun a =>
      !swoje.any fun b => (pamiec b).nazwa = (pamiec a).nazwa) := by
  induction lista generalizing swoje with
  | nil => simp [dolacz]
  | cons z lista ih =>
      obtain ⟨x, hx⟩ := Option.isSome_iff_exists.mp (hsome z List.mem_cons_self)
      have hrest : ∀ a ∈ lista, (pamiec a).nazwa.isSome :=
        fun a ha => hsome a (List.mem_cons_of_mem z ha)
      obtain ⟨hz, hlista⟩ := List.nodup_cons.mp hnodup
      rw [dolacz, hx, List.filter_cons, hx]
      by_cases hjest : (swoje.any fun b => (pamiec b).nazwa = some x) = true
      · simp only [hjest, if_true, Bool.not_true, Bool.false_eq_true, if_false]
        exact ih swoje hrest hlista
      · simp only [hjest, Bool.false_eq_true, if_false, Bool.not_false, if_true]
        rw [ih (swoje ++ [z]) hrest hlista, List.append_assoc]
        congr 2
        rw [List.singleton_append, List.cons.injEq]
        refine ⟨rfl, List.filter_congr fun a ha => ?_⟩
        have hne : ¬ (pamiec z).nazwa = (pamiec a).nazwa :=
          fun heq => hz (List.mem_map.mpr ⟨a, ha, heq.symm⟩)
        simp [List.any_append, hne]

def plaskie (pamiec : Adres → Zmienna) : List (List Adres) → List (List Adres)
  | [] => []
  | swoje :: wlasne =>
      (swoje ++ ((plaskie pamiec wlasne).headD []).filter fun a =>
        !swoje.any fun b => (pamiec b).nazwa = (pamiec a).nazwa) :: plaskie pamiec wlasne

def widac (pamiec : Adres → Zmienna) (wlasne : List (List Adres)) : List Adres :=
  (plaskie pamiec wlasne).headD []

theorem length_plaskie (wlasne : List (List Adres)) :
    (plaskie pamiec wlasne).length = wlasne.length := by
  induction wlasne with
  | nil => rfl
  | cons swoje wlasne ih => rw [plaskie, List.length_cons, List.length_cons, ih]

theorem plaskie_congr {pamiec' : Adres → Zmienna}
    {wlasne : List (List Adres)}
    (h : ∀ a ∈ wlasne.flatten, (pamiec' a).nazwa = (pamiec a).nazwa) :
    plaskie pamiec' wlasne = plaskie pamiec wlasne ∧
      ∀ a ∈ widac pamiec wlasne, a ∈ wlasne.flatten := by
  induction wlasne with
  | nil => exact ⟨rfl, by simp [widac, plaskie]⟩
  | cons swoje wlasne ih =>
      have hswoje : ∀ b ∈ swoje, (pamiec' b).nazwa = (pamiec b).nazwa :=
        fun b hb => h b (by simp [hb])
      have hreszta : ∀ a ∈ wlasne.flatten, (pamiec' a).nazwa = (pamiec a).nazwa :=
        fun a ha => h a (by rw [List.flatten_cons]; exact List.mem_append_right _ ha)
      obtain ⟨hplaskie, hmem⟩ := ih hreszta
      constructor
      · rw [plaskie, plaskie, hplaskie]
        congr 2
        refine List.filter_congr fun a ha => ?_
        rw [hreszta a (hmem a ha)]
        congr 1
        rw [Bool.eq_iff_iff, List.any_eq_true, List.any_eq_true]
        exact exists_congr fun b => and_congr_right fun hb => by rw [hswoje b hb]
      · intro a ha
        rw [widac, plaskie, List.headD_cons] at ha
        rw [List.flatten_cons, List.mem_append]
        rcases List.mem_append.mp ha with ha | ha
        · exact .inl ha
        · exact .inr (hmem a (List.mem_of_mem_filter ha))

/-- A name is looked for in one frame after another. -/
private theorem find_widac (wlasne : List (List Adres)) (x : String) :
    (widac pamiec wlasne).find? (nazwana pamiec x) =
      wlasne.flatten.find? (nazwana pamiec x) := by
  induction wlasne with
  | nil => rfl
  | cons swoje wlasne ih =>
      rw [widac, plaskie, List.headD_cons, List.find?_append, List.flatten_cons,
        List.find?_append, ← ih]
      cases hswoje : swoje.find? (nazwana pamiec x) with
      | some a => rfl
      | none =>
          rw [Option.none_or, Option.none_or, List.find?_filter]
          refine List.find?_congr fun a _ => ?_
          cases ha : nazwana pamiec x a with
          | false => simp
          | true =>
              have hnazwa : (pamiec a).nazwa = some x := of_decide_eq_true ha
              have hnone := List.find?_eq_none.mp hswoje
              simpa [hnazwa, nazwana] using hnone

end Listy

/-! ## The cells of the frames -/

structure Komorki (srodowisko : Srodowisko) (wlasne : List (List Adres)) (ramki : List Ramka) :
    Prop where
  wartosci : List.Forall₂ (Trzyma srodowisko.pamiec) wlasne ramki
  rozne : wlasne.flatten.Nodup
  zrobione : ∀ a ∈ wlasne.flatten, a < srodowisko.nastepny
  nazwy : ∀ ramka ∈ ramki, (ramka.map Prod.fst).Nodup

section Komorki

variable {srodowisko : Srodowisko} {wlasne : List (List Adres)} {ramki : List Ramka}

theorem wartosci_widac {pamiec : Adres → Zmienna}
    (h : List.Forall₂ (Trzyma pamiec) wlasne ramki) :
    Trzyma pamiec (widac pamiec wlasne) (Ramka.widoczne ramki) := by
  induction h with
  | nil => exact .nil
  | @cons swoje ramka wlasne ramki hswoje _ ih =>
      rw [widac, plaskie, List.headD_cons, Ramka.widoczne]
      refine List.rel_append hswoje (List.rel_filter (fun a y hy => ?_) ih)
      have hany := hswoje.any_nazwa y.1
      dsimp only
      rw [hy]
      by_cases hmem : y.1 ∈ ramka.map Prod.fst
      · rw [hany.mpr hmem]
        simp [hmem]
      · rw [Bool.eq_false_iff.mpr (mt hany.mp hmem)]
        simp [hmem]

theorem nodup_widoczne (h : ∀ ramka ∈ ramki, (ramka.map Prod.fst).Nodup) :
    ((Ramka.widoczne ramki).map Prod.fst).Nodup := by
  induction ramki with
  | nil => exact List.nodup_nil
  | cons ramka ramki ih =>
      rw [Ramka.widoczne, List.map_append, List.nodup_append]
      refine ⟨h ramka List.mem_cons_self, ?_, ?_⟩
      · exact (ih fun r hr => h r (List.mem_cons_of_mem ramka hr)).sublist
          (List.filter_sublist.map Prod.fst)
      · rintro x hx _ hx' rfl
        obtain ⟨y, hy, rfl⟩ := List.mem_map.mp hx'
        have hnot := (List.mem_filter.mp hy).2
        exact of_decide_eq_true hnot hx

namespace Komorki

variable (h : Komorki srodowisko wlasne ramki)
include h

theorem widac : Trzyma srodowisko.pamiec (Interpreter.widac srodowisko.pamiec wlasne)
    (Ramka.widoczne ramki) :=
  wartosci_widac h.wartosci

private theorem nazwy_widac :
    ((Interpreter.widac srodowisko.pamiec wlasne).map fun a =>
      (srodowisko.pamiec a).nazwa).Nodup := by
  rw [h.widac.nazwy]
  have hnodup := (nodup_widoczne h.nazwy).map (Option.some_injective String)
  rwa [List.map_map] at hnodup

theorem szukaj (nazwa : Option String) :
    ∃ znaleziona, Interpreter.szukaj srodowisko.pamiec nazwa
        (Interpreter.widac srodowisko.pamiec wlasne) = .ok znaleziona ∧
      znaleziona.map (fun a => (srodowisko.pamiec a).wartosc) =
        nazwa.bind (Ramka.wartosc ramki) ∧
      ∀ x, nazwa = some x → znaleziona = wlasne.flatten.find? (nazwana srodowisko.pamiec x) := by
  refine ⟨_, szukaj_eq nazwa h.widac.isSome, ?_⟩
  cases nazwa with
  | none =>
      have hnone : (Interpreter.widac srodowisko.pamiec wlasne).find?
          (fun a => (srodowisko.pamiec a).nazwa = none) = none := by
        refine List.find?_eq_none.mpr fun a ha hnazwa => ?_
        have hsome := h.widac.isSome a ha
        rw [of_decide_eq_true hnazwa] at hsome
        cases hsome
      rw [hnone]
      exact ⟨rfl, by simp⟩
  | some x =>
      have hfind := @find_widac srodowisko.pamiec wlasne x
      refine ⟨?_, fun y hy => ?_⟩
      · refine (congrArg (Option.map _) hfind).trans ?_
        exact Trzyma.find (List.rel_flatten h.wartosci) x
      · obtain rfl := Option.some.inj hy
        exact hfind

theorem oblicz (wyrazenie : Wyrazenie) :
    wyrazenie.oblicz srodowisko.pamiec (Interpreter.widac srodowisko.pamiec wlasne) =
      wyrazenie.wLancuchu ramki := by
  induction wyrazenie with
  | null => rfl
  | literal w => rfl
  | zmienna nazwa =>
      obtain ⟨znaleziona, hszukaj, hwartosc, -⟩ := h.szukaj nazwa
      rw [Wyrazenie.oblicz, Wyrazenie.wLancuchu, hszukaj, ← hwartosc]
      cases znaleziona with
      | none => rfl
      | some a => rfl
  | operator dzialanie lewe prawe ihl ihp =>
      rw [Wyrazenie.oblicz, ihl, ihp]
      rfl

end Komorki

/-! ### Changes -/

theorem setWartosc_nazwa (a : Adres) (v : Int32) (b : Adres) :
    ((srodowisko.setWartosc a v).pamiec b).nazwa = (srodowisko.pamiec b).nazwa := by
  change (if b = a then ({ srodowisko.pamiec a with wartosc := v } : Zmienna)
    else srodowisko.pamiec b).nazwa = _
  split
  · rename_i heq
    rw [heq]
  · rfl

theorem setWartosc_inna {a b : Adres} (v : Int32) (h : b ≠ a) :
    (srodowisko.setWartosc a v).pamiec b = srodowisko.pamiec b :=
  if_neg h

theorem setWartosc_ta (a : Adres) (v : Int32) :
    (srodowisko.setWartosc a v).pamiec a = { srodowisko.pamiec a with wartosc := v } :=
  if_pos rfl

theorem Trzyma.congr {pamiec pamiec' : Adres → Zmienna} {lista : List Adres} {ramka : Ramka}
    (h : Trzyma pamiec lista ramka) (hsame : ∀ a ∈ lista, pamiec' a = pamiec a) :
    Trzyma pamiec' lista ramka := by
  induction h with
  | nil => exact .nil
  | @cons a y lista ramka hy _ ih =>
      exact .cons ((hsame a List.mem_cons_self).trans hy)
        (ih fun b hb => hsame b (List.mem_cons_of_mem a hb))

private theorem names_zmieniona (x : String) (v : Int32) (ramka : Ramka) :
    (Ramka.zmieniona x v ramka).map Prod.fst = ramka.map Prod.fst := by
  rw [Ramka.zmieniona, List.map_map]
  refine List.map_congr_left fun y _ => ?_
  by_cases hx : y.1 = x <;> simp [hx]

theorem Trzyma.setWartosc {lista : List Adres} {ramka : Ramka} {x : String} {a : Adres}
    (h : Trzyma srodowisko.pamiec lista ramka) (hnodup : (ramka.map Prod.fst).Nodup)
    (ha : lista.find? (nazwana srodowisko.pamiec x) = some a) (v : Int32) :
    Trzyma (srodowisko.setWartosc a v).pamiec lista (Ramka.zmieniona x v ramka) := by
  have hname : (srodowisko.pamiec a).nazwa = some x := by
    have hfound := List.find?_some ha
    simpa [nazwana] using hfound
  have hother {l : List Adres} {r : Ramka} (hl : Trzyma srodowisko.pamiec l r)
      (hx : x ∉ r.map Prod.fst) :
      Trzyma (srodowisko.setWartosc a v).pamiec l (Ramka.zmieniona x v r) := by
    induction hl with
    | nil => exact .nil
    | @cons b y l r hy _ ih =>
        obtain ⟨hne, hr⟩ := not_or.mp (mt List.mem_cons.mpr hx)
        refine .cons ?_ (ih hr)
        have hb : b ≠ a := by
          rintro rfl
          rw [hy] at hname
          exact hne (Option.some.inj hname).symm
        rw [setWartosc_inna v hb, hy]
        simp [Ne.symm hne]
  induction h with
  | nil => cases ha
  | @cons b y lista ramka hy hrest ih =>
      obtain ⟨hnot, hnodup⟩ := List.nodup_cons.mp hnodup
      rw [List.find?_cons] at ha
      by_cases hx : y.1 = x
      · have hfirst : nazwana srodowisko.pamiec x b = true := by simp [nazwana, hy, hx]
        rw [hfirst] at ha
        obtain rfl := Option.some.inj ha
        refine .cons ?_ (hother hrest (hx ▸ hnot))
        rw [setWartosc_ta, hy]
        simp [hx]
      · have hfirst : nazwana srodowisko.pamiec x b = false := by simp [nazwana, hy, hx]
        rw [hfirst] at ha
        refine .cons ?_ (ih hnodup ha)
        have hb : b ≠ a := by
          rintro rfl
          rw [hy] at hname
          exact hx (Option.some.inj hname)
        rw [setWartosc_inna v hb, hy]
        simp [hx]

private theorem wartosci_setWartosc {x : String} {a : Adres}
    (h : List.Forall₂ (Trzyma srodowisko.pamiec) wlasne ramki) (hrozne : wlasne.flatten.Nodup)
    (hnazwy : ∀ ramka ∈ ramki, (ramka.map Prod.fst).Nodup)
    (ha : wlasne.flatten.find? (nazwana srodowisko.pamiec x) = some a) (v : Int32) :
    List.Forall₂ (Trzyma (srodowisko.setWartosc a v).pamiec) wlasne
      (Ramka.przypisz x v ramki) := by
  induction h with
  | nil => cases ha
  | @cons swoje ramka wlasne ramki hswoje hreszta ih =>
      obtain ⟨-, hreszty, hinne⟩ := List.nodup_append.mp hrozne
      rw [List.flatten_cons, List.find?_append] at ha
      rw [Ramka.przypisz]
      by_cases hx : x ∈ ramka.map Prod.fst
      · have hsome : (swoje.find? (nazwana srodowisko.pamiec x)).isSome := by
          rw [List.find?_isSome]
          exact List.any_eq_true.mp ((hswoje.any_nazwa x).mpr hx)
        obtain ⟨b, hb⟩ := Option.isSome_iff_exists.mp hsome
        rw [hb, Option.some_or] at ha
        obtain rfl := Option.some.inj ha
        rw [if_pos hx]
        refine .cons (hswoje.setWartosc (hnazwy ramka List.mem_cons_self) hb v) ?_
        refine List.Forall₂.imp (fun lista r hl => hl.2.congr fun c hc => ?_)
          ((List.forall₂_and_left wlasne ramki).mpr ⟨fun _ hlista => hlista, hreszta⟩)
        refine setWartosc_inna v fun heq => ?_
        exact hinne b (List.mem_of_find?_eq_some hb) c
          (List.mem_flatten.mpr ⟨lista, hl.1, hc⟩) heq.symm
      · have hnone : swoje.find? (nazwana srodowisko.pamiec x) = none := by
          refine List.find?_eq_none.mpr fun b hb hname => hx ?_
          exact (hswoje.any_nazwa x).mp (List.any_eq_true.mpr ⟨b, hb, hname⟩)
        rw [hnone, Option.none_or] at ha
        rw [if_neg hx]
        refine .cons (hswoje.congr fun b hb => setWartosc_inna v fun heq => ?_)
          (ih hreszty (fun r hr => hnazwy r (List.mem_cons_of_mem ramka hr)) ha)
        exact hinne b hb a (List.mem_of_find?_eq_some ha) heq

private theorem names_przypisz (x : String) (v : Int32) (ramki : List Ramka) :
    (Ramka.przypisz x v ramki).map (List.map Prod.fst) = ramki.map (List.map Prod.fst) := by
  induction ramki with
  | nil => rfl
  | cons ramka ramki ih =>
      rw [Ramka.przypisz]
      split
      · rw [List.map_cons, List.map_cons, names_zmieniona]
      · rw [List.map_cons, List.map_cons, ih]

namespace Komorki

variable (h : Komorki srodowisko wlasne ramki)
include h

theorem setWartosc {x : String} {a : Adres}
    (ha : wlasne.flatten.find? (nazwana srodowisko.pamiec x) = some a) (v : Int32) :
    Komorki (srodowisko.setWartosc a v) wlasne (Ramka.przypisz x v ramki) where
  wartosci := wartosci_setWartosc h.wartosci h.rozne h.nazwy ha v
  rozne := h.rozne
  zrobione := h.zrobione
  nazwy ramka hramka := by
    have hmem : ramka.map Prod.fst ∈ ramki.map (List.map Prod.fst) := by
      rw [← names_przypisz x v]
      exact List.mem_map_of_mem hramka
    obtain ⟨r, hr, heq⟩ := List.mem_map.mp hmem
    exact heq ▸ h.nazwy r hr

theorem zostaje {srodowisko' : Srodowisko}
    (hpamiec : ∀ a < srodowisko.nastepny, srodowisko'.pamiec a = srodowisko.pamiec a)
    (hnastepny : srodowisko.nastepny ≤ srodowisko'.nastepny) :
    Komorki srodowisko' wlasne ramki where
  wartosci := List.Forall₂.imp
    (fun lista _ hl => hl.2.congr fun a ha =>
      hpamiec a (h.zrobione a (List.mem_flatten.mpr ⟨lista, hl.1, ha⟩)))
    ((List.forall₂_and_left wlasne ramki).mpr ⟨fun _ hlista => hlista, h.wartosci⟩)
  rozne := h.rozne
  zrobione a ha := Nat.lt_of_lt_of_le (h.zrobione a ha) hnastepny
  nazwy := h.nazwy

theorem cons {swoje : List Adres} {ramka : Ramka} (hswoje : Trzyma srodowisko.pamiec swoje ramka)
    (hrozne : swoje.Nodup) (hnowe : ∀ a ∈ swoje, a ∉ wlasne.flatten)
    (hzrobione : ∀ a ∈ swoje, a < srodowisko.nastepny) (hnazwy : (ramka.map Prod.fst).Nodup) :
    Komorki srodowisko (swoje :: wlasne) (ramka :: ramki) where
  wartosci := .cons hswoje h.wartosci
  rozne := by
    rw [List.flatten_cons, List.nodup_append]
    exact ⟨hrozne, h.rozne, fun a ha b hb heq => hnowe a ha (heq ▸ hb)⟩
  zrobione a ha := by
    rw [List.flatten_cons] at ha
    exact (List.mem_append.mp ha).elim (hzrobione a) (h.zrobione a)
  nazwy r hr := (List.mem_cons.mp hr).elim (fun heq => heq ▸ hnazwy) (h.nazwy r)

end Komorki

section Nowe

variable {swoje : List Adres} {ramka : Ramka}

theorem Komorki.tail (h : Komorki srodowisko (swoje :: wlasne) (ramka :: ramki)) :
    Komorki srodowisko wlasne ramki where
  wartosci := (List.forall₂_cons.mp h.wartosci).2
  rozne := (List.nodup_append.mp h.rozne).2.1
  zrobione a ha := h.zrobione a (List.mem_append_right _ ha)
  nazwy r hr := h.nazwy r (List.mem_cons_of_mem ramka hr)

theorem Komorki.dolacz (h : Komorki srodowisko (swoje :: wlasne) (ramka :: ramki)) :
    Interpreter.dolacz srodowisko.pamiec swoje (Interpreter.widac srodowisko.pamiec wlasne) =
      .ok (Interpreter.widac srodowisko.pamiec (swoje :: wlasne)) :=
  dolacz_eq swoje h.tail.widac.isSome h.tail.nazwy_widac

theorem Komorki.snoc (h : Komorki srodowisko (swoje :: wlasne) (ramka :: ramki)) {x : String}
    {v : Int32} {srodowisko' : Srodowisko}
    (hpamiec : ∀ a < srodowisko.nastepny, srodowisko'.pamiec a = srodowisko.pamiec a)
    (hnowa : srodowisko'.pamiec srodowisko.nastepny = ⟨some x, v⟩)
    (hnastepny : srodowisko'.nastepny = srodowisko.nastepny + 1) (hx : x ∉ ramka.map Prod.fst) :
    Komorki srodowisko' ((swoje ++ [srodowisko.nastepny]) :: wlasne)
      ((ramka ++ [(x, v)]) :: ramki) := by
  have hle : srodowisko.nastepny ≤ srodowisko'.nastepny :=
    hnastepny ▸ Nat.le_succ _
  have hstays := h.zostaje hpamiec hle
  have hold : ∀ a ∈ (swoje :: wlasne).flatten, a < srodowisko.nastepny := h.zrobione
  obtain ⟨hswoje, -, hinne⟩ := List.nodup_append.mp h.rozne
  refine hstays.tail.cons ?_ ?_ ?_ ?_ ?_
  · exact List.rel_append (List.forall₂_cons.mp hstays.wartosci).1 (.cons hnowa .nil)
  · refine List.nodup_append.mpr ⟨hswoje, List.nodup_singleton _, fun a ha b hb heq => ?_⟩
    have hlt := hold a (List.mem_append_left _ ha)
    rw [heq, List.mem_singleton.mp hb] at hlt
    exact Nat.lt_irrefl _ hlt
  · intro a ha hmem
    rcases List.mem_append.mp ha with ha | ha
    · exact hinne a ha a hmem rfl
    · have hlt := hold a (List.mem_append_right _ hmem)
      rw [List.mem_singleton.mp ha] at hlt
      exact Nat.lt_irrefl _ hlt
  · intro a ha
    rw [hnastepny]
    rcases List.mem_append.mp ha with ha | ha
    · exact Nat.lt_succ_of_lt (hold a (List.mem_append_left _ ha))
    · rw [List.mem_singleton.mp ha]
      exact Nat.lt_succ_self _
  · rw [List.map_append, List.map_singleton]
    refine List.nodup_append.mpr ⟨h.nazwy ramka List.mem_cons_self, List.nodup_singleton _, ?_⟩
    rintro y hy _ hx' rfl
    obtain rfl : y = x := List.mem_singleton.mp hx'
    exact hx hy

end Nowe

end Komorki

end Mimuw.Interpreter
