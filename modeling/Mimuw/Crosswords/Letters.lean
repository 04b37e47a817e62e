import Mathlib.Data.List.Basic
import Mimuw.Crosswords.Model

/-!
# The letters of the accepted words

A word is written over cells that are free, protected or hold its own letter already, so
that no letter is ever altered, and what is protected around it was free before.
-/

namespace Mimuw.Crosswords

open Mimuw.Lib

/-! ## Cells -/

private theorem mem_span {start stop x : Coordinate} :
    x ∈ span start stop ↔ start ≤ x ∧ x ≤ stop := by
  have hx := x.toNat_lt
  have hstart := start.toNat_lt
  have hstop := stop.toNat_lt
  simp only [span, List.mem_map, List.mem_range, UInt64.le_iff_toNat_le]
  constructor
  · rintro ⟨k, hk, rfl⟩
    rw [UInt64.toNat_add, UInt64.toNat_ofNat']
    omega
  · rintro ⟨hle, hle'⟩
    refine ⟨x.toNat - start.toNat, by omega, ?_⟩
    apply UInt64.toNat_inj.mp
    rw [UInt64.toNat_add, UInt64.toNat_ofNat']
    omega

private theorem pos_inj {o : Orientation} {line x y : Coordinate}
    (h : o.pos line x = o.pos line y) :
    x = y := by
  cases o with
  | H => exact congrArg Prod.fst h
  | V => exact congrArg Prod.snd h

theorem convertLetter_ne (c : CChar) : convertLetter c ≠ protectedChar := by
  unfold convertLetter protectedChar
  grind

def Word.Covers (w : Word) (p : Pos) : Prop :=
  ∃ x ∈ span w.start w.stop, w.orientation.pos w.line x = p

def Word.letter (w : Word) (x : Coordinate) : CChar := convertLetter (w.at (x - w.start))

/-! ## Writing and protecting -/

section Insert

variable {letters : Letters} {w : Word} {p : Pos}

private theorem foldl_write (l : List Coordinate) (letters : Letters) (w : Word) :
    (∀ x ∈ l, l.foldl (fun letters j => Function.update letters (w.orientation.pos w.line j)
        (some ⟨w.letter j, w.orientation⟩)) letters (w.orientation.pos w.line x) =
      some ⟨w.letter x, w.orientation⟩) ∧
    ∀ p, (∀ x ∈ l, w.orientation.pos w.line x ≠ p) →
      l.foldl (fun letters j => Function.update letters (w.orientation.pos w.line j)
        (some ⟨w.letter j, w.orientation⟩)) letters p = letters p := by
  induction l using List.reverseRecOn with
  | nil => exact ⟨nofun, fun _ _ => rfl⟩
  | append_singleton l y ih =>
      simp only [List.foldl_append, List.foldl_cons, List.foldl_nil]
      constructor
      · intro x hx
        rw [Function.update_apply]
        split
        next heq => rw [pos_inj heq]
        next hne =>
          refine ih.1 x ?_
          rcases List.mem_append.mp hx with hx | hx
          · exact hx
          · exact absurd (by rw [List.mem_singleton.mp hx]) hne
      · intro p hp
        rw [Function.update_of_ne (hp y (by simp)).symm]
        exact ih.2 p fun x hx => hp x (List.mem_append_left _ hx)

private theorem writeWord_covered {x : Coordinate} (hx : x ∈ span w.start w.stop) :
    writeWord letters w (w.orientation.pos w.line x) = some ⟨w.letter x, w.orientation⟩ :=
  (foldl_write _ letters w).1 x hx

private theorem writeWord_other (h : ¬ w.Covers p) : writeWord letters w p = letters p :=
  (foldl_write _ letters w).2 p fun x hx heq => h ⟨x, hx, heq⟩

private theorem protect_apply (o : Orientation) (letters : Letters) (q p : Pos) :
    protect o letters q p =
      if p = q ∧ letters q = none then some ⟨protectedChar, o⟩ else letters p := by
  cases hq : letters q with
  | none => simp [protect, hq, Function.update_apply]
  | some id => simp [protect, hq]

private theorem foldl_protect_some {o : Orientation} {id : LetterId} (l : List Pos)
    (h : letters p = some id) : l.foldl (protect o) letters p = some id := by
  induction l generalizing letters with
  | nil => exact h
  | cons q l ih =>
      refine ih ?_
      rw [protect_apply, if_neg, h]
      rintro ⟨rfl, hnone⟩
      exact absurd (h.symm.trans hnone) nofun

private theorem foldl_protect_none {o : Orientation} {id : LetterId} (l : List Pos)
    (h : letters p = none) (hid : l.foldl (protect o) letters p = some id) :
    id.char = protectedChar := by
  induction l generalizing letters with
  | nil => exact absurd (h.symm.trans hid) nofun
  | cons q l ih =>
      by_cases hq : p = q
      · have hprotected : protect o letters q p = some ⟨protectedChar, o⟩ := by
          rw [protect_apply, if_pos ⟨hq, hq ▸ h⟩]
        rw [List.foldl_cons, foldl_protect_some l hprotected] at hid
        cases hid
        rfl
      · refine ih ?_ hid
        rw [protect_apply, if_neg fun heq => hq heq.1, h]

private theorem insertLetters_covered {x : Coordinate} (hx : x ∈ span w.start w.stop) :
    insertLetters letters w (w.orientation.pos w.line x) = some ⟨w.letter x, w.orientation⟩ :=
  foldl_protect_some _ (writeWord_covered hx)

private theorem insertLetters_some {id : LetterId} (hp : ¬ w.Covers p) (h : letters p = some id) :
    insertLetters letters w p = some id :=
  foldl_protect_some _ ((writeWord_other hp).trans h)

private theorem insertLetters_none {id : LetterId} (hp : ¬ w.Covers p) (h : letters p = none)
    (hid : insertLetters letters w p = some id) : id.char = protectedChar :=
  foldl_protect_none _ ((writeWord_other hp).trans h) hid

/-- The cells of a word that passes the check hold its letters already, from words of the
other orientation, if they hold letters at all. -/
theorem of_checkWord (h : checkWord letters w = true) {x : Coordinate}
    (hx : x ∈ span w.start w.stop) {id : LetterId}
    (hid : letters (w.orientation.pos w.line x) = some id) (hletter : id.char ≠ protectedChar) :
    id.orientation ≠ w.orientation ∧ id.char = w.letter x := by
  have hcell := List.all_eq_true.mp h x hx
  unfold checkCell at hcell
  simp only [hid, beq_iff_eq, hletter, if_false] at hcell
  simpa [Word.letter] using hcell

end Insert

/-! ## The invariant -/

structure Inv (c : Crossword) : Prop where
  /-- The words hold their letters. -/
  holds : ∀ w ∈ c.words, ∀ x ∈ span w.start w.stop,
    ∃ tag, c.letters (w.orientation.pos w.line x) = some ⟨w.letter x, tag⟩
  /-- A letter belongs to the word that wrote it last. -/
  owner : ∀ p id, c.letters p = some id → id.char ≠ protectedChar →
    ∃ w ∈ c.words, w.Covers p ∧ w.orientation = id.orientation

theorem inv_empty : Inv .empty where
  holds := nofun
  owner := nofun

theorem insertWord_of_check {c : Crossword} {w : Word} (h : checkWord c.letters w = true) :
    (c.insertWord w).1.words = c.words ++ [w] ∧
      (c.insertWord w).1.letters = insertLetters c.letters w := by
  unfold Crossword.insertWord
  rw [if_pos h]
  exact ⟨rfl, rfl⟩

theorem insertWord_of_not {c : Crossword} {w : Word} (h : ¬ checkWord c.letters w = true) :
    c.insertWord w = (c, false) := by
  unfold Crossword.insertWord
  rw [if_neg h]

private theorem insertWord_letter {c : Crossword} (w : Word) {p : Pos} {id : LetterId}
    (hid : c.letters p = some id) (hletter : id.char ≠ protectedChar) :
    ∃ tag, (c.insertWord w).1.letters p = some ⟨id.char, tag⟩ := by
  by_cases hcheck : checkWord c.letters w = true
  · rw [(insertWord_of_check hcheck).2]
    by_cases hp : w.Covers p
    · obtain ⟨x, hx, rfl⟩ := hp
      rw [(of_checkWord hcheck hx hid hletter).2]
      exact ⟨_, insertLetters_covered hx⟩
    · exact ⟨id.orientation, insertLetters_some hp hid⟩
  · rw [insertWord_of_not hcheck]
    exact ⟨id.orientation, hid⟩

theorem inv_insertWord (c : Crossword) (w : Word) (h : Inv c) : Inv (c.insertWord w).1 := by
  by_cases hcheck : checkWord c.letters w = true
  · obtain ⟨hwords, hletters⟩ := insertWord_of_check hcheck
    constructor
    · intro u hu x hx
      rw [hwords] at hu
      rcases List.mem_append.mp hu with hu | hu
      · obtain ⟨tag, htag⟩ := h.holds u hu x hx
        exact insertWord_letter w htag (convertLetter_ne _)
      · obtain rfl := List.mem_singleton.mp hu
        rw [hletters]
        exact ⟨_, insertLetters_covered hx⟩
    · intro p id hid hletter
      rw [hletters] at hid
      rw [hwords]
      by_cases hp : w.Covers p
      · obtain ⟨x, hx, rfl⟩ := hp
        obtain rfl := Option.some.inj ((insertLetters_covered hx).symm.trans hid)
        exact ⟨w, List.mem_append_right _ (List.mem_singleton_self w), ⟨x, hx, rfl⟩, rfl⟩
      · cases hold : c.letters p with
        | none => exact absurd (insertLetters_none hp hold hid) hletter
        | some old =>
            obtain rfl := Option.some.inj ((insertLetters_some hp hold).symm.trans hid)
            obtain ⟨u, hu, hcovers⟩ := h.owner p _ hold hletter
            exact ⟨u, List.mem_append_left _ hu, hcovers⟩
  · rw [insertWord_of_not hcheck]
    exact h

private theorem insertWords_singleton (c : Crossword) (w : Word) :
    c.insertWords [w] = (c.insertWord w).1 := by
  rw [Crossword.insertWords, calls_singleton]

private theorem inv_insertWords (ws : List Word) (c : Crossword) (h : Inv c) :
    Inv (c.insertWords ws) :=
  calls_invariant inv_insertWord h ws

/-! ## Later states -/

/-- `crossword_letters.at(p).first` -/
def Crossword.letterAt (c : Crossword) (p : Pos) : Option CChar := (c.letters p).map (·.char)

structure Extends (c c' : Crossword) : Prop where
  words : c.words <+: c'.words
  letters : ∀ p char, c.letterAt p = some char → char ≠ protectedChar →
    c'.letterAt p = some char

theorem Extends.refl (c : Crossword) : Extends c c := ⟨List.prefix_rfl, fun _ _ h _ => h⟩

theorem Extends.trans {c c' c'' : Crossword} (h : Extends c c') (h' : Extends c' c'') :
    Extends c c'' where
  words := h.words.trans h'.words
  letters p char hchar hletter := h'.letters p char (h.letters p char hchar hletter) hletter

private theorem extends_insertWord (c : Crossword) (w : Word) : Extends c (c.insertWord w).1 where
  words := by
    by_cases hcheck : checkWord c.letters w = true
    · rw [(insertWord_of_check hcheck).1]
      exact List.prefix_append _ _
    · simp only [insertWord_of_not hcheck, List.prefix_rfl]
  letters p char hchar hletter := by
    simp only [Crossword.letterAt, Option.map_eq_some_iff] at hchar ⊢
    obtain ⟨id, hid, rfl⟩ := hchar
    obtain ⟨tag, htag⟩ := insertWord_letter w hid hletter
    exact ⟨_, htag, rfl⟩

theorem extends_insertWords (ws : List Word) (c : Crossword) : Extends c (c.insertWords ws) :=
  calls_invariant (fun c' w h => h.trans (extends_insertWord c' w)) (Extends.refl c) ws

def Call.words : Call → List Word
  | .construct firstWord otherWords => firstWord :: otherWords
  | .insertWord _ word => [word]
  | .add _ _ => []
  | .addAssign _ _ => []

theorem step_cases (crosswords : List Crossword) (call : Call) {c : Crossword}
    (h : c ∈ (step crosswords call).1) :
    c ∈ crosswords ∨ ∃ c₀ ws, (c₀ = .empty ∨ c₀ ∈ crosswords) ∧ c = c₀.insertWords ws ∧
      ∀ w ∈ ws, w ∈ call.words ∨ ∃ other ∈ crosswords, w ∈ other.words := by
  cases call with
  | construct firstWord otherWords =>
      rcases List.mem_append.mp h with h | h
      · exact .inl h
      · obtain rfl := List.mem_singleton.mp h
        exact .inr ⟨.empty, firstWord :: otherWords, .inl rfl, rfl, fun w hw => .inl hw⟩
  | insertWord i word =>
      simp only [step] at h
      split at h
      next c₀ hc₀ =>
        rcases List.mem_or_eq_of_mem_set h with h | rfl
        · exact .inl h
        · exact .inr ⟨c₀, [word], .inr (List.mem_of_getElem? hc₀),
            (insertWords_singleton c₀ word).symm, fun w hw => .inl hw⟩
      · exact .inl h
  | add i j =>
      simp only [step] at h
      split at h
      next c₀ other hc₀ hother =>
        rcases List.mem_append.mp h with h | h
        · exact .inl h
        · exact .inr ⟨c₀, other.words, .inr (List.mem_of_getElem? hc₀), List.mem_singleton.mp h,
            fun w hw => .inr ⟨other, List.mem_of_getElem? hother, hw⟩⟩
      · exact .inl h
  | addAssign i j =>
      simp only [step] at h
      split at h
      next c₀ other hc₀ hother =>
        rcases List.mem_or_eq_of_mem_set h with h | rfl
        · exact .inl h
        · exact .inr ⟨c₀, other.words, .inr (List.mem_of_getElem? hc₀), rfl,
            fun w hw => .inr ⟨other, List.mem_of_getElem? hother, hw⟩⟩
      · exact .inl h

theorem inv_step (crosswords : List Crossword) (call : Call) (h : ∀ c ∈ crosswords, Inv c) :
    ∀ c ∈ (step crosswords call).1, Inv c := by
  intro c hc
  rcases step_cases crosswords call hc with hc | ⟨c₀, ws, hc₀, rfl, -⟩
  · exact h c hc
  · refine inv_insertWords ws c₀ ?_
    rcases hc₀ with rfl | hc₀
    · exact inv_empty
    · exact h c₀ hc₀

private theorem inv_after (history : List Call) : ∀ c ∈ (calls step [] history).1, Inv c :=
  calls_invariant (I := fun crosswords => ∀ c ∈ crosswords, Inv c) inv_step
    (fun _ hc => absurd hc List.not_mem_nil) history

private theorem extends_set {crosswords : List Crossword} {i j : Nat} {c c₀ c₁ : Crossword}
    (hc₀ : crosswords[i]? = some c₀) (hext : Extends c₀ c₁) (hc : crosswords[j]? = some c) :
    ∃ c', (crosswords.set i c₁)[j]? = some c' ∧ Extends c c' := by
  rw [List.getElem?_set]
  split
  next heq =>
    subst heq
    obtain rfl := Option.some.inj (hc₀.symm.trans hc)
    exact ⟨c₁, if_pos (List.getElem?_eq_some_iff.mp hc₀).1, hext⟩
  · exact ⟨c, hc, .refl c⟩

private theorem extends_append {crosswords : List Crossword} {j : Nat} {c : Crossword}
    (hc : crosswords[j]? = some c) (c₁ : Crossword) :
    ∃ c', (crosswords ++ [c₁])[j]? = some c' ∧ Extends c c' := by
  refine ⟨c, ?_, .refl c⟩
  rw [List.getElem?_append_left (List.getElem?_eq_some_iff.mp hc).1, hc]

/-- Every call leaves the crosswords there were, or later states of them. -/
private theorem extends_step (crosswords : List Crossword) (call : Call) {j : Nat} {c : Crossword}
    (hc : crosswords[j]? = some c) :
    ∃ c', (step crosswords call).1[j]? = some c' ∧ Extends c c' := by
  cases call with
  | construct firstWord otherWords => exact extends_append hc _
  | insertWord i word =>
      simp only [step]
      split
      next c₀ hc₀ => exact extends_set hc₀ (extends_insertWord c₀ word) hc
      · exact ⟨c, hc, .refl c⟩
  | add i j =>
      simp only [step]
      split
      · exact extends_append hc _
      · exact ⟨c, hc, .refl c⟩
  | addAssign i j =>
      simp only [step]
      split
      next c₀ other hc₀ _ => exact extends_set hc₀ (extends_insertWords other.words c₀) hc
      · exact ⟨c, hc, .refl c⟩

private theorem extends_after (crosswords : List Crossword) (history : List Call) {j : Nat}
    {c : Crossword} (hc : crosswords[j]? = some c) :
    ∃ c', (calls step crosswords history).1[j]? = some c' ∧ Extends c c' := by
  induction history generalizing crosswords c with
  | nil => exact ⟨c, hc, .refl c⟩
  | cons call history ih =>
      obtain ⟨c', hc', hext⟩ := extends_step crosswords call hc
      obtain ⟨c'', hc'', hext'⟩ := ih (step crosswords call).1 hc'
      exact ⟨c'', hc'', hext.trans hext'⟩

/-! ## Words that fit -/

/-- Both coordinates stay below `SIZE_MAX` when the length is added. -/
def Fits (w : Word) : Prop :=
  ∃ first second o text, w = .make first second o text ∧
    first.toNat + text.length < sizeMax.toNat ∧ second.toNat + text.length < sizeMax.toNat

def Word.cell (w : Word) (k : Coordinate) : Pos := w.orientation.pos w.line (w.start + k)

theorem sizeMax_toNat : sizeMax.toNat = 18446744073709551615 := rfl

private theorem make_word {first second : Coordinate} {o : Orientation} {text : List CChar}
    (h : first.toNat + text.length < sizeMax.toNat) :
    (Word.make first second o text).word = if text.isEmpty then [63] else text := by
  have hlen : (UInt64.ofNat text.length + 1).toNat = text.length + 1 := by
    rw [UInt64.toNat_add, UInt64.toNat_ofNat', UInt64.toNat_one]
    rw [sizeMax_toNat] at h
    omega
  have hfits : ¬ sizeMax - first < UInt64.ofNat text.length + 1 := by
    rw [UInt64.lt_iff_toNat_lt, hlen, UInt64.toNat_sub_of_le, sizeMax_toNat]
    · rw [sizeMax_toNat] at h
      omega
    · rw [UInt64.le_iff_toNat_le, sizeMax_toNat]
      have := first.toNat_lt
      omega
  simp only [Word.make, hfits, and_false, if_false]

private theorem Fits.length_pos {w : Word} (h : Fits w) :
    0 < w.length.toNat ∧ w.start.toNat + w.length.toNat ≤ sizeMax.toNat := by
  obtain ⟨first, second, o, text, rfl, hfirst, hsecond⟩ := h
  have hlength : (Word.make first second o text).length.toNat =
      if text.isEmpty then 1 else text.length := by
    rw [Word.length, make_word hfirst, UInt64.toNat_ofNat']
    rw [sizeMax_toNat] at hfirst
    split
    · rfl
    · omega
  have hstart : (Word.make first second o text).start.toNat + text.length < sizeMax.toNat := by
    cases o with
    | H => exact hfirst
    | V => exact hsecond
  rw [hlength]
  split
  next hempty =>
    have hnil : text.length = 0 := by rw [List.isEmpty_iff.mp hempty, List.length_nil]
    omega
  next hempty =>
    have hpos := List.length_pos_of_ne_nil (mt List.isEmpty_iff.mpr hempty)
    omega

private theorem Fits.mem_span {w : Word} (h : Fits w) (x : Coordinate) :
    x ∈ span w.start w.stop ↔ ∃ k < w.length, x = w.start + k := by
  obtain ⟨hpos, hle⟩ := h.length_pos
  have hlength := w.length.toNat_lt
  rw [sizeMax_toNat] at hle
  have hroom : ¬ sizeMax - w.start < w.length := by
    rw [UInt64.lt_iff_toNat_lt, UInt64.toNat_sub_of_le, sizeMax_toNat]
    · omega
    · rw [UInt64.le_iff_toNat_le, sizeMax_toNat]
      omega
  have hstop : w.stop.toNat = w.start.toNat + w.length.toNat - 1 := by
    rw [Word.stop, if_neg hroom, UInt64.toNat_add, UInt64.toNat_sub_of_le, UInt64.toNat_one]
    · omega
    · rw [UInt64.le_iff_toNat_le, UInt64.toNat_one]
      omega
  rw [Crosswords.mem_span, UInt64.le_iff_toNat_le, UInt64.le_iff_toNat_le, hstop]
  constructor
  · rintro ⟨hstart, hx⟩
    refine ⟨x - w.start, ?_, ?_⟩
    · rw [UInt64.lt_iff_toNat_lt, UInt64.toNat_sub_of_le _ _ (UInt64.le_iff_toNat_le.mpr hstart)]
      omega
    · rw [UInt64.add_comm, UInt64.sub_add_cancel]
  · rintro ⟨k, hk, rfl⟩
    rw [UInt64.lt_iff_toNat_lt] at hk
    rw [UInt64.toNat_add]
    omega

private theorem letter_cell (w : Word) (k : Coordinate) :
    w.letter (w.start + k) = convertLetter (w.at k) := by
  rw [Word.letter, UInt64.add_comm, UInt64.add_sub_cancel]

private theorem insertWords_concat (c : Crossword) (ws : List Word) (u : Word) :
    c.insertWords (ws ++ [u]) = ((c.insertWords ws).insertWord u).1 := calls_concat c ws u

private theorem mem_insertWords (ws : List Word) (c : Crossword) {w : Word}
    (hw : w ∈ (c.insertWords ws).words) : w ∈ c.words ∨ w ∈ ws := by
  induction ws using List.reverseRecOn with
  | nil => exact .inl hw
  | append_singleton ws u ih =>
      rw [insertWords_concat] at hw
      by_cases hcheck : checkWord (c.insertWords ws).letters u = true
      · rw [(insertWord_of_check hcheck).1] at hw
        rcases List.mem_append.mp hw with hw | hw
        · exact (ih hw).imp_right (List.mem_append_left _)
        · exact .inr (List.mem_append_right _ hw)
      · rw [insertWord_of_not hcheck] at hw
        exact (ih hw).imp_right (List.mem_append_left _)

private theorem words_after {P : Word → Prop} (history : List Call)
    (h : ∀ call ∈ history, ∀ w ∈ call.words, P w) :
    ∀ c ∈ (calls step [] history).1, ∀ w ∈ c.words, P w := by
  induction history using List.reverseRecOn with
  | nil => exact fun _ hc => absurd hc List.not_mem_nil
  | append_singleton history call ih =>
      have ih := ih fun other hother => h other (List.mem_append_left _ hother)
      rw [calls_concat]
      intro c hc w hw
      rcases step_cases _ call hc with hc | ⟨c₀, ws, hc₀, rfl, hws⟩
      · exact ih c hc w hw
      · rcases mem_insertWords ws c₀ hw with hw | hw
        · rcases hc₀ with rfl | hc₀
          · exact absurd hw List.not_mem_nil
          · exact ih c₀ hc₀ w hw
        · rcases hws w hw with hw | ⟨other, hother, hw⟩
          · exact h call (by simp) w hw
          · exact ih other hother w hw

/-- In every state the accepted words hold their letters and nothing else is a letter, what
is accepted stays, and a rejected word changes nothing. -/
theorem letters_preserved (history : List Call)
    (hfits : ∀ call ∈ history, ∀ w ∈ call.words, Fits w) :
    (∀ c ∈ (calls step [] history).1,
      (∀ w ∈ c.words, ∀ k < w.length, c.letterAt (w.cell k) = some (convertLetter (w.at k))) ∧
      ∀ p char, c.letterAt p = some char → char ≠ protectedChar →
        ∃ w ∈ c.words, ∃ k < w.length, w.cell k = p) ∧
    (∀ before, before <+: history → ∀ (i : Nat) (c : Crossword),
      (calls step [] before).1[i]? = some c →
        ∃ c', (calls step [] history).1[i]? = some c' ∧ c.words <+: c'.words ∧
        ∀ p char, c.letterAt p = some char → char ≠ protectedChar → c'.letterAt p = some char) ∧
    ∀ (c : Crossword) (w : Word), (c.insertWord w).2 = false → (c.insertWord w).1 = c := by
  refine ⟨fun c hc => ⟨fun w hw k hk => ?_, fun p char hchar hletter => ?_⟩, ?_, ?_⟩
  · have hfit := words_after history hfits c hc w hw
    obtain ⟨tag, htag⟩ := (inv_after history c hc).holds w hw (w.start + k)
      ((hfit.mem_span _).mpr ⟨k, hk, rfl⟩)
    rw [Crossword.letterAt, Word.cell, htag, Option.map_some, letter_cell]
  · simp only [Crossword.letterAt, Option.map_eq_some_iff] at hchar
    obtain ⟨id, hid, rfl⟩ := hchar
    obtain ⟨w, hw, ⟨x, hx, hp⟩, -⟩ := (inv_after history c hc).owner p id hid hletter
    have hfit := words_after history hfits c hc w hw
    obtain ⟨k, hk, rfl⟩ := (hfit.mem_span x).mp hx
    exact ⟨w, hw, k, hk, hp⟩
  · rintro before ⟨rest, rfl⟩ i c hc
    rw [calls_append]
    obtain ⟨c', hc', hext⟩ := extends_after _ rest hc
    exact ⟨c', hc', hext.words, hext.letters⟩
  · intro c w hfalse
    by_cases hcheck : checkWord c.letters w = true
    · rw [Crossword.insertWord, if_pos hcheck] at hfalse
      cases hfalse
    · rw [insertWord_of_not hcheck]

def crossing : List Call :=
  [.construct (.make 5 5 .V [65, 66]) [.make 4 5 .H [88, 65], .make 4 6 .H [88, 65]]]

/-- The third word is rejected. -/
theorem letters_preserved_crossing :
    (calls step [] crossing).1.map (·.words) =
      [[.make 5 5 .V [65, 66], .make 4 5 .H [88, 65]]] ∧
    ∀ c ∈ (calls step [] crossing).1, ∀ w ∈ c.words, ∀ k < w.length,
      c.letterAt (w.cell k) = some (convertLetter (w.at k)) := by
  refine ⟨by decide +kernel, fun c hc => ((letters_preserved crossing ?_).1 c hc).1⟩
  intro call hcall w hw
  obtain rfl := List.mem_singleton.mp hcall
  simp only [Call.words, List.mem_cons, List.not_mem_nil, or_false] at hw
  rcases hw with rfl | rfl | rfl
  · exact ⟨5, 5, .V, [65, 66], rfl, by decide, by decide⟩
  · exact ⟨4, 5, .H, [88, 65], rfl, by decide, by decide⟩
  · exact ⟨4, 6, .H, [88, 65], rfl, by decide, by decide⟩

end Mimuw.Crosswords
