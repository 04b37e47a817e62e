import Mathlib
import Mimuw.Lib.Descriptors

/-!
# Starting the processes

`mimpirun` opens a channel for every ordered pair of ranks, moves their ends to descriptors
from 20 on, and gives each process it starts the ends of its rank, with their descriptors
in the environment.  The limit on the number of open descriptors is left out.
-/

namespace Mimuw.Mimpi

open Mimuw.Lib Mimuw.Lib.Descriptors

/-- `pipe_fds[i][j][e]`: the read end is `e = 0` -/
structure End where
  i : Nat
  j : Nat
  e : Nat
  deriving DecidableEq, Repr

inductive File (F : Type*) where
  | inherited (f : F)
  | channelEnd (x : End)
  deriving DecidableEq, Repr

abbrev Text := List Char

abbrev Environment := List (Text × Text)

def setenv (environment : Environment) (name value : Text) : Environment :=
  (name, value) :: environment.filter fun p => p.1 ≠ name

def getenv (environment : Environment) (name : Text) : Option Text :=
  (environment.find? fun p => p.1 = name).map Prod.snd

/-- `sprintf("%d")` of a number that is not negative -/
def decimal (n : Nat) : Text := Nat.toDigits 10 n

/-- `atoi` of a text without a sign -/
def atoi (text : Text) : Nat := Nat.ofDigitChars 10 (text.takeWhile Char.isDigit) 0

def sizeName : Text := "MIMPI_SIZE".toList

def rankName : Text := "MIMPI_RANK".toList

def readName (j : Nat) : Text := "MIMPI_PIPE_READ_".toList ++ decimal j

def writeName (j : Nat) : Text := "MIMPI_PIPE_WRITE_".toList ++ decimal j

section Model

variable {F : Type*}

/-- A process with its descriptors, its environment and its array `pipe_fds`. -/
structure Launcher (F : Type*) where
  files : Descriptors (File F)
  environment : Environment
  pipeFds : End → Nat

/-- The opening call: the descriptors after it, and those of the read and of the write end. -/
abbrev Channel (F : Type*) := Descriptors (File F) → File F → File F →
  Option (Descriptors (File F) × Nat × Nat)

/-- The order of the loops over `i` and `j` -/
def pairs (n : Nat) : List (Nat × Nat) :=
  (List.range n).flatMap fun i => (List.range n).map fun j => (i, j)

/-- The order of the loops over `i` and `j` that use both ends -/
def ends (n : Nat) : List End := (pairs n).flatMap fun p => [⟨p.1, p.2, 0⟩, ⟨p.1, p.2, 1⟩]

def openChannels (channel : Channel F) (s : Launcher F) : List (Nat × Nat) → Option (Launcher F)
  | [] => some s
  | (i, j) :: rest => do
      let (files, r, w) ← channel s.files (.channelEnd ⟨i, j, 0⟩) (.channelEnd ⟨i, j, 1⟩)
      let pipeFds := Function.update (Function.update s.pipeFds ⟨i, j, 0⟩ r) ⟨i, j, 1⟩ w
      openChannels channel { s with files, pipeFds } rest

def moveEnd (s : Launcher F) (x : End) (freeDsc : Nat) : Option (Launcher F) := do
  let files ← s.files.dup2 (s.pipeFds x) freeDsc
  let files ← files.close (s.pipeFds x)
  return { s with files, pipeFds := Function.update s.pipeFds x freeDsc }

/-- The loops that move the ends; they stop when `count` is at the bound, if there is one. -/
def moveEnds (bound : Option Nat) : Nat → Nat → Launcher F → List End → Option (Launcher F)
  | _, _, s, [] => some s
  | count, freeDsc, s, x :: rest =>
      if bound = some count then some s
      else do
        let s ← moveEnd s x freeDsc
        moveEnds bound (count + 1) (freeDsc + 1) s rest

def moveAway (n : Nat) (s : Launcher F) : Option (Launcher F) :=
  let maxDscNumber := if n = 0 then 0 else s.pipeFds ⟨n - 1, n - 1, 1⟩
  let howManyDsc := 2 * (n * n)
  if maxDscNumber < 20 then moveEnds none 0 20 s (ends n)
  else
    let howManyHigherThanNineteen := maxDscNumber - 20 + 1
    let howManyLowerThanTwenty := howManyDsc - howManyHigherThanNineteen
    moveEnds (some (howManyLowerThanTwenty + 1)) 0 (maxDscNumber + 1) s (ends n)

def closeEnds (s : Launcher F) : List End → Option (Launcher F)
  | [] => some s
  | x :: rest => do
      let files ← s.files.close (s.pipeFds x)
      closeEnds { s with files } rest

/-- What the child closes -/
def others (n i : Nat) : List End :=
  ((List.range n).filter (· ≠ i)).flatMap fun k =>
    (List.range n).flatMap fun j => [⟨j, k, 0⟩, ⟨k, j, 1⟩]

def nameEnds (s : Launcher F) (i : Nat) : List Nat → Environment → Environment
  | [], environment => environment
  | j :: rest, environment =>
      let environment := setenv environment (readName j) (decimal (s.pipeFds ⟨j, i, 0⟩))
      let environment := setenv environment (writeName j) (decimal (s.pipeFds ⟨i, j, 1⟩))
      nameEnds s i rest environment

/-- The process with rank `i`, up to its `execvp`. -/
def child (n : Nat) (s : Launcher F) (i : Nat) : Option (Launcher F) :=
  let environment := setenv s.environment rankName (decimal i)
  closeEnds { s with environment := nameEnds s i (List.range n) environment } (others n i)

/-- The parent at its first `wait`, and the processes it has started. -/
def mimpirun (channel : Channel F) (n : Nat) (s : Launcher F) :
    Option (Launcher F × List (Launcher F)) := do
  let s ← openChannels channel s (pairs n)
  let s ← moveAway n s
  let s := { s with environment := setenv s.environment sizeName (decimal n) }
  let children ← (List.range n).mapM (child n s)
  let parent ← closeEnds s (ends n)
  return (parent, children)

/-- What `MIMPI_Init` and the common functions read from the environment: the rank, the size
and the descriptors of the read end and of the write end for a rank. -/
def getMyRank (environment : Environment) : Option Nat := (getenv environment rankName).map atoi

def getWorldSize (environment : Environment) : Option Nat :=
  (getenv environment sizeName).map atoi

def readFd (environment : Environment) (j : Nat) : Option Nat :=
  (getenv environment (readName j)).map atoi

def writeFd (environment : Environment) (j : Nat) : Option Nat :=
  (getenv environment (writeName j)).map atoi

end Model

/-! ## Where the ends are -/

section Placement

variable {F : Type*} {start : Descriptors F} {S : Set End} {s : Launcher F} {x : End} {d : Nat}

/-- The ends in `S` are open at their places in `pipe_fds`, and all else is as at the start. -/
structure Placed (start : Descriptors F) (S : Set End) (s : Launcher F) : Prop where
  file : ∀ x ∈ S, s.files.file (s.pipeFds x) = some (.channelEnd x)
  rest : ∀ d, (∀ x ∈ S, s.pipeFds x ≠ d) → s.files.file d = (start.file d).map File.inherited
  apart : ∀ x ∈ S, start.file (s.pipeFds x) = none

private theorem Placed.injective (h : Placed start S s) {y : End} (hx : x ∈ S) (hy : y ∈ S)
    (heq : s.pipeFds x = s.pipeFds y) : x = y := by
  have hfile := h.file x hx
  rw [heq, h.file y hy] at hfile
  simpa using hfile.symm

theorem Placed.free (h : Placed start S s) (hd : s.files.file d = none) :
    (∀ x ∈ S, s.pipeFds x ≠ d) ∧ start.file d = none := by
  have hother : ∀ x ∈ S, s.pipeFds x ≠ d := by
    rintro x hx rfl
    rw [h.file x hx] at hd
    cases hd
  refine ⟨hother, ?_⟩
  rw [h.rest d hother] at hd
  simpa using hd

theorem Placed.add (h : Placed start S s) (hx : x ∉ S) (hd : s.files.file d = none)
    {t : Descriptors (File F)}
    (hfiles : ∀ e, t.file e = if e = d then some (.channelEnd x) else s.files.file e) :
    Placed start (insert x S)
      { s with files := t, pipeFds := Function.update s.pipeFds x d } := by
  obtain ⟨hother, hstart⟩ := h.free hd
  have hold {y : End} (hy : y ∈ S) : Function.update s.pipeFds x d y = s.pipeFds y :=
    Function.update_of_ne (by rintro rfl; exact hx hy) _ _
  refine ⟨fun y hy => ?_, fun e he => ?_, fun y hy => ?_⟩
  · rcases hy with rfl | hy
    · simp only [Function.update_self, hfiles, if_true]
    · simp only [hold hy, hfiles, hother y hy, if_false]
      exact h.file y hy
  · have hed : e ≠ d := by
      have := he x (Set.mem_insert x S)
      simp only [Function.update_self] at this
      exact this.symm
    simp only [hfiles, hed, if_false]
    refine h.rest e fun y hy => ?_
    have hye := he y (Set.mem_insert_of_mem x hy)
    simpa only [hold hy] using hye
  · rcases hy with rfl | hy
    · simpa only [Function.update_self] using hstart
    · simpa only [hold hy] using h.apart y hy

theorem Placed.remove (h : Placed start S s) (hx : x ∈ S) :
    ∃ files, s.files.close (s.pipeFds x) = some files ∧
      Placed start (S \ {x}) { s with files := files } := by
  refine ⟨_, close_eq (h.file x hx), fun y hy => ?_, fun e he => ?_, fun y hy => h.apart y hy.1⟩
  · have hne : s.pipeFds y ≠ s.pipeFds x := fun heq => hy.2 (h.injective hy.1 hx heq)
    simp only [file_assign, hne, if_false]
    exact h.file y hy.1
  · simp only [file_assign]
    split_ifs with hex
    · rw [hex, h.apart x hx]
      rfl
    · refine h.rest e fun y hy => ?_
      by_cases hyx : y = x
      · rw [hyx]
        exact Ne.symm hex
      · exact he y ⟨hy, hyx⟩

theorem Placed.move (h : Placed start S s) (hx : x ∈ S) (hd : s.files.file d = none) :
    ∃ files, moveEnd s x d = some { s with
      files := files, pipeFds := Function.update s.pipeFds x d } ∧
    Placed start S { s with files := files, pipeFds := Function.update s.pipeFds x d } ∧
    ∀ e, e ≠ d → s.files.file e = none → files.file e = none := by
  have hne : s.pipeFds x ≠ d := (h.free hd).1 x hx
  have hdup := dup2_eq (e := d) (h.file x hx)
  have hopen : (s.files.assign d (some (.channelEnd x))).file (s.pipeFds x) =
      some (.channelEnd x) := by
    rw [file_assign, if_neg hne]
    exact h.file x hx
  have hremoved := h.remove hx
  obtain ⟨closed, hclosed, hplaced⟩ := hremoved
  rw [close_eq (h.file x hx)] at hclosed
  obtain rfl := Option.some_inj.mp hclosed
  have hfiles (e : Nat) : ((s.files.assign d (some (.channelEnd x))).assign (s.pipeFds x)
      none).file e = if e = d then some (.channelEnd x) else
        (s.files.assign (s.pipeFds x) none).file e := by
    simp only [file_assign]
    split_ifs with h1 h2
    · exact absurd (h1.symm.trans h2) hne
    · rfl
    · rfl
    · rfl
  have hfree : (s.files.assign (s.pipeFds x) none).file d = none := by
    rw [file_assign, if_neg (Ne.symm hne), hd]
  have hadded := hplaced.add (x := x) (fun hmem => hmem.2 rfl) hfree hfiles
  rw [Set.insert_sdiff_singleton, Set.insert_eq_of_mem hx] at hadded
  refine ⟨_, ?_, hadded, fun e he hnone => ?_⟩
  · rw [moveEnd, hdup]
    simp only [Option.bind_eq_bind, Option.bind_some]
    rw [close_eq hopen]
    rfl
  · rw [hfiles, if_neg he, file_assign]
    split_ifs
    · rfl
    · exact hnone

private theorem closeEnds_spec (xs : List End) (h : Placed start S s) (hxs : xs.Nodup)
    (hsub : ∀ x ∈ xs, x ∈ S) : ∃ files, closeEnds s xs = some { s with files := files } ∧
      Placed start {x ∈ S | x ∉ xs} { s with files := files } := by
  induction xs generalizing S s with
  | nil => exact ⟨s.files, rfl, by simpa using h⟩
  | cons x xs ih =>
      obtain ⟨files, hclose, hplaced⟩ := h.remove (hsub x List.mem_cons_self)
      rw [List.nodup_cons] at hxs
      obtain ⟨files', hrest, hplaced'⟩ := ih hplaced hxs.2 fun y hy =>
        ⟨hsub y (List.mem_cons_of_mem x hy), fun heq => hxs.1 (heq ▸ hy)⟩
      refine ⟨files', ?_, ?_⟩
      · rw [closeEnds, hclose]
        exact hrest
      · convert hplaced' using 1
        ext y
        simp only [List.mem_cons, not_or, Set.mem_sdiff, Set.mem_singleton_iff, Set.mem_ofPred_eq]
        tauto

/-- The loops that move ends, from a descriptor on where all are free. -/
private theorem moveEnds_spec (bound : Option Nat) (xs : List End) (count : Nat)
    (h : Placed start S s) (hxs : xs.Nodup) (hsub : ∀ x ∈ xs, x ∈ S)
    (hfree : ∀ e, d ≤ e → s.files.file e = none) :
    ∃ files pipeFds, moveEnds bound count d s xs = some { s with files, pipeFds } ∧
      Placed start S { s with files, pipeFds } ∧
      (∀ x, x ∉ xs → pipeFds x = s.pipeFds x) ∧
      ∀ k x, xs[k]? = some x → d ≤ pipeFds x ∨
        (∃ b, bound = some b ∧ b ≤ count + k) ∧ pipeFds x = s.pipeFds x := by
  induction xs generalizing count d s with
  | nil => exact ⟨s.files, s.pipeFds, rfl, h, fun _ _ => rfl, fun k x hk => by cases hk⟩
  | cons x xs ih =>
      rw [moveEnds]
      split_ifs with hbound
      · refine ⟨s.files, s.pipeFds, rfl, h, fun _ _ => rfl, fun k y _ => .inr ⟨⟨count, hbound, ?_⟩,
          rfl⟩⟩
        omega
      · obtain ⟨files, hmove, hplaced, hnone⟩ := h.move (hsub x List.mem_cons_self)
          (hfree d le_rfl)
        rw [List.nodup_cons] at hxs
        obtain ⟨files', pipeFds, hrest, hplaced', hkept, hmoved⟩ := ih (d := d + 1) (count + 1)
          hplaced hxs.2 (fun y hy => hsub y (List.mem_cons_of_mem x hy))
          fun e he => hnone e (by omega) (hfree e (by omega))
        have hnew (y : End) (hy : y ≠ x) : Function.update s.pipeFds x d y = s.pipeFds y :=
          Function.update_of_ne hy _ _
        refine ⟨files', pipeFds, ?_, hplaced', fun y hy => ?_, fun k y hk => ?_⟩
        · rw [hmove]
          exact hrest
        · rw [List.mem_cons, not_or] at hy
          exact (hkept y hy.2).trans (hnew y hy.1)
        · cases k with
          | zero =>
              obtain rfl : x = y := Option.some_inj.mp hk
              left
              rw [hkept x hxs.1]
              exact (Function.update_self x d s.pipeFds).ge
          | succ k =>
              rw [List.getElem?_cons_succ] at hk
              rcases hmoved k y hk with hle | ⟨⟨b, hb, hle⟩, heq⟩
              · exact .inl (by omega)
              · refine .inr ⟨⟨b, hb, by omega⟩, heq.trans (hnew y ?_)⟩
                rintro rfl
                exact hxs.1 (List.mem_of_getElem? hk)

end Placement

/-! ## Opening the channels -/

section Opening

variable {F : Type*} {start : Descriptors F} {s : Launcher F} {channel : Channel F}

def endsOf (ps : List (Nat × Nat)) : List End := ps.flatMap fun p => [⟨p.1, p.2, 0⟩, ⟨p.1, p.2, 1⟩]

private theorem endsOf_append (ps qs : List (Nat × Nat)) :
    endsOf (ps ++ qs) = endsOf ps ++ endsOf qs :=
  List.flatMap_append

/-- The ends have been opened in order, and all descriptors up to the last of them are open. -/
structure Opened (start : Descriptors F) (xs : List End) (s : Launcher F) : Prop where
  placed : Placed start {x | x ∈ xs} s
  sorted : (xs.map s.pipeFds).Pairwise (· < ·)
  full : ∀ x ∈ xs, ∀ d < s.pipeFds x, s.files.file d ≠ none

theorem Opened.open (hchannel : ∀ t a b, ∃ t' r w, channel t a b = some (t', r, w) ∧
      OpensPipe t a b t' r w) {xs : List End} (h : Opened start xs s) {i j : Nat}
    (hread : (⟨i, j, 0⟩ : End) ∉ xs) (hwrite : (⟨i, j, 1⟩ : End) ∉ xs) :
    ∃ files pipeFds, (∀ rest, openChannels channel s ((i, j) :: rest) =
        openChannels channel { s with files, pipeFds } rest) ∧
      Opened start (xs ++ [⟨i, j, 0⟩, ⟨i, j, 1⟩]) { s with files, pipeFds } := by
  obtain ⟨files, r, w, hopen, ⟨hr, hrfull⟩, ⟨hrw, hw, hwfull⟩, hfiles⟩ :=
    hchannel s.files (.channelEnd ⟨i, j, 0⟩) (.channelEnd ⟨i, j, 1⟩)
  -- the read end and the write end, one after the other
  have hfirst := h.placed.add (x := ⟨i, j, 0⟩) hread hr (t := s.files.assign r
    (some (.channelEnd ⟨i, j, 0⟩))) (file_assign s.files r _)
  have hw' : (s.files.assign r (some (.channelEnd ⟨i, j, 0⟩))).file w = none := by
    rw [file_assign, if_neg (Nat.ne_of_gt hrw), hw]
  have hnew : (⟨i, j, 1⟩ : End) ∉ insert (⟨i, j, 0⟩ : End) {x | x ∈ xs} := by
    rintro (heq | hmem)
    · simp at heq
    · exact hwrite hmem
  have hsecond := hfirst.add hnew hw' (t := files) fun e => by
    rw [hfiles, file_assign]
    split_ifs with h1 h2
    · exact absurd (h1.symm.trans h2) (Nat.ne_of_lt hrw)
    · rfl
    · rfl
    · rfl
  have hother {x : End} (hx : x ∈ xs) : Function.update (Function.update s.pipeFds ⟨i, j, 0⟩ r)
      ⟨i, j, 1⟩ w x = s.pipeFds x := by
    rw [Function.update_of_ne, Function.update_of_ne]
    · rintro rfl
      exact hread hx
    · rintro rfl
      exact hwrite hx
  have hplaceR : Function.update (Function.update s.pipeFds ⟨i, j, 0⟩ r) ⟨i, j, 1⟩ w ⟨i, j, 0⟩ =
      r := by
    rw [Function.update_of_ne (by simp), Function.update_self]
  have hplaceW : Function.update (Function.update s.pipeFds ⟨i, j, 0⟩ r) ⟨i, j, 1⟩ w ⟨i, j, 1⟩ =
      w := Function.update_self _ _ _
  have hbelow {x : End} (hx : x ∈ xs) : s.pipeFds x < r := by
    by_contra hle
    have hne : s.pipeFds x ≠ r := (h.placed.free hr).1 x hx
    exact h.full x hx r (by omega) hr
  refine ⟨files, Function.update (Function.update s.pipeFds ⟨i, j, 0⟩ r) ⟨i, j, 1⟩ w,
    fun rest => ?_, ?_, ?_, ?_⟩
  · rw [openChannels, hopen]
    rfl
  · convert hsecond using 1
    ext x
    simp only [List.mem_append, List.mem_cons, List.not_mem_nil, or_false, Set.mem_insert_iff,
      Set.mem_ofPred_eq]
    tauto
  · rw [List.map_append, List.pairwise_append]
    refine ⟨?_, ?_, ?_⟩
    · rw [List.map_congr_left fun x hx => hother hx]
      exact h.sorted
    · simp only [List.map_cons, List.map_nil, hplaceR, hplaceW]
      simpa using hrw
    · intro d hd e he
      obtain ⟨x, hx, rfl⟩ := List.mem_map.mp hd
      have hxr := hbelow hx
      simp only [List.map_cons, List.map_nil, hplaceR, hplaceW, List.mem_cons, List.not_mem_nil,
        or_false] at he
      simp only [hother hx]
      omega
  · intro x hx d hd
    change files.file d ≠ none
    rw [hfiles]
    split_ifs with h1 h2
    · simp
    · simp
    · rcases List.mem_append.mp hx with hx | hx
      · exact h.full x hx d (hother hx ▸ hd)
      · have hdw : d < w := by
          simp only [List.mem_cons, List.not_mem_nil, or_false] at hx
          rcases hx with rfl | rfl
          · exact (lt_of_lt_of_eq hd hplaceR).trans hrw
          · exact lt_of_lt_of_eq hd hplaceW
        exact hwfull d hdw h1

private theorem openChannels_spec (hchannel : ∀ t a b, ∃ t' r w, channel t a b = some (t', r, w) ∧
      OpensPipe t a b t' r w) (ps qs : List (Nat × Nat)) (h : Opened start (endsOf ps) s)
    (hnodup : (endsOf (ps ++ qs)).Nodup) : ∃ files pipeFds,
      openChannels channel s qs = some { s with files, pipeFds } ∧
      Opened start (endsOf (ps ++ qs)) { s with files, pipeFds } := by
  induction qs generalizing ps s with
  | nil => exact ⟨s.files, s.pipeFds, rfl, by simpa using h⟩
  | cons p qs ih =>
      obtain ⟨i, j⟩ := p
      have hcons : endsOf ((i, j) :: qs) = ⟨i, j, 0⟩ :: ⟨i, j, 1⟩ :: endsOf qs := rfl
      have hsplit := hnodup
      rw [endsOf_append, hcons, List.nodup_append] at hsplit
      obtain ⟨files, pipeFds, hopen, hopened⟩ := h.open hchannel (i := i) (j := j)
        (fun hmem => hsplit.2.2 _ hmem _ List.mem_cons_self rfl)
        (fun hmem => hsplit.2.2 _ hmem _ (List.mem_cons_of_mem _ List.mem_cons_self) rfl)
      have happend : ps ++ (i, j) :: qs = (ps ++ [(i, j)]) ++ qs := by simp
      have hdone : endsOf ps ++ [⟨i, j, 0⟩, ⟨i, j, 1⟩] = endsOf (ps ++ [(i, j)]) := by
        rw [endsOf_append]
        rfl
      rw [hdone] at hopened
      rw [happend] at hnodup ⊢
      obtain ⟨files', pipeFds', hrest, hopened'⟩ := ih (ps ++ [(i, j)]) hopened hnodup
      exact ⟨files', pipeFds', (hopen qs).trans hrest, hopened'⟩

private theorem mem_ends {n : Nat} {x : End} : x ∈ ends n ↔ x.i < n ∧ x.j < n ∧ x.e < 2 := by
  obtain ⟨i, j, e⟩ := x
  simp only [ends, pairs, List.mem_flatMap, List.mem_map, List.mem_range, List.mem_cons,
    List.not_mem_nil, or_false, End.mk.injEq, Prod.exists, Prod.mk.injEq]
  constructor
  · rintro ⟨a, b, ⟨a', ha, b', hb, rfl, rfl⟩, ⟨rfl, rfl, rfl⟩ | ⟨rfl, rfl, rfl⟩⟩
    · exact ⟨ha, hb, by omega⟩
    · exact ⟨ha, hb, by omega⟩
  · rintro ⟨hi, hj, he⟩
    refine ⟨i, j, ⟨i, hi, j, hj, rfl, rfl⟩, ?_⟩
    interval_cases e <;> simp

private theorem nodup_ends (n : Nat) : (ends n).Nodup := by
  rw [ends, List.nodup_flatMap]
  refine ⟨fun p _ => by simp, ?_⟩
  have hpairs : (pairs n).Nodup := by
    rw [pairs, List.nodup_flatMap]
    refine ⟨fun i _ => (List.nodup_range).map fun j j' h => (Prod.mk.inj h).2, ?_⟩
    refine (List.nodup_range).imp_of_mem fun {i i'} _ _ hne => ?_
    simp only [Function.onFun, List.disjoint_left, List.mem_map]
    rintro p ⟨j, -, rfl⟩ ⟨j', -, heq⟩
    exact hne (Prod.mk.inj heq).1.symm
  refine hpairs.imp_of_mem fun {p q} _ _ hne => ?_
  simp only [Function.onFun, List.disjoint_left, List.mem_cons, List.not_mem_nil, or_false]
  rintro x (rfl | rfl) (h | h) <;>
    exact hne (Prod.ext (congrArg End.i h) (congrArg End.j h))

private theorem Opened.le_last {xs : List End} (h : Opened start xs s) {x y : End} (hx : x ∈ xs)
    (hy : xs.getLast? = some y) : s.pipeFds x ≤ s.pipeFds y := by
  obtain ⟨ys, rfl⟩ := List.getLast?_eq_some_iff.mp hy
  have hsorted := h.sorted
  rw [List.map_append, List.pairwise_append] at hsorted
  rcases List.mem_append.mp hx with hx | hx
  · exact (hsorted.2.2 _ (List.mem_map_of_mem hx) _ (by simp)).le
  · rw [List.mem_singleton.mp hx]

/-- As all descriptors from 20 up to the last one belong to ends, the count of the low ones is
right: what comes after them in the order is not below 20. -/
private theorem Opened.low_first {xs : List End} (h : Opened start xs s)
    (hstart : ∀ d, 20 ≤ d → start.file d = none) {y : End} (hy : xs.getLast? = some y)
    (hhigh : 20 ≤ s.pipeFds y) {k : Nat} {x : End} (hk : xs[k]? = some x)
    (hlow : xs.length - (s.pipeFds y - 20 + 1) ≤ k) : 20 ≤ s.pipeFds x := by
  by_contra hx
  obtain ⟨hlt, hget⟩ := List.getElem?_eq_some_iff.mp hk
  have hsubset : Finset.Icc 20 (s.pipeFds y) ⊆ ((xs.drop (k + 1)).map s.pipeFds).toFinset := by
    intro d hd
    obtain ⟨hd20, hdy⟩ := Finset.mem_Icc.mp hd
    have hymem : y ∈ xs := List.mem_of_getLast? hy
    obtain ⟨z, hz, rfl⟩ : ∃ z ∈ xs, s.pipeFds z = d := by
      by_contra hnone
      have hother : ∀ z ∈ {x | x ∈ xs}, s.pipeFds z ≠ d := fun z hz heq => hnone ⟨z, hz, heq⟩
      have hfile := h.placed.rest d hother
      rw [hstart d hd20] at hfile
      rcases Nat.lt_or_eq_of_le hdy with hlt | rfl
      · exact h.full y hymem d hlt hfile
      · exact hnone ⟨y, hymem, rfl⟩
    rw [List.mem_toFinset]
    refine List.mem_map_of_mem ?_
    -- before the place `k` the descriptors are lower still
    rw [← List.take_append_drop (k + 1) xs] at hz
    refine (List.mem_append.mp hz).resolve_left fun hbefore => ?_
    obtain ⟨p, hp⟩ := List.mem_iff_getElem?.mp hbefore
    rw [List.getElem?_take] at hp
    split_ifs at hp with hpk
    obtain ⟨hplt, hpget⟩ := List.getElem?_eq_some_iff.mp hp
    have hle : s.pipeFds z ≤ s.pipeFds x := by
      rcases Nat.lt_or_eq_of_le (Nat.lt_succ_iff.mp hpk) with hlt' | rfl
      · have hpair := List.pairwise_iff_getElem.mp h.sorted p k (by simpa using hplt)
          (by simpa using hlt) hlt'
        simp only [List.getElem_map, hpget, hget] at hpair
        exact hpair.le
      · rw [← hpget, ← hget]
    omega
  have hcard := Finset.card_le_card hsubset
  have hlength := (List.toFinset_card_le ((xs.drop (k + 1)).map s.pipeFds))
  rw [Nat.card_Icc] at hcard
  rw [List.length_map, List.length_drop] at hlength
  omega

private theorem length_ends (n : Nat) : (ends n).length = 2 * (n * n) := by
  simp [ends, pairs, List.length_flatMap]
  ring

private theorem getLast_ends {n : Nat} (hn : n ≠ 0) :
    (ends n).getLast? = some ⟨n - 1, n - 1, 1⟩ := by
  obtain ⟨n, rfl⟩ := Nat.exists_eq_succ_of_ne_zero hn
  rw [ends, pairs, List.range_succ, List.flatMap_append, List.flatMap_singleton,
    List.map_append, List.map_singleton, ← List.append_assoc, List.flatMap_append,
    List.flatMap_singleton]
  simp

private theorem moveAway_spec {n : Nat} (h : Opened start (ends n) s)
    (hstart : ∀ d, 20 ≤ d → start.file d = none) : ∃ files pipeFds,
      moveAway n s = some { s with files, pipeFds } ∧
      Placed start {x | x ∈ ends n} { s with files, pipeFds } ∧
      ∀ x ∈ ends n, 20 ≤ pipeFds x := by
  by_cases hn : n = 0
  · subst hn
    exact ⟨s.files, s.pipeFds, rfl, h.placed, fun x hx => absurd (mem_ends.mp hx).1 (by omega)⟩
  have hlast := getLast_ends hn
  have hmoves (bound : Option Nat) {d : Nat} (hd : 20 ≤ d)
      (hmax : s.pipeFds ⟨n - 1, n - 1, 1⟩ < d) :
      ∃ files pipeFds, moveEnds bound 0 d s (ends n) = some { s with files, pipeFds } ∧
        Placed start {x | x ∈ ends n} { s with files, pipeFds } ∧
        (∀ x, x ∉ ends n → pipeFds x = s.pipeFds x) ∧
        ∀ k x, (ends n)[k]? = some x → d ≤ pipeFds x ∨
          (∃ b, bound = some b ∧ b ≤ 0 + k) ∧ pipeFds x = s.pipeFds x := by
    refine moveEnds_spec (d := d) bound (ends n) 0 h.placed (nodup_ends n) (fun _ => id)
      fun e he => ?_
    rw [h.placed.rest e fun x hx heq => ?_, hstart e (by omega)]
    · rfl
    · have hle := h.le_last hx hlast
      omega
  unfold moveAway
  simp only [hn, if_false]
  split_ifs with hmax
  · obtain ⟨files, pipeFds, hmove, hplaced, -, hhigh⟩ := hmoves none le_rfl hmax
    refine ⟨files, pipeFds, hmove, hplaced, fun x hx => ?_⟩
    obtain ⟨k, hk⟩ := List.mem_iff_getElem?.mp hx
    rcases hhigh k x hk with hle | ⟨⟨b, hb, -⟩, -⟩
    · exact hle
    · cases hb
  · obtain ⟨files, pipeFds, hmove, hplaced, -, hhigh⟩ := hmoves
      (some (2 * (n * n) - (s.pipeFds ⟨n - 1, n - 1, 1⟩ - 20 + 1) + 1))
      (d := s.pipeFds ⟨n - 1, n - 1, 1⟩ + 1) (by omega) (Nat.lt_succ_self _)
    refine ⟨files, pipeFds, hmove, hplaced, fun x hx => ?_⟩
    obtain ⟨k, hk⟩ := List.mem_iff_getElem?.mp hx
    rcases hhigh k x hk with hle | ⟨⟨b, hb, hle⟩, heq⟩
    · omega
    · rw [heq]
      refine h.low_first hstart hlast (Nat.le_of_not_lt hmax) hk ?_
      rw [length_ends]
      have hb := Option.some_inj.mp hb
      omega

end Opening

/-! ## The environment -/

section Names

variable {environment : Environment} {name other value : Text} {j k n : Nat}

private theorem getenv_setenv_self : getenv (setenv environment name value) name = some value := by
  simp [getenv, setenv]

private theorem getenv_setenv_of_ne (h : other ≠ name) :
    getenv (setenv environment name value) other = getenv environment other := by
  unfold getenv setenv
  rw [List.find?_cons_of_neg (by simpa using Ne.symm h), List.find?_filter]
  congr 2
  funext p
  by_cases hp : p.1 = other
  · simp [hp, h]
  · simp [hp]

private theorem atoi_decimal (n : Nat) : atoi (decimal n) = n := by
  have hdigits : (decimal n).takeWhile Char.isDigit = decimal n :=
    List.takeWhile_eq_self_iff.mpr fun c hc =>
      Nat.isDigit_of_mem_toDigits (by decide) (by decide) hc
  rw [atoi, hdigits]
  exact Nat.ofDigitChars_ten_toDigits

private theorem readName_inj : readName j = readName k ↔ j = k := by
  refine ⟨fun h => ?_, congrArg readName⟩
  have hdigits := congrArg atoi (List.append_cancel_left h)
  rwa [atoi_decimal, atoi_decimal] at hdigits

private theorem writeName_inj : writeName j = writeName k ↔ j = k := by
  refine ⟨fun h => ?_, congrArg writeName⟩
  have hdigits := congrArg atoi (List.append_cancel_left h)
  rwa [atoi_decimal, atoi_decimal] at hdigits

private theorem ne_of_letter {a b : Text} (p : Nat) (h : a[p]? ≠ b[p]?) : a ≠ b := fun heq =>
  h (congrArg (fun text : Text => text[p]?) heq)

private theorem readName_ne_writeName : readName j ≠ writeName k :=
  ne_of_letter 11 (by change some 'R' ≠ some 'W'; decide)

private theorem sizeName_ne :
    sizeName ≠ readName j ∧ sizeName ≠ writeName j ∧ sizeName ≠ rankName :=
  ⟨ne_of_letter 6 (by change some 'S' ≠ some 'P'; decide),
    ne_of_letter 6 (by change some 'S' ≠ some 'P'; decide), ne_of_letter 6 (by decide)⟩

private theorem rankName_ne : rankName ≠ readName j ∧ rankName ≠ writeName j :=
  ⟨ne_of_letter 6 (by change some 'R' ≠ some 'P'; decide),
    ne_of_letter 6 (by change some 'R' ≠ some 'P'; decide)⟩

variable {F : Type*} (s : Launcher F) (i : Nat)

private theorem getenv_nameEnds_other (js : List Nat) (environment : Environment)
    (h : ∀ j ∈ js, name ≠ readName j ∧ name ≠ writeName j) :
    getenv (nameEnds s i js environment) name = getenv environment name := by
  induction js generalizing environment with
  | nil => rfl
  | cons j js ih =>
      obtain ⟨hread, hwrite⟩ := h j List.mem_cons_self
      rw [nameEnds, ih _ fun k hk => h k (List.mem_cons_of_mem j hk),
        getenv_setenv_of_ne hwrite, getenv_setenv_of_ne hread]

private theorem getenv_nameEnds (js : List Nat) (environment : Environment) (hj : j ∈ js) :
    getenv (nameEnds s i js environment) (readName j) = some (decimal (s.pipeFds ⟨j, i, 0⟩)) ∧
    getenv (nameEnds s i js environment) (writeName j) =
      some (decimal (s.pipeFds ⟨i, j, 1⟩)) := by
  induction js generalizing environment with
  | nil => cases hj
  | cons k js ih =>
      rw [nameEnds]
      by_cases hmem : j ∈ js
      · exact ih _ hmem
      · obtain rfl : j = k := (List.mem_cons.mp hj).resolve_right hmem
        have hne (l : Nat) (hl : l ∈ js) : j ≠ l := fun heq => hmem (heq ▸ hl)
        rw [getenv_nameEnds_other, getenv_nameEnds_other]
        · exact ⟨by rw [getenv_setenv_of_ne readName_ne_writeName, getenv_setenv_self],
            getenv_setenv_self⟩
        · exact fun l hl => ⟨readName_ne_writeName.symm, fun h => hne l hl (writeName_inj.mp h)⟩
        · exact fun l hl => ⟨fun h => hne l hl (readName_inj.mp h), readName_ne_writeName⟩

end Names

/-! ## The processes -/

section Processes

variable {F : Type*} {start : Descriptors F} {s : Launcher F} {channel : Channel F} {n i : Nat}

/-- The process with rank `i` has the read ends of the channels to it, the write ends of those
from it, where its environment says, and nothing else that it has not inherited. -/
structure Wired (start : Descriptors F) (n i : Nat) (c : Launcher F) : Prop where
  rank : getMyRank c.environment = some i
  size : getWorldSize c.environment = some n
  read : ∀ j < n, ∃ d ≥ 20, readFd c.environment j = some d ∧
    c.files.file d = some (.channelEnd ⟨j, i, 0⟩)
  write : ∀ j < n, ∃ d ≥ 20, writeFd c.environment j = some d ∧
    c.files.file d = some (.channelEnd ⟨i, j, 1⟩)
  only : ∀ d x, c.files.file d = some (.channelEnd x) → x.j = i ∧ x.e = 0 ∨ x.i = i ∧ x.e = 1
  once : ∀ d e x, c.files.file d = some (.channelEnd x) →
    c.files.file e = some (.channelEnd x) → d = e
  inherited : ∀ d f, c.files.file d = some (.inherited f) ↔ start.file d = some f

private theorem mem_others {x : End} : x ∈ others n i ↔
    x.i < n ∧ x.j < n ∧ (x.e = 0 ∧ x.j ≠ i ∨ x.e = 1 ∧ x.i ≠ i) := by
  obtain ⟨a, b, e⟩ := x
  simp only [others, List.mem_flatMap, List.mem_filter, List.mem_range, List.mem_cons,
    List.not_mem_nil, or_false, End.mk.injEq, decide_eq_true_eq, ne_eq]
  constructor
  · rintro ⟨k, ⟨hk, hki⟩, j, hj, ⟨rfl, rfl, rfl⟩ | ⟨rfl, rfl, rfl⟩⟩
    · exact ⟨hj, hk, .inl ⟨rfl, hki⟩⟩
    · exact ⟨hk, hj, .inr ⟨rfl, hki⟩⟩
  · rintro ⟨ha, hb, ⟨rfl, hbi⟩ | ⟨rfl, hai⟩⟩
    · exact ⟨b, ⟨hb, hbi⟩, a, ha, .inl ⟨rfl, rfl, rfl⟩⟩
    · exact ⟨a, ⟨ha, hai⟩, b, hb, .inr ⟨rfl, rfl, rfl⟩⟩

private theorem nodup_others (n i : Nat) : (others n i).Nodup := by
  rw [others, List.nodup_flatMap]
  refine ⟨fun k _ => ?_, ?_⟩
  · rw [List.nodup_flatMap]
    refine ⟨fun j _ => by simp, (List.nodup_range).imp_of_mem fun {j j'} _ _ hne => ?_⟩
    simp only [Function.onFun, List.disjoint_left, List.mem_cons, List.not_mem_nil, or_false]
    rintro x (rfl | rfl) (h | h)
    · exact hne (congrArg End.i h)
    · simp at h
    · simp at h
    · exact hne (congrArg End.j h)
  · refine ((List.nodup_range).filter _).imp_of_mem fun {k k'} _ _ hne => ?_
    simp only [Function.onFun, List.disjoint_left, List.mem_flatMap, List.mem_cons,
      List.not_mem_nil, or_false]
    rintro x ⟨j, -, rfl | rfl⟩ ⟨j', -, h | h⟩
    · exact hne (congrArg End.j h)
    · simp at h
    · simp at h
    · exact hne (congrArg End.i h)

theorem Placed.place {S : Set End} {d : Nat} {x : End} (h : Placed start S s)
    (hd : s.files.file d = some (.channelEnd x)) : x ∈ S ∧ s.pipeFds x = d := by
  have hex : ∃ y ∈ S, s.pipeFds y = d := by
    by_contra hnone
    rw [h.rest d fun y hy heq => hnone ⟨y, hy, heq⟩] at hd
    cases hf : start.file d with
    | none => simp [hf] at hd
    | some f => simp [hf] at hd
  obtain ⟨y, hy, rfl⟩ := hex
  rw [h.file y hy] at hd
  obtain rfl : y = x := by simpa using hd
  exact ⟨hy, rfl⟩

theorem Placed.inherited {S : Set End} (h : Placed start S s) (d : Nat) (f : F) :
    s.files.file d = some (.inherited f) ↔ start.file d = some f := by
  by_cases hex : ∃ y ∈ S, s.pipeFds y = d
  · obtain ⟨y, hy, rfl⟩ := hex
    rw [h.file y hy, h.apart y hy]
    simp
  · rw [h.rest d fun y hy heq => hex ⟨y, hy, heq⟩]
    cases start.file d <;> simp

private theorem child_wired (h : Placed start {x | x ∈ ends n} s)
    (hhigh : ∀ x ∈ ends n, 20 ≤ s.pipeFds x)
    (hsize : getWorldSize s.environment = some n) (hi : i < n) :
    ∃ c, child n s i = some c ∧ Wired start n i c := by
  obtain ⟨files, hclose, hplaced⟩ := closeEnds_spec
    (s := ⟨s.files, nameEnds s i (List.range n) (setenv s.environment rankName (decimal i)),
      s.pipeFds⟩) (others n i)
    ⟨h.file, h.rest, h.apart⟩ (nodup_others n i) fun x hx => by
      obtain ⟨hxi, hxj, he⟩ := mem_others.mp hx
      exact mem_ends.mpr ⟨hxi, hxj, by omega⟩
  refine ⟨_, hclose, ?_, ?_, fun j hj => ?_, fun j hj => ?_, fun d x hd => ?_,
    fun d e x hd he => ?_, hplaced.inherited⟩
  · rw [getMyRank, getenv_nameEnds_other _ _ _ _ fun j _ => rankName_ne, getenv_setenv_self,
      Option.map_some, atoi_decimal]
  · rw [getWorldSize, getenv_nameEnds_other _ _ _ _ fun j _ => ⟨sizeName_ne.1, sizeName_ne.2.1⟩,
      getenv_setenv_of_ne (sizeName_ne (j := 0)).2.2]
    exact hsize
  · have hmem : (⟨j, i, 0⟩ : End) ∈ ends n := mem_ends.mpr ⟨hj, hi, Nat.zero_lt_two⟩
    refine ⟨_, hhigh _ hmem, ?_, hplaced.file ⟨j, i, 0⟩ ⟨hmem, fun hother => ?_⟩⟩
    · rw [readFd, (getenv_nameEnds s i _ _ (List.mem_range.mpr hj)).1, Option.map_some,
        atoi_decimal]
    · have hother := (mem_others.mp hother).2.2
      simp at hother
  · have hmem : (⟨i, j, 1⟩ : End) ∈ ends n := mem_ends.mpr ⟨hi, hj, Nat.one_lt_two⟩
    refine ⟨_, hhigh _ hmem, ?_, hplaced.file ⟨i, j, 1⟩ ⟨hmem, fun hother => ?_⟩⟩
    · rw [writeFd, (getenv_nameEnds s i _ _ (List.mem_range.mpr hj)).2, Option.map_some,
        atoi_decimal]
    · have hother := (mem_others.mp hother).2.2
      simp at hother
  · obtain ⟨⟨hmem, hother⟩, -⟩ := hplaced.place hd
    obtain ⟨hxi, hxj, he⟩ := mem_ends.mp hmem
    rw [mem_others] at hother
    by_cases hread : x.e = 0
    · left
      refine ⟨?_, hread⟩
      by_contra hne
      exact hother ⟨hxi, hxj, .inl ⟨hread, hne⟩⟩
    · right
      have hwrite : x.e = 1 := by omega
      refine ⟨?_, hwrite⟩
      by_contra hne
      exact hother ⟨hxi, hxj, .inr ⟨hwrite, hne⟩⟩
  · rw [← (hplaced.place hd).2, (hplaced.place he).2]

private theorem mapM_some {α β : Type*} {f : α → Option β} {P : α → β → Prop} (l : List α)
    (h : ∀ a ∈ l, ∃ b, f a = some b ∧ P a b) : ∃ bs, l.mapM f = some bs ∧ List.Forall₂ P l bs := by
  induction l with
  | nil => exact ⟨[], rfl, .nil⟩
  | cons a l ih =>
      obtain ⟨b, hb, hP⟩ := h a List.mem_cons_self
      obtain ⟨bs, hbs, hall⟩ := ih fun a' ha' => h a' (List.mem_cons_of_mem a ha')
      refine ⟨b :: bs, ?_, .cons hP hall⟩
      rw [List.mapM_cons, hb, hbs]
      rfl

/-- Every process that is started has the ends of its rank, and the parent keeps none. -/
theorem mimpirun_wired (hchannel : ∀ t a b, ∃ t' r w, channel t a b = some (t', r, w) ∧
      OpensPipe t a b t' r w) (hstart : ∀ d, 20 ≤ d → start.file d = none) (n : Nat)
    (environment : Environment) (pipeFds : End → Nat) :
    ∃ parent children, mimpirun channel n
        ⟨start.map (Option.map .inherited), environment, pipeFds⟩ = some (parent, children) ∧
      (∀ d, parent.files.file d = (start.file d).map .inherited) ∧ children.length = n ∧
      ∀ i c, children[i]? = some c → Wired start n i c := by
  have hfiles (d : Nat) : Descriptors.file (start.map (Option.map File.inherited)) d =
      (start.file d).map .inherited := by
    unfold Descriptors.file
    rw [List.getElem?_map]
    cases start[d]? <;> rfl
  have hopened : Opened start (endsOf [])
      ⟨start.map (Option.map .inherited), environment, pipeFds⟩ := by
    refine ⟨⟨fun x hx => ?_, fun d _ => hfiles d, fun x hx => ?_⟩, List.Pairwise.nil,
      fun x hx => ?_⟩ <;> cases hx
  obtain ⟨files₁, pipeFds₁, hopen, hopened₁⟩ := openChannels_spec hchannel [] (pairs n) hopened
    (nodup_ends n)
  obtain ⟨files₂, pipeFds₂, hmove, hplaced, hhigh⟩ := moveAway_spec hopened₁ hstart
  have hplaced' : Placed start {x | x ∈ ends n}
      ⟨files₂, setenv environment sizeName (decimal n), pipeFds₂⟩ :=
    ⟨hplaced.file, hplaced.rest, hplaced.apart⟩
  have hsize : getWorldSize (setenv environment sizeName (decimal n)) = some n := by
    rw [getWorldSize, getenv_setenv_self, Option.map_some, atoi_decimal]
  obtain ⟨children, hchildren, hwired⟩ := mapM_some (f := child n _) (P := Wired start n)
    (List.range n) fun i hi => child_wired hplaced' hhigh hsize (List.mem_range.mp hi)
  obtain ⟨files, hclose, hclosed⟩ := closeEnds_spec (ends n) hplaced' (nodup_ends n)
    fun x hx => hx
  refine ⟨_, children, ?_, fun d => hclosed.rest d fun x hx => absurd hx.1 hx.2, ?_, ?_⟩
  · rw [mimpirun, hopen]
    simp only [Option.bind_eq_bind, Option.bind_some, hmove, hchildren, hclose]
    rfl
  · rw [← hwired.length_eq, List.length_range]
  · intro i c hc
    obtain ⟨hlt, hget⟩ := List.getElem?_eq_some_iff.mp hc
    have hat := (List.forall₂_iff_get.mp hwired).2 i (by rw [hwired.length_eq]; exact hlt) hlt
    simpa [hget] using hat

theorem mimpirun_wired_three : ∃ parent children,
    mimpirun Descriptors.pipe 3
      ⟨([some 'i', some 'o', some 'e'] : Descriptors Char).map (Option.map .inherited), [],
        fun _ => 0⟩ = some (parent, children) ∧
      (∀ d, parent.files.file d =
        (Descriptors.file [some 'i', some 'o', some 'e'] d).map .inherited) ∧
      children.length = 3 ∧
      ∀ i c, children[i]? = some c → Wired [some 'i', some 'o', some 'e'] 3 i c :=
  mimpirun_wired pipe_opens
    (fun d hd => by
      rw [Descriptors.file, List.getElem?_eq_none (by simp; omega)]
      rfl) 3 [] fun _ => 0

end Processes

end Mimuw.Mimpi
