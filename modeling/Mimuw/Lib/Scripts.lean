import Mathlib.Data.List.Basic

/-!
# Networks of processes with scripts

A script lists what a process still has to send and to receive.  Over the edge
from `s` to `d` the pending messages and those `s` still has to send are, in this
order, the ones `d` still has to receive.  Then a process that receives in order
can only find the message of its script, whatever the order of the steps.
-/

namespace Mimuw.Lib

/-- One thing a process does with a peer. -/
inductive Event (ρ μ : Type*) where
  | send (peer : ρ) (m : μ)
  | recv (peer : ρ) (m : μ)

section Scripts

variable {ρ μ : Type*} [DecidableEq ρ]

def sendsTo (d : ρ) : List (Event ρ μ) → List μ
  | [] => []
  | .send peer m :: events => if peer = d then m :: sendsTo d events else sendsTo d events
  | .recv _ _ :: events => sendsTo d events

def receivesFrom (s : ρ) : List (Event ρ μ) → List μ
  | [] => []
  | .send _ _ :: events => receivesFrom s events
  | .recv peer m :: events =>
      if peer = s then m :: receivesFrom s events else receivesFrom s events

@[simp] theorem sendsTo_append (d : ρ) (a b : List (Event ρ μ)) :
    sendsTo d (a ++ b) = sendsTo d a ++ sendsTo d b := by
  induction a with
  | nil => rfl
  | cons event a ih =>
      cases event with
      | send peer m => by_cases h : peer = d <;> simp [sendsTo, h, ih]
      | recv peer m => simpa [sendsTo] using ih

@[simp] theorem receivesFrom_append (s : ρ) (a b : List (Event ρ μ)) :
    receivesFrom s (a ++ b) = receivesFrom s a ++ receivesFrom s b := by
  induction a with
  | nil => rfl
  | cons event a ih =>
      cases event with
      | send peer m => simpa [receivesFrom] using ih
      | recv peer m => by_cases h : peer = s <;> simp [receivesFrom, h, ih]

/-- The scripts `a` of `s` and `b` of `d` fit, with `pending` between them. -/
def Matched (s d : ρ) (pending : List μ) (a b : List (Event ρ μ)) : Prop :=
  pending ++ sendsTo d a = receivesFrom s b

variable {s d peer : ρ} {pending : List μ} {a b : List (Event ρ μ)} {m : μ}

theorem Matched.append {a' b' : List (Event ρ μ)} (h : Matched s d [] a b)
    (h' : Matched s d [] a' b') : Matched s d [] (a ++ a') (b ++ b') := by
  simp only [Matched, List.nil_append] at *
  simp [h, h']

/-- Scripts that fit round by round fit as a whole. -/
theorem matched_flatMap {ι : Type*} {f g : ι → List (Event ρ μ)} {rounds : List ι}
    (h : ∀ i ∈ rounds, Matched s d [] (f i) (g i)) :
    Matched s d [] (rounds.flatMap f) (rounds.flatMap g) := by
  induction rounds with
  | nil => rfl
  | cons i rounds ih =>
      simp only [List.flatMap_cons]
      exact (h i List.mem_cons_self).append
        (ih fun j hj => h j (List.mem_cons_of_mem i hj))

theorem Matched.send (h : Matched s d pending (.send peer m :: a) b) :
    Matched s d (if peer = d then pending ++ [m] else pending) a b := by
  simp only [Matched, sendsTo] at *
  by_cases hpeer : peer = d
  · simpa [hpeer] using h
  · simpa [hpeer] using h

theorem Matched.recv_other (h : Matched s d pending (.recv peer m :: a) b) :
    Matched s d pending a b := h

theorem Matched.recv_ne (h : Matched s d pending a (.recv peer m :: b)) (hne : peer ≠ s) :
    Matched s d pending a b := by
  simpa [Matched, receivesFrom, hne] using h

theorem Matched.head {first : μ} {rest : List μ}
    (h : Matched s d (first :: rest) a (.recv s m :: b)) : first = m := by
  simp only [Matched, receivesFrom, if_true, List.cons_append, List.cons.injEq] at h
  exact h.1

theorem Matched.recv {rest : List μ} (h : Matched s d (m :: rest) a (.recv s m :: b)) :
    Matched s d rest a b := by
  simp only [Matched, receivesFrom, if_true, List.cons_append, List.cons.injEq] at h
  exact h.2

/-- What a process expects from one that has nothing left to send is pending. -/
theorem Matched.pending_of_sent (h : Matched s d pending [] (.recv s m :: b)) :
    pending ≠ [] := by
  intro hnil
  simp [Matched, receivesFrom, sendsTo, hnil] at h

theorem Matched.not_send (h : Matched s d pending (.send d m :: a) []) : False := by
  simp [Matched, receivesFrom, sendsTo] at h

end Scripts

end Mimuw.Lib
