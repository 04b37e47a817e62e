import Mimuw.Lib.Runs
import Mimuw.Lib.Threads
import Mimuw.Queues.Memory

/-!
# Hazard pointers

`HazardPointer`: a thread publishes the pointer it is about to use in its slot and
checks that the variable it came from has not changed.  A retired pointer is freed
when a scan finds it in no slot.
-/

namespace Mimuw.Queues

open Mimuw.Lib

namespace HazardPointer

/-- `MAX_THREADS`: the arrays have so many places. -/
def maxThreads : Nat := 128

def retiredThreshold : Nat := 128

/-- Where a thread is in `HazardPointer_protect` of a variable, or in the scan of
`HazardPointer_retire`. -/
inductive Pc (Var : Type) where
  | idle
  /-- `ptr = atomic_load(atom)` -/
  | load (atom : Var)
  /-- `atomic_store(&hp->pointer[_thread_id], ptr)` -/
  | store (atom : Var) (ptr : Option Ptr)
  /-- `ptr != atomic_load(atom)` -/
  | check (atom : Var) (ptr : Option Ptr)
  /-- the node of the list that is compared, and the slot it is compared with -/
  | scan (node slot : Nat)
  deriving DecidableEq

inductive Event (Var : Type) where
  | protect (t : Tid) (atom : Var)
  | clear (t : Tid)
  /-- a call of `HazardPointer_retire`, and whether `malloc` fails in it -/
  | retire (t : Tid) (ptr : Ptr) (noMemory : Bool)
  | next (t : Tid)
  /-- A protected variable is changed. -/
  | store (atom : Var) (ptr : Option Ptr)

end HazardPointer

open HazardPointer

/-- The slots and lists, and the variables that are protected. -/
structure HazardPointer (Var : Type) where
  /-- `HazardPointer_register` does not check that it is at most `maxThreads`. -/
  numThreads : Nat
  atom : Var → Option Ptr
  pointer : Tid → Option Ptr
  /-- each as long as its `retired_count` says -/
  retired : Tid → List Ptr
  pc : Tid → Pc Var
  /-- what `HazardPointer_protect` returned, until the slot is overwritten or cleared -/
  held : Tid → Option Ptr
  /-- what was retired and not freed -/
  limbo : List Ptr

namespace HazardPointer

variable {Var : Type}

/-- `HazardPointer_initialize` -/
def new (numThreads : Nat) (atom : Var → Option Ptr) : HazardPointer Var where
  numThreads := numThreads
  atom := atom
  pointer _ := none
  retired _ := []
  pc _ := .idle
  held _ := none
  limbo := []

def goto (h : HazardPointer Var) (t : Tid) (pc : Pc Var) : HazardPointer Var :=
  { h with pc := Function.update h.pc t pc }

def publish (h : HazardPointer Var) (t : Tid) (ptr : Option Ptr) : HazardPointer Var :=
  { h with pointer := Function.update h.pointer t ptr, held := Function.update h.held t none }

/-- The pointer was still there after it was published. -/
def hold (h : HazardPointer Var) (t : Tid) (ptr : Option Ptr) : HazardPointer Var :=
  { h with held := Function.update h.held t ptr }

def release (h : HazardPointer Var) (t : Tid) (node : Nat) (ptr : Ptr) : HazardPointer Var :=
  { h with
    retired := Function.update h.retired t ((h.retired t).eraseIdx node)
    limbo := h.limbo.erase ptr }

def retire (h : HazardPointer Var) (t : Tid) (ptr : Ptr) : HazardPointer Var :=
  { h with
    retired := Function.update h.retired t (ptr :: h.retired t)
    limbo := ptr :: h.limbo }.goto t
      (if (h.retired t).length + 1 > retiredThreshold then .scan 0 0 else .idle)

/-- One step inside `HazardPointer_protect` or the scan. -/
def advance (h : HazardPointer Var) (t : Tid) : Option (HazardPointer Var) :=
  match h.pc t with
  | .idle => none
  | .load atom => some (h.goto t (.store atom (h.atom atom)))
  | .store atom ptr => some ((h.publish t ptr).goto t (.check atom ptr))
  | .check atom ptr =>
      if ptr = h.atom atom then some ((h.hold t ptr).goto t .idle)
      else some (h.goto t (.load atom))
  | .scan node slot =>
      match (h.retired t)[node]? with
      | none => some (h.goto t .idle)
      | some ptr =>
          if slot < h.numThreads then
            if h.pointer slot = some ptr then some (h.goto t (.scan (node + 1) 0))
            else some (h.goto t (.scan node (slot + 1)))
          else some ((h.release t node ptr).goto t (.scan node 0))

/-- Threads are registered with numbers below `numThreads`. -/
def step [DecidableEq Var] (h : HazardPointer Var) : Event Var → Option (HazardPointer Var)
  | .protect t atom =>
      if t < h.numThreads ∧ h.pc t = .idle then some (h.goto t (.load atom)) else none
  | .clear t => if t < h.numThreads ∧ h.pc t = .idle then some (h.publish t none) else none
  | .retire t ptr noMemory =>
      if t < h.numThreads ∧ h.pc t = .idle then
        some (if noMemory then { h with limbo := ptr :: h.limbo } else h.retire t ptr)
      else none
  | .next t => h.advance t
  | .store atom ptr => some { h with atom := Function.update h.atom atom ptr }

def frees (h : HazardPointer Var) (t : Tid) : Option Ptr :=
  match h.pc t with
  | .scan node slot => if slot < h.numThreads then none else (h.retired t)[node]?
  | _ => none

/-- A pointer is retired once until it is freed, when it is in none of the variables,
and put into none before it is freed. -/
def Obeys (h : HazardPointer Var) : Event Var → Prop
  | .retire _ ptr _ => (∀ atom, h.atom atom ≠ some ptr) ∧ ptr ∉ h.limbo
  | .store _ ptr => ∀ p, ptr = some p → p ∉ h.limbo
  | _ => True

structure Inv (h : HazardPointer Var) : Prop where
  /-- what a thread holds is in its slot -/
  hazard : ∀ t p, h.held t = some p → t < h.numThreads ∧ h.pointer t = some p
  checked : ∀ t atom ptr, h.pc t = .check atom ptr → h.pointer t = ptr
  registered : ∀ t, h.pc t ≠ .idle → t < h.numThreads
  removed : ∀ p ∈ h.limbo, ∀ atom, h.atom atom ≠ some p
  listed : ∀ t, ∀ p ∈ h.retired t, p ∈ h.limbo
  limbo_nodup : h.limbo.Nodup
  nodup : ∀ t, (h.retired t).Nodup
  disjoint : ∀ t u, t ≠ u → List.Disjoint (h.retired t) (h.retired u)
  /-- a scan has not passed the slot of a thread that holds what it compares -/
  ahead : ∀ t u p node slot, h.held t = some p → h.pc u = .scan node slot →
    (h.retired u)[node]? = some p → slot ≤ t

section Steps

variable {h h' : HazardPointer Var} {t : Tid} {x : Pc Var}

theorem inv_new (numThreads : Nat) (atom : Var → Option Ptr) : (new numThreads atom).Inv where
  hazard _ _ := nofun
  checked _ _ _ := nofun
  registered _ hne := absurd rfl hne
  removed _ := nofun
  listed _ _ := nofun
  limbo_nodup := List.nodup_nil
  nodup _ := List.nodup_nil
  disjoint _ _ _ := List.disjoint_nil_left _
  ahead _ _ _ _ _ := nofun

theorem Inv.move (h₀ : h.Inv) (ht : t < h.numThreads)
    (hchecked : ∀ atom ptr, x = .check atom ptr → h.pointer t = ptr)
    (hahead : ∀ u p node slot, h.held u = some p → x = .scan node slot →
      (h.retired t)[node]? = some p → slot ≤ u) : (h.goto t x).Inv where
  hazard := h₀.hazard
  checked := (Function.forall_update_iff _ fun u (pc : Pc Var) => ∀ atom ptr, pc = .check atom ptr →
    h.pointer u = ptr).mpr ⟨hchecked, fun u _ => h₀.checked u⟩
  registered := (Function.forall_update_iff _ fun u (pc : Pc Var) => pc ≠ .idle →
    u < h.numThreads).mpr
    ⟨fun _ => ht, fun u _ => h₀.registered u⟩
  removed := h₀.removed
  listed := h₀.listed
  limbo_nodup := h₀.limbo_nodup
  nodup := h₀.nodup
  disjoint := h₀.disjoint
  ahead u := (Function.forall_update_iff _ fun v (pc : Pc Var) => ∀ p node slot, h.held u = some p →
    pc = .scan node slot → (h.retired v)[node]? = some p → slot ≤ u).mpr
      ⟨hahead u, fun v _ => h₀.ahead u v⟩

theorem Inv.publish (h₀ : h.Inv) (ptr : Option Ptr) (hpc : ∀ atom p, h.pc t ≠ .check atom p) :
    (h.publish t ptr).Inv where
  hazard u p hu := by
    rcases eq_or_ne u t with rfl | hne
    · simp [HazardPointer.publish] at hu
    · obtain ⟨hlt, hpointer⟩ := h₀.hazard u p (by simpa [HazardPointer.publish, hne] using hu)
      exact ⟨hlt, (Function.update_of_ne hne _ _).trans hpointer⟩
  checked u atom p hu := by
    rcases eq_or_ne u t with rfl | hne
    · exact absurd hu (hpc atom p)
    · exact (Function.update_of_ne hne _ _).trans (h₀.checked u atom p hu)
  registered := h₀.registered
  removed := h₀.removed
  listed := h₀.listed
  limbo_nodup := h₀.limbo_nodup
  nodup := h₀.nodup
  disjoint := h₀.disjoint
  ahead u v p node slot hu := by
    rcases eq_or_ne u t with rfl | hne
    · simp [HazardPointer.publish] at hu
    · exact h₀.ahead u v p node slot (by simpa [HazardPointer.publish, hne] using hu)

/-- What is in a variable is not retired, so no scan compares it. -/
theorem Inv.hold (h₀ : h.Inv) {atom : Var} (ht : t < h.numThreads)
    (hpointer : h.pointer t = h.atom atom) : (h.hold t (h.atom atom)).Inv where
  hazard u p hu := by
    rcases eq_or_ne u t with rfl | hne
    · have hatom : h.atom atom = some p := by simpa [HazardPointer.hold] using hu
      exact ⟨ht, hpointer.trans hatom⟩
    · exact h₀.hazard u p (by simpa [HazardPointer.hold, hne] using hu)
  checked := h₀.checked
  registered := h₀.registered
  removed := h₀.removed
  listed := h₀.listed
  limbo_nodup := h₀.limbo_nodup
  nodup := h₀.nodup
  disjoint := h₀.disjoint
  ahead u v p node slot hu hv hnode := by
    rcases eq_or_ne u t with rfl | hne
    · have hatom : h.atom atom = some p := by simpa [HazardPointer.hold] using hu
      exact absurd hatom (h₀.removed p (h₀.listed v p (List.mem_of_getElem? hnode)) atom)
    · exact h₀.ahead u v p node slot (by simpa [HazardPointer.hold, hne] using hu) hv hnode

theorem Inv.store [DecidableEq Var] (h₀ : h.Inv) {atom : Var} {ptr : Option Ptr}
    (hptr : ∀ p, ptr = some p → p ∉ h.limbo) :
    ({ h with atom := Function.update h.atom atom ptr } : HazardPointer Var).Inv :=
  { h₀ with
    removed := fun p hp atom' => by
      change Function.update h.atom atom ptr atom' ≠ some p
      rcases eq_or_ne atom' atom with rfl | hne
      · rw [Function.update_self]
        exact fun heq => hptr p heq hp
      · rw [Function.update_of_ne hne]
        exact h₀.removed p hp atom' }

theorem Inv.retire (h₀ : h.Inv) {ptr : Ptr} (ht : t < h.numThreads) (hpc : h.pc t = .idle)
    (hatom : ∀ atom, h.atom atom ≠ some ptr) (hnew : ptr ∉ h.limbo) : (h.retire t ptr).Inv := by
  have hlist : ∀ u, ptr ∉ h.retired u := fun u hu => hnew (h₀.listed u ptr hu)
  have hretired : ({ h with
      retired := Function.update h.retired t (ptr :: h.retired t)
      limbo := ptr :: h.limbo } : HazardPointer Var).Inv :=
    { h₀ with
      removed := fun p hp => by
        rcases List.mem_cons.mp hp with rfl | hp
        · exact hatom
        · exact h₀.removed p hp
      listed := (Function.forall_update_iff _ fun _ (list : List Ptr) => ∀ p ∈ list,
        p ∈ ptr :: h.limbo).mpr
        ⟨fun p hp => (List.mem_cons.mp hp).elim (fun heq => heq ▸ List.mem_cons_self)
            fun hp => List.mem_cons_of_mem _ (h₀.listed t p hp),
          fun u _ p hp => List.mem_cons_of_mem _ (h₀.listed u p hp)⟩
      limbo_nodup := List.nodup_cons.mpr ⟨hnew, h₀.limbo_nodup⟩
      nodup := (Function.forall_update_iff _ fun _ (list : List Ptr) => list.Nodup).mpr
        ⟨List.nodup_cons.mpr ⟨hlist t, h₀.nodup t⟩, fun u _ => h₀.nodup u⟩
      disjoint := disjoint_update h₀.disjoint fun u hu =>
        List.disjoint_cons_left.mpr ⟨hlist u, h₀.disjoint t u hu.symm⟩
      ahead := fun u v p node slot hu hv hnode => by
        rcases eq_or_ne v t with rfl | hne
        · cases hpc.symm.trans hv
        · exact h₀.ahead u v p node slot hu hv
            (by simpa [Function.update_of_ne hne] using hnode) }
  refine hretired.move ht (fun atom p hx => ?_) (fun u p node slot _ hx _ => ?_)
  · split at hx <;> cases hx
  · split at hx <;> cases hx
    exact Nat.zero_le u

/-- The scan has compared the pointer with the slots of all threads. -/
private theorem Inv.not_held_of_frees (h₀ : h.Inv) {p : Ptr} (hfrees : h.frees t = some p)
    (u : Tid) :
    h.held u ≠ some p := by
  intro hu
  unfold frees at hfrees
  split at hfrees
  next node slot hpc =>
    split at hfrees
    · cases hfrees
    next hslot =>
      have hle := h₀.ahead u t p node slot hu hpc hfrees
      exact hslot (Nat.lt_of_le_of_lt hle (h₀.hazard u p hu).1)
  · cases hfrees

theorem Inv.release (h₀ : h.Inv) {node slot : Nat} {ptr : Ptr} (hpc : h.pc t = .scan node slot)
    (hnode : (h.retired t)[node]? = some ptr) :
    ((h.release t node ptr).goto t (.scan node 0)).Inv := by
  have hmem : ptr ∈ h.retired t := List.mem_of_getElem? hnode
  have herase : (h.retired t).eraseIdx node = (h.retired t).erase ptr := by
    obtain ⟨hlt, hget⟩ := List.getElem?_eq_some_iff.mp hnode
    rw [← hget, (h₀.nodup t).erase_getElem]
  have hsub : ∀ p ∈ (h.retired t).eraseIdx node, p ∈ h.retired t ∧ p ≠ ptr := by
    intro p hp
    rw [herase, (h₀.nodup t).mem_erase_iff] at hp
    exact ⟨hp.2, hp.1⟩
  constructor
  case hazard => exact h₀.hazard
  case checked =>
    exact (Function.forall_update_iff _ fun u (pc : Pc Var) => ∀ atom p, pc = .check atom p →
      h.pointer u = p).mpr ⟨nofun, fun u _ => h₀.checked u⟩
  case registered =>
    exact (Function.forall_update_iff _ fun u (pc : Pc Var) => pc ≠ .idle → u < h.numThreads).mpr
      ⟨fun _ => h₀.registered t (by rw [hpc]; nofun), fun u _ => h₀.registered u⟩
  case removed => exact fun p hp => h₀.removed p (List.mem_of_mem_erase hp)
  case listed =>
    refine (Function.forall_update_iff _ fun _ (list : List Ptr) =>
      ∀ p ∈ list, p ∈ h.limbo.erase ptr).mpr ⟨fun p hp => ?_, fun u hu p hp => ?_⟩
    · exact (h₀.limbo_nodup.mem_erase_iff).mpr ⟨(hsub p hp).2, h₀.listed t p (hsub p hp).1⟩
    · refine (h₀.limbo_nodup.mem_erase_iff).mpr ⟨?_, h₀.listed u p hp⟩
      rintro rfl
      exact h₀.disjoint u t hu hp hmem
  case limbo_nodup => exact h₀.limbo_nodup.erase ptr
  case nodup =>
    exact (Function.forall_update_iff _ fun _ (list : List Ptr) => list.Nodup).mpr
      ⟨(h₀.nodup t).eraseIdx node, fun u _ => h₀.nodup u⟩
  case disjoint =>
    exact disjoint_update h₀.disjoint fun u hu p hp hp' =>
      h₀.disjoint t u hu.symm (hsub p hp).1 hp'
  case ahead =>
    intro u v p i j hu hv hnode'
    rcases eq_or_ne v t with rfl | hne
    · obtain ⟨-, rfl⟩ : node = i ∧ 0 = j := by
        simpa [goto] using hv
      exact Nat.zero_le u
    · refine h₀.ahead u v p i j hu ?_ ?_
      · simpa [goto, HazardPointer.release, hne] using hv
      · simpa [goto, HazardPointer.release, hne] using hnode'

theorem Inv.advance (h₀ : h.Inv) (hstep : h.advance t = some h') : h'.Inv := by
  unfold HazardPointer.advance at hstep
  cases hpc : h.pc t with
  | idle => simp [hpc] at hstep
  | load atom =>
      have ht := h₀.registered t (by rw [hpc]; nofun)
      simp only [hpc, Option.some.injEq] at hstep
      exact hstep ▸ h₀.move ht nofun nofun
  | store atom ptr =>
      have ht := h₀.registered t (by rw [hpc]; nofun)
      simp only [hpc, Option.some.injEq] at hstep
      refine hstep ▸ (h₀.publish ptr (by simp [hpc])).move ht ?_ nofun
      rintro atom' ptr' hx
      cases hx
      exact Function.update_self _ _ _
  | check atom ptr =>
      have ht := h₀.registered t (by rw [hpc]; nofun)
      simp only [hpc] at hstep
      split at hstep
      next heq =>
        obtain rfl := Option.some.inj hstep
        subst heq
        exact (h₀.hold ht (h₀.checked t _ _ hpc)).move ht nofun nofun
      next => exact Option.some.inj hstep ▸ h₀.move ht nofun nofun
  | scan node slot =>
      have ht := h₀.registered t (by rw [hpc]; nofun)
      simp only [hpc] at hstep
      split at hstep
      next => exact Option.some.inj hstep ▸ h₀.move ht nofun nofun
      next ptr hnode =>
        split at hstep
        next hslot =>
          split at hstep
          next hreserved =>
            refine Option.some.inj hstep ▸ h₀.move ht nofun fun u p i j _ hx _ => ?_
            cases hx
            exact Nat.zero_le u
          next hother =>
            refine Option.some.inj hstep ▸ h₀.move ht nofun fun u p i j hu hx hnode' => ?_
            cases hx
            have hle := h₀.ahead u t p node slot hu hpc hnode'
            rcases Nat.lt_or_eq_of_le hle with hlt | rfl
            · exact hlt
            · rw [hnode', Option.some.injEq] at hnode
              exact absurd ((h₀.hazard _ p hu).2.trans (congrArg some hnode)) hother
        next => exact Option.some.inj hstep ▸ h₀.release hpc hnode

theorem Inv.step [DecidableEq Var] (h₀ : h.Inv) {event : Event Var} (hobeys : h.Obeys event)
    (hstep : h.step event = some h') : h'.Inv := by
  cases event with
  | protect t atom =>
      simp only [HazardPointer.step, Option.ite_none_right_eq_some, Option.some.injEq] at hstep
      obtain ⟨⟨ht, -⟩, rfl⟩ := hstep
      exact h₀.move ht nofun nofun
  | clear t =>
      simp only [HazardPointer.step, Option.ite_none_right_eq_some, Option.some.injEq] at hstep
      obtain ⟨⟨-, hpc⟩, rfl⟩ := hstep
      exact h₀.publish none (by simp [hpc])
  | retire t ptr noMemory =>
      simp only [HazardPointer.step, Option.ite_none_right_eq_some, Option.some.injEq] at hstep
      obtain ⟨⟨ht, hpc⟩, rfl⟩ := hstep
      obtain ⟨hatom, hnew⟩ := hobeys
      split
      · exact { h₀ with
          removed := fun p hp => by
            rcases List.mem_cons.mp hp with rfl | hp
            · exact hatom
            · exact h₀.removed p hp
          listed := fun u p hp => List.mem_cons_of_mem _ (h₀.listed u p hp)
          limbo_nodup := List.nodup_cons.mpr ⟨hnew, h₀.limbo_nodup⟩ }
      · exact h₀.retire ht hpc hatom hnew
  | next t => exact h₀.advance hstep
  | store atom ptr =>
      obtain rfl := Option.some.inj hstep
      exact h₀.store hobeys

end Steps

/-- A thread that frees a pointer frees none that a thread holds: one that was returned
to the thread by `HazardPointer_protect`, before its slot is written again. -/
theorem protected_not_freed [DecidableEq Var] (numThreads : Nat) (atom : Var → Option Ptr)
    (events : List (Event Var)) (h : HazardPointer Var)
    (hobeys : Meets step Obeys (new numThreads atom) events)
    (hrun : run step (new numThreads atom) events = some h) (t u : Tid) (p : Ptr)
    (hfrees : h.frees t = some p) : h.held u ≠ some p :=
  (guarded_run_invariant (fun _ _ _ h₀ hobeys hstep => h₀.step hobeys hstep)
    (inv_new numThreads atom)
    hobeys hrun).not_held_of_frees hfrees u

instance decidableObeys [Fintype Var] (h : HazardPointer Var) (event : Event Var) :
    Decidable (h.Obeys event) :=
  match event with
  | .protect _ _ | .clear _ | .next _ => isTrue trivial
  | .retire _ ptr _ => inferInstanceAs
      (Decidable ((∀ atom, h.atom atom ≠ some ptr) ∧ ptr ∉ h.limbo))
  | .store _ none => isTrue nofun
  | .store _ (some p) =>
      decidable_of_iff (p ∉ h.limbo)
        ⟨fun hp q hq => by rwa [← Option.some.inj hq], fun hp => hp p rfl⟩

/-- One thread holds the pointer in the variable; another has retired so many that a
scan has begun, and is about to free the last of them. -/
def fullList : List (Event Unit) :=
  Event.protect 0 () :: List.replicate 3 (Event.next 0) ++
    ((List.range (retiredThreshold + 1)).map fun i => Event.retire 1 (i + 1) false) ++
    List.replicate 2 (Event.next 1)

theorem protected_not_freed_fullList :
    ∃ h, run step (new 2 fun _ : Unit => some 500) fullList = some h ∧ h.frees 1 = some 129 ∧
      h.held 0 = some 500 ∧ h.held 0 ≠ some 129 := by
  have hsome : (run step (new 2 fun _ : Unit => some 500) fullList).isSome := by decide +kernel
  have hend : ∀ h ∈ run step (new 2 fun _ : Unit => some 500) fullList,
      h.frees 1 = some 129 ∧ h.held 0 = some 500 := by decide +kernel
  obtain ⟨h, hrun⟩ := Option.isSome_iff_exists.mp hsome
  obtain ⟨hfrees, hheld⟩ := hend h hrun
  exact ⟨h, hrun, hfrees, hheld,
    protected_not_freed 2 _ fullList h (by decide +kernel) hrun 1 0 129 hfrees⟩

end HazardPointer

end Mimuw.Queues
