import Mathlib.Data.Finset.Card
import Mathlib.Data.Finset.Range
import Mathlib.Order.Interval.Finset.Nat
import Mimuw.Posets.Model

/-!
# Posets behind pointers

`getAllPosets` maps an identifier to a pointer that owns the poset. Here the
posets are in a heap under 64-bit addresses, and a call that allocates is given
the address that `new` returns. As long as no two identifiers share an address
the module behaves as if the map held the posets themselves; and since every
live poset has an address of its own, the counter of identifiers cannot wrap
before the addresses run out.
-/

namespace Mimuw.Posets

open Mimuw.Lib

namespace Owned

/-- `poset_t *`; the two vectors that it points to are with it. -/
abbrev Address := UInt64

structure State where
  allPosets : PosetID → Option Address
  heap : Address → Option Poset
  availableIDs : List PosetID
  nextID : PosetID

def State.initial : State := ⟨fun _ => none, fun _ => none, [], 0⟩

/-- A call, and the address that `new` would return. -/
structure Event where
  call : Call
  fresh : Address
  deriving DecidableEq

/-- `poset_new`; `new` returns an address that is not in use. -/
def posetNew (s : State) (fresh : Address) : Option (State × Result) :=
  if fresh = 0 ∨ s.heap fresh ≠ none then none
  else
    let (id, s) := match s.availableIDs with
      | id :: rest => (id, { s with availableIDs := rest })
      | [] => (s.nextID, { s with nextID := s.nextID + 1 })
    let s := { s with heap := Function.update s.heap fresh (some .empty) }
    match s.allPosets id with
    | some _ => some (s, .id id)
    | none => some ({ s with allPosets := Function.update s.allPosets id (some fresh) }, .id id)

def posetDelete (s : State) (id : PosetID) : State × Result :=
  match s.allPosets id with
  | some a =>
      ({ s with
          availableIDs := s.availableIDs ++ [id]
          heap := Function.update s.heap a none
          allPosets := Function.update s.allPosets id none }, .unit)
  | none => (s, .unit)

/-- What the other calls share: the poset that `it->second` points to is read and written. There
is no next state if nothing is there. -/
def withPoset (s : State) (id : PosetID) (absent : Result) (op : Poset → Poset × Result) :
    Option (State × Result) :=
  match s.allPosets id with
  | none => some (s, absent)
  | some a => (s.heap a).map fun p =>
      ({ s with heap := Function.update s.heap a (some (op p).1) }, (op p).2)

def withElem (op : Poset → PosetElem → Poset × Bool) (s : State) (id : PosetID)
    (value : Option PosetElem) : Option (State × Result) :=
  match value with
  | none => some (s, .bool false)
  | some value => withPoset s id (.bool false) fun p => ((op p value).1, .bool (op p value).2)

def withPair (op : Poset → PosetElem → PosetElem → Poset × Bool) (s : State) (id : PosetID)
    (value1 value2 : Option PosetElem) : Option (State × Result) :=
  match value1, value2 with
  | some value1, some value2 =>
      withPoset s id (.bool false) fun p => ((op p value1 value2).1, .bool (op p value1 value2).2)
  | _, _ => some (s, .bool false)

def step (s : State) (e : Event) : Option (State × Result) :=
  match e.call with
  | .new => posetNew s e.fresh
  | .delete id => some (posetDelete s id)
  | .size id => withPoset s id (.size 0) fun p => (p, .size p.names.length)
  | .insert id value => withElem Poset.insert s id value
  | .remove id value => withElem Poset.remove s id value
  | .add id value1 value2 => withPair Poset.add s id value1 value2
  | .del id value1 value2 => withPair Poset.del s id value1 value2
  | .test id value1 value2 => withPair (fun p a b => (p, p.test a b)) s id value1 value2
  | .clear id => withPoset s id .unit fun _ => (.empty, .unit)

def next (s : State) (e : Event) : Option State := (step s e).map Prod.fst

/-! ## Who owns what -/

def State.poset (s : State) (id : PosetID) : Option Poset := (s.allPosets id).bind s.heap

def State.abs (s : State) : Posets.State := ⟨s.poset, s.availableIDs, s.nextID⟩

structure Inv (s : State) : Prop where
  /-- a pointer of the map points to a poset -/
  owned : ∀ id a, s.allPosets id = some a → a ≠ 0 ∧ s.heap a ≠ none
  /-- and no other identifier has it -/
  sole : ∀ id id' a, s.allPosets id = some a → s.allPosets id' = some a → id = id'
  nodup : s.availableIDs.Nodup
  /-- the identifiers in the queue are not in the map -/
  dead : ∀ id ∈ s.availableIDs, s.allPosets id = none
  /-- the counter has passed exactly the identifiers in the map and in the queue -/
  given : ∀ id, id.toNat < s.nextID.toNat ↔ s.allPosets id ≠ none ∨ id ∈ s.availableIDs

theorem inv_initial : Inv .initial :=
  ⟨nofun, nofun, .nil, nofun, fun id => by simp [State.initial]⟩

section Steps

variable {s s' : State} {e : Event} {id id' : PosetID} {a fresh : Address} {r : Result}

private theorem Inv.poset_eq_none (h : Inv s) : s.poset id = none ↔ s.allPosets id = none := by
  rw [State.poset, Option.bind_eq_none_iff]
  constructor
  · intro hnone
    refine Option.eq_none_iff_forall_not_mem.mpr fun a ha => ?_
    exact (h.owned id a ha).2 (hnone a ha)
  · intro hnone a ha
    rw [hnone] at ha
    cases ha

/-- With the queue empty the counter is the number of live posets, each at an address of its own,
and neither the null pointer nor what `new` returns is among these. -/
private theorem Inv.nextID_lt (h : Inv s) (hempty : s.availableIDs = []) (hzero : fresh ≠ 0)
    (hfresh : s.heap fresh = none) : s.nextID.toNat + 1 < 2 ^ 64 := by
  have hbound := s.nextID.toNat_lt
  have hlive (i : Nat) : ∃ a, i < s.nextID.toNat → s.allPosets (UInt64.ofNat i) = some a := by
    by_cases hi : i < s.nextID.toNat
    · have hgiven : (UInt64.ofNat i).toNat < s.nextID.toNat := by
        rw [UInt64.toNat_ofNat']
        omega
      obtain ⟨a, ha⟩ := Option.ne_none_iff_exists'.mp
        (((h.given _).mp hgiven).resolve_right (by simp [hempty]))
      exact ⟨a, fun _ => ha⟩
    · exact ⟨0, fun hlt => absurd hlt hi⟩
  choose f hf using hlive
  let addresses := ((Finset.range (2 ^ 64)).erase 0).erase fresh.toNat
  have hmaps : ∀ i ∈ Finset.range s.nextID.toNat, (f i).toNat ∈ addresses := by
    intro i hi
    obtain ⟨hne, hheap⟩ := h.owned _ _ (hf i (Finset.mem_range.mp hi))
    have hother : f i ≠ fresh := fun heq => hheap (heq ▸ hfresh)
    simp only [addresses, Finset.mem_erase, Finset.mem_range]
    exact ⟨fun heq => hother (UInt64.toNat_inj.mp heq), fun heq => hne (UInt64.toNat_inj.mp heq),
      (f i).toNat_lt⟩
  have hinj : Set.InjOn (fun i => (f i).toNat) (Finset.range s.nextID.toNat) := by
    intro i hi j hj heq
    have hi := Finset.mem_range.mp hi
    have hj := Finset.mem_range.mp hj
    have hsame : f i = f j := UInt64.toNat_inj.mp heq
    have hids := h.sole _ _ _ (hf i hi) (hsame ▸ hf j hj)
    have hnat := congrArg UInt64.toNat hids
    rw [UInt64.toNat_ofNat', UInt64.toNat_ofNat'] at hnat
    omega
  have hcard := Finset.card_le_card_of_injOn _ hmaps hinj
  have hpos : fresh.toNat ≠ 0 := fun heq => hzero (UInt64.toNat_inj.mp heq)
  have hfreshmem : fresh.toNat ∈ (Finset.range (2 ^ 64)).erase 0 :=
    Finset.mem_erase.mpr ⟨hpos, Finset.mem_range.mpr fresh.toNat_lt⟩
  rw [Finset.card_range, Finset.card_erase_of_mem hfreshmem,
    Finset.card_erase_of_mem (Finset.mem_range.mpr (by omega)), Finset.card_range] at hcard
  omega

private theorem Inv.new_spec (h : Inv s) (hstep : posetNew s fresh = some (s', r)) :
    ∃ id, r = .id id ∧ s.allPosets id = none ∧ fresh ≠ 0 ∧ s.heap fresh = none ∧
      s'.heap = Function.update s.heap fresh (some .empty) ∧
      s'.allPosets = Function.update s.allPosets id (some fresh) ∧
      (s.availableIDs = id :: s'.availableIDs ∧ s'.nextID = s.nextID ∨
        s.availableIDs = [] ∧ s'.availableIDs = [] ∧ id = s.nextID ∧
          s'.nextID.toNat = s.nextID.toNat + 1) := by
  rw [posetNew] at hstep
  split at hstep
  · cases hstep
  next huse =>
    rw [not_or, not_not] at huse
    obtain ⟨hzero, hfresh⟩ := huse
    cases hqueue : s.availableIDs with
    | cons id rest =>
        have hnone : s.allPosets id = none := h.dead id (by simp [hqueue])
        simp only [hqueue, hnone, Option.some_inj, Prod.mk.injEq] at hstep
        obtain ⟨rfl, rfl⟩ := hstep
        exact ⟨id, rfl, hnone, hzero, hfresh, rfl, rfl, .inl ⟨rfl, rfl⟩⟩
    | nil =>
        have hnone : s.allPosets s.nextID = none := by
          by_contra hsome
          exact absurd ((h.given s.nextID).mpr (.inl hsome)) (lt_irrefl _)
        have hlt := h.nextID_lt hqueue hzero hfresh
        have hsucc : (s.nextID + 1).toNat = s.nextID.toNat + 1 := by
          rw [UInt64.toNat_add, UInt64.toNat_one]
          omega
        simp only [hqueue, hnone, Option.some_inj, Prod.mk.injEq] at hstep
        obtain ⟨rfl, rfl⟩ := hstep
        exact ⟨s.nextID, rfl, hnone, hzero, hfresh, rfl, rfl, .inr ⟨rfl, rfl, rfl, hsucc⟩⟩

theorem inv_new (h : Inv s) (hstep : posetNew s fresh = some (s', r)) : Inv s' := by
  obtain ⟨id, -, hnone, hzero, hfresh, hheap, hmap, hqueue⟩ := h.new_spec hstep
  have hne (id' : PosetID) (a : Address) (ha : s.allPosets id' = some a) : a ≠ fresh :=
    fun heq => (h.owned id' a ha).2 (heq ▸ hfresh)
  refine ⟨fun id' a ha => ?_, fun id₁ id₂ a h₁ h₂ => ?_, ?_, fun id' hid' => ?_, fun id' => ?_⟩
  · rw [hmap, Function.update_apply] at ha
    rw [hheap, Function.update_apply]
    split at ha
    · obtain rfl := Option.some_inj.mp ha
      simp [hzero]
    · rw [if_neg (hne id' a ha)]
      exact h.owned id' a ha
  · rw [hmap, Function.update_apply] at h₁ h₂
    split at h₁ <;> split at h₂
    next heq₁ heq₂ => rw [heq₁, heq₂]
    next => exact absurd (Option.some_inj.mp h₁).symm (hne _ _ h₂)
    next => exact absurd (Option.some_inj.mp h₂).symm (hne _ _ h₁)
    next => exact h.sole _ _ _ h₁ h₂
  · rcases hqueue with ⟨hcons, -⟩ | ⟨-, hnil, -⟩
    · exact (hcons ▸ h.nodup).of_cons
    · rw [hnil]
      exact .nil
  · rcases hqueue with ⟨hcons, -⟩ | ⟨-, hnil, -⟩
    · have hother : id' ≠ id := fun heq =>
        (List.nodup_cons.mp (hcons ▸ h.nodup)).1 (heq ▸ hid')
      rw [hmap, Function.update_of_ne hother]
      exact h.dead id' (hcons ▸ List.mem_cons_of_mem _ hid')
    · rw [hnil] at hid'
      cases hid'
  · have hgiven := h.given id'
    rw [hmap, Function.update_apply]
    rcases hqueue with ⟨hcons, hnext⟩ | ⟨hempty, hnil, rfl, hnext⟩
    · rw [hcons, List.mem_cons] at hgiven
      rw [hnext, hgiven]
      split <;> simp_all
    · rw [hempty] at hgiven
      rw [hnext, hnil]
      split
      next heq => simp [heq]
      next hne =>
        have hnat : id'.toNat ≠ s.nextID.toNat := fun heq => hne (UInt64.toNat_inj.mp heq)
        rw [← hgiven]
        omega

private theorem inv_delete (h : Inv s) (id : PosetID) : Inv (posetDelete s id).1 := by
  rw [posetDelete]
  split
  next a ha =>
    have hnot : id ∉ s.availableIDs := fun hmem => by simp [h.dead id hmem] at ha
    refine ⟨fun id' a' ha' => ?_, fun id₁ id₂ a' h₁ h₂ => ?_, ?_, fun id' hid' => ?_, fun id' => ?_⟩
    · simp only [Function.update_apply] at ha' ⊢
      split at ha'
      · cases ha'
      next hne =>
        have hother : a' ≠ a := by
          rintro rfl
          exact hne (h.sole _ _ _ ha' ha)
        rw [if_neg hother]
        exact h.owned id' a' ha'
    · simp only [Function.update_apply] at h₁ h₂
      split at h₁ <;> split at h₂ <;> first | exact h.sole _ _ _ h₁ h₂ | simp_all
    · refine List.nodup_append.mpr ⟨h.nodup, List.nodup_singleton id, fun x hx y hy heq => ?_⟩
      rw [heq, List.mem_singleton.mp hy] at hx
      exact hnot hx
    · simp only [Function.update_apply]
      split
      · rfl
      next hne =>
        exact h.dead id' ((List.mem_append.mp hid').resolve_right (by simpa using hne))
    · have hgiven := h.given id'
      simp only [Function.update_apply, List.mem_append, List.mem_singleton]
      rw [hgiven]
      split <;> simp_all
  next => exact h

private theorem withPoset_cases {absent : Result} {op : Poset → Poset × Result}
    (hstep : withPoset s id absent op = some (s', r)) :
    s' = s ∧ s.allPosets id = none ∨ ∃ a p, s.allPosets id = some a ∧ s.heap a = some p ∧
      s' = { s with heap := Function.update s.heap a (some (op p).1) } := by
  rw [withPoset] at hstep
  split at hstep
  next hnone =>
    rw [Option.some_inj, Prod.mk.injEq] at hstep
    exact .inl ⟨hstep.1.symm, hnone⟩
  next a ha =>
    obtain ⟨p, hp, heq⟩ := Option.map_eq_some_iff.mp hstep
    exact .inr ⟨a, p, ha, hp, (Prod.mk.inj heq).1.symm⟩

private theorem inv_withPoset (h : Inv s) {absent : Result} {op : Poset → Poset × Result}
    (hstep : withPoset s id absent op = some (s', r)) : Inv s' := by
  rcases withPoset_cases hstep with ⟨rfl, -⟩ | ⟨a, p, -, -, rfl⟩
  · exact h
  · refine ⟨fun id' a' ha' => ⟨(h.owned id' a' ha').1, ?_⟩, h.sole, h.nodup, h.dead, h.given⟩
    simp only [Function.update_apply]
    split
    · nofun
    · exact (h.owned id' a' ha').2

private theorem poset_withPoset (h : Inv s) {absent : Result} {op : Poset → Poset × Result}
    (hstep : withPoset s id absent op = some (s', r)) (hne : id' ≠ id) :
    s'.poset id' = s.poset id' := by
  rcases withPoset_cases hstep with ⟨rfl, -⟩ | ⟨a, p, ha, -, rfl⟩
  · rfl
  · cases ha' : s.allPosets id' with
    | none => simp [State.poset, ha']
    | some a' =>
        have hother : a' ≠ a := fun heq => hne (h.sole _ _ _ ha' (heq ▸ ha))
        simp [State.poset, ha', hother]

def about : Call → Result → Option PosetID
  | .new, .id id => some id
  | .new, _ => none
  | .delete id, _ | .size id, _ | .insert id _, _ | .remove id _, _ | .add id _ _, _
  | .del id _ _, _ | .test id _ _, _ | .clear id, _ => some id

theorem step_cases (hstep : step s e = some (s', r)) :
    e.call = .new ∧ posetNew s e.fresh = some (s', r) ∨
      ∃ id, about e.call r = some id ∧ e.call ≠ .new ∧ (s' = (posetDelete s id).1 ∨ s' = s ∨
        ∃ absent op, withPoset s id absent op = some (s', r)) := by
  rw [step] at hstep
  cases hcall : e.call with
  | new => exact .inl ⟨rfl, by simpa [hcall] using hstep⟩
  | delete id =>
      simp only [hcall, Option.some_inj] at hstep
      exact .inr ⟨id, rfl, nofun, .inl (congrArg Prod.fst hstep).symm⟩
  | size id | clear id =>
      simp only [hcall] at hstep
      exact .inr ⟨id, rfl, nofun, .inr (.inr ⟨_, _, hstep⟩)⟩
  | insert id value | remove id value =>
      simp only [hcall, withElem] at hstep
      refine .inr ⟨id, rfl, nofun, .inr ?_⟩
      split at hstep
      · exact .inl (congrArg Prod.fst (Option.some_inj.mp hstep)).symm
      · exact .inr ⟨_, _, hstep⟩
  | add id value1 value2 | del id value1 value2 | test id value1 value2 =>
      simp only [hcall, withPair] at hstep
      refine .inr ⟨id, rfl, nofun, .inr ?_⟩
      split at hstep
      · exact .inr ⟨_, _, hstep⟩
      · exact .inl (congrArg Prod.fst (Option.some_inj.mp hstep)).symm

theorem inv_step (h : Inv s) (hstep : step s e = some (s', r)) : Inv s' := by
  rcases step_cases hstep with ⟨-, hnew⟩ | ⟨id, -, -, rfl | rfl | ⟨absent, op, hwith⟩⟩
  · exact inv_new h hnew
  · exact inv_delete h id
  · exact h
  · exact inv_withPoset h hwith

private theorem poset_step (h : Inv s) (hstep : step s e = some (s', r))
    (hid : about e.call r ≠ some id') :
    s'.poset id' = s.poset id' := by
  rcases step_cases hstep with ⟨hcall, hnew⟩ | ⟨id, habout, -, rfl | rfl | ⟨absent, op, hwith⟩⟩
  · obtain ⟨id, rfl, -, -, hfresh, hheap, hmap, -⟩ := h.new_spec hnew
    have hne : id' ≠ id := fun heq => hid (by simp [hcall, about, heq])
    rw [State.poset, State.poset, hmap, Function.update_of_ne hne]
    cases ha : s.allPosets id' with
    | none => rfl
    | some a =>
        have hother : a ≠ e.fresh := fun heq => (h.owned id' a ha).2 (heq ▸ hfresh)
        simp [hheap, hother]
  · have hne : id' ≠ id := fun heq => hid (heq ▸ habout)
    rw [posetDelete]
    split
    next a ha =>
      cases ha' : s.allPosets id' with
      | none => simp [State.poset, hne, ha']
      | some a' =>
          have hother : a' ≠ a := fun heq => hne (h.sole _ _ _ ha' (heq ▸ ha))
          simp [State.poset, hne, ha', hother]
    next => rfl
  · rfl
  · exact poset_withPoset h hwith fun heq => hid (heq ▸ habout)

private theorem nextID_step (h : Inv s) (hstep : step s e = some (s', r)) :
    s.nextID.toNat ≤ s'.nextID.toNat := by
  rcases step_cases hstep with ⟨-, hnew⟩ | ⟨id, -, -, rfl | rfl | ⟨absent, op, hwith⟩⟩
  · obtain ⟨id, -, -, -, -, -, -, ⟨-, hnext⟩ | ⟨-, -, -, hnext⟩⟩ := h.new_spec hnew
    · rw [hnext]
    · omega
  · rw [posetDelete]
    split <;> exact le_rfl
  · exact le_rfl
  · rcases withPoset_cases hwith with ⟨rfl, -⟩ | ⟨a, p, -, -, rfl⟩ <;> exact le_rfl

private theorem withPoset_isSome (h : Inv s) (id : PosetID) (absent : Result)
    (op : Poset → Poset × Result) : (withPoset s id absent op).isSome := by
  rw [withPoset]
  split
  · rfl
  next a ha =>
    obtain ⟨p, hp⟩ := Option.ne_none_iff_exists'.mp (h.owned id a ha).2
    simp [hp]

theorem step_isSome (h : Inv s) (hcall : e.call = .new → e.fresh ≠ 0 ∧ s.heap e.fresh = none) :
    (step s e).isSome := by
  rw [step]
  cases hkind : e.call with
  | new =>
      obtain ⟨hzero, hfresh⟩ := hcall hkind
      simp only [posetNew]
      rw [if_neg (by simp [hzero, hfresh])]
      split <;> split <;> rfl
  | delete id => rfl
  | size id | clear id => exact withPoset_isSome h _ _ _
  | insert id value | remove id value =>
      simp only [withElem]
      split
      · rfl
      · exact withPoset_isSome h _ _ _
  | add id value1 value2 | del id value1 value2 | test id value1 value2 =>
      simp only [withPair]
      split
      · exact withPoset_isSome h _ _ _
      · rfl

/-! ## The map that holds the posets themselves -/

private theorem abs_assign {p : Poset} (hframe : ∀ id' ≠ id, s'.poset id' = s.poset id')
    (hid : s'.poset id = some p) (hqueue : s'.availableIDs = s.availableIDs)
    (hnext : s'.nextID = s.nextID) : s'.abs = s.abs.assign id p := by
  have hposets : s'.poset = Function.update s.poset id (some p) := by
    funext id'
    rw [Function.update_apply]
    split
    next heq => rw [heq, hid]
    next hne => exact hframe id' hne
  rw [State.abs, hposets, hqueue, hnext]
  rfl

private theorem abs_withPoset (h : Inv s) {absent : Result} {op : Poset → Poset × Result}
    (hstep : withPoset s id absent op = some (s', r)) :
    match s.poset id with
    | none => s'.abs = s.abs ∧ r = absent
    | some p => s'.abs = s.abs.assign id (op p).1 ∧ r = (op p).2 := by
  have hframe (id' : PosetID) (hne : id' ≠ id) := poset_withPoset h hstep hne
  rw [withPoset] at hstep
  split at hstep
  next hnone =>
    obtain ⟨rfl, rfl⟩ := Prod.mk.inj (Option.some_inj.mp hstep)
    simp [h.poset_eq_none.mpr hnone]
  next a ha =>
    obtain ⟨p, hp, heq⟩ := Option.map_eq_some_iff.mp hstep
    obtain ⟨rfl, rfl⟩ := Prod.mk.inj heq
    have hposet : s.poset id = some p := by simp [State.poset, ha, hp]
    simp only [hposet, and_true]
    exact abs_assign hframe (by simp [State.poset, ha]) rfl rfl

private theorem abs_withElem (h : Inv s) {op : Poset → PosetElem → Poset × Bool}
    {value : Option PosetElem} (hstep : withElem op s id value = some (s', r)) :
    Posets.withElem op s.abs id value = (s'.abs, r) := by
  have hmap : s.abs.allPosets id = s.poset id := rfl
  cases value with
  | none =>
      obtain ⟨rfl, rfl⟩ := Prod.mk.inj (Option.some_inj.mp hstep)
      rfl
  | some value =>
      have habs := abs_withPoset h hstep
      cases hposet : s.poset id <;> simp only [Posets.withElem, hmap, hposet] at habs ⊢ <;>
        exact Prod.ext habs.1.symm habs.2.symm

private theorem abs_withPair (h : Inv s) {op : Poset → PosetElem → PosetElem → Poset × Bool}
    {value1 value2 : Option PosetElem} (hstep : withPair op s id value1 value2 = some (s', r)) :
    Posets.withPair op s.abs id value1 value2 = (s'.abs, r) := by
  have hmap : s.abs.allPosets id = s.poset id := rfl
  cases value1 <;> cases value2
  case some.some value1 value2 =>
    have habs := abs_withPoset h hstep
    cases hposet : s.poset id <;> simp only [Posets.withPair, hmap, hposet] at habs ⊢ <;>
      exact Prod.ext habs.1.symm habs.2.symm
  all_goals
    obtain ⟨rfl, rfl⟩ := Prod.mk.inj (Option.some_inj.mp hstep)
    rfl

private theorem abs_new (h : Inv s) (hstep : posetNew s fresh = some (s', r)) :
    Posets.posetNew s.abs = (s'.abs, r) := by
  have hposet (id' : PosetID) (hne : r ≠ .id id') : s'.poset id' = s.poset id' :=
    poset_step (e := ⟨.new, fresh⟩) h hstep fun habout => hne (by
      cases r <;> simp_all [about])
  obtain ⟨id, rfl, hnone, hzero, hfresh, hheap, hmap, hqueue⟩ := h.new_spec hstep
  have hdead : s.poset id = none := h.poset_eq_none.mpr hnone
  have hposets : s'.poset = Function.update s.poset id (some .empty) := by
    funext id'
    rw [Function.update_apply]
    split
    next heq => simp [State.poset, heq, hmap, hheap]
    next hne => exact hposet id' fun heq => hne (by simpa using heq.symm)
  rw [State.abs, State.abs, hposets, Posets.posetNew]
  rcases hqueue with ⟨hcons, hnext⟩ | ⟨hempty, hnil, rfl, hnext⟩
  · rw [hnext]
    simp only [hcons, State.insertNew, hdead, Posets.State.assign]
  · have hsucc : s'.nextID = s.nextID + 1 := by
      have hlt := h.nextID_lt hempty hzero hfresh
      apply UInt64.toNat_inj.mp
      rw [hnext, UInt64.toNat_add, UInt64.toNat_one]
      omega
    simp only [hempty, hnil, State.insertNew, hdead, Posets.State.assign, hsucc]

theorem assign_self {t : Posets.State} {p : Poset} (hp : t.allPosets id = some p) :
    t.assign id p = t := by
  rw [Posets.State.assign, ← hp, Function.update_eq_self]

private theorem abs_delete (h : Inv s) (id : PosetID) :
    Posets.posetDelete s.abs id = ((posetDelete s id).1.abs, (posetDelete s id).2) := by
  have hmap : s.abs.allPosets id = s.poset id := rfl
  have hframe (id' : PosetID) (hne : id' ≠ id) :
      (posetDelete s id).1.poset id' = s.poset id' :=
    poset_step (e := ⟨.delete id, 0⟩) h rfl fun habout => hne (Option.some_inj.mp habout).symm
  rw [Posets.posetDelete, hmap]
  rw [posetDelete] at hframe ⊢
  cases ha : s.allPosets id with
  | none => simp [h.poset_eq_none.mpr ha]
  | some a =>
      obtain ⟨p, hp⟩ := Option.ne_none_iff_exists'.mp (h.owned id a ha).2
      have hposet : s.poset id = some p := by simp [State.poset, ha, hp]
      simp only [ha] at hframe
      simp only [hposet, State.abs, Prod.mk.injEq, Posets.State.mk.injEq, and_true]
      funext id'
      rw [Function.update_apply]
      split
      next heq => simp [State.poset, heq]
      next hne => exact (hframe id' hne).symm

/-- The module with pointers is the module whose map holds the posets. -/
private theorem abs_step (h : Inv s) (hstep : step s e = some (s', r)) :
    Posets.step s.abs e.call = (s'.abs, r) := by
  have hmap (id : PosetID) : s.abs.allPosets id = s.poset id := rfl
  rw [step] at hstep
  cases hcall : e.call with
  | new =>
      simp only [hcall] at hstep
      exact abs_new h hstep
  | delete id =>
      simp only [hcall, Option.some_inj] at hstep
      have habs := abs_delete h id
      rw [hstep] at habs
      exact habs
  | size id =>
      simp only [hcall] at hstep
      have habs := abs_withPoset h hstep
      rw [Posets.step, Posets.posetSize, hmap]
      cases hposet : s.poset id with
      | none =>
          rw [hposet] at habs
          exact Prod.ext habs.1.symm habs.2.symm
      | some p =>
          simp only [hposet, assign_self ((hmap id).trans hposet)] at habs
          exact Prod.ext habs.1.symm habs.2.symm
  | clear id =>
      simp only [hcall] at hstep
      have habs := abs_withPoset h hstep
      rw [Posets.step, Posets.posetClear, hmap]
      cases hposet : s.poset id <;> rw [hposet] at habs <;>
        exact Prod.ext habs.1.symm habs.2.symm
  | insert id value | remove id value =>
      simp only [hcall] at hstep
      have habs := abs_withElem h hstep
      exact habs
  | add id value1 value2 | del id value1 value2 =>
      simp only [hcall] at hstep
      have habs := abs_withPair h hstep
      exact habs
  | test id value1 value2 =>
      simp only [hcall] at hstep
      have habs := abs_withPair h hstep
      rw [← habs]
      cases value1 <;> cases value2
      case some.some value1 value2 =>
        simp only [Posets.step, Posets.posetTest, Posets.withPair]
        cases hposet : s.abs.allPosets id with
        | none => rfl
        | some p => simp only [assign_self hposet]
      all_goals rfl

end Steps

/-! ## Histories -/

section Histories

variable {s s' : State} {e : Event} {id : PosetID} {r : Result} {history : List Event}

theorem inv_run (hrun : run next .initial history = some s) : Inv s := by
  refine guarded_run_invariant (G := fun _ _ => True) (fun s e s' h _ hnext => ?_) inv_initial
    (meets_of_forall (fun _ _ => trivial) _ _) hrun
  obtain ⟨⟨s', r⟩, hstep, rfl⟩ := Option.map_eq_some_iff.mp hnext
  exact inv_step h hstep

/-- A history with pointers is a history of the module, with the same state in the end. -/
theorem abs_run (hrun : run next .initial history = some s) :
    s.abs = after (history.map Event.call) := by
  induction history using List.reverseRecOn generalizing s with
  | nil =>
      obtain rfl := Option.some_inj.mp hrun
      rfl
  | append_singleton history e ih =>
      obtain ⟨t, hbefore, hlast⟩ := run_append.mp hrun
      obtain ⟨t', hnext, hend⟩ := run_cons.mp hlast
      obtain rfl := Option.some_inj.mp hend
      obtain ⟨⟨t', r⟩, hstep, rfl⟩ := Option.map_eq_some_iff.mp hnext
      rw [List.map_append, List.map_singleton, after, calls_concat]
      rw [after] at ih
      rw [← ih hbefore, abs_step (inv_run hbefore) hstep]

/-- Some call of the history returned the identifier. -/
def HandedOut (history : List Event) (id : PosetID) : Prop :=
  ∃ before e t t', before ++ [e] <+: history ∧ run next .initial before = some t ∧
    step t e = some (t', .id id)

private theorem nextID_run {rest : List Event} (h : Inv s) (hrun : run next s rest = some s') :
    s.nextID.toNat ≤ s'.nextID.toNat := by
  refine (guarded_run_invariant (I := fun t => Inv t ∧ s.nextID.toNat ≤ t.nextID.toNat)
    (G := fun _ _ => True) (fun t e t' ht _ hnext => ?_) ⟨h, le_rfl⟩
    (meets_of_forall (fun _ _ => trivial) _ _) hrun).2
  obtain ⟨⟨t', r⟩, hstep, rfl⟩ := Option.map_eq_some_iff.mp hnext
  exact ⟨inv_step ht.1 hstep, ht.2.trans (nextID_step ht.1 hstep)⟩

private theorem new_of_id {t t' : Posets.State} {call : Call}
    (h : Posets.step t call = (t', .id id)) :
    call = .new := by
  cases call with
  | new => rfl
  | delete id' | size id' | clear id' =>
      simp only [Posets.step, Posets.posetDelete, Posets.posetSize, Posets.posetClear] at h
      split at h <;> cases h
  | insert id' value | remove id' value =>
      simp only [Posets.step, posetInsert, posetRemove, Posets.withElem] at h
      split at h <;> cases h
  | add id' value1 value2 | del id' value1 value2 | test id' value1 value2 =>
      simp only [Posets.step, posetAdd, posetDel, posetTest, Posets.withPair] at h
      split at h <;> cases h

/-- The counter has passed what was handed out. -/
private theorem lt_nextID_of_handedOut (hrun : run next .initial history = some s)
    (h : HandedOut history id) : id.toNat < s.nextID.toNat := by
  obtain ⟨before, e, t, t', ⟨rest, rfl⟩, hbefore, hstep⟩ := h
  have hinv := inv_run hbefore
  obtain ⟨u, hu, hrest⟩ := run_append.mp hrun
  obtain ⟨u', hu', hlast⟩ := run_append.mp hu
  obtain rfl := Option.some_inj.mp (hbefore.symm.trans hu')
  obtain ⟨v, hv, hend⟩ := run_cons.mp hlast
  obtain rfl := Option.some_inj.mp hend
  obtain rfl : t' = v := Option.some_inj.mp ((congrArg (Option.map Prod.fst) hstep).symm.trans hv)
  have hinv' := inv_step hinv hstep
  have hcall := new_of_id (abs_step hinv hstep)
  rw [step] at hstep
  simp only [hcall] at hstep
  obtain ⟨id', heq, -, -, -, -, hmap, -⟩ := hinv.new_spec hstep
  obtain rfl : id = id' := by simpa using heq
  have hlive : t'.allPosets id ≠ none := by simp [hmap]
  exact ((hinv'.given id).mpr (.inl hlive)).trans_le (nextID_run hinv' hrest)

/-- After any history `poset_new` returns the identifier of no live poset, every identifier that was
handed out is live or, once, in the queue, and a call changes no poset but the one it is about. -/
theorem identifiers_apart (hrun : run next .initial history = some s) :
    (∀ e s' id, e.call = .new → step s e = some (s', .id id) → s.poset id = none) ∧
      (∀ id, HandedOut history id →
        s.poset id ≠ none ∧ id ∉ s.availableIDs ∨
          s.poset id = none ∧ s.availableIDs.count id = 1) ∧
      ∀ e s' r, step s e = some (s', r) → ∀ id, about e.call r ≠ some id →
        s'.poset id = s.poset id := by
  have hinv := inv_run hrun
  refine ⟨fun e s' id hcall hstep => ?_, fun id hid => ?_, fun e s' r hstep id hid =>
    poset_step hinv hstep hid⟩
  · rw [step] at hstep
    simp only [hcall] at hstep
    obtain ⟨id', heq, hnone, -⟩ := hinv.new_spec hstep
    obtain rfl : id = id' := by simpa using heq
    exact hinv.poset_eq_none.mpr hnone
  · rw [ne_eq, hinv.poset_eq_none]
    rcases (hinv.given id).mp (lt_nextID_of_handedOut hrun hid) with hlive | hqueue
    · exact .inl ⟨hlive, fun hmem => hlive (hinv.dead id hmem)⟩
    · exact .inr ⟨hinv.dead id hqueue, List.count_eq_one_of_mem hinv.nodup hqueue⟩

def reused : List Event := [⟨.new, 16⟩, ⟨.delete 0, 16⟩, ⟨.new, 16⟩]

theorem identifiers_apart_reused :
    ∃ s, run next .initial reused = some s ∧ s.poset 0 = some .empty ∧
      ∀ e s' r, step s e = some (s', r) → ∀ id, about e.call r ≠ some id →
        s'.poset id = s.poset id := by
  have hposet : (run next .initial reused).bind (·.poset 0) = some .empty := by decide
  obtain ⟨s, hrun, hs⟩ := Option.bind_eq_some_iff.mp hposet
  exact ⟨s, hrun, hs, (identifiers_apart hrun).2.2⟩

end Histories

end Owned

end Mimuw.Posets
