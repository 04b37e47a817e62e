import Mimuw.Parking.Ledger

/-!
# What the meter keeps

An entry is of use while a check for its plate can still find it. One that lasts to
8.00 exactly is not removed on the day it ends, once a line has come at 8.00.
-/

namespace Mimuw.Parking

/-- A check for the plate, at the present time or later, is answered `YES` because of the entry:
the meter that has no other entry finds it. A time before the last one is on the next day. -/
def Entry.Useful (entry : Entry) (lastCheckedHour : Hour) : Prop :=
  ∃ time, openingTimeMin ≤ time ∧ time ≤ closingTimeMin ∧
    ((Meter.mk [entry] lastCheckedHour).advance time).isPaid entry.licensePlate time = true

/-- The clock has shown this day and this time. -/
def Shown (lines : List Str) (clock : Clock) : Prop :=
  ∃ before after, lines = before ++ after ∧ clockAfter before = clock

/-- There is a payment that ended at 8.00 of this day, a line came at 8.00, and it is later now. -/
def Overstayed (lines : List Str) : Prop :=
  ∃ paid, Recorded lines paid ∧ paid.parkingEnd = openingTimeMin ∧
    paid.parkingEnd < paid.parkingStart ∧ (clockAfter lines).day = paid.day + 1 ∧
    Shown lines ⟨(clockAfter lines).day, some openingTimeMin⟩ ∧
    ∃ time ∈ (clockAfter lines).time, openingTimeMin < time

section Steps

variable {lines : List Str} {line : Str} {clock : Clock} {entry : Entry} {last : Hour}

private theorem shown_concat : Shown (lines ++ [line]) clock ↔
    Shown lines clock ∨ clockAfter (lines ++ [line]) = clock := by
  constructor
  · rintro ⟨before, after, heq, hclock⟩
    rcases List.eq_nil_or_concat after with rfl | ⟨after, l, rfl⟩
    · right
      rw [heq, List.append_nil]
      exact hclock
    · left
      rw [List.concat_eq_append, ← List.append_assoc] at heq
      exact ⟨before, after, (List.append_inj' heq rfl).1, hclock⟩
  · rintro (⟨before, after, rfl, hclock⟩ | hclock)
    · exact ⟨before, after ++ [line], by simp, hclock⟩
    · exact ⟨lines ++ [line], [], by simp, hclock⟩

private theorem useful_of_long (hopen : openingTimeMin ≤ last) (hclosed : last ≤ closingTimeMin)
    (hstart : entry.parkingStart ≤ last) (h : entry.parkingEnd < entry.parkingStart) :
    entry.Useful last := by
  refine ⟨last, hopen, hclosed, ?_⟩
  have hkept : ¬ entry.parkingStart < entry.parkingEnd := not_lt.mpr h.le
  simp [Meter.advance, deleteCarsFromData, checkIfNewDay, Meter.isPaid, hkept, not_le.mpr h, hstart]

private theorem useful_of_le (hopen : openingTimeMin ≤ last) (hclosed : last ≤ closingTimeMin)
    (hend : last ≤ entry.parkingEnd) (h : entry.parkingStart ≤ entry.parkingEnd) :
    entry.Useful last := by
  refine ⟨last, hopen, hclosed, ?_⟩
  simp [Meter.advance, deleteCarsFromData, checkIfNewDay, Meter.isPaid, not_lt.mpr hend, h, hend]

private theorem not_useful (hend : entry.parkingEnd < last)
    (h : entry.parkingStart ≤ entry.parkingEnd) :
    ¬ entry.Useful last := by
  rintro ⟨time, -, -, hpaid⟩
  rw [isPaid_eq_true] at hpaid
  obtain ⟨kept, hkept, -, hcovers⟩ := hpaid
  unfold Meter.advance deleteCarsFromData checkIfNewDay at hkept
  split at hkept
  · simp [Entry.nextDay, h] at hkept
  next hday =>
    have hsame : last ≤ time := by simpa using hday
    obtain rfl : kept = entry := by simpa using (List.mem_of_mem_filter hkept)
    rw [if_pos h] at hcovers
    exact absurd (hend.trans_le hsame) (not_lt.mpr hcovers)

/-- What is kept, beside what the entries stand for. -/
structure Keeps (meter : Meter) (clock : Clock) (recorded : Paid → Prop) (shown : Clock → Prop) :
    Prop where
  idle : clock.time = none → meter.parking = []
  hours : ∀ time ∈ clock.time, openingTimeMin ≤ time ∧ time ≤ closingTimeMin
  past : ∀ c, shown c → c.day ≤ clock.day
  current : ∀ entry ∈ meter.parking, entry.parkingStart < entry.parkingEnd →
    meter.lastCheckedHour ≤ entry.parkingEnd
  /-- an entry that begins when it ends has been rewritten at 8.00 of this day -/
  rewritten : ∀ entry ∈ meter.parking, entry.parkingStart = entry.parkingEnd →
    shown ⟨clock.day, some openingTimeMin⟩
  /-- and stays -/
  stays : ∀ paid, recorded paid → paid.parkingEnd = openingTimeMin →
    paid.parkingEnd < paid.parkingStart → clock.day = paid.day + 1 →
    shown ⟨clock.day, some openingTimeMin⟩ →
    ∃ entry ∈ meter.parking, entry.parkingStart = openingTimeMin ∧ entry.parkingEnd = openingTimeMin

variable {meter : Meter} {recorded : Paid → Prop} {shown : Clock → Prop} {time : Hour}

private theorem keeps_new : Keeps .new ⟨0, none⟩ (fun _ => False) (· = ⟨0, none⟩) where
  idle _ := rfl
  hours := by simp
  past := by simp
  current := by simp [Meter.new]
  rewritten := by simp [Meter.new]
  stays := by simp

/-- At 8.00 of the day after, the entry of a payment to 8.00 is there. -/
private theorem Inv.entry_at_opening (h : Inv meter clock recorded)
    (htime : meter.lastCheckedHour = openingTimeMin) {paid : Paid} (hpaid : recorded paid)
    (hend : paid.parkingEnd = openingTimeMin) (hlong : paid.parkingEnd < paid.parkingStart)
    (hday : clock.day = paid.day + 1) : ∃ entry ∈ meter.parking,
      entry.parkingStart = openingTimeMin ∧ entry.parkingEnd = openingTimeMin := by
  have hcovers : paid.Covers clock.day meter.lastCheckedHour :=
    .inr ⟨hday, hlong, by rw [htime, hend]⟩
  obtain ⟨entry, hentry, -, hendEntry, hstart⟩ := h.covered paid hpaid hcovers
  refine ⟨entry, hentry, ?_, hendEntry.trans hend⟩
  rcases hstart with ⟨htoday, -⟩ | ⟨-, -, hstart⟩
  · omega
  · exact hstart

theorem Keeps.advance_newDay (h : Keeps meter clock recorded shown)
    (hopen : openingTimeMin ≤ time) (hclosed : time ≤ closingTimeMin)
    (hinv : Inv ⟨meter.parking.filterMap (Entry.nextDay time), time⟩
      ⟨clock.day + 1, some time⟩ recorded) :
    Keeps ⟨meter.parking.filterMap (Entry.nextDay time), time⟩ ⟨clock.day + 1, some time⟩ recorded
      (fun c => shown c ∨ ⟨clock.day + 1, some time⟩ = c) := by
  have hnext : ∀ entry ∈ meter.parking.filterMap (Entry.nextDay time),
      entry.parkingStart = openingTimeMin ∧ time ≤ entry.parkingEnd := by
    intro entry hentry
    obtain ⟨old, -, hnext⟩ := List.mem_filterMap.mp hentry
    unfold Entry.nextDay at hnext
    split_ifs at hnext with hshort hover
    obtain rfl := Option.some.inj hnext
    exact ⟨rfl, not_lt.mp hover⟩
  constructor
  · simp
  · rintro _ ⟨⟩
    exact ⟨hopen, hclosed⟩
  · rintro c (hshown | rfl)
    · exact Nat.le_succ_of_le (h.past c hshown)
    · exact le_rfl
  · intro entry hentry _
    exact (hnext entry hentry).2
  · intro entry hentry heq
    right
    obtain ⟨hstart, hend⟩ := hnext entry hentry
    rw [← heq, hstart] at hend
    rw [le_antisymm hend hopen]
  · rintro paid hpaid hend hlong hday (hshown | heq)
    · exact absurd (h.past _ hshown) (by simp)
    · have htime : time = openingTimeMin := by simpa using heq
      exact hinv.entry_at_opening htime hpaid hend hlong hday

theorem Keeps.advance_sameDay (h : Keeps meter clock recorded shown)
    (hopen : openingTimeMin ≤ time) (hclosed : time ≤ closingTimeMin)
    (hinv : Inv ⟨meter.parking.filter fun entry =>
      !(entry.parkingStart < entry.parkingEnd && entry.parkingEnd < time), time⟩
      ⟨clock.day, some time⟩ recorded) :
    Keeps ⟨meter.parking.filter fun entry =>
      !(entry.parkingStart < entry.parkingEnd && entry.parkingEnd < time), time⟩
      ⟨clock.day, some time⟩ recorded (fun c => shown c ∨ ⟨clock.day, some time⟩ = c) := by
  constructor
  · simp
  · rintro _ ⟨⟩
    exact ⟨hopen, hclosed⟩
  · rintro c (hshown | rfl)
    · exact h.past c hshown
    · exact le_rfl
  · intro entry hentry hshort
    have hkept := (List.mem_filter.mp hentry).2
    simpa [hshort] using hkept
  · intro entry hentry heq
    exact .inl (h.rewritten entry (List.mem_of_mem_filter hentry) heq)
  · rintro paid hpaid hend hlong hday (hshown | heq)
    · obtain ⟨entry, hentry, hstart, hendEntry⟩ := h.stays paid hpaid hend hlong hday hshown
      exact ⟨entry, List.mem_filter.mpr ⟨hentry, by simp [hstart, hendEntry]⟩, hstart, hendEntry⟩
    · have htime : time = openingTimeMin := by simpa using heq
      exact hinv.entry_at_opening htime hpaid hend hlong hday

theorem Keeps.advance (h : Keeps meter clock recorded shown) (hinv : Inv meter clock recorded)
    (hopen : openingTimeMin ≤ time) (hclosed : time ≤ closingTimeMin) :
    Keeps (meter.advance time) (clock.next time) recorded
      (fun c => shown c ∨ clock.next time = c) := by
  have hnext := hinv.advance hopen
  unfold Meter.advance Clock.next deleteCarsFromData checkIfNewDay at *
  rw [if_congr (hinv.newDay_iff hopen) rfl rfl] at *
  by_cases hnew : time < meter.lastCheckedHour
  · rw [if_pos hnew, if_pos (decide_eq_true hnew)] at *
    exact h.advance_newDay hopen hclosed hnext
  · rw [if_neg hnew, if_neg (by simpa using hnew)] at *
    exact h.advance_sameDay hopen hclosed hnext

theorem Keeps.add (h : Keeps meter clock recorded shown) (paid : Paid)
    (hclock : clock.time = some meter.lastCheckedHour) (hday : paid.day = clock.day)
    (hstart : paid.parkingStart = meter.lastCheckedHour)
    (hne : paid.parkingStart ≠ paid.parkingEnd) :
    Keeps { meter with parking := meter.parking ++
      [⟨paid.licensePlate, paid.parkingStart, paid.parkingEnd⟩] } clock
      (fun p => recorded p ∨ p = paid) shown := by
  constructor
  · simp [hclock]
  · exact h.hours
  · exact h.past
  · intro entry hentry hshort
    rcases List.mem_append.mp hentry with hentry | hentry
    · exact h.current entry hentry hshort
    · obtain rfl := List.mem_singleton.mp hentry
      exact hstart ▸ hshort.le
  · intro entry hentry heq
    rcases List.mem_append.mp hentry with hentry | hentry
    · exact h.rewritten entry hentry heq
    · obtain rfl := List.mem_singleton.mp hentry
      exact absurd heq hne
  · rintro p (hp | rfl) hend hlong hdayp hshown
    · obtain ⟨entry, hentry, hstays⟩ := h.stays p hp hend hlong hdayp hshown
      exact ⟨entry, List.mem_append_left _ hentry, hstays⟩
    · omega

end Steps

/-! ## Runs -/

section Runs

variable {lines : List Str} {line : Str}

private theorem lineTime_le_closing (h : verdict lines line ≠ .error) :
    lineTime line ≤ closingTimeMin := by
  rw [lineTime]
  split
  next hpay =>
    obtain ⟨p, -, first, hfirst, second, -, hparse⟩ := parse_of_validatePaymentLine hpay
    rw [hparse]
    exact (open_of_time hfirst).2
  next hpay =>
    cases hcheck : validateCheckingLine line with
    | true =>
        obtain ⟨p, -, date, hdate, hparse⟩ := parse_of_validateCheckingLine hcheck
        rw [hparse]
        exact (open_of_time hdate).2
    | false =>
        refine absurd ?_ h
        simp [verdict, Meter.readLine, hpay, hcheck]

private theorem shown_nil : Shown [] = (· = ⟨0, none⟩) := by
  funext clock
  rw [eq_iff_iff]
  constructor
  · rintro ⟨before, after, heq, rfl⟩
    obtain ⟨rfl, -⟩ := List.append_eq_nil_iff.mp heq.symm
    rfl
  · rintro rfl
    exact ⟨[], [], rfl, rfl⟩

private theorem keeps_meterAfter (lines : List Str) :
    Keeps (meterAfter lines) (clockAfter lines) (Recorded lines) (Shown lines) := by
  induction lines using List.reverseRecOn with
  | nil =>
      rw [recorded_nil, shown_nil]
      exact keeps_new
  | append_singleton lines line ih =>
      have hinv := inv_meterAfter lines
      have hclock := clockAfter_concat lines line
      have hshown : Shown (lines ++ [line]) = fun c =>
          Shown lines c ∨ clockAfter (lines ++ [line]) = c := funext fun c => propext shown_concat
      rw [meterAfter_concat]
      rcases readLine_cases (meterAfter lines) line with
        ⟨first, second, plate, hpay, -, hparse, hfirst, -, hne, hread⟩ |
        ⟨plate, time, hpay, -, hparse, htime, hread⟩ | ⟨-, hread⟩
      · have hok : verdict lines line = .ok := congrArg Prod.fst hread
        have htime : lineTime line = first := by rw [lineTime, if_pos hpay, hparse]
        have hfine : verdict lines line ≠ .error := by simp [hok]
        have hclosed : first ≤ closingTimeMin := htime ▸ lineTime_le_closing hfine
        rw [hok, if_neg (by simp), htime] at hclock
        have hpaid : paidBy lines line =
            ⟨plate, ((clockAfter lines).next first).day, first, second⟩ := by
          rw [paidBy, hparse, hclock]
        rw [recorded_of_ok hok, hread, hshown, hclock, hpaid]
        exact (ih.advance hinv hfirst hclosed).add ⟨plate, _, first, second⟩ rfl rfl rfl hne
      · have hverdict : verdict lines line =
            if ((meterAfter lines).advance time).isPaid plate time then .yes else .no :=
          congrArg Prod.fst hread
        have hok : verdict lines line ≠ .ok ∧ verdict lines line ≠ .error := by
          rw [hverdict]
          split <;> simp
        have htimeEq : lineTime line = time := by
          rw [lineTime, if_neg (by simp [hpay]), hparse]
        have hclosed : time ≤ closingTimeMin := htimeEq ▸ lineTime_le_closing hok.2
        rw [if_neg hok.2, htimeEq] at hclock
        rw [recorded_of_ne hok.1, hread, hshown, hclock]
        exact ih.advance hinv htime hclosed
      · have herror : verdict lines line = .error := congrArg Prod.fst hread
        rw [if_pos herror] at hclock
        have hsame : Shown (lines ++ [line]) = Shown lines := by
          rw [hshown, hclock]
          funext c
          rw [eq_iff_iff, or_iff_left_iff_imp]
          rintro rfl
          exact ⟨lines, [], by simp, rfl⟩
        rw [recorded_of_ne (by rw [herror]; simp), hread, hsame, hclock]
        exact ih

end Runs

/-- After some lines, every entry is still of use exactly when no payment overstayed. -/
theorem entries_useful_iff (lines : List Str) :
    (∀ entry ∈ (meterAfter lines).parking, entry.Useful (meterAfter lines).lastCheckedHour) ↔
      ¬ Overstayed lines := by
  have hinv := inv_meterAfter lines
  have hkeeps := keeps_meterAfter lines
  constructor
  · rintro huseful ⟨paid, hpaid, hend, hlong, hday, hshown, time, htime, hlater⟩
    obtain ⟨entry, hentry, hstart, hendEntry⟩ :=
      hkeeps.stays paid hpaid hend hlong hday hshown
    have hlast : (meterAfter lines).lastCheckedHour = time := by
      rcases hinv.clock_eq with ⟨hnone, -⟩ | hsome
      · simp [hnone] at htime
      · simpa [hsome] using htime
    apply not_useful _ _ (huseful entry hentry)
    · rw [hendEntry, hlast]
      exact hlater
    · rw [hstart, hendEntry]
  · intro hnot entry hentry
    obtain ⟨paid, hpaid, -, hend, hstart⟩ := hinv.kept entry hentry
    have hclock : (clockAfter lines).time = some (meterAfter lines).lastCheckedHour := by
      rcases hinv.clock_eq with ⟨hnone, -⟩ | hsome
      · simp [hkeeps.idle hnone] at hentry
      · exact hsome
    obtain ⟨hopen, hclosed⟩ := hkeeps.hours _ hclock
    rcases lt_trichotomy entry.parkingStart entry.parkingEnd with hlt | heq | hgt
    · exact useful_of_le hopen hclosed (hkeeps.current entry hentry hlt) hlt.le
    · rcases hstart with ⟨-, hstart⟩ | ⟨hday, hlong, hstart⟩
      · exact absurd (hstart.symm.trans (heq.trans hend)) (hinv.hours paid hpaid).2
      · apply useful_of_le hopen hclosed _ heq.le
        by_contra hover
        apply hnot
        refine ⟨paid, hpaid, ?_, hlong, hday, hkeeps.rewritten entry hentry heq, _, hclock, ?_⟩
        · rw [← hend, ← heq, hstart]
        · rw [← hstart, heq]
          exact not_le.mp hover
    · apply useful_of_long hopen hclosed _ hgt
      rcases hstart with ⟨hday, hstart⟩ | ⟨hday, hlong, hstart⟩
      · rw [hstart]
        exact (hinv.past paid hpaid).2 hday.symm
      · rw [hstart]
        exact hopen

/-- A payment to 8.00, a line at 8.00 of the next day and one a minute later. -/
theorem entry_overstays : ∃ entry ∈ (meterAfter
      ["ABC 19.00 8.00".toList, "XYZ 8.00".toList, "XYZ 8.01".toList]).parking,
    ¬ entry.Useful (meterAfter
      ["ABC 19.00 8.00".toList, "XYZ 8.00".toList, "XYZ 8.01".toList]).lastCheckedHour := by
  have hmeter : meterAfter ["ABC 19.00 8.00".toList, "XYZ 8.00".toList, "XYZ 8.01".toList] =
      ⟨[⟨"ABC".toList, 480, 480⟩], 481⟩ := by
    decide +kernel
  rw [hmeter]
  refine ⟨⟨"ABC".toList, 480, 480⟩, List.mem_singleton_self _, ?_⟩
  exact not_useful (by decide) (by decide)

end Mimuw.Parking
