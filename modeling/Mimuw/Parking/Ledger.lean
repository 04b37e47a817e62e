import Mimuw.Parking.Meter

/-!
# The meter against all payments

The days are counted and every payment is kept with its day.  The meter, which forgets
both, answers as if it had them.
-/

namespace Mimuw.Parking

/-- The day and the time of the last line that was accepted. -/
structure Clock where
  day : Nat
  time : Option Hour
  deriving DecidableEq

/-- A day is over when a time is before the last one. -/
def Clock.next (clock : Clock) (time : Hour) : Clock :=
  ⟨if ∃ last ∈ clock.time, time < last then clock.day + 1 else clock.day, some time⟩

/-- A payment that was accepted. -/
structure Paid where
  licensePlate : Str
  day : Nat
  parkingStart : Hour
  parkingEnd : Hour
  deriving DecidableEq

/-- From the start to the end of one day, or to the end on the next one. -/
def Paid.Covers (paid : Paid) (day : Nat) (time : Hour) : Prop :=
  day = paid.day ∧ paid.parkingStart ≤ time ∧
      (time ≤ paid.parkingEnd ∨ paid.parkingEnd < paid.parkingStart) ∨
    day = paid.day + 1 ∧ paid.parkingEnd < paid.parkingStart ∧ time ≤ paid.parkingEnd

def lineTime (line : Str) : Hour :=
  if validatePaymentLine line then (parsePaymentLine line).2.1 else (parseCheckingLine line).2

def follow (s : Meter × Clock) (line : Str) : Meter × Clock :=
  let (verdict, meter) := s.1.readLine line
  (meter, if verdict = .error then s.2 else s.2.next (lineTime line))

def clockAfter (lines : List Str) : Clock := (lines.foldl follow (.new, ⟨0, none⟩)).2

def paidBy (lines : List Str) (line : Str) : Paid :=
  let (licensePlate, parkingStart, parkingEnd) := parsePaymentLine line
  ⟨licensePlate, (clockAfter (lines ++ [line])).day, parkingStart, parkingEnd⟩

/-- A payment of one of the lines, answered `OK`. -/
def Recorded (lines : List Str) (paid : Paid) : Prop :=
  ∃ before line after, lines = before ++ line :: after ∧ verdict before line = .ok ∧
    paid = paidBy before line

private theorem foldl_follow (lines : List Str) (s : Meter × Clock) :
    (lines.foldl follow s).1 = lines.foldl (fun meter line => (meter.readLine line).2) s.1 := by
  induction lines generalizing s with
  | nil => rfl
  | cons line lines ih => exact ih (follow s line)

theorem clockAfter_concat (lines : List Str) (line : Str) :
    clockAfter (lines ++ [line]) =
      if verdict lines line = .error then clockAfter lines
      else (clockAfter lines).next (lineTime line) := by
  have hmeter : (lines.foldl follow (.new, ⟨0, none⟩)).1 = meterAfter lines := foldl_follow lines _
  rw [clockAfter, List.foldl_concat, follow, hmeter]
  rfl

private theorem recorded_concat {lines : List Str} {line : Str} {paid : Paid} :
    Recorded (lines ++ [line]) paid ↔
      Recorded lines paid ∨ verdict lines line = .ok ∧ paid = paidBy lines line := by
  constructor
  · rintro ⟨before, line', after, heq, hok, hpaid⟩
    rcases List.eq_nil_or_concat after with rfl | ⟨after, last, rfl⟩
    · obtain ⟨rfl, hline⟩ := List.append_inj' heq rfl
      obtain rfl : line = line' := by simpa using hline
      exact .inr ⟨hok, hpaid⟩
    · rw [List.concat_eq_append, ← List.cons_append, ← List.append_assoc] at heq
      exact .inl ⟨before, line', after, (List.append_inj' heq rfl).1, hok, hpaid⟩
  · rintro (⟨before, line', after, rfl, hok, hpaid⟩ | ⟨hok, hpaid⟩)
    · exact ⟨before, line', after ++ [line], by simp, hok, hpaid⟩
    · exact ⟨lines, line, [], rfl, hok, hpaid⟩

/-! ## What the entries stand for -/

/-- An entry stands for a payment of this day, or for one of the day before that lasts. -/
def Entry.StandsFor (entry : Entry) (day : Nat) (paid : Paid) : Prop :=
  entry.licensePlate = paid.licensePlate ∧ entry.parkingEnd = paid.parkingEnd ∧
    (day = paid.day ∧ entry.parkingStart = paid.parkingStart ∨
      day = paid.day + 1 ∧ paid.parkingEnd < paid.parkingStart ∧
        entry.parkingStart = openingTimeMin)

structure Inv (meter : Meter) (clock : Clock) (recorded : Paid → Prop) : Prop where
  clock_eq : clock.time = none ∧ meter.lastCheckedHour = 0 ∨ clock.time = some meter.lastCheckedHour
  past : ∀ paid, recorded paid → paid.day ≤ clock.day ∧
    (paid.day = clock.day → paid.parkingStart ≤ meter.lastCheckedHour)
  hours : ∀ paid, recorded paid → openingTimeMin ≤ paid.parkingEnd ∧
    paid.parkingStart ≠ paid.parkingEnd
  kept : ∀ entry ∈ meter.parking, ∃ paid, recorded paid ∧ entry.StandsFor clock.day paid
  /-- what covers the present time has not been forgotten -/
  covered : ∀ paid, recorded paid → paid.Covers clock.day meter.lastCheckedHour →
    ∃ entry ∈ meter.parking, entry.StandsFor clock.day paid

section Steps

variable {meter : Meter} {clock : Clock} {recorded : Paid → Prop} {time : Hour} {plate : Str}

theorem inv_new : Inv .new ⟨0, none⟩ fun _ => False where
  clock_eq := .inl ⟨rfl, rfl⟩
  past _ := nofun
  hours _ := nofun
  kept _ := nofun
  covered _ := nofun

theorem Inv.newDay_iff (h : Inv meter clock recorded) (htime : openingTimeMin ≤ time) :
    (∃ last ∈ clock.time, time < last) ↔ time < meter.lastCheckedHour := by
  rcases h.clock_eq with ⟨hnone, hzero⟩ | hsome
  · have hlt : ¬ time < 0 := not_lt.mpr ((by decide : 0 ≤ openingTimeMin).trans htime)
    rw [hnone, hzero]
    simp [hlt]
  · simp [hsome]

/-- The payments of the day before are forgotten, those that last are rewritten. -/
theorem Inv.advance_newDay (h : Inv meter clock recorded) :
    Inv ⟨meter.parking.filterMap (Entry.nextDay time), time⟩
      ⟨clock.day + 1, some time⟩ recorded where
  clock_eq := .inr rfl
  past paid hpaid := by
    have hday := (h.past paid hpaid).1
    exact ⟨Nat.le_succ_of_le hday, fun heq => absurd hday (by dsimp only at heq; omega)⟩
  hours := h.hours
  kept entry hentry := by
    obtain ⟨old, hold, hnext⟩ := List.mem_filterMap.mp hentry
    obtain ⟨paid, hpaid, hplate, hend, hstands⟩ := h.kept old hold
    unfold Entry.nextDay at hnext
    split at hnext
    · cases hnext
    next hlong =>
      split at hnext
      · cases hnext
      next =>
        obtain rfl := Option.some.inj hnext
        rcases hstands with ⟨hday, hstart⟩ | ⟨hday, hlast, hstart⟩
        · refine ⟨paid, hpaid, hplate, hend, .inr ⟨congrArg (· + 1) hday, ?_, rfl⟩⟩
          rwa [hstart, hend, not_le] at hlong
        · -- an entry that was rewritten before is of one day
          rw [hstart, hend] at hlong
          exact absurd (h.hours paid hpaid).1 hlong
  covered paid hpaid hcovers := by
    have hday := (h.past paid hpaid).1
    change paid.Covers (clock.day + 1) time at hcovers
    rcases hcovers with ⟨heq, -⟩ | ⟨heq, hlong, hend⟩
    · omega
    · -- it lasts past the present time, so it covered the last one too
      have hstart : paid.parkingStart ≤ meter.lastCheckedHour := (h.past paid hpaid).2 (by omega)
      obtain ⟨old, hold, hplate, hendold, hstands⟩ :=
        h.covered paid hpaid (.inl ⟨by omega, hstart, .inr hlong⟩)
      have hstartold : old.parkingStart = paid.parkingStart := by
        rcases hstands with ⟨-, heq⟩ | ⟨hday, -⟩
        · exact heq
        · omega
      have hnext : old.nextDay time = some { old with parkingStart := openingTimeMin } := by
        rw [Entry.nextDay, hstartold, hendold, if_neg (not_le.mpr hlong), if_neg (not_lt.mpr hend)]
      exact ⟨_, List.mem_filterMap.mpr ⟨old, hold, hnext⟩, hplate, hendold,
        .inr ⟨heq, hlong, rfl⟩⟩

/-- Entries that are over are forgotten, the others stay. -/
theorem Inv.advance_sameDay (h : Inv meter clock recorded) (htime : meter.lastCheckedHour ≤ time) :
    Inv ⟨meter.parking.filter fun entry =>
      !(entry.parkingStart < entry.parkingEnd && entry.parkingEnd < time), time⟩
      ⟨clock.day, some time⟩ recorded where
  clock_eq := .inr rfl
  past paid hpaid := ⟨(h.past paid hpaid).1, fun heq => ((h.past paid hpaid).2 heq).trans htime⟩
  hours := h.hours
  kept entry hentry := h.kept entry (List.mem_of_mem_filter hentry)
  covered paid hpaid hcovers := by
    change paid.Covers clock.day time at hcovers
    have hbefore : paid.Covers clock.day meter.lastCheckedHour := by
      rcases hcovers with ⟨hday, -, hend⟩ | ⟨hday, hlong, hend⟩
      · exact .inl ⟨hday, (h.past paid hpaid).2 hday.symm, hend.imp_left htime.trans⟩
      · exact .inr ⟨hday, hlong, htime.trans hend⟩
    obtain ⟨entry, hentry, hstands⟩ := h.covered paid hpaid hbefore
    refine ⟨entry, List.mem_filter.mpr ⟨hentry, ?_⟩, hstands⟩
    obtain ⟨-, hendeq, hstart⟩ := hstands
    rw [Bool.not_eq_true', Bool.and_eq_false_iff, decide_eq_false_iff_not, decide_eq_false_iff_not,
      not_lt, not_lt, hendeq]
    rcases hcovers with ⟨hday, -, hend⟩ | ⟨-, -, hend⟩
    · rcases hend with hend | hlong
      · exact .inr hend
      · rcases hstart with ⟨-, heq⟩ | ⟨hday', -⟩
        · exact .inl (heq ▸ hlong.le)
        · omega
    · exact .inr hend

theorem Inv.advance (h : Inv meter clock recorded) (htime : openingTimeMin ≤ time) :
    Inv (meter.advance time) (clock.next time) recorded := by
  unfold Meter.advance Clock.next deleteCarsFromData checkIfNewDay
  rw [if_congr (h.newDay_iff htime) rfl rfl]
  by_cases hnew : time < meter.lastCheckedHour
  · rw [if_pos hnew, if_pos (decide_eq_true hnew)]
    exact h.advance_newDay
  · rw [if_neg hnew, if_neg (by simpa using hnew)]
    exact h.advance_sameDay (not_lt.mp hnew)

/-- A payment is added that starts now. -/
theorem Inv.add (h : Inv meter clock recorded) (paid : Paid) (hday : paid.day = clock.day)
    (hstart : paid.parkingStart = meter.lastCheckedHour) (hend : openingTimeMin ≤ paid.parkingEnd)
    (hne : paid.parkingStart ≠ paid.parkingEnd) :
    Inv { meter with parking := meter.parking ++
      [⟨paid.licensePlate, paid.parkingStart, paid.parkingEnd⟩] } clock
      (fun p => recorded p ∨ p = paid) where
  clock_eq := h.clock_eq
  past p hp := by
    rcases hp with hp | rfl
    · exact h.past p hp
    · exact ⟨hday.le, fun _ => hstart.le⟩
  hours p hp := by
    rcases hp with hp | rfl
    · exact h.hours p hp
    · exact ⟨hend, hne⟩
  kept entry hentry := by
    rcases List.mem_append.mp hentry with hentry | hentry
    · obtain ⟨p, hp, hstands⟩ := h.kept entry hentry
      exact ⟨p, .inl hp, hstands⟩
    · obtain rfl := List.mem_singleton.mp hentry
      exact ⟨paid, .inr rfl, rfl, rfl, .inl ⟨hday.symm, rfl⟩⟩
  covered p hp hcovers := by
    rcases hp with hp | rfl
    · obtain ⟨entry, hentry, hstands⟩ := h.covered p hp hcovers
      exact ⟨entry, List.mem_append_left _ hentry, hstands⟩
    · exact ⟨_, List.mem_append_right _ (List.mem_singleton_self _), rfl, rfl,
        .inl ⟨hday.symm, rfl⟩⟩

/-- What an entry says of the present time is what its payment says. -/
private theorem Inv.entry_covers (h : Inv meter clock recorded) {entry : Entry} {paid : Paid}
    (hpaid : recorded paid) (hstands : entry.StandsFor clock.day paid) :
    (if entry.parkingStart ≤ entry.parkingEnd then meter.lastCheckedHour ≤ entry.parkingEnd
      else entry.parkingStart ≤ meter.lastCheckedHour ∨ meter.lastCheckedHour ≤ entry.parkingEnd) ↔
      paid.Covers clock.day meter.lastCheckedHour := by
  obtain ⟨-, hend, hstart⟩ := hstands
  rw [hend]
  rcases hstart with ⟨hday, hstart⟩ | ⟨hday, hlong, hstart⟩
  · have hpast := (h.past paid hpaid).2 hday.symm
    rw [hstart]
    split
    next hshort => simp [Paid.Covers, hday, hpast, not_lt.mpr hshort]
    next hlong => simp [Paid.Covers, hday, hpast, not_le.mp hlong]
  · rw [hstart, if_pos (h.hours paid hpaid).1]
    simp [Paid.Covers, hday, hlong]

theorem isPaid_eq_true : meter.isPaid plate time = true ↔
    ∃ entry ∈ meter.parking, entry.licensePlate = plate ∧
      if entry.parkingStart ≤ entry.parkingEnd then time ≤ entry.parkingEnd
      else entry.parkingStart ≤ time ∨ time ≤ entry.parkingEnd := by
  rw [Meter.isPaid, List.any_eq_true]
  refine exists_congr fun entry => and_congr_right fun _ => ?_
  rw [Bool.and_eq_true, decide_eq_true_eq, eq_comm]
  split
  · simp
  · simp

private theorem Inv.isPaid_iff (h : Inv meter clock recorded) (plate : Str) :
    meter.isPaid plate meter.lastCheckedHour = true ↔
      ∃ paid, recorded paid ∧ paid.licensePlate = plate ∧
        paid.Covers clock.day meter.lastCheckedHour := by
  rw [isPaid_eq_true]
  constructor
  · rintro ⟨entry, hentry, hplate, hcovers⟩
    obtain ⟨paid, hpaid, hstands⟩ := h.kept entry hentry
    exact ⟨paid, hpaid, hstands.1.symm.trans hplate, (h.entry_covers hpaid hstands).mp hcovers⟩
  · rintro ⟨paid, hpaid, hplate, hcovers⟩
    obtain ⟨entry, hentry, hstands⟩ := h.covered paid hpaid hcovers
    exact ⟨entry, hentry, hstands.1.trans hplate, (h.entry_covers hpaid hstands).mpr hcovers⟩

end Steps

/-! ## Runs -/

section Runs

variable {meter : Meter} {line : Str}

private theorem checkParkingTime_ne {parkingStart parkingEnd : Hour}
    (h : checkParkingTime parkingStart parkingEnd = true) : parkingStart ≠ parkingEnd := by
  rintro rfl
  simp [checkParkingTime] at h

/-- The lines that are accepted, and what they do. -/
theorem readLine_cases (meter : Meter) (line : Str) :
    (∃ parkingStart parkingEnd licensePlate, validatePaymentLine line = true ∧
      validateCheckingLine line = false ∧ parsePaymentLine line =
        (licensePlate, parkingStart, parkingEnd) ∧
      openingTimeMin ≤ parkingStart ∧ openingTimeMin ≤ parkingEnd ∧ parkingStart ≠ parkingEnd ∧
      meter.readLine line = (.ok, { meter.advance parkingStart with
        parking := (meter.advance parkingStart).parking ++
          [⟨licensePlate, parkingStart, parkingEnd⟩] })) ∨
    (∃ licensePlate time, validatePaymentLine line = false ∧ validateCheckingLine line = true ∧
      parseCheckingLine line = (licensePlate, time) ∧ openingTimeMin ≤ time ∧
      meter.readLine line =
        (if (meter.advance time).isPaid licensePlate time then .yes else .no, meter.advance time)) ∨
    validateCheckingLine line = false ∧ meter.readLine line = (.error, meter) := by
  cases hpay : validatePaymentLine line with
  | true =>
      obtain ⟨p, -, first, hfirst, second, hsecond, hparse⟩ := parse_of_validatePaymentLine hpay
      have hcheck : validateCheckingLine line = false := by
        rw [← Bool.not_eq_true]
        intro hcheck
        rw [validatePaymentLine_of_validateCheckingLine hcheck] at hpay
        cases hpay
      cases htime : checkParkingTime (dateToMinutesPastMidnight first)
          (dateToMinutesPastMidnight second) with
      | true =>
          exact .inl ⟨_, _, p, rfl, hcheck, hparse, (open_of_time hfirst).1,
            (open_of_time hsecond).1,
            checkParkingTime_ne htime,
              by simp [Meter.readLine, Meter.addPayment, hpay, hparse, htime]⟩
      | false =>
          exact .inr (.inr ⟨hcheck, by
            simp [Meter.readLine, Meter.addPayment, hpay, hparse, htime]⟩)
  | false =>
      cases hcheck : validateCheckingLine line with
      | true =>
          obtain ⟨p, -, date, hdate, hparse⟩ := parse_of_validateCheckingLine hcheck
          exact .inr (.inl ⟨p, _, rfl, rfl, hparse, (open_of_time hdate).1, by
            simp [Meter.readLine, Meter.checkPayment, hpay, hcheck, hparse]⟩)
      | false => exact .inr (.inr ⟨rfl, by simp [Meter.readLine, hpay, hcheck]⟩)

theorem recorded_nil : Recorded [] = fun _ => False := by
  funext paid
  rw [eq_iff_iff, iff_false]
  rintro ⟨before, line, after, heq, -⟩
  simp at heq

theorem recorded_of_ok {lines : List Str} (hok : verdict lines line = .ok) :
    Recorded (lines ++ [line]) = fun paid => Recorded lines paid ∨ paid = paidBy lines line := by
  funext paid
  rw [eq_iff_iff, recorded_concat]
  simp [hok]

theorem recorded_of_ne {lines : List Str} (hne : verdict lines line ≠ .ok) :
    Recorded (lines ++ [line]) = Recorded lines := by
  funext paid
  rw [eq_iff_iff, recorded_concat]
  simp [hne]

theorem inv_meterAfter (lines : List Str) :
    Inv (meterAfter lines) (clockAfter lines) (Recorded lines) := by
  induction lines using List.reverseRecOn with
  | nil => exact recorded_nil ▸ inv_new
  | append_singleton lines line ih =>
      have hclock := clockAfter_concat lines line
      rw [meterAfter_concat]
      rcases readLine_cases (meterAfter lines) line with
        ⟨first, second, plate, hpay, -, hparse, hfirst, hsecond, hne, hread⟩ |
        ⟨plate, time, hpay, -, hparse, htime, hread⟩ | ⟨-, hread⟩
      · have hok : verdict lines line = .ok := congrArg Prod.fst hread
        have htime : lineTime line = first := by rw [lineTime, if_pos hpay, hparse]
        rw [hok, if_neg nofun, htime] at hclock
        have hpaid : paidBy lines line =
            ⟨plate, ((clockAfter lines).next first).day, first, second⟩ := by
          rw [paidBy, hparse, hclock]
        rw [recorded_of_ok hok, hread, hclock, hpaid]
        exact (ih.advance hfirst).add ⟨plate, _, first, second⟩ rfl rfl hsecond hne
      · have hverdict : verdict lines line =
            if ((meterAfter lines).advance time).isPaid plate time then .yes else .no :=
          congrArg Prod.fst hread
        have hok : verdict lines line ≠ .ok ∧ verdict lines line ≠ .error := by
          rw [hverdict]
          split <;> exact ⟨nofun, nofun⟩
        have htimeEq : lineTime line = time := by rw [lineTime, hpay, hparse]; rfl
        rw [if_neg hok.2, htimeEq] at hclock
        rw [recorded_of_ne hok.1, hread, hclock]
        exact ih.advance htime
      · have herror : verdict lines line = .error := congrArg Prod.fst hread
        rw [if_pos herror] at hclock
        rw [recorded_of_ne (by rw [herror]; nofun), hread, hclock]
        exact ih

end Runs

/-- A line that checks a payment is answered `YES` exactly when an earlier line, answered
`OK`, paid for the plate, and what it paid for covers the day and the time. -/
theorem check_iff_paid (lines : List Str) (line : Str) :
    verdict lines line = .yes ↔ validateCheckingLine line = true ∧
      ∃ before pay after, lines = before ++ pay :: after ∧ verdict before pay = .ok ∧
        (parsePaymentLine pay).1 = (parseCheckingLine line).1 ∧
        (paidBy before pay).Covers (clockAfter (lines ++ [line])).day
          (parseCheckingLine line).2 := by
  have hinv := inv_meterAfter lines
  have hclock := clockAfter_concat lines line
  rcases readLine_cases (meterAfter lines) line with
    ⟨first, second, plate, -, hcheck, -, -, -, -, hread⟩ |
    ⟨plate, time, hpay, hcheck, hparse, htime, hread⟩ | ⟨hcheck, hread⟩
  · have hok : verdict lines line = .ok := congrArg Prod.fst hread
    simp [hok, hcheck]
  · have hverdict : verdict lines line =
        if ((meterAfter lines).advance time).isPaid plate time then .yes else .no :=
      congrArg Prod.fst hread
    have hne : verdict lines line ≠ .error := by
      rw [hverdict]
      split <;> nofun
    have htimeEq : lineTime line = time := by rw [lineTime, hpay, hparse]; rfl
    rw [if_neg hne, htimeEq] at hclock
    have hyes : verdict lines line = .yes ↔
        ((meterAfter lines).advance time).isPaid plate time = true := by
      rw [hverdict]
      split <;> simp [*]
    have hpaid := (hinv.advance htime).isPaid_iff plate
    rw [hyes, hclock, hparse]
    refine hpaid.trans ⟨?_, ?_⟩
    · rintro ⟨_, ⟨before, pay, after, hlines, hok, rfl⟩, hplate, hcovers⟩
      exact ⟨hcheck, before, pay, after, hlines, hok, hplate, hcovers⟩
    · rintro ⟨-, before, pay, after, hlines, hok, hplate, hcovers⟩
      exact ⟨_, ⟨before, pay, after, hlines, hok, rfl⟩, hplate, hcovers⟩
  · have herror : verdict lines line = .error := congrArg Prod.fst hread
    simp [herror, hcheck]

example : activateParking ["ABC 19.00 8.30".toList, "ABC 8.20".toList] = [(.ok, 1), (.yes, 2)] := by
  decide +kernel

end Mimuw.Parking
