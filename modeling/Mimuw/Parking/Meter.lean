import Mathlib.Algebra.Order.Group.Int
import Mathlib.Algebra.Order.Group.Unbundled.Int
import Mimuw.Parking.Lines

/-!
# The parking meter

The payments that can still matter, and the hour of the last line that was accepted.
There is no day: an hour before the last one is an hour of the next day.
-/

namespace Mimuw.Parking

/-- An entry of `parking_payments_vector_t`. -/
structure Entry where
  licensePlate : Str
  parkingStart : Hour
  parkingEnd : Hour
  deriving DecidableEq

structure Meter where
  parking : List Entry
  lastCheckedHour : Hour
  deriving DecidableEq

/-- What is printed of a line, with its number. -/
inductive Verdict where
  | ok
  | error
  | yes
  | no
  deriving DecidableEq

def checkIfNewDay (lastCheckedHour currentTime : Hour) : Bool := lastCheckedHour > currentTime

def checkParkingTime (parkingStart parkingEnd : Hour) : Bool :=
  (parkingStart < parkingEnd && |parkingStart - parkingEnd| ≥ minPaymentInMin &&
      |parkingStart - parkingEnd| ≤ maxPaymentInMin) ||
    (parkingEnd < parkingStart &&
      (closingTimeMin - parkingStart) + (parkingEnd - openingTimeMin) ≥ minPaymentInMin &&
      (closingTimeMin - parkingStart) + (parkingEnd - openingTimeMin) ≤ maxPaymentInMin)

/-- An entry on a new day: one of two days is kept as one that began when the meter opened. -/
def Entry.nextDay (currentTime : Hour) (entry : Entry) : Option Entry :=
  if entry.parkingStart ≤ entry.parkingEnd then none
  else if entry.parkingEnd < currentTime then none
  else some { entry with parkingStart := openingTimeMin }

def deleteCarsFromData (parking : List Entry) (currentTime lastCheckedHour : Hour) : List Entry :=
  if checkIfNewDay lastCheckedHour currentTime then parking.filterMap (Entry.nextDay currentTime)
  else
    parking.filter fun entry =>
      !(entry.parkingStart < entry.parkingEnd && entry.parkingEnd < currentTime)

namespace Meter

def new : Meter := ⟨[], 0⟩

/-- The clock goes on to the time of a line. -/
def advance (meter : Meter) (time : Hour) : Meter :=
  ⟨deleteCarsFromData meter.parking time meter.lastCheckedHour, time⟩

def addPayment (meter : Meter) (line : Str) : Bool × Meter :=
  let (licensePlate, parkingStart, parkingEnd) := parsePaymentLine line
  if checkParkingTime parkingStart parkingEnd then
    let meter := meter.advance parkingStart
    (true, { meter with parking := meter.parking ++ [⟨licensePlate, parkingStart, parkingEnd⟩] })
  else (false, meter)

/-- The loop of `check_payment`. -/
def isPaid (meter : Meter) (licensePlate : Str) (timeToCheck : Hour) : Bool :=
  meter.parking.any fun entry =>
    licensePlate = entry.licensePlate &&
      if entry.parkingStart ≤ entry.parkingEnd then timeToCheck ≤ entry.parkingEnd
      else timeToCheck ≥ entry.parkingStart || timeToCheck ≤ entry.parkingEnd

def checkPayment (meter : Meter) (line : Str) : Bool × Meter :=
  let (licensePlate, timeToCheck) := parseCheckingLine line
  let meter := meter.advance timeToCheck
  (meter.isPaid licensePlate timeToCheck, meter)

/-- The body of the loop of `activate_parking`. -/
def readLine (meter : Meter) (line : Str) : Verdict × Meter :=
  if validatePaymentLine line then
    let (added, meter) := meter.addPayment line
    (if added then .ok else .error, meter)
  else if validateCheckingLine line then
    let (paid, meter) := meter.checkPayment line
    (if paid then .yes else .no, meter)
  else (.error, meter)

end Meter

/-- The loop of `activate_parking`, from some line on. -/
def activateParkingFrom (meter : Meter) (lineCount : Nat) : List Str → List (Verdict × Nat)
  | [] => []
  | line :: lines =>
      let (verdict, meter) := meter.readLine line
      (verdict, lineCount + 1) :: activateParkingFrom meter (lineCount + 1) lines

def activateParking (lines : List Str) : List (Verdict × Nat) := activateParkingFrom .new 0 lines

/-! ## One line after the others -/

def meterAfter (lines : List Str) : Meter :=
  lines.foldl (fun meter line => (meter.readLine line).2) .new

def verdict (lines : List Str) (line : Str) : Verdict := ((meterAfter lines).readLine line).1

theorem meterAfter_concat (lines : List Str) (line : Str) :
    meterAfter (lines ++ [line]) = ((meterAfter lines).readLine line).2 :=
  List.foldl_concat _ _ _ _

private theorem activateParkingFrom_concat (meter : Meter) (lineCount : Nat)
    (lines : List Str) (line : Str) :
    activateParkingFrom meter lineCount (lines ++ [line]) =
      activateParkingFrom meter lineCount lines ++
        [(((lines.foldl (fun meter line => (meter.readLine line).2) meter).readLine line).1,
          lineCount + lines.length + 1)] := by
  induction lines generalizing meter lineCount with
  | nil => rfl
  | cons first lines ih =>
      simp only [List.cons_append, activateParkingFrom, List.foldl_cons, List.length_cons]
      rw [ih, Nat.add_right_comm lineCount 1 lines.length, Nat.add_assoc lineCount lines.length 1]

/-- What is printed of a line depends on the lines before it. -/
theorem activateParking_concat (lines : List Str) (line : Str) :
    activateParking (lines ++ [line]) =
      activateParking lines ++ [(verdict lines line, lines.length + 1)] := by
  have h := activateParkingFrom_concat .new 0 lines line
  rwa [Nat.zero_add] at h

end Mimuw.Parking
