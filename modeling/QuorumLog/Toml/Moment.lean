import QuorumLog.Text.Decimal

/-! Dates and times in a TOML document: a date, a time, or both with or without the distance from
Greenwich. Only whether a text is one of them is of interest. -/

namespace QuorumLog.Toml.Moment

/-- Takes a number of exactly so many digits. -/
def takeDigits (count : Nat) (cs : List Char) : Option (Nat × List Char) :=
  let digits := cs.take count
  if digits.length = count ∧ digits.all (fun c => '0' ≤ c ∧ c ≤ '9') then
    (Decimal.value? digits).map (·, cs.drop count)
  else none

def takeChar (c : Char) : List Char → Option (List Char)
  | d :: rest => if d = c then some rest else none
  | [] => none

def daysIn (year month : Nat) : Nat :=
  if month = 2 then (if year % 4 = 0 ∧ (year % 100 ≠ 0 ∨ year % 400 = 0) then 29 else 28)
  else if month ∈ [4, 6, 9, 11] then 30
  else 31

def takeDate (cs : List Char) : Option (List Char) := do
  let (year, cs) ← takeDigits 4 cs
  let cs ← takeChar '-' cs
  let (month, cs) ← takeDigits 2 cs
  let cs ← takeChar '-' cs
  let (day, cs) ← takeDigits 2 cs
  if 1 ≤ month ∧ month ≤ 12 ∧ 1 ≤ day ∧ day ≤ daysIn year month then some cs else none

/-- Takes a fraction of a second, if one follows. -/
def takeFraction (cs : List Char) : Option (List Char) :=
  match cs with
  | '.' :: rest =>
    if (rest.takeWhile fun c => '0' ≤ c ∧ c ≤ '9').isEmpty then none
    else some (rest.dropWhile fun c => '0' ≤ c ∧ c ≤ '9')
  | cs => some cs

/-- Takes the seconds, if they follow. -/
def takeSeconds (cs : List Char) : Option (List Char) :=
  match cs with
  | ':' :: rest => do
    let (second, rest) ← takeDigits 2 rest
    if second ≤ 60 then takeFraction rest else none
  | cs => some cs

def takeTime (cs : List Char) : Option (List Char) := do
  let (hour, cs) ← takeDigits 2 cs
  let cs ← takeChar ':' cs
  let (minute, cs) ← takeDigits 2 cs
  if hour ≤ 23 ∧ minute ≤ 59 then takeSeconds cs else none

/-- Whether a text is a distance in hours and minutes behind its sign. -/
def isDistance (cs : List Char) : Bool :=
  match takeDigits 2 cs with
  | some (hour, ':' :: rest) =>
    match takeDigits 2 rest with
    | some (minute, []) => hour ≤ 23 ∧ minute ≤ 59
    | _ => false
  | _ => false

/-- Whether a text is a distance from Greenwich, or empty. -/
def isOffset (cs : List Char) : Bool :=
  match cs with
  | [] => true
  | ['Z'] | ['z'] => true
  | sign :: rest => (sign = '+' ∨ sign = '-') ∧ isDistance rest

/-- Whether a text is a date, a time or both. A blank may stand between the two for the letter. -/
def isMoment (cs : List Char) : Bool :=
  match takeDate cs with
  | some [] => true
  | some (c :: rest) =>
    (c = 'T' ∨ c = 't' ∨ c = ' ') ∧ (takeTime rest).any isOffset
  | none => takeTime cs = some []

end QuorumLog.Toml.Moment
