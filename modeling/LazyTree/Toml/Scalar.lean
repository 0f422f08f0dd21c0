import LazyTree.Toml.Value

/-!
Numbers, dates and truth values of TOML. A float matters here only in that it is well formed and not
too large; a date, in that it exists.
-/
namespace LazyTree.Toml

def digitValue (c : Char) : Nat := c.toNat - '0'.toNat

def decimalOf (digits : List Char) : Nat :=
  digits.foldl (fun n c => 10 * n + digitValue c) 0

/-- Digits, with single underscores between them left out. -/
def digitTail (isDigit : Char → Bool) : List Char → List Char × List Char
  | [] => ([], [])
  | '_' :: c :: rest =>
    if isDigit c then
      let (digits, left) := digitTail isDigit rest
      (c :: digits, left)
    else ([], '_' :: c :: rest)
  | c :: rest =>
    if isDigit c then
      let (digits, left) := digitTail isDigit rest
      (c :: digits, left)
    else ([], c :: rest)

def digitRun (isDigit : Char → Bool) : Reader (List Char)
  | [] => none
  | c :: rest =>
    if isDigit c then
      let (digits, left) := digitTail isDigit rest
      some (c :: digits, left)
    else none

/-- Whether a number is negative, and the digits of its whole part, which has no leading zero. -/
def wholePart (input : List Char) : Option (Bool × List Char × List Char) :=
  let (negative, input) :=
    match input with
    | '-' :: rest => (true, rest)
    | '+' :: rest => (false, rest)
    | _ => (false, input)
  match input with
  | '0' :: rest => some (negative, ['0'], rest)
  | _ =>
    match digitRun Char.isDigit input with
    | some (digits, rest) => some (negative, digits, rest)
    | none => none

/-- The digits behind the point, or none without a point. -/
def fraction (input : List Char) : Option (Option (List Char) × List Char) :=
  match input with
  | '.' :: rest => (digitRun Char.isDigit rest).map (fun r => (some r.1, r.2))
  | _ => some (none, input)

def exponentDigits (rest : List Char) : Option (Int × List Char) :=
  match rest with
  | '-' :: rest => (digitRun Char.isDigit rest).map (fun r => (-(decimalOf r.1 : Int), r.2))
  | '+' :: rest => (digitRun Char.isDigit rest).map (fun r => ((decimalOf r.1 : Int), r.2))
  | _ => (digitRun Char.isDigit rest).map (fun r => ((decimalOf r.1 : Int), r.2))

/-- The power of ten, or none without an exponent. -/
def exponent (input : List Char) : Option (Option Int × List Char) :=
  match input with
  | 'e' :: rest => (exponentDigits rest).map (fun r => (some r.1, r.2))
  | 'E' :: rest => (exponentDigits rest).map (fun r => (some r.1, r.2))
  | _ => some (none, input)

/-- The least number that rounds to infinity in binary floating point of double precision. -/
def doubleLimit : Nat := Nat.pow 2 1024 - Nat.pow 2 970

/-- Whether `digits · 10 ^ power` is too large for double precision. -/
def overflows (digits : Nat) (power : Int) : Bool :=
  if digits = 0 then false
  else if power < 0 then doubleLimit * Nat.pow 10 power.natAbs ≤ digits
  else 310 < power || doubleLimit ≤ digits * Nat.pow 10 power.natAbs

/-- Whether a negative power leaves enough of the digits to be too large. -/
def tooLarge (digits : List Char) (power : Int) : Bool :=
  let significant := digits.dropWhile (fun c => c = '0')
  (significant.length : Int) + power > 308 && overflows (decimalOf significant) power

/-- A number with a fraction, an exponent or both, unless it would be positive infinity. -/
def floatNumber (input : List Char) : Option (Toml × List Char) :=
  match wholePart input with
  | none => none
  | some (negative, whole, rest) =>
    match fraction rest with
    | none => none
    | some (decimals, rest) =>
      match exponent rest with
      | none => none
      | some (power, rest) =>
        if decimals.isNone && power.isNone then none
        else
          let behind := decimals.getD []
          if !negative && tooLarge (whole ++ behind) (power.getD 0 - behind.length) then none
          else some (.float, rest)

def maxInteger : Nat := Nat.pow 2 63 - 1

def integerWithin (negative : Bool) (magnitude : Nat) : Option Toml :=
  if negative then
    (if magnitude ≤ maxInteger + 1 then some (.integer (-(magnitude : Int))) else none)
  else if magnitude ≤ maxInteger then some (.integer magnitude)
  else none

def isHexDigit (c : Char) : Bool :=
  c.isDigit || ('a' ≤ c && c ≤ 'f') || ('A' ≤ c && c ≤ 'F')

def radixDigit (c : Char) : Nat :=
  if c.isDigit then digitValue c
  else if 'a' ≤ c then c.toNat - 'a'.toNat + 10
  else c.toNat - 'A'.toNat + 10

/-- A number in another radix, behind its mark. -/
def radixNumber (radix : Nat) (isDigit : Char → Bool) (input : List Char) :
    Option (Toml × List Char) :=
  match digitRun isDigit input with
  | none => none
  | some (digits, rest) =>
    let magnitude := digits.foldl (fun n c => radix * n + radixDigit c) 0
    (integerWithin false magnitude).map (fun v => (v, rest))

def integerNumber (input : List Char) : Option (Toml × List Char) :=
  match input with
  | '0' :: 'x' :: rest => radixNumber 16 isHexDigit rest
  | '0' :: 'o' :: rest => radixNumber 8 (fun c => '0' ≤ c && c ≤ '7') rest
  | '0' :: 'b' :: rest => radixNumber 2 (fun c => c = '0' || c = '1') rest
  | _ =>
    match wholePart input with
    | none => none
    | some (negative, digits, rest) =>
      (integerWithin negative (decimalOf digits)).map (fun v => (v, rest))

/-- Infinity and not-a-number, with or without a sign. -/
def specialFloat : Reader Toml
  | '+' :: 'i' :: 'n' :: 'f' :: rest => some (.float, rest)
  | '-' :: 'i' :: 'n' :: 'f' :: rest => some (.float, rest)
  | 'i' :: 'n' :: 'f' :: rest => some (.float, rest)
  | '+' :: 'n' :: 'a' :: 'n' :: rest => some (.float, rest)
  | '-' :: 'n' :: 'a' :: 'n' :: rest => some (.float, rest)
  | 'n' :: 'a' :: 'n' :: rest => some (.float, rest)
  | _ => none

def twoDigits : Reader Nat
  | a :: b :: rest =>
    if a.isDigit && b.isDigit then some (decimalOf [a, b], rest) else none
  | _ => none

def isLeapYear (year : Nat) : Bool :=
  year % 4 = 0 && (year % 100 ≠ 0 || year % 400 = 0)

def daysIn (year : Nat) : Nat → Nat
  | 2 => if isLeapYear year then 29 else 28
  | 4 => 30
  | 6 => 30
  | 9 => 30
  | 11 => 30
  | _ => 31

/-- A day of the calendar. -/
def date (input : List Char) : Option (List Char) :=
  match input with
  | a :: b :: c :: d :: '-' :: rest =>
    match twoDigits rest with
    | some (month, '-' :: rest) =>
      match twoDigits rest with
      | some (day, rest) =>
        let year := decimalOf [a, b, c, d]
        if [a, b, c, d].all Char.isDigit && 1 ≤ month && month ≤ 12 && 1 ≤ day &&
            day ≤ daysIn year month then some rest
        else none
      | none => none
    | _ => none
  | _ => none

def secondFraction (input : List Char) : List Char :=
  match input with
  | '.' :: c :: rest => if c.isDigit then rest.dropWhile Char.isDigit else input
  | _ => input

/-- A time of day; a minute may have a leap second. -/
def time (input : List Char) : Option (List Char) :=
  match twoDigits input with
  | some (hour, ':' :: rest) =>
    match twoDigits rest with
    | some (minute, ':' :: rest) =>
      match twoDigits rest with
      | some (second, rest) =>
        if hour ≤ 23 && minute ≤ 59 && second ≤ 60 then some (secondFraction rest) else none
      | none => none
    | _ => none
  | _ => none

/-- What a time zone leaves, if one is there. -/
def offset (input : List Char) : Option (List Char) :=
  match input with
  | 'Z' :: rest => some rest
  | 'z' :: rest => some rest
  | sign :: rest =>
    if sign = '+' || sign = '-' then
      match twoDigits rest with
      | some (hour, ':' :: rest) =>
        match twoDigits rest with
        | some (minute, rest) => if hour ≤ 23 && minute ≤ 59 then some rest else none
        | none => none
      | _ => none
    else some input
  | [] => some []

/-- A date, a time, or both with or without a time zone. -/
def dateTime (input : List Char) : Option (Toml × List Char) :=
  match date input with
  | some rest =>
    match rest with
    | c :: later =>
      if c = 'T' || c = 't' || c = ' ' then
        match time later with
        | some rest' => (offset rest').map (fun left => (.datetime, left))
        | none => some (.datetime, rest)
      else some (.datetime, rest)
    | [] => some (.datetime, [])
  | none => (time input).map (fun left => (.datetime, left))

def truthValue : Reader Toml
  | 't' :: 'r' :: 'u' :: 'e' :: rest => some (.boolean true, rest)
  | 'f' :: 'a' :: 'l' :: 's' :: 'e' :: rest => some (.boolean false, rest)
  | _ => none

/-- A value that is neither quoted nor made of other values. -/
def scalar (input : List Char) : Option (Toml × List Char) :=
  (truthValue input).or
    ((dateTime input).or ((floatNumber input).or ((specialFloat input).or (integerNumber input))))

end LazyTree.Toml
