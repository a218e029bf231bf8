import LolToolchain.Numbar.Reading

/-! Dates and times: `1979-05-27`, `07:32:00`, or both, the latter with an offset or without. -/
namespace LolToolchain.Toml

/-- The number in exactly `n` decimal digits at the start of a text. -/
def digits? (n : Nat) (t : Text) : Option (Nat × Text) := do
  let front := t.take n
  if front.length ≠ n then none
  else return (← wholeOf? 10 front, t.drop n)

def expect? (b : UInt8) : Text → Option Text
  | [] => none
  | c :: t => if c = b then some t else none

def isLeap (year : Nat) : Bool :=
  year % 4 == 0 && (year % 100 != 0 || year % 400 == 0)

def daysOf (year month : Nat) : Nat :=
  match month with
  | 2 => if isLeap year then 29 else 28
  | 4 | 6 | 9 | 11 => 30
  | _ => 31

def afterDate? (t : Text) : Option Text := do
  let (year, t) ← digits? 4 t
  let t ← expect? 0x2D t
  let (month, t) ← digits? 2 t
  let t ← expect? 0x2D t
  let (day, t) ← digits? 2 t
  if 1 ≤ month ∧ month ≤ 12 ∧ 1 ≤ day ∧ day ≤ daysOf year month then some t else none

def afterSeconds? (t : Text) : Option Text :=
  match t with
  | 0x3A :: t => do
    let (second, t) ← digits? 2 t
    if 60 ≤ second then none
    else match t with
      | mark :: d :: rest =>
        if (mark == 0x2E || mark == 0x2C) && (digitOf? 10 d).isSome then
          some (rest.dropWhile fun b => (digitOf? 10 b).isSome)
        else some t
      | _ => some t
  | t => some t

def afterTime? (t : Text) : Option Text := do
  let (hour, t) ← digits? 2 t
  let t ← expect? 0x3A t
  let (minute, t) ← digits? 2 t
  if hour < 24 ∧ minute < 60 then afterSeconds? t else none

/-- Whether a text is an offset, or empty. -/
def isOffset (t : Text) : Bool :=
  match t with
  | [] => true
  | [0x5A] => true
  | sign :: t =>
    (sign == 0x2B || sign == 0x2D) && (do
      let (hours, t) ← digits? 2 t
      let t ← expect? 0x3A t
      let (minutes, t) ← digits? 2 t
      return hours ≤ 24 && minutes ≤ 60 && t.isEmpty : Option Bool) == some true

/-- Whether a text is a date, a time or both. A blank or a small `t` may stand between the two. -/
def isMoment (t : Text) : Bool :=
  let t := t.map fun b =>
    if b == 0x20 || b == 0x74 then (0x54 : UInt8) else if b == 0x7A then 0x5A else b
  match afterDate? t with
  | some [] => true
  | some (0x54 :: rest) => (afterTime? rest).any isOffset
  | some _ => false
  | none => afterTime? t == some []

end LolToolchain.Toml
