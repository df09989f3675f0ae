/-!
# Seconds

A waiting time is a number of seconds, given in decimal notation and repeated
in messages the way it was given: a whole number without a point, any other
with the fewest digits behind it, and one below a ten-thousandth with an
exponent (`Seconds.text`).
-/

namespace StateLexer

/-- The number `digits / 10 ^ places` of seconds. It is a whole number when it
    is given without a point, that is, without places. -/
structure Seconds where
  /-- The digits, read as one number. -/
  digits : Int
  /-- How many of the digits stand behind the point. -/
  places : Nat
  deriving DecidableEq

namespace Seconds

/-- The same number without zeros at the end, as long as `keep` places remain. -/
def trim (keep digits : Nat) : Nat → Nat × Nat
  | 0 => (digits, 0)
  | places + 1 =>
    if keep ≤ places ∧ digits % 10 = 0 then trim keep (digits / 10) places
    else (digits, places + 1)

/-- The digits with a point in front of the last `places` of them. -/
def positional (digits places : Nat) : String :=
  let fraction := Nat.repr (digits % Nat.pow 10 places)
  let zeros := String.ofList (List.replicate (places - fraction.length) '0')
  Nat.repr (digits / Nat.pow 10 places) ++ "." ++ zeros ++ fraction

/-- The digits with a point behind the first one, if there are more, and a
    negative exponent of at least two digits. -/
def scientific (digits places : Nat) : String :=
  let all := (Nat.repr digits).toList
  let exponent := Nat.repr (places + 1 - all.length)
  let fraction := if all.tail.isEmpty then "" else "." ++ String.ofList all.tail
  String.ofList (all.take 1) ++ fraction ++ "e-" ++
    (if exponent.length < 2 then "0" ++ exponent else exponent)

/-- The number as a message repeats it. -/
def text (s : Seconds) : String :=
  let sign := if s.digits < 0 then "-" else ""
  let magnitude := s.digits.natAbs
  sign ++
    if s.places = 0 then Nat.repr magnitude
    else if 0 < magnitude ∧ magnitude * 10000 < Nat.pow 10 s.places then
      let (digits, places) := trim 0 magnitude s.places
      scientific digits places
    else
      let (digits, places) := trim 1 magnitude s.places
      positional digits places

end Seconds

end StateLexer
