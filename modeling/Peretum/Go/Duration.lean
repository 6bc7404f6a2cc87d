import Peretum.Go.Strings

/-!
# Durations

`time.Duration` is a signed number of nanoseconds. `durationString` is its
`String` method: the largest unit that fits, with trailing zeros of the fraction
left out.
-/

namespace Go

/-- The decimal digits of a natural number. -/
def natString (n : Nat) : Str := (Nat.toDigits 10 n).map (fun c => UInt8.ofNat c.toNat)

/-- `fmtFrac`: the last `prec` decimal digits as a fraction without trailing zeros. -/
def fracString (u prec : Nat) : Str :=
  let digits := natString (u % 10 ^ prec)
  let padded := List.replicate (prec - digits.length) 0x30 ++ digits
  let kept := (padded.reverse.dropWhile (· == 0x30)).reverse
  if kept = [] ∨ prec = 0 then [] else 0x2E :: kept

/-- The part of `Duration.String` for less than a second. -/
def subsecondString (u : Nat) : Str :=
  if u = 0 then str "0s"
  else if u < 10 ^ 3 then natString u ++ str "ns"
  else if u < 10 ^ 6 then natString (u / 10 ^ 3) ++ fracString u 3 ++ str "µs"
  else natString (u / 10 ^ 6) ++ fracString u 6 ++ str "ms"

/-- `Duration.String`. -/
def durationString (d : Int) : Str :=
  let u := d.natAbs
  let seconds := u / 10 ^ 9
  let minutes := seconds / 60
  let hours := minutes / 60
  let text :=
    if u < 10 ^ 9 then subsecondString u
    else
      (if hours = 0 then [] else natString hours ++ str "h") ++
        (if minutes = 0 then [] else natString (minutes % 60) ++ str "m") ++
        natString (seconds % 60) ++ fracString u 9 ++ str "s"
  if d < 0 then 0x2D :: text else text

example : durationString 90500000000 = str "1m30.5s" := by decide

end Go
