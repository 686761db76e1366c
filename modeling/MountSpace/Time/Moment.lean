import MountSpace.Time.Calendar

/-!
# Moments as callers give them

A date and time of day with an optional distance from universal time.  Without one it counts as
universal time.

## Main definitions

* `Moment` — date, time of day and distance from universal time.
* `Moment.instant` — the point in time.
* `Moment.parse?` — reads `YYYY-MM-DDTHH:MM:SS[.fraction][+HH:MM[:SS]]`.
-/

namespace MountSpace

/-- A date and time of day as a caller gives it. -/
structure Moment where
  /-- The date and time of day. -/
  civil : Civil
  /-- The whole seconds by which its clock is ahead of universal time; distances with fractions of a
  second are left out. -/
  offset : Option Int := none
  deriving DecidableEq, Repr

namespace Moment

/-- The point in time. -/
def instant (m : Moment) : Instant := (Instant.ofCivil m.civil).minusSeconds (m.offset.getD 0)

/-- A number of exactly `width` decimal digits, and what follows it. -/
def digits (width : Nat) (cs : List Char) : Option (Nat × List Char) :=
  let front := cs.take width
  if front.length = width ∧ front.all Char.isDigit then
    some (front.foldl (fun n c => 10 * n + (c.toNat - 48)) 0, cs.drop width)
  else none

/-- What follows the character `c`. -/
def after (c : Char) : List Char → Option (List Char)
  | d :: cs => if d = c then some cs else none
  | [] => none

/-- The microseconds of a fraction; digits after the sixth are dropped. -/
def fraction (cs : List Char) : Option (Nat × List Char) :=
  match cs with
  | '.' :: rest =>
    let ds := rest.takeWhile Char.isDigit
    if ds.isEmpty then none
    else
      let six := (ds ++ List.replicate 6 '0').take 6
      some (six.foldl (fun n c => 10 * n + (c.toNat - 48)) 0, rest.dropWhile Char.isDigit)
  | cs => some (0, cs)

/-- The distance from universal time, in seconds. -/
def zone (cs : List Char) : Option (Option Int) :=
  match cs with
  | [] => some none
  | ['Z'] => some (some 0)
  | sign :: rest =>
    if sign = '+' ∨ sign = '-' then do
      let (hours, rest) ← digits 2 rest
      let rest ← after ':' rest
      let (minutes, rest) ← digits 2 rest
      let (seconds, rest) ←
        match rest with
        | ':' :: rest => digits 2 rest
        | rest => some (0, rest)
      if rest.isEmpty then
        let distance : Int := ((hours * 60 + minutes) * 60 + seconds : Nat)
        some (some (if sign = '-' then -distance else distance))
      else none
    else none

/-- Reads a moment. -/
def parse? (s : String) : Option Moment := do
  let (year, cs) ← digits 4 s.toList
  let cs ← after '-' cs
  let (month, cs) ← digits 2 cs
  let cs ← after '-' cs
  let (day, cs) ← digits 2 cs
  let cs ← after 'T' cs
  let (hour, cs) ← digits 2 cs
  let cs ← after ':' cs
  let (minute, cs) ← digits 2 cs
  let cs ← after ':' cs
  let (second, cs) ← digits 2 cs
  let (micro, cs) ← fraction cs
  let offset ← zone cs
  some ⟨{ year, month, day, hour, minute, second, micro }, offset⟩

end Moment

end MountSpace
