import Cpu32.Log.Date
import Cpu32.Text.Number

/-!
# Time stamps

Seconds and milliseconds since the beginning of 1970, as a date and a time of day.
-/

namespace Cpu32.Log

structure Timestamp where
  /-- The year modulo 2^32. -/
  year : UInt32
  month : Nat
  day : Nat
  hour : Nat
  minute : Nat
  second : Nat
  millis : UInt32
deriving DecidableEq, Repr

namespace Timestamp

def ofUnix (seconds : UInt64) (millis : UInt32) : Timestamp :=
  let n := seconds.toNat
  let date := Date.ofDays (n / 86400)
  { year := UInt32.ofNat date.year
    month := date.month
    day := date.day
    hour := n / 3600 % 24
    minute := n / 60 % 60
    second := n % 60
    millis }

open Text (padded) in
def text (t : Timestamp) : String :=
  let date := s!"{padded 4 t.year.toNat}-{padded 2 t.month}-{padded 2 t.day}"
  let time := s!"{padded 2 t.hour}:{padded 2 t.minute}:{padded 2 t.second}"
  s!"{date} {time}.{padded 3 t.millis.toNat}"

end Timestamp

end Cpu32.Log
