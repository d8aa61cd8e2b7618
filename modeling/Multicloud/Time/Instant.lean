import Multicloud.Text.Numeral
import Multicloud.Time.Calendar
import Std.Data.ExtTreeMap.Lemmas

namespace Multicloud

namespace Instant

/-- The start of the year -262143. -/
def first : Int := -8334601228800

/-- The end of the year 262142. -/
def last : Int := 8210266876799

def second : Nat := 1000000000

end Instant

structure Instant where
  /-- Since the start of 1970. -/
  seconds : Int
  /-- A leap second prolongs the last second of a minute. -/
  nanos : Nat
  seconds_mem : Instant.first ≤ seconds ∧ seconds ≤ Instant.last
  nanos_lt : nanos < Instant.second ∨ nanos < 2 * Instant.second ∧ seconds % 60 = 59
  deriving DecidableEq

namespace Instant

def of? (seconds : Int) (nanos : Nat) : Option Instant :=
  if h : (first ≤ seconds ∧ seconds ≤ last) ∧
      (nanos < second ∨ nanos < 2 * second ∧ seconds % 60 = 59) then
    some ⟨seconds, nanos, h.1, h.2⟩
  else none

instance : Ord Instant :=
  ⟨fun s t ↦ (compare s.seconds t.seconds).then (compare s.nanos t.nanos)⟩

def count (t : Instant) : Int := t.seconds * second + t.nanos

def shortCount (t : Instant) : Int :=
  if -9223372036854775808 ≤ t.count ∧ t.count < 9223372036854775808 then t.count else 0

def runIds : Nat := 281474976710656

/-- The name of a run that was at this time. Names come again after `2 ^ 48` nanoseconds, which is
about three days. -/
def runId (t : Instant) : String :=
  "r-" ++ String.ofList (Text.hexOfWidth 12 (t.shortCount % runIds).toNat)

end Instant

end Multicloud
