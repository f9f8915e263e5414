/-
  RowStore/Pager/Counters.lean
  ============================
  **How much work a pager has done.**  Requests are hits or misses, and pages are
  read from the file and written to it.  Counters wrap around at 64 bits.
-/
import RowStore.Decimal.Fixed
import RowStore.Failure

namespace RowStore

/-- The counters of a pager. -/
structure Counters where
  hits : UInt64 := 0
  misses : UInt64 := 0
  reads : UInt64 := 0
  writes : UInt64 := 0
deriving DecidableEq, Inhabited

namespace Counters

instance : Add Counters where
  add a b :=
    { hits := a.hits + b.hits, misses := a.misses + b.misses
      reads := a.reads + b.reads, writes := a.writes + b.writes }

def hit : Counters := { hits := 1 }
def miss : Counters := { misses := 1 }
def read : Counters := { reads := 1 }
def write : Counters := { writes := 1 }

/-- The share of the requests that were hits, 0 before the first request. -/
def hitRate (c : Counters) : Float :=
  let total := c.hits + c.misses
  if total = 0 then 0 else c.hits.toFloat / total.toFloat

/-- The counters in one line, the hit rate as a percentage with two places. -/
def text (c : Counters) : String :=
  s!"Stats \x7b hits: {c.hits}, misses: {c.misses}, reads: {c.reads}, writes: {c.writes}, " ++
    s!"hit_rate: {Decimal.twoPlaces (c.hitRate * 100)}% \x7d"

/-- Counters that somebody has put together are reported only if the requests can be added
    up.  Those of a pager can: nobody waits for so many of them. -/
def checked (c : Counters) : Except Failure Counters :=
  if c.hits + c.misses < c.hits then crash .overflow else .ok c

end Counters
end RowStore
