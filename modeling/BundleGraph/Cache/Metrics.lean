import BundleGraph.Binary64

/-!
# Cache metrics

Counts of what happened to a cache, and the share of look-ups it answered.
-/

namespace BundleGraph

inductive CacheEvent where
  | hit
  | miss
  | readFailure
  | writeFailure
  deriving DecidableEq, Repr

structure CacheMetrics where
  hits : Nat := 0
  misses : Nat := 0
  readFailures : Nat := 0
  writeFailures : Nat := 0
  deriving DecidableEq, Repr

namespace CacheMetrics

def record (m : CacheMetrics) : CacheEvent → CacheMetrics
  | .hit => { m with hits := m.hits + 1 }
  | .miss => { m with misses := m.misses + 1 }
  | .readFailure => { m with readFailures := m.readFailures + 1 }
  | .writeFailure => { m with writeFailures := m.writeFailures + 1 }

/-- The percentage of look-ups that were hits, zero without any look-up. -/
def hitRate (m : CacheMetrics) : Binary64 :=
  let total := m.hits + m.misses
  if total = 0 then .ofNat 0
  else ((Binary64.ofNat m.hits).div (.ofNat total)).mul (.ofNat 100)

end CacheMetrics

end BundleGraph
