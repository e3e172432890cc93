import BundleGraph.Error
import BundleGraph.Queue

/-!
# Loaders

A loader produces the transformed content of a file. `LoadMemo` keeps the
loads of one traversal: each path is loaded at most once, requests for a path
in flight join its load, and a settled path is answered at once.
-/

namespace BundleGraph

/-- What a load delivers, and for how many polls it stays pending. -/
structure Load where
  outcome : Except BuildError LoadedFile
  polls : Nat := 0

structure Loader (σ : Type) where
  load : String → σ → Load × σ

inductive LoadState where
  | ready (file : LoadedFile)
  | inFlight (future : Future BuildError LoadedFile)

structure LoadMemo (σ : Type) where
  host : σ
  entries : Std.TreeMap String LoadState := ∅
  count : Nat := 0

namespace LoadMemo

variable {σ : Type}

/-- Every failure reaches its waiters as shared. -/
def sharedOutcome (outcome : Except BuildError LoadedFile) : Except BuildError LoadedFile :=
  outcome.mapError .shared

theorem sharedOutcome_eq_ok {outcome : Except BuildError LoadedFile} {file : LoadedFile} :
    sharedOutcome outcome = .ok file ↔ outcome = .ok file := by
  cases outcome with
  | error e => exact ⟨nofun, nofun⟩
  | ok loaded => exact .rfl

def load (loader : Loader σ) (m : LoadMemo σ) (path : String) :
    Started BuildError LoadedFile × LoadMemo σ :=
  match m.entries[path]? with
  | some (.ready file) => (.ready (.ok file), m)
  | some (.inFlight future) => (.pending future, m)
  | none =>
    let (l, host) := loader.load path m.host
    let future : Future BuildError LoadedFile := ⟨sharedOutcome l.outcome, m.count, l.polls⟩
    (.pending future, ⟨host, m.entries.insert path (.inFlight future), m.count + 1⟩)

/-- Records a completed load, so that later requests are answered at once. -/
def settle (m : LoadMemo σ) (path : String) (file : LoadedFile) : LoadMemo σ :=
  { m with entries := m.entries.insert path (.ready file) }

end LoadMemo

end BundleGraph
