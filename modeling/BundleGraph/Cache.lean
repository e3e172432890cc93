import BundleGraph.Cache.Key
import BundleGraph.Error

/-!
# Layered caches

A cache consults stores in order. A read stops at the first store that has the
key; the next write of that key goes only to the stores in front of it, so
that fast stores are filled from slow ones. Writes wait until they are
performed, and their failures are reported, not raised.
-/

namespace BundleGraph

/-- A store of transform results, over a state that stores may share. -/
structure Store (σ : Type) where
  name : String
  get : CacheKey → σ → Except BuildError (Option Transform.Result) × σ
  set : CacheKey → Transform.Result → σ → Except BuildError Unit × σ

structure StoreFailure where
  isRead : Bool
  store : String
  key : CacheKey
  reason : String
  deriving DecidableEq, Repr

def StoreFailure.error (f : StoreFailure) : BuildError := .cacheRead (f.store ++ ": " ++ f.reason)

/-- A write to the stores in front, `depth` of them. -/
structure PendingWrite where
  key : CacheKey
  value : Transform.Result
  depth : Nat

structure Cache where
  /-- Which store gave the last value that was read of a key. -/
  hits : List (CacheKey × Nat) := []
  pending : List PendingWrite := []

namespace Cache

variable {σ : Type}

inductive Found where
  | value (index : Nat) (value : Transform.Result)
  | nothing
  | failure (failure : StoreFailure)

/-- Reads stores in order, the first having number `index`. -/
def search (key : CacheKey) : Nat → List (Store σ) → σ → Found × σ
  | _, [], s => (.nothing, s)
  | index, store :: stores, s =>
    match store.get key s with
    | (.ok (some value), s) => (.value index value, s)
    | (.ok none, s) => search key (index + 1) stores s
    | (.error e, s) => (.failure ⟨true, store.name, key, e.message⟩, s)

def forget (hits : List (CacheKey × Nat)) (key : CacheKey) : List (CacheKey × Nat) :=
  hits.filter (·.1 ≠ key)

/-- Reads a key. A store that fails ends the read. -/
def get (stores : List (Store σ)) (key : CacheKey) (c : Cache) (s : σ) : Found × Cache × σ :=
  match search key 0 stores s with
  | (.value index value, s) =>
    (.value index value, { c with hits := (key, index) :: forget c.hits key }, s)
  | (found, s) => (found, c, s)

/-- How many stores a write of a key goes to. -/
def depth (c : Cache) (stores : List (Store σ)) (key : CacheKey) : Nat :=
  (c.hits.lookup key).getD stores.length

/-- Issues a write, unless the first store answered the last read. -/
def set (stores : List (Store σ)) (key : CacheKey) (value : Transform.Result) (c : Cache) : Cache :=
  let depth := c.depth stores key
  { hits := forget c.hits key
    pending := if depth = 0 then c.pending else c.pending ++ [⟨key, value, depth⟩] }

def writeAll (key : CacheKey) (value : Transform.Result) :
    List (Store σ) → σ → List StoreFailure × σ
  | [], s => ([], s)
  | store :: stores, s =>
    let (result, s) := store.set key value s
    let (failures, s) := writeAll key value stores s
    match result with
    | .ok () => (failures, s)
    | .error e => (⟨false, store.name, key, e.message⟩ :: failures, s)

def perform (stores : List (Store σ)) (w : PendingWrite) (s : σ) : List StoreFailure × σ :=
  writeAll w.key w.value (stores.take w.depth) s

def complete (stores : List (Store σ)) (index : Nat) (c : Cache) (s : σ) :
    List StoreFailure × Cache × σ :=
  match c.pending[index]? with
  | none => ([], c, s)
  | some w =>
    let (failures, s) := perform stores w s
    (failures, { c with pending := c.pending.eraseIdx index }, s)

def performAll (stores : List (Store σ)) : List PendingWrite → σ → List StoreFailure × σ
  | [], s => ([], s)
  | w :: ws, s =>
    let (failures, s) := perform stores w s
    let (more, s) := performAll stores ws s
    (failures ++ more, s)

def flush (stores : List (Store σ)) (c : Cache) (s : σ) : List StoreFailure × Cache × σ :=
  let (failures, s) := performAll stores c.pending s
  (failures, { c with pending := [] }, s)

end Cache

end BundleGraph
