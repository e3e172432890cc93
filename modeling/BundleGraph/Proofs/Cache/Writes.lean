import BundleGraph.Cache
import Mathlib.Data.List.Induction
import Mathlib.Data.List.Perm.Basic

/-!
# Which stores a write goes to

A cache is read and written, its pending writes are performed in any order, and
the stores may change on their own in between. `Session` plays such calls and
notes what they came to. A write goes to the stores in front of the one that gave
the last hit of its key since the key was written, and to all stores when there
is none (`writes_go_in_front`). A read that finds nothing leaves an earlier hit
in place, so that a store that has lost the key since is not filled again.
-/

namespace BundleGraph.Cache

variable {σ : Type}

-- ---------------------------------------------------------------------------
-- Sessions
-- ---------------------------------------------------------------------------

/-- What happens around a cache. The stores may be changed from elsewhere. -/
inductive Call (σ : Type) where
  | get (key : CacheKey)
  | set (key : CacheKey) (value : Transform.Result)
  | complete (index : Nat)
  | elsewhere (change : σ → σ)

/-- A read with its answer, or a write. -/
inductive Note where
  | read (key : CacheKey) (found : Found)
  | written (key : CacheKey) (value : Transform.Result)

structure Session (σ : Type) where
  cache : Cache := {}
  host : σ
  /-- Reads and writes, the latest first. -/
  notes : List Note := []

namespace Session

def call (stores : List (Store σ)) (p : Session σ) : Call σ → Session σ
  | .get key =>
    let (found, cache, host) := p.cache.get stores key p.host
    { cache, host, notes := .read key found :: p.notes }
  | .set key value =>
    { p with cache := p.cache.set stores key value, notes := .written key value :: p.notes }
  | .complete index =>
    let (_, cache, host) := p.cache.complete stores index p.host
    { p with cache, host }
  | .elsewhere change => { p with host := change p.host }

def after (stores : List (Store σ)) (host : σ) (calls : List (Call σ)) : Session σ :=
  calls.foldl (call stores) { host }

theorem after_concat (stores : List (Store σ)) (host : σ) (calls : List (Call σ)) (c : Call σ) :
    after stores host (calls ++ [c]) = (after stores host calls).call stores c := by
  simp [after]

end Session

/-- The number of the store that gave the last hit of a key since it was written. -/
def lastHit (key : CacheKey) : List Note → Option Nat
  | [] => none
  | .read k (.value index _) :: notes => if k = key then some index else lastHit key notes
  | .read _ _ :: notes => lastHit key notes
  | .written k _ :: notes => if k = key then none else lastHit key notes

/-- What the latest read of a key since it was written came to. -/
def lastRead (key : CacheKey) : List Note → Option Found
  | [] => none
  | .read k found :: notes => if k = key then some found else lastRead key notes
  | .written k _ :: notes => if k = key then none else lastRead key notes

theorem lastHit_of_lastRead_eq_none {key : CacheKey} {notes : List Note}
    (h : lastRead key notes = none) : lastHit key notes = none := by
  induction notes with
  | nil => rfl
  | cons note notes ih =>
    rcases note with ⟨k, _ | _ | _⟩ | ⟨k, _⟩ <;> by_cases hk : k = key <;>
      simp_all [lastRead, lastHit]

theorem lastHit_of_lastRead {key : CacheKey} {notes : List Note} {index : Nat}
    {value : Transform.Result} (h : lastRead key notes = some (.value index value)) :
    lastHit key notes = some index := by
  induction notes with
  | nil => cases h
  | cons note notes ih =>
    rcases note with ⟨k, _ | _ | _⟩ | ⟨k, _⟩ <;> by_cases hk : k = key <;>
      simp_all [lastRead, lastHit]

/-- How many of the stores are in front. -/
def front (count : Nat) (key : CacheKey) (notes : List Note) : Nat :=
  (lastHit key notes).getD count

/-- Writes of single stores: the number of the store, the key and the value. -/
abbrev WriteLog := List (Nat × CacheKey × Transform.Result)

def inFront (count : Nat) (key : CacheKey) (value : Transform.Result) : WriteLog :=
  (List.range count).map (·, key, value)

/-- Every write of a session goes to the stores in front at that time. -/
def dueWrites (count : Nat) : List Note → WriteLog
  | [] => []
  | .read _ _ :: notes => dueWrites count notes
  | .written key value :: notes => inFront (front count key notes) key value ++ dueWrites count notes

-- ---------------------------------------------------------------------------
-- Stores that note their writes
-- ---------------------------------------------------------------------------

/-- Answers as a store does, and notes what it is to write. -/
def noting (store : Store σ) (index : Nat) : Store (σ × WriteLog) where
  name := store.name
  get key s := ((store.get key s.1).1, (store.get key s.1).2, s.2)
  set key value s :=
    ((store.set key value s.1).1, (store.set key value s.1).2, s.2 ++ [(index, key, value)])

/-- Stores that note their writes, with numbers from `index` on. -/
def notingFrom (index : Nat) : List (Store σ) → List (Store (σ × WriteLog))
  | [] => []
  | store :: stores => noting store index :: notingFrom (index + 1) stores

/-- The same call where stores note their writes. -/
def Call.noting : Call σ → Call (σ × WriteLog)
  | get key => get key
  | set key value => set key value
  | complete index => complete index
  | elsewhere change => elsewhere fun s => (change s.1, s.2)

section Noting

variable (stores : List (Store σ)) (key : CacheKey) (value : Transform.Result) (s : σ)
  (log : WriteLog)

@[simp] theorem length_notingFrom (index : Nat) :
    (notingFrom index stores).length = stores.length := by
  induction stores generalizing index with
  | nil => rfl
  | cons store stores ih => simp [notingFrom, ih]

theorem take_notingFrom (depth index : Nat) :
    (notingFrom index stores).take depth = notingFrom index (stores.take depth) := by
  induction stores generalizing depth index with
  | nil => simp [notingFrom]
  | cons store stores ih => cases depth <;> simp [notingFrom, ih]

theorem search_notingFrom (first index : Nat) :
    search key index (notingFrom first stores) (s, log) =
      ((search key index stores s).1, (search key index stores s).2, log) := by
  induction stores generalizing first index s with
  | nil => rfl
  | cons store stores ih =>
    simp only [notingFrom, search, noting]
    obtain ⟨_ | _ | _, t⟩ := store.get key s
    · rfl
    · exact ih t (first + 1) (index + 1)
    · rfl

theorem writeAll_notingFrom (index : Nat) :
    writeAll key value (notingFrom index stores) (s, log) =
      ((writeAll key value stores s).1, (writeAll key value stores s).2,
        log ++ (List.range' index stores.length).map (·, key, value)) := by
  induction stores generalizing index s log with
  | nil => simp [notingFrom, writeAll]
  | cons store stores ih =>
    rcases hset : store.set key value s with ⟨_ | ⟨⟩, t⟩ <;>
      simp [notingFrom, writeAll, noting, ih, hset, List.range'_succ]

end Noting

abbrev notingAll (stores : List (Store σ)) : List (Store (σ × WriteLog)) := notingFrom 0 stores

/-- The writes of single stores that a pending write stands for. -/
def targets (w : PendingWrite) : WriteLog := inFront w.depth w.key w.value

section Perform

variable {stores : List (Store σ)} {w : PendingWrite} {ws : List PendingWrite} (s : σ)
  (log : WriteLog)

theorem perform_notingAll (hw : w.depth ≤ stores.length) :
    perform (notingAll stores) w (s, log) =
      ((perform stores w s).1, (perform stores w s).2, log ++ targets w) := by
  rw [perform, take_notingFrom, writeAll_notingFrom, List.length_take, Nat.min_eq_left hw,
    ← List.range_eq_range']
  rfl

theorem performAll_notingAll (hws : ∀ w ∈ ws, w.depth ≤ stores.length) :
    performAll (notingAll stores) ws (s, log) =
      ((performAll stores ws s).1, (performAll stores ws s).2, log ++ ws.flatMap targets) := by
  induction ws generalizing s log with
  | nil => simp [performAll]
  | cons w ws ih =>
    obtain ⟨hw, hws⟩ := List.forall_mem_cons.mp hws
    simp [performAll, perform_notingAll s log hw, ih _ _ hws]

end Perform

-- ---------------------------------------------------------------------------
-- What the table of hits tells
-- ---------------------------------------------------------------------------

theorem lookup_forget (hits : List (CacheKey × Nat)) (key k : CacheKey) :
    (forget hits key).lookup k = if key = k then none else hits.lookup k := by
  induction hits with
  | nil => simp [forget]
  | cons hit hits ih =>
    obtain ⟨j, index⟩ := hit
    by_cases hj : j = key
    · subst hj
      rw [forget, List.filter_cons_of_neg (by simp), ← forget, ih, List.lookup_cons]
      by_cases hk : j = k
      · simp [hk]
      · simp [hk, beq_eq_false_iff_ne.mpr (Ne.symm hk)]
    · rw [forget, List.filter_cons_of_pos (by simpa using hj), ← forget, List.lookup_cons, ih,
        List.lookup_cons]
      by_cases hk : k = j
      · simp [hk, Ne.symm hj]
      · simp [beq_eq_false_iff_ne.mpr hk]

theorem lt_of_search {stores : List (Store σ)} {key : CacheKey} {first index : Nat} {s t : σ}
    {value : Transform.Result} (h : search key first stores s = (.value index value, t)) :
    index < first + stores.length := by
  induction stores generalizing first s with
  | nil => cases h
  | cons store stores ih =>
    rw [search] at h
    split at h
    · cases h
      simp
    · have := ih h
      rw [List.length_cons]
      omega
    · cases h

namespace Session

variable {stores : List (Store σ)} {p : Session σ} {log : WriteLog}

def noted (p : Session σ) (log : WriteLog) : Session (σ × WriteLog) where
  cache := p.cache
  host := (p.host, log)
  notes := p.notes

/-- The table of hits holds the last hits, and what was written and is still to be
written is what was due. -/
structure Tracked (stores : List (Store σ)) (p : Session σ) (log : WriteLog) : Prop where
  hits : ∀ key, p.cache.hits.lookup key = lastHit key p.notes
  hit_lt : ∀ key index, lastHit key p.notes = some index → index < stores.length
  pending : ∀ w ∈ p.cache.pending, w.depth ≤ stores.length
  writes : (log ++ p.cache.pending.flatMap targets).Perm (dueWrites stores.length p.notes)

namespace Tracked

theorem start (stores : List (Store σ)) (host : σ) : Tracked stores { host } [] where
  hits := fun _ => rfl
  hit_lt := nofun
  pending := nofun
  writes := .refl _

theorem depth_eq (h : Tracked stores p log) (key : CacheKey) :
    p.cache.depth stores key = front stores.length key p.notes := by
  rw [depth, h.hits, front]

theorem front_le (h : Tracked stores p log) (key : CacheKey) :
    front stores.length key p.notes ≤ stores.length := by
  rw [front]
  cases hhit : lastHit key p.notes with
  | none => exact Nat.le_refl _
  | some index => exact Nat.le_of_lt (h.hit_lt key index hhit)

theorem front_eq_length_iff (h : Tracked stores p log) (key : CacheKey) :
    front stores.length key p.notes = stores.length ↔ lastHit key p.notes = none := by
  rw [front]
  cases hhit : lastHit key p.notes with
  | none => simp
  | some index => simp [Nat.ne_of_lt (h.hit_lt key index hhit)]

theorem get (h : Tracked stores p log) (key : CacheKey) :
    (p.noted log).call (notingAll stores) (.get key) = (p.call stores (.get key)).noted log ∧
      Tracked stores (p.call stores (.get key)) log := by
  simp only [call, noted, Cache.get, search_notingFrom]
  rcases hsearch : search key 0 stores p.host with ⟨index | _ | _, t⟩
  case value value =>
    refine ⟨rfl, ⟨fun k => ?_, fun k i hhit => ?_, h.pending, h.writes⟩⟩
    · rw [List.lookup_cons, lookup_forget, h.hits, lastHit]
      by_cases hk : key = k
      · simp [hk]
      · simp [hk, beq_eq_false_iff_ne.mpr (Ne.symm hk)]
    · rw [lastHit] at hhit
      split at hhit
      · cases hhit
        simpa using lt_of_search hsearch
      · exact h.hit_lt k i hhit
  case nothing => exact ⟨rfl, h.hits, h.hit_lt, h.pending, h.writes⟩
  case failure => exact ⟨rfl, h.hits, h.hit_lt, h.pending, h.writes⟩

/-- The pending writes that a write adds: none when no store is in front. -/
def issued (count : Nat) (key : CacheKey) (value : Transform.Result) : List PendingWrite :=
  if count = 0 then [] else [⟨key, value, count⟩]

theorem flatMap_issued (count : Nat) (key : CacheKey) (value : Transform.Result) :
    (issued count key value).flatMap targets = inFront count key value := by
  rw [issued]
  split
  · rename_i hzero
    simp [hzero, inFront]
  · simp [targets]

theorem pending_set (h : Tracked stores p log) (key : CacheKey) (value : Transform.Result) :
    (p.cache.set stores key value).pending =
      p.cache.pending ++ issued (front stores.length key p.notes) key value := by
  simp only [Cache.set, h.depth_eq, issued]
  split <;> simp

theorem depth_of_mem_issued (h : Tracked stores p log) {key : CacheKey}
    {value : Transform.Result} {w : PendingWrite}
    (hw : w ∈ issued (front stores.length key p.notes) key value) : w.depth ≤ stores.length := by
  rw [issued] at hw
  split at hw
  · cases hw
  · rw [List.mem_singleton.mp hw]
    exact h.front_le key

theorem set (h : Tracked stores p log) (key : CacheKey) (value : Transform.Result) :
    (p.noted log).call (notingAll stores) (.set key value) =
        (p.call stores (.set key value)).noted log ∧
      Tracked stores (p.call stores (.set key value)) log := by
  have hsame : p.cache.set (notingAll stores) key value = p.cache.set stores key value := by
    rw [Cache.set, Cache.set, depth, depth, length_notingFrom]
  refine ⟨by simp only [call, noted, hsame], ?_⟩
  refine
    { hits := fun k => ?_
      hit_lt := fun k i hhit => ?_
      pending := fun w hw => ?_
      writes := ?_ }
  · show (forget p.cache.hits key).lookup k = lastHit k (.written key value :: p.notes)
    rw [lookup_forget, h.hits, lastHit]
  · simp only [call, lastHit] at hhit
    split at hhit
    · cases hhit
    · exact h.hit_lt k i hhit
  · simp only [call] at hw
    rw [h.pending_set] at hw
    exact (List.mem_append.mp hw).elim (h.pending w) h.depth_of_mem_issued
  · simp only [call]
    rw [h.pending_set, List.flatMap_append, flatMap_issued, ← List.append_assoc, dueWrites]
    exact List.perm_append_comm.trans (h.writes.append_left _)

theorem complete (h : Tracked stores p log) (index : Nat) :
    ∃ log', (p.noted log).call (notingAll stores) (.complete index) =
        (p.call stores (.complete index)).noted log' ∧
      Tracked stores (p.call stores (.complete index)) log' := by
  simp only [call, noted, Cache.complete]
  cases hw : p.cache.pending[index]? with
  | none => exact ⟨log, rfl, h.hits, h.hit_lt, h.pending, h.writes⟩
  | some w =>
    dsimp only
    have hmem := List.mem_of_getElem? hw
    rw [perform_notingAll p.host log (h.pending w hmem)]
    refine ⟨log ++ targets w, rfl, h.hits, h.hit_lt,
      fun w' hw' => h.pending w' (List.mem_of_mem_eraseIdx hw'), .trans ?_ h.writes⟩
    obtain ⟨hlt, rfl⟩ := List.getElem?_eq_some_iff.mp hw
    have hperm := (List.getElem_cons_eraseIdx_perm hlt).flatMap_right targets
    rw [List.append_assoc]
    exact hperm.append_left log

theorem call (h : Tracked stores p log) (c : Call σ) :
    ∃ log', (p.noted log).call (notingAll stores) c.noting = (p.call stores c).noted log' ∧
      Tracked stores (p.call stores c) log' := by
  cases c with
  | get key => exact ⟨log, h.get key⟩
  | set key value => exact ⟨log, h.set key value⟩
  | complete index => exact h.complete index
  | elsewhere change => exact ⟨log, rfl, h.hits, h.hit_lt, h.pending, h.writes⟩

end Tracked

/-- Stores that note their writes change nothing else, and after any calls the notes
and the pending writes are what was due. -/
theorem tracked_after (stores : List (Store σ)) (host : σ) (calls : List (Call σ)) :
    ∃ log, after (notingAll stores) (host, []) (calls.map .noting) =
        (after stores host calls).noted log ∧ Tracked stores (after stores host calls) log := by
  induction calls using List.reverseRecOn with
  | nil => exact ⟨[], rfl, .start stores host⟩
  | append_singleton calls c ih =>
    obtain ⟨log, hafter, htracked⟩ := ih
    rw [List.map_append, List.map_singleton, after_concat, after_concat, hafter]
    exact htracked.call c

end Session

/-- Whatever the stores answer and however they change in between, a write goes to the
stores in front, once to each and in order, and performing all that is pending makes
the writes that were due and no others. In front are the stores before the one that
gave the last hit of the key since it was written, and all stores when there is
none. So when the latest read since has a value these are the stores before the one
that gave it, and without any read they are all. A read without a value takes no hit
back: behind it they are all only if no earlier read was a hit. -/
theorem writes_go_in_front (stores : List (Store σ)) (host : σ) (calls : List (Call σ)) :
    let p := Session.after stores host calls
    (∀ key value, ∃ issued,
      (p.cache.set stores key value).pending = p.cache.pending ++ issued ∧
      ∀ s log, (performAll (notingAll stores) issued (s, log)).2.2 =
        log ++ inFront (front stores.length key p.notes) key value) ∧
    (∃ log,
      Session.after (notingAll stores) (host, []) (calls.map .noting) = p.noted log ∧
      (flush (notingAll stores) p.cache (p.host, log)).2.2.2.Perm
        (dueWrites stores.length p.notes)) ∧
    ∀ key,
      (∀ index value, lastRead key p.notes = some (.value index value) →
        front stores.length key p.notes = index) ∧
      (lastRead key p.notes = none → front stores.length key p.notes = stores.length) ∧
      (front stores.length key p.notes = stores.length ↔ lastHit key p.notes = none) := by
  intro p
  obtain ⟨log, hafter, htracked⟩ := Session.tracked_after stores host calls
  refine ⟨fun key value => ⟨_, htracked.pending_set key value, fun s log => ?_⟩,
    ⟨log, hafter, ?_⟩, fun key => ⟨fun index value h => ?_, fun h => ?_,
      htracked.front_eq_length_iff key⟩⟩
  · rw [performAll_notingAll s log fun w hw => htracked.depth_of_mem_issued hw,
      Session.Tracked.flatMap_issued]
  · rw [flush, performAll_notingAll p.host log htracked.pending]
    exact htracked.writes
  · rw [front, lastHit_of_lastRead h, Option.getD_some]
  · rw [front, lastHit_of_lastRead_eq_none h, Option.getD_none]

def noResult : Transform.Result := ⟨[], []⟩

/-- Two stores, of which the second has a value for every key as long as the host says
so. -/
def fleeting : List (Store Bool) :=
  let empty : Store Bool := ⟨"empty", fun _ s => (.ok none, s), fun _ _ s => (.ok (), s)⟩
  [empty, { empty with get := fun _ s => (.ok (if s then some noResult else none), s) }]

/-- A key is read twice, and is lost in between. -/
def lostBetween (key : CacheKey) : List (Call Bool) :=
  [.get key, .elsewhere fun _ => false, .get key]

-- The second store has lost the key and is still not filled again.
example : (((Session.after fleeting true (lostBetween ⟨[], ""⟩)).cache.set fleeting ⟨[], ""⟩
    noResult).pending.map (·.depth)) = [1] := by decide

end BundleGraph.Cache
