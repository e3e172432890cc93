import BundleGraph.Cache.Depot
import BundleGraph.Proofs.Cache.Stem

/-!
# What stores return

Calls lead stores from a start to other states, and some of them set values.
Faithful stores return a value under a key only if it was set under this key.
So whatever holds of all pairs that are set holds of all that is read, through
reads of several stores and through writes to the stores in front. Memory
stores that start empty are faithful: keys with stems of one length differ in
their bytes.
-/

namespace BundleGraph

/-- The stem is as long as a digest is. -/
def CacheKey.IsFull (k : CacheKey) : Prop := k.stem.length = 32

theorem CacheKey.eq_of_toBytes_eq {j k : CacheKey} (hlen : j.stem.length = k.stem.length)
    (h : j.toBytes = k.toBytes) : j = k := by
  obtain ⟨hstem, hdigest⟩ := List.append_inj h hlen
  cases j
  cases k
  simp only at hstem hdigest
  rw [hstem, Utf8.ofString_inj hdigest]

theorem CacheKey.toBytes_inj {j k : CacheKey} (hj : j.IsFull) (hk : k.IsFull)
    (h : j.toBytes = k.toBytes) : j = k :=
  eq_of_toBytes_eq (hj.trans hk.symm) h

namespace Cache

variable {σ : Type}

/-- Calls of stores lead from the start to a state, and set pairs on the way. -/
inductive Reaches (stores : List (Store σ)) (start : σ) :
    σ → List (CacheKey × Transform.Result) → Prop
  | start : Reaches stores start start []
  | get {s : σ} {sets : List (CacheKey × Transform.Result)} {store : Store σ} {key : CacheKey} :
    Reaches stores start s sets → store ∈ stores → key.IsFull →
      Reaches stores start (store.get key s).2 sets
  | set {s : σ} {sets : List (CacheKey × Transform.Result)} {store : Store σ} {key : CacheKey}
    {value : Transform.Result} :
    Reaches stores start s sets → store ∈ stores → key.IsFull →
      Reaches stores start (store.set key value s).2 ((key, value) :: sets)

/-- The stores start empty, and return only what was set under the same key. -/
def Faithful (stores : List (Store σ)) (start : σ) : Prop :=
  ∀ s sets, Reaches stores start s sets → ∀ store ∈ stores, ∀ key value, key.IsFull →
    (store.get key s).1 = .ok (some value) → (key, value) ∈ sets

/-- All pairs that were set on the way to a state have a property. -/
def Holds (stores : List (Store σ)) (start : σ) (P : CacheKey → Transform.Result → Prop)
    (s : σ) : Prop :=
  ∃ sets, Reaches stores start s sets ∧ ∀ key value, (key, value) ∈ sets → P key value

section

variable {stores : List (Store σ)} {start s : σ} {P : CacheKey → Transform.Result → Prop}
  {store : Store σ} {key : CacheKey} {v : Transform.Result}

theorem holds_start : Holds stores start P start :=
  ⟨[], .start, by simp⟩

theorem Holds.get (h : Holds stores start P s) (hstore : store ∈ stores) (hkey : key.IsFull) :
    Holds stores start P (store.get key s).2 := by
  obtain ⟨sets, hreach, hsets⟩ := h
  exact ⟨sets, hreach.get hstore hkey, hsets⟩

theorem Holds.set (h : Holds stores start P s) (hstore : store ∈ stores) (hkey : key.IsFull)
    (hv : P key v) : Holds stores start P (store.set key v s).2 := by
  obtain ⟨sets, hreach, hsets⟩ := h
  refine ⟨_, hreach.set hstore hkey, fun k u hmem => ?_⟩
  rcases List.mem_cons.mp hmem with heq | hmem
  · cases heq
    exact hv
  · exact hsets k u hmem

theorem Holds.of_get (h : Holds stores start P s) (hfaithful : Faithful stores start)
    (hstore : store ∈ stores) (hkey : key.IsFull)
    (hv : (store.get key s).1 = .ok (some v)) : P key v := by
  obtain ⟨sets, hreach, hsets⟩ := h
  exact hsets key v (hfaithful s sets hreach store hstore key v hkey hv)

theorem Holds.search (hfaithful : Faithful stores start) (hkey : key.IsFull)
    {rest : List (Store σ)} (hrest : ∀ store ∈ rest, store ∈ stores) (index : Nat)
    (h : Holds stores start P s) : Holds stores start P (Cache.search key index rest s).2 ∧
      ∀ i value, (Cache.search key index rest s).1 = .value i value → P key value := by
  induction rest generalizing index s with
  | nil => exact ⟨h, fun i value hv => by cases hv⟩
  | cons store rest ih =>
    obtain ⟨hstore, hrest⟩ := List.forall_mem_cons.mp hrest
    have hnext := h.get hstore hkey
    have hvalue := fun value => h.of_get (v := value) hfaithful hstore hkey
    rw [Cache.search]
    generalize store.get key s = r at hnext hvalue
    rcases r with ⟨e | _ | value, s'⟩
    case error => exact ⟨hnext, fun i value hv => by cases hv⟩
    case ok.none => exact ih hrest (index + 1) hnext
    case ok.some =>
      refine ⟨hnext, fun i v hv => ?_⟩
      cases hv
      exact hvalue value rfl

theorem snd_writeAll_cons (key : CacheKey) (v : Transform.Result) (store : Store σ)
    (rest : List (Store σ)) (s : σ) : (Cache.writeAll key v (store :: rest) s).2 =
      (Cache.writeAll key v rest (store.set key v s).2).2 := by
  rw [Cache.writeAll]
  rcases store.set key v s with ⟨_ | ⟨⟩, t⟩ <;> rfl

theorem Holds.writeAll (hkey : key.IsFull) (hv : P key v) {rest : List (Store σ)}
    (hrest : ∀ store ∈ rest, store ∈ stores) (h : Holds stores start P s) :
    Holds stores start P (Cache.writeAll key v rest s).2 := by
  induction rest generalizing s with
  | nil => exact h
  | cons store rest ih =>
    obtain ⟨hstore, hrest⟩ := List.forall_mem_cons.mp hrest
    rw [snd_writeAll_cons]
    exact ih hrest (h.set hstore hkey hv)

theorem Holds.perform {w : PendingWrite} (hkey : w.key.IsFull) (hw : P w.key w.value)
    (h : Holds stores start P s) : Holds stores start P (Cache.perform stores w s).2 :=
  h.writeAll hkey hw fun _ => List.mem_of_mem_take

theorem Holds.performAll {ws : List PendingWrite}
    (hws : ∀ w ∈ ws, w.key.IsFull ∧ P w.key w.value) (h : Holds stores start P s) :
    Holds stores start P (Cache.performAll stores ws s).2 := by
  induction ws generalizing s with
  | nil => exact h
  | cons w ws ih =>
    obtain ⟨⟨hkey, hw⟩, hws⟩ := List.forall_mem_cons.mp hws
    exact ih hws (h.perform hkey hw)

end

end Cache

-- ---------------------------------------------------------------------------
-- Stores in memory
-- ---------------------------------------------------------------------------

namespace Depot

variable {codec : Gzip.Codec}

section

variable {d : Depot} {index : Nat} {entries : Entries}
  (h : d.shelves[index]? = some (.memory entries)) (name : String) (key : CacheKey)

include h

theorem get_memory : (store index name codec).get key d = (.ok (entries.lookup key.toBytes), d) := by
  have hsame : d.shelves.set index (.memory entries) = d.shelves := by
    obtain ⟨hlt, hget⟩ := List.getElem?_eq_some_iff.mp h
    rw [← hget, List.set_getElem_self]
  simp [store, h, Shelf.get, hsame]

theorem set_memory (v : Transform.Result) : ((store index name codec).set key v d).2 =
    { d with shelves := d.shelves.set index (.memory (Shelf.addEntry entries key v)) } := by
  simp [store, h, Shelf.set]

end

/-- Every shelf is in memory, and its entries are among the pairs that were set. -/
def Remembers (sets : List (CacheKey × Transform.Result)) (d : Depot) : Prop :=
  ∀ shelf ∈ d.shelves, ∃ entries, shelf = .memory entries ∧
    ∀ bytes value, (bytes, value) ∈ entries →
      ∃ key : CacheKey, key.IsFull ∧ key.toBytes = bytes ∧ (key, value) ∈ sets

theorem mem_addEntry {entries : Entries} {key : CacheKey} {v value : Transform.Result}
    {bytes : Bytes} (h : (bytes, value) ∈ Shelf.addEntry entries key v) :
    (bytes, value) ∈ entries ∨ bytes = key.toBytes ∧ value = v := by
  rw [Shelf.addEntry] at h
  split at h
  · exact .inl h
  · simpa using h

theorem mem_stores {d : Depot} {store : Store Depot} (h : store ∈ d.stores codec) :
    ∃ index < d.shelves.length, ∃ name, store = Depot.store index name codec := by
  obtain ⟨⟨shelf, index⟩, hmem, rfl⟩ := List.mem_map.mp h
  obtain ⟨-, hlt, -⟩ := List.mem_zipIdx hmem
  exact ⟨index, by simpa using hlt, shelf.name, rfl⟩

theorem Remembers.get {sets : List (CacheKey × Transform.Result)} {d : Depot}
    (h : d.Remembers sets) (index : Nat) (name : String) (key : CacheKey) :
    ((store index name codec).get key d).2 = d ∧ ∀ value,
      ((store index name codec).get key d).1 = .ok (some value) → key.IsFull →
        (key, value) ∈ sets := by
  cases hshelf : d.shelves[index]? with
  | none => simp [store, hshelf]
  | some shelf =>
    obtain ⟨entries, rfl, hentries⟩ := h shelf (List.mem_of_getElem? hshelf)
    rw [get_memory hshelf]
    refine ⟨rfl, fun value hvalue hkey => ?_⟩
    obtain ⟨front, rest, hsplit, -⟩ := List.lookup_eq_some_iff.mp (Except.ok.inj hvalue)
    obtain ⟨other, hother, hbytes, hmem⟩ := hentries key.toBytes value (by simp [hsplit])
    rwa [CacheKey.toBytes_inj hother hkey hbytes] at hmem

theorem Remembers.set {sets : List (CacheKey × Transform.Result)} {d : Depot}
    (h : d.Remembers sets) (index : Nat) (name : String) {key : CacheKey} (hkey : key.IsFull)
    (value : Transform.Result) :
    ((store index name codec).set key value d).2.Remembers ((key, value) :: sets) := by
  have hmore : d.Remembers ((key, value) :: sets) := fun shelf hs => by
    obtain ⟨entries, hentries, hsets⟩ := h shelf hs
    refine ⟨entries, hentries, fun bytes v hmem => ?_⟩
    obtain ⟨other, hother, hbytes, hset⟩ := hsets bytes v hmem
    exact ⟨other, hother, hbytes, List.mem_cons_of_mem _ hset⟩
  cases hshelf : d.shelves[index]? with
  | none => simpa [store, hshelf] using hmore
  | some shelf =>
    obtain ⟨entries, rfl, hentries⟩ := hmore shelf (List.mem_of_getElem? hshelf)
    rw [set_memory hshelf]
    intro shelf hmem
    rcases List.mem_or_eq_of_mem_set hmem with hmem | rfl
    · exact hmore shelf hmem
    · refine ⟨_, rfl, fun bytes v hv => ?_⟩
      rcases mem_addEntry hv with hv | ⟨rfl, rfl⟩
      · exact hentries bytes v hv
      · exact ⟨key, hkey, rfl, by simp⟩

theorem faithful_memory {d : Depot} (h : ∀ shelf ∈ d.shelves, shelf = .memory []) :
    Cache.Faithful (d.stores codec) d := by
  have hkept {s : Depot} {sets} (hreach : Cache.Reaches (d.stores codec) d s sets) :
      s.Remembers sets := by
    induction hreach with
    | start => exact fun shelf hs => ⟨[], h shelf hs, by simp⟩
    | get _ hstore _ ih =>
      obtain ⟨index, -, name, rfl⟩ := mem_stores hstore
      rw [(ih.get index name _).1]
      exact ih
    | set _ hstore hkey ih =>
      obtain ⟨index, -, name, rfl⟩ := mem_stores hstore
      exact ih.set index name hkey _
  intro s sets hreach store hstore key value hkey hvalue
  obtain ⟨index, -, name, rfl⟩ := mem_stores hstore
  exact ((hkept hreach).get index name key).2 value hvalue hkey

end Depot

end BundleGraph
