import BundleGraph.Proofs.Cache.Stores

/-!
# Stores that keep

A store holds a value under a key if a read returns it. Stores keep what they
are given if reads succeed and leave all that is held, and if a write makes its
store hold the key, while nothing else comes to be held anywhere. Which of two
values stays is open: a memory store keeps the first and a store of files the
last. Stores may also share what they hold.
-/

namespace BundleGraph

/-- What a read of the key returns. -/
def Store.held {σ : Type} (store : Store σ) (key : CacheKey) (s : σ) : Option Transform.Result :=
  (store.get key s).1.toOption.join

namespace Cache

variable {σ : Type} {stores rest : List (Store σ)} {store : Store σ} {start s t u : σ}
  {key k : CacheKey} {v w : Transform.Result}

/-- Calls of stores lead from the start to a state. -/
def Reachable (stores : List (Store σ)) (start s : σ) : Prop := ∃ sets, Reaches stores start s sets

theorem Reachable.get (h : Reachable stores start s) (hstore : store ∈ stores)
    (hkey : key.IsFull) : Reachable stores start (store.get key s).2 :=
  h.imp fun _ hreach => hreach.get hstore hkey

theorem Reachable.set (h : Reachable stores start s) (hstore : store ∈ stores)
    (hkey : key.IsFull) (v : Transform.Result) :
    Reachable stores start (store.set key v s).2 :=
  h.elim fun _ hreach => ⟨_, hreach.set hstore hkey⟩

/-- All that is held in one state is held in the other, and nothing else. -/
def SameHeld (stores : List (Store σ)) (s t : σ) : Prop :=
  ∀ store ∈ stores, ∀ k : CacheKey, k.IsFull → store.held k t = store.held k s

/-- Stores may come to hold the value under the key, and nothing else changes. -/
def Gains (stores : List (Store σ)) (key : CacheKey) (v : Transform.Result) (s t : σ) : Prop :=
  ∀ store ∈ stores, ∀ k : CacheKey, k.IsFull →
    store.held k t = store.held k s ∨ k = key ∧ store.held k t = some v

theorem SameHeld.gains (h : SameHeld stores s t) : Gains stores key v s t :=
  fun store hstore k hk => .inl (h store hstore k hk)

theorem SameHeld.refl (stores : List (Store σ)) (s : σ) : SameHeld stores s s :=
  fun _ _ _ _ => rfl

theorem SameHeld.trans (h : SameHeld stores s t) (h' : SameHeld stores t u) :
    SameHeld stores s u :=
  fun store hstore k hk => (h' store hstore k hk).trans (h store hstore k hk)

theorem Gains.trans (h : Gains stores key v s t) (h' : Gains stores key v t u) :
    Gains stores key v s u := by
  intro store hstore k hk
  rcases h' store hstore k hk with heq | hgain
  · rw [heq]
    exact h store hstore k hk
  · exact .inr hgain

theorem Gains.isSome (h : Gains stores key v s t) (hstore : store ∈ stores) (hk : k.IsFull)
    (hsome : (store.held k s).isSome) : (store.held k t).isSome := by
  rcases h store hstore k hk with heq | ⟨-, heq⟩ <;> simp [heq, hsome]

theorem Gains.eq_of_none (h : Gains stores key v s t) (hstore : store ∈ stores)
    (hkey : key.IsFull) (hnone : store.held key s = none) (hsome : (store.held key t).isSome) :
    store.held key t = some v := by
  rcases h store hstore key hkey with heq | ⟨-, heq⟩
  · simp [heq, hnone] at hsome
  · exact heq

/-- How a store that keeps treats the calls for a key. -/
structure KeepsIn (stores : List (Store σ)) (store : Store σ) (key : CacheKey) (s : σ) : Prop where
  get_eq : (store.get key s).1 = .ok (store.held key s)
  get_same : SameHeld stores s (store.get key s).2
  set_gains (v : Transform.Result) : Gains stores key v s (store.set key v s).2
  set_isSome (v : Transform.Result) : (store.held key (store.set key v s).2).isSome

/-- The stores keep what they are given, whatever they held at the start. -/
def Keeps (stores : List (Store σ)) (start : σ) : Prop :=
  ∀ s, Reachable stores start s → ∀ store ∈ stores, ∀ key : CacheKey, key.IsFull →
    KeepsIn stores store key s

-- ---------------------------------------------------------------------------
-- Reads
-- ---------------------------------------------------------------------------

/-- What the first store that holds the key holds under it. -/
def firstHeld (stores : List (Store σ)) (key : CacheKey) (s : σ) : Option Transform.Result :=
  stores.findSome? fun store => store.held key s

theorem findSome?_of_gain {α β : Type} {f g : α → Option β} {b : β} {xs : List α}
    (h : ∀ x ∈ xs, g x = f x ∨ g x = some b) (hf : xs.findSome? f = some b) :
    xs.findSome? g = some b := by
  induction xs with
  | nil => cases hf
  | cons x xs ih =>
    obtain ⟨hx, hxs⟩ := List.forall_mem_cons.mp h
    rw [List.findSome?_cons] at hf ⊢
    rcases hx with hx | hx
    · rw [hx]
      cases hfx : f x with
      | none => exact ih hxs (by simpa [hfx] using hf)
      | some a => simpa [hfx] using hf
    · simp [hx]

theorem SameHeld.firstHeld (h : SameHeld stores s t) (hk : k.IsFull)
    (hfirst : firstHeld stores k s = some w) : Cache.firstHeld stores k t = some w :=
  findSome?_of_gain (fun store hstore => .inl (h store hstore k hk)) hfirst

theorem Gains.firstHeld (h : Gains stores key v s t) (hk : k.IsFull)
    (hfirst : firstHeld stores k s = some w) (hv : k = key → v = w) :
    Cache.firstHeld stores k t = some w := by
  refine findSome?_of_gain (fun store hstore => ?_) hfirst
  rcases h store hstore k hk with heq | ⟨heq, hgain⟩
  · exact .inl heq
  · cases hv heq
    exact .inr hgain

/-- Where a read ends, by what the stores hold. -/
inductive Finds (key : CacheKey) (s : σ) (index : Nat) (rest : List (Store σ)) : Found → Prop
  | nothing : (∀ store ∈ rest, store.held key s = none) → Finds key s index rest .nothing
  | value {front back : List (Store σ)} {store : Store σ} {v : Transform.Result} {i : Nat} :
    rest = front ++ store :: back → (∀ store ∈ front, store.held key s = none) →
      store.held key s = some v → i = index + front.length → Finds key s index rest (.value i v)

theorem Finds.cons {index : Nat} {found : Found} (h : Finds key t (index + 1) rest found)
    (hnone : store.held key s = none) (hsame : ∀ store ∈ rest, store.held key t = store.held key s) :
    Finds key s index (store :: rest) found := by
  cases h with
  | nothing hrest =>
    refine .nothing (List.forall_mem_cons.mpr ⟨hnone, fun x hx => ?_⟩)
    rw [← hsame x hx, hrest x hx]
  | @value front back x v i hsplit hfront hx hi =>
    subst hsplit
    have hnone' : ∀ y ∈ store :: front, y.held key s = none :=
      List.forall_mem_cons.mpr ⟨hnone, fun y hy => by rw [← hsame y (by simp [hy]), hfront y hy]⟩
    refine .value (List.cons_append ..).symm hnone' (by rw [← hsame x (by simp), hx]) ?_
    rw [hi, List.length_cons]
    omega

theorem Finds.firstHeld {i : Nat} (h : Finds key s 0 stores (.value i v)) :
    firstHeld stores key s = some v := by
  cases h with
  | value hsplit hfront hstore _ =>
    exact List.findSome?_eq_some_iff.mpr ⟨_, _, _, hsplit, hstore, hfront⟩

theorem Finds.firstHeld_eq_none (h : Finds key s 0 stores .nothing) :
    Cache.firstHeld stores key s = none := by
  cases h with
  | nothing hnone => exact List.findSome?_eq_none_iff.mpr hnone

theorem firstHeld_of_forall (hne : stores ≠ []) (h : ∀ store ∈ stores, store.held key s = some v) :
    firstHeld stores key s = some v := by
  cases stores with
  | nil => contradiction
  | cons store rest => simp [firstHeld, h store (by simp)]

/-- A search changes nothing that is held, and ends at the first store that
holds the key. -/
theorem Keeps.search (h : Keeps stores start) (hkey : key.IsFull)
    (hrest : ∀ store ∈ rest, store ∈ stores) (index : Nat) (hs : Reachable stores start s) :
    Reachable stores start (search key index rest s).2 ∧
      SameHeld stores s (search key index rest s).2 ∧
      Finds key s index rest (search key index rest s).1 := by
  induction rest generalizing index s with
  | nil => exact ⟨hs, .refl _ _, .nothing (by simp)⟩
  | cons store rest ih =>
    obtain ⟨hstore, hrest⟩ := List.forall_mem_cons.mp hrest
    obtain ⟨hget, hsame, -, -⟩ := h s hs store hstore key hkey
    have hnext := hs.get hstore hkey
    rw [Cache.search]
    generalize store.get key s = r at hget hsame hnext
    obtain ⟨answer, t⟩ := r
    simp only at hget hsame hnext
    subst hget
    cases hheld : store.held key s with
    | some v => exact ⟨hnext, hsame, .value (List.nil_append _).symm (by simp) hheld rfl⟩
    | none =>
      obtain ⟨hlast, hsame', hfinds⟩ := ih hrest (index + 1) hnext
      exact ⟨hlast, hsame.trans hsame',
        hfinds.cons hheld fun x hx => hsame x (hrest x hx) key hkey⟩

theorem Keeps.search_cases (h : Keeps stores start) (hkey : key.IsFull)
    (hs : Reachable stores start s) :
    (firstHeld stores key s = none ∧ (Cache.search key 0 stores s).1 = .nothing) ∨
      ∃ index v, firstHeld stores key s = some v ∧
        (Cache.search key 0 stores s).1 = .value index v := by
  obtain ⟨-, -, hfinds⟩ := h.search hkey (fun _ hx => hx) 0 hs
  generalize (Cache.search key 0 stores s).1 = found at hfinds
  cases found with
  | nothing => exact .inl ⟨hfinds.firstHeld_eq_none, rfl⟩
  | value index v => exact .inr ⟨index, v, hfinds.firstHeld, rfl⟩
  | failure f => cases hfinds

-- ---------------------------------------------------------------------------
-- Writes
-- ---------------------------------------------------------------------------

theorem Keeps.writeAll (h : Keeps stores start) (hkey : key.IsFull)
    (hrest : ∀ store ∈ rest, store ∈ stores) (hs : Reachable stores start s) :
    Reachable stores start (writeAll key v rest s).2 ∧
      Gains stores key v s (writeAll key v rest s).2 ∧
      ∀ store ∈ rest, (store.held key (writeAll key v rest s).2).isSome := by
  induction rest generalizing s with
  | nil => exact ⟨hs, (SameHeld.refl _ _).gains, by simp⟩
  | cons store rest ih =>
    obtain ⟨hstore, hrest⟩ := List.forall_mem_cons.mp hrest
    obtain ⟨-, -, hgains, hsome⟩ := h s hs store hstore key hkey
    obtain ⟨hlast, hgains', hheld⟩ := ih hrest (hs.set hstore hkey v)
    rw [snd_writeAll_cons]
    exact ⟨hlast, (hgains v).trans hgains',
      List.forall_mem_cons.mpr ⟨hgains'.isSome hstore hkey (hsome v), hheld⟩⟩

theorem Keeps.fill (h : Keeps stores start) (hkey : key.IsFull) (hs : Reachable stores start s)
    (hfound : (Cache.search key 0 stores s).1 = .nothing) (v : Transform.Result) :
    let t := (Cache.writeAll key v stores (Cache.search key 0 stores s).2).2
    Reachable stores start t ∧ Gains stores key v s t ∧
      ∀ store ∈ stores, store.held key t = some v := by
  obtain ⟨hreach, hsame, hfinds⟩ := h.search hkey (fun _ hx => hx) 0 hs
  obtain ⟨hlast, hgains, hsome⟩ := h.writeAll (v := v) hkey (fun _ hx => hx) hreach
  have hall := hsame.gains.trans hgains
  rw [hfound] at hfinds
  cases hfinds with
  | nothing hnone =>
    exact ⟨hlast, hall, fun x hx => hall.eq_of_none hx hkey (hnone x hx) (hsome x hx)⟩

theorem Keeps.backfill (h : Keeps stores start) (hkey : key.IsFull)
    (hs : Reachable stores start s) {index : Nat}
    (hfound : (Cache.search key 0 stores s).1 = .value index v) :
    let t := (Cache.writeAll key v (stores.take index) (Cache.search key 0 stores s).2).2
    Reachable stores start t ∧ Gains stores key v s t ∧
      ∀ store ∈ stores.take (index + 1), store.held key t = some v := by
  obtain ⟨hreach, hsame, hfinds⟩ := h.search hkey (fun _ hx => hx) 0 hs
  obtain ⟨hlast, hgains, hsome⟩ := h.writeAll (v := v) hkey
    (fun x (hx : x ∈ stores.take index) => List.mem_of_mem_take hx) hreach
  have hall := hsame.gains.trans hgains
  refine ⟨hlast, hall, fun x hx => ?_⟩
  rw [hfound] at hfinds
  cases hfinds with
  | @value front back y _ _ hsplit hnone hy hi =>
    have hfront : stores.take index = front := by simp [hsplit, hi]
    have hupto : stores.take (index + 1) = front ++ [y] := by
      simp [hsplit, hi, List.take_append]
    have hxs := List.mem_of_mem_take hx
    rw [hupto, List.mem_append, List.mem_singleton] at hx
    rcases hx with hx | rfl
    · exact hall.eq_of_none hxs hkey (hnone x hx) (hsome x (hfront ▸ hx))
    · rcases hall x hxs key hkey with heq | ⟨-, heq⟩
      · rw [heq, hy]
      · exact heq

end Cache

-- ---------------------------------------------------------------------------
-- Stores in memory
-- ---------------------------------------------------------------------------

namespace Depot

def InMemory (d : Depot) : Prop := ∀ shelf ∈ d.shelves, ∃ entries, shelf = .memory entries

theorem lookup_addEntry (entries : Entries) (key : CacheKey) (v : Transform.Result)
    (bytes : Bytes) : (Shelf.addEntry entries key v).lookup bytes =
      (entries.lookup bytes).or (if bytes = key.toBytes then some v else none) := by
  rw [Shelf.addEntry]
  split
  case isTrue h =>
    split
    case isTrue heq => simp [heq, Option.or_of_isSome h]
    case isFalse => simp
  case isFalse =>
    rw [List.lookup_append, List.lookup_cons]
    rcases eq_or_ne bytes key.toBytes with rfl | hne
    · simp
    · simp [hne, beq_false_of_ne hne]

variable {codec : Gzip.Codec} {d : Depot} {index : Nat}

theorem InMemory.shelf (h : d.InMemory) (hlt : index < d.shelves.length) :
    ∃ entries, d.shelves[index]? = some (.memory entries) := by
  obtain ⟨entries, hentries⟩ := h _ (List.getElem_mem hlt)
  exact ⟨entries, by rw [List.getElem?_eq_getElem hlt, hentries]⟩

theorem held_memory {entries : Entries} (h : d.shelves[index]? = some (.memory entries))
    (name : String) (key : CacheKey) :
    (store index name codec).held key d = entries.lookup key.toBytes := by
  rw [Store.held, get_memory h]
  rfl

theorem InMemory.held_set (h : d.InMemory) (hlt : index < d.shelves.length) (name : String)
    (key : CacheKey) (v : Transform.Result) {other : Nat} (hother : other < d.shelves.length)
    (name' : String) (k : CacheKey) :
    (store other name' codec).held k ((store index name codec).set key v d).2 =
      ((store other name' codec).held k d).or
        (if other = index ∧ k.toBytes = key.toBytes then some v else none) := by
  obtain ⟨entries, hentries⟩ := h.shelf hlt
  obtain ⟨others, hothers⟩ := h.shelf hother
  rw [set_memory hentries, held_memory hothers]
  rcases eq_or_ne other index with rfl | hne
  · cases hentries.symm.trans hothers
    have hnow : (d.shelves.set other (.memory (Shelf.addEntry entries key v)))[other]? =
        some (.memory (Shelf.addEntry entries key v)) := by simp [hlt]
    rw [held_memory hnow, lookup_addEntry]
    simp
  · have hnow : (d.shelves.set index (.memory (Shelf.addEntry entries key v)))[other]? =
        some (.memory others) := by simp [hne.symm, hothers]
    rw [held_memory hnow]
    simp [hne]

theorem keeps_memory (h : d.InMemory) : Cache.Keeps (d.stores codec) d := by
  have hkept {s : Depot} (hs : Cache.Reachable (d.stores codec) d s) :
      s.InMemory ∧ s.shelves.length = d.shelves.length := by
    obtain ⟨sets, hreach⟩ := hs
    induction hreach with
    | start => exact ⟨h, rfl⟩
    | get _ hstore _ ih =>
      obtain ⟨index, hlt, name, rfl⟩ := mem_stores hstore
      obtain ⟨entries, hentries⟩ := ih.1.shelf (hlt.trans_eq ih.2.symm)
      rw [get_memory hentries]
      exact ih
    | set _ hstore hkey ih =>
      obtain ⟨index, hlt, name, rfl⟩ := mem_stores hstore
      obtain ⟨entries, hentries⟩ := ih.1.shelf (hlt.trans_eq ih.2.symm)
      rw [set_memory hentries]
      refine ⟨fun shelf hshelf => ?_, by simp [ih.2]⟩
      rcases List.mem_or_eq_of_mem_set hshelf with hshelf | rfl
      · exact ih.1 shelf hshelf
      · exact ⟨_, rfl⟩
  intro s hs x hx key hkey
  obtain ⟨hmemory, hlength⟩ := hkept hs
  obtain ⟨index, hlt, name, rfl⟩ := mem_stores hx
  rw [← hlength] at hlt
  obtain ⟨entries, hentries⟩ := hmemory.shelf hlt
  refine ⟨?_, ?_, fun v y hy k hk => ?_, fun v => ?_⟩
  · rw [held_memory hentries, get_memory hentries]
  · intro y _ k _
    rw [get_memory hentries]
  · obtain ⟨other, hother, name', rfl⟩ := mem_stores hy
    rw [hmemory.held_set hlt _ _ _ (hother.trans_eq hlength.symm)]
    cases (store other name' codec).held k s with
    | some w => exact .inl rfl
    | none =>
      split
      case isTrue heq => exact .inr ⟨CacheKey.toBytes_inj hk hkey heq.2, rfl⟩
      case isFalse => exact .inl rfl
  · rw [hmemory.held_set hlt _ _ _ hlt]
    simp

end Depot

end BundleGraph
