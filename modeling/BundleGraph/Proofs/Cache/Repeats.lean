import BundleGraph.Proofs.Cache.Keeping
import BundleGraph.Proofs.Cache.Soundness

/-!
# Repeated lookups

Lookups follow each other, and after each of them all pending writes are
performed. Between two lookups no hit is remembered then, and what a lookup
writes it writes under its own key: what the farm answered to every store, or
what a store answered to those in front of it. So what is held first under a
key stays so, and whoever asks for it again is answered by a store.
-/

namespace BundleGraph

namespace TransformCache

variable {σ : Type}

-- ---------------------------------------------------------------------------
-- Lookups
-- ---------------------------------------------------------------------------

def Event.lookup? : Event → Option (Request × Bytes)
  | .get _ r content => some (r, content)
  | .transformFile seen _ r => (seen.read r.path).toOption.map (r, ·)
  | .flush | .complete _ | .deliver .. => none

/-- A lookup whose file stays as it is from the caller's read to the worker's. -/
def Event.IsSteady : Event → Prop
  | .get tree r content => tree.read r.path = .ok content
  | .transformFile seen tree r => tree.read r.path = seen.read r.path
  | .flush | .complete _ | .deliver .. => False

/-- Lookups, each with a flush after it. -/
def flushed (lookups : List Event) : List Event := lookups.flatMap fun e => [e, .flush]

theorem snd_run_append (es fs : List Event) (c : TransformCache σ) :
    (c.run (es ++ fs)).2 = ((c.run es).2.run fs).2 := by
  induction es generalizing c with
  | nil => rfl
  | cons e es ih => exact ih _

theorem snd_run_flushed_append (es fs : List Event) (c : TransformCache σ) :
    (c.run (flushed (es ++ fs))).2 = ((c.run (flushed es)).2.run (flushed fs)).2 := by
  rw [flushed, List.flatMap_append]
  exact snd_run_append _ _ c

theorem snd_run_flushed_cons (e : Event) (es : List Event) (c : TransformCache σ) :
    (c.run (flushed (e :: es))).2 = ((c.perform e).2.flush.run (flushed es)).2 := rfl

-- ---------------------------------------------------------------------------
-- Flushes
-- ---------------------------------------------------------------------------

theorem reports_eq (reported : List StoreFailure) (c : TransformCache σ) :
    ∃ metrics failures, reported.foldl report c = { c with metrics, failures } := by
  induction reported generalizing c with
  | nil => exact ⟨_, _, rfl⟩
  | cons f reported ih => exact ih (c.report f)

theorem flush_eq (c : TransformCache σ) : ∃ metrics failures, c.flush =
    { c with
      layers := { c.layers with pending := [] }
      host := (Cache.performAll c.stores c.layers.pending c.host).2
      metrics, failures } :=
  reports_eq _ _

theorem flush_put {c : TransformCache σ} (hpending : c.layers.pending = []) (key : CacheKey)
    (v : Transform.Result) : ∃ metrics failures, (c.put key v).flush =
      { c with
        layers := { hits := Cache.forget c.layers.hits key }
        host := (Cache.writeAll key v (c.stores.take (c.layers.depth c.stores key)) c.host).2
        metrics, failures } := by
  obtain ⟨metrics, failures, hflush⟩ := flush_eq (c.put key v)
  refine ⟨metrics, failures, hflush.trans ?_⟩
  simp only [put, Cache.set, hpending]
  split
  case isTrue hdepth => simp [hdepth, Cache.performAll, Cache.writeAll]
  case isFalse => simp [Cache.performAll, Cache.perform]

theorem flush_put_all {c : TransformCache σ} (hlayers : c.layers = {}) (key : CacheKey)
    (v : Transform.Result) : ∃ metrics failures, (c.put key v).flush =
      { c with host := (Cache.writeAll key v c.stores c.host).2, metrics, failures } := by
  obtain ⟨metrics, failures, hflush⟩ := flush_put (by rw [hlayers]) key v
  refine ⟨metrics, failures, hflush.trans ?_⟩
  simp [hlayers, Cache.depth, Cache.forget]

-- ---------------------------------------------------------------------------
-- What a lookup does
-- ---------------------------------------------------------------------------

/-- Between lookups no hit is remembered, no write is pending and the farm is idle. -/
structure Rests (start c : TransformCache σ) : Prop where
  root : c.root = start.root
  baseHash : c.baseHash = start.baseHash
  stores : c.stores = start.stores
  layers : c.layers = {}
  idle : c.farm.Idle
  host : Cache.Reachable start.stores start.host c.host

/-- Lookups lead from one cache to the other: what was held first stays so. -/
structure Follows (start c c' : TransformCache σ) : Prop where
  rests : start.Rests c'
  kept (k : CacheKey) (v : Transform.Result) : k.IsFull →
    Cache.firstHeld start.stores k c.host = some v → Cache.firstHeld start.stores k c'.host = some v

/-- The answer of a lookup is what is then held first under its key. -/
structure Settles (start c : TransformCache σ) (key : CacheKey)
    (answer : Except BuildError LoadedFile) (c' : TransformCache σ) : Prop
    extends Follows start c c' where
  held (file : LoadedFile) : answer = .ok file →
    file.digest = key.digest ∧ Cache.firstHeld start.stores key c'.host = some file.result

/-- A store answers, and those in front of it get the value; the farm is not asked. -/
structure Backfills (start c : TransformCache σ) (key : CacheKey) (index : Nat)
    (v : Transform.Result) (c' : TransformCache σ) : Prop where
  rests : start.Rests c'
  farm : c'.farm = c.farm
  gains : Cache.Gains start.stores key v c.host c'.host
  held : ∀ store ∈ start.stores.take (index + 1), store.held key c'.host = some v

section

variable {start c : TransformCache σ} {r : Request} {content : Bytes}

theorem Rests.keyOf (hc : start.Rests c) (r : Request) (content : Bytes) :
    c.keyOf r content = start.keyOf r content := by
  rw [TransformCache.keyOf, TransformCache.stem, hc.baseHash, hc.root]
  rfl

theorem isFull_keyOf (c : TransformCache σ) (r : Request) (content : Bytes) :
    (c.keyOf r content).IsFull := length_sha256 _

/-- The write that follows a hit goes to the stores in front of it. -/
theorem Rests.get_value (hkeeps : Cache.Keeps start.stores start.host) (hc : start.Rests c)
    (tree : FileTree) {index : Nat} {v : Transform.Result}
    (hfound : (Cache.search (start.keyOf r content) 0 start.stores c.host).1 = .value index v) :
    (c.get tree r.path content r.options).1 = .ok ⟨v, contentDigest content⟩ ∧
      start.Backfills c (start.keyOf r content) index v
        (c.get tree r.path content r.options).2.flush := by
  have hkey : (⟨c.stem r.path r.options, contentDigest content⟩ : CacheKey) =
      start.keyOf r content := hc.keyOf r content
  have hdigest : (start.keyOf r content).digest = contentDigest content := rfl
  obtain ⟨hlast, hgains, hheld⟩ := hkeeps.backfill (isFull_keyOf start r content) hc.host hfound
  rw [TransformCache.get]
  simp only [hkey, Cache.get, hc.stores, hc.layers]
  generalize start.keyOf r content = key at *
  generalize Cache.search key 0 start.stores c.host = found at *
  obtain ⟨_, s⟩ := found
  cases hfound
  refine ⟨by rw [← hdigest], ?_⟩
  obtain ⟨metrics, failures, hflush⟩ := flush_put (c := record { c with
    stores := start.stores
    layers := { hits := (key, index) :: Cache.forget [] key }
    host := s } .hit) rfl key v
  have hdepth : ({ hits := (key, index) :: Cache.forget [] key } : Cache).depth start.stores key =
      index := by simp [Cache.depth]
  simp only [record, hdepth] at hflush
  rw [record, hflush]
  exact ⟨⟨hc.root, hc.baseHash, rfl, by simp [Cache.forget], hc.idle, hlast⟩, rfl, hgains, hheld⟩

theorem Backfills.settles {c' : TransformCache σ} {key : CacheKey} {index : Nat}
    {v : Transform.Result} (h : start.Backfills c key index v c') (hkey : key.IsFull)
    (hfirst : Cache.firstHeld start.stores key c.host = some v) :
    start.Settles c key (.ok ⟨v, key.digest⟩) c' := by
  refine ⟨⟨h.rests, fun k w hk hw => h.gains.firstHeld hk hw fun heq => ?_⟩, fun file hfile => ?_⟩
  · rw [heq, hfirst] at hw
    exact Option.some.inj hw
  · cases hfile
    exact ⟨rfl, h.gains.firstHeld hkey hfirst fun _ => rfl⟩

theorem Rests.digest_transform (hc : start.Rests c) {tree : FileTree}
    (htree : ∀ source, tree.read r.path = .ok source → source = content) {file : LoadedFile}
    (hok : (c.farm.transform tree r.path r.options).1 = .ok file) :
    file.digest = contentDigest content := by
  obtain ⟨source, hread, hdigest, -⟩ := hc.idle.transform_ok hok
  rw [hdigest, htree source hread]

/-- A lookup that no store can answer is answered by the farm, and what the farm
makes is written to every store. -/
theorem Rests.get_nothing (hkeeps : Cache.Keeps start.stores start.host)
    (hstores : start.stores ≠ []) (hc : start.Rests c) {tree : FileTree}
    (htree : ∀ source, tree.read r.path = .ok source → source = content)
    (hnone : Cache.firstHeld start.stores (start.keyOf r content) c.host = none)
    (hfound : (Cache.search (start.keyOf r content) 0 start.stores c.host).1 = .nothing) :
    start.Settles c (start.keyOf r content) (c.get tree r.path content r.options).1
      (c.get tree r.path content r.options).2.flush := by
  have hkey : (⟨c.stem r.path r.options, contentDigest content⟩ : CacheKey) =
      start.keyOf r content := hc.keyOf r content
  have hdigest : (start.keyOf r content).digest = contentDigest content := rfl
  have hfull := isFull_keyOf start r content
  have hfill := hkeeps.fill hfull hc.host hfound
  obtain ⟨hreach, hsame, -⟩ := hkeeps.search hfull (fun _ hs => hs) 0 hc.host
  rw [TransformCache.get]
  simp only [hkey, Cache.get, hc.stores, hc.layers]
  generalize start.keyOf r content = key at *
  generalize Cache.search key 0 start.stores c.host = found at *
  obtain ⟨_, s⟩ := found
  cases hfound
  obtain ⟨hidle, -, -⟩ := hc.idle.transform tree r.path r.options
  have hfile (file : LoadedFile)
      (hok : (c.farm.transform tree r.path r.options).1 = .ok file) := hc.digest_transform htree hok
  simp only [refill, record]
  generalize c.farm.transform tree r.path r.options = t at hidle hfile
  rcases t with ⟨e | file, farm⟩
  case error =>
    obtain ⟨metrics, failures, hflush⟩ := flush_eq { c with
      stores := start.stores, farm, layers := {}, host := s, metrics := c.metrics.record .miss }
    rw [hflush]
    exact ⟨⟨⟨hc.root, hc.baseHash, rfl, rfl, hidle, hreach⟩, fun k v hk => hsame.firstHeld hk⟩,
      fun file hok => by cases hok⟩
  case ok =>
    have hfresh : file.digest = key.digest := (hfile file rfl).trans hdigest.symm
    have hsame' : key.withDigest file.digest = key := by rw [hfresh]; rfl
    obtain ⟨hlast, hgains, hheld⟩ := hfill file.result
    obtain ⟨metrics, failures, hflush⟩ := flush_put_all (c := { c with
      stores := start.stores, farm, layers := {}, host := s, metrics := c.metrics.record .miss })
      rfl key file.result
    simp only [hsame']
    rw [hflush]
    refine ⟨⟨⟨hc.root, hc.baseHash, rfl, rfl, hidle, hlast⟩, fun k v hk hv => ?_⟩,
      fun other hok => ?_⟩
    · refine hgains.firstHeld hk hv fun heq => ?_
      rw [heq, hnone] at hv
      cases hv
    · cases hok
      exact ⟨hfresh, Cache.firstHeld_of_forall hstores hheld⟩

theorem Rests.get (hkeeps : Cache.Keeps start.stores start.host) (hstores : start.stores ≠ [])
    (hc : start.Rests c) {tree : FileTree}
    (htree : ∀ source, tree.read r.path = .ok source → source = content) :
    start.Settles c (start.keyOf r content) (c.get tree r.path content r.options).1
      (c.get tree r.path content r.options).2.flush := by
  have hfull := isFull_keyOf start r content
  rcases hkeeps.search_cases hfull hc.host with ⟨hnone, hfound⟩ | ⟨index, v, hfirst, hfound⟩
  · exact hc.get_nothing hkeeps hstores htree hnone hfound
  · obtain ⟨hanswer, hback⟩ := hc.get_value hkeeps tree hfound
    rw [hanswer]
    exact hback.settles hfull hfirst

end

-- ---------------------------------------------------------------------------
-- Sequences of lookups
-- ---------------------------------------------------------------------------

theorem perform_lookup {e : Event} {r : Request} {content : Bytes} (he : e.IsSteady)
    (h : e.lookup? = some (r, content)) : ∃ tree : FileTree, tree.read r.path = .ok content ∧
      ∀ c : TransformCache σ, c.perform e = ([(r, (c.get tree r.path content r.options).1)],
        (c.get tree r.path content r.options).2) := by
  cases e with
  | get tree s source =>
    cases h
    exact ⟨tree, he, fun c => rfl⟩
  | transformFile seen tree s =>
    obtain ⟨source, hsource, heq⟩ := Option.map_eq_some_iff.mp h
    cases heq
    cases hseen : seen.read r.path with
    | error e => simp [hseen, Except.toOption] at hsource
    | ok found =>
      simp only [hseen, Except.toOption, Option.some.injEq] at hsource
      cases hsource
      exact ⟨tree, he.trans hseen, fun c => by simp only [perform, transformFile, hseen]⟩
  | flush => cases he
  | complete index => cases he
  | deliver index store => cases he

theorem perform_no_lookup {e : Event} (he : e.IsSteady) (h : e.lookup? = none)
    (c : TransformCache σ) : (c.perform e).2 = c := by
  cases e with
  | get tree r content => cases h
  | transformFile seen tree r =>
    cases hseen : seen.read r.path with
    | error e => simp only [perform, transformFile, hseen]
    | ok content => simp [Event.lookup?, hseen, Except.toOption] at h
  | flush => cases he
  | complete index => cases he
  | deliver index store => cases he

section

variable {start c : TransformCache σ}

theorem Rests.flush (hc : start.Rests c) : start.Follows c c.flush := by
  obtain ⟨metrics, failures, hflush⟩ := flush_eq c
  rw [hflush, hc.layers]
  exact ⟨⟨hc.root, hc.baseHash, hc.stores, rfl, hc.idle, hc.host⟩, fun _ _ _ hv => hv⟩

theorem Follows.trans {c' c'' : TransformCache σ} (h : start.Follows c c')
    (h' : start.Follows c' c'') : start.Follows c c'' :=
  ⟨h'.rests, fun k v hk hv => h'.kept k v hk (h.kept k v hk hv)⟩

theorem Rests.perform (hkeeps : Cache.Keeps start.stores start.host) (hstores : start.stores ≠ [])
    (hc : start.Rests c) {e : Event} (he : e.IsSteady) :
    start.Follows c (c.perform e).2.flush := by
  cases h : e.lookup? with
  | none =>
    rw [perform_no_lookup he h]
    exact hc.flush
  | some asked =>
    obtain ⟨tree, hread, hperform⟩ := perform_lookup he h
    rw [hperform]
    have htree (source : Bytes) (hsource : tree.read asked.1.path = .ok source) :
        source = asked.2 := Except.ok.inj (hsource.symm.trans hread)
    exact (hc.get hkeeps hstores htree).toFollows

theorem Rests.run (hkeeps : Cache.Keeps start.stores start.host) (hstores : start.stores ≠ [])
    (hc : start.Rests c) {lookups : List Event} (hsteady : ∀ e ∈ lookups, e.IsSteady) :
    start.Follows c (c.run (flushed lookups)).2 := by
  induction lookups generalizing c with
  | nil => exact ⟨hc, fun _ _ _ hv => hv⟩
  | cons e lookups ih =>
    obtain ⟨he, hrest⟩ := List.forall_mem_cons.mp hsteady
    have hstep := hc.perform hkeeps hstores he
    rw [snd_run_flushed_cons]
    exact hstep.trans (ih hstep.rests hrest)

end

/-- A store answers the lookup with the file and the farm is not asked. With the
flush, the value is in that store and in every one in front of it. -/
structure Reuses (c : TransformCache σ) (e : Event) (r : Request) (content : Bytes)
    (file : LoadedFile) : Prop where
  answer : (c.perform e).1 = [(r, .ok file)]
  farm : (c.perform e).2.farm = c.farm
  stores : ∃ index,
    (Cache.search (c.keyOf r content) 0 c.stores c.host).1 = .value index file.result ∧
    ∀ store ∈ c.stores.take (index + 1),
      (store.get (c.keyOf r content) (c.perform e).2.flush.host).1 = .ok (some file.result)

theorem farm_flush (c : TransformCache σ) : c.flush.farm = c.farm := by
  obtain ⟨metrics, failures, hflush⟩ := flush_eq c
  rw [hflush]

theorem Rests.reuses {start c : TransformCache σ} (hkeeps : Cache.Keeps start.stores start.host)
    (hc : start.Rests c) {e : Event} (he : e.IsSteady) {r : Request} {content : Bytes}
    (h : e.lookup? = some (r, content)) {index : Nat} {v : Transform.Result}
    (hfound : (Cache.search (start.keyOf r content) 0 start.stores c.host).1 = .value index v) :
    c.Reuses e r content ⟨v, contentDigest content⟩ := by
  obtain ⟨tree, -, hperform⟩ := perform_lookup he h
  obtain ⟨hanswer, hback⟩ := hc.get_value hkeeps tree hfound
  refine ⟨by rw [hperform, hanswer], by rw [hperform, ← hback.farm, farm_flush], index, ?_⟩
  rw [hperform, hc.keyOf, hc.stores]
  refine ⟨hfound, fun store hstore => ?_⟩
  have hfull := isFull_keyOf start r content
  rw [(hkeeps _ hback.rests.host store (List.mem_of_mem_take hstore) _ hfull).get_eq,
    hback.held store hstore]

theorem Rests.reuses_of_held {start c : TransformCache σ}
    (hkeeps : Cache.Keeps start.stores start.host) (hc : start.Rests c) {e : Event}
    (he : e.IsSteady) {r : Request} {content : Bytes} (h : e.lookup? = some (r, content))
    {v : Transform.Result}
    (hheld : Cache.firstHeld start.stores (start.keyOf r content) c.host = some v) :
    c.Reuses e r content ⟨v, contentDigest content⟩ := by
  rcases hkeeps.search_cases (isFull_keyOf start r content) hc.host with
    ⟨hnone, -⟩ | ⟨index, w, hfirst, hfound⟩
  · cases hheld.symm.trans hnone
  · cases hheld.symm.trans hfirst
    exact hc.reuses hkeeps he h hfound

/-- Lookups follow each other, each with a flush after it, over stores that keep
what they are given, whatever these hold at the start. What a store can answer,
it does, and the stores in front of it then hold the value. A lookup for which
an earlier one had an answer is answered so with the same file. -/
theorem run_reuses (version root : String) (config : TransformerConfig) (worker : Worker)
    (workers : Nat) (stores : List (Store σ)) (host : σ) (hkeeps : Cache.Keeps stores host)
    (hstores : stores ≠ []) (lookups : List Event) (hsteady : ∀ e ∈ lookups, e.IsSteady)
    (e : Event) (he : e.IsSteady) (r : Request) (content : Bytes)
    (hasked : e.lookup? = some (r, content)) :
    let c := start version root config stores (Farm.start worker workers) host
    let now := (c.run (flushed lookups)).2
    (∀ index v, (Cache.search (c.keyOf r content) 0 stores now.host).1 = .value index v →
      now.Reuses e r content ⟨v, contentDigest content⟩) ∧
    ∀ before first between, lookups = before ++ first :: between →
      first.lookup? = some (r, content) →
      ∀ file, (r, .ok file) ∈ ((c.run (flushed before)).2.perform first).1 →
        now.Reuses e r content file := by
  intro c now
  have hstart : c.Rests c := ⟨rfl, rfl, rfl, rfl, Farm.idle_start _ _, [], .start⟩
  have hnow := (hstart.run hkeeps hstores hsteady).rests
  refine ⟨fun index v hfound => hnow.reuses hkeeps he hasked hfound, ?_⟩
  rintro before first between rfl hfirst file hanswer
  obtain ⟨hsteady₁, hrest⟩ := List.forall_mem_append.mp hsteady
  obtain ⟨hsteady₂, hsteady₃⟩ := List.forall_mem_cons.mp hrest
  have hthen := (hstart.run hkeeps hstores hsteady₁).rests
  obtain ⟨tree, hread, hperform⟩ := perform_lookup hsteady₂ hfirst
  have hsettles := hthen.get hkeeps hstores
    fun source hsource => Except.ok.inj (hsource.symm.trans hread)
  rw [hperform] at hanswer
  obtain ⟨hdigest, hheld⟩ :=
    hsettles.held file (Prod.mk.inj (List.mem_singleton.mp hanswer)).2.symm
  have hsplit : now = (((c.run (flushed before)).2.perform first).2.flush.run (flushed between)).2 :=
    (snd_run_flushed_append before (first :: between) c).trans (snd_run_flushed_cons first between _)
  rw [hperform] at hsplit
  have hkept := (hsettles.rests.run hkeeps hstores hsteady₃).kept _ _ (isFull_keyOf c r content) hheld
  rw [← hsplit] at hkept
  have hreuses := hnow.reuses_of_held hkeeps he hasked hkept
  have hfile : contentDigest content = file.digest := hdigest.symm
  rwa [hfile] at hreuses

/-- A file with one byte, read and transformed as it stands. -/
def oneLookup : Event := .transformFile (oneFile [97]) (oneFile [97]) oneRequest

def oneKey : CacheKey :=
  ⟨fingerprint (stemValue (baseHashOf "1" "/" {}) oneRequest.options
    (Path.localPath "/" oneRequest.path)), contentDigest [97]⟩

/-- Two memory stores, the second of which somebody else has filled. -/
def warmMemories (key : CacheKey) (v : Transform.Result) : Depot :=
  { shelves := [.memory [], .memory [(key.toBytes, v)]] }

theorem search_warmMemories (key : CacheKey) (v : Transform.Result) :
    (Cache.search key 0 (warmMemories key v).stores (warmMemories key v)).1 = .value 1 v := by
  simp [Cache.search, Depot.stores, Depot.store, Shelf.get, warmMemories]

def warm : Depot := warmMemories oneKey ⟨[], []⟩

def warmed : TransformCache Depot :=
  start "1" "/" {} warm.stores (Farm.start ⟨measure, "/"⟩ 2) warm

/-- The second store answers, which fills the first. Then a store answers again. -/
theorem run_reuses_warmed :
    Cache.Keeps warm.stores warm ∧ warm.stores ≠ [] ∧ oneLookup.IsSteady ∧
    oneLookup.lookup? = some (oneRequest, [97]) ∧
    (Cache.search (warmed.keyOf oneRequest [97]) 0 warm.stores warm).1 = .value 1 ⟨[], []⟩ ∧
    warmed.Reuses oneLookup oneRequest [97] ⟨⟨[], []⟩, contentDigest [97]⟩ ∧
    (warmed.run (flushed [oneLookup])).2.Reuses oneLookup oneRequest [97]
      ⟨⟨[], []⟩, contentDigest [97]⟩ := by
  have hkeeps : Cache.Keeps warm.stores warm :=
    Depot.keeps_memory (by simp [Depot.InMemory, warm, warmMemories])
  have hstores : warm.stores ≠ [] := by simp [Depot.stores, warm, warmMemories]
  have hasked : oneLookup.lookup? = some (oneRequest, [97]) := rfl
  have hfound : (Cache.search (warmed.keyOf oneRequest [97]) 0 warm.stores warm).1 =
      .value 1 ⟨[], []⟩ := search_warmMemories oneKey ⟨[], []⟩
  have hfirst : warmed.Reuses oneLookup oneRequest [97] ⟨⟨[], []⟩, contentDigest [97]⟩ :=
    (run_reuses "1" "/" {} ⟨measure, "/"⟩ 2 warm.stores warm hkeeps hstores [] (by simp) oneLookup
      rfl oneRequest [97] hasked).1 1 ⟨[], []⟩ hfound
  refine ⟨hkeeps, hstores, rfl, hasked, hfound, hfirst, ?_⟩
  refine (run_reuses "1" "/" {} ⟨measure, "/"⟩ 2 warm.stores warm hkeeps hstores [oneLookup]
    (by simp [oneLookup, Event.IsSteady]) oneLookup rfl oneRequest [97] hasked).2
    [] oneLookup [] rfl hasked _ ?_
  change (oneRequest, _) ∈ (warmed.perform oneLookup).1
  rw [hfirst.answer]
  exact List.mem_singleton_self _

end TransformCache

end BundleGraph
