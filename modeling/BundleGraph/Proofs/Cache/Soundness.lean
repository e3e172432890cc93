import BundleGraph.Proofs.Cache.Stores
import BundleGraph.Proofs.Farm

/-!
# Served results

A cache is run by calls and by its pending writes, which reach the stores one
by one, in any order and between any two calls. The file that a caller reads
and the file that the worker reads are unrelated. Still every result belongs to
the content whose digest it is served or kept under: the digest of a fresh
result is that of the bytes the worker read, and all that stores return was set
under the same key.
-/

namespace BundleGraph

namespace TransformCache

variable {σ : Type}

-- ---------------------------------------------------------------------------
-- Runs
-- ---------------------------------------------------------------------------

structure Request where
  path : String
  options : Transform.Options

inductive Event where
  /-- A caller has the content and the worker reads in `tree`. -/
  | get (tree : FileTree) (r : Request) (content : Bytes)
  /-- The content is read in `seen`, and the worker reads in `tree`. -/
  | transformFile (seen tree : FileTree) (r : Request)
  | flush
  | complete (index : Nat)
  /-- A pending write reaches one of its stores and stays pending. -/
  | deliver (index store : Nat)

namespace Event

def requests : Event → List Request
  | get _ r _ | transformFile _ _ r => [r]
  | flush | complete _ | deliver .. => []

/-- The contents that take part in a call. -/
def contents : Event → List Bytes
  | get tree r content => content :: (tree.read r.path).toOption.toList
  | transformFile seen tree r =>
    (seen.read r.path).toOption.toList ++ (tree.read r.path).toOption.toList
  | flush | complete _ | deliver .. => []

end Event

def deliver (index store : Nat) (c : TransformCache σ) : TransformCache σ :=
  match c.layers.pending[index]? with
  | none => c
  | some w =>
    match (c.stores.take w.depth)[store]? with
    | none => c
    | some s => { c with host := (s.set w.key w.value c.host).2 }

def perform : Event → TransformCache σ →
    List (Request × Except BuildError LoadedFile) × TransformCache σ
  | .get tree r content, c =>
    let (answer, c) := c.get tree r.path content r.options
    ([(r, answer)], c)
  | .transformFile seen tree r, c =>
    let (answer, c) := c.transformFile seen tree r.path r.options
    ([(r, answer)], c)
  | .flush, c => ([], c.flush)
  | .complete index, c => ([], c.complete index)
  | .deliver index store, c => ([], c.deliver index store)

def run : List Event → TransformCache σ →
    List (Request × Except BuildError LoadedFile) × TransformCache σ
  | [], c => ([], c)
  | e :: es, c =>
    let (answers, c) := c.perform e
    let (more, c) := run es c
    (answers ++ more, c)

-- ---------------------------------------------------------------------------
-- What is assumed
-- ---------------------------------------------------------------------------

/-- The digest tells the inputs apart. -/
def NoCollision (inputs : List Bytes) : Prop :=
  ∀ a ∈ inputs, ∀ b ∈ inputs, sha256 a = sha256 b → a = b

/-- The result is a function of bytes, local path and options. -/
def IsPure (t : Transformer) : Prop :=
  ∀ source (c d : Transform.Context), c.localPath = d.localPath → c.options = d.options →
    t source c = t source d

/-- The text behind the stem of a request. -/
def stemText (root baseHash : String) (r : Request) : Bytes :=
  (stemValue baseHash r.options (Path.localPath root r.path)).canonicalBytes

def keyOf (c : TransformCache σ) (r : Request) (source : Bytes) : CacheKey :=
  ⟨c.stem r.path r.options, contentDigest source⟩

/-- What the transformer makes of a content for a request is the result. -/
def Yields (root : String) (t : Transformer) (r : Request) (source : Bytes)
    (result : Transform.Result) : Prop :=
  t source ⟨r.path, Path.localPath root r.path, r.options⟩ = .value result

/-- A cache at its start, with the requests and contents of a run. -/
structure Setting (σ : Type) where
  start : TransformCache σ
  requests : List Request
  contents : List Bytes

namespace Setting

variable {g : Setting σ} {c : TransformCache σ} {r : Request}

def Makes (g : Setting σ) (r : Request) (source : Bytes) (result : Transform.Result) : Prop :=
  Yields g.start.root g.start.farm.worker.transformer r source result

structure Regular (g : Setting σ) : Prop where
  faithful : Cache.Faithful g.start.stores g.start.host
  sameRoot : g.start.farm.worker.root = g.start.root
  isPure : IsPure g.start.farm.worker.transformer
  wellFormed : ∀ r ∈ g.requests, r.options.WellFormed
  contents : NoCollision g.contents
  stems : NoCollision (g.requests.map (stemText g.start.root g.start.baseHash))

theorem Regular.keyOf_inj (hg : g.Regular) {r s : Request} (hr : r ∈ g.requests)
    (hs : s ∈ g.requests) {a b : Bytes} (ha : a ∈ g.contents) (hb : b ∈ g.contents)
    (h : g.start.keyOf r a = g.start.keyOf s b) :
    a = b ∧ r.options = s.options ∧
      Path.localPath g.start.root r.path = Path.localPath g.start.root s.path := by
  obtain ⟨hstem, hdigest⟩ := CacheKey.mk.inj h
  have htext := hg.stems _ (List.mem_map_of_mem hr) _ (List.mem_map_of_mem hs) hstem
  exact ⟨hg.contents a ha b hb (Bytes.toHex_inj hdigest),
    stemValue_inj (hg.wellFormed r hr) (hg.wellFormed s hs) htext⟩

/-- A value under a key was made for a request of the run from one of its contents. -/
def Origin (g : Setting σ) (key : CacheKey) (value : Transform.Result) : Prop :=
  ∃ r ∈ g.requests, ∃ source ∈ g.contents,
    key = g.start.keyOf r source ∧ g.Makes r source value

theorem Origin.isFull {key : CacheKey} {value : Transform.Result} (h : g.Origin key value) :
    key.IsFull := by
  obtain ⟨r, -, source, -, rfl, -⟩ := h
  exact length_sha256 _

theorem Origin.makes (hg : g.Regular) (hr : r ∈ g.requests) {source : Bytes}
    (hsource : source ∈ g.contents) {value : Transform.Result}
    (h : g.Origin (g.start.keyOf r source) value) : g.Makes r source value := by
  obtain ⟨s, hs, other, hother, hkey, hmakes⟩ := h
  obtain ⟨rfl, hoptions, hpath⟩ := hg.keyOf_inj hr hs hsource hother hkey
  exact (hg.isPure source _ _ hpath hoptions).trans hmakes

-- ---------------------------------------------------------------------------
-- What every step keeps
-- ---------------------------------------------------------------------------

/-- All that was set and all that waits to be set comes from the run. -/
structure Sound (g : Setting σ) (c : TransformCache σ) : Prop where
  root : c.root = g.start.root
  baseHash : c.baseHash = g.start.baseHash
  stores : c.stores = g.start.stores
  worker : c.farm.worker = g.start.farm.worker
  idle : c.farm.Idle
  host : Cache.Holds g.start.stores g.start.host g.Origin c.host
  pending : ∀ w ∈ c.layers.pending, g.Origin w.key w.value

/-- An answer is an error, or its result was made of the content with its digest. -/
def Right (g : Setting σ) (r : Request) (answer : Except BuildError LoadedFile) : Prop :=
  ∀ file, answer = .ok file →
    ∃ source ∈ g.contents, file.digest = contentDigest source ∧ g.Makes r source file.result

theorem right_error (e : BuildError) : g.Right r (.error e) := fun _ h => by cases h

theorem Sound.record (h : g.Sound c) (e : CacheEvent) : g.Sound (c.record e) := { h with }

theorem Sound.report (h : g.Sound c) (f : StoreFailure) : g.Sound (c.report f) := { h with }

theorem Sound.reports (h : g.Sound c) (failures : List StoreFailure) :
    g.Sound (failures.foldl TransformCache.report c) := by
  induction failures generalizing c with
  | nil => exact h
  | cons f failures ih => exact ih (h.report f)

theorem Sound.put (h : g.Sound c) {key : CacheKey} {value : Transform.Result}
    (hv : g.Origin key value) : g.Sound (c.put key value) := by
  refine { h with pending := fun w hw => ?_ }
  simp only [TransformCache.put, Cache.set] at hw
  split at hw
  · exact h.pending w hw
  · rcases List.mem_append.mp hw with hw | hw
    · exact h.pending w hw
    · rw [List.mem_singleton.mp hw]
      exact hv

/-- A file of the farm belongs to the bytes that the worker read. -/
theorem Sound.refill (hg : g.Regular) (h : g.Sound c) (hr : r ∈ g.requests) {tree : FileTree}
    (htree : ∀ source, tree.read r.path = .ok source → source ∈ g.contents) {key : CacheKey}
    (hkey : key.stem = g.start.stem r.path r.options) :
    g.Sound (c.refill tree r.path r.options key).2 ∧
      g.Right r (c.refill tree r.path r.options key).1 := by
  obtain ⟨hidle, hworker, -⟩ := h.idle.transform tree r.path r.options
  have hfile (file : LoadedFile)
      (hok : (c.farm.transform tree r.path r.options).1 = .ok file) := h.idle.transform_ok hok
  rw [TransformCache.refill]
  generalize c.farm.transform tree r.path r.options = t at hidle hworker hfile
  rcases t with ⟨e | file, farm⟩
  case error =>
    exact ⟨{ h with worker := hworker.trans h.worker, idle := hidle }, right_error e⟩
  case ok =>
    have hfarm : g.Sound { c with farm } :=
      { h with worker := hworker.trans h.worker, idle := hidle }
    obtain ⟨source, hread, hdigest, hresult⟩ := hfile file rfl
    rw [h.worker, hg.sameRoot] at hresult
    have hmakes : g.Makes r source file.result := hresult
    refine ⟨hfarm.put ⟨r, hr, source, htree source hread, ?_, hmakes⟩, ?_⟩
    · rw [CacheKey.withDigest, hkey, hdigest]
      rfl
    · rintro _ ⟨⟩
      exact ⟨source, htree source hread, hdigest, hmakes⟩

theorem Sound.get (hg : g.Regular) (h : g.Sound c) (hr : r ∈ g.requests) {content : Bytes}
    (hcontent : content ∈ g.contents) {tree : FileTree}
    (htree : ∀ source, tree.read r.path = .ok source → source ∈ g.contents) :
    g.Sound (c.get tree r.path content r.options).2 ∧
      g.Right r (c.get tree r.path content r.options).1 := by
  have hkey : (⟨c.stem r.path r.options, contentDigest content⟩ : CacheKey) =
      g.start.keyOf r content := by
    rw [TransformCache.stem, h.root, h.baseHash]
    rfl
  have hfull : (g.start.keyOf r content).IsFull := length_sha256 _
  obtain ⟨hhost, hvalue⟩ := h.host.search hg.faithful hfull (fun _ hs => hs) 0
  rw [TransformCache.get]
  simp only [hkey, Cache.get, h.stores]
  generalize Cache.search (g.start.keyOf r content) 0 g.start.stores c.host = found at hhost hvalue
  rcases found with ⟨⟨index, value⟩ | _ | f, s⟩
  case value =>
    have horigin := hvalue index value rfl
    refine ⟨Sound.put (Sound.record ?_ .hit) horigin, ?_⟩
    · exact { h with stores := rfl, host := hhost }
    · rintro _ ⟨⟩
      exact ⟨content, hcontent, rfl, horigin.makes hg hr hcontent⟩
  case nothing =>
    refine Sound.refill hg (Sound.record ?_ .miss) hr htree rfl
    exact { h with stores := rfl, host := hhost }
  case failure =>
    refine ⟨Sound.report ?_ f, right_error _⟩
    exact { h with stores := rfl, host := hhost }

theorem Sound.complete (h : g.Sound c) (index : Nat) : g.Sound (c.complete index) := by
  rw [TransformCache.complete]
  simp only [Cache.complete]
  cases hw : c.layers.pending[index]? with
  | none => exact Sound.reports h _
  | some w =>
    have horigin := h.pending w (List.mem_of_getElem? hw)
    refine Sound.reports ?_ _
    refine { h with host := ?_, pending := fun v hv => ?_ }
    · rw [h.stores]
      exact h.host.perform horigin.isFull horigin
    · exact h.pending v (List.mem_of_mem_eraseIdx hv)

theorem Sound.flush (h : g.Sound c) : g.Sound c.flush := by
  rw [TransformCache.flush]
  refine Sound.reports ?_ _
  refine { h with host := ?_, pending := fun w hw => by cases hw }
  simp only [h.stores]
  exact h.host.performAll fun w hw => ⟨(h.pending w hw).isFull, h.pending w hw⟩

theorem Sound.deliver (h : g.Sound c) (index store : Nat) : g.Sound (c.deliver index store) := by
  rw [TransformCache.deliver]
  split
  case h_1 => exact h
  case h_2 w hw =>
    split
    case h_1 => exact h
    case h_2 s hs =>
      have horigin := h.pending w (List.mem_of_getElem? hw)
      have hmem := List.mem_of_mem_take (List.mem_of_getElem? hs)
      rw [h.stores] at hmem
      exact { h with host := h.host.set hmem horigin.isFull horigin }

theorem Sound.perform (hg : g.Regular) (h : g.Sound c) {e : Event}
    (hr : ∀ r ∈ e.requests, r ∈ g.requests) (hc : ∀ source ∈ e.contents, source ∈ g.contents) :
    g.Sound (c.perform e).2 ∧ ∀ r answer, (r, answer) ∈ (c.perform e).1 → g.Right r answer := by
  cases e with
  | get tree r content =>
    have htree (source : Bytes) (hread : tree.read r.path = .ok source) : source ∈ g.contents :=
      hc source (by simp [Event.contents, hread, Except.toOption])
    obtain ⟨hnext, hright⟩ := h.get hg (hr r (by simp [Event.requests]))
      (hc content (by simp [Event.contents])) htree
    refine ⟨hnext, fun s answer hmem => ?_⟩
    cases List.mem_singleton.mp hmem
    exact hright
  | transformFile seen tree r =>
    simp only [TransformCache.perform, TransformCache.transformFile]
    cases hseen : seen.read r.path with
    | error e =>
      refine ⟨h, fun s answer hmem => ?_⟩
      cases List.mem_singleton.mp hmem
      exact right_error _
    | ok content =>
      have htree (source : Bytes) (hread : tree.read r.path = .ok source) :
          source ∈ g.contents :=
        hc source (by simp [Event.contents, hread, Except.toOption])
      obtain ⟨hnext, hright⟩ := h.get hg (hr r (by simp [Event.requests]))
        (hc content (by simp [Event.contents, hseen, Except.toOption])) htree
      refine ⟨hnext, fun s answer hmem => ?_⟩
      cases List.mem_singleton.mp hmem
      exact hright
  | flush => exact ⟨h.flush, by simp [TransformCache.perform]⟩
  | complete index => exact ⟨h.complete index, by simp [TransformCache.perform]⟩
  | deliver index store => exact ⟨h.deliver index store, by simp [TransformCache.perform]⟩

theorem Sound.run (hg : g.Regular) (events : List Event)
    (hr : ∀ e ∈ events, ∀ r ∈ e.requests, r ∈ g.requests)
    (hc : ∀ e ∈ events, ∀ source ∈ e.contents, source ∈ g.contents) (h : g.Sound c) :
    g.Sound (c.run events).2 ∧ ∀ r answer, (r, answer) ∈ (c.run events).1 → g.Right r answer := by
  induction events generalizing c with
  | nil => exact ⟨h, by simp [TransformCache.run]⟩
  | cons e es ih =>
    obtain ⟨hre, hres⟩ := List.forall_mem_cons.mp hr
    obtain ⟨hce, hces⟩ := List.forall_mem_cons.mp hc
    obtain ⟨hnext, hright⟩ := h.perform hg hre hce
    obtain ⟨hlast, hmore⟩ := ih hres hces hnext
    refine ⟨hlast, fun r answer hmem => ?_⟩
    rcases List.mem_append.mp hmem with hmem | hmem
    · exact hright r answer hmem
    · exact hmore r answer hmem

end Setting

-- ---------------------------------------------------------------------------
-- The whole run
-- ---------------------------------------------------------------------------

theorem pending_refill_error {c : TransformCache σ} {tree : FileTree} {path : String}
    {options : Transform.Options} {key : CacheKey} {error : BuildError}
    (h : (c.refill tree path options key).1 = .error error) :
    (c.refill tree path options key).2.layers = c.layers := by
  rw [refill] at h ⊢
  generalize c.farm.transform tree path options = t at h
  rcases t with ⟨e | file, farm⟩
  case error => rfl
  case ok => cases h

theorem pending_get_error {c : TransformCache σ} {tree : FileTree} {path : String}
    {content : Bytes} {options : Transform.Options} {error : BuildError}
    (h : (c.get tree path content options).1 = .error error) :
    (c.get tree path content options).2.layers.pending = c.layers.pending := by
  rw [get] at h ⊢
  simp only [Cache.get] at h ⊢
  generalize Cache.search _ 0 c.stores c.host = found at h
  rcases found with ⟨⟨index, value⟩ | _ | f, s⟩
  case value => cases h
  case nothing => exact congrArg Cache.pending (pending_refill_error h)
  case failure => rfl

theorem pending_of_error {c : TransformCache σ} {e : Event} {r : Request} {error : BuildError}
    (h : (r, .error error) ∈ (c.perform e).1) :
    (c.perform e).2.layers.pending = c.layers.pending := by
  cases e with
  | get tree s content =>
    exact pending_get_error (Prod.mk.inj (List.mem_singleton.mp h)).2.symm
  | transformFile seen tree s =>
    simp only [perform, transformFile] at h ⊢
    split at h
    case h_1 => rfl
    case h_2 => exact pending_get_error (Prod.mk.inj (List.mem_singleton.mp h)).2.symm
  | flush => cases h
  | complete index => cases h
  | deliver index store => cases h

/-- However calls and writes follow each other, and whatever stands on disk when
a caller or a worker reads: an answer holds what the transformer makes of the
content with the answer's digest, stores hold under a key what the transformer
makes for it, and a call that fails issues no write. -/
theorem run_right (version root : String) (config : TransformerConfig) (t : Transformer)
    (workers : Nat) (stores : List (Store σ)) (host : σ) (events : List Event)
    (hstores : Cache.Faithful stores host) (hpure : IsPure t)
    (hoptions : ∀ r ∈ events.flatMap Event.requests, r.options.WellFormed)
    (hcontents : NoCollision (events.flatMap Event.contents))
    (hstems : NoCollision ((events.flatMap Event.requests).map
      (stemText root (baseHashOf version root config)))) :
    let c := start version root config stores (Farm.start ⟨t, root⟩ workers) host
    let contents := events.flatMap Event.contents
    let requests := events.flatMap Event.requests
    (∀ r file, (r, .ok file) ∈ (c.run events).1 →
      (∃ source ∈ contents, contentDigest source = file.digest) ∧
      ∀ source ∈ contents, contentDigest source = file.digest →
        Yields root t r source file.result) ∧
    (∀ store ∈ stores, ∀ key value, key.IsFull →
      (store.get key (c.run events).2.host).1 = .ok (some value) →
      (∃ r ∈ requests, ∃ source ∈ contents, key = c.keyOf r source) ∧
      ∀ r ∈ requests, ∀ source ∈ contents, key = c.keyOf r source → Yields root t r source value) ∧
    ∀ before e after, events = before ++ e :: after → ∀ r error,
      (r, .error error) ∈ ((c.run before).2.perform e).1 →
      ((c.run before).2.perform e).2.layers.pending = (c.run before).2.layers.pending := by
  intro c contents requests
  let g : Setting σ := ⟨c, requests, contents⟩
  have hg : g.Regular := ⟨hstores, rfl, hpure, hoptions, hcontents, hstems⟩
  have hstart : g.Sound c := ⟨rfl, rfl, rfl, rfl, Farm.idle_start _ _, Cache.holds_start, by
    intro w hw
    cases hw⟩
  obtain ⟨hlast, hright⟩ := hstart.run hg events
    (fun e he r hr => List.mem_flatMap_of_mem he hr)
    (fun e he source hs => List.mem_flatMap_of_mem he hs)
  refine ⟨fun r file hmem => ?_, fun store hstore key value hkey hvalue => ?_,
    fun before e after _ r error h => pending_of_error h⟩
  · obtain ⟨source, hsource, hdigest, hmakes⟩ := hright r _ hmem file rfl
    refine ⟨⟨source, hsource, hdigest.symm⟩, fun other hother heq => ?_⟩
    obtain rfl := hg.contents other hother source hsource
      (Bytes.toHex_inj (heq.trans hdigest))
    exact hmakes
  · have horigin := hlast.host.of_get hstores hstore hkey hvalue
    refine ⟨?_, fun r hr source hsource hkeyOf => ?_⟩
    · obtain ⟨r, hr, source, hsource, hkeyOf, -⟩ := horigin
      exact ⟨r, hr, source, hsource, hkeyOf⟩
    · exact Setting.Origin.makes hg hr hsource (hkeyOf ▸ horigin)

/-- Puts out the local path and how many bytes there are, and fails on an empty file. -/
def measure : Transformer := fun source context =>
  if source.isEmpty then .failure (.other "empty" none)
  else .value ⟨[], [⟨context.localPath, .int source.length⟩]⟩

def oneFile (content : Bytes) : FileTree := ⟨.directory [("a", .file content)], []⟩

def oneRequest : Request := ⟨"/a", {}⟩

/-- The file is edited between both reads of the first call, and empty from the
second call on. -/
def edits : List Event :=
  [.get (oneFile [98]) oneRequest [97], .flush, .get (oneFile []) oneRequest [98],
    .transformFile (oneFile [97]) (oneFile []) oneRequest]

def twoMemories : Depot := { shelves := [.memory [], .memory []] }

def measured : TransformCache Depot :=
  start "1" "/" {} twoMemories.stores (Farm.start ⟨measure, "/"⟩ 1) twoMemories

theorem isPure_measure : IsPure measure := by
  intro source c d hpath _
  rw [measure, measure, hpath]

theorem wellFormed_oneRequest : oneRequest.options.WellFormed := ⟨rfl, trivial⟩

theorem mem_contents_edits {source : Bytes} (h : source ∈ edits.flatMap Event.contents) :
    source ∈ [[97], [98], []] := by
  have hlist : edits.flatMap Event.contents = [[97], [98], [98], [], [97], []] := rfl
  rw [hlist] at h
  simp at h ⊢
  tauto

theorem noCollision_edits : NoCollision (edits.flatMap Event.contents) := by
  have hnodup : ([[97], [98], []].map sha256).Nodup := by decide +kernel
  intro a ha b hb h
  exact List.inj_on_of_nodup_map hnodup (mem_contents_edits ha) (mem_contents_edits hb) h

theorem eq_oneRequest {r : Request} (h : r ∈ edits.flatMap Event.requests) : r = oneRequest := by
  have hlist : edits.flatMap Event.requests = [oneRequest, oneRequest, oneRequest] := rfl
  rw [hlist] at h
  simpa using h

/-- There is one request, so there is one text behind the stems. -/
theorem noCollision_oneRequest (root baseHash : String) :
    NoCollision ((edits.flatMap Event.requests).map (stemText root baseHash)) := by
  intro a ha b hb _
  obtain ⟨r, hr, rfl⟩ := List.mem_map.mp ha
  obtain ⟨s, hs, rfl⟩ := List.mem_map.mp hb
  rw [eq_oneRequest hr, eq_oneRequest hs]

theorem run_right_edits :
    Cache.Faithful twoMemories.stores twoMemories ∧ IsPure measure ∧
    (∀ r ∈ edits.flatMap Event.requests, r.options.WellFormed) ∧
    NoCollision (edits.flatMap Event.contents) ∧
    NoCollision ((edits.flatMap Event.requests).map (stemText "/" (baseHashOf "1" "/" {}))) ∧
    ((measured.run (edits.take 1)).1.map fun a => a.2.toOption.isSome) = [true] ∧
    (∀ r file, (r, .ok file) ∈ (measured.run edits).1 → contentDigest [98] = file.digest →
      Yields "/" measure r [98] file.result) ∧
    ∀ store ∈ twoMemories.stores, ∀ value,
      (store.get (measured.keyOf oneRequest [98]) (measured.run edits).2.host).1 =
        .ok (some value) → Yields "/" measure oneRequest [98] value := by
  have hstores : Cache.Faithful twoMemories.stores twoMemories :=
    Depot.faithful_memory (by simp [twoMemories])
  have hoptions : ∀ r ∈ edits.flatMap Event.requests, r.options.WellFormed := fun r hr =>
    eq_oneRequest hr ▸ wellFormed_oneRequest
  have hstems := noCollision_oneRequest "/" (baseHashOf "1" "/" {})
  have hrequest : oneRequest ∈ edits.flatMap Event.requests := by simp [edits, Event.requests]
  have hcontent : [98] ∈ edits.flatMap Event.contents := by simp [edits, Event.contents]
  obtain ⟨hanswers, hkept, -⟩ := run_right "1" "/" {} measure 1 twoMemories.stores twoMemories
    edits hstores isPure_measure hoptions noCollision_edits hstems
  refine ⟨hstores, isPure_measure, hoptions, noCollision_edits, hstems, by decide +kernel,
    fun r file hmem hdigest => (hanswers r file hmem).2 [98] hcontent hdigest,
    fun store hstore value hvalue => ?_⟩
  have hfull : (measured.keyOf oneRequest [98]).IsFull := length_sha256 _
  rw [measured] at hfull hvalue
  exact (hkept store hstore _ value hfull hvalue).2 oneRequest hrequest [98] hcontent rfl

end TransformCache

end BundleGraph
