import BundleGraph.Proofs.Loads
import Mathlib.Data.Set.Card

/-!
# Calls to a memo

A memo is called to load paths and to settle them, in any order. It passes a path
on when the first call for the path is a load, and never again (`traced`). What it
answers in between stays the same until the path is settled (`answer_between`).
The memo of a traversal is one that was called, however the traversal ended
(`Graph.called_traverse`).
-/

namespace BundleGraph

namespace LoadMemo

inductive Call where
  | load (path : String)
  | settle (path : String) (file : LoadedFile)

def Call.path : Call → String
  | load path => path
  | settle path _ => path

variable {σ : Type} {loader : Loader σ} {host : σ} {m : LoadMemo σ} {calls : List Call} {c : Call}
  {path p : String} {st : LoadState}

def call (loader : Loader σ) (m : LoadMemo σ) : Call → LoadMemo σ
  | .load path => (m.load loader path).2
  | .settle path file => m.settle path file

def after (loader : Loader σ) (host : σ) (calls : List Call) : LoadMemo σ :=
  calls.foldl (call loader) { host }

/-- What a request for a path is answered after calls: a file, or a future that
delivers the same to all who wait for it, whenever they ask it. -/
def answer (loader : Loader σ) (host : σ) (calls : List Call) (path : String) :
    Started BuildError LoadedFile :=
  ((after loader host calls).load loader path).1

/-- The first call for the path is a load. -/
def FirstLoaded (calls : List Call) (path : String) : Prop :=
  calls.find? (·.path = path) = some (.load path)

theorem after_concat (calls : List Call) (c : Call) :
    after loader host (calls ++ [c]) = (after loader host calls).call loader c :=
  List.foldl_concat ..

theorem firstLoaded_concat : FirstLoaded (calls ++ [c]) p ↔
    FirstLoaded calls p ∨ (∀ other ∈ calls, other.path ≠ p) ∧ c = .load p := by
  unfold FirstLoaded
  rw [List.find?_append]
  cases hfound : calls.find? (·.path = p) with
  | some other =>
    have hcalled : other.path = p := by simpa using List.find?_some hfound
    have hother := List.mem_of_find?_eq_some hfound
    rw [Option.some_or, or_iff_left]
    exact fun hnew => hnew.1 other hother hcalled
  | none =>
    have hnew : ∀ other ∈ calls, other.path ≠ p := by simpa using hfound
    rw [Option.none_or, List.find?_singleton, or_iff_right nofun, and_iff_right hnew]
    by_cases hc : c.path = p
    · simp [hc]
    · have hne : c ≠ .load p := by
        rintro rfl
        exact hc rfl
      simp [hc, hne]

-- ---------------------------------------------------------------------------
-- Answers
-- ---------------------------------------------------------------------------

theorem getElem?_load (loader : Loader σ) (m : LoadMemo σ) (path : String) :
    ∃ st, (m.load loader path).2.entries[path]? = some st ∧
      (m.load loader path).1 = st.answer := by
  cases hm : m.entries[path]? with
  | some st =>
    rw [load_of_some hm]
    exact ⟨st, hm, rfl⟩
  | none =>
    rw [load_of_none hm]
    exact ⟨.inFlight (newLoad loader m path), by rw [getElem?_insert, if_pos rfl], rfl⟩

theorem getElem?_call_eq_none :
    (m.call loader c).entries[p]? = none ↔ c.path ≠ p ∧ m.entries[p]? = none := by
  cases c with
  | settle path file =>
    show (m.settle path file).entries[p]? = none ↔ path ≠ p ∧ _
    rw [settle, getElem?_insert]
    split <;> simp_all
  | load path =>
    show (m.load loader path).2.entries[p]? = none ↔ path ≠ p ∧ _
    cases hm : m.entries[path]? with
    | some st =>
      rw [load_of_some hm]
      refine ⟨fun hp => ⟨?_, hp⟩, And.right⟩
      rintro rfl
      rw [hm] at hp
      cases hp
    | none =>
      rw [load_of_none hm, getElem?_insert]
      split <;> simp_all

theorem getElem?_after_eq_none (loader : Loader σ) (host : σ) (calls : List Call) (p : String) :
    (after loader host calls).entries[p]? = none ↔ ∀ c ∈ calls, c.path ≠ p := by
  induction calls using List.reverseRecOn with
  | nil => simp [after]
  | append_singleton calls c ih =>
    rw [after_concat, getElem?_call_eq_none, ih, List.forall_mem_append, and_comm,
      List.forall_mem_singleton]

theorem getElem?_call (h : m.entries[p]? = some st) (hc : ∀ file, c ≠ .settle p file) :
    (m.call loader c).entries[p]? = some st := by
  cases c with
  | settle path file =>
    have hne : path ≠ p := by
      rintro rfl
      exact hc file rfl
    show (m.settle path file).entries[p]? = some st
    rw [settle, getElem?_insert, if_neg hne, h]
  | load path =>
    show (m.load loader path).2.entries[p]? = some st
    cases hm : m.entries[path]? with
    | some _ => rw [load_of_some hm, h]
    | none =>
      have hne : path ≠ p := by
        rintro rfl
        rw [hm] at h
        cases h
      rw [load_of_none hm, getElem?_insert, if_neg hne, h]

theorem getElem?_foldl_call (h : m.entries[p]? = some st)
    (hcalls : ∀ file, Call.settle p file ∉ calls) :
    (calls.foldl (call loader) m).entries[p]? = some st := by
  induction calls generalizing m with
  | nil => exact h
  | cons c calls ih =>
    refine ih (getElem?_call h ?_) fun file hmem => hcalls file (.tail _ hmem)
    rintro file rfl
    exact hcalls file (.head _)

theorem answer_between (before : List Call) (hcalls : ∀ file, Call.settle path file ∉ calls) :
    answer loader host (before ++ .load path :: calls) path = answer loader host before path := by
  obtain ⟨st, hst, hanswer⟩ := getElem?_load loader (after loader host before) path
  have hkept : (after loader host (before ++ .load path :: calls)).entries[path]? = some st := by
    rw [after, List.foldl_append, List.foldl_cons]
    exact getElem?_foldl_call hst hcalls
  rw [answer, answer, load_of_some hkept, hanswer]

-- ---------------------------------------------------------------------------
-- What is passed on
-- ---------------------------------------------------------------------------

def passed (m : LoadMemo (σ × LoadLog)) : List String := m.host.2.map (·.1)

/-- What a memo whose loader is recorded has come to after calls. -/
structure Traced (calls : List Call) (m : LoadMemo (σ × LoadLog)) : Prop where
  passed : ∀ p, p ∈ m.passed ↔ FirstLoaded calls p
  nodup : m.passed.Nodup
  count : m.count = m.passed.length
  ready : ∀ {p file}, m.entries[p]? = some (.ready file) → .settle p file ∈ calls
  inFlight : ∀ {p future}, m.entries[p]? = some (.inFlight future) →
    ∃ outcome, (p, outcome) ∈ m.host.2 ∧ future.result = sharedOutcome outcome

namespace Traced

variable {m : LoadMemo (σ × LoadLog)}

theorem known (h : Traced calls m) (hcalled : ∃ other ∈ calls, other.path = path) :
    Traced (calls ++ [.load path]) m where
  passed := fun p => by
    rw [h.passed, firstLoaded_concat, or_iff_left]
    rintro ⟨hnew, heq⟩
    cases heq
    obtain ⟨other, hother, hpath⟩ := hcalled
    exact hnew other hother hpath
  nodup := h.nodup
  count := h.count
  ready := fun hp => List.mem_append_left _ (h.ready hp)
  inFlight := h.inFlight

theorem new (h : Traced calls m) (hnew : ∀ other ∈ calls, other.path ≠ path)
    (hnone : m.entries[path]? = none) :
    Traced (calls ++ [.load path]) (m.load loader.recording path).2 := by
  have hunpassed : path ∉ m.passed := fun hmem => by
    rw [h.passed] at hmem
    exact hnew _ (List.mem_of_find?_eq_some hmem) rfl
  rw [load_of_none hnone]
  have hpassed : LoadMemo.passed (σ := σ) ⟨(loader.recording.load path m.host).2,
      m.entries.insert path (.inFlight (newLoad loader.recording m path)), m.count + 1⟩ =
        m.passed ++ [path] := by
    simp [LoadMemo.passed, Loader.recording]
  refine
    { passed := fun p => ?_
      nodup := ?_
      count := ?_
      ready := fun {p file} hp => ?_
      inFlight := fun {p future} hp => ?_ }
  · rw [hpassed, firstLoaded_concat, List.mem_append, h.passed, List.mem_singleton]
    refine or_congr .rfl ⟨?_, fun hfirst => ?_⟩
    · rintro rfl
      exact ⟨hnew, rfl⟩
    · cases hfirst.2
      rfl
  · rw [hpassed]
    exact List.concat_eq_append ▸ h.nodup.concat hunpassed
  · rw [hpassed, List.length_append, ← h.count]
    rfl
  · rw [getElem?_insert] at hp
    split at hp
    · cases hp
    · exact List.mem_append_left _ (h.ready hp)
  · rw [getElem?_insert] at hp
    split at hp
    · rename_i heq
      cases hp
      subst heq
      exact ⟨_, List.mem_append_right _ (.head _), rfl⟩
    · obtain ⟨outcome, hmem, hshared⟩ := h.inFlight hp
      exact ⟨outcome, List.mem_append_left _ hmem, hshared⟩

theorem settle (h : Traced calls m) (path : String) (file : LoadedFile) :
    Traced (calls ++ [.settle path file]) (m.settle path file) where
  passed := fun p => by
    rw [firstLoaded_concat, or_iff_left nofun]
    exact h.passed p
  nodup := h.nodup
  count := h.count
  ready := fun {p found} hp => by
    rw [LoadMemo.settle, getElem?_insert] at hp
    split at hp
    · rename_i heq
      cases hp
      subst heq
      exact List.mem_append_right _ (.head _)
    · exact List.mem_append_left _ (h.ready hp)
  inFlight := fun {p future} hp => by
    rw [LoadMemo.settle, getElem?_insert] at hp
    split at hp
    · cases hp
    · exact h.inFlight hp

end Traced

theorem traced (loader : Loader σ) (host : σ) (calls : List Call) :
    Traced calls (after loader.recording (host, []) calls) := by
  -- from the end: a step is one more call to the memo as it is
  induction calls using List.reverseRecOn with
  | nil =>
    exact
      { passed := fun p => by simp [after, LoadMemo.passed, FirstLoaded]
        nodup := List.nodup_nil
        count := rfl
        ready := fun hp => by simp [after] at hp
        inFlight := fun hp => by simp [after] at hp }
  | append_singleton calls c ih =>
    rw [after_concat]
    cases c with
    | settle path file => exact ih.settle path file
    | load path =>
      have hnone := getElem?_after_eq_none loader.recording (host, []) calls path
      show Traced _ (LoadMemo.load loader.recording _ path).2
      cases hm : (after loader.recording (host, []) calls).entries[path]? with
      | some st =>
        rw [load_of_some hm]
        refine ih.known ?_
        by_contra hnew
        rw [hnone.mpr fun other hother hpath => hnew ⟨other, hother, hpath⟩] at hm
        cases hm
      | none => exact ih.new (hnone.mp hm) hm

theorem Traced.count_eq {m : LoadMemo (σ × LoadLog)} (h : Traced calls m) :
    m.count = {path | FirstLoaded calls path}.ncard := by
  have hset : {path | FirstLoaded calls path} = ↑m.passed.toFinset := by
    ext p
    simp [h.passed]
  rw [hset, Set.ncard_coe_finset, List.toFinset_card_of_nodup h.nodup, h.count]

theorem after_recording (loader : Loader σ) (host : σ) (log : LoadLog) (calls : List Call) :
    after loader host calls = (after loader.recording (host, log) calls).unrecorded := by
  induction calls using List.reverseRecOn with
  | nil => rfl
  | append_singleton calls c ih =>
    rw [after_concat, after_concat, ih]
    cases c with
    | settle path file => rfl
    | load path => exact congrArg Prod.snd (load_recording loader _ path)

/-- A request is answered with a file that was settled, or with what the loader
delivers, failures being shared. -/
theorem answer_cases (loader : Loader σ) (host : σ) (calls : List Call) (path : String) :
    (∃ file, .settle path file ∈ calls ∧ answer loader host calls path = .ready (.ok file)) ∨
      ∃ outcome,
        (path, outcome) ∈ (after loader.recording (host, []) (calls ++ [.load path])).host.2 ∧
        (answer loader host calls path).result = sharedOutcome outcome := by
  have htraced := traced loader host (calls ++ [.load path])
  have hanswer : answer loader host calls path =
      ((after loader.recording (host, []) calls).load loader.recording path).1 := by
    rw [answer, after_recording loader host [], load_recording]
  obtain ⟨st, hst, hload⟩ :=
    getElem?_load loader.recording (after loader.recording (host, []) calls) path
  rw [hanswer, hload]
  rw [after_concat] at htraced ⊢
  cases st with
  | ready file =>
    refine .inl ⟨file, ?_, rfl⟩
    simpa using htraced.ready hst
  | inFlight future => exact .inr (htraced.inFlight hst)

-- ---------------------------------------------------------------------------
-- Traversals
-- ---------------------------------------------------------------------------

def Called (loader : Loader σ) (host : σ) (m : LoadMemo σ) : Prop :=
  ∃ calls, m = after loader host calls

theorem called_new (loader : Loader σ) (host : σ) : Called loader host { host } := ⟨[], rfl⟩

theorem Called.load (h : Called loader host m) (path : String) :
    Called loader host (m.load loader path).2 := by
  obtain ⟨calls, rfl⟩ := h
  exact ⟨calls ++ [.load path], by rw [after_concat, call]⟩

theorem Called.settle (h : Called loader host m) (path : String) (file : LoadedFile) :
    Called loader host (m.settle path file) := by
  obtain ⟨calls, rfl⟩ := h
  exact ⟨calls ++ [.settle path file], by rw [after_concat, call]⟩

theorem Called.nodup {m : LoadMemo (σ × LoadLog)} (h : Called loader.recording (host, []) m) :
    m.passed.Nodup := by
  obtain ⟨calls, rfl⟩ := h
  exact (traced loader host calls).nodup

end LoadMemo

variable {σ : Type}

theorem Traversal.called_drain {ctx : Context σ} {edit : Edit} {host : σ} {total : Nat}
    {seeds : List String} {result : Except BuildError Unit} {t : Traversal σ}
    (h : (ofEdit edit host total).drain ctx seeds = (result, t)) :
    t.memo.Called ctx.loader host := by
  have hkeeps : Queue.Keeps (accumulator ctx) fun t => t.memo.Called ctx.loader host :=
    { start := fun path _ ht => ht.load path
      accumulate := fun path file t ht => by
        show (accumulate ctx path file t).2.memo.Called ctx.loader host
        unfold accumulate
        dsimp only
        split <;> exact ht.settle path file }
  have hcalled := hkeeps.drain (s := ofEdit edit host total) ctx.pace (.ofList seeds)
    (LoadMemo.called_new ctx.loader host)
  unfold Traversal.drain at h
  split at h
  all_goals
    rename_i heq
    rw [heq] at hcalled
    cases h
    exact hcalled

namespace Graph

theorem called_traverse (g : Graph) (ctx : Traversal.Context σ) (modified deleted : List String)
    (host : σ) : (g.traverse ctx modified deleted host).2.memo.Called ctx.loader host := by
  unfold traverse
  dsimp only
  split
  all_goals
    rename_i hdrain
    have hcalled := Traversal.called_drain hdrain
    exact hcalled

theorem called_initialTraverse (g : Graph) (ctx : Traversal.Context σ) (host : σ) :
    (g.initialTraverse ctx host).2.memo.Called ctx.loader host := by
  unfold initialTraverse
  dsimp only
  split
  · exact LoadMemo.called_new ctx.loader host
  · split
    all_goals
      rename_i hdrain
      have hcalled := Traversal.called_drain hdrain
    · exact hcalled
    · split <;> exact hcalled

end Graph

end BundleGraph
