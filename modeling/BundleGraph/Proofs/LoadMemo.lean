import BundleGraph.Loader

/-!
# What a memo holds

A memo holds a result for every path it was asked for: what the loader said at
the first request. Later requests and completed loads leave it as it is.
-/

namespace BundleGraph

def LoadState.result : LoadState → Except BuildError LoadedFile
  | ready file => .ok file
  | inFlight future => future.result

def LoadState.answer : LoadState → Started BuildError LoadedFile
  | ready file => .ready (.ok file)
  | inFlight future => .pending future

theorem LoadState.result_answer (st : LoadState) : st.answer.result = st.result := by
  cases st <;> rfl

namespace LoadMemo

variable {σ : Type} {loader : Loader σ} {m : LoadMemo σ} {path p : String} {file : LoadedFile}
  {result : Except BuildError LoadedFile}

theorem load_of_some {st : LoadState} (h : m.entries[path]? = some st) :
    m.load loader path = (st.answer, m) := by
  unfold load
  cases st <;> simp only [h] <;> rfl

/-- The load of a path that was not called before. -/
def newLoad (loader : Loader σ) (m : LoadMemo σ) (path : String) :
    Future BuildError LoadedFile :=
  ⟨sharedOutcome (loader.load path m.host).1.outcome, m.count, (loader.load path m.host).1.polls⟩

theorem load_of_none (h : m.entries[path]? = none) :
    m.load loader path = (.pending (newLoad loader m path), ⟨(loader.load path m.host).2,
      m.entries.insert path (.inFlight (newLoad loader m path)), m.count + 1⟩) := by
  unfold load
  simp only [h]
  rfl

theorem getElem?_insert (host : σ) (count : Nat) (st : LoadState) :
    (LoadMemo.mk host (m.entries.insert path st) count).entries[p]? =
      if path = p then some st else m.entries[p]? := by
  simp only [Std.TreeMap.getElem?_insert, Std.LawfulEqOrd.compare_eq_iff_eq]

def Delivers (Good : String → Except BuildError LoadedFile → Prop) (m : LoadMemo σ) : Prop :=
  ∀ (path : String) (st : LoadState), m.entries[path]? = some st → Good path st.result

section Delivers

variable {Good : String → Except BuildError LoadedFile → Prop}

theorem Delivers.insert (h : m.Delivers Good) {st : LoadState} (hst : Good path st.result)
    (host : σ) (count : Nat) : Delivers Good ⟨host, m.entries.insert path st, count⟩ := by
  intro q st' hq
  rw [getElem?_insert] at hq
  split at hq
  · rename_i hpath
    cases hq
    exact hpath ▸ hst
  · exact h q st' hq

theorem Delivers.load (h : m.Delivers Good) (path : String)
    (hload : ∀ path host, Good path (sharedOutcome (loader.load path host).1.outcome)) :
    (m.load loader path).2.Delivers Good ∧ Good path (m.load loader path).1.result := by
  unfold LoadMemo.load
  split
  · rename_i file hfile
    exact ⟨h, h path _ hfile⟩
  · rename_i future hfuture
    exact ⟨h, h path _ hfuture⟩
  · exact ⟨h.insert (hload path m.host) _ _, hload path m.host⟩

theorem Delivers.settle (h : m.Delivers Good) (hfile : Good path (.ok file)) :
    (m.settle path file).Delivers Good :=
  h.insert hfile m.host m.count

end Delivers

def Holds (m : LoadMemo σ) (path : String) (result : Except BuildError LoadedFile) : Prop :=
  ∃ st, m.entries[path]? = some st ∧ st.result = result

def Loaded (m : LoadMemo σ) (path : String) (file : LoadedFile) : Prop := m.Holds path (.ok file)

theorem Holds.unique {result' : Except BuildError LoadedFile} (h : m.Holds path result)
    (h' : m.Holds path result') : result = result' := by
  obtain ⟨st, hst, rfl⟩ := h
  obtain ⟨st', hst', rfl⟩ := h'
  rw [hst, Option.some.injEq] at hst'
  rw [hst']

theorem holds_insert {host : σ} {count : Nat} {st : LoadState} :
    Holds ⟨host, m.entries.insert path st, count⟩ p result ↔
      path = p ∧ st.result = result ∨ path ≠ p ∧ m.Holds p result := by
  unfold Holds
  rw [getElem?_insert]
  by_cases hp : path = p <;> simp [hp]

theorem load_cases (loader : Loader σ) (m : LoadMemo σ) (path : String) :
    (m.Holds path (m.load loader path).1.result ∧ (m.load loader path).2 = m) ∨
      (∀ result, ¬ m.Holds path result) ∧
        (m.load loader path).2.host = (loader.load path m.host).2 ∧
        (m.load loader path).1.result = sharedOutcome (loader.load path m.host).1.outcome ∧
        ∀ p result, (m.load loader path).2.Holds p result ↔
          path = p ∧ (m.load loader path).1.result = result ∨ m.Holds p result := by
  cases hm : m.entries[path]? with
  | some st =>
    rw [load_of_some hm]
    exact .inl ⟨⟨st, hm, st.result_answer.symm⟩, rfl⟩
  | none =>
    have hnone : ∀ result, ¬ m.Holds path result := by
      rintro result ⟨st, hst, -⟩
      rw [hm] at hst
      cases hst
    refine .inr ⟨hnone, ?_⟩
    rw [load_of_none hm]
    simp only [holds_insert]
    refine ⟨trivial, rfl, fun p result => or_congr .rfl ⟨And.right, fun h => ⟨?_, h⟩⟩⟩
    rintro rfl
    exact hnone result h

theorem Holds.load (h : m.Holds p result) (path : String) :
    (m.load loader path).2.Holds p result := by
  rcases load_cases loader m path with ⟨_, heq⟩ | ⟨_, _, _, hiff⟩
  · rwa [heq]
  · exact (hiff p result).mpr (.inr h)

theorem holds_load (loader : Loader σ) (m : LoadMemo σ) (path : String) :
    (m.load loader path).2.Holds path (m.load loader path).1.result := by
  rcases load_cases loader m path with ⟨h, heq⟩ | ⟨_, _, _, hiff⟩
  · rwa [heq]
  · exact (hiff path _).mpr (.inl ⟨rfl, rfl⟩)

theorem Holds.of_load (h : (m.load loader path).2.Holds p result) :
    path = p ∨ m.Holds p result := by
  rcases load_cases loader m path with ⟨_, heq⟩ | ⟨_, _, _, hiff⟩
  · rw [heq] at h
    exact .inr h
  · exact ((hiff p result).mp h).imp_left And.left

theorem holds_settle (h : m.Holds path (.ok file)) :
    (m.settle path file).Holds p result ↔ m.Holds p result := by
  unfold settle
  rw [holds_insert]
  by_cases hp : path = p
  · subst hp
    obtain ⟨st, hst, hresult⟩ := h
    have hready : (LoadState.ready file).result = .ok file := rfl
    simp [Holds, hst, hresult, hready]
  · simp [hp]

end LoadMemo

end BundleGraph
