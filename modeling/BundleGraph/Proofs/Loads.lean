import BundleGraph.Proofs.Graph.Traverse

/-!
# What is passed to a loader

`Loader.recording` answers as a loader does, and notes what it was asked for and
what came of it. A traversal with it comes to the same
(`Graph.traverse_recording`), and the notes are the memo of the traversal
(`Graph.noted_traverse`).
-/

namespace BundleGraph

open Queue

variable {σ : Type}

/-- An invariant of a traversal may count on it that the memo holds what its
tasks deliver. -/
theorem Traversal.holding {ctx : Context σ} {Inv : List String → Traversal σ → Prop}
    (perm : ∀ {ts ts' t}, ts.Perm ts' → Inv ts t → Inv ts' t)
    (start : ∀ {path ts t}, Inv (path :: ts) t → Inv (path :: ts) (start ctx path t).2)
    (accumulate : ∀ {path ts t file next t'}, Inv (path :: ts) t → t.memo.Holds path (.ok file) →
      t'.memo = t.memo.settle path file →
      t.edit.process ctx.resolve ctx.shallow path file = (.ok next, t'.edit) →
      Inv (ts ++ next) t') :
    Invariant (accumulator ctx) (fun t => t.memo.Holds) Inv where
  perm := perm
  start := fun {path _ t} h => ⟨start h, LoadMemo.holds_load ctx.loader t.memo path⟩
  accumulate := fun h hheld hacc => by
    obtain ⟨hprocess, hmemo⟩ := accumulate_ok hacc
    exact accumulate h hheld hmemo hprocess
  started := fun {path _ _ _} h => h.load path
  accumulated := fun hheld hacc h => by
    rw [(accumulate_ok hacc).2]
    exact (LoadMemo.holds_settle hheld).mpr h

-- ---------------------------------------------------------------------------
-- Recording
-- ---------------------------------------------------------------------------

/-- Paths that were loaded, in order, and what came of them. -/
abbrev LoadLog := List (String × Except BuildError LoadedFile)

/-- Answers as a loader does, and notes it. -/
def Loader.recording (loader : Loader σ) : Loader (σ × LoadLog) where
  load path host :=
    ((loader.load path host.1).1, (loader.load path host.1).2,
      host.2 ++ [(path, (loader.load path host.1).1.outcome)])

def Traversal.Context.recording (ctx : Traversal.Context σ) : Traversal.Context (σ × LoadLog) where
  resolve := ctx.resolve
  loader := ctx.loader.recording
  shallow := ctx.shallow
  pace := ctx.pace

def LoadMemo.Noted (m : LoadMemo (σ × LoadLog)) : Prop :=
  ∀ path result, m.Holds path result ↔
    ∃ outcome, (path, outcome) ∈ m.host.2 ∧ sharedOutcome outcome = result

theorem LoadMemo.Noted.load {m : LoadMemo (σ × LoadLog)} (h : m.Noted) (loader : Loader σ)
    (path : String) : (m.load loader.recording path).2.Noted := by
  rcases load_cases loader.recording m path with ⟨_, heq⟩ | ⟨_, hhost, hresult, hiff⟩
  · rwa [heq]
  · intro p result
    rw [hiff, h, hhost, hresult]
    simp only [Loader.recording, List.mem_append, List.mem_singleton, Prod.mk.injEq]
    constructor
    · rintro (⟨rfl, rfl⟩ | ⟨outcome, hmem, hshared⟩)
      · exact ⟨_, .inr ⟨rfl, rfl⟩, rfl⟩
      · exact ⟨outcome, .inl hmem, hshared⟩
    · rintro ⟨outcome, hmem | ⟨rfl, rfl⟩, hshared⟩
      · exact .inr ⟨outcome, hmem, hshared⟩
      · exact .inl ⟨rfl, hshared⟩

theorem LoadMemo.Noted.settle {m : LoadMemo (σ × LoadLog)} (h : m.Noted) {path : String}
    {file : LoadedFile} (hheld : m.Loaded path file) : (m.settle path file).Noted := by
  intro p result
  rw [holds_settle hheld, h]
  rfl

theorem LoadMemo.noted_new (host : σ) : LoadMemo.Noted { host := (host, []) } := fun p result => by
  simp [Holds]

def LoadMemo.unrecorded (m : LoadMemo (σ × LoadLog)) : LoadMemo σ :=
  ⟨m.host.1, m.entries, m.count⟩

theorem LoadMemo.load_recording (loader : Loader σ) (m : LoadMemo (σ × LoadLog)) (path : String) :
    m.unrecorded.load loader path =
      ((m.load loader.recording path).1, (m.load loader.recording path).2.unrecorded) := by
  unfold load unrecorded
  dsimp only
  split <;> rfl

def Traversal.unrecorded (t : Traversal (σ × LoadLog)) : Traversal σ :=
  { t with memo := ⟨t.memo.host.1, t.memo.entries, t.memo.count⟩ }

theorem Traversal.unrecorded_ofEdit (edit : Edit) (host : σ) (log : LoadLog) (total : Nat) :
    (ofEdit edit (host, log) total).unrecorded = ofEdit edit host total := rfl

theorem Traversal.simulates_recording (ctx : Context σ) :
    Simulates (accumulator ctx) (accumulator ctx.recording) unrecorded where
  start := fun path t => by
    show start ctx path t.unrecorded =
      ((start ctx.recording path t).1, (start ctx.recording path t).2.unrecorded)
    unfold start
    rw [show t.unrecorded.memo = t.memo.unrecorded from rfl, LoadMemo.load_recording]
    rfl
  accumulate := fun path file t => by
    show accumulate ctx path file t.unrecorded =
      ((accumulate ctx.recording path file t).1, (accumulate ctx.recording path file t).2.unrecorded)
    unfold accumulate
    dsimp only [unrecorded, Context.recording]
    split <;> rfl

theorem Traversal.drain_recording (ctx : Context σ) (t : Traversal (σ × LoadLog))
    (seeds : List String) : t.unrecorded.drain ctx seeds =
      ((t.drain ctx.recording seeds).1, (t.drain ctx.recording seeds).2.unrecorded) := by
  have hpace : ctx.recording.pace = ctx.pace := rfl
  unfold Traversal.drain
  rw [(simulates_recording ctx).drain, hpace]
  cases Queue.drain (accumulator ctx.recording) ctx.pace (.ofList seeds) t with
  | mk result t => cases result <;> rfl

theorem Graph.traverse_recording (g : Graph) (ctx : Traversal.Context σ)
    (modified deleted : List String) (host : σ) (log : LoadLog) :
    g.traverse ctx modified deleted host =
      ((g.traverse ctx.recording modified deleted (host, log)).1,
        (g.traverse ctx.recording modified deleted (host, log)).2.unrecorded) := by
  unfold Graph.traverse
  dsimp only
  rw [← Traversal.unrecorded_ofEdit _ host log, Traversal.drain_recording]
  generalize (Traversal.ofEdit _ (host, log) _).drain ctx.recording _ = r
  obtain ⟨result, t⟩ := r
  cases result <;> simp only [Traversal.unrecorded]

theorem Graph.initialTraverse_recording (g : Graph) (ctx : Traversal.Context σ) (host : σ)
    (log : LoadLog) : g.initialTraverse ctx host =
      ((g.initialTraverse ctx.recording (host, log)).1,
        (g.initialTraverse ctx.recording (host, log)).2.unrecorded) := by
  unfold Graph.initialTraverse
  dsimp only
  rw [← Traversal.unrecorded_ofEdit _ host log, ← Traversal.unrecorded_ofEdit _ host log,
    Traversal.drain_recording]
  generalize (Traversal.ofEdit _ (host, log) _).drain ctx.recording _ = r
  obtain ⟨result, t⟩ := r
  split
  · rfl
  · cases result with
    | error e => rfl
    | ok _ =>
      have hshallow : ctx.recording.shallow = ctx.shallow := rfl
      rw [hshallow]
      dsimp only [Traversal.unrecorded]
      by_cases hlost : (!ctx.shallow &&
          decide (t.edit.graph.order.length ≠ t.edit.graph.modules.size)) = true
      · rw [if_pos hlost, if_pos hlost]
      · rw [if_neg hlost, if_neg hlost]

theorem Graph.noted_traverse {g : Graph} {ctx : Traversal.Context σ}
    {modified deleted : List String} {host : σ} {d : GraphDelta} {t : Traversal (σ × LoadLog)}
    (h : g.traverse ctx.recording modified deleted (host, []) = (.ok d, t)) : t.memo.Noted := by
  obtain ⟨start, hworked, _, _, hmemo⟩ := traverse_ok h
  rw [hmemo]
  have hinv : Invariant (Traversal.accumulator ctx.recording) (fun t => t.memo.Holds)
      fun _ t => t.memo.Noted := by
    refine Traversal.holding (fun _ h => h) (fun h => h.load ctx.loader _) fun h hheld hmemo _ => ?_
    rw [hmemo]
    exact h.settle hheld
  exact Traversal.drain_invariant hinv (LoadMemo.noted_new host) hworked

end BundleGraph
