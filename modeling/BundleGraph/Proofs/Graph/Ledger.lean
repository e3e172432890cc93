import BundleGraph.Proofs.Graph.Process

/-!
# The accounts of an edit

An edit keeps account of what it changes. `Ledger` says what its three sets of
reports tell of it, against the graph it started from: what is in the graph or
being loaded is what was there and is not reported as deleted, and what is
reported as added; and a module that is not reported as renewed has the content
it had. A path can be released, discovered again and released once more in one
edit; each step moves it between the sets and the graph at the same time.
-/

namespace BundleGraph.Edit

/-- In the graph, or being loaded. -/
def Live (e : Edit) (path : String) : Prop := e.graph.contains path ∨ e.loading.contains path

/-- Reported as added or modified. -/
def Renewed (e : Edit) (path : String) : Prop := e.added.contains path ∨ e.modified.contains path

/-- The reports of an edit of the graph `g`, with tasks to be worked off.
Exceptions may have lost edges. -/
structure Ledger (g : Graph) (requested tasks : List String) (except : String → Prop) (e : Edit) :
    Prop where
  live : ∀ q, e.Live q ↔ g.contains q ∧ e.deleted.contains q = false ∨ e.added.contains q
  added_new : ∀ q, e.added.contains q → g.contains q = false
  deleted_old : ∀ q, e.deleted.contains q → g.contains q
  modified_old : ∀ q, e.modified.contains q → g.contains q
  apart : ∀ q, e.graph.contains q → e.loading.contains q = false
  renewed : ∀ q, (q ∈ tasks ∨ e.loading.contains q) → e.Live q → e.Renewed q
  kept : ∀ q, e.graph.contains q →
    except q ∨ e.Renewed q ∨ e.graph.content? q = g.content? q
  answered : ∀ q ∈ requested, g.contains q → e.modified.contains q ∨ e.deleted.contains q

variable {g : Graph} {requested tasks : List String} {except except' : String → Prop}
  {e e' : Edit} {path : String} {edge : Edge} {edges : List Edge} {stack : Stack}
  {file : LoadedFile}

-- ---------------------------------------------------------------------------
-- Steps that report nothing
-- ---------------------------------------------------------------------------

theorem Ledger.answer (h : Ledger g requested tasks except e) (hc : e.graph.contains path = false) :
    Ledger g (path :: requested) tasks except e :=
  { h with
    answered := fun q hq hold => by
      rcases List.mem_cons.mp hq with rfl | hq
      · by_cases hlive : e.Live q
        · refine .inl ((h.renewed q (.inr ?_) hlive).resolve_left fun ha => ?_)
          · exact hlive.resolve_left (by simp [hc])
          · have := h.added_new q ha
            rw [hold] at this
            cases this
        · refine .inr ?_
          by_contra hd
          exact hlive ((h.live q).mpr (.inl ⟨hold, by simpa using hd⟩))
      · exact h.answered q hq hold }

/-- What is not a matter of record may change: counts and colors, and the content
of modules that are exceptions or renewed. -/
theorem Ledger.of_same (h : Ledger g requested tasks except e)
    (haccount : e' = { e with graph := e'.graph, loading := e'.loading })
    (hcontains : ∀ q, e'.graph.contains q = e.graph.contains q)
    (hloading : ∀ q, e'.loading.contains q ↔ e.loading.contains q)
    (hcontent : ∀ q, e.graph.contains q → except' q ∨ e.Renewed q ∨
      e'.graph.content? q = e.graph.content? q)
    (hexcept : ∀ q, except q → except' q) : Ledger g requested tasks except' e' := by
  have hadded : e'.added = e.added := by rw [haccount]
  have hmodified : e'.modified = e.modified := by rw [haccount]
  have hdeleted : e'.deleted = e.deleted := by rw [haccount]
  have hlive : ∀ q, e'.Live q ↔ e.Live q := fun q => by rw [Live, Live, hcontains, hloading]
  have hrenewed : ∀ q, e'.Renewed q ↔ e.Renewed q := fun q => by
    rw [Renewed, Renewed, hadded, hmodified]
  refine
    { live := fun q => by rw [hlive, hdeleted, hadded, h.live]
      added_new := fun q hq => h.added_new q (hadded ▸ hq)
      deleted_old := fun q hq => h.deleted_old q (hdeleted ▸ hq)
      modified_old := fun q hq => h.modified_old q (hmodified ▸ hq)
      apart := fun q hq => ?_
      renewed := fun q hq hl => ?_
      kept := fun q hq => ?_
      answered := fun q hq hc => by rw [hmodified, hdeleted]; exact h.answered q hq hc }
  · rw [← Bool.not_eq_true, hloading, Bool.not_eq_true]
    exact h.apart q (hcontains q ▸ hq)
  · rw [hloading] at hq
    exact (hrenewed q).mpr (h.renewed q hq ((hlive q).mp hl))
  · rw [hcontains] at hq
    rw [hrenewed]
    rcases h.kept q hq with he | hr | hc
    · exact .inl (hexcept q he)
    · exact .inr (.inl hr)
    · exact (hcontent q hq).imp_right (Or.imp_right (·.trans hc))

theorem Ledger.mono (h : Ledger g requested tasks except e) (hle : ∀ q, except q → except' q) :
    Ledger g requested tasks except' e :=
  h.of_same rfl (fun _ => rfl) (fun _ => .rfl) (fun _ _ => .inr (.inr rfl)) hle

theorem Ledger.retask (h : Ledger g requested tasks except e) {tasks' : List String}
    (hsub : ∀ q ∈ tasks', q ∈ tasks ∨ e.loading.contains q) :
    Ledger g requested tasks' except e :=
  { h with renewed := fun q hq => h.renewed q (hq.elim (hsub q) .inr) }

theorem Ledger.untouched (h : Ledger g requested tasks except e) (hu : Untouched e e') :
    Ledger g requested tasks except e' := by
  have haccount := hu.account
  refine h.of_same ?_ hu.contains (fun q => ?_) (fun q _ => .inr (.inr (hu.content q))) fun _ => id
  · conv_lhs => rw [haccount]
    rw [haccount]
  · rw [haccount]

theorem Ledger.detach (h : Ledger g requested tasks except e) (hpath : except path ∨ path ∈ tasks)
    (edge : Edge) : Ledger g requested tasks except (e.detach path edge).2 := by
  refine h.of_same (detach_account path edge) (contains_detach path edge)
    (fun q => by rw [loading_contains_detach]) (fun q hq => ?_) fun _ => id
  by_cases hne : path = q
  · subst hne
    exact hpath.imp_right fun ht => .inl (h.renewed path (.inl ht) (.inl hq))
  · exact .inr (.inr (by rw [content?_detach, if_neg hne]))

theorem Ledger.setEdges (h : Ledger g requested tasks except e) (hpath : path ∈ tasks)
    (edges : List Edge) : Ledger g requested tasks except (e.setEdges path edges) := by
  refine h.of_same rfl (contains_setEdges path edges) (fun _ => .rfl) (fun q hq => ?_) fun _ => id
  by_cases hne : path = q
  · subst hne
    exact .inr (.inl (h.renewed path (.inl hpath) (.inl hq)))
  · exact .inr (.inr (by rw [content?_setEdges, if_neg hne]))

theorem Ledger.arrive (h : Ledger g requested tasks except e) (ha : Arrived path file e e')
    (hpath : path ∈ tasks) (hlive : e.Live path) : Ledger g requested tasks except e' := by
  have hsame : ∀ q, e'.Live q ↔ e.Live q := by
    intro q
    rw [Live, Live, ha.contains, ha.loading]
    by_cases hq : path = q
    · subst hq
      exact ⟨fun _ => hlive, fun _ => .inl (.inl rfl)⟩
    · simp [hq]
  have hrenewed : ∀ q, e'.Renewed q ↔ e.Renewed q := fun q => by
    rw [Renewed, Renewed, ha.added, ha.modified]
  refine
    { live := fun q => by rw [hsame, ha.deleted, ha.added, h.live]
      added_new := fun q hq => h.added_new q (ha.added ▸ hq)
      deleted_old := fun q hq => h.deleted_old q (ha.deleted ▸ hq)
      modified_old := fun q hq => h.modified_old q (ha.modified ▸ hq)
      apart := fun q hq => ?_
      renewed := fun q hq hl => ?_
      kept := fun q hq => ?_
      answered := fun q hq hc => by rw [ha.modified, ha.deleted]; exact h.answered q hq hc }
  · rw [← Bool.not_eq_true, ha.loading, not_and, Bool.not_eq_true]
    exact fun hne => h.apart q (((ha.contains q).mp hq).resolve_left hne)
  · rw [ha.loading] at hq
    exact (hrenewed q).mpr (h.renewed q (hq.imp_right And.right) ((hsame q).mp hl))
  · rw [hrenewed, ha.content]
    split
    · rename_i hq
      exact .inr (.inl (hq ▸ h.renewed path (.inl hpath) hlive))
    · rename_i hne
      exact h.kept q (((ha.contains q).mp hq).resolve_left hne)

-- ---------------------------------------------------------------------------
-- Leaving and coming back
-- ---------------------------------------------------------------------------

theorem added_forget_iff (path q : String) :
    (e.forget path).added.contains q ↔ path ≠ q ∧ e.added.contains q := by
  unfold forget
  split
  · simp [OrderedSet.contains_erase]
  · rename_i hadded
    refine ⟨fun hq => ⟨?_, hq⟩, And.right⟩
    rintro rfl
    exact hadded hq

theorem modified_forget (path : String) : (e.forget path).modified = e.modified := by
  unfold forget
  split <;> rfl

/-- A path that leaves is reported as deleted when it was in the graph before the
edit, and not reported otherwise. It must not leave again once it is gone and
not reported. -/
theorem Ledger.leave (h : Ledger g requested tasks except e)
    (hpath : g.contains path ∨ e.Live path)
    (haccount : e' = { e.forget path with graph := e'.graph, loading := e'.loading })
    (hcontent : ∀ q, e'.graph.content? q = if path = q then none else e.graph.content? q)
    (hloading : ∀ q, e'.loading.contains q ↔ path ≠ q ∧ e.loading.contains q)
    (hexcept : ∀ q, path ≠ q → except q → except' q) : Ledger g requested tasks except' e' := by
  have hadded : ∀ q, e'.added.contains q ↔ path ≠ q ∧ e.added.contains q := fun q => by
    rw [haccount]
    exact added_forget_iff path q
  have hdeleted : ∀ q, e'.deleted.contains q ↔
      e.deleted.contains q ∨ path = q ∧ e.added.contains path = false := fun q => by
    rw [haccount]
    exact deleted_forget path q
  have hmodified : e'.modified = e.modified := by
    rw [haccount]
    exact modified_forget path
  have hcontains : ∀ q, e'.graph.contains q ↔ path ≠ q ∧ e.graph.contains q := fun q => by
    rw [Graph.contains_iff_content?, Graph.contains_iff_content?, hcontent]
    by_cases hq : path = q <;> simp [hq]
  have hlive : ∀ q, e'.Live q ↔ path ≠ q ∧ e.Live q := fun q => by
    rw [Live, Live, hcontains, hloading, and_or_left]
  have hrenewed : ∀ q, path ≠ q → e.Renewed q → e'.Renewed q := fun q hne hq => by
    rw [Renewed, hadded, hmodified]
    exact hq.imp_left fun ha => ⟨hne, ha⟩
  refine
    { live := fun q => ?_
      added_new := fun q hq => h.added_new q ((hadded q).mp hq).2
      deleted_old := fun q hq => ?_
      modified_old := fun q hq => h.modified_old q (hmodified ▸ hq)
      apart := fun q hq => ?_
      renewed := fun q hq hl => ?_
      kept := fun q hq => ?_
      answered := fun q hq hc => ?_ }
  · rw [hlive, hadded, ← Bool.not_eq_true, hdeleted, not_or]
    by_cases hne : path = q
    · subst hne
      refine ⟨fun hf => absurd rfl hf.1, ?_⟩
      rintro (⟨hg, _, ha⟩ | hf)
      · have hnew := h.added_new path (by simpa using ha)
        rw [hg] at hnew
        cases hnew
      · exact absurd rfl hf.1
    · simp only [hne, ne_eq, not_false_eq_true, true_and, false_and, and_true, h.live q,
        Bool.not_eq_true]
  · rcases (hdeleted q).mp hq with hq | ⟨rfl, hnot⟩
    · exact h.deleted_old q hq
    · rcases hpath with hpath | hpath
      · exact hpath
      · have := (h.live path).mp hpath
        rw [hnot] at this
        exact (this.resolve_right Bool.false_ne_true).1
  · have hc := (hcontains q).mp hq
    rw [← Bool.not_eq_true, hloading, not_and, Bool.not_eq_true]
    exact fun _ => h.apart q hc.2
  · obtain ⟨hne, hl⟩ := (hlive q).mp hl
    refine hrenewed q hne (h.renewed q (hq.imp_right fun hq => ?_) hl)
    exact ((hloading q).mp hq).2
  · obtain ⟨hne, hc⟩ := (hcontains q).mp hq
    rw [hcontent, if_neg hne]
    exact (h.kept q hc).imp (hexcept q hne) (Or.imp_left (hrenewed q hne))
  · rw [hmodified, hdeleted]
    exact (h.answered q hq hc).imp_right .inl

theorem Ledger.free (h : Ledger g requested tasks except e)
    (hpath : g.contains path ∨ e.Live path) (hexcept : ∀ q, path ≠ q → except q → except' q) :
    Ledger g requested tasks except' (e.free path) := by
  refine h.leave hpath rfl (content?_free path) (fun q => ?_) hexcept
  rw [loading_free, Std.TreeMap.contains_erase]
  simp

theorem Ledger.forget (h : Ledger g requested tasks except e)
    (hc : e.graph.contains path = false) (hl : e.loading.contains path) :
    Ledger g requested tasks except
      { e.forget path with loading := (e.loading.erase path).erase path } := by
  refine h.leave (.inr (.inr hl)) rfl (fun q => ?_) (fun q => ?_) fun _ _ => id
  · rw [graph_forget]
    split
    · rename_i hq
      rw [← hq, Graph.content?, Graph.contains_eq_false_iff.mp hc]
      rfl
    · rfl
  · simp [Std.TreeMap.contains_erase]

/-- A path that is not live is discovered: one that was reported as deleted comes
back as modified, and all others were not there before. -/
theorem Ledger.enqueue (h : Ledger g requested tasks except e) (hpath : ¬ e.Live path)
    (referrer : Option String) : Ledger g requested tasks except (e.enqueue path referrer) := by
  have hgraph := graph_enqueue (e := e) path referrer
  have hlive : ∀ q, (e.enqueue path referrer).Live q ↔ path = q ∨ e.Live q := fun q => by
    rw [Live, Live, hgraph, loading_contains_enqueue, or_left_comm]
  have hold : g.contains path → e.deleted.contains path := fun hold => by
    by_contra hnot
    exact hpath ((h.live path).mpr (.inl ⟨hold, by simpa using hnot⟩))
  have hnot : e.added.contains path = false := by
    rw [← Bool.not_eq_true]
    exact fun ha => hpath ((h.live path).mpr (.inr ha))
  have hdeleted : ∀ q, (e.enqueue path referrer).deleted.contains q ↔
      path ≠ q ∧ e.deleted.contains q := fun q => by
    unfold Edit.enqueue
    split
    · simp [OrderedSet.contains_erase]
    · rename_i hd
      refine ⟨fun hq => ⟨?_, hq⟩, And.right⟩
      rintro rfl
      exact hd hq
  have hadded : ∀ q, (e.enqueue path referrer).added.contains q ↔
      path = q ∧ g.contains path = false ∨ e.added.contains q := fun q => by
    unfold Edit.enqueue
    split
    · rename_i hd
      simp [h.deleted_old path hd]
    · rename_i hd
      have hnew : g.contains path = false := by
        rw [← Bool.not_eq_true]
        exact fun hg => hd (hold hg)
      simp [OrderedSet.contains_insert, hnew]
  have hmodified : ∀ q, (e.enqueue path referrer).modified.contains q ↔
      path = q ∧ g.contains path ∨ e.modified.contains q := fun q => by
    unfold Edit.enqueue
    split
    · rename_i hd
      simp [OrderedSet.contains_insert, h.deleted_old path hd]
    · rename_i hd
      simp [mt hold hd]
  have hrenewed : ∀ q, e.Renewed q → (e.enqueue path referrer).Renewed q := fun q hq => by
    rw [Renewed, hadded, hmodified]
    exact hq.imp .inr .inr
  refine
    { live := fun q => ?_
      added_new := fun q hq => ?_
      deleted_old := fun q hq => h.deleted_old q ((hdeleted q).mp hq).2
      modified_old := fun q hq => ?_
      apart := fun q hq => ?_
      renewed := fun q hq hl => ?_
      kept := fun q hq => ?_
      answered := fun q hq hc => ?_ }
  · rw [hlive, hadded, ← Bool.not_eq_true, hdeleted]
    by_cases hne : path = q
    · subst hne
      cases hg : g.contains path <;> simp
    · simp [hne, h.live q]
  · rcases (hadded q).mp hq with ⟨rfl, hnew⟩ | hq
    · exact hnew
    · exact h.added_new q hq
  · rcases (hmodified q).mp hq with ⟨rfl, hg⟩ | hq
    · exact hg
    · exact h.modified_old q hq
  · rw [hgraph] at hq
    rw [← Bool.not_eq_true, loading_contains_enqueue, not_or, Bool.not_eq_true]
    refine ⟨?_, h.apart q hq⟩
    rintro rfl
    exact hpath (.inl hq)
  · by_cases hne : path = q
    · subst hne
      rw [Renewed, hadded, hmodified]
      cases hg : g.contains path <;> simp
    · refine hrenewed q (h.renewed q (hq.imp_right fun hq => ?_) ?_)
      · exact ((loading_contains_enqueue path referrer q).mp hq).resolve_left hne
      · exact ((hlive q).mp hl).resolve_left hne
  · rw [hgraph] at hq ⊢
    exact (h.kept q hq).imp_right (Or.imp_left (hrenewed q))
  · rw [hmodified, hdeleted]
    by_cases hne : path = q
    · exact .inl (.inl ⟨hne, hne ▸ hc⟩)
    · exact (h.answered q hq hc).imp .inr fun hd => ⟨hne, hd⟩

theorem Ledger.addEdge (h : Ledger g requested tasks except e) (parent : String) (edge : Edge) :
    Ledger g requested tasks except (e.addEdge parent edge).1 := by
  rcases e.addEdge_cases parent edge with ⟨hc, h'⟩ | ⟨hc, inverse, hl, h'⟩ | ⟨hc, hl, h'⟩
  · rw [h']
    exact h.untouched (((Untouched.refl e).addReferrer _ _).setColor _ .black)
  · rw [h']
    refine h.of_same rfl (fun _ => rfl) (fun q => ?_) (fun _ _ => .inr (.inr rfl)) fun _ => id
    have hloading := (loading_contains_iff edge.target).mpr ⟨inverse, hl⟩
    by_cases hq : edge.target = q
    · subst hq
      simp [hloading]
    · simp [Std.TreeMap.contains_insert, hq]
  · rw [h']
    refine h.enqueue ?_ _
    rw [Live, hc, loading_contains_eq_false.mpr hl]
    simp

end BundleGraph.Edit
