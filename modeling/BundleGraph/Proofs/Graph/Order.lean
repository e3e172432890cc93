import BundleGraph.Proofs.Graph.References
import BundleGraph.Proofs.Preorder

/-!
# What a build result is made of

A build result depends on the entry points and on what they reach. Two graphs
with the same entry points that hold the same content wherever both have a
module yield the same content in the same order, as long as no edge of theirs
leads out of them.
-/

namespace BundleGraph

/-- Modules without their referrers. -/
def BuildResult.content (r : BuildResult) : List Module × List Module :=
  (r.modules.map Module.content, r.entries.map Module.content)

namespace Graph

variable {g h : Graph}

theorem getElem?_foldl_insert_targets (l : List (String × Nat × Module))
    (hl : (l.map (·.1)).Nodup) (t : Adjacency) (p : String) (children : List String) :
    (l.foldl (fun t e => t.insert e.1 e.2.2.targets) t)[p]? = some children ↔
      (∃ stamp m, (p, stamp, m) ∈ l ∧ m.targets = children) ∨
        p ∉ l.map (·.1) ∧ t[p]? = some children := by
  induction l generalizing t with
  | nil => simp
  | cons e rest ih =>
    obtain ⟨k, stamp, m⟩ := e
    obtain ⟨hk, hrest⟩ := List.nodup_cons.mp hl
    rw [List.foldl_cons, ih hrest, Std.TreeMap.getElem?_insert]
    by_cases hp : k = p
    · subst hp
      have hnot : ∀ stamp m, (k, stamp, m) ∉ rest := fun stamp m hm =>
        hk (List.mem_map.mpr ⟨_, hm, rfl⟩)
      simp [hnot, hk]
    · simp [hp, Ne.symm hp]

theorem getElem?_adjacency (g : Graph) (p : String) :
    g.adjacency[p]? = (g.modules.get? p).map Module.targets := by
  have hnodup : (g.modules.slots.toList.map (·.1)).Nodup := by
    rw [Std.TreeMap.map_fst_toList_eq_keys]
    exact g.modules.slots.nodup_keys
  ext children
  rw [adjacency, OrderedMap.foldAny, Std.TreeMap.foldl_eq_foldl_toList,
    getElem?_foldl_insert_targets _ hnodup]
  simp [OrderedMap.get?]

theorem getElem?_adjacency_eq_content (g : Graph) (p : String) :
    g.adjacency[p]? = (g.content? p).map Module.targets := by
  rw [getElem?_adjacency, content?, Option.map_map]
  rfl

def Shared (g h : Graph) (path : String) : Prop := g.contains path ∧ h.contains path

theorem order_congr (hentries : h.entryPoints.toList = g.entryPoints.toList)
    (hstarts : ∀ p ∈ g.entryPoints.toList, Shared g h p)
    (hcontent : ∀ p, Shared g h p → h.content? p = g.content? p)
    (hg : ∀ p t, t ∈ g.targets p → g.contains t) (hh : ∀ p t, t ∈ h.targets p → h.contains t) :
    h.order = g.order ∧ ∀ p ∈ g.order, Shared g h p := by
  rw [order, order, hentries]
  refine Preorder.preorder_congr (fun p hp => ?_) (fun p children hp hchildren c hc => ?_) hstarts
  · rw [getElem?_adjacency_eq_content, getElem?_adjacency_eq_content, hcontent p hp]
  · obtain ⟨m, hm, rfl⟩ := Option.map_eq_some_iff.mp ((getElem?_adjacency g p).symm.trans hchildren)
    have htarget : c ∈ g.targets p := by
      rw [targets, edges, hm]
      exact hc
    refine ⟨hg p c htarget, hh p c ?_⟩
    rwa [targets_congr (hcontent p hp)]

theorem map_content_filterMap (g : Graph) (paths : List String) :
    (paths.filterMap g.modules.get?).map Module.content = paths.filterMap g.content? := by
  rw [List.map_filterMap]
  rfl

theorem content_buildResult (g : Graph) : g.buildResult.content =
    (g.order.filterMap g.content?, g.entryPoints.toList.filterMap g.content?) := by
  rw [BuildResult.content, buildResult, map_content_filterMap, map_content_filterMap]

theorem buildResult_congr (hentries : h.entryPoints.toList = g.entryPoints.toList)
    (hstarts : ∀ p ∈ g.entryPoints.toList, Shared g h p)
    (hcontent : ∀ p, Shared g h p → h.content? p = g.content? p)
    (hg : ∀ p t, t ∈ g.targets p → g.contains t) (hh : ∀ p t, t ∈ h.targets p → h.contains t) :
    h.buildResult.content = g.buildResult.content := by
  obtain ⟨horder, hshared⟩ := order_congr hentries hstarts hcontent hg hh
  rw [content_buildResult, content_buildResult, horder, hentries,
    List.filterMap_congr fun p hp => hcontent p (hshared p hp),
    List.filterMap_congr fun p hp => hcontent p (hstarts p hp)]

end Graph

end BundleGraph
