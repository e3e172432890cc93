import BundleGraph.Graph
import Mathlib.Logic.Relation

/-!
# What a graph holds, looked at from outside

A graph is read through five views: the content of its modules, which is all
but their referrers; how often a module counts a referrer; the colors; the
possible roots; and the entry points. Each operation on a graph is described by
what it does to the views, so that later proofs do not look at its maps.

Edges are compared with counts: `edgeCount` is the number of edges that lead
from one module to a target, `count` how often the target counts the module.
-/

namespace BundleGraph

/-- A module without its referrers. -/
def Module.content (m : Module) : Module := { m with inverse := ∅ }

@[simp] theorem Module.edges_content (m : Module) : m.content.edges = m.edges := rfl

namespace Graph

def content? (g : Graph) (path : String) : Option Module :=
  (g.modules.get? path).map Module.content

/-- How often a module counts a referrer. -/
def count (g : Graph) (path referrer : String) : Nat :=
  match g.modules.get? path with
  | some m => m.inverse.count referrer
  | none => 0

/-- What a graph was made for; no edit changes it. -/
def settings (g : Graph) : OrderedSet String × Transform.Options := (g.entryPoints, g.options)

/-- The number of edges from a module to a target. -/
def edgeCount (g : Graph) (origin target : String) : Nat := (g.targets origin).count target

variable {g h : Graph}

-- ---------------------------------------------------------------------------
-- How the views hang together
-- ---------------------------------------------------------------------------

theorem contains_iff (g : Graph) (path : String) :
    g.contains path ↔ ∃ m, g.modules.get? path = some m :=
  g.modules.contains_iff path

theorem contains_eq_false_iff {path : String} :
    g.contains path = false ↔ g.modules.get? path = none := by
  rw [contains, OrderedMap.contains_eq_isSome_get?, Option.isSome_eq_false_iff,
    Option.isNone_iff_eq_none]

theorem contains_iff_content? (g : Graph) (path : String) :
    g.contains path ↔ (g.content? path).isSome := by
  rw [contains, OrderedMap.contains_eq_isSome_get?, content?, Option.isSome_map]

theorem contains_of_content? {path : String} {m : Module} (hm : g.content? path = some m) :
    g.contains path := by
  rw [contains_iff_content?, hm]
  rfl

theorem exists_content? {path : String} (hp : g.contains path) : ∃ m, g.content? path = some m :=
  Option.isSome_iff_exists.mp ((contains_iff_content? g path).mp hp)

theorem edges_eq (g : Graph) (path : String) :
    g.edges path = ((g.content? path).map (·.edges)).getD [] := by
  unfold edges content?
  cases g.modules.get? path <;> rfl

theorem contains_congr {path : String} (hc : g.content? path = h.content? path) :
    g.contains path = h.contains path := by
  rw [Bool.eq_iff_iff, contains_iff_content?, contains_iff_content?, hc]

theorem edges_congr {path : String} (hc : g.content? path = h.content? path) :
    g.edges path = h.edges path := by
  rw [edges_eq, edges_eq, hc]

theorem targets_congr {path : String} (hc : g.content? path = h.content? path) :
    g.targets path = h.targets path := by
  rw [targets, targets, edges_congr hc]

theorem edgeCount_congr {path : String} (hc : g.content? path = h.content? path)
    (target : String) : g.edgeCount path target = h.edgeCount path target := by
  rw [edgeCount, edgeCount, targets_congr hc]

theorem options_congr (hs : g.settings = h.settings) : g.options = h.options :=
  congrArg Prod.snd hs

theorem entryPoints_congr (hs : g.settings = h.settings) : g.entryPoints = h.entryPoints :=
  congrArg Prod.fst hs

theorem isEntry_congr (hs : g.settings = h.settings) (path : String) :
    g.isEntry path = h.isEntry path := by
  rw [isEntry, isEntry, entryPoints_congr hs]

theorem edges_eq_nil {path : String} (hp : g.contains path = false) : g.edges path = [] := by
  rw [edges_eq]
  rw [← Bool.not_eq_true, contains_iff_content?, Option.not_isSome_iff_eq_none] at hp
  rw [hp]
  rfl

theorem edgeCount_eq_zero {path : String} (hp : g.contains path = false) (target : String) :
    g.edgeCount path target = 0 := by
  rw [edgeCount, targets, edges_eq_nil hp]
  rfl

theorem edgeCount_pos_iff {origin target : String} :
    0 < g.edgeCount origin target ↔ target ∈ g.targets origin :=
  List.count_pos_iff

theorem contains_of_mem_targets {origin target : String} (h : target ∈ g.targets origin) :
    g.contains origin := by
  cases hc : g.contains origin with
  | true => rfl
  | false =>
    rw [targets, edges_eq_nil hc] at h
    cases h

theorem mem_targets_iff {origin target : String} : target ∈ g.targets origin ↔
    ∃ m, g.content? origin = some m ∧ ∃ edge ∈ m.edges, edge.target = target := by
  rw [targets, edges_eq, List.mem_map]
  cases g.content? origin with
  | none => simp
  | some m => simp

theorem count_eq_zero {path : String} (hp : g.contains path = false) (referrer : String) :
    g.count path referrer = 0 := by
  rw [count, contains_eq_false_iff.mp hp]

theorem isUnreferenced_iff (g : Graph) (path : String) :
    g.isUnreferenced path ↔ ∀ referrer, g.count path referrer = 0 := by
  unfold isUnreferenced count
  cases g.modules.get? path with
  | some m => exact m.inverse.isEmpty_iff_count
  | none => simp

-- ---------------------------------------------------------------------------
-- Colors
-- ---------------------------------------------------------------------------

@[simp] theorem content?_setColor (path : String) (c : Color) (q : String) :
    (g.setColor path c).content? q = g.content? q := rfl

@[simp] theorem contains_setColor (path : String) (c : Color) (q : String) :
    (g.setColor path c).contains q = g.contains q := rfl

@[simp] theorem edges_setColor (path : String) (c : Color) (q : String) :
    (g.setColor path c).edges q = g.edges q := rfl

@[simp] theorem targets_setColor (path : String) (c : Color) (q : String) :
    (g.setColor path c).targets q = g.targets q := rfl

@[simp] theorem edgeCount_setColor (path : String) (c : Color) (q t : String) :
    (g.setColor path c).edgeCount q t = g.edgeCount q t := rfl

@[simp] theorem count_setColor (path : String) (c : Color) (q r : String) :
    (g.setColor path c).count q r = g.count q r := rfl

@[simp] theorem isUnreferenced_setColor (path : String) (c : Color) (q : String) :
    (g.setColor path c).isUnreferenced q = g.isUnreferenced q := rfl

@[simp] theorem possibleRoots_setColor (path : String) (c : Color) :
    (g.setColor path c).possibleRoots = g.possibleRoots := rfl

@[simp] theorem isEntry_setColor (path : String) (c : Color) (q : String) :
    (g.setColor path c).isEntry q = g.isEntry q := rfl

@[simp] theorem settings_setColor (path : String) (c : Color) :
    (g.setColor path c).settings = g.settings := rfl

theorem color_setColor (path : String) (c : Color) (q : String) :
    (g.setColor path c).color q = if path = q then c else g.color q := by
  simp only [color, setColor, Std.TreeMap.getD_insert, Std.LawfulEqOrd.compare_eq_iff_eq]

-- ---------------------------------------------------------------------------
-- Changing a module
-- ---------------------------------------------------------------------------

@[simp] theorem color_modify (path : String) (f : Module → Module) (q : String) :
    (g.modify path f).color q = g.color q := rfl

@[simp] theorem possibleRoots_modify (path : String) (f : Module → Module) :
    (g.modify path f).possibleRoots = g.possibleRoots := rfl

@[simp] theorem isEntry_modify (path : String) (f : Module → Module) (q : String) :
    (g.modify path f).isEntry q = g.isEntry q := rfl

@[simp] theorem settings_modify (path : String) (f : Module → Module) :
    (g.modify path f).settings = g.settings := rfl

theorem get?_modify (path : String) (f : Module → Module) (q : String) :
    (g.modify path f).modules.get? q =
      if path = q then (g.modules.get? q).map f else g.modules.get? q :=
  g.modules.get?_modify q path f

@[simp] theorem contains_modify (path : String) (f : Module → Module) (q : String) :
    (g.modify path f).contains q = g.contains q := by
  rw [contains, contains, OrderedMap.contains_eq_isSome_get?, OrderedMap.contains_eq_isSome_get?,
    get?_modify]
  split <;> simp

theorem content?_modify_of_content {f : Module → Module} (hf : ∀ m, (f m).content = m.content)
    (path q : String) : (g.modify path f).content? q = g.content? q := by
  unfold content?
  rw [get?_modify]
  split
  · rw [Option.map_map, show Module.content ∘ f = Module.content from funext hf]
  · rfl

theorem count_modify_of_inverse {f : Module → Module} (hf : ∀ m, (f m).inverse = m.inverse)
    (path q r : String) : (g.modify path f).count q r = g.count q r := by
  unfold count
  rw [get?_modify]
  by_cases hp : path = q
  · cases g.modules.get? q <;> simp [hp, hf]
  · rw [if_neg hp]

@[simp] theorem content?_addReferrer (path referrer q : String) :
    (g.addReferrer path referrer).content? q = g.content? q :=
  content?_modify_of_content (f := fun m => { m with inverse := m.inverse.add referrer })
    (fun _ => rfl) path q

@[simp] theorem content?_deleteReferrer (path referrer q : String) :
    (g.deleteReferrer path referrer).content? q = g.content? q :=
  content?_modify_of_content (f := fun m => { m with inverse := m.inverse.delete referrer })
    (fun _ => rfl) path q

@[simp] theorem targets_addReferrer (path referrer q : String) :
    (g.addReferrer path referrer).targets q = g.targets q :=
  targets_congr (content?_addReferrer path referrer q)

@[simp] theorem targets_deleteReferrer (path referrer q : String) :
    (g.deleteReferrer path referrer).targets q = g.targets q :=
  targets_congr (content?_deleteReferrer path referrer q)

@[simp] theorem contains_addReferrer (path referrer q : String) :
    (g.addReferrer path referrer).contains q = g.contains q :=
  contains_modify path _ q

@[simp] theorem contains_deleteReferrer (path referrer q : String) :
    (g.deleteReferrer path referrer).contains q = g.contains q :=
  contains_modify path _ q

@[simp] theorem color_addReferrer (path referrer q : String) :
    (g.addReferrer path referrer).color q = g.color q := rfl

@[simp] theorem color_deleteReferrer (path referrer q : String) :
    (g.deleteReferrer path referrer).color q = g.color q := rfl

@[simp] theorem possibleRoots_addReferrer (path referrer : String) :
    (g.addReferrer path referrer).possibleRoots = g.possibleRoots := rfl

@[simp] theorem possibleRoots_deleteReferrer (path referrer : String) :
    (g.deleteReferrer path referrer).possibleRoots = g.possibleRoots := rfl

@[simp] theorem isEntry_addReferrer (path referrer q : String) :
    (g.addReferrer path referrer).isEntry q = g.isEntry q := rfl

@[simp] theorem isEntry_deleteReferrer (path referrer q : String) :
    (g.deleteReferrer path referrer).isEntry q = g.isEntry q := rfl

@[simp] theorem settings_addReferrer (path referrer : String) :
    (g.addReferrer path referrer).settings = g.settings := rfl

@[simp] theorem settings_deleteReferrer (path referrer : String) :
    (g.deleteReferrer path referrer).settings = g.settings := rfl

theorem count_addReferrer {path : String} (hp : g.contains path) (referrer q r : String) :
    (g.addReferrer path referrer).count q r =
      g.count q r + if path = q ∧ referrer = r then 1 else 0 := by
  obtain ⟨m, hm⟩ := (g.contains_iff path).mp hp
  unfold addReferrer count
  rw [get?_modify]
  by_cases hq : path = q
  · subst hq
    simp [hm, CountingSet.count_add]
  · simp [hq]

theorem count_deleteReferrer (path referrer q r : String) :
    (g.deleteReferrer path referrer).count q r =
      g.count q r - if path = q ∧ referrer = r then 1 else 0 := by
  unfold deleteReferrer count
  rw [get?_modify]
  by_cases hq : path = q
  · subst hq
    cases g.modules.get? path <;> simp [CountingSet.count_delete]
  · simp [hq]

-- ---------------------------------------------------------------------------
-- Reachability
-- ---------------------------------------------------------------------------

/-- An edge from one module of the graph to another one. -/
def Step (g : Graph) (p q : String) : Prop := q ∈ g.targets p ∧ g.contains q

/-- A path of edges between modules of the graph. -/
abbrev Reaches (g : Graph) : String → String → Prop := Relation.ReflTransGen g.Step

/-- An entry point reaches the module. -/
def Reached (g : Graph) (path : String) : Prop := ∃ r, g.isEntry r ∧ g.Reaches r path

/-- Every module is reached from an entry point. -/
def AllReached (g : Graph) : Prop := ∀ t, g.contains t → g.Reached t

theorem step_congr (hc : ∀ q, g.content? q = h.content? q) {p q : String} (hs : g.Step p q) :
    h.Step p q :=
  ⟨targets_congr (hc p) ▸ hs.1, contains_congr (hc q) ▸ hs.2⟩

theorem reaches_congr (hc : ∀ q, g.content? q = h.content? q) {p q : String}
    (hr : g.Reaches p q) : h.Reaches p q :=
  Relation.ReflTransGen.mono (fun _ _ => step_congr hc) p q hr

theorem Reaches.contains {p q : String} (hp : g.contains p) (hr : g.Reaches p q) :
    g.contains q := by
  cases hr with
  | refl => exact hp
  | tail _ hs => exact hs.2

end Graph

end BundleGraph
