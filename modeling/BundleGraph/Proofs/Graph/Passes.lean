import BundleGraph.Proofs.Graph.Collect

/-!
# The passes of a collection, without a bound on their steps

`Walks` follows a trail to its end, however many steps that takes, and
`CollectsCycles` is a collection all of whose walks come to their end.
`collectsCycles` says that the steps a collection allows itself are enough, for
any edit: on cycles too, since no walk enters a module twice.
-/

namespace BundleGraph.Edit

/-- What a visit comes to, told as a relation: whether the walk goes on from the
target, and the edit from then on. -/
abbrev Visit := String → String → Edit → Bool × Edit → Prop

/-- Visits that take no walk of their own. -/
def Visit.of (visit : String → String → Edit → Bool × Edit) : Visit :=
  fun path child e r => r = visit path child e

/-- A walk along a trail, until nothing is left of it. -/
inductive Walks (visit : Visit) (leave : String → Edit → Edit) : Trail → Edit → Edit → Prop
  | done {e} : Walks visit leave [] e e
  | leave {path trail e e'} :
    Walks visit leave trail (leave path e) e' → Walks visit leave ((path, []) :: trail) e e'
  | absent {path child rest trail e e'} : e.graph.contains child = false →
    Walks visit leave ((path, rest) :: trail) e e' →
    Walks visit leave ((path, child :: rest) :: trail) e e'
  | pass {path child rest trail e after e'} : e.graph.contains child →
    visit path child e (false, after) → Walks visit leave ((path, rest) :: trail) after e' →
    Walks visit leave ((path, child :: rest) :: trail) e e'
  | enter {path child rest trail e after e'} : e.graph.contains child →
    visit path child e (true, after) →
    Walks visit leave ((child, after.graph.targets child) :: (path, rest) :: trail) after e' →
    Walks visit leave ((path, child :: rest) :: trail) e e'

def WalksFrom (visit : Visit) (leave : String → Edit → Edit) (path : String) (e e' : Edit) : Prop :=
  Walks visit leave [(path, e.graph.targets path)] e e'

inductive Each (step : String → Edit → Edit → Prop) : List String → Edit → Edit → Prop
  | nil {e} : Each step [] e e
  | cons {path paths e after e'} :
    step path e after → Each step paths after e' → Each step (path :: paths) e e'

-- ---------------------------------------------------------------------------
-- The passes
-- ---------------------------------------------------------------------------

def MarksGray (path : String) (e e' : Edit) : Prop :=
  if e.graph.color path = .gray then e' = e
  else WalksFrom (.of visitGray) (fun _ => id) path (e.setColor path .gray) e'

/-- Only the walk from a purple root takes more than one step. -/
def MarksRoot (path : String) (e e' : Edit) : Prop :=
  if e.graph.contains path ∧ e.graph.color path = .purple then MarksGray path e e'
  else e' = e.markRoot path

def MarksBlack (path : String) (e e' : Edit) : Prop :=
  WalksFrom (.of visitBlack) (fun _ => id) path (e.setColor path .black) e'

/-- A judgement may set off a walk of its own. -/
inductive Judges (path : String) (e : Edit) : Bool × Edit → Prop
  | other : e.graph.color path ≠ .gray → Judges path e (false, e)
  | black {e'} : e.graph.color path = .gray →
    e.graph.isUnreferenced path = false ∨ e.graph.isEntry path → MarksBlack path e e' →
    Judges path e (false, e')
  | white : e.graph.color path = .gray → e.graph.isUnreferenced path →
    e.graph.isEntry path = false → Judges path e (true, e.setColor path .white)

inductive Scans (path : String) (e : Edit) : Edit → Prop
  | judged {e'} : Judges path e (false, e') → Scans path e e'
  | followed {after e'} : Judges path e (true, after) →
    WalksFrom (fun _ child e r => Judges child e r) (fun _ => id) path after e' → Scans path e e'

def CollectsWhite (path : String) (e e' : Edit) : Prop :=
  if e.isCollectable path then
    WalksFrom (.of visitWhite) (fun path e => e.free path) path (e.setColor path .black) e'
  else e' = e

def CollectsRoot (path : String) (e e' : Edit) : Prop :=
  if (e.dropRoot path).graph.contains path then CollectsWhite path (e.dropRoot path) e'
  else e' = e.dropRoot path

/-- All three passes, each over the roots that there are when it begins. -/
def CollectsCycles (e e' : Edit) : Prop :=
  ∃ marked scanned, Each MarksRoot e.graph.possibleRoots.toList e marked ∧
    Each Scans marked.graph.possibleRoots.toList marked scanned ∧
    Each CollectsRoot scanned.graph.possibleRoots.toList scanned e'

-- ---------------------------------------------------------------------------
-- The steps are enough
-- ---------------------------------------------------------------------------

variable {visit : String → String → Edit → Bool × Edit} {leave : String → Edit → Edit}

theorem visits_of (visit : String → String → Edit → Bool × Edit) (path child : String) (e : Edit) :
    Visit.of visit path child e (visit path child e) := rfl

/-- Visits that pay for what they enter come to the end of any walk. -/
theorem walksFrom_followFrom {visits : Visit} {C : Color → Bool} (hpays : Pays C visit)
    (hspares : ∀ path e, (leave path e).graph.left C ≤ e.graph.left C)
    (hvisits : ∀ path child e, visits path child e (visit path child e)) (path : String)
    (e : Edit) : WalksFrom visits leave path e (e.followFrom visit leave path) := by
  -- a walk from any point of the trail completes the walk from its start
  refine followFrom_invariant
    (P := fun trail after => ∀ e', Walks visits leave trail after e' → WalksFrom visits leave path e e')
    hpays hspares ?_ ?_ ?_ ?_ (fun _ h => h) _ .done
  · exact fun h e' hw => h e' (.leave hw)
  · exact fun hc h e' hw => h e' (.absent hc hw)
  · intro path child rest trail e hc hv h e' hw
    exact h e' (.pass hc (by rw [← hv]; exact hvisits path child e) hw)
  · intro path child rest trail e hc hv h e' hw
    exact h e' (.enter hc (by rw [← hv]; exact hvisits path child e) hw)

theorem each_foldl {step : String → Edit → Edit → Prop} {f : Edit → String → Edit}
    (hstep : ∀ path e, step path e (f e path)) (paths : List String) (e : Edit) :
    Each step paths e (paths.foldl f e) := by
  induction paths generalizing e with
  | nil => exact .nil
  | cons path paths ih => exact .cons (hstep path e) (ih (f e path))

theorem marksGray (path : String) (e : Edit) : MarksGray path e (e.markGray path) := by
  unfold MarksGray markGray
  split
  · rfl
  · exact walksFrom_followFrom pays_visitGray (fun _ _ => Nat.le_refl _) (visits_of visitGray) path _

theorem marksRoot (path : String) (e : Edit) : MarksRoot path e (e.markRoot path) := by
  unfold MarksRoot
  split
  · rename_i hpurple
    rw [markRoot, if_pos hpurple.1, hpurple.2]
    exact marksGray path e
  · rfl

theorem marksBlack (path : String) (e : Edit) : MarksBlack path e (e.markBlack path) :=
  walksFrom_followFrom pays_visitBlack (fun _ _ => Nat.le_refl _) (visits_of visitBlack) path _

theorem judges (path : String) (e : Edit) : Judges path e (e.judge path) := by
  rcases e.judge_cases path with ⟨hg, hj⟩ | ⟨hg, hheld, hj⟩ | ⟨hg, hu, hentry, hj⟩ <;> rw [hj]
  · exact .other hg
  · exact .black hg hheld (marksBlack path e)
  · exact .white hg hu hentry

theorem scans (path : String) (e : Edit) : Scans path e (e.scan path) := by
  have hjudges := judges path e
  unfold scan
  split <;> rename_i hj <;> rw [hj] at hjudges
  · exact .followed hjudges (walksFrom_followFrom pays_judge (fun _ _ => Nat.le_refl _)
      (fun _ child e => judges child e) path _)
  · exact .judged hjudges

theorem collectsWhite (path : String) (e : Edit) : CollectsWhite path e (e.collectWhite path) := by
  unfold CollectsWhite collectWhite
  split
  · exact walksFrom_followFrom pays_visitWhite (left_free_le isWhite) (visits_of visitWhite) path _
  · rfl

theorem collectsRoot (path : String) (e : Edit) : CollectsRoot path e (e.collectRoot path) := by
  rw [collectRoot_eq]
  unfold CollectsRoot
  split
  · exact collectsWhite path _
  · rfl

theorem collectsCycles (e : Edit) : CollectsCycles e e.collectCycles :=
  ⟨_, _, each_foldl marksRoot _ _, each_foldl scans _ _, each_foldl collectsRoot _ _⟩

end BundleGraph.Edit
