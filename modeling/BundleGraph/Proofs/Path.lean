import BundleGraph.Path
import Mathlib.Data.List.Basic

/-!
# Components of paths

The text of components, joined by slashes, has these components again. So a path
that is below a root is determined by its components, and a name that is joined to
a path comes after the components of the path.
-/

namespace BundleGraph

namespace Text

variable {sep : Char} {piece : List Char}

theorem splitOn_eq_splitOn (sep : Char) (cs : List Char) : splitOn sep cs = cs.splitOn sep := by
  induction cs with
  | nil => rfl
  | cons c cs ih =>
    rw [splitOn, List.splitOn_cons_eq_if_modifyHead, ih]
    by_cases hc : c = sep
    · simp [hc]
    · rw [if_neg hc, if_neg (by simpa using hc)]
      cases hs : cs.splitOn sep with
      | nil => exact absurd hs (List.splitOn_ne_nil sep cs)
      | cons piece pieces => rfl

theorem join_eq_intercalate (sep : Char) (pieces : List (List Char)) :
    join sep pieces = [sep].intercalate pieces := by
  induction pieces with
  | nil => rfl
  | cons piece pieces ih => cases pieces <;> simp_all [join]

theorem splitOn_append_cons (sep : Char) (front rest : List Char) :
    splitOn sep (front ++ sep :: rest) = splitOn sep front ++ splitOn sep rest := by
  simp only [splitOn_eq_splitOn, List.splitOn_append_cons_self]

theorem splitOn_of_not_mem (h : sep ∉ piece) : splitOn sep piece = [piece] := by
  rw [splitOn_eq_splitOn, List.splitOn_eq_singleton h]

theorem splitOn_join {pieces : List (List Char)} (hne : pieces ≠ [])
    (h : ∀ piece ∈ pieces, sep ∉ piece) : splitOn sep (join sep pieces) = pieces := by
  rw [splitOn_eq_splitOn, join_eq_intercalate, List.splitOn_intercalate sep h hne]

theorem not_mem_of_mem_splitOn {cs : List Char} (h : piece ∈ splitOn sep cs) : sep ∉ piece := by
  induction cs generalizing piece with
  | nil =>
    rw [splitOn, List.mem_singleton] at h
    simp [h]
  | cons c cs ih =>
    rw [splitOn] at h
    split at h
    · rcases List.mem_cons.mp h with rfl | h
      · exact List.not_mem_nil
      · exact ih h
    · rename_i hc
      split at h
      · rw [List.mem_singleton.mp h]
        simpa using Ne.symm hc
      · rename_i first pieces hs
        rcases List.mem_cons.mp h with rfl | h
        · have hfirst : sep ∉ first := ih (by simp [hs])
          simpa [hfirst] using Ne.symm hc
        · exact ih (by simp [hs, h])

end Text

namespace Component

/-- A component that stands between slashes is the one its text stands for. -/
structure IsPiece (c : Component) : Prop where
  ofPiece : ofPiece? c.text = some c
  no_slash : '/' ∉ c.text

theorem text_of_ofPiece? {piece : List Char} {c : Component} (h : ofPiece? piece = some c) :
    c.text = piece := by
  unfold ofPiece? at h
  split at h
  · cases h
  · cases h
  · cases h
    rfl
  · cases h
    rfl

theorem isPiece_name {text : List Char} (hempty : text ≠ []) (hdot : text ≠ ['.'])
    (hdots : text ≠ ['.', '.']) (hslash : '/' ∉ text) : (name text).IsPiece where
  ofPiece := by
    unfold ofPiece?
    split
    · exact absurd ‹_› hempty
    · exact absurd ‹_› hdot
    · exact absurd ‹_› hdots
    · rfl
  no_slash := hslash

theorem IsPiece.text_ne_nil {c : Component} (h : c.IsPiece) : c.text ≠ [] := by
  intro htext
  have hpiece := h.ofPiece
  rw [htext] at hpiece
  cases hpiece

theorem IsPiece.text_ne_dot {c : Component} (h : c.IsPiece) : c.text ≠ ['.'] := by
  intro htext
  have hpiece := h.ofPiece
  rw [htext] at hpiece
  cases hpiece

end Component

namespace Path

open Component (IsPiece)

variable {root path : String} {rest : List Component}

-- ---------------------------------------------------------------------------
-- Pieces
-- ---------------------------------------------------------------------------

/-- The component that the first of some pieces makes by its place. -/
def lead : List (List Char) → List Component
  | [] :: _ :: _ => [.root]
  | ['.'] :: _ => [.current]
  | _ => []

/-- The components that pieces stand for wherever they are. -/
def body (pieces : List (List Char)) : List Component := pieces.filterMap Component.ofPiece?

theorem components_eq (path : String) : components path =
    lead (Text.splitOn '/' path.toList) ++ body (Text.splitOn '/' path.toList) := by
  unfold components
  dsimp only [lead, body]
  split <;> simp_all

theorem isPiece_of_mem_body {cs : List Char} {c : Component}
    (h : c ∈ body (Text.splitOn '/' cs)) : c.IsPiece := by
  obtain ⟨piece, hmem, hpiece⟩ := List.mem_filterMap.mp h
  have htext := Component.text_of_ofPiece? hpiece
  refine ⟨by rw [htext, hpiece], ?_⟩
  rw [htext]
  exact Text.not_mem_of_mem_splitOn hmem

theorem body_map_text (h : ∀ c ∈ rest, IsPiece c) : body (rest.map Component.text) = rest := by
  rw [body, List.filterMap_map]
  calc rest.filterMap (Component.ofPiece? ∘ Component.text)
      = rest.filterMap some := List.filterMap_congr fun c hc => (h c hc).ofPiece
    _ = rest := List.filterMap_some

theorem lead_map_text (h : ∀ c ∈ rest, IsPiece c) : lead (rest.map Component.text) = [] := by
  cases rest with
  | nil => rfl
  | cons c rest =>
    have hc := h c (.head _)
    unfold lead
    split
    · rename_i heq
      exact absurd (List.cons.inj heq).1 hc.text_ne_nil
    · rename_i heq
      exact absurd (List.cons.inj heq).1 hc.text_ne_dot
    · rfl

theorem splitOn_join_text (hne : rest ≠ []) (h : ∀ c ∈ rest, IsPiece c) :
    Text.splitOn '/' (Text.join '/' (rest.map Component.text)) = rest.map Component.text := by
  refine Text.splitOn_join (by simpa using hne) fun piece hpiece => ?_
  obtain ⟨c, hc, rfl⟩ := List.mem_map.mp hpiece
  exact (h c hc).no_slash

theorem body_splitOn_join_text (h : ∀ c ∈ rest, IsPiece c) :
    body (Text.splitOn '/' (Text.join '/' (rest.map Component.text))) = rest := by
  cases rest with
  | nil => rfl
  | cons c rest => rw [splitOn_join_text (List.cons_ne_nil _ _) h, body_map_text h]

theorem components_join_text (h : ∀ c ∈ rest, IsPiece c) :
    components (String.ofList (Text.join '/' (rest.map Component.text))) = rest := by
  cases rest with
  | nil => rfl
  | cons c rest =>
    rw [components_eq, String.toList_ofList, body_splitOn_join_text h,
      splitOn_join_text (List.cons_ne_nil _ _) h, lead_map_text h, List.nil_append]

-- ---------------------------------------------------------------------------
-- Absolute paths
-- ---------------------------------------------------------------------------

theorem components_of_toList_eq_cons {cs : List Char} (h : path.toList = '/' :: cs) :
    components path = .root :: body (Text.splitOn '/' cs) := by
  rw [components_eq, h, Text.splitOn, if_pos rfl]
  cases hs : Text.splitOn '/' cs with
  | nil => exact absurd hs (Text.splitOn_ne_nil '/' cs)
  | cons piece pieces => rfl

theorem components_of_isAbsolute (h : isAbsolute path) : ∃ cs, path.toList = '/' :: cs ∧
    components path = .root :: body (Text.splitOn '/' cs) := by
  rw [isAbsolute, decide_eq_true_eq, List.head?_eq_some_iff] at h
  obtain ⟨cs, hcs⟩ := h
  exact ⟨cs, hcs, components_of_toList_eq_cons hcs⟩

theorem isPiece_of_below? (hroot : isAbsolute root) (hpath : isAbsolute path)
    (h : below? root path = some rest) : ∀ c ∈ rest, IsPiece c := by
  obtain ⟨_, _, hr⟩ := components_of_isAbsolute hroot
  obtain ⟨cs, _, hp⟩ := components_of_isAbsolute hpath
  rw [below?, dropFront?_eq_some_iff, hr, hp, List.cons_append] at h
  intro c hc
  refine isPiece_of_mem_body (?_ : c ∈ body (Text.splitOn '/' cs))
  rw [(List.cons.inj h).2]
  exact List.mem_append_right _ hc

/-- A path is below a root when its components continue those of the root. -/
def Below (root path : String) : Prop := components root <+: components path

instance (root path : String) : Decidable (Below root path) :=
  inferInstanceAs (Decidable (_ <+: _))

theorem below_iff : Below root path ↔ ∃ rest, below? root path = some rest := by
  constructor
  · rintro ⟨rest, hrest⟩
    exact ⟨rest, dropFront?_eq_some_iff.mpr hrest.symm⟩
  · rintro ⟨rest, hrest⟩
    exact ⟨rest, (dropFront?_eq_some_iff.mp hrest).symm⟩

/-- A path with slashes for its backslashes. -/
def slashed (path : String) : String :=
  String.ofList (path.toList.map fun c => if c = '\\' then '/' else c)

theorem isAbsolute_slashed (h : isAbsolute path) : isAbsolute (slashed path) := by
  obtain ⟨cs, hcs, _⟩ := components_of_isAbsolute h
  simp [slashed, isAbsolute, hcs]

theorem components_localPath (hroot : isAbsolute root) (hpath : isAbsolute path)
    (h : below? root path = some rest) : components (localPath root path) = rest := by
  rw [localPath, h]
  exact components_join_text (isPiece_of_below? hroot hpath h)

theorem localPath_of_not_below (h : ¬ Below root path) : localPath root path = slashed path := by
  cases hb : below? root path with
  | some rest => exact absurd (below_iff.mpr ⟨rest, hb⟩) h
  | none =>
    rw [localPath, hb]
    rfl

theorem isAbsolute_localPath (hroot : isAbsolute root) (hpath : isAbsolute path) :
    isAbsolute (localPath root path) ↔ ¬ Below root path := by
  constructor
  · intro habsolute hbelow
    obtain ⟨rest, h⟩ := below_iff.mp hbelow
    obtain ⟨_, _, hcomponents⟩ := components_of_isAbsolute habsolute
    rw [components_localPath hroot hpath h] at hcomponents
    have hpiece := isPiece_of_below? hroot hpath h .root (by simp [hcomponents])
    exact hpiece.no_slash (.head _)
  · intro hbelow
    rw [localPath_of_not_below hbelow]
    exact isAbsolute_slashed hpath

theorem localPath_eq_iff_of_below {p q : String} (hroot : isAbsolute root) (hp : isAbsolute p)
    (hq : isAbsolute q) (hbp : Below root p) (hbq : Below root q) :
    localPath root p = localPath root q ↔ components p = components q := by
  obtain ⟨front, hfront⟩ := below_iff.mp hbp
  obtain ⟨rest, hrest⟩ := below_iff.mp hbq
  have hlocal : localPath root p = localPath root q ↔ front = rest := by
    constructor
    · intro h
      rw [← components_localPath hroot hp hfront, h, components_localPath hroot hq hrest]
    · rintro rfl
      rw [localPath, localPath, hfront, hrest]
  rw [below?, dropFront?_eq_some_iff] at hfront hrest
  rw [hlocal, hfront, hrest, List.append_cancel_left_eq]

-- ---------------------------------------------------------------------------
-- Joined names and parents
-- ---------------------------------------------------------------------------

theorem lead_cases (pieces : List (List Char)) :
    lead pieces = [] ∨ lead pieces = [.root] ∨ lead pieces = [.current] := by
  unfold lead
  split <;> simp

theorem lead_cons (piece : List Char) (pieces : List (List Char)) :
    lead (piece :: pieces) = if piece = ['.'] then [.current]
      else if piece = [] ∧ pieces ≠ [] then [.root] else [] := by
  cases pieces <;> unfold lead <;> split <;> simp_all

/-- What comes behind the first piece has no part in what the first one makes. -/
theorem lead_append_congr {pieces : List (List Char)} (hne : pieces ≠ []) (a b : List Char) :
    lead (pieces ++ [a]) = lead (pieces ++ [b]) := by
  cases pieces with
  | nil => exact absurd rfl hne
  | cons piece pieces => simp [lead_cons]

theorem lead_append_singleton {pieces : List (List Char)} (hne : pieces ≠ [])
    (hempty : pieces ≠ [[]]) (a : List Char) : lead (pieces ++ [a]) = lead pieces := by
  cases pieces with
  | nil => exact absurd rfl hne
  | cons piece pieces =>
    have hfirst : piece = [] → pieces ≠ [] := by
      rintro rfl rfl
      exact hempty rfl
    by_cases hpiece : piece = [] <;> simp_all [lead_cons]

theorem body_append_singleton {pieces : List (List Char)} {c : Component} (h : IsPiece c) :
    body (pieces ++ [c.text]) = body pieces ++ [c] := by
  simp [body, h.ofPiece]

theorem splitOn_eq_singleton_nil {cs : List Char} (h : Text.splitOn '/' cs = [[]]) : cs = [] := by
  rw [← Text.join_splitOn '/' cs, h]
  rfl

theorem components_of_toList_eq_append {cs : List Char} {name : String}
    (h : IsPiece (.name name.toList)) (hpath : path.toList = cs ++ '/' :: name.toList) :
    components path = lead (Text.splitOn '/' cs ++ [name.toList]) ++
      (body (Text.splitOn '/' cs) ++ [.name name.toList]) := by
  have hname : Text.splitOn '/' name.toList = [name.toList] := Text.splitOn_of_not_mem h.no_slash
  rw [components_eq, hpath, Text.splitOn_append_cons, hname]
  exact congrArg _ (body_append_singleton h)

theorem components_join (base name : String) (h : IsPiece (.name name.toList)) :
    components (join base name) = components base ++ [.name name.toList] := by
  have hrelative : isAbsolute name = false := by
    rw [isAbsolute, decide_eq_false_iff_not, List.head?_eq_some_iff]
    rintro ⟨cs, hcs⟩
    exact h.no_slash (by simp [Component.text, hcs])
  rw [join, hrelative, if_neg Bool.false_ne_true]
  dsimp only
  split
  · rename_i hend
    rw [Bool.or_eq_true, List.isEmpty_iff, decide_eq_true_eq] at hend
    rcases hend with hnil | hslash
    · obtain rfl : base = "" := String.toList_inj.mp hnil
      have hsingle : ∀ c ∈ [Component.name name.toList], IsPiece c := by simpa using h
      have halone := components_join_text hsingle
      change components (String.ofList name.toList) = _ at halone
      rw [String.ofList_toList] at halone
      rw [String.empty_append, halone]
      rfl
    · obtain ⟨cs, hcs⟩ := List.getLast?_eq_some_iff.mp hslash
      have hbase : components base =
          lead (Text.splitOn '/' cs ++ [[]]) ++ body (Text.splitOn '/' cs) := by
        rw [components_eq, hcs, Text.splitOn_append_cons]
        simp [body, Text.splitOn, Component.ofPiece?]
      have hpath : (base ++ name).toList = cs ++ '/' :: name.toList := by simp [hcs]
      rw [components_of_toList_eq_append h hpath, hbase, List.append_assoc,
        lead_append_congr (Text.splitOn_ne_nil '/' cs) name.toList []]
  · rename_i hend
    rw [Bool.or_eq_true, List.isEmpty_iff, not_or] at hend
    have hne := Text.splitOn_ne_nil '/' base.toList
    have hpath : (base ++ "/" ++ name).toList = base.toList ++ '/' :: name.toList := by simp
    rw [components_of_toList_eq_append h hpath, components_eq base, List.append_assoc,
      lead_append_singleton hne fun hnil => hend.1 (splitOn_eq_singleton_nil hnil)]

theorem components_ofComponents {first : List Component}
    (hfirst : first = [] ∨ first = [.root] ∨ first = [.current])
    (h : ∀ c ∈ rest, IsPiece c) : components (ofComponents (first ++ rest)) = first ++ rest := by
  rcases hfirst with rfl | rfl | rfl
  · rw [List.nil_append, ofComponents]
    · exact components_join_text h
    · rintro others rfl
      exact (h .root (.head _)).no_slash (.head _)
  · rw [List.singleton_append, ofComponents, components_of_toList_eq_cons (by simp; rfl),
      body_splitOn_join_text h]
  · have hsplit : Text.splitOn '/' (Text.join '/' (['.'] :: rest.map Component.text)) =
        ['.'] :: rest.map Component.text :=
      Text.splitOn_join (by simp) (by simpa using fun c hc => (h c hc).no_slash)
    rw [List.singleton_append, ofComponents, List.map_cons, components_eq, String.toList_ofList]
    · change lead (Text.splitOn '/' (Text.join '/' (['.'] :: rest.map Component.text))) ++
        body (Text.splitOn '/' (Text.join '/' (['.'] :: rest.map Component.text))) = _
      rw [hsplit]
      exact congrArg _ (body_map_text h)
    · nofun

theorem components_ofComponents_append (path : String) (h : ∀ c ∈ rest, IsPiece c) :
    components (ofComponents (components path ++ rest)) = components path ++ rest := by
  rw [components_eq path, List.append_assoc]
  refine components_ofComponents (lead_cases _) fun c hc => ?_
  rcases List.mem_append.mp hc with hc | hc
  · exact isPiece_of_mem_body hc
  · exact h c hc

theorem parent?_of_components {front : List Component} {c : Component}
    (h : components path = front ++ [c]) (hc : c ≠ .root) :
    parent? path = some (ofComponents front) := by
  rw [parent?, h, List.reverse_append, List.reverse_singleton, List.singleton_append]
  cases c with
  | root => exact absurd rfl hc
  | _ => simp

end Path

end BundleGraph
