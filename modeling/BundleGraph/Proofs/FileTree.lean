import BundleGraph.FileTree

/-!
# Reading what was put in place

A path leads to the same place before and after a file is put there: what was
a directory stays one, and what was there stays there. So a file that was put
in its place is what a read of the same path finds.
-/

namespace BundleGraph

namespace FileNode

def isDirectory : FileNode → Bool
  | file _ => false
  | directory _ => true

theorem lookup_setEntry (name : String) (node : FileNode) (entries : Entries) (other : String) :
    (setEntry name node entries).lookup other =
      if other = name then some node else entries.lookup other := by
  induction entries with
  | nil =>
    by_cases h : other = name <;> simp [setEntry, List.lookup_cons, beq_eq_false_iff_ne.mpr, h]
  | cons entry entries ih =>
    obtain ⟨n, old⟩ := entry
    rw [setEntry]
    by_cases hn : n = name
    · subst hn
      by_cases h : other = n <;> simp [List.lookup_cons, beq_eq_false_iff_ne.mpr, h]
    · rw [if_neg hn]
      by_cases h : other = n
      · simp [h, hn]
      · simp [List.lookup_cons, beq_eq_false_iff_ne.mpr h, ih]

theorem find?_insert_present {root : FileNode} {names : List String} (new : FileNode)
    (h : (root.find? names).isSome) : (root.insert names new).find? names = some new := by
  induction names generalizing root with
  | nil => simp [insert, find?]
  | cons name names ih =>
    cases root with
    | file content => simp [find?] at h
    | directory entries =>
      simp only [find?] at h
      cases hl : entries.lookup name with
      | none => simp [hl] at h
      | some child =>
        simp only [hl] at h
        simpa [insert, find?, hl, lookup_setEntry] using ih h

theorem find?_insert_absent {root : FileNode} {parent : List String} {entries : Entries}
    (name : String) (new : FileNode) (h : root.find? parent = some (.directory entries)) :
    (root.insert (parent ++ [name]) new).find? (parent ++ [name]) = some new := by
  induction parent generalizing root with
  | nil =>
    simp only [find?, Option.some.injEq] at h
    subst h
    cases hl : entries.lookup name <;> simp [insert, find?, hl, lookup_setEntry]
  | cons first parent ih =>
    cases root with
    | file content => simp [find?] at h
    | directory outer =>
      simp only [find?] at h
      cases hl : outer.lookup first with
      | none => simp [hl] at h
      | some child =>
        simp only [hl] at h
        simpa [insert, find?, hl, lookup_setEntry] using ih h

theorem find?_insert_kept {root node : FileNode} {names : List String} (content : Bytes)
    (hfile : ∀ entries, root.find? names ≠ some (.directory entries)) {path : List String}
    (h : root.find? path = some node) : ∃ kept, (root.insert names (.file content)).find? path =
      some kept ∧ (node.isDirectory → kept.isDirectory) := by
  induction names generalizing root path with
  | nil =>
    cases root with
    | directory entries => exact absurd rfl (hfile entries)
    | file old =>
      cases path with
      | nil =>
        simp only [find?, Option.some.injEq] at h
        subst h
        exact ⟨.file content, rfl, id⟩
      | cons => simp [find?] at h
  | cons name names ih =>
    cases root with
    | file old => exact ⟨node, h, id⟩
    | directory entries =>
      cases path with
      | nil =>
        refine ⟨_, rfl, fun _ => ?_⟩
        cases hl : entries.lookup name <;> cases names <;> simp [insert, hl, isDirectory]
      | cons first path =>
        simp only [find?] at h hfile
        cases hl : entries.lookup name with
        | none =>
          by_cases hn : names = []
          · have hne : first ≠ name := by
              rintro rfl
              simp [hl] at h
            exact ⟨node, by simpa [insert, hl, hn, find?, lookup_setEntry, hne] using h, id⟩
          · exact ⟨node, by simpa [insert, hl, hn, find?] using h, id⟩
        | some child =>
          simp only [hl] at hfile
          by_cases hne : first = name
          · subst hne
            simp only [hl] at h
            simpa [insert, hl, find?, lookup_setEntry] using ih hfile h
          · exact ⟨node, by simpa [insert, hl, find?, lookup_setEntry, hne] using h, id⟩

end FileNode

namespace FileTree

/-- Where a file can be put: in place of another one, or at a free name that no
slash follows. -/
def Spot.Fits (pieces : List String) : Spot → Prop
  | .present _ (.file _) => True
  | .present _ (.directory _) => False
  | .absent _ => pieces.getLast? ≠ some ""

def Spot.names : Spot → List String
  | .present names _ => names
  | .absent names => names

/-- A piece that names something in a directory. -/
structure IsName (piece : String) : Prop where
  notBlank : ¬ (piece = "" ∨ piece = ".")
  notParent : piece ≠ ".."
  short : ¬ longestName < byteLength piece

/-- The steps that lead from a place to a spot, one for each piece. -/
inductive Leads (root : FileNode) : List String → List String → Spot → Prop
  | here {start : List String} {node : FileNode} :
    root.find? start = some node → Leads root start [] (.present start node)
  | stay {start pieces : List String} {piece : String} {spot : Spot}
    {entries : FileNode.Entries} : root.find? start = some (.directory entries) →
      (piece = "" ∨ piece = ".") → Leads root start pieces spot →
      Leads root start (piece :: pieces) spot
  | up {start pieces : List String} {spot : Spot} {entries : FileNode.Entries} :
    root.find? start = some (.directory entries) → Leads root start.dropLast pieces spot →
      Leads root start (".." :: pieces) spot
  | down {start pieces : List String} {piece : String} {spot : Spot}
    {entries : FileNode.Entries} : root.find? start = some (.directory entries) →
      IsName piece → (root.find? (start ++ [piece])).isSome →
      Leads root (start ++ [piece]) pieces spot → Leads root start (piece :: pieces) spot
  | free {start pieces : List String} {piece : String} {entries : FileNode.Entries} :
    root.find? start = some (.directory entries) → IsName piece →
      root.find? (start ++ [piece]) = none → pieces.all (· = "") →
      Leads root start (piece :: pieces) (.absent (start ++ [piece]))

theorem leads_of_follow {root : FileNode} {start pieces : List String} {spot : Spot}
    (h : follow root start pieces = .ok spot) : Leads root start pieces spot := by
  induction pieces generalizing start with
  | nil =>
    rw [follow] at h
    split at h <;> cases h
    exact .here ‹_›
  | cons piece pieces ih =>
    rw [follow] at h
    split at h
    case h_1 => cases h
    case h_2 => cases h
    case h_3 entries hd =>
      split at h
      case isTrue hblank => exact .stay hd hblank (ih h)
      case isFalse hblank =>
        split at h
        case isTrue hparent =>
          subst hparent
          exact .up hd (ih h)
        case isFalse hparent =>
          split at h
          case isTrue => cases h
          case isFalse hshort =>
            split at h
            case isTrue hsome => exact .down hd ⟨hblank, hparent, hshort⟩ hsome (ih h)
            case isFalse hnone =>
              split at h <;> cases h
              exact .free hd ⟨hblank, hparent, hshort⟩ (by simpa using hnone) ‹_›

theorem Leads.follow {root : FileNode} {start pieces : List String} {spot : Spot}
    (h : Leads root start pieces spot) : FileTree.follow root start pieces = .ok spot := by
  induction h with
  | here hn => simp [FileTree.follow, hn]
  | stay hd hblank _ ih => simp only [FileTree.follow, hd, if_pos hblank, ih]
  | up hd _ ih => simpa [FileTree.follow, hd] using ih
  | down hd hname hsome _ ih =>
    simp only [FileTree.follow, hd, if_neg hname.notBlank, if_neg hname.notParent,
      if_neg hname.short, if_pos hsome, ih]
  | free hd hname hnone hall =>
    simp [FileTree.follow, hd, hname.notBlank, hname.notParent, hname.short, hnone]
    simpa using hall

theorem Leads.spot {root : FileNode} {start pieces : List String} {spot : Spot}
    (h : Leads root start pieces spot) :
    (∃ node, spot = .present spot.names node ∧ root.find? spot.names = some node) ∨
    (∃ parent name entries, spot = .absent (parent ++ [name]) ∧
      root.find? parent = some (.directory entries) ∧ root.find? (parent ++ [name]) = none) := by
  induction h with
  | here hn => exact .inl ⟨_, rfl, hn⟩
  | stay _ _ _ ih | up _ _ ih | down _ _ _ _ ih => exact ih
  | free hd _ hnone _ => exact .inr ⟨_, _, _, rfl, hd, hnone⟩

/-- Without the first piece a spot still fits: a free name is not the place itself. -/
theorem Leads.fits {root : FileNode} {start pieces : List String} {piece : String} {spot : Spot}
    (h : Leads root start pieces spot) (hfits : spot.Fits (piece :: pieces)) :
    spot.Fits pieces := by
  cases spot with
  | present names node => cases node <;> exact hfits
  | absent names =>
    cases pieces with
    | nil => cases h
    | cons => simpa [Spot.Fits] using hfits

theorem eq_nil_of_blank {piece : String} {pieces : List String} (hall : pieces.all (· = ""))
    (hlast : (piece :: pieces).getLast? ≠ some "") : pieces = [] := by
  rcases List.eq_nil_or_concat pieces with hnil | ⟨init, last, rfl⟩
  · exact hnil
  · have hblank : last = "" := by simpa using List.all_eq_true.mp hall last (by simp)
    rw [List.concat_eq_append, ← List.cons_append, List.getLast?_concat] at hlast
    exact absurd (congrArg some hblank) hlast

theorem find?_insert_directory {root : FileNode} {names start : List String} (content : Bytes)
    (hfile : ∀ entries, root.find? names ≠ some (.directory entries)) {entries : FileNode.Entries}
    (h : root.find? start = some (.directory entries)) :
    ∃ kept, (root.insert names (.file content)).find? start = some (.directory kept) := by
  obtain ⟨kept, hkept, hdirectory⟩ := FileNode.find?_insert_kept content hfile h
  cases kept with
  | file => exact absurd (hdirectory rfl) (by simp [FileNode.isDirectory])
  | directory kept => exact ⟨kept, hkept⟩

theorem Leads.insert {root : FileNode} {start pieces : List String} {spot : Spot}
    (content : Bytes) (hfound : (root.insert spot.names (.file content)).find? spot.names =
      some (.file content))
    (hfile : ∀ entries, root.find? spot.names ≠ some (.directory entries))
    (h : Leads root start pieces spot) (hfits : spot.Fits pieces) :
    Leads (root.insert spot.names (.file content)) start pieces
      (.present spot.names (.file content)) := by
  induction h with
  | here => exact .here hfound
  | stay hd hblank hrest ih =>
    obtain ⟨_, hkept⟩ := find?_insert_directory content hfile hd
    exact .stay hkept hblank (ih hfound hfile (hrest.fits hfits))
  | up hd hrest ih =>
    obtain ⟨_, hkept⟩ := find?_insert_directory content hfile hd
    exact .up hkept (ih hfound hfile (hrest.fits hfits))
  | down hd hname hsome hrest ih =>
    obtain ⟨_, hkept⟩ := find?_insert_directory content hfile hd
    obtain ⟨node, hn⟩ := Option.isSome_iff_exists.mp hsome
    obtain ⟨_, hnode, -⟩ := FileNode.find?_insert_kept content hfile hn
    exact .down hkept hname (by simp [hnode]) (ih hfound hfile (hrest.fits hfits))
  | free hd hname _ hall =>
    -- No slash follows a free name, and now it names the file.
    obtain ⟨_, hkept⟩ := find?_insert_directory content hfile hd
    obtain rfl := eq_nil_of_blank hall hfits
    exact .down hkept hname (Option.isSome_iff_exists.mpr ⟨_, hfound⟩) (.here hfound)

theorem follow_insert {root : FileNode} {start pieces : List String} {spot : Spot}
    (content : Bytes) (h : follow root start pieces = .ok spot) (hfits : spot.Fits pieces) :
    follow (root.insert spot.names (.file content)) start pieces =
      .ok (.present spot.names (.file content)) := by
  have hleads := leads_of_follow h
  refine (hleads.insert content ?_ (fun entries => ?_) hfits).follow
  · obtain ⟨node, -, hn⟩ | ⟨parent, name, entries, rfl, hp, -⟩ := hleads.spot
    · exact FileNode.find?_insert_present _ (by simp [hn])
    · exact FileNode.find?_insert_absent name _ hp
  · obtain ⟨node, hs, hn⟩ | ⟨parent, name, _, rfl, -, hp⟩ := hleads.spot
    · rw [hn]
      rintro ⟨rfl⟩
      rw [hs] at hfits
      exact hfits
    · simp [Spot.names, hp]

theorem spot_insert {t : FileTree} {path : String} {spot : Spot} (content : Bytes)
    (h : t.spot path = .ok spot) (hfits : spot.Fits (pieces path)) :
    ({ t with root := t.root.insert spot.names (.file content) } : FileTree).spot path =
      .ok (.present spot.names (.file content)) := by
  simp only [FileTree.spot] at h ⊢
  split at h
  · cases h
  rename_i hempty
  rw [if_neg hempty]
  split at h
  · cases h
  rename_i hnul
  rw [if_neg hnul]
  split at h
  · cases h
  rename_i hlong
  rw [if_neg hlong]
  exact follow_insert content h hfits

theorem getLast?_splitOn (sep : Char) {cs : List Char} (hne : cs ≠ [])
    (h : cs.getLast? ≠ some sep) : (Text.splitOn sep cs).getLast? ≠ some [] := by
  induction cs with
  | nil => exact absurd rfl hne
  | cons c cs ih =>
    have hrest (hcs : cs ≠ []) : (Text.splitOn sep cs).getLast? ≠ some [] :=
      ih hcs (by rwa [List.getLast?_cons_of_ne_nil hcs] at h)
    rw [Text.splitOn]
    split
    case isTrue hc =>
      have hcs : cs ≠ [] := by
        rintro rfl
        simp [hc] at h
      rw [List.getLast?_cons_of_ne_nil (Text.splitOn_ne_nil sep cs)]
      exact hrest hcs
    case isFalse hc =>
      cases hs : Text.splitOn sep cs with
      | nil => exact absurd hs (Text.splitOn_ne_nil sep cs)
      | cons piece pieces =>
        cases pieces with
        | nil => simp
        | cons next pieces =>
          have hcs : cs ≠ [] := by
            rintro rfl
            simp [Text.splitOn] at hs
          simpa [hs] using hrest hcs

theorem getLast?_pieces {path : String} (hne : path.isEmpty = false)
    (hs : endsInSlash path = false) : (pieces path).getLast? ≠ some "" := by
  have hlast := getLast?_splitOn '/' (show path.toList ≠ [] by simpa using hne)
    (by simpa [endsInSlash] using hs)
  rw [pieces, List.getLast?_map]
  intro h
  obtain ⟨piece, hp, he⟩ := Option.map_eq_some_iff.mp h
  have : piece = [] := by simpa using congrArg String.toList he
  exact hlast (this ▸ hp)

/-- Without slashes at its end a path is followed as it stands. -/
theorem place_eq {path : String} (hs : endsInSlash path = false) (t : FileTree) (content : Bytes)
    (slashed : FileError) : t.place path content slashed =
      match t.spot path with
      | .error e => .error e
      | .ok (.present _ (.directory _)) => .error .isDirectory
      | .ok spot => .ok { t with root := t.root.insert spot.names (.file content) } := by
  have hpath : String.ofList (path.toList.reverse.dropWhile (· = '/')).reverse = path := by
    have hhead : path.toList.reverse.head? ≠ some '/' := by
      rw [List.head?_reverse]
      simpa [endsInSlash] using hs
    cases hr : path.toList.reverse with
    | nil => simpa using congrArg String.ofList (List.reverse_eq_nil_iff.mp hr).symm
    | cons c cs =>
      have hc : c ≠ '/' := by simpa [hr] using hhead
      rw [List.dropWhile_cons_of_neg (by simpa using hc), ← hr, List.reverse_reverse,
        String.ofList_toList]
  have hname : (if path.isEmpty && Path.isAbsolute path then "/" else path) = path := by
    cases he : path.isEmpty
    · rfl
    · simp [Path.isAbsolute, String.isEmpty_iff.mp he]
  simp only [place, hpath, hname, hs]
  cases t.spot path with
  | error e => rfl
  | ok spot =>
    cases spot with
    | absent => rfl
    | present names node => cases node <;> rfl

theorem read_place {t t' : FileTree} {path : String} {content : Bytes} {slashed : FileError}
    (h : t.place path content slashed = .ok t') : t'.read path = .ok content := by
  cases hs : endsInSlash path with
  | true =>
    simp only [place, hs, if_true] at h
    split at h <;> cases h
  | false =>
    rw [place_eq hs] at h
    cases hspot : t.spot path with
    | error e => simp [hspot] at h
    | ok spot =>
      have hne : path.isEmpty = false := by
        cases he : path.isEmpty
        · rfl
        · simp [FileTree.spot, he] at hspot
      have hfits : spot.Fits (pieces path) ∧
          t' = { t with root := t.root.insert spot.names (.file content) } := by
        cases spot with
        | absent names =>
          simp only [hspot, Except.ok.injEq] at h
          exact ⟨getLast?_pieces hne hs, h.symm⟩
        | present names node =>
          cases node with
          | directory entries => simp [hspot] at h
          | file old =>
            simp only [hspot, Except.ok.injEq] at h
            exact ⟨trivial, h.symm⟩
      rw [hfits.2, read, spot_insert content hspot hfits.1]

theorem read_replace {t t' : FileTree} {path : String} {content : Bytes}
    (h : t.replace path content = .ok t') : t'.read path = .ok content := by
  rw [replace] at h
  split at h
  · split at h <;> cases h
  · split at h <;> cases h
  · exact read_place h

end FileTree

end BundleGraph
