import BundleGraph.Proofs.Cache.Identity
import BundleGraph.Proofs.Cache.Soundness
import BundleGraph.Proofs.Path

/-!
# Keys of different files

Local paths tell paths with different components apart, and so do the texts behind
their stems. The exception are paths outside the root: their backslashes are read
as slashes, so two of them may become one.
-/

namespace BundleGraph

namespace Path

variable {root p q : String}

/-- Two paths outside the root that are one path when backslashes are slashes. -/
structure Merged (root p q : String) : Prop where
  first : ¬ Below root p
  second : ¬ Below root q
  slashed : slashed p = slashed q

theorem localPath_eq_iff (hroot : isAbsolute root) (hp : isAbsolute p) (hq : isAbsolute q) :
    localPath root p = localPath root q ↔
      (Below root p ∧ Below root q ∧ components p = components q) ∨ Merged root p q := by
  have hsides (h : localPath root p = localPath root q) : Below root p ↔ Below root q := by
    rw [← not_iff_not, ← isAbsolute_localPath hroot hp, ← isAbsolute_localPath hroot hq, h]
  constructor
  · intro h
    by_cases hbelow : Below root p
    · have hother := (hsides h).mp hbelow
      exact .inl ⟨hbelow, hother, (localPath_eq_iff_of_below hroot hp hq hbelow hother).mp h⟩
    · have hother := (not_congr (hsides h)).mp hbelow
      rw [localPath_of_not_below hbelow, localPath_of_not_below hother] at h
      exact .inr ⟨hbelow, hother, h⟩
  · rintro (⟨hbp, hbq, h⟩ | h)
    · exact (localPath_eq_iff_of_below hroot hp hq hbp hbq).mpr h
    · rw [localPath_of_not_below h.first, localPath_of_not_below h.second, h.slashed]

end Path

namespace TransformCache

open BundleGraph.Path (isAbsolute components localPath Below Merged)

theorem stem_eq_sha256 {σ : Type} (c : TransformCache σ) (r : Request) :
    c.stem r.path r.options = sha256 (stemText c.root c.baseHash r) := rfl

theorem stemText_ne {root baseHash : String} {r s : Request}
    (h : localPath root r.path ≠ localPath root s.path)
    (hr : Json.FieldsFinite r.options.custom) (hs : Json.FieldsFinite s.options.custom) :
    stemText root baseHash r ≠ stemText root baseHash s := by
  intro htext
  have hsame := (Json.canonicalBytes_eq_iff (isFinite_stemValue baseHash hr _)
    (isFinite_stemValue baseHash hs _)).mp htext
  exact h (same_stemValue_iff.mp hsame).2

/-- Absolute paths with different components have different local paths, and their
stems are digests of different texts, unless they are merged: both are outside the
root and the same with slashes for backslashes. Below the root equal components
have one local path, and merged paths have one too. -/
theorem local_paths_tell_files_apart (root p q : String) (hroot : isAbsolute root)
    (hp : isAbsolute p) (hq : isAbsolute q) :
    (components p ≠ components q → ¬ Merged root p q →
      localPath root p ≠ localPath root q ∧
      ∀ {σ : Type} (c : TransformCache σ) (o o' : Transform.Options), c.root = root →
        Json.FieldsFinite o.custom → Json.FieldsFinite o'.custom →
        c.stem p o = sha256 (stemText root c.baseHash ⟨p, o⟩) ∧
        c.stem q o' = sha256 (stemText root c.baseHash ⟨q, o'⟩) ∧
        stemText root c.baseHash ⟨p, o⟩ ≠ stemText root c.baseHash ⟨q, o'⟩) ∧
    (Below root p → Below root q → components p = components q →
      localPath root p = localPath root q) ∧
    (Merged root p q → localPath root p = localPath root q) := by
  have hiff := Path.localPath_eq_iff hroot hp hq
  refine ⟨fun hcomponents hmerged => ?_, fun hbp hbq h => hiff.mpr (.inl ⟨hbp, hbq, h⟩),
    fun h => hiff.mpr (.inr h)⟩
  have hlocal : localPath root p ≠ localPath root q := by
    intro h
    rcases hiff.mp h with ⟨-, -, hsame⟩ | hboth
    · exact hcomponents hsame
    · exact hmerged hboth
  refine ⟨hlocal, fun c o o' hc ho ho' => ?_⟩
  subst hc
  exact ⟨stem_eq_sha256 c ⟨p, o⟩, stem_eq_sha256 c ⟨q, o'⟩, stemText_ne hlocal ho ho'⟩

/-- A backslash in a name below the root stays, and so do two dots; a single dot and
a second slash do not count. -/
theorem local_paths_tell_files_apart_below_root :
    localPath "/p" "/p/x\\y.js" ≠ localPath "/p" "/p/x/y.js" ∧
    stemText "/p" measured.baseHash ⟨"/p/x\\y.js", {}⟩ ≠
      stemText "/p" measured.baseHash ⟨"/p/x/y.js", {}⟩ ∧
    localPath "/p" "/p/../p/a.js" ≠ localPath "/p" "/p/a.js" ∧
    localPath "/p" "/px/a.js" ≠ localPath "/p" "/p/x/a.js" ∧
    localPath "/p" "/p//./a.js/" = localPath "/p" "/p/a.js" ∧
    localPath "/p" "/q/x\\y.js" = localPath "/p" "/q/x/y.js" := by
  have happart (p q : String) (hp : isAbsolute p) (hq : isAbsolute q)
      (hcomponents : components p ≠ components q) (hmerged : ¬ Merged "/p" p q) :=
    (local_paths_tell_files_apart "/p" p q rfl hp hq).1 hcomponents hmerged
  obtain ⟨hlocal, hstem⟩ := happart "/p/x\\y.js" "/p/x/y.js" rfl rfl (by decide)
    fun h => h.first (by decide)
  refine ⟨hlocal, (hstem { measured with root := "/p" } {} {} rfl trivial trivial).2.2,
    ?_, ?_, ?_, ?_⟩
  · exact (happart _ _ rfl rfl (by decide) fun h => h.first (by decide)).1
  · exact (happart _ _ rfl rfl (by decide) fun h => h.second (by decide)).1
  · exact (local_paths_tell_files_apart "/p" _ _ rfl rfl rfl).2.1 (by decide) (by decide) (by decide)
  · exact (local_paths_tell_files_apart "/p" _ _ rfl rfl rfl).2.2 ⟨by decide, by decide, by decide⟩

/-- Two files outside the root, one with a backslash in its name, have one local path. -/
theorem backslash_outside_root_merges : ¬ ∀ root p q : String,
    isAbsolute root → isAbsolute p → isAbsolute q →
    (components p ≠ components q → localPath root p ≠ localPath root q) ∧
    (Below root p → Below root q → components p = components q →
      localPath root p = localPath root q) := by
  intro h
  have hne := (h "/p" "/x\\y.js" "/x/y.js" rfl rfl rfl).1 (by decide)
  exact hne (by decide)

end TransformCache

end BundleGraph
