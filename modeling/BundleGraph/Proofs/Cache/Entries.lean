import BundleGraph.Cache.Depot
import BundleGraph.Proofs.FileTree
import BundleGraph.Proofs.Json.Codec
import BundleGraph.Proofs.Utf8

/-!
# Entries of a store of files

An entry is a result as JSON text, compressed by some codec if the store
wants it, and a read of the same key finds it. The text is read back as the
result that was written as long as the reader's limit is not passed: the data of
an artifact stands three levels deep, so it has 124 levels of the reader's 127.
Of deeper data there is an entry but no way back from it.
-/

namespace BundleGraph

open Json (encode decode? IsIntegral isIntegral_list isIntegral_uint32)
open Json.Tree (limited record?_limited)
open Json.Record (required?_named default?_named)

-- ---------------------------------------------------------------------------
-- Dependencies
-- ---------------------------------------------------------------------------

theorem SourceLocation.decode?_encode (l : SourceLocation) (room : Nat) :
    decode? (limited (room + 1) (encode l)) = some l := by
  have hrecord := record?_limited
    [("line", encode l.line), ("column", encode l.column)] room rfl (by simp)
  refine Option.bind_eq_some_iff.mpr ⟨_, hrecord, Option.bind_eq_some_iff.mpr ⟨l.line, ?_,
    Option.bind_eq_some_iff.mpr ⟨l.column, ?_, rfl⟩⟩⟩
  · exact (required?_named _ _ (by simp)).trans (Json.decode?_uint32 ..)
  · exact (required?_named _ _ (by simp [List.lookup_cons])).trans (Json.decode?_uint32 ..)

theorem DependencyKind.decode?_encode (kind : DependencyKind) (room : Nat) :
    decode? (limited room (encode kind)) = some kind := by
  cases kind <;> rfl

theorem Dependency.decode?_encode (d : Dependency) (room : Nat) :
    decode? (limited (room + 3) (encode d)) = some d := by
  have hrecord := record?_limited
    [("name", encode d.name), ("key", encode d.key), ("async_kind", encode d.kind),
      ("optional", encode d.optional), ("locations", encode d.locations)] (room + 2) rfl (by simp)
  have hlocations : decode? (limited (room + 2) (encode d.locations)) = some d.locations :=
    Json.decode?_list_some fun l _ => l.decode?_encode room
  refine Option.bind_eq_some_iff.mpr ⟨_, hrecord, Option.bind_eq_some_iff.mpr ⟨d.name, ?_,
    Option.bind_eq_some_iff.mpr ⟨d.key, ?_, Option.bind_eq_some_iff.mpr ⟨d.kind, ?_,
    Option.bind_eq_some_iff.mpr ⟨d.optional, ?_, Option.bind_eq_some_iff.mpr ⟨d.locations, ?_,
    rfl⟩⟩⟩⟩⟩⟩
  · exact (required?_named _ _ (by simp)).trans (Json.decode?_string ..)
  · exact (required?_named _ _ (by simp [List.lookup_cons])).trans (Json.decode?_string ..)
  · exact (default?_named _ _ (by simp [List.lookup_cons]) _).trans (d.kind.decode?_encode _)
  · exact (default?_named _ _ (by simp [List.lookup_cons]) _).trans (Json.decode?_bool ..)
  · exact (default?_named _ _ (by simp [List.lookup_cons]) _).trans hlocations

theorem Dependency.isIntegral_encode (d : Dependency) : IsIntegral (encode d) := by
  have hlocations : IsIntegral (encode d.locations) := isIntegral_list fun l _ =>
    ⟨isIntegral_uint32 l.line, isIntegral_uint32 l.column, trivial⟩
  exact ⟨trivial, trivial, trivial, trivial, hlocations, trivial⟩

-- ---------------------------------------------------------------------------
-- Results
-- ---------------------------------------------------------------------------

theorem Artifact.decode?_encode (a : Artifact) (room : Nat) :
    (decode? (limited (room + 1) (encode a)) : Option Artifact) =
      if a.data.levels ≤ room then some ⟨a.type, a.data.canonical⟩ else none := by
  have hrecord := record?_limited
    [("type", encode a.type), ("data", encode a.data)] room rfl (by simp)
  have hdata : Json.Record.required? _ "data" =
      if a.data.levels ≤ room then some a.data.canonical else none :=
    (required?_named [("type", encode a.type), ("data", encode a.data)] room
      (v := encode a.data) (by simp [List.lookup_cons])).trans (Json.decode?_json a.data room)
  split
  case isTrue h =>
    refine Option.bind_eq_some_iff.mpr ⟨_, hrecord, Option.bind_eq_some_iff.mpr ⟨a.type, ?_,
      Option.bind_eq_some_iff.mpr ⟨a.data.canonical, ?_, rfl⟩⟩⟩
    · exact (required?_named _ _ (by simp)).trans (Json.decode?_string ..)
    · exact hdata.trans (if_pos h)
  case isFalse h =>
    refine Option.eq_none_iff_forall_ne_some.mpr fun b hb => ?_
    obtain ⟨r, hr, hb⟩ := Option.bind_eq_some_iff.mp hb
    obtain rfl := Option.some.inj (hr.symm.trans hrecord)
    obtain ⟨type, _, hb⟩ := Option.bind_eq_some_iff.mp hb
    obtain ⟨data, hd, -⟩ := Option.bind_eq_some_iff.mp hb
    rw [hdata, if_neg h] at hd
    cases hd

namespace Transform.Result

/-- A result as a store of files can hold it: numbers are integers of 64 bits,
and the fields of objects are in order, each key once. -/
def Storable (r : Result) : Prop :=
  ∀ a ∈ r.output, IsIntegral a.data ∧ a.data.canonical = a.data

theorem Storable.isIntegral {r : Result} (h : r.Storable) : IsIntegral (encode r) := by
  have hdependencies : IsIntegral (encode r.dependencies) :=
    isIntegral_list fun d _ => d.isIntegral_encode
  have houtput : IsIntegral (encode r.output) :=
    isIntegral_list fun a ha => ⟨trivial, (h a ha).1, trivial⟩
  exact ⟨hdependencies, houtput, trivial⟩

/-- No data of a result is nested deeper than a number of levels. -/
def Within (r : Result) (room : Nat) : Prop := ∀ a ∈ r.output, a.data.levels ≤ room

instance (r : Result) (room : Nat) : Decidable (r.Within room) :=
  inferInstanceAs (Decidable (∀ a ∈ r.output, a.data.levels ≤ room))

theorem Storable.decode?_encode {r : Result} (h : r.Storable) (room : Nat)
    (hr : r.Within (room + 2)) : decode? (limited (room + 5) (encode r)) = some r := by
  have hrecord := record?_limited
    [("dependencies", encode r.dependencies), ("output", encode r.output)] (room + 4) rfl
    (by simp)
  have hdependencies : decode? (limited (room + 4) (encode r.dependencies)) =
      some r.dependencies := Json.decode?_list_some fun d _ => d.decode?_encode room
  have houtput : decode? (limited (room + 4) (encode r.output)) = some r.output :=
    Json.decode?_list_some fun a ha => by
      rw [a.decode?_encode, if_pos (hr a ha), (h a ha).2]
  refine Option.bind_eq_some_iff.mpr ⟨_, hrecord, Option.bind_eq_some_iff.mpr
    ⟨r.dependencies, ?_, Option.bind_eq_some_iff.mpr ⟨r.output, ?_, rfl⟩⟩⟩
  · exact (required?_named _ _ (by simp)).trans hdependencies
  · exact (required?_named _ _ (by simp [List.lookup_cons])).trans houtput

theorem decode?_encode_deep {r : Result} (room : Nat) (hr : ¬ r.Within (room + 2)) :
    (decode? (limited (room + 5) (encode r)) : Option Result) = none := by
  have hrecord := record?_limited
    [("dependencies", encode r.dependencies), ("output", encode r.output)] (room + 4) rfl
    (by simp)
  obtain ⟨a, ha, hdeep⟩ : ∃ a ∈ r.output, ¬ a.data.levels ≤ room + 2 := by
    simpa [Within] using hr
  have houtput : (Json.Record.required? _ "output" : Option (List Artifact)) = none :=
    (required?_named [("dependencies", encode r.dependencies), ("output", encode r.output)] _
      (by simp [List.lookup_cons])).trans
      (Json.decode?_list_none ha ((a.decode?_encode (room + 2)).trans (if_neg hdeep)))
  refine Option.eq_none_iff_forall_ne_some.mpr fun b hb => ?_
  obtain ⟨record, hrec, hb⟩ := Option.bind_eq_some_iff.mp hb
  obtain rfl := Option.some.inj (hrec.symm.trans hrecord)
  obtain ⟨dependencies, _, hb⟩ := Option.bind_eq_some_iff.mp hb
  obtain ⟨output, ho, -⟩ := Option.bind_eq_some_iff.mp hb
  rw [houtput] at ho
  cases ho

end Transform.Result

-- ---------------------------------------------------------------------------
-- Entries
-- ---------------------------------------------------------------------------

namespace Shelf

open Transform (Result)

/-- How deep the data of a result may be nested for an entry to be read back. -/
def dataLimit : Nat := Json.Tree.levelLimit - 3

theorem decodeText_text {r : Result} (h : r.Storable) :
    decodeText (Utf8.ofString (encode r).text) =
      if r.Within dataLimit then .ok r else .error .malformedEntry := by
  have htext : (Utf8.decode? (Utf8.ofString (encode r).text)).bind Json.decodeText? =
      (decode? (limited Json.Tree.levelLimit (encode r)) : Option Result) := by
    rw [Utf8.decode?_ofString, Option.bind_some, Json.text, String.toList_ofList, Json.decodeText?,
      Json.Tree.ofText?_write h.isIntegral, Option.bind_some]
  rw [decodeText, htext]
  by_cases hr : r.Within dataLimit
  · have hd : decode? (limited Json.Tree.levelLimit (encode r)) = some r :=
      h.decode?_encode 122 hr
    rw [hd, if_pos hr]
  · have hd : (decode? (limited Json.Tree.levelLimit (encode r)) : Option Result) = none :=
      Transform.Result.decode?_encode_deep 122 hr
    rw [hd, if_neg hr]

theorem decodeEntry_encodeEntry (gzip : Bool) (codec : Gzip.Codec) (r : Result) :
    decodeEntry gzip codec (encodeEntry gzip codec r) =
      decodeText (Utf8.ofString (encode r).text) := by
  cases gzip with
  | false => rfl
  | true => simp [decodeEntry, encodeEntry, codec.decompress_compress]

theorem read_writeEntry {path : String} {content : Bytes} {tree tree' : FileTree}
    (h : writeEntry path content tree = (.ok (), tree')) : tree'.read path = .ok content := by
  rw [writeEntry] at h
  cases hp : Path.parent? path with
  | none => simp [hp] at h
  | some parent =>
    rcases hc : tree.createDirectories parent with ⟨e | ⟨⟨⟩⟩, made⟩
    · simp [hp, hc] at h
    · cases hr : made.replace path content with
      | error e => simp [hp, hc, hr] at h
      | ok placed =>
        simp only [hp, hc, hr, Prod.mk.injEq, true_and] at h
        subst h
        exact FileTree.read_replace hr

theorem set_files (root : String) (gzip : Bool) (codec : Gzip.Codec) (tree : FileTree)
    (key : CacheKey) (r : Result) :
    (files root gzip).set codec tree key r =
      ((writeEntry (key.path root) (encodeEntry gzip codec r) tree).1,
        (writeEntry (key.path root) (encodeEntry gzip codec r) tree).2, files root gzip) := by
  rw [set]

theorem get_set_files {root : String} {gzip : Bool} {codec : Gzip.Codec} {tree tree' : FileTree}
    {key : CacheKey} {r : Result} {shelf : Shelf}
    (h : (files root gzip).set codec tree key r = (.ok (), tree', shelf)) :
    shelf.get codec tree' key =
      ((decodeEntry gzip codec (encodeEntry gzip codec r)).map some, files root gzip) := by
  rcases hw : writeEntry (key.path root) (encodeEntry gzip codec r) tree with ⟨result, written⟩
  rw [set_files, hw] at h
  simp only [Prod.mk.injEq] at h
  obtain ⟨rfl, rfl, rfl⟩ := h
  rw [get, read_writeEntry hw]

/-- What was written for a key is read back, with any codec or none, exactly when
no data is nested deeper than the reader follows; otherwise every read of the
key fails. -/
theorem get_of_set (gzip : Bool) (codec : Gzip.Codec) {r : Result} (h : r.Storable) :
    decodeEntry gzip codec (encodeEntry gzip codec r) =
      (if r.Within dataLimit then .ok r else .error .malformedEntry) ∧
    ∀ (root : String) (key : CacheKey) (tree tree' : FileTree) (shelf : Shelf),
      (files root gzip).set codec tree key r = (.ok (), tree', shelf) →
        shelf.get codec tree' key =
          (if r.Within dataLimit then .ok (some r) else .error .malformedEntry,
            files root gzip) := by
  have hentry := (decodeEntry_encodeEntry gzip codec r).trans (decodeText_text h)
  refine ⟨hentry, fun root key tree tree' shelf hset => ?_⟩
  rw [get_set_files hset, hentry]
  split <;> rfl

/-- A number inside as many lists. -/
def lists : Nat → Json
  | 0 => .int 0
  | n + 1 => .array [lists n]

theorem lists_nested (n : Nat) :
    IsIntegral (lists n) ∧ (lists n).canonical = lists n ∧ (lists n).levels = n := by
  induction n with
  | zero => exact ⟨by constructor <;> decide, rfl, rfl⟩
  | succ n ih =>
    obtain ⟨hi, hc, hl⟩ := ih
    refine ⟨⟨hi, trivial⟩, ?_, ?_⟩
    · rw [lists, Json.canonical, Json.canonicalItems, Json.canonicalItems, hc]
    · rw [lists, Json.levels, Json.levelsOfItems, Json.levelsOfItems, hl, Nat.max_zero]

theorem lists_storable (n : Nat) : Result.Storable ⟨[], [⟨"js", lists n⟩]⟩ := by
  intro a ha
  obtain rfl := List.mem_singleton.mp ha
  exact ⟨(lists_nested n).1, (lists_nested n).2.1⟩

theorem within_lists (n room : Nat) : Result.Within ⟨[], [⟨"js", lists n⟩]⟩ room ↔ n ≤ room := by
  simp [Result.Within, (lists_nested n).2.2]

theorem writeEntry_empty (content : Bytes) :
    (writeEntry (CacheKey.path "tmp" ⟨[0xAB], "0"⟩) content .empty).1 = .ok () := by
  rfl

theorem set_empty (gzip : Bool) (codec : Gzip.Codec) (r : Result) : ∃ tree,
    (files "tmp" gzip).set codec .empty ⟨[0xAB], "0"⟩ r = (.ok (), tree, files "tmp" gzip) :=
  ⟨_, by rw [set_files, writeEntry_empty]⟩

/-- Of two compressed entries that were both written, the one with a level more
cannot be read. -/
theorem get_of_set_lists : ∃ kept lost,
    (files "tmp" true).set .stored .empty ⟨[0xAB], "0"⟩ ⟨[], [⟨"js", lists 124⟩]⟩ =
      (.ok (), kept, files "tmp" true) ∧
    (files "tmp" true).get .stored kept ⟨[0xAB], "0"⟩ =
      (.ok (some ⟨[], [⟨"js", lists 124⟩]⟩), files "tmp" true) ∧
    (files "tmp" true).set .stored .empty ⟨[0xAB], "0"⟩ ⟨[], [⟨"js", lists 125⟩]⟩ =
      (.ok (), lost, files "tmp" true) ∧
    (files "tmp" true).get .stored lost ⟨[0xAB], "0"⟩ =
      (.error .malformedEntry, files "tmp" true) := by
  obtain ⟨kept, hkept⟩ := set_empty true .stored ⟨[], [⟨"js", lists 124⟩]⟩
  obtain ⟨lost, hlost⟩ := set_empty true .stored ⟨[], [⟨"js", lists 125⟩]⟩
  have hk := (get_of_set true .stored (lists_storable 124)).2 _ _ _ _ _ hkept
  have hl := (get_of_set true .stored (lists_storable 125)).2 _ _ _ _ _ hlost
  rw [if_pos ((within_lists 124 dataLimit).mpr (by decide))] at hk
  rw [if_neg fun h => absurd ((within_lists 125 dataLimit).mp h) (by decide)] at hl
  exact ⟨kept, lost, hkept, hk, hlost, hl⟩

end Shelf

end BundleGraph
