import BundleGraph.Proofs.Cache.Stem
import BundleGraph.Proofs.Json.Same

/-!
# What the hashed text identifies

The text that is hashed for a value stands for exactly the values that are the
same as JSON. So the text behind a stem stands for exactly one choice of options
and one local path.
-/

namespace BundleGraph

open Json (encode)

namespace Transform.Options

/-- Equal options, where custom ones are compared as JSON. -/
structure Same (o p : Options) : Prop where
  dev : o.dev = p.dev
  hot : o.hot = p.hot
  minify : o.minify = p.minify
  platform : o.platform = p.platform
  target : o.target = p.target
  inlineRequires : o.inlineRequires = p.inlineRequires
  custom : Json.Same (.object o.custom) (.object p.custom)

theorem encode_eq (o : Options) : encode o = .object o.fields := rfl

theorem Same.canonical_encode {o p : Options} (h : o.Same p) :
    (encode o).canonical = (encode p).canonical := by
  have hcustom := (Json.canonical_eq_iff _ _).mpr h.custom
  rw [encode_eq, encode_eq]
  simp only [Json.canonical, fields, Json.canonicalFields, h.dev, h.hot, h.minify, h.platform,
    h.target, h.inlineRequires] at hcustom ⊢
  rw [hcustom]

theorem isAtom_platform (platform : Option String) : (encode platform).IsAtom := by
  cases platform <;> trivial

theorem same_encode_iff {o p : Options} : Json.Same (encode o) (encode p) ↔ o.Same p := by
  constructor
  · intro h
    have hfield := Json.same_object.mp h
    have hdev : Json.Same (encode o.dev) (encode p.dev) := by
      simpa [Json.lastField?] using hfield "dev"
    have hhot : Json.Same (encode o.hot) (encode p.hot) := by
      simpa [Json.lastField?] using hfield "hot"
    have hminify : Json.Same (encode o.minify) (encode p.minify) := by
      simpa [Json.lastField?] using hfield "minify"
    have hplatform : Json.Same (encode o.platform) (encode p.platform) := by
      simpa [Json.lastField?] using hfield "platform"
    have htarget : Json.Same (encode o.target) (encode p.target) := by
      simpa [Json.lastField?] using hfield "module_type"
    have hinline : Json.Same (encode o.inlineRequires) (encode p.inlineRequires) := by
      simpa [Json.lastField?] using hfield "inline_requires"
    exact
      { dev := Json.bool.inj (hdev.eq_of_isAtom trivial)
        hot := Json.bool.inj (hhot.eq_of_isAtom trivial)
        minify := Json.bool.inj (hminify.eq_of_isAtom trivial)
        platform := encode_platform_inj (hplatform.eq_of_isAtom (isAtom_platform _))
        target := encode_target_inj (htarget.eq_of_isAtom trivial)
        inlineRequires := Json.bool.inj (hinline.eq_of_isAtom trivial)
        custom := by simpa [Json.lastField?] using hfield "custom" }
  · intro h
    exact (Json.canonical_eq_iff _ _).mp h.canonical_encode

theorem WellFormed.same_iff {o p : Options} (ho : o.WellFormed) (hp : p.WellFormed) :
    o.Same p ↔ o = p := by
  constructor
  · intro h
    exact encode_inj ho hp h.canonical_encode
  · rintro rfl
    exact same_encode_iff.mp ((Json.canonical_eq_iff _ _).mp rfl)

end Transform.Options

namespace TransformCache

theorem same_stemValue_iff {baseHash a b : String} {o p : Transform.Options} :
    Json.Same (stemValue baseHash o a) (stemValue baseHash p b) ↔ o.Same p ∧ a = b := by
  have hstring (s t : String) : Json.Same (.string s) (.string t) ↔ s = t := by
    rw [← Json.canonical_eq_iff]
    exact Json.string.injEq s t ▸ Iff.rfl
  simp [stemValue, Json.same_array, hstring, Transform.Options.same_encode_iff]

/-- The bytes that are hashed for two values whose numbers are finite, as integers
are, are equal exactly when the values are equal as JSON. So for one base, two
choices of options and local path have a stem hashed from the same bytes exactly
when both are equal: options up to the order in which custom objects are
written down, and simply equal when these are maps in order. -/
theorem hashed_text_identifies :
    (∀ v w : Json, v.IsFinite → w.IsFinite →
      (v.canonicalBytes = w.canonicalBytes ↔ Json.Same v w)) ∧
    ∀ (baseHash : String) (o p : Transform.Options) (a b : String),
      Json.FieldsFinite o.custom → Json.FieldsFinite p.custom →
      ((stemValue baseHash o a).canonicalBytes = (stemValue baseHash p b).canonicalBytes ↔
        o.Same p ∧ a = b) ∧
      (o.WellFormed → p.WellFormed →
        ((stemValue baseHash o a).canonicalBytes = (stemValue baseHash p b).canonicalBytes ↔
          o = p ∧ a = b)) := by
  refine ⟨fun v w hv hw => Json.canonicalBytes_eq_iff hv hw, fun baseHash o p a b ho hp => ?_⟩
  have hsame : (stemValue baseHash o a).canonicalBytes = (stemValue baseHash p b).canonicalBytes ↔
      o.Same p ∧ a = b := by
    rw [Json.canonicalBytes_eq_iff (isFinite_stemValue baseHash ho a)
      (isFinite_stemValue baseHash hp b), same_stemValue_iff]
  refine ⟨hsame, fun ho hp => ?_⟩
  rw [hsame, ho.same_iff hp]

def unordered : Json := .object [("b", .array [.int 1, .string "\"]"]), ("a", .null)]

def ordered : Json := .object [("a", .null), ("b", .array [.int 1, .string "\"]"])]

def unlike : Json := .object [("a", .null), ("b", .array [.string "1", .string "\"]"])]

theorem same_unordered : Json.Same unordered ordered :=
  (Json.canonical_eq_iff _ _).mp rfl

theorem not_same_unlike : ¬ Json.Same unordered unlike := by
  intro h
  have hitems : Json.Same (.array [.int 1, .string "\"]"]) (.array [.string "1", .string "\"]"]) := by
    simpa [Json.lastField?] using Json.same_object.mp h "b"
  cases Json.same_array.mp hitems with
  | cons hitem _ => cases hitem.eq_of_isAtom trivial

def withCustom (v : Json) : Transform.Options := { custom := [("x", v)] }

/-- The order of fields changes no bytes, and a text in place of a number or one
more flag does. -/
theorem hashed_text_identifies_reordered :
    unordered.IsFinite ∧ ordered.IsFinite ∧ unlike.IsFinite ∧
    unordered.canonicalBytes = ordered.canonicalBytes ∧
    unordered.canonicalBytes ≠ unlike.canonicalBytes ∧
    (stemValue "0" (withCustom unordered) "a.js").canonicalBytes =
      (stemValue "0" (withCustom ordered) "a.js").canonicalBytes ∧
    (withCustom ordered).WellFormed ∧
    (stemValue "0" (withCustom ordered) "a.js").canonicalBytes ≠
      (stemValue "0" { withCustom ordered with dev := true } "a.js").canonicalBytes := by
  obtain ⟨hvalues, hstems⟩ := hashed_text_identifies
  have hun : unordered.IsFinite := by
    simp [unordered, Json.IsFinite, Json.FieldsFinite, Json.AreFinite]
  have hord : ordered.IsFinite := by
    simp [ordered, Json.IsFinite, Json.FieldsFinite, Json.AreFinite]
  have hlike : unlike.IsFinite := by
    simp [unlike, Json.IsFinite, Json.FieldsFinite, Json.AreFinite]
  have hcustom : Json.FieldsFinite (withCustom unordered).custom := ⟨hun, trivial⟩
  have hwell : (withCustom ordered).WellFormed := ⟨rfl, hord, trivial⟩
  have hdev : { withCustom ordered with dev := true }.WellFormed := ⟨rfl, hord, trivial⟩
  have hsame : (withCustom unordered).Same (withCustom ordered) :=
    ⟨rfl, rfl, rfl, rfl, rfl, rfl, (Json.canonical_eq_iff _ _).mp rfl⟩
  refine ⟨hun, hord, hlike, ?_, ?_, ?_, hwell, ?_⟩
  · exact (hvalues _ _ hun hord).mpr same_unordered
  · exact fun h => not_same_unlike ((hvalues _ _ hun hlike).mp h)
  · exact (hstems "0" _ _ _ _ hcustom hwell.finite).1.mpr ⟨hsame, rfl⟩
  · intro h
    have hoptions := ((hstems "0" _ _ _ _ hwell.finite hdev.finite).2 hwell hdev).mp h
    cases congrArg Transform.Options.dev hoptions.1

end TransformCache

end BundleGraph
