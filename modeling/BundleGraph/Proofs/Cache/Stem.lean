import BundleGraph.Proofs.Json.Canonical
import BundleGraph.Proofs.Utf8
import BundleGraph.TransformCache

/-!
# Stems of keys

The text that a stem is the fingerprint of determines the options and the local
path, and the digest of a content its bytes, as long as no two of the inputs
collide.
-/

namespace BundleGraph

open Json (encode)

namespace Transform.Options

/-- Custom options are a map: every object in them has its fields in order, each
key once, and numbers are finite. -/
structure WellFormed (o : Options) : Prop where
  canonical : (Json.object o.custom).canonical = .object o.custom
  finite : Json.FieldsFinite o.custom

/-- The fields of options in canonical form, in the order of their declaration. -/
def fields (o : Options) : Json.Fields :=
  [("dev", encode o.dev), ("hot", encode o.hot), ("minify", encode o.minify),
    ("platform", encode o.platform), ("module_type", encode o.target),
    ("inline_requires", encode o.inlineRequires), ("custom", .object o.custom)]

theorem canonical_encode {o : Options} (ho : o.WellFormed) :
    (encode o).canonical = .object (Json.sortFields o.fields) := by
  have hplatform : (encode o.platform).canonical = encode o.platform := by
    cases o.platform <;> rfl
  have hcustom := ho.canonical
  change Json.object (Json.sortFields [("dev", encode o.dev), ("hot", encode o.hot),
    ("minify", encode o.minify), ("platform", (encode o.platform).canonical),
    ("module_type", encode o.target), ("inline_requires", encode o.inlineRequires),
    ("custom", (Json.object o.custom).canonical)]) = _
  rw [hplatform, hcustom, fields]

theorem mem_fields {o p : Options} (h : Json.sortFields o.fields = Json.sortFields p.fields)
    {k : String} {v : Json} (hv : (k, v) ∈ o.fields) : (k, v) ∈ p.fields := by
  have hnodup (q : Options) : (q.fields.map Prod.fst).Nodup := by
    simp [fields]
  rwa [← Json.mem_sortFields (hnodup p), ← h, Json.mem_sortFields (hnodup o)]

theorem encode_platform_inj {a b : Option String} (h : encode a = encode b) : a = b := by
  cases a <;> cases b <;> cases h <;> rfl

theorem encode_target_inj {a b : Target} (h : encode a = encode b) : a = b := by
  have htext : a.text = b.text := Json.string.inj h
  revert htext
  cases a <;> cases b <;> decide

theorem encode_inj {o p : Options} (ho : o.WellFormed) (hp : p.WellFormed)
    (h : (encode o).canonical = (encode p).canonical) : o = p := by
  rw [canonical_encode ho, canonical_encode hp] at h
  have hfields := Json.object.inj h
  have hdev : ("dev", encode o.dev) ∈ p.fields := mem_fields hfields (by simp [fields])
  have hhot : ("hot", encode o.hot) ∈ p.fields := mem_fields hfields (by simp [fields])
  have hminify : ("minify", encode o.minify) ∈ p.fields := mem_fields hfields (by simp [fields])
  have hplatform : ("platform", encode o.platform) ∈ p.fields :=
    mem_fields hfields (by simp [fields])
  have htarget : ("module_type", encode o.target) ∈ p.fields :=
    mem_fields hfields (by simp [fields])
  have hinline : ("inline_requires", encode o.inlineRequires) ∈ p.fields :=
    mem_fields hfields (by simp [fields])
  have hcustom : ("custom", Json.object o.custom) ∈ p.fields :=
    mem_fields hfields (by simp [fields])
  simp only [fields, List.mem_cons, Prod.mk.injEq, String.reduceEq, false_and, true_and,
    or_false, false_or, List.not_mem_nil] at hdev hhot hminify hplatform htarget hinline hcustom
  obtain ⟨dev, hot, minify, platform, target, inlineRequires, custom⟩ := o
  obtain rfl : dev = p.dev := Json.bool.inj hdev
  obtain rfl : hot = p.hot := Json.bool.inj hhot
  obtain rfl : minify = p.minify := Json.bool.inj hminify
  obtain rfl : platform = p.platform := encode_platform_inj hplatform
  obtain rfl : target = p.target := encode_target_inj htarget
  obtain rfl : inlineRequires = p.inlineRequires := Json.bool.inj hinline
  obtain rfl : custom = p.custom := Json.object.inj hcustom
  rfl

theorem isFinite_encode {o : Options} (ho : Json.FieldsFinite o.custom) : (encode o).IsFinite := by
  have hplatform : (encode o.platform).IsFinite := by
    cases o.platform <;> trivial
  exact ⟨trivial, trivial, trivial, hplatform, trivial, trivial, ho, trivial⟩

end Transform.Options

namespace TransformCache

theorem isFinite_stemValue (baseHash : String) {o : Transform.Options}
    (ho : Json.FieldsFinite o.custom) (localPath : String) : (stemValue baseHash o localPath).IsFinite :=
  ⟨trivial, Transform.Options.isFinite_encode ho, trivial, trivial⟩

theorem stemValue_inj {baseHash : String} {o p : Transform.Options} (ho : o.WellFormed)
    (hp : p.WellFormed) {a b : String}
    (h : (stemValue baseHash o a).canonicalBytes = (stemValue baseHash p b).canonicalBytes) :
    o = p ∧ a = b := by
  have hcanonical := Json.canonicalText_inj (isFinite_stemValue baseHash ho.finite a)
    (isFinite_stemValue baseHash hp.finite b) (Utf8.ofString_inj h)
  have hitems := Json.array.inj hcanonical
  simp only [Json.canonicalItems, List.cons.injEq] at hitems
  exact ⟨Transform.Options.encode_inj ho hp hitems.2.1, Json.string.inj hitems.2.2.1⟩

end TransformCache

end BundleGraph
