import BundleGraph.Json.Codec
import BundleGraph.Sha256
import BundleGraph.Text.Utf8

/-!
# Fingerprints

The fingerprint of a value is the digest of its canonical JSON text, so it is
the same in every process and for every order of fields.
-/

namespace BundleGraph

/-- The bytes that stand for a value. -/
def Json.canonicalBytes (v : Json) : Bytes := Utf8.ofString v.canonicalText

def fingerprint [Json.Encode α] (a : α) : Bytes := sha256 (Json.encode a).canonicalBytes

end BundleGraph
