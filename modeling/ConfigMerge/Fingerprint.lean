import ConfigMerge.Codec
import ConfigMerge.Digest.Sha256
import ConfigMerge.Json.Text

/-!
# Fingerprint — digests for change detection

The fingerprint of a value is the SHA-256 digest of its canonical JSON text, so it depends on the
content alone and not on the order in which members were written.
-/

namespace ConfigMerge

/-- The digest of the canonical text of a JSON value. -/
def Json.fingerprint (j : Json) : String := Sha256.hexDigest j.canonicalText

/-- The fingerprint of a value in its JSON form. -/
def Codec.fingerprint {α : Type} (c : Codec α) (a : α) : String := (c.encode a).fingerprint

end ConfigMerge
