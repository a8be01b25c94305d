import ConfigMerge.Codec

/-!
# Resource/FragmentStatus — what the operator records on a fragment

After a merge the operator writes the fingerprint of the content that it merged, and the time.
-/

namespace ConfigMerge

/-- The bookkeeping on a fragment. -/
structure FragmentStatus where
  contentFingerprint : Option String := none
  lastSyncedAt : Option String := none
deriving DecidableEq

/-- The members of the bookkeeping. -/
def FragmentStatus.fields : Fields FragmentStatus FragmentStatus :=
  Fields.start FragmentStatus.mk
    |>.omittable "contentFingerprint"
      (.described .text "SHA-256 of the spec last folded into the composite")
      (·.contentFingerprint)
    |>.omittable "lastSyncedAt" (.described .text "RFC3339 time of the last status write")
      (·.lastSyncedAt)

/-- The JSON form of the bookkeeping. -/
def FragmentStatus.codec : Codec FragmentStatus :=
  fields.codec.described
    "Bookkeeping the operator persists on each fragment after a successful merge"

/-- The recorded fingerprint; an empty one counts as none. -/
def FragmentStatus.fingerprint? (s : FragmentStatus) : Option String :=
  s.contentFingerprint.filter (· ≠ "")

end ConfigMerge
