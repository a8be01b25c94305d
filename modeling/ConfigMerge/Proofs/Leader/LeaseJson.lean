import ConfigMerge.Cluster.Basic
import ConfigMerge.Leader.Election
import ConfigMerge.Proofs.Json.Members

/-!
# Proofs/Leader/LeaseJson — what the JSON of a lease says

The holder and the version of a stored lease stand in its JSON, and a replica that reads the lease
sees just these (`Lease.of_decode`).  A renewal leaves the holder as it is, while a take-over and a
creation name the replica that makes them.
-/

namespace ConfigMerge

namespace Json

/-- The replica that a stored lease names. -/
def leaseHolder? (j : Json) : Option String :=
  ((j.member? "spec").bind (·.member? "holderIdentity")).bind (·.text?)

/-- The version of a stored object. -/
def version? (j : Json) : Option String := (j.metadata? "resourceVersion").bind (·.text?)

variable {j j' : Json}

theorem leaseHolder?_congr (h : j.member? "spec" = j'.member? "spec") :
    j.leaseHolder? = j'.leaseHolder? := by
  rw [leaseHolder?, leaseHolder?, h]

/-- What is written to the metadata leaves the holder. -/
@[simp] theorem leaseHolder?_withMetadata (members : List (String × Json)) :
    (j.withMetadata members).leaseHolder? = j.leaseHolder? :=
  leaseHolder?_congr (member?_patched_of_not_mem j (by simp))

/-- A version that is written last is the version. -/
@[simp] theorem version?_withMetadata (v : String) :
    (j.withMetadata [("resourceVersion", .str v)]).version? = some v := by
  rw [version?, metadata?, withMetadata,
    member?_patched_of_mem j (by simp) List.mem_cons_self (by simp), Option.bind_some,
    member?_patched_of_mem _ (by simp) List.mem_cons_self (by simp), patched_str]
  rfl

/-- **A renewal leaves the holder.** -/
theorem leaseHolder?_renew (j : Json) (now : Instant) :
    (j.patched (LeasePatch.renew now).toJson).leaseHolder? = j.leaseHolder? := by
  rw [leaseHolder?, LeasePatch.toJson,
    member?_patched_of_mem j (by simp) List.mem_cons_self (by simp), Option.bind_some,
    member?_patched_of_not_mem _ (by simp), member?_getD_null]
  rfl

/-- **A take-over names its replica.** -/
theorem leaseHolder?_takeOver (j : Json) (id : String) (now : Instant) (observed : Option String) :
    (j.patched (LeasePatch.takeOver id now observed).toJson).leaseHolder? = some id := by
  rw [leaseHolder?, LeasePatch.toJson,
    member?_patched_of_mem j (by simp) (List.mem_cons_of_mem _ List.mem_cons_self) (by simp),
    Option.bind_some, member?_patched_of_mem _ (by simp) List.mem_cons_self (by simp), patched_str]
  rfl

end Json

namespace LeasePatch

/-- The version that a take-over insists on. -/
theorem version?_toJson_takeOver (id : String) (now : Instant) (observed : Option String) :
    ((takeOver id now observed).toJson.metadata? "resourceVersion").bind (·.text?) = observed := by
  cases observed <;>
    simp [toJson, Json.metadata?, Json.member?, Json.text?, SortedMap.ofList, SortedMap.get?_insert]

/-- A renewal insists on none. -/
theorem version?_toJson_renew (now : Instant) :
    (renew now).toJson.metadata? "resourceVersion" = none := by
  simp [toJson, Json.metadata?, Json.member?, SortedMap.ofList, SortedMap.get?_insert]

end LeasePatch

theorem LeaseSpec.holderIdentity_of_decode {j : Json} {s : LeaseSpec}
    (h : LeaseSpec.codec.decode j = some s) :
    s.holderIdentity = (j.member? "holderIdentity").bind (·.text?) := by
  obtain ⟨r, hr, hmember⟩ := Fields.of_decode_objectCodec h
  obtain ⟨f₅, a₅, h₅, rfl, -⟩ := Fields.of_read_omittable hr
  obtain ⟨f₄, a₄, h₄, rfl, -⟩ := Fields.of_read_omittable h₅
  obtain ⟨f₃, a₃, h₃, rfl, -⟩ := Fields.of_read_omittable h₄
  obtain ⟨f₂, a₂, h₂, rfl, -⟩ := Fields.of_read_omittable h₃
  obtain ⟨f₁, h₁, rfl⟩ := Fields.of_read_omittable_text h₂
  obtain rfl := Option.some.inj h₁
  rw [← hmember]

namespace Lease

variable {j : Json} {l : Lease}

/-- What is read of a lease is what its JSON says, for the version and for the holder. -/
theorem of_decode (h : decode j = some l) :
    l.metadata.resourceVersion = j.version? ∧ l.holder? = j.leaseHolder? := by
  unfold decode at h
  split at h
  · obtain ⟨r, hr, hmember⟩ := Fields.of_decode_objectCodec h
    obtain ⟨f, spec, hf, rfl, hspec⟩ := Fields.of_read_omittable hr
    obtain ⟨g, m, hg, rfl, hm⟩ := Fields.of_read_omittable hf
    obtain rfl := Option.some.inj hg
    rw [hmember] at hspec hm
    constructor
    · rcases hm with ⟨hnull, rfl⟩ | ⟨j', m, hj', rfl, hdecode⟩
      · rw [Json.version?, Json.metadata?, ← Json.member?_getD_null, hnull]
        rfl
      · rw [Json.version?, Json.metadata?, hj']
        exact (Metadata.of_decode hdecode).1
    · rcases hspec with ⟨hnull, rfl⟩ | ⟨j', spec, hj', rfl, hdecode⟩
      · rw [Json.leaseHolder?, ← Json.member?_getD_null, hnull]
        rfl
      · rw [Json.leaseHolder?, hj']
        exact LeaseSpec.holderIdentity_of_decode hdecode
  · cases h

/-- A created lease names its replica. -/
theorem leaseHolder?_encode_newLease (ns id : String) (now : Instant) :
    (Election.newLease ns id now).encode.leaseHolder? = some id := by
  simp [Election.newLease, encode, fields, LeaseSpec.codec, LeaseSpec.fields, Fields.objectCodec,
    Fields.omittable, Fields.member, Fields.start, Codec.text, Json.leaseHolder?, Json.member?,
    Json.text?, SortedMap.ofList, SortedMap.get?_insert]

end Lease

end ConfigMerge
