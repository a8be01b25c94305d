import ConfigMerge.Codec

/-!
# Service/Health — the health of a replica

A replica that answers at all is healthy; its answer also says whether it is the leader.
-/

namespace ConfigMerge

/-- The version of the operator. -/
def operatorVersion : String := "0.1.0"

/-- What a replica says about itself. -/
structure Health where
  status : String
  version : String
  leader : Bool
deriving DecidableEq

namespace Health

/-- The members of a health report. -/
def fields : Fields Health Health :=
  Fields.start Health.mk
    |>.required "status" .text (·.status)
    |>.required "version" .text (·.version)
    |>.required "leader" .boolean (·.leader)

/-- The JSON form of a health report. -/
def codec : Codec Health := fields.codec

/-- The report of a replica. -/
def ofLeadership (leader : Bool) : Health := ⟨"healthy", operatorVersion, leader⟩

end Health

end ConfigMerge
