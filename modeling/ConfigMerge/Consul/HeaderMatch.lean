import ConfigMerge.Codec

/-!
# Consul/HeaderMatch — conditions on the headers of a request

Routes and intention permissions select requests by their headers in the same form.
-/

namespace ConfigMerge

/-- A condition on one header. -/
structure HeaderMatch where
  name : String
  present : Bool := false
  exact : Option String := none
  startsWith : Option String := none
  endsWith : Option String := none
  regex : Option String := none
  invert : Bool := false
deriving DecidableEq

/-- The members of a header condition. -/
def HeaderMatch.fields : Fields HeaderMatch HeaderMatch :=
  Fields.start HeaderMatch.mk
    |>.required "name" .text (·.name)
    |>.flag "present" (·.present)
    |>.optional "exact" .text (·.exact)
    |>.optional "prefix" .text (·.startsWith)
    |>.optional "suffix" .text (·.endsWith)
    |>.optional "regex" .text (·.regex)
    |>.flag "invert" (·.invert)

/-- The JSON form of a header condition. -/
def HeaderMatch.codec : Codec HeaderMatch :=
  fields.codec.described "Header match shared by routes and intention permissions"

end ConfigMerge
