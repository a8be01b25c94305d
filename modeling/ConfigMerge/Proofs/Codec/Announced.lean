import ConfigMerge.Proofs.Codec.Described
import ConfigMerge.Proofs.Json.Arrangement

/-!
# Proofs/Codec/Announced — schemas as a server reads them

A server does not see a `Schema` but the keywords that are announced for it.  `Json.Allows` says
which values these allow, keyword by keyword; one that it does not know allows nothing.  What a
schema describes is allowed by its keywords (`Schema.Describes.allows`). -/

namespace ConfigMerge

/-! ## What keywords allow -/

namespace Json

/-- The names that the keyword `type` has for a value; any number that is whole is an integer. -/
def types : Json → List String
  | .null => []
  | .bool _ => ["boolean"]
  | .int _ => ["integer", "number"]
  | .float x => if x.toInt?.isSome then ["integer", "number"] else ["number"]
  | .str _ => ["string"]
  | .arr _ => ["array"]
  | .obj _ => ["object"]

/-- The keywords that no value is checked against. -/
def annotations : List String := ["description", "format", "nullable", "title"]

mutual

/-- The keywords of a schema allow a value.  They allow `null` only where they say so, and where it
is among the values of an enumeration. -/
inductive Allows : Json → Json → Prop where
  | null {keywords : List (String × Json)} (hnullable : ("nullable", .bool true) ∈ keywords)
    (henum : ∀ values, ("enum", .arr values) ∈ keywords → .null ∈ values) :
    Allows (.obj keywords) .null
  | value {keywords : List (String × Json)} {v : Json} (hv : v ≠ .null)
    (hmeets : ∀ e ∈ keywords, Meets e.1 e.2 v) : Allows (.obj keywords) v

/-- A value meets one keyword.  `additionalProperties` stands in the place of `properties`, never
beside them. -/
inductive Meets : String → Json → Json → Prop where
  | annotates {keyword : String} {argument v : Json} (h : keyword ∈ annotations) :
    Meets keyword argument v
  | type {name : String} {v : Json} (h : name ∈ v.types) : Meets "type" (.str name) v
  | enum {values : List Json} {v : Json} (h : v ∈ values) : Meets "enum" (.arr values) v
  | minimum {least v : Json} {m n : Int} (hleast : least.whole? = some m) (hv : v.whole? = some n)
    (h : m ≤ n) : Meets "minimum" least v
  | required {names : List Json} {members : List (String × Json)}
    (h : ∀ j ∈ names, ∃ name ∈ members.map (·.1), j = .str name) :
    Meets "required" (.arr names) (.obj members)
  | properties {properties members : List (String × Json)}
    (h : ∀ m ∈ members, ∀ e ∈ properties, m.1 = e.1 → Allows e.2 m.2) :
    Meets "properties" (.obj properties) (.obj members)
  | additional {schema : Json} {members : List (String × Json)}
    (h : ∀ m ∈ members, Allows schema m.2) : Meets "additionalProperties" schema (.obj members)
  | items {schema : Json} {js : List Json} (h : ∀ j ∈ js, Allows schema j) :
    Meets "items" schema (.arr js)

end

variable {keywords keywords' : List (String × Json)} {v : Json}

/-- Annotations do not matter, nor does the order of the keywords. -/
theorem Allows.of_subset (h : (obj keywords).Allows v) (hv : v ≠ .null)
    (hsub : ∀ e ∈ keywords', e ∈ keywords ∨ e.1 ∈ annotations) : (obj keywords').Allows v := by
  cases h with
  | null => exact absurd rfl hv
  | value _ hmeets => exact .value hv fun e he => (hsub e he).elim (hmeets e) .annotates

/-- The keywords of a schema stand in the order of their names. -/
theorem Allows.ofList (hv : v ≠ .null) (hmeets : ∀ e ∈ keywords, Meets e.1 e.2 v) :
    (obj (SortedMap.ofList keywords).entries).Allows v :=
  .value hv fun e he => hmeets e (SortedMap.mem_of_mem_ofList he)

theorem Meets.last_type {name : String} (h : name ∈ v.types) :
    ∀ e ∈ [("type", str name)], Meets e.1 e.2 v := List.forall_mem_singleton.mpr (.type h)

/-- One more annotation. -/
theorem Allows.annotated {m : SortedMap String Json} (h : (obj m.entries).Allows v) (hv : v ≠ .null)
    {keyword : String} (hkeyword : keyword ∈ annotations) (argument : Json) :
    (obj (m.insert keyword argument).entries).Allows v := by
  refine h.of_subset hv fun e he => ?_
  rcases SortedMap.mem_put he with rfl | he
  · exact Or.inr hkeyword
  · exact Or.inl he

end Json

/-! ## The keywords of a schema -/

namespace Schema

theorem of_mem_propertyKeywords {properties : List (String × Schema)} {e : String × Json}
    (h : e ∈ propertyKeywords properties) :
    ∃ schema, (e.1, schema) ∈ properties ∧ e.2 = schema.toJson := by
  induction properties with
  | nil => cases h
  | cons property rest ih =>
    rcases List.mem_cons.mp h with rfl | h
    · exact ⟨property.2, List.mem_cons_self, rfl⟩
    · obtain ⟨schema, hmem, heq⟩ := ih h
      exact ⟨schema, List.mem_cons_of_mem _ hmem, heq⟩

/-- A record is allowed if its required members are there and the declared ones are allowed. -/
theorem allows_object {properties : List (String × Schema)} {required : List String}
    {members : List (String × Json)} (hrequired : ∀ name ∈ required, name ∈ members.map (·.1))
    (hvalues : ∀ m ∈ members, ∀ e ∈ properties, m.1 = e.1 → e.2.toJson.Allows m.2) :
    (object properties required).toJson.Allows (.obj members) := by
  refine .ofList nofun (List.forall_mem_append.mpr ⟨List.forall_mem_cons.mpr ⟨?_, ?_⟩, ?_⟩)
  · -- Of several properties with one name the last is announced, and all are allowed.
    refine .properties fun m hm e he hname => ?_
    obtain ⟨schema, hmem, heq⟩ := of_mem_propertyKeywords (SortedMap.mem_of_mem_ofList he)
    rw [heq]
    exact hvalues m hm (e.1, schema) hmem hname
  · exact .last_type List.mem_cons_self
  · intro e he
    split_ifs at he
    · cases he
    · obtain rfl := List.mem_singleton.mp he
      refine .required fun j hj => ?_
      obtain ⟨name, hname, rfl⟩ := List.mem_map.mp hj
      exact ⟨name, hrequired name (List.mem_mergeSort.mp hname), rfl⟩

/-- **What a schema describes is allowed by its keywords.** -/
theorem Describes.allows {s : Schema} {j : Json} (h : s.Describes j) : s.toJson.Allows j := by
  induction h with
  | boolean | text => exact .ofList nofun (.last_type List.mem_cons_self)
  | choice hs =>
    exact .ofList nofun (List.forall_mem_cons.mpr
      ⟨.enum (List.mem_map_of_mem hs), .last_type List.mem_cons_self⟩)
  | uint32 hlow _ =>
    have hleast : (Json.float .zero).whole? = some 0 := by decide +kernel
    refine .ofList nofun (List.forall_mem_cons.mpr ⟨.annotates (by decide),
      List.forall_mem_cons.mpr ⟨.minimum hleast rfl hlow, ?_⟩⟩)
    exact .last_type List.mem_cons_self
  | int64 =>
    refine .ofList nofun (List.forall_mem_cons.mpr ⟨.annotates (by decide), ?_⟩)
    exact .last_type List.mem_cons_self
  | dictionary _ _ ih =>
    refine .ofList nofun (List.forall_mem_cons.mpr ⟨.additional ih, ?_⟩)
    exact .last_type List.mem_cons_self
  | list _ ih =>
    refine .ofList nofun (List.forall_mem_cons.mpr ⟨.items ih, ?_⟩)
    exact .last_type List.mem_cons_self
  | object _ hrequired _ _ ih => exact allows_object hrequired ih
  | nullable h ih => exact ih.annotated h.ne_null (by decide) _
  | described h ih => exact ih.annotated h.ne_null (by decide) _

/-- Members that are not declared do no harm. -/
theorem Describes.with_undeclared {properties : List (String × Schema)} {required : List String}
    {own members : List (String × Json)}
    (h : (Schema.object properties required).Describes (.obj members))
    (hown : ∀ m ∈ own, m.1 ∉ properties.map (·.1)) :
    (Schema.object properties required).toJson.Allows (.obj (own ++ members)) ∧
      (Schema.object properties required).validates (.obj (own ++ members)) := by
  cases h with
  | object _ hrequired _ hvalues =>
  have hgiven : ∀ name ∈ required, name ∈ (own ++ members).map (·.1) := fun name hname => by
    rw [List.map_append]
    exact List.mem_append_right _ (hrequired name hname)
  have hdescribes : ∀ m ∈ own ++ members, ∀ e ∈ properties, m.1 = e.1 → e.2.Describes m.2 := by
    intro m hm e he hname
    rcases List.mem_append.mp hm with hm | hm
    · exact absurd (hname ▸ List.mem_map_of_mem he) (hown m hm)
    · exact hvalues m hm e he hname
  exact ⟨allows_object hgiven fun m hm e he hname => (hdescribes m hm e he hname).allows,
    validates_object hgiven fun m hm e he hname => (hdescribes m hm e he hname).validates⟩

end Schema

end ConfigMerge
