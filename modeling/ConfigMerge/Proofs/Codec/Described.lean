import ConfigMerge.Proofs.Codec.Admitted

/-!
# Proofs/Codec/Described — what is written is just what the schema beside the writer describes

A server admits more under a schema than anybody writes.  `Schema.Describes` is strict: every value
has the type, the name or the width that is declared, a record has all members that it must have and
none that is not declared, each once, and `null` is nowhere.  Each step by which a form is assembled
keeps a writer to that (`Codec.WritesDescribed`), so it holds for a record type as soon as its
members have it. -/

namespace ConfigMerge

variable {α β ρ : Type}

/-! ## Values without `null` -/

namespace Json

mutual

/-- Whether `null` is nowhere in the value. -/
def nullFree : Json → Bool
  | .null => false
  | .arr items => nullFreeItems items
  | .obj members => nullFreeMembers members
  | .bool _ | .int _ | .float _ | .str _ => true

/-- Whether no item has it. -/
def nullFreeItems : List Json → Bool
  | [] => true
  | item :: rest => item.nullFree && nullFreeItems rest

/-- Whether no member has it. -/
def nullFreeMembers : List (String × Json) → Bool
  | [] => true
  | (_, value) :: rest => value.nullFree && nullFreeMembers rest

end

theorem nullFreeItems_eq_all (items : List Json) : nullFreeItems items = items.all nullFree := by
  induction items with
  | nil => rfl
  | cons item rest ih => rw [nullFreeItems, List.all_cons, ih]

theorem nullFreeMembers_eq_all (members : List (String × Json)) :
    nullFreeMembers members = members.all (·.2.nullFree) := by
  induction members with
  | nil => rfl
  | cons m rest ih => rw [nullFreeMembers, List.all_cons, ih]

end Json

/-! ## What a schema describes -/

namespace Schema

/-- The value is just what the schema speaks of. -/
inductive Describes : Schema → Json → Prop where
  | boolean (b : Bool) : Describes .boolean (.bool b)
  | text (s : String) : Describes .text (.str s)
  | choice {values : List String} {s : String} (hs : s ∈ values) :
    Describes (.choice values) (.str s)
  | uint32 {n : Int} (hlow : 0 ≤ n) (hhigh : n < 4_294_967_296) : Describes .uint32 (.int n)
  | int64 {n : Int} (hlow : -9_223_372_036_854_775_808 ≤ n)
    (hhigh : n < 9_223_372_036_854_775_808) : Describes .int64 (.int n)
  | dictionary {values : Schema} {members : List (String × Json)}
    (hnodup : (members.map (·.1)).Nodup) (hvalues : ∀ m ∈ members, Describes values m.2) :
    Describes (.dictionary values) (.obj members)
  | list {items : Schema} {js : List Json} (hitems : ∀ j ∈ js, Describes items j) :
    Describes (.list items) (.arr js)
  | object {properties : List (String × Schema)} {required : List String}
    {members : List (String × Json)} (hnodup : (members.map (·.1)).Nodup)
    (hrequired : ∀ name ∈ required, name ∈ members.map (·.1))
    (hdeclared : ∀ m ∈ members, m.1 ∈ properties.map (·.1))
    (hvalues : ∀ m ∈ members, ∀ e ∈ properties, m.1 = e.1 → Describes e.2 m.2) :
    Describes (.object properties required) (.obj members)
  | nullable {schema : Schema} {j : Json} (h : Describes schema j) : Describes (.nullable schema) j
  | described {description : String} {schema : Schema} {j : Json} (h : Describes schema j) :
    Describes (.described description schema) j

/-- A record is admitted if its required members are there and the declared ones are admitted. -/
theorem validates_object {properties : List (String × Schema)} {required : List String}
    {members : List (String × Json)} (hrequired : ∀ name ∈ required, name ∈ members.map (·.1))
    (hvalues : ∀ m ∈ members, ∀ e ∈ properties, m.1 = e.1 → e.2.validates m.2) :
    (object properties required).validates (.obj members) := by
  rw [validates, validatesProperties_eq_all, Bool.and_eq_true, List.all_eq_true, List.all_eq_true]
  refine ⟨fun name hname => ?_, fun e he => List.all_eq_true.mpr fun m hm => ?_⟩
  · obtain ⟨m, hm, rfl⟩ := List.mem_map.mp (hrequired name hname)
    exact List.any_eq_true.mpr ⟨m, hm, decide_eq_true rfl⟩
  · by_cases hname : m.1 = e.1
    · rw [hvalues m hm e he hname, Bool.or_true]
    · rw [decide_eq_true hname, Bool.true_or]

namespace Describes

variable {s : Schema} {j : Json}

/-- **There is no `null` in it**… -/
theorem nullFree (h : s.Describes j) : j.nullFree := by
  induction h with
  | boolean | text | choice | uint32 | int64 => rfl
  | dictionary _ _ ih =>
    rw [Json.nullFree, Json.nullFreeMembers_eq_all, List.all_eq_true]
    exact ih
  | list _ ih =>
    rw [Json.nullFree, Json.nullFreeItems_eq_all, List.all_eq_true]
    exact ih
  | object _ _ hdeclared _ ih =>
    rw [Json.nullFree, Json.nullFreeMembers_eq_all, List.all_eq_true]
    intro m hm
    obtain ⟨e, he, hname⟩ := List.mem_map.mp (hdeclared m hm)
    exact ih m hm e he hname.symm
  | nullable _ ih | described _ ih => exact ih

theorem ne_null (h : s.Describes j) : j ≠ .null := by
  rintro rfl
  cases h.nullFree

/-- …and a server admits it. -/
theorem validates (h : s.Describes j) : s.validates j := by
  induction h with
  | boolean | text | int64 => rfl
  | choice hs => exact List.contains_iff_mem.mpr hs
  | uint32 hlow _ => exact decide_eq_true hlow
  | dictionary _ _ ih | list _ ih => exact List.all_eq_true.mpr ih
  | object _ hrequired _ _ ih => exact validates_object hrequired ih
  | @nullable schema j h ih =>
    cases j with
    | null => rfl
    | bool | int | float | str | arr | obj => exact ih
  | described _ ih => exact ih

end Describes

end Schema

/-! ## Single values -/

/-- The form writes only what its schema describes. -/
def Codec.WritesDescribed (c : Codec α) : Prop := ∀ a, c.schema.Describes (c.encode a)

namespace Codec.WritesDescribed

theorem text : Codec.text.WritesDescribed := Schema.Describes.text

theorem uint32 : Codec.uint32.WritesDescribed := fun n =>
  .uint32 (Int.natCast_nonneg _) (by have := n.toNat_lt; omega)

/-- A choice is written as one of the names, if each value has one. -/
theorem choice [DecidableEq α] {names : List (String × α)} (h : ∀ a, a ∈ names.map (·.2)) :
    (Codec.choice names).WritesDescribed := by
  intro a
  obtain ⟨e, he, rfl⟩ := List.mem_map.mp (h a)
  obtain ⟨found, hfound⟩ := Option.isSome_iff_exists.mp
    (List.find?_isSome.mpr ⟨e, he, decide_eq_true rfl⟩ : (names.find? (·.2 = e.2)).isSome)
  have hencode : (Codec.choice names).encode e.2 = .str found.1 := by simp [Codec.choice, hfound]
  rw [hencode]
  exact .choice (List.mem_map_of_mem (List.mem_of_find?_eq_some hfound))

theorem described {c : Codec α} (hc : c.WritesDescribed) (description : String) :
    (c.described description).WritesDescribed := fun a => .described (hc a)

theorem list {c : Codec α} (hc : c.WritesDescribed) : c.list.WritesDescribed := fun _ =>
  .list fun j hj => by
    obtain ⟨a, -, rfl⟩ := List.mem_map.mp hj
    exact hc a

end Codec.WritesDescribed

/-! ## Records -/

/-- The members that are written for a record are declared ones in their order, among them all that
are required, and each is what its schema describes. -/
structure Fields.WritesDescribed (p : Fields ρ α) : Prop where
  written : ∀ r, ((p.write r).map (·.1)).Sublist (p.properties.map (·.1))
  given : ∀ r, ∀ name ∈ p.requiredNames, name ∈ (p.write r).map (·.1)
  described : ∀ r, ∀ m ∈ p.write r, ∃ schema, (m.1, schema) ∈ p.properties ∧ schema.Describes m.2

namespace Fields.WritesDescribed

theorem start (value : α) : (Fields.start value : Fields ρ α).WritesDescribed where
  written _ := .refl _
  given _ _ hname := nomatch hname
  described _ _ hm := nomatch hm

/-- **One more member**, which may be written or not. -/
theorem member {p : Fields ρ (α → β)} (hp : p.WritesDescribed) {name : String}
    {write : ρ → List (String × Json)} {read : Record → Option α} {schema : Schema}
    {required : Bool} {x : ρ → Option Json} (hwrite : ∀ r, write r = ((x r).map (name, ·)).toList)
    (hrequired : required = true → ∀ r, (x r).isSome)
    (hx : ∀ r, ∀ j ∈ x r, schema.Describes j) :
    (p.member name write read schema required).WritesDescribed where
  written r := by
    rw [Fields.member, List.map_append, List.map_append]
    refine (hp.written r).append ?_
    rw [hwrite]
    cases x r <;> simp
  given r name' hname' := by
    rw [Fields.member, List.map_append, List.mem_append]
    rcases Bool.eq_false_or_eq_true required with hr | hr
    · subst hr
      rcases List.mem_append.mp hname' with hname' | hname'
      · exact Or.inl (hp.given r name' hname')
      · obtain ⟨j, hj⟩ := Option.isSome_iff_exists.mp (hrequired rfl r)
        rw [hwrite, hj]
        exact Or.inr hname'
    · subst hr
      exact Or.inl (hp.given r name' hname')
  described r m hm := by
    rcases List.mem_append.mp hm with hm | hm
    · obtain ⟨schema', hmem, hdescribes⟩ := hp.described r m hm
      exact ⟨schema', List.mem_append_left _ hmem, hdescribes⟩
    · rw [hwrite, Option.mem_toList, Option.map_eq_some_iff] at hm
      obtain ⟨j, hj, rfl⟩ := hm
      exact ⟨schema, List.mem_append_right _ (List.mem_singleton_self _), hx r j hj⟩

section Members

variable {name : String} {c : Codec α}

theorem required {p : Fields ρ (α → β)} (hp : p.WritesDescribed) {get : ρ → α}
    (hc : c.WritesDescribed) : (p.required name c get).WritesDescribed :=
  hp.member (x := fun r => some (c.encode (get r))) (fun _ => rfl) (fun _ _ => rfl) fun r j hj => by
    obtain rfl := Option.some.inj hj
    exact hc (get r)

theorem flag {p : Fields ρ (Bool → β)} (hp : p.WritesDescribed) {get : ρ → Bool} :
    (p.flag name get).WritesDescribed := by
  refine hp.member (x := fun r => if get r then some (.bool true) else none) (fun r => ?_) nofun
    fun r j hj => ?_
  · cases get r <;> rfl
  · obtain ⟨-, hj⟩ := Option.ite_none_right_eq_some.mp hj
    obtain rfl := Option.some.inj hj
    exact .boolean true

theorem listing {p : Fields ρ (List α → β)} (hp : p.WritesDescribed) {get : ρ → List α}
    (hc : c.WritesDescribed) : (p.listing name c get).WritesDescribed := by
  refine hp.member (x := fun r => if (get r).isEmpty then none else some (c.list.encode (get r)))
    (fun r => ?_) nofun fun r j hj => ?_
  · cases get r <;> rfl
  · obtain ⟨-, hj⟩ := Option.ite_none_left_eq_some.mp hj
    obtain rfl := Option.some.inj hj
    exact hc.list (get r)

/-- An optional member is written when it is present, however its being missing is read. -/
theorem optionalMember {p : Fields ρ (Option α → β)} (hp : p.WritesDescribed)
    {get : ρ → Option α} {read : Record → Option (Option α)} (hc : c.WritesDescribed) :
    (p.member name (fun r => ((get r).map (fun a => (name, c.encode a))).toList) read
      (.nullable c.schema) false).WritesDescribed := by
  refine hp.member (x := fun r => (get r).map c.encode) (fun r => ?_) nofun fun r j hj => ?_
  · cases get r <;> rfl
  · obtain ⟨a, -, rfl⟩ := Option.map_eq_some_iff.mp hj
    exact .nullable (hc a)

theorem optional {p : Fields ρ (Option α → β)} (hp : p.WritesDescribed) {get : ρ → Option α}
    (hc : c.WritesDescribed) : (p.optional name c get).WritesDescribed := hp.optionalMember hc

theorem omittable {p : Fields ρ (Option α → β)} (hp : p.WritesDescribed) {get : ρ → Option α}
    (hc : c.WritesDescribed) : (p.omittable name c get).WritesDescribed := hp.optionalMember hc

end Members

/-- **A record writes only what its schema describes** if its members do and their names differ. -/
theorem codec {p : Fields ρ ρ} (hp : p.WritesDescribed)
    (hnodup : (p.properties.map (·.1)).Nodup) : p.codec.WritesDescribed := by
  intro r
  refine .object ((hp.written r).nodup hnodup) (hp.given r) (fun m hm => ?_)
    fun m hm e he hname => ?_
  · exact (hp.written r).subset (List.mem_map_of_mem hm)
  · -- Names differ, so the property is the one that the member was written by.
    obtain ⟨schema, hmem, hdescribes⟩ := hp.described r m hm
    have hlookup := SortedMap.lookup_of_mem_of_nodup hnodup hmem
    rw [hname, SortedMap.lookup_of_mem_of_nodup hnodup he] at hlookup
    exact Option.some.inj hlookup ▸ hdescribes

end Fields.WritesDescribed

end ConfigMerge
