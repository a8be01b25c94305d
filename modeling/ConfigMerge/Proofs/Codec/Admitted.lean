import ConfigMerge.Proofs.Json.Members
import Mathlib.Data.List.Nodup
import Mathlib.Tactic.SplitIfs

/-!
# Proofs/Codec/Admitted — which of the values that a schema admits are read

A schema asks for less than the reader beside it.  It admits every whole number that is not negative
where the reader takes integers of 32 bits, and it says nothing of a member that is given twice.
`Schema.fits` is what is left to ask, and `Codec.ReadsAdmitted` says that it is all: an admitted value is
read exactly when it fits.  Each step by which a form is assembled keeps this, so it holds for a record
type as soon as its members have it.
-/

namespace ConfigMerge

variable {α β ρ : Type}

/-! ## Values that fit -/

namespace Json

mutual

/-- Whether no object of the value gives a name twice. -/
def distinct : Json → Bool
  | .arr items => distinctItems items
  | .obj members => (members.map (·.1)).Nodup && distinctMembers members
  | .null | .bool _ | .int _ | .float _ | .str _ => true

/-- Whether no item repeats a name. -/
def distinctItems : List Json → Bool
  | [] => true
  | item :: rest => item.distinct && distinctItems rest

/-- Whether no member's value repeats a name. -/
def distinctMembers : List (String × Json) → Bool
  | [] => true
  | (_, value) :: rest => value.distinct && distinctMembers rest

end

theorem distinctItems_eq_all (items : List Json) : distinctItems items = items.all distinct := by
  induction items with
  | nil => rfl
  | cons item rest ih => rw [distinctItems, List.all_cons, ih]

theorem distinctMembers_eq_all (members : List (String × Json)) :
    distinctMembers members = members.all (·.2.distinct) := by
  induction members with
  | nil => rfl
  | cons m rest ih => rw [distinctMembers, List.all_cons, ih]

variable {members : List (String × Json)}

theorem nodup_names (h : (Json.obj members).distinct) : (members.map (·.1)).Nodup := by
  rw [distinct, Bool.and_eq_true, decide_eq_true_eq] at h
  exact h.1

theorem distinct_member (h : (Json.obj members).distinct) : ∀ m ∈ members, m.2.distinct := by
  rw [distinct, Bool.and_eq_true, distinctMembers_eq_all, List.all_eq_true] at h
  exact h.2

theorem distinct_item {items : List Json} (h : (Json.arr items).distinct) :
    ∀ item ∈ items, item.distinct := by
  rwa [distinct, distinctItems_eq_all, List.all_eq_true] at h

end Json

namespace Schema

mutual

/-- Whether the integers that a schema describes are written as integers of their width, and every
member that it describes is given at most once. -/
def fits : Schema → Json → Bool
  | .boolean, _ | .text, _ | .choice _, _ => true
  | .uint32, j => j.int?.any (· < 4_294_967_296)
  | .int64, j =>
    j.int?.any (fun n => -9_223_372_036_854_775_808 ≤ n && n < 9_223_372_036_854_775_808)
  | .dictionary values, j =>
    match j with
    | .obj members => members.all (fun m => values.fits m.2)
    | _ => true
  | .list items, j =>
    match j with
    | .arr js => js.all (fun j => items.fits j)
    | _ => true
  | .object properties _, j =>
    match j with
    | .obj members =>
      ((members.map (·.1)).filter ((properties.map (·.1)).contains ·)).Nodup
        && fitsProperties properties members
    | _ => true
  | .nullable schema, j =>
    match j with
    | .null => true
    | j => schema.fits j
  | .described _ schema, j => schema.fits j

/-- Whether every member that is a known property fits. -/
def fitsProperties : List (String × Schema) → List (String × Json) → Bool
  | [], _ => true
  | (name, schema) :: rest, members =>
    members.all (fun m => m.1 ≠ name || schema.fits m.2) && fitsProperties rest members

end

theorem validatesProperties_eq_all (properties : List (String × Schema))
    (members : List (String × Json)) :
    validatesProperties properties members =
      properties.all (fun e => members.all (fun m => m.1 ≠ e.1 || e.2.validates m.2)) := by
  induction properties with
  | nil => rfl
  | cons e rest ih => rw [validatesProperties, List.all_cons, ih]

theorem fitsProperties_eq_all (properties : List (String × Schema))
    (members : List (String × Json)) :
    fitsProperties properties members =
      properties.all (fun e => members.all (fun m => m.1 ≠ e.1 || e.2.fits m.2)) := by
  induction properties with
  | nil => rfl
  | cons e rest ih => rw [fitsProperties, List.all_cons, ih]

end Schema

/-! ## Schemas without integers -/

namespace Schema

mutual

/-- Whether a schema describes no integers. -/
def integerFree : Schema → Bool
  | .boolean | .text | .choice _ => true
  | .uint32 | .int64 => false
  | .dictionary values => values.integerFree
  | .list items => items.integerFree
  | .object properties _ => integerFreeProperties properties
  | .nullable schema | .described _ schema => schema.integerFree

/-- Whether no property has integers. -/
def integerFreeProperties : List (String × Schema) → Bool
  | [] => true
  | (_, schema) :: rest => schema.integerFree && integerFreeProperties rest

end

mutual

/-- **Where there are no integers to describe, every value fits in which no name is repeated.** -/
theorem fits_of_integerFree : ∀ {s : Schema} {j : Json}, s.integerFree → j.distinct → s.fits j
  | .boolean, _, _, _ | .text, _, _, _ | .choice _, _, _, _ => rfl
  | .dictionary values, j, hs, hj => by
    cases j with
    | obj members =>
      exact List.all_eq_true.mpr fun m hm => fits_of_integerFree hs (Json.distinct_member hj m hm)
    | null | bool | int | float | str | arr => rfl
  | .list items, j, hs, hj => by
    cases j with
    | arr js =>
      exact List.all_eq_true.mpr fun j hmem => fits_of_integerFree hs (Json.distinct_item hj j hmem)
    | null | bool | int | float | str | obj => rfl
  | .object properties _, j, hs, hj => by
    cases j with
    | obj members =>
      rw [fits, Bool.and_eq_true, decide_eq_true_eq]
      exact ⟨(Json.nodup_names hj).filter _,
        fitsProperties_of_integerFree hs (Json.distinct_member hj)⟩
    | null | bool | int | float | str | arr => rfl
  | .nullable schema, j, hs, hj => by
    cases j with
    | null => rfl
    | bool | int | float | str | arr | obj => exact fits_of_integerFree (s := schema) hs hj
  | .described _ schema, j, hs, hj => fits_of_integerFree (s := schema) hs hj

theorem fitsProperties_of_integerFree :
    ∀ {properties : List (String × Schema)} {members : List (String × Json)},
      integerFreeProperties properties → (∀ m ∈ members, m.2.distinct) →
        fitsProperties properties members
  | [], _, _, _ => rfl
  | (name, schema) :: rest, members, hs, hm => by
    rw [integerFreeProperties, Bool.and_eq_true] at hs
    rw [fitsProperties, Bool.and_eq_true]
    refine ⟨List.all_eq_true.mpr fun m hmem => ?_, fitsProperties_of_integerFree hs.2 hm⟩
    rw [fits_of_integerFree hs.1 (hm m hmem), Bool.or_true]

end

end Schema

/-! ## Members that are given once -/

theorem Json.nodup_filter_iff {names : List String} {p : String → Bool} :
    (names.filter p).Nodup ↔ ∀ name, p name → names.count name ≤ 1 := by
  rw [List.nodup_iff_count_le_one]
  refine forall_congr' fun name => ?_
  cases hname : p name with
  | false =>
    have hcount : (names.filter p).count name = 0 := by
      rw [List.count_eq_zero]
      simp [hname]
    simp [hcount]
  | true => simp [List.count_filter hname]

/-- All members of a name that is given at most once pass a test if the first does. -/
theorem SortedMap.all_eq_lookup_all {members : List (String × Json)} {name : String}
    (h : (members.map (·.1)).count name ≤ 1) (test : Json → Bool) :
    members.all (fun m => m.1 ≠ name || test m.2) = (lookup name members).all test := by
  rw [Bool.eq_iff_iff, List.all_eq_true, Option.all_eq_true]
  constructor
  · intro hall j hj
    simpa using hall (name, j) (mem_of_lookup hj)
  · rintro hall ⟨name', j⟩ hm
    by_cases hname : name' = name
    · subst hname
      simpa using hall j (lookup_of_mem_of_count_le_one h hm)
    · simp [hname]

/-! ## Single values -/

/-- Items are read together exactly when each of them is. -/
theorem Codec.isSome_mapM {f : α → Option β} {test : α → Bool} {xs : List α}
    (h : ∀ x ∈ xs, (f x).isSome = test x) : (xs.mapM f).isSome = xs.all test := by
  induction xs with
  | nil => rfl
  | cons x rest ih =>
    rw [List.mapM_cons, List.all_cons, ← h x List.mem_cons_self,
      ← ih fun x' hx' => h x' (List.mem_cons_of_mem x hx')]
    cases f x with
    | none => rfl
    | some y => cases rest.mapM f <;> rfl

/-- An admitted value is read exactly when it fits. -/
def Codec.ReadsAdmitted (c : Codec α) : Prop :=
  ∀ j, c.schema.validates j → (c.decode j).isSome = c.schema.fits j

namespace Codec.ReadsAdmitted

theorem text : Codec.text.ReadsAdmitted := fun _ hj => hj

theorem boolean : Codec.boolean.ReadsAdmitted := fun _ hj => hj

theorem uint32 : Codec.uint32.ReadsAdmitted := by
  intro j hj
  cases j with
  | int n =>
    have hn : 0 ≤ n := of_decide_eq_true hj
    change (if 0 ≤ n ∧ n < 4_294_967_296 then some (UInt32.ofNat n.toNat) else none).isSome =
      decide (n < 4_294_967_296)
    by_cases hlt : n < 4_294_967_296 <;> simp [hn, hlt]
  | null | bool | float | str | arr | obj => rfl

theorem choice [DecidableEq α] (names : List (String × α)) : (Codec.choice names).ReadsAdmitted := by
  intro j hj
  cases j with
  | str s =>
    change (SortedMap.lookup s names).isSome = true
    rw [SortedMap.isSome_lookup, List.any_eq_true]
    obtain ⟨e, he, rfl⟩ := List.mem_map.mp (List.contains_iff_mem.mp hj)
    exact ⟨e, he, decide_eq_true rfl⟩
  | null | bool | int | float | arr | obj => cases hj

theorem described {c : Codec α} (hc : c.ReadsAdmitted) (description : String) :
    (c.described description).ReadsAdmitted := hc

theorem list {c : Codec α} (hc : c.ReadsAdmitted) : c.list.ReadsAdmitted := by
  intro j hj
  cases j with
  | arr js =>
    have hvalid : ∀ j ∈ js, c.schema.validates j := List.all_eq_true.mp hj
    exact Codec.isSome_mapM fun j hmem => hc j (hvalid j hmem)
  | null | bool | int | float | str | obj => cases hj

end Codec.ReadsAdmitted

/-! ## Records -/

/-- Whether every property that the record gives passes a test of its schema. -/
def Record.all (q : Record) (properties : List (String × Schema)) (test : Schema → Json → Bool) :
    Bool :=
  properties.all (fun e => (q.find? e.1).all (test e.2))

/-- From a record that gives what is required, and admitted values only, it is read exactly when the
values fit. -/
structure Fields.ReadsAdmitted (p : Fields ρ α) : Prop where
  properties : p.properties.map (·.1) = p.names
  read : ∀ q : Record, q.positional = false →
    (∀ name ∈ p.requiredNames, (q.find? name).isSome) → q.all p.properties Schema.validates →
      (p.read q).isSome = q.all p.properties Schema.fits

namespace Fields

theorem isSome_read_member (p : Fields ρ (α → β)) (name : String)
    (write : ρ → List (String × Json)) (read : Record → Option α) (schema : Schema) (required : Bool)
    (q : Record) :
    ((p.member name write read schema required).read q).isSome =
      ((p.read q).isSome && (read q).isSome) := by
  simp only [member]
  cases p.read q with
  | none => rfl
  | some f => cases read q <;> rfl

/-- A record is read from an object with each of its names at most once. -/
theorem isSome_decode_codec (p : Fields ρ ρ) (members : List (String × Json)) :
    (p.codec.decode (.obj members)).isSome =
      (decide ((members.map (·.1)).filter (p.names.contains ·)).Nodup &&
        (p.read ⟨members, false⟩).isSome) := by
  simp only [codec, Json.record?]
  split_ifs with hnodup
  · rw [decide_eq_true hnodup]
    rfl
  · rw [decide_eq_false hnodup]
    rfl

namespace ReadsAdmitted

theorem start (value : α) : (Fields.start value : Fields ρ α).ReadsAdmitted :=
  ⟨rfl, fun _ _ _ _ => rfl⟩

/-- **One more member**: what is read for it has to be there exactly when its value fits. -/
theorem member {p : Fields ρ (α → β)} (hp : p.ReadsAdmitted) {name : String}
    {write : ρ → List (String × Json)} {read : Record → Option α} {schema : Schema} {required : Bool}
    (hread : ∀ q : Record, q.positional = false → (required → (q.find? name).isSome) →
      (q.find? name).all schema.validates → (read q).isSome = (q.find? name).all schema.fits) :
    (p.member name write read schema required).ReadsAdmitted where
  properties := by simp [Fields.member, hp.properties]
  read q hq hrequired hvalid := by
    have hnames : ∀ name' ∈ p.requiredNames, (q.find? name').isSome := fun name' hname' =>
      hrequired name' (by
        simp only [Fields.member]
        split_ifs
        · exact List.mem_append_left _ hname'
        · exact hname')
    have hname (h : required = true) : (q.find? name).isSome :=
      hrequired name (by simp [Fields.member, h])
    have hsplit (test : Schema → Json → Bool) :
        q.all (p.member name write read schema required).properties test =
          (q.all p.properties test && (q.find? name).all (test schema)) := by
      simp [Record.all, Fields.member, List.all_append]
    rw [hsplit, Bool.and_eq_true] at hvalid
    rw [isSome_read_member, hsplit, hp.read q hq hnames hvalid.1, hread q hq hname hvalid.2]

theorem required {p : Fields ρ (α → β)} (hp : p.ReadsAdmitted) {name : String} {c : Codec α}
    {get : ρ → α} (hc : c.ReadsAdmitted) : (p.required name c get).ReadsAdmitted :=
  hp.member fun q _ hgiven hvalid => by
    obtain ⟨j, hj⟩ := Option.isSome_iff_exists.mp (hgiven rfl)
    rw [hj] at hvalid ⊢
    exact hc j hvalid

theorem flag {p : Fields ρ (Bool → β)} (hp : p.ReadsAdmitted) {name : String} {get : ρ → Bool} :
    (p.flag name get).ReadsAdmitted :=
  hp.member fun q _ _ hvalid => by
    cases hj : q.find? name with
    | none => rfl
    | some j =>
      rw [hj] at hvalid
      exact Codec.ReadsAdmitted.boolean j hvalid

theorem listing {p : Fields ρ (List α → β)} (hp : p.ReadsAdmitted) {name : String} {c : Codec α}
    {get : ρ → List α} (hc : c.ReadsAdmitted) : (p.listing name c get).ReadsAdmitted :=
  hp.member fun q _ _ hvalid => by
    cases hj : q.find? name with
    | none => rfl
    | some j =>
      rw [hj] at hvalid
      exact hc.list j hvalid

/-- A value that may be `null` is read exactly when it fits. -/
theorem isSome_readOptional {c : Codec α} (hc : c.ReadsAdmitted) {j : Json}
    (hj : (Schema.nullable c.schema).validates j) :
    (readOptional c j).isSome = (Schema.nullable c.schema).fits j := by
  cases j with
  | null => rfl
  | bool | int | float | str | arr | obj => exact (Option.isSome_map ..).trans (hc _ hj)

theorem optional {p : Fields ρ (Option α → β)} (hp : p.ReadsAdmitted) {name : String} {c : Codec α}
    {get : ρ → Option α} (hc : c.ReadsAdmitted) : (p.optional name c get).ReadsAdmitted :=
  hp.member fun q hq _ hvalid => by
    cases hj : q.find? name with
    | none => simp [hq]
    | some j =>
      rw [hj] at hvalid
      exact isSome_readOptional hc hvalid

theorem omittable {p : Fields ρ (Option α → β)} (hp : p.ReadsAdmitted) {name : String} {c : Codec α}
    {get : ρ → Option α} (hc : c.ReadsAdmitted) : (p.omittable name c get).ReadsAdmitted :=
  hp.member fun q _ _ hvalid => by
    cases hj : q.find? name with
    | none => rfl
    | some j =>
      rw [hj] at hvalid
      exact isSome_readOptional hc hvalid

section Object

variable {p : Fields ρ ρ}

/-- What holds of all members of the known names holds of what is found under these. -/
theorem all_eq_find?_all (hp : p.ReadsAdmitted) {members : List (String × Json)}
    (hnodup : ((members.map (·.1)).filter (p.names.contains ·)).Nodup)
    (test : Schema → Json → Bool) :
    p.properties.all (fun e => members.all (fun m => m.1 ≠ e.1 || test e.2 m.2)) =
      Record.all ⟨members, false⟩ p.properties test := by
  rw [Record.all, Bool.eq_iff_iff, List.all_eq_true, List.all_eq_true]
  refine forall₂_congr fun e he => ?_
  have hname : p.names.contains e.1 := by
    rw [← hp.properties]
    exact List.contains_iff_mem.mpr (List.mem_map.mpr ⟨e, he, rfl⟩)
  rw [SortedMap.all_eq_lookup_all (Json.nodup_filter_iff.mp hnodup e.1 hname)]
  rfl

/-- **An admitted record is read exactly when it fits.** -/
theorem codec (hp : p.ReadsAdmitted) : p.codec.ReadsAdmitted := by
  intro j hj
  cases j with
  | obj members =>
    simp only [Fields.codec, Schema.validates, Bool.and_eq_true,
      Schema.validatesProperties_eq_all] at hj
    obtain ⟨hrequired, hvalid⟩ := hj
    have hgiven : ∀ name ∈ p.requiredNames, (Record.find? ⟨members, false⟩ name).isSome :=
      fun name hname => by
        rw [Record.find?, SortedMap.isSome_lookup]
        exact List.all_eq_true.mp hrequired name hname
    rw [isSome_decode_codec]
    simp only [Fields.codec, Schema.fits, Schema.fitsProperties_eq_all, hp.properties]
    by_cases hnodup : ((members.map (·.1)).filter (p.names.contains ·)).Nodup
    · rw [hp.all_eq_find?_all hnodup] at hvalid ⊢
      rw [hp.read _ rfl hgiven hvalid]
    · rw [decide_eq_false hnodup, Bool.false_and, Bool.false_and]
  | null | bool | int | float | str | arr => cases hj

end Object

end ReadsAdmitted

end Fields

end ConfigMerge
