import ConfigMerge.Codec
import ConfigMerge.Json.Patch
import ConfigMerge.Resource.Metadata
import Mathlib.Data.List.Nodup

/-!
# Proofs/Json/Members — members of patched values and of records that were read

A merge patch acts on each member of its target by itself (`Json.member?_patched`), and a record
that was read from an object has in each field what the member of that name stands for
(`Fields.of_read_omittable`).  So what a patch does to one field is told from the patch alone.
`Metadata.of_decode` says this of the fields of metadata that others rely on.
-/

namespace ConfigMerge

/-! ## Maps from their own entries -/

namespace SortedMap

variable {α β : Type} [KeyOrder α] [DecidableEq α]

omit [KeyOrder α] in
theorem lookup_eq_none_of_not_mem {k : α} {l : List (α × β)} (h : k ∉ l.map (·.1)) :
    lookup k l = none := by
  induction l with
  | nil => rfl
  | cons e rest ih =>
    rw [List.map_cons, List.mem_cons, not_or] at h
    rw [lookup, if_neg (Ne.symm h.1), ih h.2]

omit [KeyOrder α] in
/-- An entry is found if its key is given at most once. -/
theorem lookup_of_mem_of_count_le_one {k : α} {v : β} {l : List (α × β)}
    (hl : (l.map (·.1)).count k ≤ 1) (h : (k, v) ∈ l) : lookup k l = some v := by
  induction l with
  | nil => cases h
  | cons e rest ih =>
    rw [List.map_cons, List.count_cons] at hl
    rcases List.mem_cons.mp h with rfl | hmem
    · exact if_pos rfl
    · have hpos : 0 < (rest.map (·.1)).count k :=
        List.count_pos_iff.mpr (List.mem_map.mpr ⟨_, hmem, rfl⟩)
      have hne : e.1 ≠ k := fun heq => by
        rw [if_pos (beq_iff_eq.mpr heq)] at hl
        omega
      rw [lookup, if_neg hne, ih (Nat.le_of_add_right_le hl) hmem]

omit [KeyOrder α] in
theorem lookup_of_mem_of_nodup {k : α} {v : β} {l : List (α × β)} (hl : (l.map (·.1)).Nodup)
    (h : (k, v) ∈ l) : lookup k l = some v :=
  lookup_of_mem_of_count_le_one (List.nodup_iff_count_le_one.mp hl k) h

omit [KeyOrder α] in
theorem isSome_lookup (k : α) (l : List (α × β)) : (lookup k l).isSome = l.any (·.1 = k) := by
  induction l with
  | nil => rfl
  | cons e rest ih =>
    rw [lookup, List.any_cons, ← ih]
    by_cases he : e.1 = k <;> simp [he]

theorem get?_foldl_insert (m : SortedMap α β) {l : List (α × β)} (hl : (l.map (·.1)).Nodup)
    (k : α) :
    (l.foldl (fun m e => m.insert e.1 e.2) m).get? k = (lookup k l).or (m.get? k) := by
  induction l generalizing m with
  | nil => rfl
  | cons e rest ih =>
    obtain ⟨hfirst, hrest⟩ := List.nodup_cons.mp hl
    rw [List.foldl_cons, ih _ hrest, get?_insert, lookup]
    by_cases hk : e.1 = k
    · subst hk
      rw [if_pos rfl, if_pos rfl, lookup_eq_none_of_not_mem hfirst]
      rfl
    · rw [if_neg hk, if_neg hk]

/-- Of entries with different keys, a map answers with each. -/
theorem get?_ofList {l : List (α × β)} (hl : (l.map (·.1)).Nodup) (k : α) :
    (ofList l).get? k = lookup k l := by
  rw [ofList, get?_foldl_insert _ hl, get?_empty, Option.or_none]

omit [DecidableEq α] in
theorem nodup_keys (m : SortedMap α β) : (m.entries.map (·.1)).Nodup :=
  List.pairwise_map.mpr (m.increasing.imp fun {_ b} hlt (heq : _ = b.1) =>
    KeyOrder.irrefl b.1 (heq ▸ hlt))

/-- A map is the one with its entries. -/
@[simp] theorem ofList_entries (m : SortedMap α β) : ofList m.entries = m :=
  ext_get? fun k => get?_ofList m.nodup_keys k

end SortedMap

/-! ## Patches -/

namespace Json

theorem member?_eq (j : Json) (name : String) : j.member? name = j.members?.bind (·.get? name) := by
  cases j <;> rfl

theorem members?_patched (j : Json) (members : List (String × Json)) :
    (j.patched (.obj members)).members? =
      some (patchedMembers (j.members?.getD .empty) members) := by
  rw [patched, members?, SortedMap.ofList_entries]

theorem get?_members?_getD (j : Json) (name : String) :
    (j.members?.getD .empty).get? name = j.member? name := by
  rw [member?_eq]
  cases j.members? <;> rfl

theorem member?_patched (j : Json) (members : List (String × Json)) (name : String) :
    (j.patched (.obj members)).member? name =
      (patchedMembers (j.members?.getD .empty) members).get? name := by
  rw [member?_eq, members?_patched, Option.bind_some]

/-- A patch leaves the members that it does not name. -/
theorem get?_patchedMembers_of_not_mem (m : SortedMap String Json)
    {members : List (String × Json)} {name : String} (h : name ∉ members.map (·.1)) :
    (patchedMembers m members).get? name = m.get? name := by
  induction members generalizing m with
  | nil => rw [patchedMembers]
  | cons e rest ih =>
    obtain ⟨name', value⟩ := e
    rw [List.map_cons, List.mem_cons, not_or] at h
    cases value with
    | null => rw [patchedMembers, ih _ h.2, SortedMap.get?_erase, if_neg (Ne.symm h.1)]
    | bool | int | float | str | arr | obj =>
      rw [patchedMembers, ih _ h.2, SortedMap.get?_insert, if_neg (Ne.symm h.1)]
      simp

theorem member?_patched_of_not_mem (j : Json) {members : List (String × Json)} {name : String}
    (h : name ∉ members.map (·.1)) : (j.patched (.obj members)).member? name = j.member? name := by
  rw [member?_patched, get?_patchedMembers_of_not_mem _ h, get?_members?_getD]

/-- A member that a patch names once, and does not remove, is patched itself. -/
theorem get?_patchedMembers_of_mem (m : SortedMap String Json) {members : List (String × Json)}
    (hnodup : (members.map (·.1)).Nodup) {name : String} {value : Json}
    (h : (name, value) ∈ members) (hvalue : value ≠ .null) :
    (patchedMembers m members).get? name = some (((m.get? name).getD .null).patched value) := by
  induction members generalizing m with
  | nil => cases h
  | cons e rest ih =>
    obtain ⟨name', value'⟩ := e
    obtain ⟨hnew, hrest⟩ := List.nodup_cons.mp hnodup
    rcases List.mem_cons.mp h with heq | hmem
    · obtain ⟨rfl, rfl⟩ := Prod.mk.inj heq
      rw [patchedMembers.eq_3 m name value rest hvalue, get?_patchedMembers_of_not_mem _ hnew,
        SortedMap.get?_insert_self]
    · have hne : name' ≠ name := fun heq => hnew (heq ▸ List.mem_map.mpr ⟨_, hmem, rfl⟩)
      cases value' with
      | null =>
        rw [patchedMembers, ih _ hrest hmem, SortedMap.get?_erase, if_neg hne]
      | bool | int | float | str | arr | obj =>
        rw [patchedMembers, ih _ hrest hmem, SortedMap.get?_insert, if_neg hne]
        simp

/-- **A patch acts on each member that it names by itself.** -/
theorem member?_patched_of_mem (j : Json) {members : List (String × Json)}
    (hnodup : (members.map (·.1)).Nodup) {name : String} {value : Json}
    (h : (name, value) ∈ members) (hvalue : value ≠ .null) :
    (j.patched (.obj members)).member? name =
      some (((j.member? name).getD .null).patched value) := by
  rw [member?_patched, get?_patchedMembers_of_mem _ hnodup h hvalue, get?_members?_getD]

@[simp] theorem patched_str (j : Json) (text : String) : j.patched (.str text) = .str text := by
  simp only [patched]

theorem member?_getD_null (x : Option Json) (name : String) :
    (x.getD .null).member? name = x.bind (·.member? name) := by
  cases x <;> rfl

end Json

/-! ## Records -/

namespace Fields

variable {ρ α β : Type}

/-- An optional value is missing where there is `null`, and read otherwise. -/
theorem of_readOptional {c : Codec α} {j : Json} {a : Option α} (h : readOptional c j = some a) :
    j = .null ∧ a = none ∨ ∃ x, a = some x ∧ c.decode j = some x := by
  cases j with
  | null => exact Or.inl ⟨rfl, (Option.some.inj h).symm⟩
  | bool | int | float | str | arr | obj =>
    obtain ⟨x, hx, ha⟩ := Option.map_eq_some_iff.mp h
    exact Or.inr ⟨x, ha.symm, hx⟩

/-- A record was read from all but the latest member, and that member. -/
theorem of_read_member {p : Fields ρ (α → β)} {name : String} {write : ρ → List (String × Json)}
    {read : Record → Option α} {schema : Schema} {required : Bool} {r : Record} {b : β}
    (h : (p.member name write read schema required).read r = some b) :
    ∃ f a, p.read r = some f ∧ read r = some a ∧ b = f a := by
  simp only [member, Option.bind_eq_bind, Option.bind_eq_some_iff] at h
  obtain ⟨f, hf, a, ha, hb⟩ := h
  exact ⟨f, a, hf, ha, (Option.some.inj hb).symm⟩

theorem of_read_required {p : Fields ρ (α → β)} {name : String} {c : Codec α} {get : ρ → α}
    {r : Record} {b : β} (h : (p.required name c get).read r = some b) :
    ∃ f a j, p.read r = some f ∧ c.decode j = some a ∧ b = f a := by
  obtain ⟨f, a, hf, ha, rfl⟩ := of_read_member h
  obtain ⟨j, -, hj⟩ := Option.bind_eq_some_iff.mp ha
  exact ⟨f, a, j, hf, hj, rfl⟩

/-- What is read for the latest member, and what was read before it. -/
theorem of_read_omittable {p : Fields ρ (Option α → β)} {name : String} {c : Codec α}
    {get : ρ → Option α} {r : Record} {b : β} (h : (p.omittable name c get).read r = some b) :
    ∃ f a, p.read r = some f ∧ b = f a ∧
      ((r.find? name).getD .null = .null ∧ a = none ∨
        ∃ j x, r.find? name = some j ∧ a = some x ∧ c.decode j = some x) := by
  obtain ⟨f, a, hf, ha, rfl⟩ := of_read_member h
  refine ⟨f, a, hf, rfl, ?_⟩
  cases hj : r.find? name with
  | none =>
    rw [hj] at ha
    exact Or.inl ⟨rfl, (Option.some.inj ha).symm⟩
  | some j =>
    rw [hj] at ha
    rcases of_readOptional ha with ⟨rfl, hnone⟩ | ⟨x, hx, hdecode⟩
    · exact Or.inl ⟨rfl, hnone⟩
    · exact Or.inr ⟨j, x, rfl, hx, hdecode⟩

/-- What is read for the latest member was read from something. -/
theorem exists_decode_of_read_omittable {p : Fields ρ (Option α → β)} {name : String} {c : Codec α}
    {get : ρ → Option α} {r : Record} {b : β} (h : (p.omittable name c get).read r = some b) :
    ∃ f a, p.read r = some f ∧ b = f a ∧ ∀ x ∈ a, ∃ j, c.decode j = some x := by
  obtain ⟨f, a, hf, rfl, ⟨-, rfl⟩ | ⟨j, x, -, rfl, hdecode⟩⟩ := of_read_omittable h
  · exact ⟨f, none, hf, rfl, fun _ hx => nomatch hx⟩
  · exact ⟨f, some x, hf, rfl, fun y hy => ⟨j, Option.some.inj hy ▸ hdecode⟩⟩

/-- A text that is read for a member is the text that stands there. -/
theorem of_read_omittable_text {p : Fields ρ (Option String → β)} {name : String}
    {get : ρ → Option String} {r : Record} {b : β}
    (h : (p.omittable name .text get).read r = some b) :
    ∃ f, p.read r = some f ∧ b = f ((r.find? name).bind Json.text?) := by
  obtain ⟨f, a, hf, rfl, ⟨hnone, rfl⟩ | ⟨j, x, hj, rfl, hdecode⟩⟩ := of_read_omittable h
  · refine ⟨f, hf, congrArg f ?_⟩
    cases hj : r.find? name with
    | none => rfl
    | some j =>
      obtain rfl : j = .null := by rwa [hj] at hnone
      rfl
  · rw [hj]
    exact ⟨f, hf, congrArg f hdecode.symm⟩

/-- What is read from an object is read from its members. -/
theorem of_decode_objectCodec {p : Fields ρ ρ} {j : Json} {x : ρ}
    (h : p.objectCodec.decode j = some x) :
    ∃ r : Record, p.read r = some x ∧ ∀ name, r.find? name = j.member? name := by
  cases j with
  | obj members =>
    simp only [objectCodec] at h
    split at h
    · exact ⟨_, h, fun _ => rfl⟩
    · cases h
  | null | bool | int | float | str | arr => cases h

end Fields

/-- Metadata that was read has the version that stands there, and times that were read. -/
theorem Metadata.of_decode {j : Json} {m : Metadata} (h : Metadata.codec.decode j = some m) :
    m.resourceVersion = (j.member? "resourceVersion").bind (·.text?) ∧
      (∀ t ∈ m.creationTimestamp, ∃ j', Timestamp.codec.decode j' = some t) ∧
      ∀ t ∈ m.deletionTimestamp, ∃ j', Timestamp.codec.decode j' = some t := by
  obtain ⟨r, hr, hmember⟩ := Fields.of_decode_objectCodec h
  obtain ⟨f₁₃, owners, h₁₃, rfl, -⟩ := Fields.of_read_omittable hr
  obtain ⟨f₁₂, deletion, h₁₂, rfl, hdeletion⟩ := Fields.exists_decode_of_read_omittable h₁₃
  obtain ⟨f₁₁, creation, h₁₁, rfl, hcreation⟩ := Fields.exists_decode_of_read_omittable h₁₂
  obtain ⟨f₁₀, a₁₀, h₁₀, rfl, -⟩ := Fields.of_read_omittable h₁₁
  obtain ⟨f₉, a₉, h₉, rfl, -⟩ := Fields.of_read_omittable h₁₀
  obtain ⟨f₈, a₈, h₈, rfl, -⟩ := Fields.of_read_omittable h₉
  obtain ⟨f₇, a₇, h₇, rfl, -⟩ := Fields.of_read_omittable h₈
  obtain ⟨f₆, a₆, h₆, rfl, -⟩ := Fields.of_read_omittable h₇
  obtain ⟨f₅, a₅, h₅, rfl, -⟩ := Fields.of_read_omittable h₆
  obtain ⟨f₄, h₄, rfl⟩ := Fields.of_read_omittable_text h₅
  obtain ⟨f₃, a₃, h₃, rfl, -⟩ := Fields.of_read_omittable h₄
  obtain ⟨f₂, a₂, h₂, rfl, -⟩ := Fields.of_read_omittable h₃
  obtain ⟨f₁, a₁, h₁, rfl, -⟩ := Fields.of_read_omittable h₂
  obtain rfl := Option.some.inj h₁
  exact ⟨by rw [← hmember], hcreation, hdeletion⟩

end ConfigMerge
