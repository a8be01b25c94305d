import ConfigMerge.Proofs.Json.Members
import ConfigMerge.Proofs.Json.Spelling

/-!
# Proofs/Json/Arrangement — members in another order

What a value says does not depend on the order of the members of its objects.  A `Json.Arrangement`
is a way to put them in some order, with no name repeated: as they were written, or as the canonical
form has them (`Json.Arrangement.sorted`).
-/

namespace ConfigMerge

namespace SortedMap

variable {α β γ : Type} [DecidableEq α]

theorem lookup_append (k : α) (l l' : List (α × β)) :
    lookup k (l ++ l') = (lookup k l).or (lookup k l') := by
  induction l with
  | nil => rfl
  | cons e rest ih =>
    rw [List.cons_append, lookup, lookup]
    split_ifs
    · rfl
    · exact ih

theorem lookup_map (f : β → γ) (k : α) (l : List (α × β)) :
    lookup k (l.map fun e => (e.1, f e.2)) = (lookup k l).map f := by
  induction l with
  | nil => rfl
  | cons e rest ih =>
    rw [List.map_cons, lookup, lookup, ih]
    split_ifs <;> rfl

variable [KeyOrder α]

omit [DecidableEq α] in
theorem mem_of_mem_foldl_insert {m : SortedMap α β} {l : List (α × β)} {e : α × β}
    (h : e ∈ (l.foldl (fun m e => m.insert e.1 e.2) m).entries) : e ∈ m.entries ∨ e ∈ l := by
  induction l generalizing m with
  | nil => exact Or.inl h
  | cons e' rest ih =>
    rcases ih h with hput | hrest
    · rcases mem_put hput with rfl | hmem
      · exact Or.inr List.mem_cons_self
      · exact Or.inl hmem
    · exact Or.inr (List.mem_cons_of_mem e' hrest)

omit [DecidableEq α] in
/-- A map has no entries but those of its list. -/
theorem mem_of_mem_ofList {l : List (α × β)} {e : α × β} (h : e ∈ (ofList l).entries) : e ∈ l :=
  (mem_of_mem_foldl_insert h).resolve_left (List.not_mem_nil)

end SortedMap

namespace Json

/-- A way to put the members of every object in some order.  Members in the order of their names may
only stay where they are. -/
structure Arrangement where
  apply : Json → Json
  bool : ∀ b, apply (.bool b) = .bool b
  int : ∀ n, apply (.int n) = .int n
  str : ∀ s, apply (.str s) = .str s
  arr : ∀ items, apply (.arr items) = .arr (items.map apply)
  obj : ∀ members, (members.map (·.1)).Nodup → ∃ members', apply (.obj members) = .obj members' ∧
    (members'.map (·.1)).Nodup ∧
    ∀ name, SortedMap.lookup name members' = (SortedMap.lookup name members).map apply
  dictionary : ∀ members, members.Pairwise (fun a b => a.1 < b.1) →
    apply (.obj members) = .obj (members.map fun m => (m.1, apply m.2))

/-- Every member stays where it is. -/
def Arrangement.asWritten : Arrangement where
  apply := id
  bool _ := rfl
  int _ := rfl
  str _ := rfl
  arr items := by rw [List.map_id, id]
  obj members hnodup := ⟨members, rfl, hnodup, fun name => (Option.map_id_fun ▸ rfl)⟩
  dictionary members _ := by simp

theorem map_fst_canonicalMembers (members : List (String × Json)) :
    (canonicalMembers members).map (·.1) = members.map (·.1) := by
  rw [canonicalMembers_eq_map, List.map_map]
  rfl

/-- Members go by their names. -/
def Arrangement.sorted : Arrangement where
  apply := canonical
  bool _ := by rw [canonical]
  int _ := by rw [canonical]
  str _ := by rw [canonical]
  arr items := by rw [canonical, canonicalItems_eq_map]
  obj members hnodup := by
    refine ⟨_, by rw [canonical], SortedMap.nodup_keys _, fun name => ?_⟩
    have hnames : ((canonicalMembers members).map (·.1)).Nodup :=
      (map_fst_canonicalMembers members).symm ▸ hnodup
    exact (SortedMap.get?_ofList hnames name).trans
      (canonicalMembers_eq_map members ▸ SortedMap.lookup_map canonical name members)
  dictionary members h := by
    have hmembers : (canonicalMembers members).Pairwise (fun a b => a.1 < b.1) :=
      canonicalMembers_eq_map members ▸ List.pairwise_map.mpr h
    rw [canonical, SortedMap.ofList_entries ⟨canonicalMembers members, hmembers⟩]
    exact congrArg Json.obj (canonicalMembers_eq_map members)

/-! ## The canonical form has no doubles either -/

mutual

theorem exact_canonical : (j : Json) → j.Exact → j.canonical.Exact
  | .null, h | .bool _, h | .int _, h | .str _, h => by
    rw [canonical]
    exact h
  | .float _, h => h.elim
  | .arr items, h => by
    rw [canonical]
    exact exactItems_canonicalItems items h
  | .obj members, h => by
    rw [canonical]
    refine (exactMembers_iff _).mpr fun m hm => ?_
    have hmembers := exactMembers_canonicalMembers members h
    exact (exactMembers_iff _).mp hmembers m (SortedMap.mem_of_mem_ofList hm)

theorem exactItems_canonicalItems : (items : List Json) → ExactItems items →
    ExactItems (canonicalItems items)
  | [], h => h
  | item :: rest, h => ⟨exact_canonical item h.1, exactItems_canonicalItems rest h.2⟩

theorem exactMembers_canonicalMembers : (members : List (String × Json)) → ExactMembers members →
    ExactMembers (canonicalMembers members)
  | [], h => h
  | (_, value) :: rest, h => ⟨exact_canonical value h.1, exactMembers_canonicalMembers rest h.2⟩

end

end Json

end ConfigMerge
