import ConfigMerge.Proofs.Codec.Admitted
import ConfigMerge.Proofs.Json.Arrangement
import Mathlib.Data.List.Perm.Basic

/-!
# Proofs/Json/Canonical — the canonical text says what a value says, and nothing else

Two values are the same, `Json.Same`, if one becomes the other when the members of its objects are
put into another order.  Sorted entries are what all orders of distinct members have in common
(`SortedMap.ofList_eq_iff`), and compact text can be read back, so the canonical text of a value
without doubles stands for the values that are the same and for no other
(`Json.canonicalText_eq_iff`).
-/

namespace ConfigMerge

/-! ## Maps of distinct entries -/

namespace SortedMap

variable {α β : Type} [DecidableEq α] [KeyOrder α] {l l' : List (α × β)}

/-- A map keeps every entry of a list with different keys. -/
theorem mem_entries_ofList (hl : (l.map (·.1)).Nodup) {e : α × β} :
    e ∈ (ofList l).entries ↔ e ∈ l := by
  constructor
  · intro he
    exact mem_of_mem_ofList he
  · intro he
    rw [← get?_eq_some_iff, get?_ofList hl, lookup_of_mem_of_nodup hl he]

/-- **Lists of distinct entries make one map exactly when they are one list in two orders.** -/
theorem ofList_eq_iff (hl : (l.map (·.1)).Nodup) (hl' : (l'.map (·.1)).Nodup) :
    ofList l = ofList l' ↔ l.Perm l' := by
  rw [List.perm_ext_iff_of_nodup (.of_map _ hl) (.of_map _ hl')]
  constructor
  · intro h e
    rw [← mem_entries_ofList hl, h, mem_entries_ofList hl']
  · intro h
    refine ext_get? fun k => Option.ext fun v => ?_
    rw [get?_eq_some_iff, get?_eq_some_iff, mem_entries_ofList hl, mem_entries_ofList hl', h]

omit [DecidableEq α] in
theorem entries_inj {m m' : SortedMap α β} : m.entries = m'.entries ↔ m = m' := by
  rw [SortedMap.mk.injEq]

end SortedMap

namespace Json

/-! ## Values up to the order of members -/

mutual

/-- The values are equal up to the order of members inside objects. -/
def Same : Json → Json → Prop
  | .arr items, k => ∃ items', k = .arr items' ∧ SameItems items items'
  | .obj members, k => ∃ members' ordered,
    k = .obj members' ∧ SameMembers members ordered ∧ ordered.Perm members'
  | .null, k => k = .null
  | .bool b, k => k = .bool b
  | .int n, k => k = .int n
  | .float x, k => k = .float x
  | .str s, k => k = .str s

/-- The items are equal one by one. -/
def SameItems : List Json → List Json → Prop
  | [], ks => ks = []
  | j :: js, ks => ∃ k ks', ks = k :: ks' ∧ j.Same k ∧ SameItems js ks'

/-- The members are equal one by one. -/
def SameMembers : List (String × Json) → List (String × Json) → Prop
  | [], ns => ns = []
  | (name, j) :: ms, ns => ∃ k ns', ns = (name, k) :: ns' ∧ j.Same k ∧ SameMembers ms ns'

end

/-- Members have the canonical forms of others in some order exactly when they have those of the
others put into some order. -/
theorem canonicalMembers_perm_iff {members members' : List (String × Json)} :
    (canonicalMembers members).Perm (canonicalMembers members') ↔
      ∃ ordered, canonicalMembers members = canonicalMembers ordered ∧ ordered.Perm members' := by
  simp only [canonicalMembers_eq_map]
  exact (iff_of_eq (congrFun (congrFun (List.eq_map_comp_perm _) _) _)).symm

mutual

/-- **Values have one canonical form exactly when they are the same.** -/
theorem canonical_eq_iff : (j k : Json) → j.distinct → k.distinct →
    (j.canonical = k.canonical ↔ j.Same k)
  | .arr items, k, hj, hk => by
    rw [canonical, Same]
    cases k with
    | arr items' =>
      rw [canonical, Json.arr.injEq,
        canonicalItems_eq_iff items items' (distinct_item hj) (distinct_item hk)]
      simp
    | null | bool | int | float | str | obj => simp [canonical]
  | .obj members, k, hj, hk => by
    rw [canonical, Same]
    cases k with
    | obj members' =>
      rw [canonical, Json.obj.injEq, SortedMap.entries_inj, SortedMap.ofList_eq_iff
        (map_fst_canonicalMembers members ▸ nodup_names hj)
        (map_fst_canonicalMembers members' ▸ nodup_names hk), canonicalMembers_perm_iff]
      have hsame : ∀ ordered : List (String × Json), ordered.Perm members' →
          (canonicalMembers members = canonicalMembers ordered ↔ SameMembers members ordered) := by
        intro ordered hperm
        exact canonicalMembers_eq_iff members ordered (distinct_member hj) fun m hm =>
          distinct_member hk m (hperm.subset hm)
      constructor
      · rintro ⟨ordered, heq, hperm⟩
        exact ⟨members', ordered, rfl, (hsame ordered hperm).mp heq, hperm⟩
      · rintro ⟨_, ordered, ⟨⟩, hmembers, hperm⟩
        exact ⟨ordered, (hsame ordered hperm).mpr hmembers, hperm⟩
    | null | bool | int | float | str | arr => simp [canonical]
  | .null, k, _, _ | .bool _, k, _, _ | .int _, k, _, _ | .float _, k, _, _ | .str _, k, _, _ => by
    rw [canonical, Same]
    cases k <;> simp [canonical, eq_comm]

theorem canonicalItems_eq_iff : (js ks : List Json) → (∀ j ∈ js, j.distinct) →
    (∀ k ∈ ks, k.distinct) → (canonicalItems js = canonicalItems ks ↔ SameItems js ks)
  | [], ks, _, _ => by
    cases ks <;> simp [canonicalItems, SameItems]
  | j :: js, ks, hj, hk => by
    cases ks with
    | nil => simp [canonicalItems, SameItems]
    | cons k ks =>
      rw [List.forall_mem_cons] at hj hk
      rw [canonicalItems, canonicalItems, List.cons.injEq, canonical_eq_iff j k hj.1 hk.1,
        canonicalItems_eq_iff js ks hj.2 hk.2, SameItems]
      simp

theorem canonicalMembers_eq_iff : (ms ns : List (String × Json)) → (∀ m ∈ ms, m.2.distinct) →
    (∀ n ∈ ns, n.2.distinct) → (canonicalMembers ms = canonicalMembers ns ↔ SameMembers ms ns)
  | [], ns, _, _ => by
    cases ns <;> simp [canonicalMembers, SameMembers]
  | (name, j) :: ms, ns, hm, hn => by
    cases ns with
    | nil => simp [canonicalMembers, SameMembers]
    | cons n ns =>
      rw [List.forall_mem_cons] at hm hn
      obtain ⟨name', k⟩ := n
      rw [canonicalMembers, canonicalMembers, List.cons.injEq, Prod.mk.injEq,
        canonical_eq_iff j k hm.1 hn.1, canonicalMembers_eq_iff ms ns hm.2 hn.2, SameMembers]
      constructor
      · rintro ⟨⟨rfl, hvalue⟩, hrest⟩
        exact ⟨k, ns, rfl, hvalue, hrest⟩
      · rintro ⟨_, _, ⟨⟩, hvalue, hrest⟩
        exact ⟨⟨rfl, hvalue⟩, hrest⟩

end

/-! ## Texts -/

/-- **The canonical texts of values without doubles are equal exactly when the values are, up to the
order of members**: at any depth, and whatever their keys and strings contain. -/
theorem canonicalText_eq_iff {j k : Json} (hj : j.Exact) (hk : k.Exact) (hj' : j.distinct)
    (hk' : k.distinct) : j.canonicalText = k.canonicalText ↔ j.Same k := by
  rw [← canonical_eq_iff j k hj' hk']
  constructor
  · intro htext
    exact compact_injective (exact_canonical j hj) (exact_canonical k hk) htext
  · intro h
    rw [canonicalText, h, canonicalText]

/-- The text of a nested value stays when its members are reordered, at both depths.  It changes
when items change places, when a key, a string or a number is another one, when a string runs on
into what would follow it, and when a missing member becomes `null`. -/
theorem canonicalText_eq_iff_nested :
    let value (host : String) (members : List (String × Json)) : Json :=
      .obj [("hosts", .arr [.str host, .str "b"]), ("rule", .obj members)]
    let j := value "a" [("path", .str "/"), ("weight", .int 1)]
    let reordered : Json := .obj [("rule", .obj [("weight", .int 1), ("path", .str "/")]),
      ("hosts", .arr [.str "a", .str "b"])]
    let others := [
      .obj [("hosts", .arr [.str "b", .str "a"]),
        ("rule", .obj [("path", .str "/"), ("weight", .int 1)])],
      value "a" [("prefix", .str "/"), ("weight", .int 1)],
      value "A" [("path", .str "/"), ("weight", .int 1)],
      value "a" [("path", .str "/"), ("weight", .int (-1))],
      value "a\",\"b" [("path", .str "/"), ("weight", .int 1)],
      value "a" [("path", .str "/"), ("weight", .int 1), ("timeout", .null)]]
    j.canonicalText = reordered.canonicalText ∧
      ∀ other ∈ others, j.canonicalText ≠ other.canonicalText ∧ ¬ j.Same other := by
  intro value j reordered others
  have hexact : j.Exact ∧ reordered.Exact ∧ ∀ other ∈ others, other.Exact := by
    simp [j, reordered, others, value, Exact, ExactItems, ExactMembers]
  have hdistinct : j.distinct ∧ reordered.distinct ∧ ∀ other ∈ others, other.distinct := by
    decide +kernel
  have hother : ∀ other ∈ others, j.canonicalText ≠ other.canonicalText := by
    decide +kernel
  have hsame : j.Same reordered := by
    refine ⟨_, [_, _], rfl, ⟨_, _, rfl, ?_, _, _, rfl, ?_, rfl⟩, .swap _ _ _⟩
    · exact ⟨_, rfl, _, _, rfl, rfl, _, _, rfl, rfl, rfl⟩
    · exact ⟨_, [_, _], rfl, ⟨_, _, rfl, rfl, _, _, rfl, rfl, rfl⟩, .swap _ _ _⟩
  constructor
  · exact (canonicalText_eq_iff hexact.1 hexact.2.1 hdistinct.1 hdistinct.2.1).mpr hsame
  · intro other hmem
    refine ⟨hother other hmem, fun h => hother other hmem ?_⟩
    exact (canonicalText_eq_iff hexact.1 (hexact.2.2 other hmem) hdistinct.1
      (hdistinct.2.2 other hmem)).mpr h

end Json

end ConfigMerge
