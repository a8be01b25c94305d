/-!
# SortedMap — finite maps kept as strictly increasing lists of entries

A `SortedMap α β` lists its entries in the order of their keys, each key once.  So a map has
exactly one representation, its entries come out in key order, and two maps are equal as soon as
they answer every look-up alike (`SortedMap.ext_get?`).  Labels, annotations and the contents of a
store are such maps.
-/

namespace ConfigMerge

/-- A decidable strict total order, which is what the keys of a map need. -/
class KeyOrder (α : Type) extends LT α where
  decidableLT : DecidableLT α
  irrefl : ∀ a : α, ¬ a < a
  trans : ∀ {a b c : α}, a < b → b < c → a < c
  eq_of_not_lt : ∀ {a b : α}, ¬ a < b → ¬ b < a → a = b

instance KeyOrder.instDecidableLT {α : Type} [KeyOrder α] : DecidableLT α :=
  KeyOrder.decidableLT

/-- Texts are ordered by code points. -/
instance : KeyOrder String where
  decidableLT := inferInstance
  irrefl := String.lt_irrefl
  trans := String.lt_trans
  eq_of_not_lt hab hba :=
    String.le_antisymm (String.not_lt.mp hba) (String.not_lt.mp hab)

/-- A finite map, listed by increasing key. -/
structure SortedMap (α β : Type) [KeyOrder α] where
  entries : List (α × β)
  increasing : entries.Pairwise (fun a b => a.1 < b.1)
deriving DecidableEq

namespace SortedMap

variable {α β : Type}

/-! ## Lists of entries -/

/-- The value of the first entry with this key. -/
def lookup [DecidableEq α] (k : α) : List (α × β) → Option β
  | [] => none
  | (k', v) :: rest => if k' = k then some v else lookup k rest

variable [KeyOrder α]

/-- Puts an entry at its place, in the stead of one with the same key. -/
def put (k : α) (v : β) : List (α × β) → List (α × β)
  | [] => [(k, v)]
  | (k', v') :: rest =>
    if k < k' then (k, v) :: (k', v') :: rest
    else if k' < k then (k', v') :: put k v rest
    else (k, v) :: rest

theorem mem_put {k : α} {v : β} {e : α × β} {l : List (α × β)} (h : e ∈ put k v l) :
    e = (k, v) ∨ e ∈ l := by
  fun_induction put k v l <;> grind

theorem pairwise_put (k : α) (v : β) {l : List (α × β)}
    (h : l.Pairwise (fun a b => a.1 < b.1)) :
    (put k v l).Pairwise (fun a b => a.1 < b.1) := by
  induction l with
  | nil => simp [put]
  | cons e rest ih =>
    obtain ⟨k', v'⟩ := e
    rw [List.pairwise_cons] at h
    unfold put
    split
    next hlt =>
      refine List.pairwise_cons.mpr ⟨fun b hb => ?_, List.pairwise_cons.mpr h⟩
      rcases List.mem_cons.mp hb with rfl | hb
      · exact hlt
      · exact KeyOrder.trans hlt (h.1 b hb)
    next hlt =>
      split
      next hgt =>
        refine List.pairwise_cons.mpr ⟨fun b hb => ?_, ih h.2⟩
        rcases mem_put hb with rfl | hb
        · exact hgt
        · exact h.1 b hb
      next hgt =>
        obtain rfl : k = k' := KeyOrder.eq_of_not_lt hlt hgt
        exact List.pairwise_cons.mpr h

/-! ## Operations -/

/-- The map without entries. -/
def empty : SortedMap α β := ⟨[], List.Pairwise.nil⟩

instance : Inhabited (SortedMap α β) := ⟨empty⟩

/-- The keys, in increasing order. -/
def keys (m : SortedMap α β) : List α := m.entries.map (·.1)

/-- The values, by increasing key. -/
def values (m : SortedMap α β) : List β := m.entries.map (·.2)

/-- Sets the value of a key. -/
def insert (m : SortedMap α β) (k : α) (v : β) : SortedMap α β :=
  ⟨put k v m.entries, pairwise_put k v m.increasing⟩

/-- Keeps the entries that pass a test. -/
def filter (p : α → β → Bool) (m : SortedMap α β) : SortedMap α β :=
  ⟨m.entries.filter (fun e => p e.1 e.2), m.increasing.filter _⟩

/-- The map that holds, for each key of a list of entries, the last value given for it. -/
def ofList (l : List (α × β)) : SortedMap α β :=
  l.foldl (fun m e => m.insert e.1 e.2) empty

variable [DecidableEq α]

/-- The value stored for a key. -/
def get? (m : SortedMap α β) (k : α) : Option β := lookup k m.entries

/-- Whether a value is stored for the key. -/
def contains (m : SortedMap α β) (k : α) : Bool := (m.get? k).isSome

/-- Drops the entry of a key. -/
def erase (m : SortedMap α β) (k : α) : SortedMap α β := m.filter (fun k' _ => k' ≠ k)

/-! ## Look-ups after an operation -/

@[simp] theorem get?_empty (k : α) : (empty : SortedMap α β).get? k = none := rfl

theorem lookup_put (k k' : α) (v : β) (l : List (α × β)) :
    lookup k' (put k v l) = if k = k' then some v else lookup k' l := by
  induction l with
  | nil => simp [put, lookup]
  | cons e rest ih =>
    obtain ⟨a, b⟩ := e
    unfold put
    split
    next => simp [lookup]
    next hlt =>
      split
      next hgt =>
        have hne : a ≠ k := fun h => KeyOrder.irrefl k (h ▸ hgt)
        simp only [lookup, ih]
        grind
      next hgt =>
        obtain rfl : k = a := KeyOrder.eq_of_not_lt hlt hgt
        simp only [lookup]
        grind

theorem get?_insert (m : SortedMap α β) (k k' : α) (v : β) :
    (m.insert k v).get? k' = if k = k' then some v else m.get? k' :=
  lookup_put k k' v m.entries

@[simp] theorem get?_insert_self (m : SortedMap α β) (k : α) (v : β) :
    (m.insert k v).get? k = some v := by simp [get?_insert]

omit [KeyOrder α] in
theorem mem_of_lookup {k : α} {v : β} {l : List (α × β)} (h : lookup k l = some v) :
    (k, v) ∈ l := by
  induction l with
  | nil => simp [lookup] at h
  | cons e rest ih => obtain ⟨a, b⟩ := e; grind [lookup]

theorem lookup_of_mem {k : α} {v : β} {l : List (α × β)}
    (hl : l.Pairwise (fun a b => a.1 < b.1)) (h : (k, v) ∈ l) : lookup k l = some v := by
  induction l with
  | nil => simp at h
  | cons e rest ih =>
    obtain ⟨a, b⟩ := e
    rw [List.pairwise_cons] at hl
    rcases List.mem_cons.mp h with h | h
    · simp_all [lookup]
    · have hne : a ≠ k := fun hak => KeyOrder.irrefl k (hak ▸ hl.1 _ h)
      simp [lookup, hne, ih hl.2 h]

/-- **Look-up is membership**: a map answers with `v` exactly when it lists the entry. -/
theorem get?_eq_some_iff {m : SortedMap α β} {k : α} {v : β} :
    m.get? k = some v ↔ (k, v) ∈ m.entries :=
  ⟨mem_of_lookup, lookup_of_mem m.increasing⟩

theorem get?_filter (p : α → β → Bool) (m : SortedMap α β) (k : α) :
    (m.filter p).get? k = (m.get? k).filter (p k) := by
  cases h : m.get? k with
  | none =>
    cases h' : (m.filter p).get? k with
    | none => rfl
    | some v =>
      have := (List.mem_filter.mp (get?_eq_some_iff.mp h')).1
      simp [get?_eq_some_iff.mpr this] at h
  | some v =>
    have hmem := get?_eq_some_iff.mp h
    by_cases hp : p k v
    · rw [Option.filter_some_pos hp]
      exact get?_eq_some_iff.mpr (List.mem_filter.mpr ⟨hmem, hp⟩)
    · rw [Option.filter_some_neg (by simpa using hp)]
      cases h' : (m.filter p).get? k with
      | none => rfl
      | some w =>
        have hw := List.mem_filter.mp (get?_eq_some_iff.mp h')
        have : v = w := by
          have := get?_eq_some_iff.mpr hw.1
          simp_all
        simp_all

theorem get?_erase (m : SortedMap α β) (k k' : α) :
    (m.erase k).get? k' = if k = k' then none else m.get? k' := by
  rw [erase, get?_filter]
  cases m.get? k' <;> grind [Option.filter]

@[simp] theorem get?_erase_self (m : SortedMap α β) (k : α) : (m.erase k).get? k = none := by
  simp [get?_erase]

/-! ## Extensionality -/

omit [DecidableEq α] in
/-- Strictly increasing lists with the same members are the same list. -/
theorem eq_of_pairwise_of_mem {l₁ l₂ : List (α × β)}
    (h₁ : l₁.Pairwise (fun a b => a.1 < b.1)) (h₂ : l₂.Pairwise (fun a b => a.1 < b.1))
    (h : ∀ e, e ∈ l₁ ↔ e ∈ l₂) : l₁ = l₂ := by
  induction l₁ generalizing l₂ with
  | nil =>
    cases l₂ with
    | nil => rfl
    | cons e _ => exact absurd ((h e).mpr (by simp)) (by simp)
  | cons a r₁ ih =>
    cases l₂ with
    | nil => exact absurd ((h a).mp (by simp)) (by simp)
    | cons b r₂ =>
      rw [List.pairwise_cons] at h₁ h₂
      have hab : a = b := by
        rcases List.mem_cons.mp ((h a).mp (by simp)) with hab | ha
        · exact hab
        · rcases List.mem_cons.mp ((h b).mpr (by simp)) with hba | hb
          · exact hba.symm
          · exact absurd (KeyOrder.trans (h₁.1 b hb) (h₂.1 a ha)) (KeyOrder.irrefl _)
      subst hab
      refine congrArg (a :: ·) (ih h₁.2 h₂.2 fun e => ?_)
      constructor
      · intro he
        rcases List.mem_cons.mp ((h e).mp (by simp [he])) with rfl | h'
        · exact absurd (h₁.1 _ he) (KeyOrder.irrefl _)
        · exact h'
      · intro he
        rcases List.mem_cons.mp ((h e).mpr (by simp [he])) with rfl | h'
        · exact absurd (h₂.1 _ he) (KeyOrder.irrefl _)
        · exact h'

/-- **Maps are determined by their answers.** -/
theorem ext_get? {m₁ m₂ : SortedMap α β} (h : ∀ k, m₁.get? k = m₂.get? k) : m₁ = m₂ := by
  cases m₁ with
  | mk l₁ h₁ =>
    cases m₂ with
    | mk l₂ h₂ =>
      have : l₁ = l₂ := eq_of_pairwise_of_mem h₁ h₂ fun ⟨k, v⟩ => by
        have hk : lookup k l₁ = lookup k l₂ := h k
        exact ⟨fun he => mem_of_lookup (hk ▸ lookup_of_mem h₁ he),
          fun he => mem_of_lookup (hk ▸ lookup_of_mem h₂ he)⟩
      subst this
      rfl

end SortedMap

end ConfigMerge
