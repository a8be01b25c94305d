import ConfigMerge.Proofs.Json.Arrangement
import ConfigMerge.Proofs.Json.Wanted

/-!
# Proofs/Codec/ReadsBack — values that are read back as they were written

`Codec.ReadsBack` says of one value that nothing of it is lost on the way into JSON and back: its text
is read as a whole, and in whatever order the members of its objects stand, the value is read from
them.  `Fields.ReadsBack` says so of the members of a record.  Each step by which a form is assembled
keeps this, so it holds for a record type as soon as its members have it.
-/

namespace ConfigMerge

variable {α β ρ : Type}

/-- The value is read back from what is written for it. -/
structure Codec.ReadsBack (c : Codec α) (a : α) : Prop where
  exact : (c.encode a).Exact
  wanted : ∀ depth, c.schema.height ≤ depth → (c.encode a).Wanted depth c.schema.shape
  present : ∀ t : Json.Arrangement, t.apply (c.encode a) ≠ .null
  read : ∀ t : Json.Arrangement, c.decode (t.apply (c.encode a)) = some a

namespace Codec.ReadsBack

/-- **Values that are read back are told apart by their canonical texts.** -/
theorem eq_of_canonicalText {c : Codec α} {a b : α} (ha : c.ReadsBack a) (hb : c.ReadsBack b)
    (h : (c.encode a).canonicalText = (c.encode b).canonicalText) : a = b := by
  have hcanonical : (c.encode a).canonical = (c.encode b).canonical :=
    Json.compact_injective (Json.exact_canonical _ ha.exact) (Json.exact_canonical _ hb.exact) h
  have hread : c.decode (c.encode a).canonical = some a := ha.read .sorted
  rw [hcanonical] at hread
  exact Option.some.inj (hread.symm.trans (hb.read .sorted))

/-! ## Single values -/

theorem text (s : String) : Codec.text.ReadsBack s where
  exact := trivial
  wanted _ _ := Json.wanted_str s
  present t := by simp [Codec.text, t.str]
  read t := by simp [Codec.text, t.str, Json.text?]

theorem boolean (b : Bool) : Codec.boolean.ReadsBack b where
  exact := trivial
  wanted _ _ := Json.wanted_bool b
  present t := by simp [Codec.boolean, t.bool]
  read t := by simp [Codec.boolean, t.bool, Json.bool?]

theorem uint32 (n : UInt32) : Codec.uint32.ReadsBack n where
  exact := trivial
  wanted _ _ := by
    have := n.toNat_lt
    exact Json.wanted_int (by omega) (by omega)
  present t := by simp [Codec.uint32, t.int]
  read t := by
    have := n.toNat_lt
    simp only [Codec.uint32, t.int, uint32?]
    rw [if_pos (by omega)]
    simp

theorem int64 (n : Int64) : Codec.int64.ReadsBack n where
  exact := trivial
  wanted _ _ := by
    have hlow := n.le_toInt
    have hhigh := n.toInt_lt
    exact Json.wanted_int (by omega) (by omega)
  present t := by simp [Codec.int64, t.int]
  read t := by
    have hlow := n.le_toInt
    have hhigh := n.toInt_lt
    simp only [Codec.int64, t.int, int64?]
    rw [if_pos (by omega)]
    simp

/-- A choice is read back if its name stands for it. -/
theorem choice [DecidableEq α] {names : List (String × α)} {a : α} {name : String}
    (hname : (names.find? (·.2 = a)).map (·.1) = some name)
    (ha : SortedMap.lookup name names = some a) : (Codec.choice names).ReadsBack a := by
  have hencode : (Codec.choice names).encode a = .str name := by
    simp [Codec.choice, hname]
  refine ⟨?_, fun _ _ => ?_, fun t => ?_, fun t => ?_⟩
  · rw [hencode]
    trivial
  · rw [hencode]
    exact Json.wanted_str name
  · simp [hencode, t.str]
  · rw [hencode, t.str]
    exact ha

theorem described {c : Codec α} {a : α} (h : c.ReadsBack a) (description : String) :
    (c.described description).ReadsBack a where
  exact := h.exact
  wanted depth hdepth := by
    rw [Codec.described, Schema.shape]
    exact h.wanted depth hdepth
  present := h.present
  read := h.read

/-! ## Lists and dictionaries -/

theorem mapM_map_of_forall {f : α → β} {g : β → Option α} {xs : List α}
    (h : ∀ x ∈ xs, g (f x) = some x) : (xs.map f).mapM g = some xs := by
  induction xs with
  | nil => rfl
  | cons x rest ih =>
    rw [List.map_cons, List.mapM_cons, h x List.mem_cons_self,
      ih fun x' hx' => h x' (List.mem_cons_of_mem x hx')]
    rfl

/-- A list is read back if its items are. -/
theorem list {c : Codec α} {xs : List α} (h : ∀ x ∈ xs, c.ReadsBack x) : c.list.ReadsBack xs where
  exact := by
    refine (Json.exactItems_iff _).mpr fun item hitem => ?_
    obtain ⟨x, hx, rfl⟩ := List.mem_map.mp hitem
    exact (h x hx).exact
  wanted depth hdepth := by
    obtain ⟨depth, rfl⟩ := Nat.exists_eq_succ_of_ne_zero (Nat.ne_zero_of_lt hdepth)
    refine Json.wanted_arr fun item hitem => ?_
    obtain ⟨x, hx, rfl⟩ := List.mem_map.mp hitem
    exact (h x hx).wanted depth (Nat.le_of_succ_le_succ hdepth)
  present t := by simp [Codec.list, t.arr]
  read t := by
    simp only [Codec.list, t.arr, Json.items?, Option.bind_some, List.map_map]
    exact mapM_map_of_forall fun x hx => (h x hx).read t

/-- A dictionary is read back if its values are. -/
theorem dictionary {c : Codec α} {m : SortedMap String α} (h : ∀ e ∈ m.entries, c.ReadsBack e.2) :
    c.dictionary.ReadsBack m where
  exact := by
    refine (Json.exactMembers_iff _).mpr fun e he => ?_
    obtain ⟨e, hmem, rfl⟩ := List.mem_map.mp he
    exact (h e hmem).exact
  wanted depth hdepth := by
    obtain ⟨depth, rfl⟩ := Nat.exists_eq_succ_of_ne_zero (Nat.ne_zero_of_lt hdepth)
    refine Json.wanted_obj fun e he => ?_
    obtain ⟨e, hmem, rfl⟩ := List.mem_map.mp he
    exact ⟨_, rfl, (h e hmem).wanted depth (Nat.le_of_succ_le_succ hdepth)⟩
  present t := by
    have hmembers : (m.entries.map fun e => (e.1, c.encode e.2)).Pairwise fun a b => a.1 < b.1 :=
      List.pairwise_map.mpr m.increasing
    simp [Codec.dictionary, t.dictionary _ hmembers]
  read t := by
    have hmembers : (m.entries.map fun e => (e.1, c.encode e.2)).Pairwise fun a b => a.1 < b.1 :=
      List.pairwise_map.mpr m.increasing
    have hentries : (m.entries.map fun e => (e.1, t.apply (c.encode e.2))).mapM
        (fun e => (c.decode e.2).map (e.1, ·)) = some m.entries :=
      mapM_map_of_forall fun e he => by rw [(h e he).read t]; rfl
    simp only [Codec.dictionary, t.dictionary _ hmembers, entries?, List.map_map]
    exact (congrArg (Option.map SortedMap.ofList) hentries).trans
      (congrArg some (SortedMap.ofList_entries m))

end Codec.ReadsBack

/-! ## Records -/

/-- The members of the record are read back from what is written for it, and give the value. -/
structure Fields.ReadsBack (p : Fields ρ α) (r : ρ) (value : α) : Prop where
  nodup : p.names.Nodup
  properties : p.properties.map (·.1) = p.names
  written : ((p.write r).map (·.1)).Sublist p.names
  exact : ∀ m ∈ p.write r, m.2.Exact
  wanted : ∀ depth, Schema.propertiesHeight p.properties ≤ depth → ∀ m ∈ p.write r,
    ∃ schema, SortedMap.lookup m.1 p.properties = some schema ∧ m.2.Wanted depth schema.shape
  read : ∀ (t : Json.Arrangement) (q : Record), q.positional = false →
    (∀ name ∈ p.names, q.find? name = (SortedMap.lookup name (p.write r)).map t.apply) →
    p.read q = some value

namespace Fields.ReadsBack

theorem start (value : α) (r : ρ) : (Fields.start value : Fields ρ α).ReadsBack r value where
  nodup := List.nodup_nil
  properties := rfl
  written := List.Sublist.refl _
  exact := by simp [Fields.start]
  wanted := by simp [Fields.start]
  read _ _ _ _ := rfl

section Member

variable {p : Fields ρ (α → β)} {r : ρ} {f : α → β} {a : α} (hp : p.ReadsBack r f) {name : String}
  {write : ρ → List (String × Json)} {read : Record → Option α} {schema : Schema} {required : Bool}
  {x : Option Json} (hname : name ∉ p.names) (hwrite : write r = (x.map (name, ·)).toList)

include hname hwrite

/-- One more member leaves what is written for the others. -/
theorem lookup_write_of_mem {name' : String} (hname' : name' ∈ p.names) :
    SortedMap.lookup name' ((p.member name write read schema required).write r) =
      SortedMap.lookup name' (p.write r) := by
  have hnone : SortedMap.lookup name' (write r) = none := by
    have hne : name ≠ name' := fun h => hname (h ▸ hname')
    rw [hwrite]
    cases x <;> simp [SortedMap.lookup, hne]
  rw [Fields.member, SortedMap.lookup_append, hnone, Option.or_none]

include hp

theorem lookup_write_self :
    SortedMap.lookup name ((p.member name write read schema required).write r) = x := by
  have hnone : SortedMap.lookup name (p.write r) = none :=
    SortedMap.lookup_eq_none_of_not_mem fun h => hname (hp.written.subset h)
  rw [Fields.member, SortedMap.lookup_append, hnone, hwrite]
  cases x <;> simp [SortedMap.lookup]

/-- **One more member is read back** if it is by itself, and if its name is a new one.  The member may
be written or not. -/
theorem member (hexact : ∀ j ∈ x, j.Exact)
    (hwanted : ∀ j ∈ x, ∀ depth, schema.height ≤ depth → j.Wanted depth schema.shape)
    (hread : ∀ (t : Json.Arrangement) (q : Record), q.positional = false →
      q.find? name = x.map t.apply → read q = some a) :
    (p.member name write read schema required).ReadsBack r (f a) := by
  have hmem (m : String × Json) : m ∈ write r ↔ ∃ j ∈ x, m = (name, j) := by
    rw [hwrite]
    cases x <;> simp
  have hproperty : SortedMap.lookup name p.properties = none :=
    SortedMap.lookup_eq_none_of_not_mem (hp.properties ▸ hname)
  refine ⟨?_, ?_, ?_, ?_, ?_, fun t q hq hfind => ?_⟩
  · refine List.nodup_append.mpr ⟨hp.nodup, List.pairwise_singleton _ _, fun a ha b hb => ?_⟩
    rintro rfl
    exact hname (List.mem_singleton.mp hb ▸ ha)
  · simp [Fields.member, hp.properties]
  · rw [Fields.member, List.map_append]
    refine hp.written.append ?_
    rw [hwrite]
    cases x <;> simp
  · rintro m hm
    rcases List.mem_append.mp hm with hm | hm
    · exact hp.exact m hm
    · obtain ⟨j, hj, rfl⟩ := (hmem m).mp hm
      exact hexact j hj
  · rintro depth hdepth m hm
    rw [Fields.member, Schema.propertiesHeight_append] at hdepth
    rcases List.mem_append.mp hm with hm | hm
    · obtain ⟨schema', hschema, hwanted'⟩ :=
        hp.wanted depth (Nat.le_trans (Nat.le_max_left _ _) hdepth) m hm
      exact ⟨schema', by rw [Fields.member, SortedMap.lookup_append, hschema]; rfl, hwanted'⟩
    · obtain ⟨j, hj, rfl⟩ := (hmem m).mp hm
      refine ⟨schema, ?_, hwanted j hj depth ?_⟩
      · rw [Fields.member, SortedMap.lookup_append, hproperty]
        simp [SortedMap.lookup]
      · exact Nat.le_trans (Nat.le_max_left _ _) (Nat.le_trans (Nat.le_max_right _ _) hdepth)
  · have hf : p.read q = some f := hp.read t q hq fun name' hname' => by
      rw [hfind name' (List.mem_append_left _ hname'), lookup_write_of_mem hname hwrite hname']
    have ha : read q = some a := hread t q hq <| by
      rw [hfind name (List.mem_append_right _ (List.mem_singleton_self _)),
        hp.lookup_write_self hname hwrite]
    simp only [Fields.member, hf, ha]
    rfl

end Member

section Members

variable {p : Fields ρ (α → β)} {r : ρ} {f : α → β} {name : String} {c : Codec α} {get : ρ → α}

theorem required (hp : p.ReadsBack r f) (hname : name ∉ p.names) (hc : c.ReadsBack (get r)) :
    (p.required name c get).ReadsBack r (f (get r)) := by
  refine hp.member hname (x := some (c.encode (get r))) rfl (by simpa using hc.exact)
    (by simpa using hc.wanted) fun t q _ hfind => ?_
  rw [hfind]
  exact hc.read t

theorem defaulted (hp : p.ReadsBack r f) (hname : name ∉ p.names) (hc : c.ReadsBack (get r))
    (default : α) : (p.defaulted name c default get).ReadsBack r (f (get r)) := by
  refine hp.member hname (x := some (c.encode (get r))) rfl (by simpa using hc.exact)
    (by simpa using hc.wanted) fun t q _ hfind => ?_
  rw [hfind]
  exact hc.read t

end Members

theorem flag {p : Fields ρ (Bool → β)} {r : ρ} {f : Bool → β} {name : String} {get : ρ → Bool}
    (hp : p.ReadsBack r f) (hname : name ∉ p.names) : (p.flag name get).ReadsBack r (f (get r)) := by
  cases hget : get r with
  | false =>
    exact hp.member hname (x := none) (by simp [hget]) (by simp) (by simp) fun t q _ hfind => by
      rw [hfind]
      rfl
  | true =>
    exact hp.member hname (x := some (.bool true)) (by simp [hget]) (by simp [Json.Exact])
      (by simp [Json.wanted_bool]) fun t q _ hfind => by
        rw [hfind, Option.map_some, t.bool]
        rfl

theorem listing {p : Fields ρ (List α → β)} {r : ρ} {f : List α → β} {name : String} {c : Codec α}
    {get : ρ → List α} (hp : p.ReadsBack r f) (hname : name ∉ p.names)
    (hc : ∀ a ∈ get r, c.ReadsBack a) : (p.listing name c get).ReadsBack r (f (get r)) := by
  have hlist := Codec.ReadsBack.list hc
  cases hget : get r with
  | nil =>
    exact hp.member hname (x := none) (by simp [hget]) (by simp) (by simp) fun t q _ hfind => by
      rw [hfind]
      rfl
  | cons first rest =>
    rw [hget] at hlist
    exact hp.member hname (x := some (c.list.encode (first :: rest))) (by simp [hget])
      (by simpa using hlist.exact) (by simpa using hlist.wanted) fun t q _ hfind => by
        rw [hfind]
        exact hlist.read t

theorem readOptional_apply {c : Codec α} {a : α} (hc : c.ReadsBack a) (t : Json.Arrangement) :
    readOptional c (t.apply (c.encode a)) = some (some a) := by
  unfold readOptional
  split
  · next hnull => exact absurd hnull (hc.present t)
  · rw [hc.read t, Option.map_some]

section Optional

variable {p : Fields ρ (Option α → β)} {r : ρ} {f : Option α → β} {name : String} {c : Codec α}
  {get : ρ → Option α} (hp : p.ReadsBack r f) (hname : name ∉ p.names)
  (hc : ∀ a ∈ get r, c.ReadsBack a)

include hp hname hc

/-- An optional member is read back, however its being missing is read. -/
theorem optionalMember {read : Record → Option (Option α)}
    (hmissing : ∀ q : Record, q.positional = false → q.find? name = none → read q = some none)
    (hgiven : ∀ (q : Record) (j : Json), q.find? name = some j → read q = readOptional c j) :
    (p.member name (fun r => ((get r).map (fun a => (name, c.encode a))).toList) read
      (.nullable c.schema) false).ReadsBack r (f (get r)) := by
  cases hget : get r with
  | none =>
    exact hp.member hname (x := none) (by simp [hget]) (by simp) (by simp) fun _ q hq hfind =>
      hmissing q hq hfind
  | some a =>
    have ha := hc a hget
    refine hp.member hname (x := some (c.encode a)) (by simp [hget]) (by simpa using ha.exact)
      ?_ fun t q _ hfind => (hgiven q _ hfind).trans (readOptional_apply ha t)
    rintro j ⟨rfl⟩ depth hdepth
    rw [Schema.shape]
    exact ha.wanted depth hdepth

theorem optional : (p.optional name c get).ReadsBack r (f (get r)) := by
  refine hp.optionalMember hname hc (fun q hq hfind => ?_) fun q j hfind => ?_
  · simp only [hfind, hq, Bool.false_eq_true, if_false]
  · simp only [hfind]

theorem omittable : (p.omittable name c get).ReadsBack r (f (get r)) := by
  refine hp.optionalMember hname hc (fun q _ hfind => ?_) fun q j hfind => ?_
  · simp only [hfind]
  · simp only [hfind]

end Optional

/-! ## Objects -/

variable {p : Fields ρ ρ} {r : ρ}

/-- What is written for a record has no name twice. -/
theorem nodup_write (hp : p.ReadsBack r r) : ((p.write r).map (·.1)).Nodup :=
  hp.written.nodup hp.nodup

/-- **A record is read from any object that has the written members**, whatever else is in it. -/
theorem read_obj (hp : p.ReadsBack r r) (t : Json.Arrangement) {members : List (String × Json)}
    (hnodup : ((members.map (·.1)).filter (p.names.contains ·)).Nodup)
    (hfind : ∀ name ∈ p.names, SortedMap.lookup name members =
      (SortedMap.lookup name (p.write r)).map t.apply) :
    ((Json.obj members).record? p.names).bind p.read = some r := by
  rw [Json.record?, if_pos hnodup, Option.bind_some]
  exact hp.read t _ rfl hfind

/-- A record is read back if its members are. -/
theorem codec (hp : p.ReadsBack r r) : p.codec.ReadsBack r where
  exact := (Json.exactMembers_iff _).mpr hp.exact
  wanted depth hdepth := by
    obtain ⟨depth, rfl⟩ := Nat.exists_eq_succ_of_ne_zero (Nat.ne_zero_of_lt hdepth)
    refine Json.wanted_obj fun m hm => ?_
    obtain ⟨schema, hschema, hwanted⟩ := hp.wanted depth (Nat.le_of_succ_le_succ hdepth) m hm
    exact ⟨schema.shape, by rw [Fields.codec, Schema.member?_shape, hschema]; rfl, hwanted⟩
  present t := by
    obtain ⟨members, hmembers, -, -⟩ := t.obj _ hp.nodup_write
    simp [Fields.codec, hmembers]
  read t := by
    obtain ⟨members, hmembers, hnodup, hfind⟩ := t.obj _ hp.nodup_write
    simp only [Fields.codec, hmembers]
    exact hp.read_obj t (hnodup.filter _) fun name _ => hfind name

end Fields.ReadsBack

/-! ## Records whose members may all be missing -/

/-- …and any of the members alone can be read. -/
structure Fields.ReadsParts (p : Fields ρ α) (r : ρ) (value : α) : Prop extends
    p.ReadsBack r value where
  part : ∀ (t : Json.Arrangement) (q : Record), q.positional = false →
    (∀ name ∈ p.names, q.find? name = none ∨
      q.find? name = (SortedMap.lookup name (p.write r)).map t.apply) →
    (p.read q).isSome

namespace Fields.ReadsParts

theorem start (value : α) (r : ρ) : (Fields.start value : Fields ρ α).ReadsParts r value :=
  ⟨.start value r, fun _ _ _ _ => rfl⟩

/-- One more member can be read alone if it can also be missing. -/
theorem member {p : Fields ρ (α → β)} {r : ρ} {f : α → β} (hp : p.ReadsParts r f) {name : String}
    {write : ρ → List (String × Json)} {read : Record → Option α} {schema : Schema} {required : Bool}
    {x : Option Json} (hname : name ∉ p.names) (hwrite : write r = (x.map (name, ·)).toList) {b : β}
    (hmember : (p.member name write read schema required).ReadsBack r b)
    (hread : ∀ (t : Json.Arrangement) (q : Record), q.positional = false →
      q.find? name = none ∨ q.find? name = x.map t.apply → (read q).isSome) :
    (p.member name write read schema required).ReadsParts r b := by
  refine ⟨hmember, fun t q hq hfind => ?_⟩
  have hf : (p.read q).isSome := hp.part t q hq fun name' hname' => by
    rw [← ReadsBack.lookup_write_of_mem hname hwrite hname']
    exact hfind name' (List.mem_append_left _ hname')
  have ha : (read q).isSome := hread t q hq <| by
    rw [← hp.lookup_write_self hname hwrite]
    exact hfind name (List.mem_append_right _ (List.mem_singleton_self _))
  obtain ⟨f', hf'⟩ := Option.isSome_iff_exists.mp hf
  obtain ⟨a', ha'⟩ := Option.isSome_iff_exists.mp ha
  simp only [Fields.member, hf', ha']
  rfl

theorem omittable {p : Fields ρ (Option α → β)} {r : ρ} {f : Option α → β} {name : String}
    {c : Codec α} {get : ρ → Option α} (hp : p.ReadsParts r f) (hname : name ∉ p.names)
    (hc : ∀ a ∈ get r, c.ReadsBack a) : (p.omittable name c get).ReadsParts r (f (get r)) := by
  refine hp.member hname (x := (get r).map c.encode) (by cases get r <;> rfl)
    (hp.toReadsBack.omittable hname hc) fun t q _ hfind => ?_
  rcases hfind with hfind | hfind
  · simp only [hfind]
    rfl
  · cases hget : get r with
    | none =>
      rw [hget] at hfind
      simp only [hfind]
      rfl
    | some a =>
      rw [hget] at hfind
      simp only [hfind, Option.map_some, ReadsBack.readOptional_apply (hc a hget)]
      rfl

/-- A record is read back if its members are, and each of them can be read alone. -/
theorem objectCodec {p : Fields ρ ρ} {r : ρ} (hp : p.ReadsParts r r) :
    p.objectCodec.ReadsBack r where
  exact := hp.codec.exact
  wanted := hp.codec.wanted
  present := hp.codec.present
  read t := by
    obtain ⟨members, hmembers, hnodup, hfind⟩ := t.obj _ hp.nodup_write
    have heach : p.readsEach members := by
      refine List.all_eq_true.mpr fun m hm => hp.part t _ rfl fun name _ => ?_
      rw [Record.find?, SortedMap.lookup]
      split_ifs with hname
      · exact Or.inr (hfind name ▸ hname ▸ (SortedMap.lookup_of_mem_of_nodup hnodup hm).symm)
      · exact Or.inl rfl
    simp only [Fields.objectCodec, hmembers]
    rw [if_pos heach]
    exact hp.read t _ rfl fun name _ => (SortedMap.get?_ofList hnodup name).trans (hfind name)

end Fields.ReadsParts

end ConfigMerge
