import ConfigMerge.Json.Reader
import ConfigMerge.Json.Text
import Mathlib.Tactic.Common

/-!
# Proofs/Json/Spelling — compact text is read back as it was written

`Json.spelled` is a value as its compact text spells it: code points for texts and digits for
numbers.  The reader finds exactly that in the text and stops right after it
(`Json.readValue_chars`), so a value without doubles is determined by its compact text
(`Json.compact_injective`).
-/

namespace ConfigMerge.Json

/-! ## Strings -/

/-- A control character is read back from its escape. -/
theorem hexUnit?_of_lt : ∀ n < 32,
    hexUnit? '0' '0' (hexDigit (n / 16)) (hexDigit (n % 16)) = some n := by
  decide

theorem readString_of_plain {c : Char} (hquote : c ≠ '"') (hescape : c ≠ '\\')
    (hcontrol : ¬ c.toNat < 32) (s : List Char) :
    readString (c :: s) = (readString s).map fun r => (c.toNat :: r.1, r.2) := by
  rw [readString]
  · simp only [hescape, hcontrol, or_self, if_false]
    cases readString s <;> rfl
  all_goals simp_all

/-- A one-letter escape is read back as the character that it stands for. -/
theorem readString_of_escaped {letter c : Char} (hletter : letter ≠ 'u')
    (hescaped : escaped? letter = some c) (s : List Char) :
    readString ('\\' :: letter :: s) = (readString s).map fun r => (c.toNat :: r.1, r.2) := by
  rw [readString]
  · simp only [hescaped, Option.bind_eq_bind, Option.bind_some]
    cases readString s <;> rfl
  · simp_all

/-- …and so is a control character from its code. -/
theorem readString_of_control {n : Nat} (h : n < 32) (s : List Char) :
    readString ('\\' :: 'u' :: '0' :: '0' :: hexDigit (n / 16) :: hexDigit (n % 16) :: s) =
      (readString s).map fun r => (n :: r.1, r.2) := by
  rw [readString, hexUnit?_of_lt n h, Option.bind_eq_bind, Option.bind_some]
  cases readString s <;> rfl

/-- **A character is read back**, however it is escaped. -/
theorem readString_escapeChar (c : Char) (s : List Char) :
    readString (escapeChar c ++ s) = (readString s).map fun r => (c.toNat :: r.1, r.2) := by
  unfold escapeChar
  split_ifs with hquote hescape hnewline hreturn htab hback hfeed hcontrol
  · subst hquote
    exact readString_of_escaped (by decide) rfl s
  · subst hescape
    exact readString_of_escaped (by decide) rfl s
  · exact hnewline ▸ readString_of_escaped (by decide) rfl s
  · exact hreturn ▸ readString_of_escaped (by decide) rfl s
  · exact htab ▸ readString_of_escaped (by decide) rfl s
  · exact hback ▸ readString_of_escaped (by decide) rfl s
  · exact hfeed ▸ readString_of_escaped (by decide) rfl s
  · exact readString_of_control hcontrol s
  · exact readString_of_plain hquote hescape hcontrol s

/-- **A quoted text is read back**, after its opening quotation mark. -/
theorem readString_quoted (cs s : List Char) :
    readString (cs.flatMap escapeChar ++ '"' :: s) = some (cs.map Char.toNat, s) := by
  induction cs with
  | nil => rfl
  | cons c rest ih =>
    rw [List.flatMap_cons, List.append_assoc, readString_escapeChar, ih]
    rfl

/-- A character is no half of a surrogate pair. -/
theorem not_isSurrogate (c : Char) :
    isHighSurrogate c.toNat = false ∧ isLowSurrogate c.toNat = false := by
  have hvalid : c.toNat < 0xD800 ∨ 0xDFFF < c.toNat := c.valid.imp id And.left
  simp only [isHighSurrogate, isLowSurrogate, Bool.and_eq_false_iff, decide_eq_false_iff_not]
  omega

/-- The code points of characters stand for these characters. -/
theorem charsOf?_map_toNat (cs : List Char) : charsOf? (cs.map Char.toNat) = some cs := by
  induction cs with
  | nil => rfl
  | cons c rest ih =>
    cases rest with
    | nil => simp [charsOf?, not_isSurrogate]
    | cons d rest =>
      rw [List.map_cons] at ih
      simp [charsOf?, not_isSurrogate, ih]

theorem textOf?_toList (s : String) : textOf? (s.toList.map Char.toNat) = some s := by
  rw [textOf?, charsOf?_map_toNat, Option.map_some, String.ofList_toList]

/-! ## Numbers -/

/-- An integer as its digits spell it. -/
def numeral (n : Int) : Numeral := ⟨n < 0, Nat.toDigits 10 n.natAbs, [], none⟩

/-- What may follow a value inside another one, or nothing. -/
def Follows (s : List Char) : Prop := s = [] ∨ ∃ c rest, s = c :: rest ∧ (c = ',' ∨ c = ']' ∨ c = '}')

theorem spanDigits_append {ds s : List Char} (hds : ∀ c ∈ ds, c.isDigit) (hs : Follows s) :
    spanDigits (ds ++ s) = (ds, s) := by
  have hstop : s.takeWhile Char.isDigit = [] ∧ s.dropWhile Char.isDigit = s := by
    rcases hs with rfl | ⟨c, rest, rfl, rfl | rfl | rfl⟩ <;> exact ⟨rfl, rfl⟩
  rw [spanDigits, List.takeWhile_append_of_pos hds, List.dropWhile_append_of_pos hds, hstop.1,
    hstop.2, List.append_nil]

theorem head?_digitChar : ∀ n < 10, 0 < n → [Nat.digitChar n].head? ≠ some '0' := by decide

/-- Digits have no leading zero, unless they are zero. -/
theorem head?_toDigits {n : Nat} (h : 0 < n) : (Nat.toDigits 10 n).head? ≠ some '0' := by
  induction n using Nat.strongRecOn with
  | ind n ih =>
    by_cases hn : n < 10
    · rw [Nat.toDigits_of_lt_base hn]
      exact head?_digitChar n hn h
    · have hrest := ih (n / 10) (by omega) (by omega)
      obtain ⟨c, cs, hcs⟩ := List.exists_cons_of_ne_nil (Nat.toDigits_ne_nil (n := n / 10) (b := 10))
      rw [Nat.toDigits_of_base_le (by decide) (by omega), hcs]
      rwa [hcs] at hrest

theorem readFraction_of_follows {s : List Char} (hs : Follows s) : readFraction s = some ([], s) := by
  rcases hs with rfl | ⟨c, rest, rfl, rfl | rfl | rfl⟩ <;> rfl

theorem readExponent_of_follows {s : List Char} (hs : Follows s) :
    readExponent s = some (none, s) := by
  rcases hs with rfl | ⟨c, rest, rfl, rfl | rfl | rfl⟩ <;> rfl

/-- The digits of a number are read back, whatever its sign. -/
theorem readNumber_toDigits (negative : Bool) (n : Nat) {s : List Char} (hs : Follows s) :
    (do
      let (whole, s) := spanDigits (Nat.toDigits 10 n ++ s)
      if whole.isEmpty ∨ (whole.head? = some '0' ∧ 1 < whole.length) then none
      else
        let (fraction, s) ← readFraction s
        let (power, s) ← readExponent s
        return (⟨negative, whole, fraction, power⟩, s) : Option (Numeral × List Char)) =
      some (⟨negative, Nat.toDigits 10 n, [], none⟩, s) := by
  rw [spanDigits_append (fun c hc => Nat.isDigit_of_mem_toDigits (by decide) (by decide) hc) hs]
  have hdigits : ¬ ((Nat.toDigits 10 n).isEmpty = true ∨
      ((Nat.toDigits 10 n).head? = some '0' ∧ 1 < (Nat.toDigits 10 n).length)) := by
    rintro (hnil | ⟨hzero, hlong⟩)
    · exact Nat.toDigits_ne_nil (List.isEmpty_iff.mp hnil)
    · rcases Nat.eq_zero_or_pos n with rfl | hpos
      · exact absurd hlong (by decide)
      · exact head?_toDigits hpos hzero
  dsimp only
  rw [if_neg hdigits, readFraction_of_follows hs, Option.bind_eq_bind, Option.bind_some]
  dsimp only
  rw [readExponent_of_follows hs]
  rfl

/-- **An integer is read back.** -/
theorem readNumber_intChars (n : Int) {s : List Char} (hs : Follows s) :
    readNumber (intChars n ++ s) = some (numeral n, s) := by
  by_cases hn : n < 0
  · rw [intChars, if_pos hn, numeral, decide_eq_true hn]
    exact readNumber_toDigits true n.natAbs hs
  · rw [intChars, if_neg hn, numeral, decide_eq_false hn, ← readNumber_toDigits false n.natAbs hs]
    obtain ⟨c, cs, hcs⟩ := List.exists_cons_of_ne_nil (Nat.toDigits_ne_nil (n := n.natAbs) (b := 10))
    have hdigit : c.isDigit := Nat.isDigit_of_mem_toDigits (b := 10) (n := n.natAbs) (by decide)
      (by decide) (hcs ▸ List.mem_cons_self)
    have hsign : c ≠ '-' := by
      rintro rfl
      exact absurd hdigit (by decide)
    rw [readNumber]
    rintro rest heq
    rw [hcs] at heq
    exact hsign (List.cons.inj heq).1

/-! ## Values -/

mutual

/-- The value has no doubles in it. -/
def Exact : Json → Prop
  | .float _ => False
  | .arr items => ExactItems items
  | .obj members => ExactMembers members
  | .null | .bool _ | .int _ | .str _ => True

/-- No item has doubles in it. -/
def ExactItems : List Json → Prop
  | [] => True
  | item :: rest => item.Exact ∧ ExactItems rest

/-- No member's value has doubles in it. -/
def ExactMembers : List (String × Json) → Prop
  | [] => True
  | (_, value) :: rest => value.Exact ∧ ExactMembers rest

end

theorem exactItems_iff (items : List Json) : ExactItems items ↔ ∀ item ∈ items, item.Exact := by
  induction items with
  | nil => simp [ExactItems]
  | cons item rest ih => simp [ExactItems, ih]

theorem exactMembers_iff (members : List (String × Json)) :
    ExactMembers members ↔ ∀ m ∈ members, m.2.Exact := by
  induction members with
  | nil => simp [ExactMembers]
  | cons m rest ih => simp [ExactMembers, ih]

mutual

/-- A value as its compact text spells it; a double as nothing. -/
def spelled : Json → Written
  | .null | .float _ => .null
  | .bool b => .bool b
  | .int n => .number (numeral n)
  | .str s => .str (s.toList.map Char.toNat)
  | .arr items => .arr (spelledItems items)
  | .obj members => .obj (spelledMembers members)

/-- Items as their texts spell them. -/
def spelledItems : List Json → List Written
  | [] => []
  | item :: rest => item.spelled :: spelledItems rest

/-- Members as their texts spell them. -/
def spelledMembers : List (String × Json) → List (List Nat × Written)
  | [] => []
  | (name, value) :: rest => (name.toList.map Char.toNat, value.spelled) :: spelledMembers rest

end

/-- No number begins with one of these characters. -/
theorem not_number_of_mem : ∀ c ∈ [' ', '\n', '\t', '\r', '"', '[', ']', '{', 'n', 't', 'f'],
    ¬ (c = '-' ∨ c.isDigit) := by
  simp [Char.isDigit]

section Number

variable {c : Char} (hc : c = '-' ∨ c.isDigit)

include hc

theorem ne_of_number {d : Char} (hd : d ∈ [' ', '\n', '\t', '\r', '"', '[', ']', '{', 'n', 't', 'f']) :
    c ≠ d := by
  rintro rfl
  exact not_number_of_mem c hd hc

theorem isBlank_of_number : isBlank c = false := by
  have hspace := ne_of_number hc (d := ' ') (by decide)
  have hnewline := ne_of_number hc (d := '\n') (by decide)
  have htab := ne_of_number hc (d := '\t') (by decide)
  have hreturn := ne_of_number hc (d := '\r') (by decide)
  simp [isBlank, hspace, hnewline, htab, hreturn]

end Number

theorem skipBlanks_cons {c : Char} (hc : isBlank c = false) (s : List Char) :
    skipBlanks (c :: s) = c :: s :=
  List.dropWhile_cons_of_neg (by simp [hc])

/-- A number is read where one begins. -/
theorem readValue_of_number {c : Char} (hc : c = '-' ∨ c.isDigit) (fuel : Nat) (s : List Char) :
    readValue (fuel + 1) (c :: s) = (readNumber (c :: s)).map fun r => (.number r.1, r.2) := by
  have hquote := ne_of_number hc (d := '"') (by decide)
  have harr := ne_of_number hc (d := '[') (by decide)
  have hobj := ne_of_number hc (d := '{') (by decide)
  have hn := ne_of_number hc (d := 'n') (by decide)
  have ht := ne_of_number hc (d := 't') (by decide)
  have hf := ne_of_number hc (d := 'f') (by decide)
  rw [readValue, skipBlanks_cons (isBlank_of_number hc)]
  split <;> simp_all

theorem intChars_cons (n : Int) : ∃ c cs, intChars n = c :: cs ∧ (c = '-' ∨ c.isDigit) := by
  by_cases hn : n < 0
  · exact ⟨'-', _, if_pos hn, Or.inl rfl⟩
  · obtain ⟨c, cs, hcs⟩ := List.exists_cons_of_ne_nil (Nat.toDigits_ne_nil (n := n.natAbs) (b := 10))
    refine ⟨c, cs, (if_neg hn).trans hcs, Or.inr ?_⟩
    exact Nat.isDigit_of_mem_toDigits (b := 10) (n := n.natAbs) (by decide) (by decide)
      (hcs ▸ List.mem_cons_self)

/-- The text of a value begins with what is neither blank nor a closing bracket. -/
theorem chars_cons : (j : Json) → j.Exact →
    ∃ c cs, j.chars = c :: cs ∧ isBlank c = false ∧ c ≠ ']'
  | .null, _ | .bool true, _ | .bool false, _ => ⟨_, _, rfl, by decide, by decide⟩
  | .str _, _ | .arr _, _ | .obj _, _ => ⟨_, _, rfl, by decide, by decide⟩
  | .float _, h => h.elim
  | .int n, _ => by
    obtain ⟨c, cs, hcs, hc⟩ := intChars_cons n
    exact ⟨c, cs, hcs, isBlank_of_number hc, ne_of_number hc (by decide)⟩

/-- Items are read after a bracket that is not closed at once. -/
theorem readValue_of_items {c : Char} (hblank : isBlank c = false) (hclose : c ≠ ']')
    {text : List Char} (htext : ∃ cs, text = c :: cs) (fuel : Nat) :
    readValue (fuel + 1) ('[' :: text) = (readItems fuel text).map fun r => (.arr r.1, r.2) := by
  obtain ⟨cs, rfl⟩ := htext
  rw [readValue, skipBlanks_cons (c := '[') (by decide)]
  simp only [skipBlanks_cons hblank]
  split
  · simp_all
  · cases readItems fuel (c :: cs) <;> rfl

/-- Members are read after a brace that a name follows. -/
theorem readValue_of_members {text : List Char} (htext : ∃ cs, text = '"' :: cs) (fuel : Nat) :
    readValue (fuel + 1) ('{' :: text) = (readMembers fuel text).map fun r => (.obj r.1, r.2) := by
  obtain ⟨cs, rfl⟩ := htext
  rw [readValue, skipBlanks_cons (c := '{') (by decide)]
  simp only [skipBlanks_cons (c := '"') (by decide)]
  cases readMembers fuel ('"' :: cs) <;> rfl

theorem follows_cons {c : Char} (hc : c = ',' ∨ c = ']' ∨ c = '}') (s : List Char) :
    Follows (c :: s) :=
  Or.inr ⟨c, s, rfl, hc⟩

theorem quote_append (name : String) (s : List Char) :
    quote name ++ s = '"' :: (name.toList.flatMap escapeChar ++ '"' :: s) := by
  simp [quote]

section Reading

variable {fuel : Nat} {text s r : List Char} {value : Written}

theorem readItems_last (h : readValue fuel (text ++ ']' :: s) = some (value, ']' :: s)) :
    readItems (fuel + 1) (text ++ ']' :: s) = some ([value], s) := by
  rw [readItems, h, Option.bind_eq_bind, Option.bind_some]
  rfl

theorem readItems_next {values : List Written}
    (h : readValue fuel (text ++ ',' :: s) = some (value, ',' :: s))
    (hrest : readItems fuel s = some (values, r)) :
    readItems (fuel + 1) (text ++ ',' :: s) = some (value :: values, r) := by
  rw [readItems, h, Option.bind_eq_bind, Option.bind_some]
  simp only [skipBlanks_cons (c := ',') (by decide), hrest]
  rfl

theorem readMembers_last (name : String)
    (h : readValue fuel (text ++ '}' :: s) = some (value, '}' :: s)) :
    readMembers (fuel + 1) (quote name ++ ':' :: (text ++ '}' :: s)) =
      some ([(name.toList.map Char.toNat, value)], s) := by
  rw [quote_append, readMembers, skipBlanks_cons (c := '"') (by decide)]
  simp only [readString_quoted, skipBlanks_cons (c := ':') (by decide), h, Option.bind_eq_bind,
    Option.bind_some]
  rfl

theorem readMembers_next (name : String) {values : List (List Nat × Written)}
    (h : readValue fuel (text ++ ',' :: s) = some (value, ',' :: s))
    (hrest : readMembers fuel s = some (values, r)) :
    readMembers (fuel + 1) (quote name ++ ':' :: (text ++ ',' :: s)) =
      some ((name.toList.map Char.toNat, value) :: values, r) := by
  rw [quote_append, readMembers, skipBlanks_cons (c := '"') (by decide)]
  simp only [readString_quoted, skipBlanks_cons (c := ':') (by decide),
    skipBlanks_cons (c := ',') (by decide), h, hrest, Option.bind_eq_bind, Option.bind_some]
  rfl

end Reading

/-- A text begins as the first of its parts does. -/
theorem commaSeparated_append {text : List Char} (rest : List (List Char)) (s : List Char) {c : Char}
    (htext : ∃ cs, text = c :: cs) : ∃ cs, commaSeparated (text :: rest) ++ s = c :: cs := by
  obtain ⟨cs, rfl⟩ := htext
  cases rest with
  | nil => exact ⟨cs ++ s, rfl⟩
  | cons text' rest => exact ⟨cs ++ ',' :: commaSeparated (text' :: rest) ++ s, rfl⟩

mutual

/-- **A value is read back as its compact text spells it**, and reading stops right after it. -/
theorem readValue_chars : (j : Json) → j.Exact → ∀ {fuel : Nat} {s : List Char}, Follows s →
    j.chars.length < fuel → readValue fuel (j.chars ++ s) = some (j.spelled, s)
  | .null, _, fuel + 1, s, _, _ | .bool true, _, fuel + 1, s, _, _
  | .bool false, _, fuel + 1, s, _, _ => rfl
  | .float _, h, _, _, _, _ => h.elim
  | .int n, _, fuel + 1, s, hs, _ => by
    obtain ⟨c, cs, hcs, hc⟩ := intChars_cons n
    have hnumber := readNumber_intChars n hs
    rw [hcs, List.cons_append] at hnumber
    rw [chars, hcs, List.cons_append, readValue_of_number hc, hnumber, Option.map_some, spelled]
  | .str text, _, fuel + 1, s, _, _ => by
    rw [chars, quote_append, readValue, skipBlanks_cons (c := '"') (by decide)]
    simp only [readString_quoted]
    rfl
  | .arr [], _, fuel + 1, s, _, _ | .obj [], _, fuel + 1, s, _, _ => rfl
  | .arr (item :: rest), h, fuel + 1, s, _, hfuel => by
    rw [chars, List.length_append, List.length_cons, List.length_singleton] at hfuel
    have hitems := readItems_chars (item :: rest) (List.cons_ne_nil _ _) h fuel s
      (by omega)
    obtain ⟨c, cs, hcs, hblank, hclose⟩ := chars_cons item h.1
    have hbegins : ∃ cs, commaSeparated (itemChars (item :: rest)) ++ ']' :: s = c :: cs :=
      commaSeparated_append (itemChars rest) _ ⟨cs, hcs⟩
    rw [chars, List.cons_append, List.cons_append, List.append_assoc, List.singleton_append,
      readValue_of_items hblank hclose hbegins, hitems]
    rfl
  | .obj ((name, value) :: rest), h, fuel + 1, s, _, hfuel => by
    rw [chars, List.length_append, List.length_cons, List.length_singleton] at hfuel
    have hmembers := readMembers_chars ((name, value) :: rest) (List.cons_ne_nil _ _) h
      fuel s (by omega)
    have hbegins : ∃ cs,
        commaSeparated (memberChars ((name, value) :: rest)) ++ '}' :: s = '"' :: cs :=
      commaSeparated_append (memberChars rest) _ ⟨_, rfl⟩
    rw [chars, List.cons_append, List.cons_append, List.append_assoc, List.singleton_append,
      readValue_of_members hbegins, hmembers]
    rfl

/-- Items are read back up to the bracket that closes them. -/
theorem readItems_chars : (items : List Json) → items ≠ [] → ExactItems items →
    ∀ (fuel : Nat) (s : List Char), (commaSeparated (itemChars items)).length + 1 < fuel →
    readItems fuel (commaSeparated (itemChars items) ++ ']' :: s) = some (spelledItems items, s)
  | [], hne, _, _, _, _ => absurd rfl hne
  | [item], _, h, fuel + 1, s, hfuel => by
    simp only [itemChars, commaSeparated] at hfuel
    exact readItems_last
      (readValue_chars item h.1 (follows_cons (c := ']') (by decide) s) (by omega))
  | item :: next :: rest, _, h, fuel + 1, s, hfuel => by
    have htext : commaSeparated (itemChars (item :: next :: rest)) =
        item.chars ++ ',' :: commaSeparated (itemChars (next :: rest)) := rfl
    rw [htext, List.length_append, List.length_cons] at hfuel
    have hrest := readItems_chars (next :: rest) (List.cons_ne_nil _ _) h.2 fuel s (by omega)
    rw [htext, List.append_assoc, List.cons_append]
    exact readItems_next
      (readValue_chars item h.1 (follows_cons (c := ',') (by decide) _) (by omega)) hrest

/-- Members are read back up to the brace that closes them. -/
theorem readMembers_chars : (members : List (String × Json)) → members ≠ [] →
    ExactMembers members → ∀ (fuel : Nat) (s : List Char),
    (commaSeparated (memberChars members)).length + 1 < fuel →
    readMembers fuel (commaSeparated (memberChars members) ++ '}' :: s) =
      some (spelledMembers members, s)
  | [], hne, _, _, _, _ => absurd rfl hne
  | [(name, value)], _, h, fuel + 1, s, hfuel => by
    have htext : commaSeparated (memberChars [(name, value)]) = quote name ++ ':' :: value.chars :=
      rfl
    rw [htext, List.length_append, List.length_cons] at hfuel
    rw [htext, List.append_assoc, List.cons_append]
    exact readMembers_last name
      (readValue_chars value h.1 (follows_cons (c := '}') (by decide) s) (by omega))
  | (name, value) :: next :: rest, _, h, fuel + 1, s, hfuel => by
    have htext : commaSeparated (memberChars ((name, value) :: next :: rest)) =
        (quote name ++ ':' :: value.chars) ++ ',' :: commaSeparated (memberChars (next :: rest)) :=
      rfl
    rw [htext, List.length_append, List.length_append, List.length_cons, List.length_cons] at hfuel
    have hrest := readMembers_chars (next :: rest) (List.cons_ne_nil _ _) h.2 fuel s
      (by omega)
    rw [htext, List.append_assoc, List.append_assoc, List.cons_append, List.cons_append]
    exact readMembers_next name
      (readValue_chars value h.1 (follows_cons (c := ',') (by decide) _) (by omega)) hrest

end

/-- **The compact text of a value spells it.** -/
theorem ofText?_compact {j : Json} (h : j.Exact) : Written.ofText? j.compact = some j.spelled := by
  have hread := readValue_chars j h (Or.inl rfl) (Nat.lt_succ_self _)
  rw [List.append_nil] at hread
  rw [Written.ofText?, compact, String.toList_ofList, Written.ofChars?, hread]
  rfl

/-! ## Texts tell values apart -/

theorem numeral_injective {m n : Int} (h : numeral m = numeral n) : m = n := by
  have hsign : decide (m < 0) = decide (n < 0) := congrArg Numeral.negative h
  have hdigits : Nat.toDigits 10 m.natAbs = Nat.toDigits 10 n.natAbs := congrArg Numeral.whole h
  have habs : m.natAbs = n.natAbs := by
    rw [← Nat.ofDigitChars_ten_toDigits (n := m.natAbs), hdigits, Nat.ofDigitChars_ten_toDigits]
  rw [decide_eq_decide] at hsign
  omega

theorem codePoints_injective {s t : String}
    (h : s.toList.map Char.toNat = t.toList.map Char.toNat) : s = t := by
  rw [← Option.some_inj, ← textOf?_toList s, h, textOf?_toList]

mutual

/-- Values without doubles are told apart by how they are spelled. -/
theorem eq_of_spelled : (j k : Json) → j.Exact → k.Exact → j.spelled = k.spelled → j = k
  | .null, .null, _, _, _ => rfl
  | .bool _, .bool _, _, _, h => congrArg Json.bool (Written.bool.inj h)
  | .int _, .int _, _, _, h => congrArg Json.int (numeral_injective (Written.number.inj h))
  | .str _, .str _, _, _, h => congrArg Json.str (codePoints_injective (Written.str.inj h))
  | .arr items, .arr items', hj, hk, h =>
    congrArg Json.arr (eq_of_spelledItems items items' hj hk (Written.arr.inj h))
  | .obj members, .obj members', hj, hk, h =>
    congrArg Json.obj (eq_of_spelledMembers members members' hj hk (Written.obj.inj h))

theorem eq_of_spelledItems : (js ks : List Json) → ExactItems js → ExactItems ks →
    spelledItems js = spelledItems ks → js = ks
  | [], [], _, _, _ => rfl
  | j :: js, k :: ks, hj, hk, h => by
    obtain ⟨hfirst, hrest⟩ := List.cons.inj h
    rw [eq_of_spelled j k hj.1 hk.1 hfirst, eq_of_spelledItems js ks hj.2 hk.2 hrest]

theorem eq_of_spelledMembers : (js ks : List (String × Json)) → ExactMembers js → ExactMembers ks →
    spelledMembers js = spelledMembers ks → js = ks
  | [], [], _, _, _ => rfl
  | (name, j) :: js, (name', k) :: ks, hj, hk, h => by
    obtain ⟨hfirst, hrest⟩ := List.cons.inj h
    obtain ⟨hname, hvalue⟩ := Prod.mk.inj hfirst
    rw [codePoints_injective hname, eq_of_spelled j k hj.1 hk.1 hvalue,
      eq_of_spelledMembers js ks hj.2 hk.2 hrest]

end

/-- **Values without doubles are told apart by their compact texts.** -/
theorem compact_injective {j k : Json} (hj : j.Exact) (hk : k.Exact) (h : j.compact = k.compact) :
    j = k := by
  refine eq_of_spelled j k hj hk (Option.some.inj ?_)
  rw [← ofText?_compact hj, h, ofText?_compact hk]

end ConfigMerge.Json
