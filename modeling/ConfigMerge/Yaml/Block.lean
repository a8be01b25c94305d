import ConfigMerge.Json.Text

/-!
# Yaml/Block — JSON values as YAML in block style

Every member and every item starts a line of its own.  Members are indented by two blanks below the
name that they belong to; items are not.  An empty collection stays on the line of its name, and a
text is quoted where it would be read as something else.
-/

namespace ConfigMerge.Yaml

/-! ## Scalars -/

/-- The words that are not texts when they stand without quotes. -/
def reserved : List String :=
  ["null", "Null", "NULL", "true", "True", "TRUE", "false", "False", "FALSE", "y", "Y", "yes",
    "Yes", "YES", "n", "N", "no", "No", "NO", "on", "On", "ON", "off", "Off", "OFF"]

/-- Whether a text may begin with a character and stand without quotes. -/
def opensPlain (c : Char) : Bool := c.isAlpha || c = '.' || c = '/' || c = '_' || c = '$'

/-- Whether a text without quotes may hold these characters: a colon ends a name, a number sign
after a blank begins a comment, and blanks at the end are dropped. -/
def plainBody : List Char → Bool
  | [] => true
  | [c] => c ≠ ' ' && c ≠ ':' && ' ' ≤ c
  | c :: d :: rest =>
    !(c = ':' && d = ' ') && !(c = ' ' && d = '#') && ' ' ≤ c && plainBody (d :: rest)

/-- Whether a text may stand without quotes. -/
def isPlain (s : String) : Bool :=
  (s.toList.head?.any opensPlain) && plainBody s.toList && !reserved.contains s
    && !(s.startsWith "." && (s.toList.drop 1).head?.any Char.isDigit)

/-- A text as a scalar; inside quotes a quote is written twice. -/
def scalarText (s : String) : String :=
  if isPlain s then s
  else if s.toList.all (' ' ≤ ·) then
    "'" ++ String.ofList (s.toList.flatMap (fun c => if c = '\'' then [c, c] else [c])) ++ "'"
  else String.ofList (Json.quote s)

/-! ## Blocks -/

/-- Lines below a name. -/
def indented (lines : List String) : List String := lines.map ("  " ++ ·)

/-- The lines of an item: the first one carries the mark of an item, the others stand below its
text. -/
def itemLines : List String → List String
  | [] => []
  | line :: rest => ("- " ++ line) :: indented rest

mutual

/-- The lines of a value. -/
def lines : Json → List String
  | .str s => [scalarText s]
  | .arr [] => ["[]"]
  | .obj [] => ["\x7b\x7d"]
  | .arr items => arrayLines items
  | .obj members => objectLines members
  | j => [j.compact]

/-- The lines of items. -/
def arrayLines : List Json → List String
  | [] => []
  | item :: rest => itemLines (lines item) ++ arrayLines rest

/-- The lines of members. -/
def objectLines : List (String × Json) → List String
  | [] => []
  | (name, value) :: rest =>
    (match value with
      | .obj (_ :: _) => (scalarText name ++ ":") :: indented (lines value)
      | .arr (_ :: _) => (scalarText name ++ ":") :: lines value
      | _ => [scalarText name ++ ": " ++ String.join (lines value)]) ++ objectLines rest

end

/-- The text of a document. -/
def document (j : Json) : String := String.join ((lines j.canonical).map (· ++ "\n"))

/-- Documents one after the other, with a line between them. -/
def documents (js : List Json) : String := "---\n".intercalate (js.map document)

end ConfigMerge.Yaml
