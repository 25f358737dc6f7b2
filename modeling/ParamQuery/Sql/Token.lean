/-
SQL as a list of tokens. Names and JSON keys are tokens of their own, so that
quoting is decided in one place: `Token.text` doubles the quote inside the
quotes. The type of the slots is open: a fragment is built while it is not yet
known what its parameters are called.
-/

namespace ParamQuery.Sql

/-- A part of an SQL text. -/
inductive Token (β : Type) where
  /-- Keywords, operators and punctuation, as they stand. -/
  | text (s : String)
  /-- A name in double quotes. -/
  | name (s : String)
  /-- A JSON key in single quotes. -/
  | key (s : String)
  /-- A place whose text is decided elsewhere. -/
  | slot (b : β)

/-- A piece of SQL. -/
abbrev Fragment (β : Type) := List (Token β)

/-! ## Quoting -/

/-- The characters with every quote doubled. -/
def doubled (quote : Char) : List Char → List Char
  | [] => []
  | c :: rest => if c = quote then c :: c :: doubled quote rest else c :: doubled quote rest

/-- A text in quotes. -/
def enclose (quote : Char) (s : String) : String :=
  String.ofList (quote :: doubled quote s.toList ++ [quote])

/-- A name in double quotes, those inside of it doubled. -/
def quoteName (s : String) : String := enclose '"' s

/-- A JSON key in single quotes, those inside of it doubled. -/
def quoteKey (s : String) : String := enclose '\'' s

/-! ## Text -/

/-- The text of a token. -/
def Token.render : Token String → String
  | .text s => s
  | .name s => quoteName s
  | .key s => quoteKey s
  | .slot s => s

/-- The text of a fragment whose slots hold their texts. -/
def Fragment.render (f : Fragment String) : String := String.join (f.map Token.render)

@[simp] theorem Fragment.render_nil : Fragment.render [] = "" := rfl

@[simp] theorem Fragment.render_cons (t : Token String) (f : Fragment String) :
    Fragment.render (t :: f) = t.render ++ Fragment.render f := by
  simp [Fragment.render, String.join_cons]

@[simp] theorem Fragment.render_append (f g : Fragment String) :
    Fragment.render (f ++ g) = Fragment.render f ++ Fragment.render g := by
  simp [Fragment.render, String.join_append]

/-! ## Building -/

namespace Fragment

variable {β : Type}

/-- The fragments with a separator between them. -/
def separated (separator : String) : List (Fragment β) → Fragment β
  | [] => []
  | [f] => f
  | f :: rest => f ++ Token.text separator :: separated separator rest

/-- The fragment in parentheses. -/
def parenthesized (f : Fragment β) : Fragment β := Token.text "(" :: f ++ [Token.text ")"]

/-- A column of a table. -/
def qualified (table column : String) : Fragment β := [.name table, .text ".", .name column]

/-- Access to a value inside a JSON document; the last step gives text. -/
def traversal : List String → Fragment β
  | [] => []
  | [last] => [.text "->>", .key last]
  | step :: rest => .text "->" :: .key step :: traversal rest

end Fragment

end ParamQuery.Sql
