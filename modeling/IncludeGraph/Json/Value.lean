/-!
# JSON values

A value keeps what its text says: numbers as they are written, and the members of
an object in their order with repeated keys.
-/

namespace IncludeGraph

/-- A JSON value.  The text of a string literal is `none` if one of its escapes
names half of a surrogate pair, which is not a character. -/
inductive Json where
  | null
  | bool (value : Bool)
  /-- A number by the characters of its literal. -/
  | number (literal : String)
  | string (text : Option String)
  | array (items : List Json)
  | object (members : List (Option String × Json))

namespace Json

instance : Inhabited Json := ⟨null⟩

def ofText (text : String) : Json := string (some text)

def ofNat (n : Nat) : Json := number (toString n)

def ofTexts (texts : List String) : Json := array (texts.map ofText)

def ofMembers (members : List (String × Json)) : Json :=
  object (members.map fun (key, value) => (some key, value))

end Json

end IncludeGraph
