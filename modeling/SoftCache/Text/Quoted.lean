/-!
# Diagnostic texts

Strings inside diagnostic texts are quoted, optional values are marked as present or absent, and a
record is its name with its fields in braces. `Literal` is the class of what can stand in such a
text.
-/

namespace SoftCache

/-- The digits of a number in base sixteen, in lower case. -/
def hexDigits (n : Nat) : String :=
  String.ofList (Nat.toDigits 16 n)

/-- The digits of a number in base sixteen, padded with zeros to a width. -/
def hexPadded (width n : Nat) : String :=
  let digits := hexDigits n
  String.ofList (List.replicate (width - digits.length) '0') ++ digits

/-- A character inside a quoted string: the quote and the backslash are escaped, line breaks, tabs
and the null character have short escapes, and any other control character stands as its code. -/
def escapeChar (c : Char) : String :=
  if c = '"' then "\\\""
  else if c = '\\' then "\\\\"
  else if c = '\n' then "\\n"
  else if c = '\r' then "\\r"
  else if c = '\t' then "\\t"
  else if c = '\x00' then "\\0"
  else if c.toNat < 32 || (127 ≤ c.toNat && c.toNat < 160) then
    "\\u\x7b" ++ hexDigits c.toNat ++ "\x7d"
  else c.toString

/-- A string in quotes, with its special characters escaped. -/
def quoted (s : String) : String :=
  "\"" ++ String.join (s.toList.map escapeChar) ++ "\""

/-- What can be written inside a diagnostic text. -/
class Literal (α : Type) where
  /-- How a value is written inside a diagnostic text. -/
  literal : α → String

/-- Numbers are shown by their digits. -/
instance : Literal Nat := ⟨toString⟩

/-- Integers are shown by their digits, with a sign if they are negative. -/
instance : Literal Int := ⟨toString⟩

/-- Truth values are shown as words. -/
instance : Literal Bool := ⟨fun b => if b then "true" else "false"⟩

/-- Texts are shown in quotation marks. -/
instance : Literal String := ⟨quoted⟩

/-- What may be missing is shown with its constructor. -/
instance {α : Type} [Literal α] : Literal (Option α) :=
  ⟨fun
    | none => "None"
    | some a => "Some(" ++ Literal.literal a ++ ")"⟩

/-- Pairs are shown in parentheses. -/
instance {α β : Type} [Literal α] [Literal β] : Literal (α × β) :=
  ⟨fun (a, b) => "(" ++ Literal.literal a ++ ", " ++ Literal.literal b ++ ")"⟩

/-- Lists are shown in brackets. -/
instance {α : Type} [Literal α] : Literal (List α) :=
  ⟨fun l => "[" ++ ", ".intercalate (l.map Literal.literal) ++ "]"⟩

/-- One field of a record in a diagnostic text. -/
def field {α : Type} [Literal α] (name : String) (value : α) : String :=
  name ++ ": " ++ Literal.literal value

/-- A record with its fields. -/
def record (name : String) (fields : List String) : String :=
  name ++ " \x7b " ++ ", ".intercalate fields ++ " \x7d"

/-- A record of which only some fields are shown. -/
def partialRecord (name : String) (fields : List String) : String :=
  record name (fields ++ [".."])

end SoftCache
