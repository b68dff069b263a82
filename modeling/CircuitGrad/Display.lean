import CircuitGrad.Display.Visible

/-! # Display texts

    How records, optional values and quoted texts are written wherever a
    setting or a transform is shown.
-/

namespace CircuitGrad.Display

/-- A text in quotes, with quotes, backslashes and hidden characters
    escaped. -/
def quoted (text : String) : String :=
  let escape (c : Char) : String :=
    match c with
    | '"' => "\\\""
    | '\\' => "\\\\"
    | '\n' => "\\n"
    | '\r' => "\\r"
    | '\t' => "\\t"
    | '\x00' => "\\0"
    | c =>
      if isVisible c then c.toString
      else "\\u\x7b" ++ String.ofList (Nat.toDigits 16 c.toNat) ++ "\x7d"
  "\"" ++ String.join (text.toList.map escape) ++ "\""

/-- A record with its name and fields. -/
def record (name : String) (fields : List (String × String)) : String :=
  let shown := fields.map fun (field, value) => field ++ ": " ++ value
  name ++ " \x7b " ++ ", ".intercalate shown ++ " \x7d"

/-- A value that may be absent. -/
def optional (value : Option String) : String :=
  match value with
  | none => "None"
  | some v => "Some(" ++ v ++ ")"

end CircuitGrad.Display
