/-!
# Written records

The one-line text of a value: a record is its name and its fields in braces, a
list stands in square brackets, an optional value is `None` or `Some(..)`, and
a bit mask is written in lower-case hexadecimal.
-/
namespace SegmentedCache.Text

def record (name : String) (fields : List (String × String)) : String :=
  let body := ", ".intercalate (fields.map fun f => f.1 ++ ": " ++ f.2)
  name ++ " \x7b " ++ body ++ " \x7d"

def list (items : List String) : String := "[" ++ ", ".intercalate items ++ "]"

def optional : Option String → String
  | none => "None"
  | some text => "Some(" ++ text ++ ")"

def boolean : Bool → String
  | true => "true"
  | false => "false"

def hexadecimal (n : Nat) : String := "0x" ++ String.ofList (Nat.toDigits 16 n)

end SegmentedCache.Text
