import Sable.Ty

/-! The text of a type, as error messages and listings show it. -/
namespace Sable.Ty

mutual

def text : Ty → String
  | number => "Number"
  | boolean => "Boolean"
  | bigInteger => "BigInteger"
  | null => "Null"
  | list element => "List[" ++ element.text ++ "]"
  | sequence element => "Sequence[" ++ element.text ++ "]"
  | object fields => "\x7b" ++ String.intercalate ", " (fieldTexts fields) ++ "\x7d"
  | function vs ps result =>
    (if vs.isEmpty then "" else "[" ++ String.intercalate ", " (vs.map (·.name)) ++ "]")
      ++ parametersText ps ++ " -> " ++ result.text
  | union alternatives narrowed =>
    "(" ++ String.intercalate " | " (fieldTexts alternatives) ++ ")"
      ++ (match narrowed with
        | some tag => " @" ++ tag
        | none => "")
  | tagged payload tag => payload.text ++ " # " ++ tag
  | nullable inner =>
    match inner with
    | function .. | tagged .. => "(" ++ inner.text ++ ")?"
    | _ => inner.text ++ "?"
  | var v => v.name

def fieldTexts : List (String × Ty) → List String
  | [] => []
  | (name, a) :: rest => (name ++ ": " ++ a.text) :: fieldTexts rest

def parametersText : ParameterList (String × Ty) → String
  | .fixed ps => "(" ++ String.intercalate ", " (fieldTexts ps) ++ ")"
  | .variadic (name, a) => "(..." ++ name ++ ": " ++ a.text ++ ")"

end

end Sable.Ty
