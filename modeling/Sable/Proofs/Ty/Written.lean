import Sable.Proofs.Token.Pieces
import Sable.Ty.Text

/-! Types that can be written down, and the tokens that their text is cut into. -/
namespace Sable

open Token

namespace Ty

/-! ## Types that can be written down -/

/-- The names of types that need no declaration. -/
def builtinNames : List String := ["Number", "Boolean", "BigInteger", "Null", "List", "Sequence"]

/-- Whether type parameters can be declared where those of `scope` are known: no two, among themselves and with
those, have one name, and none has that of a type that needs no declaration. -/
def declarable (scope : List TypeVariable) : List TypeVariable → Bool
  | [] => true
  | v :: vs =>
    isName v.name && !builtinNames.contains v.name && !scope.any (·.name == v.name) && declarable (v :: scope) vs

/-- The fields of an object ascend. -/
def ascending : List (String × Ty) → Bool
  | (name, _) :: rest => rest.all (fun field => name < field.1) && ascending rest
  | [] => true

def isNullable : Ty → Bool
  | nullable _ => true
  | _ => false

mutual

/-- Whether a type expression can stand for the type where the variables of `scope` are known. Unions and
tagged types are only made by declarations, and what is optional already is not made optional again. -/
def writable (scope : List TypeVariable) : Ty → Bool
  | number | boolean | bigInteger | null => true
  | list a | sequence a => a.writable scope
  | object fields => ascending fields && writableFields scope fields
  | function vs ps result =>
    declarable scope vs && writableParameters (vs.reverse ++ scope) ps && result.writable (vs.reverse ++ scope)
  | union .. | tagged .. => false
  | nullable a => !a.isNullable && a.writable scope
  | var v => scope.contains v

def writableFields (scope : List TypeVariable) : List (String × Ty) → Bool
  | [] => true
  | (name, a) :: rest => isName name && a.writable scope && writableFields scope rest

def writableParameters (scope : List TypeVariable) : ParameterList (String × Ty) → Bool
  | .fixed ps => writableFields scope ps
  | .variadic (name, a) => isName name && a.writable scope

end

theorem forall_of_writableFields {scope : List TypeVariable} {fields : List (String × Ty)}
    (h : writableFields scope fields = true) :
    ∀ field ∈ fields, isName field.1 = true ∧ field.2.writable scope = true := by
  induction fields with
  | nil => nofun
  | cons field fields ih =>
      simp only [writableFields, Bool.and_eq_true] at h
      rw [List.forall_mem_cons]
      exact ⟨h.1, ih h.2⟩

/-! ## Tokens -/

/-- Items with commas between them. -/
def separate (items : List (List Token)) : List Token := [.mark .comma].intercalate items

def variableTokens (vs : List TypeVariable) : List Token :=
  if vs.isEmpty then []
  else .mark .leftBracket :: separate (vs.map fun v => [.ident v.name]) ++ [.mark .rightBracket]

mutual

/-- The tokens of the text of a type. -/
def tokens : Ty → List Token
  | number => [.ident "Number"]
  | boolean => [.ident "Boolean"]
  | bigInteger => [.ident "BigInteger"]
  | null => [.ident "Null"]
  | list a => .ident "List" :: .mark .leftBracket :: (a.tokens ++ [.mark .rightBracket])
  | sequence a => .ident "Sequence" :: .mark .leftBracket :: (a.tokens ++ [.mark .rightBracket])
  | object fields => .mark .leftBrace :: (separate (fieldTokens fields) ++ [.mark .rightBrace])
  | function vs ps result => variableTokens vs ++ parametersTokens ps ++ .mark .arrow :: result.tokens
  | union .. | tagged .. => []
  | nullable a =>
    match a with
    | function .. | tagged .. => .mark .leftParen :: (a.tokens ++ [.mark .rightParen, .mark .question])
    | _ => a.tokens ++ [.mark .question]
  | var v => [.ident v.name]

def fieldTokens : List (String × Ty) → List (List Token)
  | [] => []
  | (name, a) :: rest => (.ident name :: .mark .colon :: a.tokens) :: fieldTokens rest

def parametersTokens : ParameterList (String × Ty) → List Token
  | .fixed ps => .mark .leftParen :: (separate (fieldTokens ps) ++ [.mark .rightParen])
  | .variadic (name, a) =>
    .mark .leftParen :: .mark .ellipsis :: .ident name :: .mark .colon :: (a.tokens ++ [.mark .rightParen])

end

theorem separate_cons (first : List Token) (rest : List (List Token)) :
    separate (first :: rest) = first ++ rest.flatMap (.mark .comma :: ·) := by
  induction rest generalizing first with
  | nil => simp [separate]
  | cons second rest ih =>
      have h : separate (first :: second :: rest) = first ++ .mark .comma :: separate (second :: rest) := by
        simp [separate]
      rw [h, ih, List.flatMap_cons]
      rfl

/-- The tokens of a field, or of a parameter. -/
def fieldTokensOf (field : String × Ty) : List Token := .ident field.1 :: .mark .colon :: field.2.tokens

theorem fieldTokens_eq (fields : List (String × Ty)) : fieldTokens fields = fields.map fieldTokensOf := by
  induction fields with
  | nil => rfl
  | cons field fields ih =>
      rw [fieldTokens, ih, List.map_cons]
      rfl

def isFunction : Ty → Bool
  | function .. => true
  | _ => false

/-- Only function types stand in parentheses before a question mark. -/
theorem tokens_nullable {scope : List TypeVariable} {a : Ty} (ha : a.writable scope = true)
    (hfunction : a.isFunction = false) : (nullable a).tokens = a.tokens ++ [.mark .question] := by
  cases a with
  | function vs ps result => cases hfunction
  | tagged payload tag => cases ha
  | _ => rfl

theorem tokens_ne_nil {scope : List TypeVariable} {a : Ty} (ha : a.writable scope = true) : a.tokens ≠ [] := by
  cases a with
  | union alternatives narrowed | tagged payload tag => cases ha
  | function vs ps result => simp [tokens]
  | nullable a => cases a <;> simp [tokens]
  | _ => nofun

/-! ## Cutting -/

theorem cut_separate {α : Type} {text : α → String} {ts : α → List Token} {items : List α}
    (h : ∀ a ∈ items, Cut (text a).toList (ts a)) :
    Cut (String.intercalate ", " (items.map text)).toList (separate (items.map ts)) := by
  induction items with
  | nil => exact cut_nil
  | cons a items ih =>
      rw [List.forall_mem_cons] at h
      cases items with
      | nil => simpa [separate, String.toList_intercalate] using h.1
      | cons b items =>
          have hrest := (ih h.2).blank.mark (p := .comma) rfl
          have hboth := h.1.before rfl hrest
          simpa [separate, String.toList_intercalate] using hboth

theorem fieldTexts_eq (fields : List (String × Ty)) :
    fieldTexts fields = fields.map fun field => field.1 ++ ": " ++ field.2.text := by
  induction fields with
  | nil => rfl
  | cons field fields ih => rw [fieldTexts, ih, List.map_cons]

theorem isName_of_declarable {scope vs : List TypeVariable} (h : declarable scope vs = true) :
    ∀ v ∈ vs, isName v.name = true := by
  induction vs generalizing scope with
  | nil => nofun
  | cons v vs ih =>
      simp only [declarable, Bool.and_eq_true] at h
      rw [List.forall_mem_cons]
      exact ⟨h.1.1.1, ih h.2⟩

theorem isName_of_mem_append {scope vs : List TypeVariable} (h : declarable scope vs = true)
    (hscope : ∀ v ∈ scope, isName v.name = true) : ∀ v ∈ vs.reverse ++ scope, isName v.name = true := by
  intro v hv
  rw [List.mem_append, List.mem_reverse] at hv
  exact hv.elim (isName_of_declarable h v) (hscope v)

/-- The text of type parameters. -/
def variablesText (vs : List TypeVariable) : String :=
  if vs.isEmpty then "" else "[" ++ String.intercalate ", " (vs.map (·.name)) ++ "]"

theorem cut_variablesText {vs : List TypeVariable} (h : ∀ v ∈ vs, isName v.name = true) :
    Cut (variablesText vs).toList (variableTokens vs) := by
  unfold variablesText variableTokens
  split
  · exact cut_nil
  · have hnames : Cut (String.intercalate ", " (vs.map (·.name))).toList
        (separate (vs.map fun v => [.ident v.name])) := cut_separate fun v hv => cut_name (h v hv)
    have hend := hnames.before rfl (cut_nil.mark (p := .rightBracket) rfl)
    simpa [Punctuation.chars] using hend.mark (p := .leftBracket) rfl

/-- A name, a colon and a type. -/
theorem cut_field {name : String} (hname : isName name = true) {text : String} {ts : List Token}
    (h : Cut text.toList ts) : Cut (name ++ ": " ++ text).toList (.ident name :: .mark .colon :: ts) := by
  have hfield := (cut_name hname).before rfl (h.blank.mark (p := .colon) rfl)
  simpa using hfield

/-- The text of the fields of an object, or of parameters. -/
theorem cut_separate_fields {fields : List (String × Ty)}
    (h : ∀ field ∈ fields, Cut (field.1 ++ ": " ++ field.2.text).toList (fieldTokensOf field)) :
    Cut (String.intercalate ", " (fieldTexts fields)).toList (separate (fieldTokens fields)) := by
  rw [fieldTexts_eq, fieldTokens_eq]
  exact cut_separate h

/-- A name with a type in brackets. -/
theorem cut_applied (name : String) {text : String} {ts : List Token} (hname : isName name = true)
    (h : Cut text.toList ts) :
    Cut (name ++ "[" ++ text ++ "]").toList (.ident name :: .mark .leftBracket :: (ts ++ [.mark .rightBracket])) := by
  have hend := h.before rfl (cut_nil.mark (p := .rightBracket) rfl)
  simpa using (cut_name hname).before rfl (hend.mark (p := .leftBracket) rfl)

/-- A question mark behind a type. -/
theorem cut_question {text : String} {ts : List Token} (h : Cut text.toList ts) :
    Cut (text ++ "?").toList (ts ++ [.mark .question]) := by
  simpa using h.before rfl (cut_nil.mark (p := .question) rfl)

/-- A type in parentheses and a question mark behind it. -/
theorem cut_parens_question {text : String} {ts : List Token} (h : Cut text.toList ts) :
    Cut ("(" ++ text ++ ")?").toList (.mark .leftParen :: (ts ++ [.mark .rightParen, .mark .question])) := by
  have hend := h.before rfl ((cut_nil.mark (p := .question) rfl).mark (p := .rightParen) rfl)
  simpa [Punctuation.chars] using hend.mark (p := .leftParen) rfl

theorem endsName_parametersText (ps : ParameterList (String × Ty)) (rest : List Char) :
    EndsName ((parametersText ps).toList ++ rest) := by
  cases ps <;> simp [parametersText, endsName_cons (c := '(') rfl]

mutual

theorem cut_text : ∀ (a : Ty) {scope : List TypeVariable} (_ : ∀ v ∈ scope, isName v.name = true)
    (_ : a.writable scope = true), Cut a.text.toList a.tokens
  | number, _, _, _ | boolean, _, _, _ | bigInteger, _, _, _ | null, _, _, _ => cut_name rfl
  | list a, _, hscope, h => cut_applied "List" rfl (cut_text a hscope h)
  | sequence a, _, hscope, h => cut_applied "Sequence" rfl (cut_text a hscope h)
  | object fields, scope, hscope, h => by
      simp only [writable, Bool.and_eq_true] at h
      have hfields := cut_separate_fields (cut_fields fields hscope h.2)
      have hend := hfields.before rfl (cut_nil.mark (p := .rightBrace) rfl)
      simpa [text, tokens, Punctuation.chars] using hend.mark (p := .leftBrace) rfl
  | function vs ps result, scope, hscope, h => by
      simp only [writable, Bool.and_eq_true] at h
      obtain ⟨⟨hvs, hps⟩, hresult⟩ := h
      have hinner := isName_of_mem_append hvs hscope
      have harrow := (cut_text result hinner hresult).blank.mark (p := .arrow) rfl
      have hparameters := (cut_parameters ps hinner hps).before rfl harrow.blank
      have hall := (cut_variablesText (isName_of_declarable hvs)).append hparameters fun rest _ => by
        rw [List.append_assoc]
        exact endsName_parametersText ps _
      simpa [text, tokens, variablesText, Punctuation.chars] using hall
  | nullable a, scope, hscope, h => by
      simp only [writable, Bool.and_eq_true] at h
      have ha := cut_text a hscope h.2
      cases a with
      | function vs ps result => exact cut_parens_question ha
      | tagged payload tag => exact cut_parens_question ha
      | _ => exact cut_question ha
  | var v, scope, hscope, h => cut_name (hscope v (List.contains_iff_mem.mp h))

theorem cut_fields : ∀ (fields : List (String × Ty)) {scope : List TypeVariable}
    (_ : ∀ v ∈ scope, isName v.name = true) (_ : writableFields scope fields = true),
    ∀ field ∈ fields, Cut (field.1 ++ ": " ++ field.2.text).toList (fieldTokensOf field)
  | [], _, _, _ => nofun
  | (name, a) :: rest, scope, hscope, h => by
      simp only [writableFields, Bool.and_eq_true] at h
      rw [List.forall_mem_cons]
      exact ⟨cut_field h.1.1 (cut_text a hscope h.1.2), cut_fields rest hscope h.2⟩

theorem cut_parameters : ∀ (ps : ParameterList (String × Ty)) {scope : List TypeVariable}
    (_ : ∀ v ∈ scope, isName v.name = true) (_ : writableParameters scope ps = true),
    Cut (parametersText ps).toList (parametersTokens ps)
  | .fixed ps, scope, hscope, h => by
      have hfields := cut_separate_fields (cut_fields ps hscope h)
      have hend := hfields.before rfl (cut_nil.mark (p := .rightParen) rfl)
      simpa [parametersText, parametersTokens, Punctuation.chars] using hend.mark (p := .leftParen) rfl
  | .variadic (name, a), scope, hscope, h => by
      simp only [writableParameters, Bool.and_eq_true] at h
      have hfield := cut_field h.1 (cut_text a hscope h.2)
      have hend := hfield.before rfl (cut_nil.mark (p := .rightParen) rfl)
      simpa [parametersText, parametersTokens, Punctuation.chars] using
        (hend.mark (p := .ellipsis) rfl).mark (p := .leftParen) rfl

end

/-- The text of a type that can be written down is cut into the tokens of the type, and nothing else. -/
theorem scan_text {a : Ty} (h : a.writable [] = true) :
    (scan a.text).tokens.map (·.value) = a.tokens ∧ (scan a.text).unexpected = [] := by
  have hfound : found a.text.toList = a.tokens.map .token := by
    have hcut : Cut a.text.toList a.tokens := cut_text a (by simp) h
    simpa [found, piecesFrom_nil] using hcut [] fun _ h => by cases h
  exact scan_of_found hfound

end Ty

end Sable
