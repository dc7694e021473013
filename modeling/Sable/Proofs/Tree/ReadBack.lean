import Mathlib.Logic.Function.Basic
import Sable.Proofs.Tree.Forms
import Sable.Proofs.Tree.Outline

/-!
Forms are read back: what is read of the form of a node is its merged outline (`Item.Spelled.readBack`).

A list is told by the word that it begins with. Where that is none of the words of `Head.table` the list is a call, and
the word may be any expression that is written as one.
-/

namespace Sable

/-- The text without its first characters. -/
def textBehind (n : Nat) (s : String) : String := String.ofList (s.toList.drop n)

theorem textBehind_append {s : String} {n : Nat} (h : s.toList.length = n) (t : String) :
    textBehind n (s ++ t) = t := by
  rw [textBehind, String.toList_append, List.drop_left' h, String.ofList_toList]

namespace Sexp

def items : Sexp → List Sexp
  | word _ => []
  | list _ items => items

def isSquare : Sexp → Bool
  | list .square _ => true
  | _ => false

/-- Whether this may be a list of parameters. A type or an expression in round brackets begins with a word. -/
def isGroup : Sexp → Bool
  | list .round [] => true
  | list .round (list .. :: _) => true
  | _ => false

end Sexp

def Generics.ofForms (items : List Sexp) : Generics :=
  items.map fun
    | .word name => ⟨name, default⟩
    | .list .. => ⟨"", default⟩

/-! ## Types -/

namespace TypeExpr

/-- The parameters, of which a single one may have dots in front of its name. -/
def gathered : List (Parameter TypeExpr) → ParameterList (Parameter TypeExpr)
  | [⟨name, type, span⟩] =>
    if name.value.toList.head? = some '.' then .variadic ⟨⟨textBehind 3 name.value, default⟩, type, span⟩
    else .fixed [⟨name, type, span⟩]
  | ps => .fixed ps

mutual

/-- The type that a form is read as. -/
def ofForm : Sexp → TypeExpr
  | .word name => named default name []
  | .list .curly items => object default (ofFields items)
  | .list _ [.word name, first, second] =>
    if first.isGroup then function default [] (ofParameters first) (ofForm second)
    else outlineNamed true name [ofForm first, ofForm second]
  | .list _ [.word name, first, second, third] =>
    if first.isSquare then function default (Generics.ofForms first.items) (ofParameters second) (ofForm third)
    else outlineNamed true name [ofForm first, ofForm second, ofForm third]
  | .list _ (.word name :: items) => outlineNamed true name (ofEach items)
  | .list .. => object default []

def ofEach : List Sexp → List TypeExpr
  | [] => []
  | s :: rest => ofForm s :: ofEach rest

def ofFields : List Sexp → List (String × TypeExpr)
  | .word name :: s :: rest => (textBehind 1 name, ofForm s) :: ofFields rest
  | _ => []

def ofParameters : Sexp → ParameterList (Parameter TypeExpr)
  | .word _ => .fixed []
  | .list _ items => gathered (ofEachParameter items)

def ofEachParameter : List Sexp → List (Parameter TypeExpr)
  | .list _ [.word name, _, s] :: rest => ⟨⟨name, default⟩, ofForm s, default⟩ :: ofEachParameter rest
  | _ => []

end

end TypeExpr

/-! ## Expressions -/

def binaryOps : List BinaryOp :=
  [.arithmetic .add, .arithmetic .subtract, .arithmetic .multiply, .arithmetic .divide, .arithmetic .floorDivide,
    .arithmetic .remainder, .comparison .less, .comparison .greater, .comparison .equal, .logical .and, .logical .or]

def BinaryOp.ofSymbol? (s : String) : Option BinaryOp := binaryOps.find? (·.symbol == s)

def UnaryOp.ofSymbol? (s : String) : Option UnaryOp := [UnaryOp.negate, .not].find? (·.symbol == s)

@[simp] theorem BinaryOp.ofSymbol?_symbol (op : BinaryOp) : ofSymbol? op.symbol = some op := by
  rcases op with op | op | op <;> cases op <;> decide

@[simp] theorem UnaryOp.ofSymbol?_symbol (op : UnaryOp) : ofSymbol? op.symbol = some op := by cases op <;> decide

theorem Token.head?_ne_dot {name : String} (h : isName name = true) : name.toList.head? ≠ some '.' := by
  obtain ⟨c, rest, htext, hstart, -⟩ := exists_of_isName h
  rw [htext, List.head?_cons, ne_eq, Option.some.injEq]
  rintro rfl
  cases hstart

/-- What a list is that begins with a word. -/
inductive Head where
  | operator | conditional | lambda | field | hasTag | untag | cases | callee
deriving DecidableEq

namespace Head

/-- The words that no expression is written as. -/
def table : List (String × Head) :=
  [("if", conditional), ("fn", lambda), ("is", hasTag), ("untag", untag), ("match", cases)]
    ++ binaryOps.map (·.symbol, operator) ++ [UnaryOp.negate, .not].map (·.symbol, operator)

def ofWord (s : String) : Head :=
  if s.toList.head? = some '.' then field else (table.lookup s).getD callee

theorem ofWord_dotted (name : String) : ofWord ("." ++ name) = field := by
  rw [ofWord, String.toList_append]
  rfl

theorem ofWord_binary (op : BinaryOp) : ofWord op.symbol = operator := by
  rcases op with op | op | op <;> cases op <;> decide

theorem ofWord_unary (op : UnaryOp) : ofWord op.symbol = operator := by cases op <;> decide

theorem ofWord_eq_callee {s : String} (hdot : s.toList.head? ≠ some '.') (h : ∀ entry ∈ table, s ≠ entry.1) :
    ofWord s = callee := by
  have hlookup : table.lookup s = none :=
    List.lookup_eq_none_iff.mpr fun entry hentry => bne_iff_ne.mpr (h entry hentry)
  rw [ofWord, if_neg hdot, hlookup]
  rfl

theorem ofWord_name {name : String} (h : Token.isName name = true) : ofWord name = callee := by
  have hothers : ∀ entry ∈ table, Token.isName entry.1 = false := by decide +kernel
  refine ofWord_eq_callee (Token.head?_ne_dot h) fun entry hentry heq => ?_
  have hother := hothers entry hentry
  rw [← heq, h] at hother
  cases hother

end Head

namespace Expr

/-- The number that has the text. -/
noncomputable def numberOf (s : String) : Float := Function.invFun (numberText .source) s

/-- The expression that a word is read as. -/
noncomputable def ofWord (s : String) : Expr :=
  if Token.isName s then reference default s
  else if s = "true" then boolean default true
  else if s = "false" then boolean default false
  else if s = "null" then null default
  else if s.toList.getLast? = some 'n' then bigInteger default (String.ofList s.toList.dropLast)
  else number default (numberOf s)

/-- The type arguments of a call. -/
def typesIn (items : List Sexp) : List TypeExpr :=
  items.flatMap fun
    | .list .square types => types.map TypeExpr.ofForm
    | _ => []

mutual

/-- The expression that a form is read as. -/
noncomputable def ofForm : Sexp → Expr
  | .word s => ofWord s
  | .list .curly items => object default (ofFields items)
  | .list _ [] => null default
  | .list _ (.list b inner :: items) => outlineCall true (ofForm (.list b inner)) (typesIn items) (ofArguments items)
  | .list _ (.word s :: items) =>
    match Head.ofWord s, items with
    | .operator, [operand] => unary default ((UnaryOp.ofSymbol? s).getD .negate) (ofForm operand)
    | .operator, [lhs, rhs] => binary default ((BinaryOp.ofSymbol? s).getD (.arithmetic .add)) (ofForm lhs) (ofForm rhs)
    | .conditional, [condition, thenBranch, elseBranch] =>
      conditional default (ofForm condition) (ofForm thenBranch) (ofForm elseBranch)
    | .lambda, [ps, body] => lambda default [] (TypeExpr.ofParameters ps) none (ofForm body)
    | .lambda, [names, ps, body] =>
      lambda default (Generics.ofForms names.items) (TypeExpr.ofParameters ps) none (ofForm body)
    | .lambda, [ps, _, result, body] =>
      lambda default [] (TypeExpr.ofParameters ps) (some (TypeExpr.ofForm result)) (ofForm body)
    | .lambda, [names, ps, _, result, body] =>
      lambda default (Generics.ofForms names.items) (TypeExpr.ofParameters ps) (some (TypeExpr.ofForm result))
        (ofForm body)
    | .field, [owner] => field default (ofForm owner) (textBehind 1 s)
    | .hasTag, [value, .word tag] => hasTag default (ofForm value) tag
    | .untag, [value] => untag default (ofForm value)
    | .cases, scrutinee :: arms => cases default (ofForm scrutinee) (ofArms arms)
    | _, items => outlineCall true (ofWord s) (typesIn items) (ofArguments items)

/-- The arguments of a call, behind its type arguments. -/
noncomputable def ofArguments : List Sexp → List Expr
  | [] => []
  | .list .square _ :: rest => ofArguments rest
  | s :: rest => ofForm s :: ofArguments rest

noncomputable def ofFields : List Sexp → List (FieldInit Expr)
  | .word name :: s :: rest => ⟨textBehind 1 name, ofForm s, default⟩ :: ofFields rest
  | _ => []

noncomputable def ofArms : List Sexp → List (MatchArm Expr)
  | .list _ [.word tag, .word binding, s] :: rest =>
    ⟨⟨tag, default⟩, ⟨binding, default⟩, ofForm s, default⟩ :: ofArms rest
  | _ => []

end

end Expr

/-! ## Forms are read back -/

/-- What is read of a form of an item is the merged outline. The name of a parameter has no dots in front. -/
def Item.ReadBack : Item → Prop
  | type t => TypeExpr.ofForm t.form = t.outline true
  | parameter p => p.name.value.toList.head? ≠ some '.' ∧ TypeExpr.ofForm p.type.form = p.type.outline true
  | expr e => Expr.ofForm e.form = e.outline true
  | field f => Expr.ofForm f.value.form = f.value.outline true
  | arm a => Expr.ofForm a.body.form = a.body.outline true
  | alternative a => TypeExpr.ofForm a.payload.form = a.payload.outline true
  | token _ | declaration _ | body _ => True

open Item (ReadBack)

theorem Generics.ofForms_map (names : Generics) : ofForms (names.map fun name => .word name.value) = names.outline := by
  rw [ofForms, List.map_map]
  rfl

namespace TypeExpr

theorem isSquare_form (t : TypeExpr) : t.form.isSquare = false := by
  cases t with
  | named site name arguments => cases arguments <;> rfl
  | _ => rfl

theorem isGroup_form (t : TypeExpr) : t.form.isGroup = false := by
  cases t with
  | named site name arguments => cases arguments <;> rfl
  | _ => rfl

theorem isGroup_formParameters (ps : ParameterList (Parameter TypeExpr)) : (formParameters ps).isGroup = true := by
  cases ps with
  | fixed ps => cases ps <;> rfl
  | variadic p => rfl

theorem ofEach_formEach {types : List TypeExpr} (h : ∀ t ∈ types, ofForm t.form = t.outline true) :
    ofEach (formEach types) = outlineEach true types := by
  induction types with
  | nil => rfl
  | cons t rest ih =>
    obtain ⟨ht, hrest⟩ := List.forall_mem_cons.mp h
    rw [formEach, ofEach, ht, ih hrest, outlineEach]

theorem ofFields_formFields {fields : List (String × TypeExpr)}
    (h : ∀ field ∈ fields, ofForm field.2.form = field.2.outline true) :
    ofFields (formFields fields) = outlineFields true fields := by
  induction fields with
  | nil => rfl
  | cons field rest ih =>
    obtain ⟨hfield, hrest⟩ := List.forall_mem_cons.mp h
    have hname : textBehind 1 (":" ++ field.1) = field.1 := textBehind_append (s := ":") rfl field.1
    rw [formFields, ofFields, hname, hfield, ih hrest, outlineFields]

theorem ofEachParameter_formEachParameter {ps : List (Parameter TypeExpr)}
    (h : ∀ p ∈ ps, (Item.parameter p).ReadBack) :
    ofEachParameter (formEachParameter ps) = outlineEachParameter true ps := by
  induction ps with
  | nil => rfl
  | cons p rest ih =>
    obtain ⟨⟨-, htype⟩, hrest⟩ := List.forall_mem_cons.mp h
    rw [formEachParameter, Parameter.formWith, ofEachParameter, htype, ih hrest, outlineEachParameter]
    rfl

theorem ofParameters_form {ps : ParameterList (Parameter TypeExpr)} (h : ∀ c ∈ Item.ofParameters ps, c.ReadBack) :
    ofParameters (formParameters ps) = outlineParameters true ps := by
  cases ps with
  | fixed ps =>
    have hps : ∀ p ∈ ps, (Item.parameter p).ReadBack := fun p hp => h _ (List.mem_map_of_mem hp)
    rw [formParameters, ofParameters, ofEachParameter_formEachParameter hps, outlineParameters]
    rcases ps with _ | ⟨p, _ | ⟨q, rest⟩⟩
    · rfl
    · rw [outlineEachParameter, outlineEachParameter, gathered]
      exact if_neg (hps p List.mem_cons_self).1
    · rfl
  | variadic p =>
    obtain ⟨-, htype⟩ := h (.parameter p) (List.mem_singleton.mpr rfl)
    have hdots : ("..." ++ p.name.value).toList.head? = some '.' := by
      rw [String.toList_append]
      rfl
    have hname : textBehind 3 ("..." ++ p.name.value) = p.name.value := textBehind_append (s := "...") rfl p.name.value
    have hone : ofParameters (formParameters (.variadic p)) =
      gathered [⟨⟨"..." ++ p.name.value, default⟩, ofForm p.type.form, default⟩] := rfl
    rw [hone, gathered, if_pos hdots, hname, htype, outlineParameters]
    rfl

theorem ofForm_two (name : String) (first second : Sexp) : ofForm (.list .round [.word name, first, second]) =
    if first.isGroup then function default [] (ofParameters first) (ofForm second)
    else outlineNamed true name [ofForm first, ofForm second] := rfl

theorem ofForm_three (name : String) (first second third : Sexp) :
    ofForm (.list .round [.word name, first, second, third]) =
      if first.isSquare then function default (Generics.ofForms first.items) (ofParameters second) (ofForm third)
      else outlineNamed true name [ofForm first, ofForm second, ofForm third] := rfl

theorem ofForm_form {t : TypeExpr} (h : ∀ c ∈ t.items, c.ReadBack) : ofForm t.form = t.outline true := by
  cases t with
  | named site name arguments =>
    have heach : ∀ a ∈ arguments, ofForm a.form = a.outline true := fun a ha => h (.type a) (List.mem_map_of_mem ha)
    rw [outline, ← ofEach_formEach heach]
    rcases arguments with _ | ⟨a, _ | ⟨b, _ | ⟨c, _ | ⟨d, rest⟩⟩⟩⟩
    · rfl
    · rfl
    · refine (ofForm_two name a.form b.form).trans ?_
      rw [isGroup_form, if_neg Bool.false_ne_true]
      rfl
    · refine (ofForm_three name a.form b.form c.form).trans ?_
      rw [isSquare_form, if_neg Bool.false_ne_true]
      rfl
    · rfl
  | object site fields =>
    have hfields : ∀ field ∈ fields, ofForm field.2.form = field.2.outline true :=
      fun field hfield => h (.type field.2) (List.mem_map.mpr ⟨field, hfield, rfl⟩)
    rw [form, ofForm, ofFields_formFields hfields, outline]
  | function site names ps result =>
    simp only [items, List.forall_mem_append, List.forall_mem_cons] at h
    obtain ⟨⟨-, hps⟩, hresult, -⟩ := h
    have hresult : ofForm result.form = result.outline true := hresult
    rw [outline, ← ofParameters_form hps, ← hresult]
    cases names with
    | nil =>
      refine (ofForm_two "Fn" (formParameters ps) result.form).trans ?_
      rw [isGroup_formParameters, if_pos rfl]
      rfl
    | cons name names =>
      rw [← Generics.ofForms_map]
      rfl
  | nullable site inner =>
    have hinner : ofForm inner.form = inner.outline true := h (.type inner) (List.mem_singleton.mpr rfl)
    rw [outline, ← hinner]
    rfl

end TypeExpr

/-! ### Words -/

/-- The word of a number: a digit in it tells it from all words that are told by what they are. -/
structure IsNumeral (s : String) : Prop where
  digit : ∃ c ∈ s.toList, c.isDigit = true
  head : ∀ c ∈ s.toList.head?, c.isDigit = true ∨ c = '-'

namespace IsNumeral

variable {s t : String}

theorem ne (h : IsNumeral s) (ht : t.toList.all (!·.isDigit) = true) : s ≠ t := by
  rintro rfl
  obtain ⟨c, hmem, hc⟩ := h.digit
  have hnot := List.all_eq_true.mp ht c hmem
  rw [hc] at hnot
  cases hnot

theorem isName (h : IsNumeral s) : Token.isName s = false := by
  rw [← Bool.not_eq_true]
  intro hname
  obtain ⟨c, rest, htext, hstart, -⟩ := Token.exists_of_isName hname
  rcases h.head c (by rw [htext]; rfl) with hc | rfl
  · exact Token.not_isDigit_of_isNameStart hstart hc
  · cases hstart

theorem callee (h : IsNumeral s) : Head.ofWord s = .callee := by
  have hothers : ∀ entry ∈ Head.table, entry.1.toList.all (!·.isDigit) = true := by decide +kernel
  refine Head.ofWord_eq_callee ?_ fun entry hentry => h.ne (hothers entry hentry)
  intro hdot
  rcases h.head '.' hdot with hc | hc <;> cases hc

end IsNumeral

theorem Decimal.Reads.isNumeral {s : String} (h : Reads s) : IsNumeral s := by
  obtain ⟨c, cs, hs, hc⟩ := h.leads
  refine ⟨⟨c, by rw [hs]; exact List.mem_cons_self, hc⟩, fun d hd => .inl ?_⟩
  rw [hs] at hd
  cases hd
  exact hc

theorem isNumeral_bigInteger {digits : String} (h : Token.IsDigits digits.toList) : IsNumeral (digits ++ "n") := by
  obtain ⟨c, cs, hs, hc⟩ := h.exists_cons
  refine ⟨⟨c, ?_, hc⟩, fun d hd => .inl ?_⟩
  · rw [String.toList_append, hs]
    exact List.mem_cons_self
  · rw [String.toList_append, hs] at hd
    cases hd
    exact hc

/-- A number is written as a name, or as a numeral that does not end like a big integer, or else is `-inf`. -/
theorem numberText_cases (x : Float) : Token.isName (numberText .source x) = true ∨ numberText .source x = "-inf" ∨
    IsNumeral (numberText .source x) ∧ (numberText .source x).toList.getLast? ≠ some 'n' ∧ x.isNaN = false := by
  cases hx : x.isNaN with
  | true =>
    rw [numberText, Binary64.ofFloat_eq_nan_iff.mpr hx]
    exact .inl (by decide)
  | false =>
    have h := numberText_of_isNaN_eq_false Decimal.marksWhole_source hx
    generalize numberText .source x = text at h
    have hlast {s : String} (hs : Decimal.Reads s) : s.toList.getLast? ≠ some 'n' := by
      intro hn
      have hmark := hs.marks 'n' (List.mem_of_getLast? hn)
      cases hmark
    cases h with
    | finite h => exact .inr (.inr ⟨h.isNumeral, hlast h, rfl⟩)
    | @negative s h =>
      obtain ⟨c, cs, hs, hc⟩ := h.leads
      have htext : ("-" ++ s).toList = '-' :: s.toList := String.toList_append
      refine .inr (.inr ⟨⟨⟨c, ?_, hc⟩, fun d hd => .inr ?_⟩, ?_, rfl⟩)
      · rw [htext, hs]
        exact List.mem_cons_of_mem _ List.mem_cons_self
      · rw [htext] at hd
        exact (Option.some.inj hd).symm
      · rw [htext, hs, List.getLast?_cons_cons, ← hs]
        exact hlast h
    | infinite => exact .inl (by decide)
    | negativeInfinite => exact .inr (.inl rfl)

namespace Expr

theorem ofWord_name {name : String} (h : Token.isName name = true) : ofWord name = reference default name := if_pos h

theorem ofWord_boolean (b : Bool) : ofWord (if b then "true" else "false") = boolean default b := by
  cases b with
  | true => rw [ofWord, if_neg (by decide), if_pos (by decide)]
  | false => rw [ofWord, if_neg (by decide), if_neg (by decide), if_pos (by decide)]

theorem ofWord_null : ofWord "null" = null default := by
  rw [ofWord, if_neg (by decide), if_neg (by decide), if_neg (by decide), if_pos rfl]

theorem ofWord_of_isNumeral {s : String} (h : IsNumeral s) : ofWord s =
    if s.toList.getLast? = some 'n' then bigInteger default (String.ofList s.toList.dropLast)
    else number default (numberOf s) := by
  rw [ofWord, h.isName, if_neg Bool.false_ne_true, if_neg (h.ne (by decide)), if_neg (h.ne (by decide)),
    if_neg (h.ne (by decide))]

theorem ofWord_bigInteger {digits : String} (h : Token.IsDigits digits.toList) :
    ofWord (digits ++ "n") = bigInteger default digits := by
  have htext : (digits ++ "n").toList = digits.toList ++ ['n'] := String.toList_append
  rw [ofWord_of_isNumeral (isNumeral_bigInteger h), htext, List.getLast?_concat, if_pos rfl, List.dropLast_concat,
    String.ofList_toList]

/-- The text of a number tells it, unless it is a name. -/
theorem numberOf_numberText {x : Float} (h : Token.isName (numberText .source x) = false) :
    numberOf (numberText .source x) = x := by
  have hreads : numberText .source (numberOf (numberText .source x)) = numberText .source x :=
    Function.invFun_eq ⟨x, rfl⟩
  have hnan {y : Float} (hy : numberText .source y = numberText .source x) : y.isNaN = false := by
    rw [← Bool.not_eq_true]
    intro hnan
    rw [← hy, numberText, Binary64.ofFloat_eq_nan_iff.mpr hnan] at h
    cases h
  exact numberText_injective Decimal.marksWhole_source (hnan hreads) (hnan rfl) hreads

theorem ofWord_number (x : Float) : ofWord (numberText .source x) = outlineNumber true x := by
  rw [outlineNumber, Bool.true_and]
  cases hname : Token.isName (numberText .source x) with
  | true => exact ofWord_name hname
  | false =>
    rw [if_neg Bool.false_ne_true]
    rcases numberText_cases x with h | h | ⟨h, hlast, -⟩
    · rw [hname] at h
      cases h
    · have hnumber := numberOf_numberText hname
      rw [h] at hnumber ⊢
      rw [ofWord, if_neg (by decide), if_neg (by decide), if_neg (by decide), if_neg (by decide), if_neg (by decide),
        hnumber]
    · rw [ofWord_of_isNumeral h, if_neg hlast, numberOf_numberText hname]

/-- A word that an expression is written as does not tell what kind of list it leads. -/
theorem callee_of_form_eq {e : Expr} (hnames : ∀ name ∈ e.names, Token.isName name = true)
    (hdigits : ∀ digits ∈ e.digits, Token.IsDigits digits.toList) {s : String} (h : e.form = .word s) :
    Head.ofWord s = .callee := by
  cases e with
  | number site x =>
    obtain rfl := Sexp.word.inj h
    rcases numberText_cases x with hname | hinf | ⟨hnumeral, -⟩
    · exact Head.ofWord_name hname
    · rw [hinf]
      decide
    · exact hnumeral.callee
  | bigInteger site digits =>
    obtain rfl := Sexp.word.inj h
    exact (isNumeral_bigInteger (hdigits digits (List.mem_singleton.mpr rfl))).callee
  | boolean site b =>
    obtain rfl := Sexp.word.inj h
    cases b <;> decide
  | null site =>
    obtain rfl := Sexp.word.inj h
    decide
  | reference site name =>
    obtain rfl := Sexp.word.inj h
    exact Head.ofWord_name (hnames name (List.mem_singleton.mpr rfl))
  | _ => cases h

/-! ### Calls -/

theorem isSquare_form (e : Expr) : e.form.isSquare = false := by cases e <;> rfl

theorem ofArguments_cons {s : Sexp} (h : s.isSquare = false) (rest : List Sexp) :
    ofArguments (s :: rest) = ofForm s :: ofArguments rest := by
  cases s with
  | word s => rfl
  | list b items =>
    cases b with
    | square => cases h
    | _ => rfl

theorem typesIn_cons {s : Sexp} (h : s.isSquare = false) (rest : List Sexp) : typesIn (s :: rest) = typesIn rest := by
  cases s with
  | word s => rfl
  | list b items =>
    cases b with
    | square => cases h
    | _ => rfl

theorem ofArguments_formEach {es : List Expr} (h : ∀ e ∈ es, ofForm e.form = e.outline true) :
    ofArguments (formEach es) = outlineEach true es := by
  induction es with
  | nil => rfl
  | cons e rest ih =>
    obtain ⟨he, hrest⟩ := List.forall_mem_cons.mp h
    rw [formEach, ofArguments_cons e.isSquare_form, he, ih hrest, outlineEach]

theorem typesIn_formEach (es : List Expr) : typesIn (formEach es) = [] := by
  induction es with
  | nil => rfl
  | cons e rest ih => rw [formEach, typesIn_cons e.isSquare_form, ih]

theorem ofArguments_call (types : List TypeExpr) {es : List Expr} (h : ∀ e ∈ es, ofForm e.form = e.outline true) :
    ofArguments (TypeExpr.formsInBrackets types ++ formEach es) = outlineEach true es := by
  rw [← ofArguments_formEach h]
  cases types <;> rfl

theorem typesIn_call {types : List TypeExpr} (h : ∀ t ∈ types, TypeExpr.ofForm t.form = t.outline true)
    (es : List Expr) :
    typesIn (TypeExpr.formsInBrackets types ++ formEach es) = types.map (TypeExpr.outline true) := by
  cases types with
  | nil => exact typesIn_formEach es
  | cons t rest =>
    have hall : typesIn (TypeExpr.formsInBrackets (t :: rest) ++ formEach es) =
      ((t :: rest).map TypeExpr.form).map TypeExpr.ofForm ++ typesIn (formEach es) := rfl
    rw [hall, typesIn_formEach, List.append_nil, List.map_map]
    exact List.map_congr_left h

/-! ### Expressions -/

theorem ofFields_formFields {fields : List (FieldInit Expr)} (h : ∀ f ∈ fields, (Item.field f).ReadBack) :
    ofFields (formFields fields) = outlineFields true fields := by
  induction fields with
  | nil => rfl
  | cons f rest ih =>
    obtain ⟨hvalue, hrest⟩ := List.forall_mem_cons.mp h
    have hvalue : ofForm f.value.form = f.value.outline true := hvalue
    have hname : textBehind 1 (":" ++ f.name) = f.name := textBehind_append (s := ":") rfl f.name
    rw [formFields, ofFields, hname, hvalue, ih hrest, outlineFields]

theorem ofArms_formArms {arms : List (MatchArm Expr)} (h : ∀ arm ∈ arms, (Item.arm arm).ReadBack) :
    ofArms (formArms arms) = outlineArms true arms := by
  induction arms with
  | nil => rfl
  | cons arm rest ih =>
    obtain ⟨hbody, hrest⟩ := List.forall_mem_cons.mp h
    have hbody : ofForm arm.body.form = arm.body.outline true := hbody
    rw [formArms, ofArms, hbody, ih hrest, outlineArms]
    rfl

theorem ofForm_callee {s : String} (h : Head.ofWord s = .callee) (items : List Sexp) :
    ofForm (.list .round (.word s :: items)) = outlineCall true (ofWord s) (typesIn items) (ofArguments items) := by
  rw [ofForm]
  all_goals simp [h]

theorem ofForm_form {e : Expr} (hnamed : ∀ c ∈ e.items, c.Named) (hnames : ∀ name ∈ e.names, Token.isName name = true)
    (hdigits : ∀ digits ∈ e.digits, Token.IsDigits digits.toList) (h : ∀ c ∈ e.items, c.ReadBack) :
    ofForm e.form = e.outline true := by
  have hpart (part : Expr) (hmem : .expr part ∈ e.items) : ofForm part.form = part.outline true := h (.expr part) hmem
  cases e with
  | number site x => exact ofWord_number x
  | bigInteger site digits => exact ofWord_bigInteger (hdigits digits (List.mem_singleton.mpr rfl))
  | boolean site b => exact ofWord_boolean b
  | null site => exact ofWord_null
  | object site fields =>
    have hfields := ofFields_formFields fun f hf => h (.field f) (List.mem_map_of_mem hf)
    rw [form, ofForm, hfields, outline]
  | reference site name => exact ofWord_name (hnames name (List.mem_singleton.mpr rfl))
  | binary site op lhs rhs =>
    rw [outline, ← hpart lhs (by simp [items]), ← hpart rhs (by simp [items]), form]
    simp only [ofForm, Head.ofWord_binary, BinaryOp.ofSymbol?_symbol, Option.getD_some]
  | unary site op operand =>
    rw [outline, ← hpart operand (by simp [items]), form]
    simp only [ofForm, Head.ofWord_unary, UnaryOp.ofSymbol?_symbol, Option.getD_some]
  | conditional site condition thenBranch elseBranch =>
    rw [outline, ← hpart condition (by simp [items]), ← hpart thenBranch (by simp [items]),
      ← hpart elseBranch (by simp [items])]
    rfl
  | call site callee types arguments =>
    have htypes : ∀ t ∈ types, TypeExpr.ofForm t.form = t.outline true :=
      fun t ht => h (.type t) (by simp [items, ht])
    have harguments : ∀ a ∈ arguments, ofForm a.form = a.outline true := fun a ha => hpart a (by simp [items, ha])
    rw [outline, ← ofArguments_call types harguments, ← typesIn_call htypes arguments, ← hpart callee (by simp [items]),
      form]
    obtain ⟨hnames, hdigits⟩ := hnamed (.expr callee) (by simp [items])
    cases hform : callee.form with
    | list b inner => rfl
    | word s => exact ofForm_callee (callee_of_form_eq hnames hdigits hform) _
  | lambda site names ps result body =>
    simp only [items, List.forall_mem_append, List.forall_mem_cons] at h
    obtain ⟨⟨⟨-, hps⟩, hresult⟩, hbody, -⟩ := h
    have hbody : ofForm body.form = body.outline true := hbody
    rw [outline, ← TypeExpr.ofParameters_form hps, ← hbody]
    cases result with
    | none =>
      cases names with
      | nil => rfl
      | cons name names =>
        rw [← Generics.ofForms_map]
        rfl
    | some type =>
      have htype : TypeExpr.ofForm type.form = type.outline true := hresult (.type type) (List.mem_singleton.mpr rfl)
      rw [Option.map_some, ← htype]
      cases names with
      | nil => rfl
      | cons name names =>
        rw [← Generics.ofForms_map]
        rfl
  | field site owner name =>
    have hname : textBehind 1 ("." ++ name) = name := textBehind_append (s := ".") rfl name
    rw [outline, ← hpart owner (by simp [items]), form]
    simp only [ofForm, Head.ofWord_dotted, hname]
  | tagged site value tag =>
    have htag : ofWord tag = reference default tag := ofWord_name (hnames tag (List.mem_singleton.mpr rfl))
    have hcallee : ofWord "tag" = reference default "tag" := ofWord_name (by decide)
    refine (ofForm_callee (by decide) _).trans ?_
    rw [hcallee, typesIn_cons value.isSquare_form, ofArguments_cons value.isSquare_form, hpart value (by simp [items])]
    change outlineCall true _ [] [_, ofWord tag] = _
    rw [htag]
    rfl
  | hasTag site value tag =>
    rw [outline, ← hpart value (by simp [items])]
    rfl
  | untag site value =>
    rw [outline, ← hpart value (by simp [items])]
    rfl
  | cases site scrutinee arms =>
    have harms : ofArms (formArms arms) = outlineArms true arms :=
      ofArms_formArms fun arm harm => h (.arm arm) (by simp [items, harm])
    rw [outline, ← hpart scrutinee (by simp [items]), ← harms]
    rfl

end Expr

/-- What is read of a form of an item is the merged outline, if there are names in the places of names. -/
theorem Item.Spelled.readBack {i : Item} (h : i.Spelled) : i.ReadBack := by
  induction i using Item.parts_induction with
  | step i ih =>
    obtain ⟨⟨hnames, hdigits⟩, hchildren⟩ := spelled_iff.mp h
    have hparts : ∀ c ∈ i.children, c.ReadBack := fun c hc => ih c hc (hchildren c hc)
    have hnamed : ∀ c ∈ i.children, c.Named := fun c hc => (spelled_iff.mp (hchildren c hc)).1
    cases i with
    | token | declaration | body => trivial
    | type t => exact TypeExpr.ofForm_form hparts
    | parameter p =>
      exact ⟨Token.head?_ne_dot (hnames p.name.value (by simp [names])), hparts (.type p.type) (by simp [children])⟩
    | expr e => exact Expr.ofForm_form hnamed hnames hdigits hparts
    | field f => exact hparts (.expr f.value) (by simp [children])
    | arm a => exact hparts (.expr a.body) (by simp [children])
    | alternative a => exact hparts (.type a.payload) (by simp [children])

end Sable
