import Sable.Proofs.Number.Text
import Sable.Proofs.Tree.Items
import Sable.Proofs.Tree.Printed
import Sable.Proofs.Tree.Sexp

/-!
What a dump says: a list for every node and every declaration, with a word in front that tells its kind.

A dump spells these lists (`Item.Spelled.dumped`) where what stands for a name in the tree is a name: then it is a word,
and where it begins and ends can be told.
-/

namespace Sable

/-! ## Words -/

/-- The text is one word. -/
def IsWord (s : String) : Prop := s ≠ "" ∧ s.toList.all Lexeme.isPart = true

instance (s : String) : Decidable (IsWord s) := inferInstanceAs (Decidable (_ ∧ _))

namespace IsWord

variable {s t : String}

theorem spells (h : IsWord s) : Spells s [.word s] := spells_word h.1 (List.all_eq_true.mp h.2)

theorem append (h : IsWord s) (h' : IsWord t) : IsWord (s ++ t) := by
  refine ⟨fun hempty => h.1 (String.append_eq_empty_iff.mp hempty).1, ?_⟩
  rw [String.toList_append, List.all_append, h.2, h'.2]
  rfl

end IsWord

/-- What ends a word is one of these. -/
theorem Lexeme.isPart_of_ne {c : Char} (h : ∀ d ∈ [' ', '\n', '(', ')', '[', ']', '\x7b', '\x7d'], c ≠ d) :
    isPart c = true := by
  simp only [List.forall_mem_cons, List.not_mem_nil, false_implies, implies_true, and_true] at h
  obtain ⟨hblank, hline, h⟩ := h
  have hgap : isGap c = false := by simp [isGap, hblank, hline]
  have hbracket : ofBracket? c = none := by
    unfold ofBracket?
    split <;> simp_all
  rw [isPart, hgap, hbracket]
  rfl

/-- A text of characters none of which ends a word. -/
theorem isWord_of_all {p : Char → Bool} (hp : [' ', '\n', '(', ')', '[', ']', '\x7b', '\x7d'].all (!p ·) = true)
    {s : String} (hne : s ≠ "") (hs : ∀ c ∈ s.toList, p c = true) : IsWord s := by
  refine ⟨hne, List.all_eq_true.mpr fun c hc => Lexeme.isPart_of_ne fun d hd heq => ?_⟩
  have hd := List.all_eq_true.mp hp d hd
  rw [← heq, hs c hc] at hd
  cases hd

theorem isWord_of_isName {name : String} (h : Token.isName name = true) : IsWord name := by
  obtain ⟨c, rest, htext, -, hparts, -⟩ := Token.exists_of_isName h
  refine isWord_of_all (p := Token.isNamePart) (by decide) ?_ hparts
  rintro rfl
  cases htext

theorem isWord_of_isDigits {digits : String} (h : Token.IsDigits digits.toList) : IsWord digits := by
  refine isWord_of_all (p := Char.isDigit) (by decide) ?_ h.2
  rintro rfl
  exact h.1 rfl

theorem Decimal.Reads.isWord {s : String} (h : Reads s) : IsWord s := by
  refine isWord_of_all (p := isMark) (by decide) ?_ h.marks
  rintro rfl
  obtain ⟨c, cs, hs, -⟩ := h.leads
  cases hs

theorem isWord_numberText (x : Float) : IsWord (numberText .source x) := by
  cases hx : x.isNaN with
  | true =>
    rw [numberText, Binary64.ofFloat_eq_nan_iff.mpr hx]
    decide
  | false =>
    have h := numberText_of_isNaN_eq_false Decimal.marksWhole_source hx
    generalize numberText .source x = text at h
    cases h with
    | finite h => exact h.isWord
    | @negative s h =>
      have hsign : IsWord "-" := by decide
      exact hsign.append h.isWord
    | infinite => decide
    | negativeInfinite => decide

theorem BinaryOp.isWord_symbol (op : BinaryOp) : IsWord op.symbol := by
  rcases op with op | op | op <;> cases op <;> decide

theorem UnaryOp.isWord_symbol (op : UnaryOp) : IsWord op.symbol := by cases op <;> decide

/-! ## Forms -/

/-- The names in a list, if there are any. -/
def Generics.forms (names : Generics) : List Sexp :=
  if names.isEmpty then [] else [.list .square (names.map fun name => .word name.value)]

/-- A parameter, `(name : type)`. -/
def Parameter.formWith (name : String) (type : Sexp) : Sexp := .list .round [.word name, .word ":", type]

namespace TypeExpr

mutual

def form : TypeExpr → Sexp
  | named _ name arguments =>
    if arguments.isEmpty then .word name else .list .round (.word name :: formEach arguments)
  | object _ fields => .list .curly (formFields fields)
  | function _ names ps result => .list .round (.word "Fn" :: names.forms ++ [formParameters ps] ++ [result.form])
  | nullable _ inner => .list .round [.word "Nullable", inner.form]

def formEach : List TypeExpr → List Sexp
  | [] => []
  | type :: rest => type.form :: formEach rest

def formFields : List (String × TypeExpr) → List Sexp
  | [] => []
  | (name, type) :: rest => .word (":" ++ name) :: type.form :: formFields rest

def formParameters : ParameterList (Parameter TypeExpr) → Sexp
  | .fixed ps => .list .round (formEachParameter ps)
  | .variadic ⟨name, type, _⟩ => .list .round [Parameter.formWith ("..." ++ name.value) type.form]

def formEachParameter : List (Parameter TypeExpr) → List Sexp
  | [] => []
  | ⟨name, type, _⟩ :: rest => Parameter.formWith name.value type.form :: formEachParameter rest

end

/-- The type after a colon, or nothing. -/
def annotationForms : Option TypeExpr → List Sexp
  | some type => [.word ":", type.form]
  | none => []

/-- Types in a list, if there are any. -/
def formsInBrackets (types : List TypeExpr) : List Sexp :=
  if types.isEmpty then [] else [.list .square (types.map form)]

theorem formEach_eq_map (types : List TypeExpr) : formEach types = types.map form := by
  induction types with
  | nil => rfl
  | cons type rest ih => rw [formEach, ih, List.map_cons]

theorem formFields_eq_flatMap (fields : List (String × TypeExpr)) :
    formFields fields = fields.flatMap fun field => [.word (":" ++ field.1), field.2.form] := by
  induction fields with
  | nil => rfl
  | cons field rest ih => rw [formFields, ih, List.flatMap_cons, List.cons_append, List.singleton_append]

theorem formEachParameter_eq_map (ps : List (Parameter TypeExpr)) :
    formEachParameter ps = ps.map fun p => Parameter.formWith p.name.value p.type.form := by
  induction ps with
  | nil => rfl
  | cons p rest ih => rw [formEachParameter, ih, List.map_cons]

end TypeExpr

namespace Expr

mutual

def form : Expr → Sexp
  | number _ x => .word (numberText .source x)
  | bigInteger _ digits => .word (digits ++ "n")
  | boolean _ b => .word (if b then "true" else "false")
  | null _ => .word "null"
  | object _ fields => .list .curly (formFields fields)
  | reference _ name => .word name
  | binary _ op lhs rhs => .list .round [.word op.symbol, lhs.form, rhs.form]
  | unary _ op operand => .list .round [.word op.symbol, operand.form]
  | conditional _ condition thenBranch elseBranch =>
    .list .round [.word "if", condition.form, thenBranch.form, elseBranch.form]
  | call _ callee types arguments =>
    .list .round (callee.form :: TypeExpr.formsInBrackets types ++ formEach arguments)
  | lambda _ names ps result body =>
    .list .round (.word "fn" :: names.forms ++ [TypeExpr.formParameters ps] ++ TypeExpr.annotationForms result
      ++ [body.form])
  | field _ owner name => .list .round [.word ("." ++ name), owner.form]
  | tagged _ value tag => .list .round [.word "tag", value.form, .word tag]
  | hasTag _ value tag => .list .round [.word "is", value.form, .word tag]
  | untag _ value => .list .round [.word "untag", value.form]
  | cases _ scrutinee arms => .list .round (.word "match" :: scrutinee.form :: formArms arms)

def formEach : List Expr → List Sexp
  | [] => []
  | e :: rest => e.form :: formEach rest

def formFields : List (FieldInit Expr) → List Sexp
  | [] => []
  | ⟨name, value, _⟩ :: rest => .word (":" ++ name) :: value.form :: formFields rest

def formArms : List (MatchArm Expr) → List Sexp
  | [] => []
  | ⟨tag, binding, body, _⟩ :: rest =>
    .list .round [.word tag.value, .word binding.value, body.form] :: formArms rest

end

theorem formEach_eq_map (es : List Expr) : formEach es = es.map form := by
  induction es with
  | nil => rfl
  | cons e rest ih => rw [formEach, ih, List.map_cons]

theorem formFields_eq_flatMap (fields : List (FieldInit Expr)) :
    formFields fields = fields.flatMap fun field => [.word (":" ++ field.name), field.value.form] := by
  induction fields with
  | nil => rfl
  | cons field rest ih => rw [formFields, ih, List.flatMap_cons, List.cons_append, List.singleton_append]

theorem formArms_eq_map (arms : List (MatchArm Expr)) : formArms arms =
    arms.map fun arm => .list .round [.word arm.tag.value, .word arm.binding.value, arm.body.form] := by
  induction arms with
  | nil => rfl
  | cons arm rest ih => rw [formArms, ih, List.map_cons]

end Expr

/-- An alternative, `(tag payload)`. -/
def Alternative.form (a : Alternative) : Sexp := .list .round [.word a.tag, a.payload.form]

mutual

def Declaration.form : Declaration → Sexp
  | .value _ name type value =>
    .list .round (.word "val" :: .word name.value :: TypeExpr.annotationForms type ++ [value.form])
  | .function _ name names ps result body =>
    .list .round (.word "def" :: .word name.value :: names.forms ++ [TypeExpr.formParameters ps]
      ++ TypeExpr.annotationForms result ++ body.forms)
  | .external _ name names ps result =>
    .list .round (.word "external" :: .word "def" :: .word name.value :: names.forms
      ++ [TypeExpr.formParameters ps] ++ TypeExpr.annotationForms (some result))
  | .alias _ name names target =>
    .list .round (.word "type" :: .word name.value :: names.forms ++ [target.form])
  | .union _ name names alternatives =>
    .list .round (.word "union" :: .word name.value :: names.forms ++ alternatives.map Alternative.form)

def Declaration.formEach : List Declaration → List Sexp
  | [] => []
  | d :: rest => d.form :: Declaration.formEach rest

/-- The declarations, and the result behind them. -/
def Body.forms : Body → List Sexp
  | .mk declarations result _ => Declaration.formEach declarations ++ [.list .round [.word "return", result.form]]

end

theorem Declaration.formEach_eq_map (ds : List Declaration) : formEach ds = ds.map form := by
  induction ds with
  | nil => rfl
  | cons d rest ih => rw [formEach, ih, List.map_cons]

/-! ## Trees with names in them -/

def Generics.names (names : Generics) : List String := names.map (·.value)

def TypeExpr.names : TypeExpr → List String
  | named _ name _ => [name]
  | object _ fields => fields.map (·.1)
  | function _ names _ _ => names.names
  | nullable .. => []

def Expr.names : Expr → List String
  | reference _ name | field _ _ name | tagged _ _ name | hasTag _ _ name => [name]
  | lambda _ names .. => names.names
  | _ => []

/-- The digits of a big integer. -/
def Expr.digits : Expr → List String
  | bigInteger _ digits => [digits]
  | _ => []

def Declaration.names : Declaration → List String
  | .value _ name .. => [name.value]
  | .function _ name names .. | .external _ name names .. | .alias _ name names _ | .union _ name names _ =>
    name.value :: names.names

namespace Item

/-- What stands for a name in the item itself, not in one that it is made of. -/
def names : Item → List String
  | token _ | body _ => []
  | type t => t.names
  | parameter p => [p.name.value]
  | expr e => e.names
  | field f => [f.name]
  | arm a => [a.tag.value, a.binding.value]
  | alternative a => [a.tag]
  | declaration d => d.names

def digits : Item → List String
  | expr e => e.digits
  | _ => []

/-- What stands for a name in the item itself is one, and so is what stands for digits. -/
structure Named (i : Item) : Prop where
  names : ∀ name ∈ i.names, Token.isName name = true
  digits : ∀ digits ∈ i.digits, Token.IsDigits digits.toList

/-- So is everything in the item. -/
def Spelled (i : Item) : Prop := ∀ inner ∈ i.postorder, inner.Named

theorem spelled_iff {i : Item} : i.Spelled ↔ i.Named ∧ ∀ c ∈ i.children, c.Spelled := forall_mem_postorder_iff

/-- What is told of the dump of an item: the forms that it spells, and the words in front of them. -/
def Dumped : Item → Prop
  | token _ => True
  | type t => Spells t.dump [t.form]
  | parameter p => IsWord p.name.value ∧ Spells p.type.dump [p.type.form]
  | expr e => Spells e.dump [e.form]
  | field f => IsWord f.name ∧ Spells f.value.dump [f.value.form]
  | arm a => IsWord a.tag.value ∧ IsWord a.binding.value ∧ Spells a.body.dump [a.body.form]
  | alternative a => IsWord a.tag ∧ Spells a.payload.dump [a.payload.form]
  | declaration d => ∀ depth, SpellsLines (d.dump depth) [d.form]
  | body b => ∀ depth, SpellsLines (b.dump depth) b.forms

end Item

/-! ## Dumps spell forms -/

section

variable {s t : String} {items others : List Sexp}

theorem Spells.of_toList (h : Spells s items) (heq : t.toList = s.toList) : Spells t items := by
  obtain rfl := String.toList_injective heq
  exact h

end

theorem blank_paren (s : String) : " (" ++ s = " " ++ ("(" ++ s) := by
  rw [← String.append_assoc]
  rfl

section

variable {names : Generics}

theorem Generics.breaks_dump (names : Generics) : Breaks names.dump := by
  unfold dump
  split
  · decide
  · exact Bracket.breaks_list .square _

theorem Generics.spells_dump (h : ∀ name ∈ names.names, IsWord name) : Spells names.dump names.forms := by
  unfold dump forms
  split
  · exact spells_nil
  · have heach : SpellsEach (names.map (·.value)) (names.map fun name => .word name.value) :=
      spellsEach_map_one fun name hname => (h name.value (List.mem_map_of_mem hname)).spells
    exact heach.spaced.list .square

/-- A word with names in brackets right behind it. -/
theorem IsWord.spells_generics {s : String} (h : IsWord s) (hnames : ∀ name ∈ names.names, IsWord name) :
    Spells (s ++ names.dump) (.word s :: names.forms) :=
  h.spells.append (Generics.spells_dump hnames) names.breaks_dump

end

open Item (Dumped)

namespace TypeExpr

theorem spells_typed {name text : String} {form : Sexp} (hname : IsWord name) (h : Spells text [form]) :
    Spells ("(" ++ name ++ " : " ++ text ++ ")") [Parameter.formWith name form] :=
  have hcolon : IsWord ":" := by decide
  (((hname.spells.spaced hcolon.spells).spaced h).list .round).of_toList (by simp [Bracket.opened, Bracket.closed])

theorem spells_parameters {ps : ParameterList (Parameter TypeExpr)} (h : ∀ c ∈ Item.ofParameters ps, c.Dumped) :
    Spells (dumpParameters ps) [formParameters ps] := by
  cases ps with
  | fixed ps =>
    have heach : SpellsEach (dumpEach ps) (formEachParameter ps) := by
      rw [dumpEach_eq_map, formEachParameter_eq_map]
      refine spellsEach_map_one fun p hp => ?_
      obtain ⟨hname, htype⟩ := h (.parameter p) (List.mem_map_of_mem hp)
      exact spells_typed hname htype
    exact heach.spaced.list .round
  | variadic p =>
    obtain ⟨name, type, span⟩ := p
    obtain ⟨hname, htype⟩ := h (.parameter ⟨name, type, span⟩) (List.mem_singleton.mpr rfl)
    have hdots : IsWord "..." := by decide
    refine ((spells_typed (hdots.append hname) htype).list .round).of_toList ?_
    simp [dumpParameters, Bracket.opened, Bracket.closed]

theorem breaks_annotation (type : Option TypeExpr) : Breaks <| dumpAnnotation type := by
  cases type with
  | none => decide
  | some type =>
    rw [Breaks, dumpAnnotation, String.toList_append]
    rfl

theorem spells_annotation {type : Option TypeExpr} (h : ∀ c ∈ Item.ofType? type, c.Dumped) :
    Spells ( dumpAnnotation type) (annotationForms type) := by
  cases type with
  | none => exact spells_nil
  | some type =>
    have hcolon : IsWord ":" := by decide
    have htype : Spells type.dump [type.form] := h (.type type) (List.mem_singleton.mpr rfl)
    exact (hcolon.spells.spaced htype).blank.of_toList (by unfold dumpAnnotation; simp)

theorem spells_dump {t : TypeExpr} (hnames : ∀ name ∈ t.names, IsWord name) (hparts : ∀ c ∈ t.items, c.Dumped) :
    Spells t.dump [t.form] := by
  cases t with
  | named site name arguments =>
    have hname := (hnames name (List.mem_singleton.mpr rfl)).spells
    rw [dump, form]
    split
    · exact hname
    · have heach : SpellsEach (arguments.map dump) (arguments.map form) :=
        spellsEach_map_one fun a ha => hparts (.type a) (List.mem_map_of_mem ha)
      rw [← formEach_eq_map] at heach
      refine ((hname.append heach.join (breaks_join_blank _)).list .round).of_toList ?_
      simp [dumpArguments_eq_join, Bracket.opened, Bracket.closed, Function.comp_def]
  | object site fields =>
    have heach : SpellsEach (dumpFields fields) (formFields fields) := by
      rw [dumpFields_eq_map, formFields_eq_flatMap]
      refine spellsEach_map fun field hfield => ?_
      have hcolon : IsWord ":" := by decide
      have hname := hnames field.1 (List.mem_map_of_mem hfield)
      have htype : Spells field.2.dump [field.2.form] := hparts (.type field.2) (List.mem_map.mpr ⟨field, hfield, rfl⟩)
      exact ((hcolon.append hname).spells.spaced htype).of_toList (by simp)
    exact heach.spaced.list .curly
  | function site names ps result =>
    simp only [items, List.forall_mem_append, List.forall_mem_cons] at hparts
    obtain ⟨⟨-, hps⟩, hresult, -⟩ := hparts
    have hword : IsWord "Fn" := by decide
    have hhead := hword.spells_generics hnames
    refine (((hhead.spaced (spells_parameters hps)).spaced hresult).list .round).of_toList ?_ 
    simp [dump, Bracket.opened, Bracket.closed]
  | nullable site inner =>
    have hinner : Spells inner.dump [inner.form] := hparts (.type inner) (List.mem_singleton.mpr rfl)
    have hword : IsWord "Nullable" := by decide
    exact ((hword.spells.spaced hinner).list .round).of_toList (by simp [dump, Bracket.opened, Bracket.closed])

end TypeExpr

namespace Expr

theorem spells_dump {e : Expr} (hnames : ∀ name ∈ e.names, IsWord name) (hdigits : ∀ digits ∈ e.digits, IsWord digits)
    (hparts : ∀ c ∈ e.items, c.Dumped) : Spells e.dump [e.form] := by
  have hpart (part : Expr) (h : .expr part ∈ e.items) : Spells part.dump [part.form] := hparts (.expr part) h
  cases e with
  | number site x => exact (isWord_numberText x).spells
  | bigInteger site digits =>
    have hmark : IsWord "n" := by decide
    exact ((hdigits digits (List.mem_singleton.mpr rfl)).append hmark).spells
  | boolean site b =>
    have hword : IsWord (if b then "true" else "false") := by cases b <;> decide
    exact hword.spells
  | null site =>
    have hword : IsWord "null" := by decide
    exact hword.spells
  | object site fields =>
    have heach : SpellsEach (dumpFields fields) (formFields fields) := by
      rw [dumpFields_eq_map, formFields_eq_flatMap]
      refine spellsEach_map fun field hfield => ?_
      obtain ⟨hname, hvalue⟩ := hparts (.field field) (List.mem_map_of_mem hfield)
      have hcolon : IsWord ":" := by decide
      exact ((hcolon.append hname).spells.spaced hvalue).of_toList (by simp)
    exact heach.spaced.list .curly
  | reference site name => exact (hnames name (List.mem_singleton.mpr rfl)).spells
  | binary site op lhs rhs =>
    have hlhs := hpart lhs (by simp [items])
    have hrhs := hpart rhs (by simp [items])
    refine (((op.isWord_symbol.spells.spaced hlhs).spaced hrhs).list .round).of_toList ?_
    simp [dump, Bracket.opened, Bracket.closed]
  | unary site op operand =>
    have hoperand := hpart operand (by simp [items])
    refine ((op.isWord_symbol.spells.spaced hoperand).list .round).of_toList ?_
    simp [dump, Bracket.opened, Bracket.closed]
  | conditional site condition thenBranch elseBranch =>
    have hcondition := hpart condition (by simp [items])
    have hthen := hpart thenBranch (by simp [items])
    have helse := hpart elseBranch (by simp [items])
    have hword : IsWord "if" := by decide
    refine ((((hword.spells.spaced hcondition).spaced hthen).spaced helse).list .round).of_toList ?_
    simp [dump, Bracket.opened, Bracket.closed]
  | call site callee types arguments =>
    have hcallee := hpart callee (by simp [items])
    have htypes : Spells (if types.isEmpty then "" else " [" ++ Sable.spaced (types.map TypeExpr.dump) ++ "]")
        (TypeExpr.formsInBrackets types) := by
      unfold TypeExpr.formsInBrackets
      split
      · exact spells_nil
      · have heach : SpellsEach (types.map TypeExpr.dump) (types.map TypeExpr.form) :=
          spellsEach_map_one fun t ht => hparts (.type t) (by simp [items, ht])
        exact (heach.spaced.list .square).blank.of_toList (by simp [Bracket.opened, Bracket.closed])
    have hbreaks : Breaks (if types.isEmpty then "" else " [" ++ Sable.spaced (types.map TypeExpr.dump) ++ "]") := by
      split
      · decide
      · rw [String.append_assoc, Breaks, String.toList_append]
        rfl
    have harguments : SpellsEach (arguments.map dump) (arguments.map form) :=
      spellsEach_map_one fun a ha => hparts (.expr a) (by simp [items, ha])
    rw [← formEach_eq_map] at harguments
    have hall := (hcallee.append htypes hbreaks).append harguments.join (breaks_join_blank _)
    refine (hall.list .round).of_toList ?_
    simp [dump, dumpArguments_eq_join, Bracket.opened, Bracket.closed, Function.comp_def]
  | lambda site names ps result body =>
    simp only [items, List.forall_mem_append, List.forall_mem_cons] at hparts
    obtain ⟨⟨⟨-, hps⟩, hresult⟩, hbody, -⟩ := hparts
    have hword : IsWord "fn" := by decide
    have hhead := (hword.spells_generics hnames).spaced (TypeExpr.spells_parameters hps)
    have hannotated := hhead.append (TypeExpr.spells_annotation hresult) (TypeExpr.breaks_annotation result)
    refine ((hannotated.spaced hbody).list .round).of_toList ?_
    simp [dump, Bracket.opened, Bracket.closed]
  | field site owner name =>
    have howner := hpart owner (by simp [items])
    have hdot : IsWord "." := by decide
    have hname := hdot.append (hnames name (List.mem_singleton.mpr rfl))
    refine ((hname.spells.spaced howner).list .round).of_toList ?_
    simp [dump, Bracket.opened, Bracket.closed]
  | tagged site value tag =>
    have hvalue := hpart value (by simp [items])
    have htag := (hnames tag (List.mem_singleton.mpr rfl)).spells
    have hword : IsWord "tag" := by decide
    refine (((hword.spells.spaced hvalue).spaced htag).list .round).of_toList ?_
    simp [dump, Bracket.opened, Bracket.closed]
  | hasTag site value tag =>
    have hvalue := hpart value (by simp [items])
    have htag := (hnames tag (List.mem_singleton.mpr rfl)).spells
    have hword : IsWord "is" := by decide
    refine (((hword.spells.spaced hvalue).spaced htag).list .round).of_toList ?_
    simp [dump, Bracket.opened, Bracket.closed]
  | untag site value =>
    have hvalue := hpart value (by simp [items])
    have hword : IsWord "untag" := by decide
    refine ((hword.spells.spaced hvalue).list .round).of_toList ?_
    simp [dump, Bracket.opened, Bracket.closed]
  | cases site scrutinee arms =>
    have hscrutinee := hpart scrutinee (by simp [items])
    have hword : IsWord "match" := by decide
    have heach : SpellsEach (arms.map fun arm => "(" ++ arm.tag.value ++ " " ++ arm.binding.value ++ " " ++
        arm.body.dump ++ ")") (formArms arms) := by
      rw [formArms_eq_map]
      refine spellsEach_map_one fun arm harm => ?_
      obtain ⟨htag, hbinding, hbody⟩ := hparts (.arm arm) (by simp [items, harm])
      refine (((htag.spells.spaced hbinding.spells).spaced hbody).list .round).of_toList ?_
      simp [Bracket.opened, Bracket.closed]
    have hall := (hword.spells.spaced hscrutinee).append heach.join (breaks_join_blank _)
    refine (hall.list .round).of_toList ?_
    simp [dump, dumpArms_eq_join, Bracket.opened, Bracket.closed, Function.comp_def, String.append_assoc, blank_paren]

end Expr

/-! ### Declarations -/

section

variable {s t : String} {items others : List Sexp}

/-- Blanks in front of a text. -/
theorem Spells.indented (h : Spells s items) (depth : Nat) : Spells (indent depth ++ s) items := by
  refine h.behind fun c hc => ?_
  rw [indent, String.toList_ofList] at hc
  rw [List.eq_of_mem_replicate hc]
  rfl

/-- A list on lines of its own. -/
theorem Spells.declared (h : Spells s items) (depth : Nat)
    (heq : t.toList = (indent depth ++ ("(" ++ s ++ ")\n")).toList) : SpellsLines t [.list .round items] := by
  obtain rfl := String.toList_injective heq
  intro rest others hrest
  exact (((h.list .round).indented depth).next hrest).of_toList (by simp [Bracket.opened, Bracket.closed])

end

namespace Declaration

theorem spells_dump {d : Declaration} (hnames : ∀ name ∈ d.names, IsWord name) (hparts : ∀ c ∈ d.items, c.Dumped)
    (depth : Nat) : SpellsLines (d.dump depth) [d.form] := by
  have hword {name : String} (h : name ∈ d.names) : Spells name [.word name] := (hnames name h).spells
  cases d with
  | value span name type value =>
    simp only [items, List.forall_mem_append, List.forall_mem_cons] at hparts
    obtain ⟨⟨-, htype⟩, hvalue, -⟩ := hparts
    have hkind : IsWord "val" := by decide
    have hhead := (hkind.spells.spaced (hword (List.mem_singleton.mpr rfl))).append (TypeExpr.spells_annotation htype)
      (TypeExpr.breaks_annotation type)
    exact (hhead.spaced hvalue).declared depth (by simp [dump])
  | function span name names ps result body =>
    simp only [items, List.forall_mem_append, List.forall_mem_cons] at hparts
    obtain ⟨⟨⟨⟨-, -⟩, hps⟩, hresult⟩, hbody, -⟩ := hparts
    obtain ⟨hname, hnames⟩ := List.forall_mem_cons.mp hnames
    have hkind : IsWord "def" := by decide
    have hhead := (hkind.spells.spaced (hname.spells_generics hnames)).spaced (TypeExpr.spells_parameters hps)
    have hannotated := hhead.append (TypeExpr.spells_annotation hresult) (TypeExpr.breaks_annotation result)
    have hinside := hbody (depth + 1) _ _ (spells_nil.indented depth)
    rw [List.append_nil] at hinside
    exact (hannotated.next hinside).declared depth (by simp [dump])
  | external span name names ps result =>
    simp only [items, List.forall_mem_append, List.forall_mem_cons] at hparts
    obtain ⟨⟨⟨-, -⟩, hps⟩, hresult, -⟩ := hparts
    obtain ⟨hname, hnames⟩ := List.forall_mem_cons.mp hnames
    have hkind : IsWord "external" := by decide
    have hkind' : IsWord "def" := by decide
    have hhead := ((hkind.spells.spaced hkind'.spells).spaced (hname.spells_generics hnames)).spaced
      (TypeExpr.spells_parameters hps)
    have hresult : ∀ c ∈ Item.ofType? (some result), c.Dumped := fun c hc => List.mem_singleton.mp hc ▸ hresult
    have hannotated := hhead.append (TypeExpr.spells_annotation hresult) (TypeExpr.breaks_annotation result)
    exact hannotated.declared depth (by simp [dump, TypeExpr.dumpAnnotation])
  | «alias» span name names target =>
    simp only [items, List.forall_mem_append, List.forall_mem_cons] at hparts
    obtain ⟨-, htarget, -⟩ := hparts
    obtain ⟨hname, hnames⟩ := List.forall_mem_cons.mp hnames
    have hkind : IsWord "type" := by decide
    exact ((hkind.spells.spaced (hname.spells_generics hnames)).spaced htarget).declared depth (by simp [dump])
  | union span name names alternatives =>
    obtain ⟨hname, hnames⟩ := List.forall_mem_cons.mp hnames
    have hkind : IsWord "union" := by decide
    have heach : SpellsEach (alternatives.map fun a => "(" ++ a.tag ++ " " ++ a.payload.dump ++ ")")
        (alternatives.map Alternative.form) := by
      refine spellsEach_map_one fun a ha => ?_
      obtain ⟨htag, hpayload⟩ := hparts (.alternative a) (by simp [items, ha])
      exact ((htag.spells.spaced hpayload).list .round).of_toList (by simp [Bracket.opened, Bracket.closed])
    have hhead := (hkind.spells.spaced (hname.spells_generics hnames)).append heach.join (breaks_join_blank _)
    refine hhead.declared depth ?_
    simp [dump, Alternative.dumpAll, Function.comp_def, String.append_assoc, blank_paren]

theorem spells_dumpAll {ds : List Declaration} (h : ∀ d ∈ ds, (Item.declaration d).Dumped) (depth : Nat) :
    SpellsLines (dumpAll depth ds) (formEach ds) := by
  induction ds with
  | nil => exact spellsLines_empty
  | cons d rest ih =>
    obtain ⟨hd, hrest⟩ := List.forall_mem_cons.mp h
    exact (hd depth).append (ih hrest)

end Declaration

theorem Body.spells_dump {b : Body} (hparts : ∀ c ∈ b.items, c.Dumped) (depth : Nat) :
    SpellsLines (b.dump depth) b.forms := by
  obtain ⟨declarations, result, span⟩ := b
  have hresult : Spells result.dump [result.form] := hparts (.expr result) (by simp [items, Body.result])
  have hdeclarations : SpellsLines (Declaration.dumpAll depth declarations) (Declaration.formEach declarations) :=
    Declaration.spells_dumpAll (fun d hd => hparts (.declaration d) (by simp [items, Body.declarations, hd])) depth
  have hkind : IsWord "return" := by decide
  have hreturn : SpellsLines (indent depth ++ "(return " ++ result.dump ++ ")\n")
      [.list .round [.word "return", result.form]] :=
    (hkind.spells.spaced hresult).declared depth (by simp)
  rw [dump, forms, String.append_assoc, String.append_assoc, String.append_assoc]
  exact hdeclarations.append (by simpa [String.append_assoc] using hreturn)

/-- An item with names in the places of names spells its forms. -/
theorem Item.Spelled.dumped {i : Item} (h : i.Spelled) : i.Dumped := by
  induction i using Item.parts_induction with
  | step i ih =>
    obtain ⟨⟨hnames, hdigits⟩, hchildren⟩ := spelled_iff.mp h
    have hwords : ∀ name ∈ i.names, IsWord name := fun name hname => isWord_of_isName (hnames name hname)
    have hparts : ∀ c ∈ i.children, c.Dumped := fun c hc => ih c hc (hchildren c hc)
    cases i with
    | token span => trivial
    | type t => exact TypeExpr.spells_dump hwords hparts
    | parameter p => exact ⟨hwords p.name.value (by simp [names]), hparts (.type p.type) (by simp [children])⟩
    | expr e =>
      exact Expr.spells_dump hwords (fun digits hmem => isWord_of_isDigits (hdigits digits hmem)) hparts
    | field f => exact ⟨hwords f.name (by simp [names]), hparts (.expr f.value) (by simp [children])⟩
    | arm a =>
      exact ⟨hwords a.tag.value (by simp [names]), hwords a.binding.value (by simp [names]),
        hparts (.expr a.body) (by simp [children])⟩
    | alternative a => exact ⟨hwords a.tag (by simp [names]), hparts (.type a.payload) (by simp [children])⟩
    | declaration d => exact Declaration.spells_dump hwords hparts
    | body b => exact Body.spells_dump hparts

/-- Bodies with one dump have the same forms. -/
theorem Body.forms_eq_of_dump_eq {b b' : Body} (h : (Item.body b).Spelled) (h' : (Item.body b').Spelled)
    (heq : b.dump 0 = b'.dump 0) : b.forms = b'.forms := by
  have hcut := (h.dumped 0).spells [] (by simp [Token.Stops])
  have hcut' := (h'.dumped 0).spells [] (by simp [Token.Stops])
  rw [heq, hcut'] at hcut
  have hflat := List.append_cancel_right hcut
  rw [← List.append_nil (Sexp.flattenAll b'.forms), ← List.append_nil (Sexp.flattenAll b.forms)] at hflat
  exact (Sexp.flattenAll_inj Sexp.ends_nil Sexp.ends_nil hflat.symm).1

end Sable
