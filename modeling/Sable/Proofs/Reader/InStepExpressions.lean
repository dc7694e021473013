import Sable.Proofs.Reader.InStep

/-! Readers of lists, types and expressions in step, and the equations that they solve. -/
namespace Sable.Reader

variable {α β : Type} {s : State} {limit : Nat}

/-! ## Lists -/

/-- Another item behind a separator, and then `again`. -/
def moreTurn (separator : Punctuation) (item : Reader α) (again : Reader (List α)) : Reader (List α) := do
  if ← mark? separator then
    let a ← item
    let rest ← again
    pure (a :: rest)
  else pure []

/-- Another item unless `close` comes next, and then `again`. -/
def itemsTurn (close : Punctuation) (item : Reader α) (again : Reader (List α)) : Reader (List α) := do
  if ← atClose close then pure []
  else
    let a ← item
    if ← mark? .comma then
      let rest ← again
      pure (a :: rest)
    else pure [a]

theorem run_mark?_of_nil (hs : s.rest = []) (p : Punctuation) : mark? p s = (some false, s) :=
  run_token?_of_ne (by rw [State.head?_of_nil hs]; exact nofun)

theorem repeats_more (separator : Punctuation) (item : Reader α) :
    Repeats (fun f (_ : Unit) => moreTurn separator item (f ())) fun count _ => moreUpTo separator item count where
  succ _ _ := rfl
  atEnd f _ s hs := by
    rw [moreTurn, run_bind, run_mark?_of_nil hs]
    rfl

theorem repeats_items (close : Punctuation) (item : Reader α) :
    Repeats (fun f (_ : Unit) => itemsTurn close item (f ())) fun count _ => itemsUpTo close item count where
  succ _ _ := rfl
  atEnd f _ s hs := by
    rw [itemsTurn, run_bind, run_atClose, State.head?_of_nil hs]
    rfl

section

variable {item item' : Reader α}

theorem turnsInStep_more (hitem : InStep limit 0 item item') (separator : Punctuation) :
    TurnsInStep limit 0 (fun f (_ : Unit) => moreTurn separator item (f ())) fun f _ => moreTurn separator item' (f ()) := by
  intro n hn f f' hf i s hs
  refine inStepAt_mark? (fun u hu => (hitem u (by omega)).bind fun a t ht => ?_) inStepAt_pure
  exact (hf () t (by omega)).bind fun rest v _ => inStepAt_pure

theorem turnsInStep_items (hitem : InStep limit 0 item item') (close : Punctuation) :
    TurnsInStep limit 0 (fun f (_ : Unit) => itemsTurn close item (f ())) fun f _ => itemsTurn close item' (f ()) := by
  intro n hn f f' hf i s hs
  refine inStepAt_atClose fun atEnd => ?_
  cases atEnd with
  | true => exact inStepAt_pure
  | false =>
      refine (hitem s (by omega)).bind fun a t ht => inStepAt_mark? (fun u hu => ?_) inStepAt_pure
      exact (hf () u (by omega)).bind fun rest v _ => inStepAt_pure

section

variable (hitem : InStep limit 0 item item')
include hitem

theorem inStep_separated (separator : Punctuation) :
    InStep limit 0 (separated separator item) (separated separator item') := fun s hs =>
  (hitem s hs).bind fun a t ht =>
    have hmore := (repeats_more separator item).inStep_bounded (repeats_more separator item')
      (turnsInStep_more hitem separator) (fun _ _ _ => inStepAt_pure) () t (by omega)
    hmore.bind fun rest u _ => inStepAt_pure

theorem inStep_itemsUntil (close : Punctuation) : InStep limit 1 (itemsUntil close item) (itemsUntil close item') :=
  fun s hs =>
    have hitems := (repeats_items close item).inStep_bounded (repeats_items close item')
      (turnsInStep_items hitem close) (fun _ _ _ => inStepAt_pure) () s hs
    hitems.bind fun _ t _ => (inStep_mark close t).bind fun _ _ _ => inStepAt_pure

end

end

/-! ## Types -/

theorem inStep_generics (s : State) : InStepAt 0 s generics generics := by
  refine inStepAt_mark? (fun u hu => ?_) inStepAt_pure
  have hnames := inStep_separated (fun s _ => (inStep_ident s).mono (Nat.zero_le _)) .comma u (Nat.le_refl _)
  exact hnames.bind fun names t _ => (inStep_mark .rightBracket t).bind fun _ v _ => inStepAt_pure

section

variable {nested nested' : Reader TypeExpr} (hnested : InStep limit 0 nested nested')
include hnested

theorem inStep_parameterWith : InStep limit 1 (parameterWith nested) (parameterWith nested') := fun s hs =>
  (inStep_ident s).bind fun name t ht => (inStep_mark .colon t).bind fun _ u hu =>
    (hnested u (by omega)).bind fun type v _ => inStepAt_spanFrom fun span => inStepAt_pure

theorem inStep_parametersWith : InStep (limit + 1) 1 (parametersWith nested) (parametersWith nested') := by
  refine fun s hs => (inStep_mark .leftParen s).bind fun _ t ht => inStepAt_mark? (fun u hu => ?_) ?_
  · refine (inStep_parameterWith hnested u (by omega)).bind fun p v _ => ?_
    exact (inStep_mark .rightParen v).bind fun _ w _ => inStepAt_pure
  · exact (inStep_itemsUntil (inStep_parameterWith hnested).weaken .rightParen t (by omega)).bind fun ps u _ => inStepAt_pure

theorem inStep_typeArgumentsWith : InStep limit 1 (typeArgumentsWith nested) (typeArgumentsWith nested') := fun s hs =>
  (inStep_separated hnested .comma s hs).bind fun _ t _ => (inStep_mark .rightBracket t).bind fun _ _ _ => inStepAt_pure

theorem inStep_functionTypeWith (start : Span) :
    InStep (limit + 1) 1 (functionTypeWith nested start) (functionTypeWith nested' start) := fun s hs =>
  (inStep_generics s).bind fun names t ht => (inStep_parametersWith hnested t (by omega)).bind fun ps u hu =>
    (inStep_mark .arrow u).bind fun _ v hv => (hnested v (by omega)).bind fun result w _ =>
      inStepAt_spanFrom fun span => inStepAt_newType

theorem inStep_typeFieldWith : InStep limit 1 (typeFieldWith nested) (typeFieldWith nested') := fun s hs =>
  (inStep_ident s).bind fun name t ht => (inStep_mark .colon t).bind fun _ u hu =>
    (hnested u (by omega)).bind fun type v _ => inStepAt_pure

omit hnested in
theorem inStepAt_atParameters {least : Nat} {next next' : Bool → Reader β}
    (h : ∀ opens, InStepAt least s (next opens) (next' opens)) :
    InStepAt least s (atParameters >>= next) (atParameters >>= next') := (h _).of_eq rfl rfl

theorem inStep_primaryTypeWith : InStep (limit + 1) 1 (primaryTypeWith nested) (primaryTypeWith nested') := by
  intro s hs
  apply inStepAt_here
  apply inStepAt_peek
  split
  · refine inStepAt_advance ‹_› fun t ht => inStepAt_mark? (fun u hu => ?_) ?_
    · refine (inStep_typeArgumentsWith hnested u (by omega)).bind fun types v _ => ?_
      exact inStepAt_spanFrom fun span => inStepAt_newType
    · exact inStepAt_pure.bind fun types u _ => inStepAt_spanFrom fun span => inStepAt_newType
  · refine inStepAt_advance ‹_› fun t ht => ?_
    refine (inStep_itemsUntil (inStep_typeFieldWith hnested).weaken .rightBrace t (by omega)).bind fun fields u _ => ?_
    exact inStepAt_spanFrom fun span => inStepAt_newType
  · exact inStep_functionTypeWith hnested _ s hs
  · refine inStepAt_atParameters fun opens => ?_
    cases opens with
    | true => exact inStep_functionTypeWith hnested _ s hs
    | false =>
        refine inStepAt_advance ‹_› fun t ht => (hnested t (by omega)).bind fun type u _ => ?_
        exact (inStep_mark .rightParen u).bind fun _ v _ => inStepAt_pure
  · exact inStepAt_expected

end

/-- A question mark behind a type, and then `again`. -/
def nullableTurn (again : TypeExpr → Reader TypeExpr) (type : TypeExpr) : Reader TypeExpr := do
  if ← mark? .question then
    let wider ← newType (← spanFrom type.site.span) (.nullable · type)
    again wider
  else pure type

theorem repeats_nullable : Repeats nullableTurn nullableUpTo where
  succ _ _ := rfl
  atEnd f type s hs := by
    rw [nullableTurn, run_bind, run_mark?_of_nil hs]
    rfl

theorem turnsInStep_nullable : TurnsInStep limit 0 nullableTurn nullableTurn := by
  intro n hn f f' hf type s hs
  refine inStepAt_mark? (fun u hu => inStepAt_spanFrom fun span => ?_) inStepAt_pure
  exact inStepAt_newType.bind fun wider t ht => hf wider t (by omega)

theorem inStep_typeWith {nested nested' : Reader TypeExpr} (hnested : InStep limit 0 nested nested') :
    InStep (limit + 1) 1 (typeWith nested) (typeWith nested') := fun s hs =>
  (inStep_primaryTypeWith hnested s hs).bind fun type t _ =>
    repeats_nullable.inStep_bounded repeats_nullable turnsInStep_nullable (fun _ _ _ => inStepAt_pure) type t (Nat.le_refl _)

theorem run_typeWith_of_nil (hs : s.rest = []) (nested : Reader TypeExpr) : typeWith nested s = expected .type s := by
  have hprimary : primaryTypeWith nested s = expected .type s := by
    simp only [primaryTypeWith, run_bind, here, peek, hs, List.head?_nil, Option.map_none]
  rw [typeWith, run_bind, hprimary]
  rfl

theorem repeats_type : Repeats (fun f (_ : Unit) => typeWith (f ())) fun depth _ => typeUpTo depth where
  succ _ _ := rfl
  atEnd _ _ _ hs := run_typeWith_of_nil hs _

theorem turnsInStep_type : TurnsInStep limit 1 (fun f (_ : Unit) => typeWith (f ())) fun f _ => typeWith (f ()) :=
  fun _ _ _ _ hf _ => inStep_typeWith (hf ()).weaken

theorem inStep_type : InStep limit 1 type type :=
  repeats_type.inStep_bounded repeats_type turnsInStep_type (fun _ _ _ => inStepAt_expected) ()

theorem ends_type (r : Reader TypeExpr) : r = typeWith r ↔ r = type :=
  (repeats_type.ends (fun _ => turnsInStep_type) fun _ _ _ => inStepAt_expected).solution r

theorem inStep_parameters (s : State) : InStepAt 1 s parameters parameters :=
  inStep_parametersWith inStep_type.weaken s (Nat.le_succ _)

theorem inStep_annotation? (s : State) : InStepAt 0 s annotation? annotation? :=
  inStepAt_mark? (fun u _ => (inStep_type u (Nat.le_refl _)).bind fun _ _ _ => inStepAt_pure) inStepAt_pure

/-! ## Expressions -/

/-- An operator of one rank with its operand behind `lhs`, and then `again`. -/
def chainTurn (op? : Token → Option BinaryOp) (operand : Reader Expr) (again : Expr → Reader Expr) (lhs : Expr) :
    Reader Expr := do
  match ← operator? op? with
  | none => pure lhs
  | some op =>
    advance
    let rhs ← operand
    let grouped ← newBinary op lhs rhs
    again grouped

/-- A tag behind a value, and then `again`. -/
def tagTurn (again : Expr → Reader Expr) (value : Expr) : Reader Expr := do
  match ← operator? tagOp? with
  | some make =>
    advance
    let tag ← ident
    let e ← newExpr (value.span.merge tag.span) (make · value tag.value)
    again e
  | none => pure value

/-- A field name or a list of arguments behind an expression, and then `again`. -/
def accessTurn (nested : Reader Expr) (again : Expr → Reader Expr) (e : Expr) : Reader Expr := do
  match ← peek with
  | some (.mark .dot) =>
    advance
    let name ← ident
    let e ← newExpr (← spanFrom e.span) (.field · e name.value)
    again e
  | some (.mark .leftParen) =>
    advance
    let arguments ← itemsUntil .rightParen nested
    let e ← newExpr (← spanFrom e.span) (.call · e [] arguments)
    again e
  | some (.mark .leftBracket) =>
    advance
    let types ← typeArgumentsWith type
    mark .leftParen
    let arguments ← itemsUntil .rightParen nested
    let e ← newExpr (← spanFrom e.span) (.call · e types arguments)
    again e
  | _ => pure e

/-- An operator in front of what `again` reads, or an operand. -/
def unaryTurn (nested : Reader Expr) (again : Reader Expr) : Reader Expr := do
  let start ← here
  match ← operator? leadingOp? with
  | some make =>
    advance
    let operand ← again
    newExpr (← spanFrom start) (make · operand)
  | none => accessWith nested

theorem run_operator?_of_nil {γ : Type} (hs : s.rest = []) (read : Token → Option γ) :
    operator? read s = (some none, s) := by
  simp only [operator?, run_bind, peek, hs, List.head?_nil, Option.map_none, Option.bind_none]
  rfl

theorem repeats_chain (op? : Token → Option BinaryOp) (operand : Reader Expr) :
    Repeats (chainTurn op? operand) (chainUpTo op? operand) where
  succ _ _ := rfl
  atEnd f lhs s hs := by
    rw [chainTurn, run_bind, run_operator?_of_nil hs]
    rfl

theorem repeats_tags : Repeats tagTurn tagsUpTo where
  succ _ _ := rfl
  atEnd f value s hs := by
    rw [tagTurn, run_bind, run_operator?_of_nil hs]
    rfl

theorem repeats_access (nested : Reader Expr) : Repeats (accessTurn nested) (accessUpTo nested) where
  succ _ _ := rfl
  atEnd f e s hs := by
    simp only [accessTurn, run_bind, peek, hs, List.head?_nil, Option.map_none]
    rfl

theorem repeats_unary (nested : Reader Expr) :
    Repeats (fun f (_ : Unit) => unaryTurn nested (f ())) fun count _ => unaryUpTo nested count where
  succ _ _ := rfl
  atEnd f _ s hs := by
    simp only [unaryTurn, run_bind, here, run_operator?_of_nil hs]
    rfl

theorem turnsInStep_tags : TurnsInStep limit 0 tagTurn tagTurn := by
  intro n hn f f' hf value s hs
  refine inStepAt_operator? inStepAt_pure fun t make hhead => inStepAt_advance hhead fun u hu => ?_
  refine (inStep_ident u).bind fun tag v hv => inStepAt_newExpr.bind fun e w hw => ?_
  exact hf e w (by omega)

section

variable {op? : Token → Option BinaryOp} {operand operand' : Reader Expr}

theorem turnsInStep_chain (hoperand : InStep limit 0 operand operand') :
    TurnsInStep limit 0 (chainTurn op? operand) (chainTurn op? operand') := by
  intro n hn f f' hf lhs s hs
  refine inStepAt_operator? inStepAt_pure fun t op hhead => inStepAt_advance hhead fun u hu => ?_
  refine (hoperand u (by omega)).bind fun rhs v hv => ?_
  have hbinary : InStepAt 0 v (newBinary op lhs rhs) (newBinary op lhs rhs) := inStepAt_newExpr
  exact hbinary.bind fun grouped w hw => hf grouped w (by omega)

theorem inStep_chain (hoperand : InStep limit 1 operand operand') :
    InStep limit 1 (chain op? operand) (chain op? operand') := fun s hs =>
  (hoperand s hs).bind fun lhs t ht =>
    (repeats_chain op? operand).inStep_bounded (repeats_chain op? operand') (turnsInStep_chain hoperand.weaken)
      (fun _ _ _ => inStepAt_pure) lhs t (by omega)

end

section

variable {nested nested' : Reader Expr} (hnested : InStep limit 0 nested nested')
include hnested

theorem inStep_fieldInitWith : InStep limit 1 (fieldInitWith nested) (fieldInitWith nested') := fun s hs =>
  (inStep_ident s).bind fun name t ht => (inStep_mark .colon t).bind fun _ u hu =>
    (hnested u (by omega)).bind fun value v _ => inStepAt_spanFrom fun span => inStepAt_pure

theorem inStep_matchArmWith : InStep limit 1 (matchArmWith nested) (matchArmWith nested') := fun s hs =>
  (inStep_ident s).bind fun tag t ht => (inStep_ident t).bind fun binding u hu =>
    (inStep_mark .fatArrow u).bind fun _ v hv => (hnested v (by omega)).bind fun body w _ =>
      inStepAt_spanFrom fun span => inStepAt_pure

theorem inStep_conditionalWith (start : Span) :
    InStep limit 1 (conditionalWith nested start) (conditionalWith nested' start) := fun s hs =>
  (hnested s hs).bind fun condition t ht => (inStep_keyword .thenWord t).bind fun _ u hu =>
    (hnested u (by omega)).bind fun thenBranch v hv => (inStep_keyword .elseWord v).bind fun _ w hw =>
      (hnested w (by omega)).bind fun elseBranch x _ => inStepAt_spanFrom fun span => inStepAt_newExpr

theorem inStep_lambdaWith (start : Span) : InStep limit 1 (lambdaWith nested start) (lambdaWith nested' start) :=
  fun s hs => (inStep_generics s).bind fun names t ht => (inStep_parameters t).bind fun ps u hu =>
    (inStep_annotation? u).bind fun result v hv => (inStep_mark .fatArrow v).bind fun _ w hw =>
      (hnested w (by omega)).bind fun body x _ => inStepAt_spanFrom fun span => inStepAt_newExpr

theorem inStep_casesWith (start : Span) : InStep limit 1 (casesWith nested start) (casesWith nested' start) :=
  fun s hs => (hnested s hs).bind fun scrutinee t ht => (inStep_mark .leftBrace t).bind fun _ u hu =>
    (inStep_itemsUntil (inStep_matchArmWith hnested).weaken .rightBrace u (by omega)).bind fun arms v _ =>
      inStepAt_spanFrom fun span => inStepAt_newExpr

theorem inStep_primaryWith : InStep (limit + 1) 1 (primaryWith nested) (primaryWith nested') := by
  intro s hs
  apply inStepAt_here
  apply inStepAt_peek
  split
  · refine inStepAt_advance ‹_› fun t ht => (hnested t (by omega)).bind fun inner u _ => ?_
    exact (inStep_mark .rightParen u).bind fun _ _ _ => inStepAt_pure
  · refine inStepAt_advance ‹_› fun t ht => ?_
    refine (inStep_itemsUntil (inStep_fieldInitWith hnested).weaken .rightBrace t (by omega)).bind fun fields u _ => ?_
    exact inStepAt_spanFrom fun span => inStepAt_newExpr
  · exact inStepAt_advance ‹_› fun t ht => (inStep_conditionalWith hnested _ t (by omega)).mono (Nat.zero_le _)
  · exact inStepAt_advance ‹_› fun t ht => (inStep_lambdaWith hnested _ t (by omega)).mono (Nat.zero_le _)
  · exact inStepAt_advance ‹_› fun t ht => (inStep_casesWith hnested _ t (by omega)).mono (Nat.zero_le _)
  · split
    · rename_i make hmake
      obtain ⟨token, hhead, -⟩ := Option.bind_eq_some_iff.mp hmake
      exact inStepAt_advance hhead fun t ht => inStepAt_spanFrom fun span => inStepAt_newExpr
    · exact inStepAt_expected

theorem turnsInStep_access : TurnsInStep limit 0 (accessTurn nested) (accessTurn nested') := by
  intro n hn f f' hf e s hs
  apply inStepAt_peek
  split
  · refine inStepAt_advance ‹_› fun t ht => (inStep_ident t).bind fun name u hu => inStepAt_spanFrom fun span => ?_
    exact inStepAt_newExpr.bind fun e v hv => hf e v (by omega)
  · refine inStepAt_advance ‹_› fun t ht => ?_
    refine (inStep_itemsUntil hnested .rightParen t (by omega)).bind fun arguments u hu => inStepAt_spanFrom fun span => ?_
    exact inStepAt_newExpr.bind fun e v hv => hf e v (by omega)
  · refine inStepAt_advance ‹_› fun t ht => ?_
    refine (inStep_typeArgumentsWith inStep_type.weaken t (Nat.le_refl _)).bind fun types u hu => ?_
    refine (inStep_mark .leftParen u).bind fun _ v hv => ?_
    refine (inStep_itemsUntil hnested .rightParen v (by omega)).bind fun arguments w hw => inStepAt_spanFrom fun span => ?_
    exact inStepAt_newExpr.bind fun e x hx => hf e x (by omega)
  · exact inStepAt_pure

theorem inStep_accessWith : InStep (limit + 1) 1 (accessWith nested) (accessWith nested') := fun s hs =>
  (inStep_primaryWith hnested s hs).bind fun e t ht =>
    (repeats_access nested).inStep_bounded (repeats_access nested') (turnsInStep_access hnested)
      (fun _ _ _ => inStepAt_pure) e t (by omega)

theorem turnsInStep_unary : TurnsInStep (limit + 1) 1 (fun f (_ : Unit) => unaryTurn nested (f ())) fun f _ =>
    unaryTurn nested' (f ()) := by
  intro n hn f f' hf _ s hs
  apply inStepAt_here
  refine inStepAt_operator? (inStep_accessWith hnested s (by omega)) fun t make hhead => ?_
  refine inStepAt_advance hhead fun u hu => ((hf () u (by omega)).mono (Nat.zero_le _)).bind fun operand v _ => ?_
  exact inStepAt_spanFrom fun span => inStepAt_newExpr

theorem inStep_unaryWith : InStep (limit + 1) 1 (unaryWith nested) (unaryWith nested') :=
  (repeats_unary nested).inStep_bounded (repeats_unary nested') (turnsInStep_unary hnested)
    (fun _ s hs => inStep_accessWith hnested s (by simp [hs])) ()

theorem inStep_productWith : InStep (limit + 1) 1 (productWith nested) (productWith nested') :=
  inStep_chain (inStep_unaryWith hnested)

theorem inStep_sumWith : InStep (limit + 1) 1 (sumWith nested) (sumWith nested') :=
  inStep_chain (inStep_productWith hnested)

theorem inStep_tagsWith : InStep (limit + 1) 1 (tagsWith nested) (tagsWith nested') := fun s hs =>
  (inStep_sumWith hnested s hs).bind fun value t _ =>
    repeats_tags.inStep_bounded repeats_tags turnsInStep_tags (fun _ _ _ => inStepAt_pure) value t (Nat.le_refl _)

theorem inStep_comparisonWith : InStep (limit + 1) 1 (comparisonWith nested) (comparisonWith nested') := by
  intro s hs
  refine (inStep_tagsWith hnested s hs).bind fun lhs t ht => inStepAt_operator? inStepAt_pure fun token op hhead => ?_
  refine inStepAt_advance hhead fun u hu => ?_
  exact ((inStep_tagsWith hnested u (by omega)).mono (Nat.zero_le _)).bind fun rhs v _ => inStepAt_newExpr

theorem inStep_conjunctionWith : InStep (limit + 1) 1 (conjunctionWith nested) (conjunctionWith nested') :=
  inStep_chain (inStep_comparisonWith hnested)

theorem inStep_exprWith : InStep (limit + 1) 1 (exprWith nested) (exprWith nested') :=
  inStep_chain (inStep_conjunctionWith hnested)

end

theorem run_exprWith_of_nil (hs : s.rest = []) (nested : Reader Expr) : exprWith nested s = expected .expression s := by
  have hprimary : primaryWith nested s = expected .expression s := by
    simp only [primaryWith, run_bind, here, peek, hs, List.head?_nil, Option.map_none, Option.bind_none]
  have haccess : unaryWith nested s = expected .expression s := by
    have hunary : unaryWith nested s = accessWith nested s := (repeats_unary nested).run_of_nil hs _ ()
    rw [hunary, accessWith, run_bind, hprimary]
    rfl
  simp only [exprWith, conjunctionWith, comparisonWith, tagsWith, sumWith, productWith, chain, run_bind, haccess]
  rfl

theorem repeats_expr : Repeats (fun f (_ : Unit) => exprWith (f ())) fun depth _ => exprUpTo depth where
  succ _ _ := rfl
  atEnd _ _ _ hs := run_exprWith_of_nil hs _

theorem turnsInStep_expr : TurnsInStep limit 1 (fun f (_ : Unit) => exprWith (f ())) fun f _ => exprWith (f ()) :=
  fun _ _ _ _ hf _ => inStep_exprWith (hf ()).weaken

theorem inStep_expr : InStep limit 1 expr expr :=
  repeats_expr.inStep_bounded repeats_expr turnsInStep_expr (fun _ _ _ => inStepAt_expected) ()

theorem ends_expr (r : Reader Expr) : r = exprWith r ↔ r = expr :=
  (repeats_expr.ends (fun _ => turnsInStep_expr) fun _ _ _ => inStepAt_expected).solution r

end Sable.Reader
