import Sable.Proofs.Reader.Held
import Sable.Proofs.Reader.Stretches
import Sable.Proofs.Token.Lines

/-! What is read without an error is nested.

Each reader of a form of the language reads one item, in the place where the tokens of the form stand. So the nodes of
a tree are in its body, one for each, and no two expressions have the same span. -/
namespace Sable

namespace Reader

open Item

variable {β : Type} {s₀ s : State} {given : List Item} {more : β → List Item}

theorem setsAt_operator? {γ : Type} {read : Token → Option γ} {next : Option γ → Reader β}
    (h : SetsAt s₀ given s (next (s.tokens.head?.bind read)) more) :
    SetsAt s₀ given s (operator? read >>= next) more := by
  rw [State.tokens, List.head?_map] at h
  exact h.of_eq rfl

theorem setsAt_atParameters {next : Bool → Reader β} (h : SetsAt s₀ given s (next (opensParameters s.rest)) more) :
    SetsAt s₀ given s (atParameters >>= next) more := h.of_eq rfl

/-! ## Types -/

theorem sets_generics : Sets generics ofGenerics := by
  refine fun s => (skips_mark? .leftBracket s).skip fun found t => ?_
  cases found with
  | true =>
      refine (sets_separated sets_ident .comma t).andThen fun names t => ?_
      exact (skips_mark .rightBracket t).skip fun _ t => setsAt_pure (.refl _)
  | false => exact setsAt_pure .nil

section

variable {nested : Reader TypeExpr} (hnested : Sets nested fun t => [.type t])
include hnested

theorem sets_parameterWith : Sets (parameterWith nested) fun p => [.parameter p] := by
  refine fun s => (sets_ident s).andThen fun name t => (skips_mark .colon t).skip fun _ t => ?_
  refine (hnested t).andThen fun type t => setsAt_spanFrom ?_
  exact setsAt_pure_item rfl rfl rfl (.several (.refl _) (Nat.le_refl _)) fun h _ => h.encloses_first

theorem sets_parametersWith : Sets (parametersWith nested) ofParameters := by
  refine fun s => (skips_mark .leftParen s).skip fun _ t => (skips_mark? .ellipsis t).skip fun found t => ?_
  cases found with
  | true =>
      refine (sets_parameterWith hnested t).andThen fun p t => ?_
      exact (skips_mark .rightParen t).skip fun _ t => setsAt_pure (.refl _)
  | false =>
      exact (sets_itemsUntil (sets_parameterWith hnested) .rightParen t).andThen fun ps t => setsAt_pure (.refl _)

theorem sets_typeArgumentsWith : Sets (typeArgumentsWith nested) (·.map .type) := by
  refine fun s => (sets_separated hnested .comma s).andThen fun types t => ?_
  exact (skips_mark .rightBracket t).skip fun _ t => setsAt_pure (.refl _)

theorem sets_functionTypeWith (s : State) :
    SetsAt s [] s (functionTypeWith nested s.here) fun t => [.type t] := by
  refine (sets_generics s).andThen fun names t => (sets_parametersWith hnested t).andThen fun ps t => ?_
  refine (sets_mark .arrow t).andThen fun _ t => (hnested t).andThen fun result t => ?_
  refine setsAt_newTypeFrom (fun _ => rfl) fun _ => ?_
  rw [List.nil_append, List.append_assoc (ofGenerics names ++ ofParameters ps)]
  refine .several (.append_left _ (.token _ (.refl _))) ?_
  rw [List.length_append]
  exact Nat.le_add_left 2 _

theorem sets_typeFieldWith : Sets (typeFieldWith nested) fun field => [.type field.2] := by
  refine fun s => (skips_ident s).skip fun name t => (skips_mark .colon t).skip fun _ t => ?_
  exact (hnested t).andThen fun type t => setsAt_pure (.refl _)

theorem sets_primaryTypeWith : Sets (primaryTypeWith nested) fun t => [.type t] := by
  intro s
  apply setsAt_here
  apply setsAt_peek
  split
  · refine (sets_advance ‹_›).andThen fun _ t => (skips_mark? .leftBracket t).skip fun found t => ?_
    cases found with
    | true =>
        refine (sets_typeArgumentsWith hnested t).andThen fun types t => ?_
        exact setsAt_newTypeFrom (fun _ => rfl) fun _ => .behind (.refl _)
    | false => exact setsAt_newTypeFrom (fun _ => rfl) fun _ => .behind .nil
  · refine (sets_advance ‹_›).andThen fun _ t => ?_
    refine (sets_itemsUntil (sets_typeFieldWith hnested) .rightBrace t).andThen fun fields t => ?_
    exact setsAt_newTypeFrom (fun _ => rfl) fun _ => .behind (.refl _)
  · exact sets_functionTypeWith hnested s
  · apply setsAt_atParameters
    split
    · exact sets_functionTypeWith hnested s
    · refine (skips_advance ‹_›).skip fun _ t => (hnested t).andThen fun inner t => ?_
      exact (skips_mark .rightParen t).skip fun _ t => setsAt_pure (.refl _)
  · exact setsAt_expected _

omit hnested in
theorem setsAt_nullableUpTo (s₀ : State) (count : Nat) (type : TypeExpr) (s : State) :
    SetsAt s₀ [.type type] s (nullableUpTo count type) fun t => [.type t] := by
  induction count generalizing type s with
  | zero => exact setsAt_pure (.refl _)
  | succ count ih =>
      refine (sets_mark? .question s).andThen fun found t => ?_
      cases found with
      | true =>
          refine setsAt_spanFrom (SetsAt.bind ?_ fun wider t => ih wider t)
          exact setsAt_newType (fun _ => rfl) (fun _ => .several (.cons _ (.token _ .nil)) (Nat.le_refl _)) fun h _ =>
            h.encloses_first
      | false => exact setsAt_pure (.refl _)

theorem sets_typeWith : Sets (typeWith nested) fun t => [.type t] := fun s =>
  (sets_primaryTypeWith hnested s).bind fun type t => setsAt_bounded fun count => setsAt_nullableUpTo s count type t

end

theorem sets_typeUpTo (depth : Nat) : Sets (typeUpTo depth) fun t => [.type t] := by
  induction depth with
  | zero => exact fun s => setsAt_expected _
  | succ depth ih => exact sets_typeWith ih

theorem sets_type : Sets type fun t => [.type t] := fun s => setsAt_bounded fun depth => sets_typeUpTo depth s

theorem sets_parameters : Sets parameters ofParameters := sets_parametersWith sets_type

theorem sets_annotation? : Sets annotation? ofType? := by
  refine fun s => (skips_mark? .colon s).skip fun found t => ?_
  cases found with
  | true => exact (sets_type t).andThen fun type t => setsAt_pure (.refl _)
  | false => exact setsAt_pure .nil

/-! ## Expressions -/

theorem setsAt_newBinary {op : BinaryOp} {lhs rhs : Expr} :
    SetsAt s₀ [.expr lhs, .expr rhs] s (newBinary op lhs rhs) fun e => [.expr e] :=
  setsAt_newExpr (fun _ => rfl) (fun _ => .several (.refl _) (Nat.le_refl _)) fun h _ => h.encloses_both

section

variable {operand : Reader Expr} (hoperand : Sets operand fun e => [.expr e])
include hoperand

theorem setsAt_chainUpTo (s₀ : State) (op? : Token → Option BinaryOp) (count : Nat) (lhs : Expr) (s : State) :
    SetsAt s₀ [.expr lhs] s (chainUpTo op? operand count lhs) fun e => [.expr e] := by
  induction count generalizing lhs s with
  | zero => exact setsAt_pure (.refl _)
  | succ count ih =>
      apply setsAt_operator?
      split
      · exact setsAt_pure (.refl _)
      · obtain ⟨token, hhead, -⟩ := Option.bind_eq_some_iff.mp ‹_›
        refine (skips_advance hhead).skip fun _ t => (hoperand t).andThen fun rhs t => ?_
        exact setsAt_newBinary.bind fun grouped t => ih grouped t

theorem sets_chain (op? : Token → Option BinaryOp) : Sets (chain op? operand) fun e => [.expr e] := fun s =>
  (hoperand s).bind fun lhs t => setsAt_bounded fun count => setsAt_chainUpTo hoperand s op? count lhs t

end

section

variable {nested : Reader Expr} (hnested : Sets nested fun e => [.expr e])
include hnested

theorem sets_fieldInitWith : Sets (fieldInitWith nested) fun field => [.field field] := by
  refine fun s => (sets_ident s).andThen fun name t => (skips_mark .colon t).skip fun _ t => ?_
  refine (hnested t).andThen fun value t => setsAt_spanFrom ?_
  exact setsAt_pure_item rfl rfl rfl (.behind (.refl _)) fun h _ => h.encloses_first

theorem sets_matchArmWith : Sets (matchArmWith nested) fun arm => [.arm arm] := by
  refine fun s => (sets_ident s).andThen fun tag t => (sets_ident t).andThen fun binding t => ?_
  refine (skips_mark .fatArrow t).skip fun _ t => (hnested t).andThen fun body t => setsAt_spanFrom ?_
  exact setsAt_pure_item rfl rfl rfl (.several (.refl _) (by simp)) fun h _ => h.encloses_first

variable {span : Span}

theorem setsAt_conditionalWith :
    SetsAt s₀ [.token span] s (conditionalWith nested s₀.here) fun e => [.expr e] := by
  refine (hnested s).andThen fun condition t => (skips_keyword .thenWord t).skip fun _ t => ?_
  refine (hnested t).andThen fun yes t => (skips_keyword .elseWord t).skip fun _ t => ?_
  exact (hnested t).andThen fun no t => setsAt_newExprFrom (fun _ => rfl) fun _ => .behind (.refl _)

theorem setsAt_lambdaWith : SetsAt s₀ [.token span] s (lambdaWith nested s₀.here) fun e => [.expr e] := by
  refine (sets_generics s).andThen fun names t => (sets_parameters t).andThen fun ps t => ?_
  refine (sets_annotation? t).andThen fun result t => (skips_mark .fatArrow t).skip fun _ t => ?_
  exact (hnested t).andThen fun body t => setsAt_newExprFrom (fun _ => rfl) fun _ => .behind (.refl _)

theorem setsAt_casesWith : SetsAt s₀ [.token span] s (casesWith nested s₀.here) fun e => [.expr e] := by
  refine (hnested s).andThen fun scrutinee t => (skips_mark .leftBrace t).skip fun _ t => ?_
  refine (sets_itemsUntil (sets_matchArmWith hnested) .rightBrace t).andThen fun arms t => ?_
  exact setsAt_newExprFrom (fun _ => rfl) fun _ => .behind (.refl _)

omit hnested in
theorem literal?_items {t : Token} {make : Site → Expr} (h : literal? t = some make) (site : Site) :
    (make site).site = site ∧ (make site).items = [] := by
  unfold literal? at h
  split at h <;> cases h <;> exact ⟨rfl, rfl⟩

theorem sets_primaryWith : Sets (primaryWith nested) fun e => [.expr e] := by
  intro s
  apply setsAt_here
  apply setsAt_peek
  split
  · refine (skips_advance ‹_›).skip fun _ t => (hnested t).andThen fun inner t => ?_
    exact (skips_mark .rightParen t).skip fun _ t => setsAt_pure (.refl _)
  · refine (sets_advance ‹_›).andThen fun _ t => ?_
    refine (sets_itemsUntil (sets_fieldInitWith hnested) .rightBrace t).andThen fun fields t => ?_
    exact setsAt_newExprFrom (fun _ => rfl) fun _ => .behind (.refl _)
  · exact (sets_advance ‹_›).andThen fun _ t => setsAt_conditionalWith hnested
  · exact (sets_advance ‹_›).andThen fun _ t => setsAt_lambdaWith hnested
  · exact (sets_advance ‹_›).andThen fun _ t => setsAt_casesWith hnested
  · split
    · obtain ⟨token, hhead, htoken⟩ := Option.bind_eq_some_iff.mp ‹_›
      refine (sets_advance hhead).andThen fun _ t =>
        setsAt_newExprFrom (fun site => (literal?_items htoken site).1) fun site => ?_
      rw [(literal?_items htoken site).2]
      exact .behind .nil
    · exact setsAt_expected _

theorem setsAt_accessUpTo (s₀ : State) (count : Nat) (e : Expr) (s : State) :
    SetsAt s₀ [.expr e] s (accessUpTo nested count e) fun e => [.expr e] := by
  induction count generalizing e s with
  | zero => exact setsAt_pure (.refl _)
  | succ count ih =>
      apply setsAt_peek
      split
      · refine (skips_advance ‹_›).skip fun _ t => (sets_ident t).andThen fun name t => ?_
        refine setsAt_spanFrom (SetsAt.bind ?_ fun e t => ih e t)
        exact setsAt_newExpr (fun _ => rfl) (fun _ => .several (.cons _ (.token _ .nil)) (Nat.le_refl _)) fun h _ =>
          h.encloses_first
      · refine (sets_advance ‹_›).andThen fun _ t => ?_
        refine (sets_itemsUntil hnested .rightParen t).andThen fun arguments t => ?_
        refine setsAt_spanFrom (SetsAt.bind ?_ fun e t => ih e t)
        exact setsAt_newExpr (fun _ => rfl) (fun _ => .several (.cons _ (.token _ (.refl _))) (by simp)) fun h _ =>
          h.encloses_first
      · refine (sets_advance ‹_›).andThen fun _ t => ?_
        refine (sets_typeArgumentsWith sets_type t).andThen fun types t => ?_
        refine (skips_mark .leftParen t).skip fun _ t => ?_
        refine (sets_itemsUntil hnested .rightParen t).andThen fun arguments t => ?_
        refine setsAt_spanFrom (SetsAt.bind ?_ fun e t => ih e t)
        exact setsAt_newExpr (fun _ => rfl) (fun _ => .several (.cons _ (.token _ (.refl _))) (by simp)) fun h _ =>
          h.encloses_first
      · exact setsAt_pure (.refl _)

theorem sets_accessWith : Sets (accessWith nested) fun e => [.expr e] := fun s =>
  (sets_primaryWith hnested s).bind fun e t => setsAt_bounded fun count => setsAt_accessUpTo hnested s count e t

omit hnested in
theorem leadingOp?_items {t : Token} {make : Site → Expr → Expr} (h : leadingOp? t = some make) (site : Site)
    (e : Expr) : (make site e).site = site ∧ (make site e).items = [.expr e] := by
  unfold leadingOp? at h
  split at h <;> cases h <;> exact ⟨rfl, rfl⟩

theorem sets_unaryUpTo (count : Nat) : Sets (unaryUpTo nested count) fun e => [.expr e] := by
  induction count with
  | zero => exact sets_accessWith hnested
  | succ count ih =>
      intro s
      apply setsAt_here
      apply setsAt_operator?
      split
      · obtain ⟨token, hhead, htoken⟩ := Option.bind_eq_some_iff.mp ‹_›
        refine (sets_advance hhead).andThen fun _ t => (ih t).andThen fun operand t => ?_
        refine setsAt_newExprFrom (fun site => (leadingOp?_items htoken site operand).1) fun site => ?_
        rw [(leadingOp?_items htoken site operand).2]
        exact .behind (.refl _)
      · exact sets_accessWith hnested s

theorem sets_unaryWith : Sets (unaryWith nested) fun e => [.expr e] := fun s =>
  setsAt_bounded fun count => sets_unaryUpTo hnested count s

theorem sets_productWith : Sets (productWith nested) fun e => [.expr e] := sets_chain (sets_unaryWith hnested) _

theorem sets_sumWith : Sets (sumWith nested) fun e => [.expr e] := sets_chain (sets_productWith hnested) _

omit hnested in
theorem tagOp?_items {t : Token} {make : Site → Expr → String → Expr} (h : tagOp? t = some make) (site : Site)
    (e : Expr) (tag : String) : (make site e tag).site = site ∧ (make site e tag).items = [.expr e] := by
  unfold tagOp? at h
  split at h <;> cases h <;> exact ⟨rfl, rfl⟩

omit hnested in
theorem setsAt_tagsUpTo (s₀ : State) (count : Nat) (value : Expr) (s : State) :
    SetsAt s₀ [.expr value] s (tagsUpTo count value) fun e => [.expr e] := by
  induction count generalizing value s with
  | zero => exact setsAt_pure (.refl _)
  | succ count ih =>
      apply setsAt_operator?
      split
      · obtain ⟨token, hhead, htoken⟩ := Option.bind_eq_some_iff.mp ‹_›
        refine (skips_advance hhead).skip fun _ t => (sets_ident t).andThen fun tag t => ?_
        refine SetsAt.bind ?_ fun e t => ih e t
        refine setsAt_newExpr (fun site => (tagOp?_items htoken site value tag.value).1) (fun site => ?_) fun h _ =>
          h.encloses_both
        rw [(tagOp?_items htoken site value tag.value).2]
        exact .several (.cons _ (.token _ .nil)) (Nat.le_refl _)
      · exact setsAt_pure (.refl _)

theorem sets_tagsWith : Sets (tagsWith nested) fun e => [.expr e] := fun s =>
  (sets_sumWith hnested s).bind fun value t => setsAt_bounded fun count => setsAt_tagsUpTo s count value t

theorem sets_comparisonWith : Sets (comparisonWith nested) fun e => [.expr e] := by
  refine fun s => (sets_tagsWith hnested s).andThen fun lhs t => setsAt_operator? ?_
  split
  · exact setsAt_pure (.refl _)
  · obtain ⟨token, hhead, -⟩ := Option.bind_eq_some_iff.mp ‹_›
    refine (skips_advance hhead).skip fun _ t => (sets_tagsWith hnested t).andThen fun rhs t => ?_
    exact setsAt_newBinary

theorem sets_conjunctionWith : Sets (conjunctionWith nested) fun e => [.expr e] :=
  sets_chain (sets_comparisonWith hnested) _

theorem sets_exprWith : Sets (exprWith nested) fun e => [.expr e] := sets_chain (sets_conjunctionWith hnested) _

end

theorem sets_exprUpTo (depth : Nat) : Sets (exprUpTo depth) fun e => [.expr e] := by
  induction depth with
  | zero => exact fun s => setsAt_expected _
  | succ depth ih => exact sets_exprWith ih

theorem sets_expr : Sets expr fun e => [.expr e] := fun s => setsAt_bounded fun depth => sets_exprUpTo depth s

/-! ## Declarations -/

theorem sets_alternative : Sets alternative fun a => [.alternative a] := by
  refine fun s => (sets_ident s).andThen fun tag t => (skips_mark .colon t).skip fun _ t => ?_
  refine (sets_type t).andThen fun payload t => setsAt_spanFrom ?_
  exact setsAt_pure_item rfl rfl rfl (.behind (.refl _)) fun h _ => h.encloses_first

section

variable {span : Span}

theorem setsAt_valueDeclaration :
    SetsAt s₀ [.token span] s (valueDeclaration s₀.here) fun d => [.declaration d] := by
  refine (sets_ident s).andThen fun name t => (sets_annotation? t).andThen fun type t => ?_
  refine (skips_mark .assign t).skip fun _ t => (sets_expr t).andThen fun value t => setsAt_spanFrom ?_
  exact setsAt_pure_item rfl rfl rfl (.behind (.refl _)) Stretch.encloses_here

theorem setsAt_aliasDeclaration :
    SetsAt s₀ [.token span] s (aliasDeclaration s₀.here) fun d => [.declaration d] := by
  refine (sets_ident s).andThen fun name t => (sets_generics t).andThen fun names t => ?_
  refine (skips_mark .assign t).skip fun _ t => (sets_type t).andThen fun target t => setsAt_spanFrom ?_
  exact setsAt_pure_item rfl rfl rfl (.behind (.refl _)) Stretch.encloses_here

theorem setsAt_unionDeclaration :
    SetsAt s₀ [.token span] s (unionDeclaration s₀.here) fun d => [.declaration d] := by
  refine (sets_ident s).andThen fun name t => (sets_generics t).andThen fun names t => ?_
  refine (skips_mark .assign t).skip fun _ t => ?_
  refine (sets_separated sets_alternative .pipe t).andThen fun alternatives t => setsAt_spanFrom ?_
  exact setsAt_pure_item rfl rfl rfl (.behind (.refl _)) Stretch.encloses_here

theorem setsAt_externalDeclaration :
    SetsAt s₀ [.token span] s (externalDeclaration s₀.here) fun d => [.declaration d] := by
  refine (skips_keyword .defWord s).skip fun _ t => (sets_ident t).andThen fun name t => ?_
  refine (sets_generics t).andThen fun names t => (sets_parameters t).andThen fun ps t => ?_
  refine (skips_mark .colon t).skip fun _ t => (sets_type t).andThen fun result t => setsAt_spanFrom ?_
  exact setsAt_pure_item rfl rfl rfl (.behind (.refl _)) Stretch.encloses_here

end

/-! ## Bodies -/

/-- An expression by itself is a body of the same length. -/
theorem setsAt_pure_result {e : Expr} : SetsAt s₀ [.expr e] s (pure (Body.mk [] e e.span)) fun b => [.body b] := by
  refine ⟨⟨Nat.le_refl _, nofun⟩, fun b hb _ hgiven => ?_⟩
  obtain rfl := Option.some.inj hb
  have hahead := hgiven.ahead.bounds (List.mem_singleton.mpr rfl)
  have hbehind := hgiven.behind.bounds (List.mem_singleton.mpr rfl)
  have hfits : (Item.body (.mk [] e e.span)).Fits :=
    ⟨hahead.2.1, ⟨Nat.le_refl _, hahead.2.1, Nat.le_refl _⟩, fun _ _ _ => ⟨_, rfl⟩⟩
  exact hgiven.item hfits (.refl _) ⟨hahead.1, hbehind.2.2⟩ (List.append_nil _).symm (List.append_nil _).symm

theorem setsAt_report {fault : Option Token → ParseFault} {next : Unit → Reader β} (h : ∀ t, CarefulAt t (next ())) :
    SetsAt s₀ given s (report fault >>= next) more := by
  refine setsAt_of_grown (Nat.lt_of_lt_of_le ?_ (h _).errors)
  rw [Array.size_push]
  exact Nat.lt_succ_self _

theorem setsAt_unfinished {start : Span} {declarations : List Declaration} {items : Body → List Item} :
    SetsAt s₀ given s (unfinished start declarations) items :=
  setsAt_report fun _ => ⟨Nat.le_refl _, nofun⟩

theorem setsAt_passOver {next : Unit → Reader β} (h : ∀ t, CarefulAt t (next ())) :
    SetsAt s₀ given s (passOver >>= next) more := by
  have hrecover (t : State) : CarefulAt t recover := ⟨Nat.le_refl _, nofun⟩
  have hadvance (t : State) : CarefulAt t advance :=
    ⟨Nat.le_of_eq (congrArg Array.size State.errors_advance.symm), nofun⟩
  have hreport : SetsAt s₀ given s (report (.expected .declaration) >>= fun _ => advance >>= fun _ => recover >>= next)
      more :=
    setsAt_report fun t => (hadvance t).bind fun _ t => (hrecover t).bind fun _ t => h t
  exact hreport.of_eq rfl

/-- When a reader fails there has been an error, so that nothing needs to be known of what is done then. -/
theorem setsAt_attempt {α : Type} {r : Reader α} {items : α → List Item} {next : Option α → Reader β}
    (h : SetsAt s [] s r items) (hsome : ∀ a t, SetsAt s₀ (given ++ items a) t (next (some a)) more)
    (hnone : ∀ t, CarefulAt t (next none)) : SetsAt s₀ given s (attempt r >>= next) more := by
  cases hr : r s with
  | mk found t =>
      cases found with
      | some a =>
          refine (h.andThen hsome).of_eq ?_
          simp only [run_bind, attempt, hr]
      | none =>
          have hfailed := h.failed
          rw [hr] at hfailed
          refine setsAt_of_grown ?_
          simp only [run_bind, attempt, hr]
          exact Nat.lt_of_lt_of_le (hfailed rfl) (hnone t).errors

theorem setsAt_finished {declarations : List Declaration} (hhead : s.tokens.head? = some (.keyword .returnWord)) :
    SetsAt s₀ (declarations.map .declaration) s (finished s₀.here declarations) fun b => [.body b] := by
  refine (sets_advance hhead).andThen fun _ t => ?_
  refine setsAt_attempt (sets_expr t) (fun result t => ?_) fun t => ⟨Nat.le_refl _, nofun⟩
  rw [List.append_assoc]
  have hmakes : MakesUp (declarations.map .declaration ++ [.token s.here, .expr result])
      (declarations.map .declaration ++ [.expr result]) := by
    refine .several (.append_left _ (.token _ (.refl _))) ?_
    rw [List.length_append]
    exact Nat.le_add_left 2 _
  have hbody : SetsAt s₀ (declarations.map .declaration ++ [.token s.here, .expr result]) t
      (do pure (.mk declarations result (← spanFrom s₀.here))) fun b => [.body b] :=
    setsAt_spanFrom (setsAt_pure_item rfl rfl rfl hmakes Stretch.encloses_here)
  exact hbody

section

variable {nested : Reader Body} (hnested : Sets nested fun b => [.body b])
include hnested

theorem sets_functionBodyWith : Sets (functionBodyWith nested) fun b => [.body b] := by
  intro s
  apply setsAt_peek
  split
  · exact (skips_advance ‹_›).skip fun _ t => (sets_expr t).andThen fun result t => setsAt_pure_result
  · refine (skips_advance ‹_›).skip fun _ t => (hnested t).andThen fun body t => ?_
    exact (skips_mark .rightBrace t).skip fun _ t => setsAt_pure (.refl _)
  · exact setsAt_expected _

theorem setsAt_functionDeclarationWith {span : Span} :
    SetsAt s₀ [.token span] s (functionDeclarationWith nested s₀.here) fun d => [.declaration d] := by
  refine (sets_ident s).andThen fun name t => (sets_generics t).andThen fun names t => ?_
  refine (sets_parameters t).andThen fun ps t => (sets_annotation? t).andThen fun result t => ?_
  refine (sets_functionBodyWith hnested t).andThen fun body t => setsAt_spanFrom ?_
  exact setsAt_pure_item rfl rfl rfl (.behind (.refl _)) Stretch.encloses_here

theorem sets_declarationWith {k : Keyword} (hhead : s.tokens.head? = some (.keyword k)) :
    SetsAt s [] s (declarationWith nested k) fun d => [.declaration d] := by
  apply setsAt_here
  refine (sets_advance hhead).andThen fun _ t => ?_
  split
  · exact setsAt_valueDeclaration
  · exact setsAt_externalDeclaration
  · exact setsAt_aliasDeclaration
  · exact setsAt_unionDeclaration
  · exact setsAt_functionDeclarationWith hnested

theorem setsAt_bodyRestUpTo (s₀ : State) (count : Nat) (declarations : List Declaration) (s : State) :
    SetsAt s₀ (declarations.map .declaration) s (bodyRestUpTo nested s₀.here count declarations)
      fun b => [.body b] := by
  induction count generalizing declarations s with
  | zero => exact setsAt_unfinished
  | succ count ih =>
      apply setsAt_peek
      split
      · exact setsAt_unfinished
      · exact setsAt_unfinished
      · split
        · refine setsAt_attempt (sets_declarationWith hnested ‹_›) (fun d t => ?_) fun t => ?_
          · have hmore := ih (declarations ++ [d]) t
            rw [List.map_append] at hmore
            exact hmore
          · have hrecover : CarefulAt t recover := ⟨Nat.le_refl _, nofun⟩
            exact hrecover.bind fun _ u => (ih declarations u).toCarefulAt
        · split
          · rename_i hk
            subst hk
            exact setsAt_finished ‹_›
          · exact setsAt_passOver fun t => (ih declarations t).toCarefulAt
      · exact setsAt_passOver fun t => (ih declarations t).toCarefulAt

theorem sets_bodyWith : Sets (bodyWith nested) fun b => [.body b] := fun s =>
  setsAt_here (setsAt_bounded fun count => setsAt_bodyRestUpTo hnested s count [] s)

end

theorem sets_bodyUpTo (depth : Nat) : Sets (bodyUpTo depth) fun b => [.body b] := by
  induction depth with
  | zero => exact fun _ => setsAt_here setsAt_unfinished
  | succ depth ih => exact sets_bodyWith ih

theorem sets_program : Sets program fun b => [.body b] := by
  refine fun s => SetsAt.andThen (setsAt_bounded fun depth => sets_bodyUpTo depth s) fun b t => setsAt_peek ?_
  split
  · exact setsAt_report fun _ => ⟨Nat.le_refl _, nofun⟩
  · exact setsAt_pure (.refl _)

/-! ## The whole text -/

theorem State.Ready.start {tokens : List (Spanned Token)}
    (hordered : tokens.Pairwise fun t u => t.span.stop ≤ u.span.start)
    (hnonempty : ∀ t ∈ tokens, t.span.start < t.span.stop) : (State.start tokens).Ready := by
  have horder : Span.InOrder 0 (tokens.map (·.span)) (((tokens.map (·.span)).getLast?.map Span.stop).getD 0) :=
    .of_pairwise (List.pairwise_map.mpr hordered) (List.forall_mem_map.mpr hnonempty) fun _ _ => Nat.zero_le _
  rw [List.getLast?_map] at horder
  unfold State.Ready State.start
  cases hlast : tokens.getLast? <;> rw [hlast] at horder <;> exact horder

/-- The run behind a tree. -/
theorem exists_run_parse (source : String) : ∃ t,
    program (.start (scan source).tokens) = (some (parse source).tree.body, t) ∧ (parse source).tree.nodes = t.nodes ∧
      (parse source).errors = (scan source).unexpected.map (⟨.unexpectedCharacter, ·⟩) ++ t.errors.toList := by
  obtain ⟨b, t, hrun⟩ := exists_run_program (.start (scan source).tokens)
  have htokens : Parse.ofTokens (scan source).tokens = ⟨⟨b, t.nodes⟩, t.errors.toList⟩ := by rw [Parse.ofTokens, hrun]
  refine ⟨t, ?_, ?_, ?_⟩ <;> rw [parse, htokens]
  exact hrun

theorem Partitions.pairwise_tokens {source : String} {pieces : List (Spanned Token.Piece)}
    (h : Token.Partitions source pieces) :
    (Scan.ofPieces pieces).tokens.Pairwise fun t u => t.span.stop ≤ u.span.start := by
  refine List.pairwise_filterMap.mpr (h.ordered.imp fun {p q} hpq t ht u hu => ?_)
  obtain ⟨value, span⟩ := p
  obtain ⟨value', span'⟩ := q
  cases value <;> cases value' <;> cases ht <;> cases hu
  exact hpq

/-- Reading without an error takes the whole tree from the tokens of the text. -/
theorem stretch_parse {source : String} (h : (parse source).errors = []) : ∃ t,
    Stretch (.start (scan source).tokens) t [.body (parse source).tree.body] ∧ t.nodes = (parse source).tree.nodes := by
  obtain ⟨t, hrun, hnodes, herrors⟩ := exists_run_parse source
  rw [herrors, List.append_eq_nil_iff] at h
  have hquiet : t.errors = #[] := Array.toList_eq_nil_iff.mp h.2
  have hsets := (sets_program (.start (scan source).tokens)).sets
  rw [hrun] at hsets
  have hpieces := Token.partitions_scan source
  have hready : (State.start (scan source).tokens).Ready :=
    .start (Partitions.pairwise_tokens hpieces) fun t ht => (hpieces.bounds_of_mem.1 t ht).1
  exact ⟨t, hsets _ rfl (congrArg Array.size hquiet) (.refl hready), hnodes.symm⟩

/-- The expressions made are those in the body, in their order. -/
theorem expressions_parse {source : String} (h : (parse source).errors = []) :
    (parse source).tree.nodes.expressions.toList = (Item.body (parse source).tree.body).expressions := by
  obtain ⟨t, hstretch, hnodes⟩ := stretch_parse h
  rw [← hnodes, hstretch.expressions, List.flatMap_singleton]
  rfl

theorem types_parse {source : String} (h : (parse source).errors = []) :
    (parse source).tree.nodes.types.toList = (Item.body (parse source).tree.body).types := by
  obtain ⟨t, hstretch, hnodes⟩ := stretch_parse h
  rw [← hnodes, hstretch.types, List.flatMap_singleton]
  rfl

theorem State.finish_start_le {tokens : List (Spanned Token)} {size : Nat} (h : ∀ t ∈ tokens, t.span.stop ≤ size) :
    (State.start tokens).finish.start ≤ size := by
  unfold State.start
  cases hlast : tokens.getLast? with
  | none => exact Nat.zero_le _
  | some last => exact h last (List.mem_of_getLast? hlast)

end Reader

namespace Tree

/-- The places of the parts of a tree, in a text of `size` bytes. -/
structure Nests (tree : Tree) (size : Nat) : Prop where
  /-- The nodes made are those in the body, in their order. -/
  expressions : tree.nodes.expressions.toList = (Item.body tree.body).expressions
  types : tree.nodes.types.toList = (Item.body tree.body).types
  inside : ∀ i ∈ (Item.body tree.body).postorder, i.span.start < i.span.stop ∧ i.span.stop ≤ size
  contains : ∀ i ∈ (Item.body tree.body).postorder, ∀ c ∈ i.children,
    i.span.start ≤ c.span.start ∧ c.span.stop ≤ i.span.stop
  ordered : ∀ i ∈ (Item.body tree.body).postorder, i.children.Pairwise fun c d => c.span.stop ≤ d.span.start
  /-- A span names one expression. -/
  unique : ∀ {i j : Nat} {e f : Expr}, tree.nodes.expressions[i]? = some e → tree.nodes.expressions[j]? = some f →
    e.span = f.span → i = j

end Tree

open Reader in
/-- What is read without an error is nested: the parts of every part of the tree stand in it, one after the other, and
no two expressions have the same span. -/
theorem nests_parse {source : String} (h : (parse source).errors = []) :
    (parse source).tree.Nests source.utf8ByteSize := by
  obtain ⟨t, hstretch, -⟩ := stretch_parse h
  have hnested : (Item.body (parse source).tree.body).Nested := hstretch.nested _ (List.mem_singleton.mpr rfl)
  have hexpressions := expressions_parse h
  refine ⟨hexpressions, types_parse h, fun i hi => ⟨(hnested i hi).nonempty, ?_⟩, fun i hi c hc => ?_,
    fun i hi => ?_, ?_⟩
  · have hfinish : t.finish.start ≤ source.utf8ByteSize := by
      rw [hstretch.finish]
      exact State.finish_start_le fun t ht => ((Token.partitions_scan source).bounds_of_mem.1 t ht).2
    calc i.span.stop ≤ (parse source).tree.body.span.stop := (hnested.contains hi).2
      _ ≤ t.previous.stop := (hstretch.behind.bounds (List.mem_singleton.mpr rfl)).2.2
      _ ≤ t.finish.start := hstretch.ready.le_finish
      _ ≤ source.utf8ByteSize := hfinish
  · have := (hnested i hi).order.bounds (List.mem_map_of_mem hc)
    exact ⟨this.1, this.2.2⟩
  · exact List.pairwise_map.mp (hnested i hi).order.pairwise
  · intro i j e f he hf hspan
    have hpairwise := hnested.pairwise_span
    rw [← hexpressions, List.pairwise_iff_getElem] at hpairwise
    rw [← Array.getElem?_toList] at he hf
    obtain ⟨hi, rfl⟩ := List.getElem?_eq_some_iff.mp he
    obtain ⟨hj, rfl⟩ := List.getElem?_eq_some_iff.mp hf
    rcases Nat.lt_trichotomy i j with hlt | heq | hlt
    · exact absurd hspan (hpairwise i j hi hj hlt)
    · exact heq
    · exact absurd hspan.symm (hpairwise j i hj hi hlt)

/-- Parentheses around every kind of operand, and around a body. -/
def parenthesesSource : String :=
  "def f[A](x: (A)?): (A)? = (x) val y = ((-(1n)) # a) return (match (y) { a b => (f)((b)) })"

theorem nests_parse_parentheses : (parse parenthesesSource).errors = [] ∧
    (parse parenthesesSource).tree.Nests parenthesesSource.utf8ByteSize := by
  have hparse : (parse parenthesesSource).errors = [] := by decide +kernel
  exact ⟨hparse, nests_parse hparse⟩

end Sable
