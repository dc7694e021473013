import Sable.Proofs.Reader.Moves
import Sable.Reader.Expr

/-! Reading the expressions of a text that is moved. -/
namespace Sable.Reader

variable {m : Shift} {before : Earlier m}

theorem movesAt_operator? {α γ δ : Type} {s : State} {g : γ → δ} {read : Token → Option α}
    {next : Option α → Reader γ} {next' : Option α → Reader δ}
    (h : ∀ op, (∀ a, op = some a → ∃ token, read token = some a) → MovesAt m before s g (next op) (next' op)) :
    MovesAt m before s g (operator? read >>= next) (operator? read >>= next') := by
  have hread : ∀ a, (s.rest.head?.map (·.value)).bind read = some a → ∃ token, read token = some a := by
    intro a ha
    obtain ⟨token, -, htoken⟩ := Option.bind_eq_some_iff.1 ha
    exact ⟨token, htoken⟩
  change MovesAt m before s g (peek >>= fun found => next (found.bind read))
    (peek >>= fun found => next' (found.bind read))
  exact movesAt_peek (h _ hread)

theorem moves_newBinary (op : BinaryOp) (lhs rhs : Expr) :
    Moves m before (Expr.moved m) (newBinary op lhs rhs) (newBinary op (lhs.moved m) (rhs.moved m)) := by
  simp only [newBinary, Expr.span_moved, Span.merge_moved]
  exact moves_newExpr _ fun _ => rfl

section

variable {op? : Token → Option BinaryOp} {operand : Reader Expr}
  (hoperand : Moves m before (Expr.moved m) operand operand)
include hoperand

theorem moves_chainUpTo (count : Nat) (lhs : Expr) :
    Moves m before (Expr.moved m) (chainUpTo op? operand count lhs) (chainUpTo op? operand count (lhs.moved m)) := by
  induction count generalizing lhs with
  | zero => exact fun s => movesAt_pure rfl
  | succ count ih =>
      refine fun s => movesAt_operator? fun op _ => ?_
      cases op with
      | none => exact movesAt_pure rfl
      | some op =>
          refine (moves_advance s).bind fun _ t _ => (hoperand t).bind fun rhs t _ => ?_
          exact (moves_newBinary op lhs rhs t).bind fun grouped t _ => ih grouped t

theorem moves_chain : Moves m before (Expr.moved m) (chain op? operand) (chain op? operand) :=
  fun s => (hoperand s).bind fun lhs t _ => movesAt_bounded (moves_chainUpTo hoperand _ lhs t)

end

section

variable {nested : Reader Expr} (hnested : Moves m before (Expr.moved m) nested nested)
include hnested

theorem moves_fieldInitWith :
    Moves m before (FieldInit.moved m (Expr.moved m)) (fieldInitWith nested) (fieldInitWith nested) := by
  refine fun s => (moves_ident s).bind fun name t _ => (moves_mark .colon t).bind fun _ t _ => ?_
  refine (hnested t).bind fun value t _ => (moves_spanFrom name.span t).bind fun span t _ => ?_
  exact movesAt_pure rfl

theorem moves_matchArmWith :
    Moves m before (MatchArm.moved m (Expr.moved m)) (matchArmWith nested) (matchArmWith nested) := by
  refine fun s => (moves_ident s).bind fun tag t _ => (moves_ident t).bind fun binding t _ => ?_
  refine (moves_mark .fatArrow t).bind fun _ t _ => (hnested t).bind fun body t _ => ?_
  exact (moves_spanFrom tag.span t).bind fun span t _ => movesAt_pure rfl

theorem moves_conditionalWith (start : Span) :
    Moves m before (Expr.moved m) (conditionalWith nested start)
      (conditionalWith nested (start.moved m.offset)) := by
  refine fun s => (hnested s).bind fun condition t _ => (moves_keyword .thenWord t).bind fun _ t _ => ?_
  refine (hnested t).bind fun thenBranch t _ => (moves_keyword .elseWord t).bind fun _ t _ => ?_
  exact (hnested t).bind fun elseBranch t _ => moves_newExprFrom start (fun _ => rfl) t

theorem moves_lambdaWith (start : Span) :
    Moves m before (Expr.moved m) (lambdaWith nested start) (lambdaWith nested (start.moved m.offset)) := by
  refine fun s => (moves_generics s).bind fun names t _ => (moves_parameters t).bind fun ps t _ => ?_
  refine (moves_annotation? t).bind fun result t _ => (moves_mark .fatArrow t).bind fun _ t _ => ?_
  exact (hnested t).bind fun body t _ => moves_newExprFrom start (fun _ => rfl) t

theorem moves_casesWith (start : Span) :
    Moves m before (Expr.moved m) (casesWith nested start) (casesWith nested (start.moved m.offset)) := by
  refine fun s => (hnested s).bind fun scrutinee t _ => (moves_mark .leftBrace t).bind fun _ t _ => ?_
  refine (moves_itemsUntil (moves_matchArmWith hnested) .rightBrace t).bind fun arms t _ => ?_
  refine moves_newExprFrom start (fun site => ?_) t
  rw [← Expr.movedArms_eq_map]
  rfl

omit hnested in
theorem literal?_moved {token : Token} {make : Site → Expr} (h : literal? token = some make) (site : Site) :
    make (site.movedBy m m.expressions) = (make site).moved m := by
  cases token with
  | number x => cases h; rfl
  | bigInteger digits => cases h; rfl
  | ident name => cases h; rfl
  | keyword k => cases k <;> cases h <;> rfl
  | mark p => cases h

theorem moves_primaryWith : Moves m before (Expr.moved m) (primaryWith nested) (primaryWith nested) := by
  intro s
  apply movesAt_here
  apply movesAt_peek
  split
  · refine (moves_advance s).bind fun _ t _ => (hnested t).bind fun inner t _ => ?_
    exact (moves_mark .rightParen t).bind fun _ t _ => movesAt_pure rfl
  · refine (moves_advance s).bind fun _ t _ => ?_
    refine (moves_itemsUntil (moves_fieldInitWith hnested) .rightBrace t).bind fun fields t _ => ?_
    refine moves_newExprFrom s.here (fun site => ?_) t
    rw [← Expr.movedFields_eq_map]
    rfl
  · exact (moves_advance s).bind fun _ t _ => moves_conditionalWith hnested s.here t
  · exact (moves_advance s).bind fun _ t _ => moves_lambdaWith hnested s.here t
  · exact (moves_advance s).bind fun _ t _ => moves_casesWith hnested s.here t
  · split
    · rename_i make hmake
      obtain ⟨token, -, htoken⟩ := Option.bind_eq_some_iff.1 hmake
      exact (moves_advance s).bind fun _ t _ => moves_newExprFrom s.here (literal?_moved htoken) t
    · exact moves_expected _ s

theorem moves_accessUpTo (count : Nat) (e : Expr) :
    Moves m before (Expr.moved m) (accessUpTo nested count e) (accessUpTo nested count (e.moved m)) := by
  induction count generalizing e with
  | zero => exact fun s => movesAt_pure rfl
  | succ count ih =>
      intro s
      apply movesAt_peek
      rw [Expr.span_moved]
      split
      · refine (moves_advance s).bind fun _ t _ => (moves_ident t).bind fun name t _ => ?_
        refine (moves_spanFrom e.span t).bind fun span t _ => ?_
        exact (moves_newExpr span (fun _ => rfl) t).bind fun e t _ => ih e t
      · refine (moves_advance s).bind fun _ t _ => ?_
        refine (moves_itemsUntil hnested .rightParen t).bind fun arguments t _ => ?_
        refine (moves_spanFrom e.span t).bind fun span t _ => ?_
        rw [← Expr.movedEach_eq_map]
        exact (moves_newExpr span (fun _ => rfl) t).bind fun e t _ => ih e t
      · refine (moves_advance s).bind fun _ t _ => ?_
        refine (moves_typeArgumentsWith moves_type t).bind fun types t _ => ?_
        refine (moves_mark .leftParen t).bind fun _ t _ => ?_
        refine (moves_itemsUntil hnested .rightParen t).bind fun arguments t _ => ?_
        refine (moves_spanFrom e.span t).bind fun span t _ => ?_
        rw [← Expr.movedEach_eq_map]
        exact (moves_newExpr span (fun _ => rfl) t).bind fun e t _ => ih e t
      · exact movesAt_pure rfl

theorem moves_accessWith : Moves m before (Expr.moved m) (accessWith nested) (accessWith nested) :=
  fun s => (moves_primaryWith hnested s).bind fun e t _ => movesAt_bounded (moves_accessUpTo hnested _ e t)

omit hnested in
theorem leadingOp?_moved {token : Token} {make : Site → Expr → Expr} (h : leadingOp? token = some make)
    (site : Site) (e : Expr) : make (site.movedBy m m.expressions) (e.moved m) = (make site e).moved m := by
  cases token with
  | keyword k => cases k <;> cases h <;> rfl
  | mark p => cases p <;> cases h; rfl
  | number x => cases h
  | bigInteger digits => cases h
  | ident name => cases h

theorem moves_unaryUpTo (count : Nat) :
    Moves m before (Expr.moved m) (unaryUpTo nested count) (unaryUpTo nested count) := by
  induction count with
  | zero => exact moves_accessWith hnested
  | succ count ih =>
      intro s
      apply movesAt_here
      refine movesAt_operator? fun op hop => ?_
      cases op with
      | none => exact moves_accessWith hnested s
      | some make =>
          obtain ⟨token, htoken⟩ := hop make rfl
          refine (moves_advance s).bind fun _ t _ => (ih t).bind fun operand t _ => ?_
          exact moves_newExprFrom s.here (fun site => leadingOp?_moved htoken site operand) t

theorem moves_unaryWith : Moves m before (Expr.moved m) (unaryWith nested) (unaryWith nested) :=
  fun s => movesAt_bounded (moves_unaryUpTo hnested _ s)

theorem moves_productWith : Moves m before (Expr.moved m) (productWith nested) (productWith nested) :=
  moves_chain (moves_unaryWith hnested)

theorem moves_sumWith : Moves m before (Expr.moved m) (sumWith nested) (sumWith nested) :=
  moves_chain (moves_productWith hnested)

omit hnested in
theorem tagOp?_moved {token : Token} {make : Site → Expr → String → Expr} (h : tagOp? token = some make)
    (site : Site) (e : Expr) (tag : String) :
    make (site.movedBy m m.expressions) (e.moved m) tag = (make site e tag).moved m := by
  cases token with
  | keyword k => cases k <;> cases h; rfl
  | mark p => cases p <;> cases h; rfl
  | number x => cases h
  | bigInteger digits => cases h
  | ident name => cases h

omit hnested in
theorem moves_tagsUpTo (count : Nat) (value : Expr) :
    Moves m before (Expr.moved m) (tagsUpTo count value) (tagsUpTo count (value.moved m)) := by
  induction count generalizing value with
  | zero => exact fun s => movesAt_pure rfl
  | succ count ih =>
      refine fun s => movesAt_operator? fun op hop => ?_
      cases op with
      | none => exact movesAt_pure rfl
      | some make =>
          obtain ⟨token, htoken⟩ := hop make rfl
          refine (moves_advance s).bind fun _ t _ => (moves_ident t).bind fun tag t _ => ?_
          rw [Expr.span_moved]
          change MovesAt m before t _ _ (newExpr ((value.span.moved m.offset).merge (tag.span.moved m.offset)) _ >>= _)
          rw [Span.merge_moved]
          exact (moves_newExpr _ (fun site => tagOp?_moved htoken site value tag.value) t).bind fun e t _ => ih e t

theorem moves_tagsWith : Moves m before (Expr.moved m) (tagsWith nested) (tagsWith nested) :=
  fun s => (moves_sumWith hnested s).bind fun value t _ => movesAt_bounded (moves_tagsUpTo _ value t)

theorem moves_comparisonWith : Moves m before (Expr.moved m) (comparisonWith nested) (comparisonWith nested) := by
  refine fun s => (moves_tagsWith hnested s).bind fun lhs t _ => movesAt_operator? fun op _ => ?_
  cases op with
  | none => exact movesAt_pure rfl
  | some op =>
      refine (moves_advance t).bind fun _ t _ => (moves_tagsWith hnested t).bind fun rhs t _ => ?_
      exact moves_newBinary op lhs rhs t

theorem moves_conjunctionWith : Moves m before (Expr.moved m) (conjunctionWith nested) (conjunctionWith nested) :=
  moves_chain (moves_comparisonWith hnested)

theorem moves_exprWith : Moves m before (Expr.moved m) (exprWith nested) (exprWith nested) :=
  moves_chain (moves_conjunctionWith hnested)

end

theorem moves_exprUpTo (depth : Nat) : Moves m before (Expr.moved m) (exprUpTo depth) (exprUpTo depth) := by
  induction depth with
  | zero => exact moves_expected _
  | succ depth ih => exact moves_exprWith ih

theorem moves_expr : Moves m before (Expr.moved m) expr expr :=
  fun s => movesAt_bounded (moves_exprUpTo _ s)

end Sable.Reader
