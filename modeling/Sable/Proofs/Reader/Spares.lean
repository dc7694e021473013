import Sable.Proofs.Reader.Expressions

/-! Readers of expressions leave the keywords that begin a declaration, and `return`, where they are.

This holds whether a reader gives something or fails. So wherever reading an expression ends, it ends at the latest in
front of the next declaration. -/
namespace Sable

/-- A part of a body begins here: the token is a keyword that begins a declaration, or `return`. -/
def Token.beginsPart : Token → Bool
  | .keyword k => k.opensDeclaration || k == .returnWord
  | _ => false

namespace Reader

variable {α β : Type} {s : State} {r : Reader α} {next : α → Reader β}

/-- From the state `s` the reader takes no token at which a part of a body begins. -/
def SparesAt (s : State) (r : Reader α) : Prop :=
  ∃ taken, s.tokens = taken ++ (r s).2.tokens ∧ ∀ t ∈ taken, t.beginsPart = false

/-- The reader takes no token at which a part of a body begins, wherever it begins itself. -/
abbrev Spares (r : Reader α) : Prop := ∀ s, SparesAt s r

theorem SparesAt.of_eq {r' : Reader α} (h : SparesAt s r) (hr : r' s = r s) : SparesAt s r' := by
  unfold SparesAt
  rw [hr]
  exact h

theorem SparesAt.bind (h : SparesAt s r) (hnext : ∀ a t, SparesAt t (next a)) : SparesAt s (r >>= next) := by
  obtain ⟨taken, htokens, htaken⟩ := h
  unfold SparesAt
  rw [run_bind]
  match hr : r s with
  | (none, t) =>
      rw [hr] at htokens
      exact ⟨taken, htokens, htaken⟩
  | (some a, t) =>
      rw [hr] at htokens
      obtain ⟨more, htokens', hmore⟩ := hnext a t
      refine ⟨taken ++ more, ?_, List.forall_mem_append.mpr ⟨htaken, hmore⟩⟩
      rw [htokens, htokens', List.append_assoc]

/-- A step that leaves the tokens as they are. -/
theorem sparesAt_of_tokens_eq (h : (r s).2.tokens = s.tokens) : SparesAt s r :=
  ⟨[], by rw [h, List.nil_append], nofun⟩

theorem spares_pure (a : α) : Spares (pure a : Reader α) := fun _ => sparesAt_of_tokens_eq rfl

theorem spares_spanFrom (start : Span) : Spares (spanFrom start) := fun _ => sparesAt_of_tokens_eq rfl

theorem spares_expected (what : Expectation) : Spares (expected what : Reader α) :=
  fun _ => sparesAt_of_tokens_eq rfl

theorem spares_newExpr (span : Span) (make : Site → Expr) : Spares (newExpr span make) :=
  fun _ => sparesAt_of_tokens_eq rfl

theorem spares_newType (span : Span) (make : Site → TypeExpr) : Spares (newType span make) :=
  fun _ => sparesAt_of_tokens_eq rfl

theorem spares_bounded {r : Nat → Reader α} (h : ∀ count, Spares (r count)) : Spares (bounded r) :=
  fun s => (h _ s).of_eq rfl

/-! ## Steps that take one token, or none -/

theorem sparesAt_peek {next : Option Token → Reader β} (h : SparesAt s (next s.tokens.head?)) :
    SparesAt s (peek >>= next) := by
  rw [State.tokens, List.head?_map] at h
  exact h.of_eq rfl

theorem sparesAt_here {next : Span → Reader β} (h : SparesAt s (next s.here)) : SparesAt s (here >>= next) :=
  h.of_eq rfl

theorem sparesAt_advance {t : Token} {next : Unit → Reader β} (hhead : s.tokens.head? = some t)
    (ht : t.beginsPart = false) (h : Spares (next ())) : SparesAt s (advance >>= next) := by
  obtain ⟨taken, htokens, htaken⟩ := h s.advance
  refine ⟨t :: taken, ?_, List.forall_mem_cons.mpr ⟨ht, htaken⟩⟩
  rw [State.tokens_advance hhead, htokens]
  rfl

theorem spares_token? {token : Token} (ht : token.beginsPart = false) : Spares (token? token) := by
  intro s
  by_cases hhead : s.tokens.head? = some token
  · refine ⟨[token], ?_, by simpa using ht⟩
    rw [run_token?_of_eq hhead]
    exact State.tokens_advance hhead
  · exact sparesAt_of_tokens_eq (by rw [run_token?_of_ne hhead])

theorem spares_token {token : Token} (ht : token.beginsPart = false) : Spares (Reader.token token) := by
  refine fun s => (spares_token? ht s).bind fun found t => ?_
  cases found
  · exact spares_expected _ t
  · exact spares_pure _ t

theorem spares_mark? (p : Punctuation) : Spares (mark? p) := spares_token? rfl

theorem spares_mark (p : Punctuation) : Spares (mark p) := spares_token rfl

theorem spares_ident : Spares ident := by
  intro s
  apply sparesAt_peek
  split
  · exact sparesAt_here (sparesAt_advance ‹_› rfl (spares_pure _))
  · exact spares_expected _ s

theorem spares_atClose (close : Punctuation) : Spares (atClose close) :=
  fun _ => sparesAt_of_tokens_eq (by rw [run_atClose])

/-! ## Lists -/

section

variable {item : Reader α} (hitem : Spares item)
include hitem

theorem spares_moreUpTo (separator : Punctuation) (count : Nat) : Spares (moreUpTo separator item count) := by
  induction count with
  | zero => exact spares_pure []
  | succ count ih =>
      refine fun s => (spares_mark? separator s).bind fun found t => ?_
      split
      · exact (hitem t).bind fun a t => (ih t).bind fun rest t => spares_pure _ t
      · exact spares_pure _ t

theorem spares_separated (separator : Punctuation) : Spares (separated separator item) := fun s =>
  (hitem s).bind fun _ t => (spares_bounded (spares_moreUpTo hitem separator) t).bind fun _ t => spares_pure _ t

theorem spares_itemsUpTo (close : Punctuation) (count : Nat) : Spares (itemsUpTo close item count) := by
  induction count with
  | zero => exact spares_pure []
  | succ count ih =>
      refine fun s => (spares_atClose close s).bind fun atEnd t => ?_
      split
      · exact spares_pure _ t
      · refine (hitem t).bind fun a t => (spares_mark? .comma t).bind fun found t => ?_
        split
        · exact (ih t).bind fun rest t => spares_pure _ t
        · exact spares_pure _ t

theorem spares_itemsUntil (close : Punctuation) : Spares (itemsUntil close item) := fun s =>
  (spares_bounded (spares_itemsUpTo hitem close) s).bind fun _ t =>
    (spares_mark close t).bind fun _ t => spares_pure _ t

end

/-! ## Types -/

theorem spares_generics : Spares generics := by
  refine fun s => (spares_mark? .leftBracket s).bind fun found t => ?_
  split
  · exact (spares_separated spares_ident .comma t).bind fun names t =>
      (spares_mark .rightBracket t).bind fun _ t => spares_pure _ t
  · exact spares_pure _ t

theorem sparesAt_atParameters {next : Bool → Reader β} (h : SparesAt s (next (opensParameters s.rest))) :
    SparesAt s (atParameters >>= next) := h.of_eq rfl

section

variable {nested : Reader TypeExpr} (hnested : Spares nested)
include hnested

theorem spares_parameterWith : Spares (parameterWith nested) := fun s =>
  (spares_ident s).bind fun _ t => (spares_mark .colon t).bind fun _ t => (hnested t).bind fun _ t =>
    (spares_spanFrom _ t).bind fun _ t => spares_pure _ t

theorem spares_parametersWith : Spares (parametersWith nested) := by
  refine fun s => (spares_mark .leftParen s).bind fun _ t => (spares_mark? .ellipsis t).bind fun found t => ?_
  split
  · exact (spares_parameterWith hnested t).bind fun p t =>
      (spares_mark .rightParen t).bind fun _ t => spares_pure _ t
  · exact (spares_itemsUntil (spares_parameterWith hnested) .rightParen t).bind fun ps t => spares_pure _ t

theorem spares_typeArgumentsWith : Spares (typeArgumentsWith nested) := fun s =>
  (spares_separated hnested .comma s).bind fun _ t => (spares_mark .rightBracket t).bind fun _ t => spares_pure _ t

theorem spares_functionTypeWith (start : Span) : Spares (functionTypeWith nested start) := fun s =>
  (spares_generics s).bind fun _ t => (spares_parametersWith hnested t).bind fun _ t =>
    (spares_mark .arrow t).bind fun _ t => (hnested t).bind fun _ t =>
      (spares_spanFrom _ t).bind fun _ t => spares_newType _ _ t

theorem spares_typeFieldWith : Spares (typeFieldWith nested) := fun s =>
  (spares_ident s).bind fun _ t => (spares_mark .colon t).bind fun _ t => (hnested t).bind fun _ t => spares_pure _ t

theorem spares_primaryTypeWith : Spares (primaryTypeWith nested) := by
  intro s
  apply sparesAt_here
  apply sparesAt_peek
  split
  · refine sparesAt_advance ‹_› rfl fun t => (spares_mark? .leftBracket t).bind fun found t => ?_
    split
    · exact (spares_typeArgumentsWith hnested t).bind fun types t =>
        (spares_spanFrom _ t).bind fun _ t => spares_newType _ _ t
    · exact (spares_pure _ t).bind fun types t => (spares_spanFrom _ t).bind fun _ t => spares_newType _ _ t
  · refine sparesAt_advance ‹_› rfl fun t => ?_
    exact (spares_itemsUntil (spares_typeFieldWith hnested) .rightBrace t).bind fun fields t =>
      (spares_spanFrom _ t).bind fun _ t => spares_newType _ _ t
  · exact spares_functionTypeWith hnested _ s
  · apply sparesAt_atParameters
    split
    · exact spares_functionTypeWith hnested _ s
    · refine sparesAt_advance ‹_› rfl fun t => ?_
      exact (hnested t).bind fun type t => (spares_mark .rightParen t).bind fun _ t => spares_pure _ t
  · exact spares_expected _ s

end

theorem spares_nullableUpTo (count : Nat) (type : TypeExpr) : Spares (nullableUpTo count type) := by
  induction count generalizing type with
  | zero => exact spares_pure type
  | succ count ih =>
      refine fun s => (spares_mark? .question s).bind fun found t => ?_
      split
      · exact (spares_spanFrom _ t).bind fun _ t => (spares_newType _ _ t).bind fun wider t => ih wider t
      · exact spares_pure type t

theorem spares_typeWith {nested : Reader TypeExpr} (hnested : Spares nested) : Spares (typeWith nested) := fun s =>
  (spares_primaryTypeWith hnested s).bind fun type t => spares_bounded (spares_nullableUpTo · type) t

theorem spares_typeUpTo (depth : Nat) : Spares (typeUpTo depth) := by
  induction depth with
  | zero => exact spares_expected _
  | succ depth ih => exact spares_typeWith ih

theorem spares_type : Spares type := spares_bounded spares_typeUpTo

theorem spares_parameters : Spares parameters := spares_parametersWith spares_type

theorem spares_annotation? : Spares annotation? := by
  refine fun s => (spares_mark? .colon s).bind fun found t => ?_
  split
  · exact (spares_type t).bind fun type t => spares_pure _ t
  · exact spares_pure _ t

/-! ## Expressions -/

/-- An operator that reads no token at which a part of a body begins is taken like any other token. -/
theorem sparesAt_operator? {γ : Type} {read : Token → Option γ} {next : Option γ → Reader β}
    (hread : ∀ {t op}, read t = some op → t.beginsPart = false) (hnone : SparesAt s (next none))
    (hsome : ∀ t op, s.tokens.head? = some t → t.beginsPart = false → SparesAt s (next (some op))) :
    SparesAt s (operator? read >>= next) := by
  have hrun : SparesAt s (next (s.tokens.head?.bind read)) := by
    cases hop : s.tokens.head?.bind read with
    | none => exact hnone
    | some op =>
        obtain ⟨t, ht, hop⟩ := Option.bind_eq_some_iff.mp hop
        exact hsome t op ht (hread hop)
  rw [State.tokens, List.head?_map] at hrun
  exact hrun.of_eq rfl

section

variable {op? : Token → Option BinaryOp} {operand : Reader Expr}
  (hop : ∀ {t o}, op? t = some o → t.beginsPart = false) (hoperand : Spares operand)
include hop hoperand

theorem spares_chainUpTo (count : Nat) (lhs : Expr) : Spares (chainUpTo op? operand count lhs) := by
  induction count generalizing lhs with
  | zero => exact spares_pure lhs
  | succ count ih =>
      refine fun s => sparesAt_operator? hop (spares_pure lhs s) fun t o hhead ht => ?_
      refine sparesAt_advance hhead ht fun t => (hoperand t).bind fun rhs t => ?_
      exact (spares_newExpr _ _ t).bind fun grouped t => ih grouped t

theorem spares_chain : Spares (chain op? operand) := fun s =>
  (hoperand s).bind fun lhs t => spares_bounded (spares_chainUpTo hop hoperand · lhs) t

end

theorem beginsPart_of_tagOp? {t : Token} {make : Site → Expr → String → Expr} (h : tagOp? t = some make) :
    t.beginsPart = false := by
  unfold tagOp? at h
  split at h <;> cases h <;> rfl

theorem beginsPart_of_leadingOp? {t : Token} {make : Site → Expr → Expr} (h : leadingOp? t = some make) :
    t.beginsPart = false := by
  unfold leadingOp? at h
  split at h <;> cases h <;> rfl

theorem beginsPart_of_literal? {t : Token} {make : Site → Expr} (h : literal? t = some make) :
    t.beginsPart = false := by
  unfold literal? at h
  split at h <;> cases h <;> rfl

theorem spares_tagsUpTo (count : Nat) (value : Expr) : Spares (tagsUpTo count value) := by
  induction count generalizing value with
  | zero => exact spares_pure value
  | succ count ih =>
      refine fun s => sparesAt_operator? beginsPart_of_tagOp? (spares_pure value s) fun t make hhead ht => ?_
      refine sparesAt_advance hhead ht fun t => (spares_ident t).bind fun tag t => ?_
      exact (spares_newExpr _ _ t).bind fun e t => ih e t

section

variable {nested : Reader Expr} (hnested : Spares nested)
include hnested

theorem spares_fieldInitWith : Spares (fieldInitWith nested) := fun s =>
  (spares_ident s).bind fun _ t => (spares_mark .colon t).bind fun _ t => (hnested t).bind fun _ t =>
    (spares_spanFrom _ t).bind fun _ t => spares_pure _ t

theorem spares_matchArmWith : Spares (matchArmWith nested) := fun s =>
  (spares_ident s).bind fun _ t => (spares_ident t).bind fun _ t => (spares_mark .fatArrow t).bind fun _ t =>
    (hnested t).bind fun _ t => (spares_spanFrom _ t).bind fun _ t => spares_pure _ t

theorem spares_conditionalWith (start : Span) : Spares (conditionalWith nested start) := fun s =>
  (hnested s).bind fun _ t => (spares_token rfl t).bind fun _ t => (hnested t).bind fun _ t =>
    (spares_token rfl t).bind fun _ t => (hnested t).bind fun _ t =>
      (spares_spanFrom _ t).bind fun _ t => spares_newExpr _ _ t

theorem spares_lambdaWith (start : Span) : Spares (lambdaWith nested start) := fun s =>
  (spares_generics s).bind fun _ t => (spares_parameters t).bind fun _ t => (spares_annotation? t).bind fun _ t =>
    (spares_mark .fatArrow t).bind fun _ t => (hnested t).bind fun _ t =>
      (spares_spanFrom _ t).bind fun _ t => spares_newExpr _ _ t

theorem spares_casesWith (start : Span) : Spares (casesWith nested start) := fun s =>
  (hnested s).bind fun _ t => (spares_mark .leftBrace t).bind fun _ t =>
    (spares_itemsUntil (spares_matchArmWith hnested) .rightBrace t).bind fun _ t =>
      (spares_spanFrom _ t).bind fun _ t => spares_newExpr _ _ t

theorem spares_primaryWith : Spares (primaryWith nested) := by
  intro s
  apply sparesAt_here
  apply sparesAt_peek
  split
  · refine sparesAt_advance ‹_› rfl fun t => (hnested t).bind fun e t => ?_
    exact (spares_mark .rightParen t).bind fun _ t => spares_pure e t
  · refine sparesAt_advance ‹_› rfl fun t => ?_
    exact (spares_itemsUntil (spares_fieldInitWith hnested) .rightBrace t).bind fun fields t =>
      (spares_spanFrom _ t).bind fun _ t => spares_newExpr _ _ t
  · exact sparesAt_advance ‹_› rfl (spares_conditionalWith hnested _)
  · exact sparesAt_advance ‹_› rfl (spares_lambdaWith hnested _)
  · exact sparesAt_advance ‹_› rfl (spares_casesWith hnested _)
  · split
    · rename_i make hmake
      obtain ⟨t, hhead, hmake⟩ := Option.bind_eq_some_iff.mp hmake
      refine sparesAt_advance hhead (beginsPart_of_literal? hmake) fun t => ?_
      exact (spares_spanFrom _ t).bind fun _ t => spares_newExpr _ _ t
    · exact spares_expected _ s

theorem spares_accessUpTo (count : Nat) (e : Expr) : Spares (accessUpTo nested count e) := by
  induction count generalizing e with
  | zero => exact spares_pure e
  | succ count ih =>
      intro s
      apply sparesAt_peek
      split
      · refine sparesAt_advance ‹_› rfl fun t => (spares_ident t).bind fun name t => ?_
        exact (spares_spanFrom _ t).bind fun _ t => (spares_newExpr _ _ t).bind fun e t => ih e t
      · refine sparesAt_advance ‹_› rfl fun t => ?_
        refine (spares_itemsUntil hnested .rightParen t).bind fun arguments t => ?_
        exact (spares_spanFrom _ t).bind fun _ t => (spares_newExpr _ _ t).bind fun e t => ih e t
      · refine sparesAt_advance ‹_› rfl fun t => (spares_typeArgumentsWith spares_type t).bind fun types t => ?_
        refine (spares_mark .leftParen t).bind fun _ t => ?_
        refine (spares_itemsUntil hnested .rightParen t).bind fun arguments t => ?_
        exact (spares_spanFrom _ t).bind fun _ t => (spares_newExpr _ _ t).bind fun e t => ih e t
      · exact spares_pure e s

theorem spares_accessWith : Spares (accessWith nested) := fun s =>
  (spares_primaryWith hnested s).bind fun e t => spares_bounded (spares_accessUpTo hnested · e) t

theorem spares_unaryUpTo (count : Nat) : Spares (unaryUpTo nested count) := by
  induction count with
  | zero => exact spares_accessWith hnested
  | succ count ih =>
      intro s
      apply sparesAt_here
      refine sparesAt_operator? beginsPart_of_leadingOp? (spares_accessWith hnested s) fun t make hhead ht => ?_
      refine sparesAt_advance hhead ht fun t => (ih t).bind fun operand t => ?_
      exact (spares_spanFrom _ t).bind fun _ t => spares_newExpr _ _ t

theorem spares_sumWith : Spares (sumWith nested) := by
  refine spares_chain (fun h => ?_) (spares_chain (fun h => ?_) (spares_bounded (spares_unaryUpTo hnested)))
  · cases sumOp?_eq_some_iff.mp h <;> rfl
  · cases productOp?_eq_some_iff.mp h <;> rfl

theorem spares_tagsWith : Spares (tagsWith nested) := fun s =>
  (spares_sumWith hnested s).bind fun value t => spares_bounded (spares_tagsUpTo · value) t

theorem spares_comparisonWith : Spares (comparisonWith nested) := by
  refine fun s => (spares_tagsWith hnested s).bind fun lhs t => ?_
  refine sparesAt_operator? (fun h => ?_) (spares_pure lhs t) fun u op hhead hu => ?_
  · cases comparisonOp?_eq_some_iff.mp h <;> rfl
  · refine sparesAt_advance hhead hu fun t => ?_
    exact (spares_tagsWith hnested t).bind fun rhs t => spares_newExpr _ _ t

theorem spares_exprWith : Spares (exprWith nested) := by
  refine spares_chain (fun h => ?_) (spares_chain (fun h => ?_) (spares_comparisonWith hnested))
  · cases orOp?_eq_some_iff.mp h
    rfl
  · cases andOp?_eq_some_iff.mp h
    rfl

end

theorem spares_exprUpTo (depth : Nat) : Spares (exprUpTo depth) := by
  induction depth with
  | zero => exact spares_expected _
  | succ depth ih => exact spares_exprWith ih

/-- Reading an expression, to its end or to an error, does not go on into the next part of a body. -/
theorem spares_expr : Spares expr := spares_bounded spares_exprUpTo

end Reader

end Sable
