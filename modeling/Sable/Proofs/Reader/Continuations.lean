import Sable.Proofs.Reader.Grammar

/-! What may follow a phrase.

The grammar is ambiguous where an expression ends in another one: in `if a then b else c + d` the sum is
either all of it or its last part. What matters for reading from left to right is that the tokens behind an
expression may always be taken into it: they are then still followed by what may follow. -/
namespace Sable.Grammar

/-! ## Repeated pieces -/

/-- Any number of pieces, and then tokens that may stand behind them. -/
inductive Tail (piece behind : List Token → Prop) : List Token → Prop
  | done {xs : List Token} (h : behind xs) : Tail piece behind xs
  | more {xs ys : List Token} (hxs : piece xs) (h : Tail piece behind ys) : Tail piece behind (xs ++ ys)

/-- Tokens that may stand behind, and at most one piece in front of them. -/
def AtMostOne (piece behind : List Token → Prop) (xs : List Token) : Prop :=
  behind xs ∨ ∃ ys zs, xs = ys ++ zs ∧ piece ys ∧ behind zs

/-- An operator with its right operand. -/
def Joined (op : Token → BinaryOp → Prop) (operand : Phrase Expr) (xs : List Token) : Prop :=
  ∃ t o ys e, xs = t :: ys ∧ op t o ∧ operand ys e

/-- A field name or a list of arguments. -/
inductive AccessPiece : List Token → Prop
  | field {name : String} : AccessPiece [.mark .dot, .ident name]
  | call {xs : List Token} {arguments : List Expr} (h : Arguments ExprPhrase xs arguments) : AccessPiece xs
  | instantiate {xs ys : List Token} {types : List TypeExpr} {arguments : List Expr}
      (htypes : TypeArguments TypePhrase xs types) (h : Arguments ExprPhrase ys arguments) :
      AccessPiece (xs ++ ys)

/-- A tag or a test for a tag. -/
inductive TagPiece : List Token → Prop
  | tagged {tag : String} : TagPiece [.mark .hash, .ident tag]
  | hasTag {tag : String} : TagPiece [.keyword .isWord, .ident tag]

/-- Tokens behind an item: more items after a separator, or what stands behind them all. -/
def ItemsBehind {α : Type} (separator : Punctuation) (item : Phrase α) (ys zs : List Token) : Prop :=
  zs = ys ∨ ∃ xs as, zs = .mark separator :: (xs ++ ys) ∧ Separated item separator xs as

theorem Separated.split {α : Type} {separator : Punctuation} {item : Phrase α} {xs : List Token}
    {as : List α} (h : Separated item separator xs as) (ys : List Token) :
    ∃ first rest a, xs ++ ys = first ++ rest ∧ item first a ∧ ItemsBehind separator item ys rest := by
  cases h with
  | last ha => exact ⟨_, ys, _, rfl, ha, .inl rfl⟩
  | more ha hrest => exact ⟨_, _, _, by simp, ha, .inr ⟨_, _, rfl, hrest⟩⟩

section

variable {behind : List Token → Prop} {xs ys : List Token} {e : Expr}

/-- The first operand, and the operators behind it. -/
theorem Chain.split {op : Token → BinaryOp → Prop} {operand : Phrase Expr} (h : Chain op operand xs e)
    (hys : Tail (Joined op operand) behind ys) : ∃ first rest a, xs ++ ys = first ++ rest ∧
      operand first a ∧ Tail (Joined op operand) behind rest := by
  induction h generalizing ys with
  | operand h => exact ⟨_, ys, _, rfl, h, hys⟩
  | more _ hop hrhs ih =>
      obtain ⟨first, rest, a, heq, hfirst, hrest⟩ := ih (.more ⟨_, _, _, _, rfl, hop, hrhs⟩ hys)
      exact ⟨first, rest, a, by simpa using heq, hfirst, hrest⟩

theorem Tags.split {operand : Phrase Expr} (h : Tags operand xs e) (hys : Tail TagPiece behind ys) :
    ∃ first rest a, xs ++ ys = first ++ rest ∧ operand first a ∧ Tail TagPiece behind rest := by
  induction h generalizing ys with
  | operand h => exact ⟨_, ys, _, rfl, h, hys⟩
  | tagged _ ih =>
      obtain ⟨first, rest, a, heq, hfirst, hrest⟩ := ih (.more .tagged hys)
      exact ⟨first, rest, a, by simpa using heq, hfirst, hrest⟩
  | hasTag _ ih =>
      obtain ⟨first, rest, a, heq, hfirst, hrest⟩ := ih (.more .hasTag hys)
      exact ⟨first, rest, a, by simpa using heq, hfirst, hrest⟩

theorem Access.split (h : Access ExprPhrase xs e) (hys : Tail AccessPiece behind ys) :
    ∃ first rest a, xs ++ ys = first ++ rest ∧ Primary ExprPhrase first a ∧ Tail AccessPiece behind rest := by
  induction h generalizing ys with
  | primary h => exact ⟨_, ys, _, rfl, h, hys⟩
  | field _ ih =>
      obtain ⟨first, rest, a, heq, hfirst, hrest⟩ := ih (.more .field hys)
      exact ⟨first, rest, a, by simpa using heq, hfirst, hrest⟩
  | call _ harguments ih =>
      obtain ⟨first, rest, a, heq, hfirst, hrest⟩ := ih (.more (.call harguments) hys)
      exact ⟨first, rest, a, by simpa using heq, hfirst, hrest⟩
  | instantiate _ htypes harguments ih =>
      obtain ⟨first, rest, a, heq, hfirst, hrest⟩ := ih (.more (.instantiate htypes harguments) hys)
      exact ⟨first, rest, a, by simpa using heq, hfirst, hrest⟩

end

/-! ## First tokens -/

/-- A list of tokens whose first one is of a kind. -/
def StartsWith (kind : Token → Prop) (xs : List Token) : Prop := ∃ t ys, xs = t :: ys ∧ kind t

theorem StartsWith.append {kind : Token → Prop} {xs : List Token} (h : StartsWith kind xs)
    (ys : List Token) : StartsWith kind (xs ++ ys) := by
  obtain ⟨t, zs, rfl, ht⟩ := h
  exact ⟨t, zs ++ ys, rfl, ht⟩

theorem StartsWith.mono {kind kind' : Token → Prop} {xs : List Token} (h : StartsWith kind xs)
    (hkind : ∀ t, kind t → kind' t) : StartsWith kind' xs := by
  obtain ⟨t, zs, rfl, ht⟩ := h
  exact ⟨t, zs, rfl, hkind t ht⟩

theorem startsWith_cons {kind : Token → Prop} {t : Token} {xs : List Token} :
    StartsWith kind (t :: xs) ↔ kind t := by
  constructor
  · rintro ⟨_, _, heq, ht⟩
    obtain ⟨rfl, -⟩ := List.cons.inj heq
    exact ht
  · exact fun ht => ⟨t, xs, rfl, ht⟩

theorem StartsWith.head?_ne {t : Token} {xs : List Token} (h : StartsWith (· ≠ t) xs) :
    xs.head? ≠ some t := by
  obtain ⟨u, ys, rfl, hu⟩ := h
  exact fun heq => hu (Option.some.inj heq)

/-- The first token of items, or of what stands behind none. -/
theorem Items.startsWith {α : Type} {item : Phrase α} {kind : Token → Prop} {xs ys : List Token}
    {as : List α} (hitem : ∀ {xs a}, item xs a → StartsWith kind xs) (h : Items item xs as)
    (hys : StartsWith kind ys) : StartsWith kind (xs ++ ys) := by
  cases h with
  | none => exact hys
  | last ha => exact (hitem ha).append ys
  | more ha _ => exact ((hitem ha).append _).append ys

theorem TypedName.startsWith {inner : Phrase TypeExpr} {xs : List Token} {p : Parameter TypeExpr}
    (h : TypedName inner xs p) (mark : Punctuation) : StartsWith (· ≠ .mark mark) xs := by
  cases h
  exact ⟨_, _, rfl, nofun⟩

theorem TypeEntry.startsWith {inner : Phrase TypeExpr} {xs : List Token} {field : String × TypeExpr}
    (h : TypeEntry inner xs field) (mark : Punctuation) : StartsWith (· ≠ .mark mark) xs := by
  cases h
  exact ⟨_, _, rfl, nofun⟩

theorem ValueEntry.startsWith {inner : Phrase Expr} {xs : List Token} {field : FieldInit Expr}
    (h : ValueEntry inner xs field) (mark : Punctuation) : StartsWith (· ≠ .mark mark) xs := by
  cases h
  exact ⟨_, _, rfl, nofun⟩

theorem ArmEntry.startsWith {inner : Phrase Expr} {xs : List Token} {arm : MatchArm Expr}
    (h : ArmEntry inner xs arm) (mark : Punctuation) : StartsWith (· ≠ .mark mark) xs := by
  cases h
  exact ⟨_, _, rfl, nofun⟩

/-- The tokens that primary expressions begin with. -/
def opensPrimary : Token → Bool
  | .number _ | .bigInteger _ | .ident _ => true
  | .keyword .trueWord | .keyword .falseWord | .keyword .nullWord => true
  | .mark .leftParen | .mark .leftBrace => true
  | .keyword .ifWord | .keyword .fnWord | .keyword .matchWord => true
  | _ => false

/-- The tokens that expressions begin with. -/
def opensExpr : Token → Bool
  | .keyword .notWord | .mark .minus | .keyword .untagWord => true
  | t => opensPrimary t

section

variable {nested : Phrase Expr} {xs : List Token} {e : Expr}

theorem Primary.startsWith (h : Primary nested xs e) : StartsWith (opensPrimary · = true) xs := by
  cases h <;> exact ⟨_, _, rfl, rfl⟩

theorem Access.startsWith (h : Access nested xs e) : StartsWith (opensPrimary · = true) xs := by
  induction h with
  | primary h => exact h.startsWith
  | field _ ih => exact ih.append _
  | call _ _ ih => exact ih.append _
  | instantiate _ _ _ ih => exact ih.append _

theorem opensExpr_of_opensPrimary {t : Token} (h : opensPrimary t = true) : opensExpr t = true := by
  unfold opensExpr
  split <;> first | rfl | exact h

theorem Unary.startsWith (h : Unary (Access nested) xs e) : StartsWith (opensExpr · = true) xs := by
  cases h with
  | operand h => exact h.startsWith.mono fun _ => opensExpr_of_opensPrimary
  | not | negate | untag => exact ⟨_, _, rfl, rfl⟩

variable {operand : Phrase Expr} (hoperand : ∀ {xs e}, operand xs e → StartsWith (opensExpr · = true) xs)
include hoperand

theorem Chain.startsWith {op : Token → BinaryOp → Prop} (h : Chain op operand xs e) :
    StartsWith (opensExpr · = true) xs := by
  induction h with
  | operand h => exact hoperand h
  | more _ _ _ ih => exact ih.append _

theorem Tags.startsWith (h : Tags operand xs e) : StartsWith (opensExpr · = true) xs := by
  induction h with
  | operand h => exact hoperand h
  | tagged _ ih => exact ih.append _
  | hasTag _ ih => exact ih.append _

theorem Comparison.startsWith (h : Comparison operand xs e) : StartsWith (opensExpr · = true) xs := by
  cases h with
  | operand h => exact hoperand h
  | compare h => exact (hoperand h).append _

end

theorem ExprPhrase.startsWith {xs : List Token} {e : Expr} (h : ExprPhrase xs e) :
    StartsWith (opensExpr · = true) xs := by
  obtain ⟨h⟩ := h
  have hsum : ∀ {xs e}, Sum ExprPhrase xs e → StartsWith (opensExpr · = true) xs :=
    fun h => Chain.startsWith (Chain.startsWith Unary.startsWith) h
  exact Chain.startsWith (Chain.startsWith (Comparison.startsWith (Tags.startsWith hsum))) h

/-! ## Continuations of expressions -/

/-- The ways in which an expression can go on. -/
inductive Extension where
  | access | product | sum | tag | comparison | conjunction | disjunction
deriving DecidableEq, Repr

/-- How an expression goes on that is followed by the token. -/
def extension? : Token → Option Extension
  | .mark .dot | .mark .leftParen | .mark .leftBracket => some .access
  | .mark .star | .mark .slash | .mark .doubleSlash | .mark .percent => some .product
  | .mark .plus | .mark .minus => some .sum
  | .mark .hash | .keyword .isWord => some .tag
  | .mark .less | .mark .greater | .mark .equals => some .comparison
  | .keyword .andWord => some .conjunction
  | .keyword .orWord => some .disjunction
  | _ => none

/-- The pieces by which an expression goes on. -/
def Piece : Extension → List Token → Prop
  | .access => AccessPiece
  | .product => Joined ProductOp (Unary (Access ExprPhrase))
  | .sum => Joined SumOp (Product ExprPhrase)
  | .tag => TagPiece
  | .comparison => Joined ComparisonSign (Tags (Sum ExprPhrase))
  | .conjunction => Joined AndOp (Comparison (Tags (Sum ExprPhrase)))
  | .disjunction => Joined OrOp (Conjunction ExprPhrase)

section

variable {t : Token}

theorem extension?_product_iff : extension? t = some .product ↔ ∃ o, ProductOp t o := by
  constructor
  · intro h
    unfold extension? at h
    split at h <;> cases h <;> exact ⟨_, by constructor⟩
  · rintro ⟨o, ⟨⟩⟩ <;> rfl

theorem extension?_sum_iff : extension? t = some .sum ↔ ∃ o, SumOp t o := by
  constructor
  · intro h
    unfold extension? at h
    split at h <;> cases h <;> exact ⟨_, by constructor⟩
  · rintro ⟨o, ⟨⟩⟩ <;> rfl

theorem extension?_comparison_iff : extension? t = some .comparison ↔ ∃ o, ComparisonSign t o := by
  constructor
  · intro h
    unfold extension? at h
    split at h <;> cases h <;> exact ⟨_, by constructor⟩
  · rintro ⟨o, ⟨⟩⟩ <;> rfl

theorem extension?_conjunction_iff : extension? t = some .conjunction ↔ ∃ o, AndOp t o := by
  constructor
  · intro h
    unfold extension? at h
    split at h <;> cases h
    exact ⟨_, .and⟩
  · rintro ⟨o, ⟨⟩⟩
    rfl

theorem extension?_disjunction_iff : extension? t = some .disjunction ↔ ∃ o, OrOp t o := by
  constructor
  · intro h
    unfold extension? at h
    split at h <;> cases h
    exact ⟨_, .or⟩
  · rintro ⟨o, ⟨⟩⟩
    rfl

end

theorem Joined.startsWith {op : Token → BinaryOp → Prop} {operand : Phrase Expr} {x : Extension}
    {xs : List Token} (hop : ∀ {t}, extension? t = some x ↔ ∃ o, op t o) (h : Joined op operand xs) :
    StartsWith (extension? · = some x) xs := by
  obtain ⟨t, o, ys, e, rfl, ht, -⟩ := h
  exact ⟨t, ys, rfl, hop.mpr ⟨o, ht⟩⟩

theorem Piece.startsWith {x : Extension} {xs : List Token} (h : Piece x xs) :
    StartsWith (extension? · = some x) xs := by
  cases x with
  | access =>
      cases h with
      | field => exact ⟨_, _, rfl, rfl⟩
      | call h =>
          cases h
          exact ⟨_, _, rfl, rfl⟩
      | instantiate h =>
          cases h
          exact ⟨_, _, rfl, rfl⟩
  | tag => cases h <;> exact ⟨_, _, rfl, rfl⟩
  | product => exact Joined.startsWith extension?_product_iff h
  | sum => exact Joined.startsWith extension?_sum_iff h
  | comparison => exact Joined.startsWith extension?_comparison_iff h
  | conjunction => exact Joined.startsWith extension?_conjunction_iff h
  | disjunction => exact Joined.startsWith extension?_disjunction_iff h

/-- Where an expression can be followed by a token that it can go on with, it can go on. -/
def Open (behind : List Token → Prop) : Prop :=
  ∀ x t xs, extension? t = some x → behind (t :: xs) →
    ∃ ys zs, t :: xs = ys ++ zs ∧ Piece x ys ∧ behind zs

section

variable {behind : List Token → Prop} {x : Extension}

/-- An expression does not go on with anything else than what it is followed by. -/
theorem Piece.extension_eq {y : Extension} {t : Token} {xs ys zs : List Token} (h : Piece x xs)
    (heq : xs ++ ys = t :: zs) (ht : extension? t = some y) : x = y := by
  have hstarts := h.startsWith.append ys
  rw [heq, startsWith_cons, ht] at hstarts
  exact (Option.some.inj hstarts).symm

theorem Open.tail (h : Open behind) (x : Extension) : Open (Tail (Piece x) behind) := by
  intro y t xs ht htail
  generalize hxs : t :: xs = all at htail
  cases htail with
  | done hbehind =>
      subst hxs
      obtain ⟨ys, zs, heq, hys, hzs⟩ := h y t xs ht hbehind
      exact ⟨ys, zs, heq, hys, .done hzs⟩
  | more hys hzs =>
      obtain rfl := hys.extension_eq hxs.symm ht
      exact ⟨_, _, rfl, hys, hzs⟩

/-- At most one piece, and the first token of the tokens with it. -/
theorem Open.split_atMostOne (h : Open behind) {y : Extension} {t : Token} {xs : List Token}
    (hone : AtMostOne (Piece x) behind (t :: xs)) (ht : extension? t = some y) :
    ∃ ys zs, t :: xs = ys ++ zs ∧ Piece y ys ∧ behind zs := by
  rcases hone with hbehind | ⟨ys, zs, heq, hys, hzs⟩
  · exact h y t xs ht hbehind
  · obtain rfl := hys.extension_eq heq.symm ht
    exact ⟨ys, zs, heq, hys, hzs⟩

theorem Open.atMostOne (h : Open behind) (x : Extension) : Open (AtMostOne (Piece x) behind) := by
  intro y t xs ht hone
  obtain ⟨ys, zs, heq, hys, hzs⟩ := h.split_atMostOne hone ht
  exact ⟨ys, zs, heq, hys, .inl hzs⟩

/-- Where nothing follows that an expression can go on with. -/
theorem open_eq {xs : List Token} (h : ∀ t ∈ xs.head?, extension? t = none) : Open (· = xs) := by
  rintro x t ys ht rfl
  rw [h t rfl] at ht
  cases ht

theorem open_of_head {t : Token} {xs : List Token} (h : xs.head? = some t) (ht : extension? t = none) :
    Open (· = xs) := by
  apply open_eq
  rintro u hu
  rw [h] at hu
  exact Option.some.inj hu ▸ ht

theorem behind_of_tail {xs : List Token} (h : Tail (Piece x) behind xs)
    (hhead : ∀ t ∈ xs.head?, extension? t ≠ some x) : behind xs := by
  cases h with
  | done h => exact h
  | more hys _ =>
      obtain ⟨t, ys, rfl, ht⟩ := hys.startsWith
      exact absurd ht (hhead t rfl)

theorem behind_of_atMostOne {xs : List Token} (h : AtMostOne (Piece x) behind xs)
    (hhead : ∀ t ∈ xs.head?, extension? t ≠ some x) : behind xs := by
  rcases h with h | ⟨ys, zs, rfl, hys, -⟩
  · exact h
  · obtain ⟨t, ys, rfl, ht⟩ := hys.startsWith
    exact absurd ht (hhead t rfl)

end

/-! ## Continuations of types -/

/-- Question marks behind a type may be taken into it, and no bracket stands there. -/
structure TypeOpen (behind : List Token → Prop) : Prop where
  question : ∀ xs, behind (.mark .question :: xs) → behind xs
  bracket : ∀ xs, ¬ behind (.mark .leftBracket :: xs)

theorem typeOpen_eq {xs : List Token} (hquestion : xs.head? ≠ some (.mark .question))
    (hbracket : xs.head? ≠ some (.mark .leftBracket)) : TypeOpen (· = xs) := by
  constructor
  · rintro ys rfl
    exact absurd rfl hquestion
  · rintro ys rfl
    exact absurd rfl hbracket

theorem typeOpen_of_head {p : Punctuation} {xs : List Token} (h : xs.head? = some (.mark p))
    (hquestion : p ≠ .question) (hbracket : p ≠ .leftBracket) : TypeOpen (· = xs) :=
  typeOpen_eq (by simpa [h] using hquestion) (by simpa [h] using hbracket)

/-- Whether the tokens behind an opening parenthesis begin parameters, and not a type in parentheses. -/
def opensGroup : List Token → Bool
  | .mark .rightParen :: _ | .mark .ellipsis :: _ | .ident _ :: .mark .colon :: _ => true
  | _ => false

theorem ParameterGroup.opensGroup {nested : Phrase TypeExpr} {xs : List Token}
    {ps : ParameterList (Parameter TypeExpr)} (h : ParameterGroup nested xs ps) (ys : List Token) :
    ∃ zs, xs ++ ys = .mark .leftParen :: zs ∧ Grammar.opensGroup zs = true := by
  cases h with
  | variadic h => exact ⟨_, rfl, rfl⟩
  | fixed h =>
      cases h with
      | none => exact ⟨_, rfl, rfl⟩
      | last h =>
          cases h
          exact ⟨_, rfl, rfl⟩
      | more h _ =>
          cases h
          exact ⟨_, rfl, rfl⟩

theorem ParameterGroup.head?_ne_bracket {nested : Phrase TypeExpr} {xs : List Token}
    {ps : ParameterList (Parameter TypeExpr)} (h : ParameterGroup nested xs ps) (ys : List Token) :
    (xs ++ ys).head? ≠ some (.mark .leftBracket) := by
  obtain ⟨zs, heq, -⟩ := h.opensGroup ys
  rw [heq]
  nofun

/-- A type does not look like parameters, unless it is a name with a colon behind it. -/
theorem PrimaryType.opensGroup {nested : Phrase TypeExpr} {xs ys : List Token} {type : TypeExpr}
    (h : PrimaryType nested xs type) (hys : ys.head? ≠ some (.mark .colon)) :
    Grammar.opensGroup (xs ++ ys) = false := by
  cases h with
  | named =>
      unfold Grammar.opensGroup
      split
      all_goals simp_all
  | applied h =>
      cases h
      rfl
  | object h => rfl
  | function hnames hps _ =>
      cases hnames with
      | none =>
          cases hps <;> rfl
      | some h => rfl
  | parens h => rfl

theorem NullableType.opensGroup {nested : Phrase TypeExpr} {xs ys : List Token} {type : TypeExpr}
    (h : NullableType nested xs type) (hys : ys.head? ≠ some (.mark .colon)) :
    Grammar.opensGroup (xs ++ ys) = false := by
  induction h generalizing ys with
  | primary h => exact h.opensGroup hys
  | nullable _ ih =>
      rw [List.append_assoc]
      exact ih (by simp)

theorem NullableType.ne_nil {nested : Phrase TypeExpr} {xs : List Token} {type : TypeExpr}
    (h : NullableType nested xs type) : xs ≠ [] := by
  induction h with
  | primary h => cases h <;> simp
  | nullable _ _ => simp

theorem NullableType.split {nested : Phrase TypeExpr} {behind : List Token → Prop} {xs ys : List Token}
    {type : TypeExpr} (h : NullableType nested xs type)
    (hys : Tail (· = [.mark .question]) behind ys) : ∃ first rest a, xs ++ ys = first ++ rest ∧
      PrimaryType nested first a ∧ Tail (· = [.mark .question]) behind rest := by
  induction h generalizing ys with
  | primary h => exact ⟨_, ys, _, rfl, h, hys⟩
  | nullable _ ih =>
      obtain ⟨first, rest, a, heq, hfirst, hrest⟩ := ih (.more rfl hys)
      exact ⟨first, rest, a, by simpa using heq, hfirst, hrest⟩

theorem TypeOpen.tail {behind : List Token → Prop} (h : TypeOpen behind) :
    TypeOpen (Tail (· = [.mark .question]) behind) := by
  constructor
  · intro xs htail
    generalize hxs : Token.mark .question :: xs = all at htail
    cases htail with
    | done hbehind => exact .done (h.question xs (hxs ▸ hbehind))
    | more hys hzs =>
        subst hys
        obtain ⟨-, rfl⟩ := List.cons.inj hxs
        exact hzs
  · intro xs htail
    generalize hxs : Token.mark .leftBracket :: xs = all at htail
    cases htail with
    | done hbehind => exact h.bracket xs (hxs ▸ hbehind)
    | more hys hzs =>
        subst hys
        cases hxs

theorem behind_of_question {behind : List Token → Prop} {xs : List Token}
    (h : Tail (· = [.mark .question]) behind xs) (hhead : xs.head? ≠ some (.mark .question)) :
    behind xs := by
  cases h with
  | done h => exact h
  | more hys _ =>
      subst hys
      exact absurd rfl hhead

/-- A type may stand before what a function does. -/
theorem FunctionBlock.behind {nested : Phrase Body} {xs : List Token} {body : Body}
    (h : FunctionBlock nested xs body) (ys : List Token) :
    TypeOpen (· = xs ++ ys) ∧ (xs ++ ys).head? ≠ some (.mark .colon) := by
  cases h with
  | expression h => exact ⟨typeOpen_of_head rfl nofun nofun, nofun⟩
  | block h => exact ⟨typeOpen_of_head rfl nofun nofun, nofun⟩

theorem Declared.ne_nil {nested : Phrase Body} {xs : List Token} {d : Declaration}
    (h : Declared nested xs d) : xs ≠ [] := by
  cases h <;> simp

end Sable.Grammar
