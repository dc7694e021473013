import Sable.Proofs.Reader.Types
import Sable.Reader.Expr

/-! Reading expressions, as types are read. -/
namespace Sable.Reader

open Grammar

/-! ## Operators -/

theorem orOp?_eq_some_iff {t : Token} {op : BinaryOp} : orOp? t = some op ↔ OrOp t op := by
  constructor
  · intro h
    unfold orOp? at h
    split at h <;> cases h
    exact .or
  · rintro ⟨⟩
    rfl

theorem andOp?_eq_some_iff {t : Token} {op : BinaryOp} : andOp? t = some op ↔ AndOp t op := by
  constructor
  · intro h
    unfold andOp? at h
    split at h <;> cases h
    exact .and
  · rintro ⟨⟩
    rfl

theorem comparisonOp?_eq_some_iff {t : Token} {op : BinaryOp} :
    comparisonOp? t = some op ↔ ComparisonSign t op := by
  constructor
  · intro h
    unfold comparisonOp? at h
    split at h <;> cases h <;> constructor
  · rintro ⟨⟩ <;> rfl

theorem sumOp?_eq_some_iff {t : Token} {op : BinaryOp} : sumOp? t = some op ↔ SumOp t op := by
  constructor
  · intro h
    unfold sumOp? at h
    split at h <;> cases h <;> constructor
  · rintro ⟨⟩ <;> rfl

theorem productOp?_eq_some_iff {t : Token} {op : BinaryOp} : productOp? t = some op ↔ ProductOp t op := by
  constructor
  · intro h
    unfold productOp? at h
    split at h <;> cases h <;> constructor
  · rintro ⟨⟩ <;> rfl

/-! ## Soundness -/

section

variable {α β : Type} {s : State} {r : Reader α} {next : α → Reader β} {phrase : Phrase α}
  {whole : Phrase β}

/-! ## Operators -/

theorem readsAt_operator? {γ : Type} {read : Token → Option γ} {next : Option γ → Reader β}
    (hnone : ReadsAt s (next none) whole)
    (hsome : ∀ t op, s.tokens.head? = some t → read t = some op → ReadsAt s (next (some op)) whole) :
    ReadsAt s (operator? read >>= next) whole := by
  have hrun : ReadsAt s (next (s.tokens.head?.bind read)) whole := by
    cases hop : s.tokens.head?.bind read with
    | none => exact hnone
    | some op =>
        obtain ⟨t, ht, hop⟩ := Option.bind_eq_some_iff.mp hop
        exact hsome t op ht hop
  rw [State.tokens, List.head?_map] at hrun
  exact hrun.of_eq rfl

section

variable {op? : Token → Option BinaryOp} {op : Token → BinaryOp → Prop} {operand : Reader Expr}
  {inner : Phrase Expr} (hop : ∀ {t o}, op? t = some o ↔ op t o) (hoperand : Reads operand inner)
include hop hoperand

theorem reads_chainUpTo (count : Nat) (lhs : Expr) : Reads (chainUpTo op? operand count lhs)
    fun xs e => ∀ ys, Chain op inner ys lhs → Chain op inner (ys ++ xs) e := by
  have hsame : ∀ lhs ys, Chain op inner ys lhs → Chain op inner (ys ++ []) lhs :=
    fun lhs ys h => by simpa using h
  induction count generalizing lhs with
  | zero => exact fun _ => readsAt_pure (hsame lhs)
  | succ count ih =>
      intro s
      refine readsAt_operator? (readsAt_pure (hsame lhs)) fun t o ht ho => ?_
      apply readsAt_advance ht
      refine (hoperand _).bind fun rhs u => ?_
      apply readsAt_newExpr_bind
      intro site u
      refine (ih (.binary site o lhs rhs) u).mono fun zs e he xs hrhs ys hlhs => ?_
      simpa using he _ (.more hlhs (hop.mp ho) hrhs)

theorem reads_chain : Reads (chain op? operand) (Chain op inner) := by
  intro s
  refine (hoperand s).bind fun lhs t => readsAt_bounded ?_
  exact (reads_chainUpTo hop hoperand _ lhs t).mono fun ys e he xs h => he xs (.operand h)

end

theorem reads_tagsUpTo (inner : Phrase Expr) (count : Nat) (e : Expr) : Reads (tagsUpTo count e)
    fun xs e' => ∀ ys, Tags inner ys e → Tags inner (ys ++ xs) e' := by
  have hsame : ∀ e ys, Tags inner ys e → Tags inner (ys ++ []) e := fun e ys h => by simpa using h
  induction count generalizing e with
  | zero => exact fun _ => readsAt_pure (hsame e)
  | succ count ih =>
      intro s
      refine readsAt_operator? (readsAt_pure (hsame e)) fun t make ht hmake => ?_
      apply readsAt_advance ht
      apply readsAt_ident
      intro tag tagSpan u
      apply readsAt_newExpr_bind
      intro site u
      refine (ih (make site e tag) u).mono fun xs e' he ys h => ?_
      unfold tagOp? at hmake
      split at hmake <;> cases hmake
      · simpa using he _ (.tagged h)
      · simpa using he _ (.hasTag h)

section

variable {nested : Reader Expr} {inner : Phrase Expr} (hnested : Reads nested inner)
include hnested

theorem reads_fieldInitWith : Reads (fieldInitWith nested) (ValueEntry inner) := by
  intro s
  apply readsAt_ident
  intro name nameSpan t
  apply readsAt_mark
  intro t
  refine (hnested t).bind fun value t => readsAt_spanFrom (readsAt_pure ?_)
  intro xs h
  simpa using ValueEntry.mk h

theorem reads_matchArmWith : Reads (matchArmWith nested) (ArmEntry inner) := by
  intro s
  apply readsAt_ident
  intro tag tagSpan t
  apply readsAt_ident
  intro binding bindingSpan t
  apply readsAt_mark
  intro t
  refine (hnested t).bind fun body t => readsAt_spanFrom (readsAt_pure ?_)
  intro xs h
  simpa using ArmEntry.mk h

theorem reads_conditionalWith (start : Span) : Reads (conditionalWith nested start)
    fun xs e => Primary inner (.keyword .ifWord :: xs) e := by
  intro s
  refine (hnested s).bind fun c t => readsAt_keyword fun t => ?_
  refine (hnested t).bind fun yes t => readsAt_keyword fun t => ?_
  refine (hnested t).bind fun no t => readsAt_spanFrom (readsAt_newExpr fun site => ?_)
  intro zs hno ys hyes xs hc
  simpa using Primary.conditional hc hyes hno

theorem reads_lambdaWith (start : Span) : Reads (lambdaWith nested start)
    fun xs e => Primary inner (.keyword .fnWord :: xs) e := by
  intro s
  refine (reads_generics s).bind fun names t => (reads_parameters t).bind fun ps t => ?_
  refine (reads_annotation? t).bind fun result t => readsAt_mark fun t => ?_
  refine (hnested t).bind fun body t => readsAt_spanFrom (readsAt_newExpr fun site => ?_)
  intro ws hbody zs hresult ys hps xs hnames
  simpa using Primary.lambda hnames hps hresult hbody

theorem reads_casesWith (start : Span) : Reads (casesWith nested start)
    fun xs e => Primary inner (.keyword .matchWord :: xs) e := by
  intro s
  refine (hnested s).bind fun scrutinee t => readsAt_mark fun t => ?_
  refine (reads_itemsUntil (reads_matchArmWith hnested) .rightBrace t).bind fun arms t =>
    readsAt_spanFrom (readsAt_newExpr fun site => ?_)
  rintro _ ⟨ys, rfl, harms⟩ xs hscrutinee
  simpa using Primary.cases hscrutinee harms

omit hnested in
theorem primary_of_literal? {t : Token} {make : Site → Expr} (h : literal? t = some make) (site : Site) :
    Primary inner [t] (make site) := by
  unfold literal? at h
  split at h <;> cases h <;> constructor

theorem reads_primaryWith : Reads (primaryWith nested) (Primary inner) := by
  intro s
  apply readsAt_here
  apply readsAt_peek
  split
  · apply readsAt_advance ‹_›
    refine (hnested _).bind fun e t => readsAt_mark fun t => readsAt_pure ?_
    intro xs h
    simpa using Primary.parens h
  · apply readsAt_advance ‹_›
    refine (reads_itemsUntil (reads_fieldInitWith hnested) .rightBrace _).bind fun fields t =>
      readsAt_spanFrom (readsAt_newExpr fun site => ?_)
    rintro _ ⟨xs, rfl, h⟩
    simpa using Primary.object h
  · exact readsAt_advance ‹_› (reads_conditionalWith hnested _ _)
  · exact readsAt_advance ‹_› (reads_lambdaWith hnested _ _)
  · exact readsAt_advance ‹_› (reads_casesWith hnested _ _)
  · split
    · rename_i make hmake
      obtain ⟨t, ht, hmake⟩ := Option.bind_eq_some_iff.mp hmake
      apply readsAt_advance ht
      exact readsAt_spanFrom (readsAt_newExpr fun site => primary_of_literal? hmake site)
    · exact readsAt_expected

theorem reads_accessUpTo (count : Nat) (e : Expr) : Reads (accessUpTo nested count e)
    fun xs e' => ∀ ys, Access inner ys e → Access inner (ys ++ xs) e' := by
  have hsame : ∀ e ys, Access inner ys e → Access inner (ys ++ []) e := fun e ys h => by simpa using h
  induction count generalizing e with
  | zero => exact fun _ => readsAt_pure (hsame e)
  | succ count ih =>
      intro s
      apply readsAt_peek
      split
      · apply readsAt_advance ‹_›
        apply readsAt_ident
        intro name nameSpan t
        apply readsAt_spanFrom
        apply readsAt_newExpr_bind
        intro site t
        refine (ih (.field site e name) t).mono fun xs e' he ys h => ?_
        simpa using he _ (.field h)
      · apply readsAt_advance ‹_›
        refine (reads_itemsUntil hnested .rightParen _).bind fun arguments t => readsAt_spanFrom ?_
        apply readsAt_newExpr_bind
        intro site t
        refine (ih (.call site e [] arguments) t).mono ?_
        rintro xs e' he _ ⟨zs, rfl, harguments⟩ ys h
        simpa using he _ (.call h (.mk harguments))
      · apply readsAt_advance ‹_›
        refine (reads_typeArgumentsWith reads_type _).bind fun types t => readsAt_mark fun t => ?_
        refine (reads_itemsUntil hnested .rightParen t).bind fun arguments t => readsAt_spanFrom ?_
        apply readsAt_newExpr_bind
        intro site t
        refine (ih (.call site e types arguments) t).mono ?_
        rintro xs e' he _ ⟨zs, rfl, harguments⟩ ws htypes ys h
        simpa using he _ (.instantiate h htypes (.mk harguments))
      · exact readsAt_pure (hsame e)

theorem reads_accessWith : Reads (accessWith nested) (Access inner) := by
  intro s
  refine (reads_primaryWith hnested s).bind fun e t => readsAt_bounded ?_
  exact (reads_accessUpTo hnested _ e t).mono fun ys e' he xs h => he xs (.primary h)

theorem reads_unaryUpTo (count : Nat) : Reads (unaryUpTo nested count) (Unary (Access inner)) := by
  induction count with
  | zero => exact fun s => (reads_accessWith hnested s).mono fun _ _ => .operand
  | succ count ih =>
      intro s
      apply readsAt_here
      refine readsAt_operator? ((reads_accessWith hnested s).mono fun _ _ => .operand) fun t make ht hmake => ?_
      apply readsAt_advance ht
      refine (ih _).bind fun e u => readsAt_spanFrom (readsAt_newExpr fun site xs h => ?_)
      rw [List.append_nil]
      unfold leadingOp? at hmake
      split at hmake <;> cases hmake
      · exact .not h
      · exact .negate h
      · exact .untag h

theorem reads_unaryWith : Reads (unaryWith nested) (Unary (Access inner)) :=
  fun s => readsAt_bounded (reads_unaryUpTo hnested _ s)

theorem reads_productWith : Reads (productWith nested) (Product inner) :=
  reads_chain productOp?_eq_some_iff (reads_unaryWith hnested)

theorem reads_sumWith : Reads (sumWith nested) (Sum inner) :=
  reads_chain sumOp?_eq_some_iff (reads_productWith hnested)

theorem reads_tagsWith : Reads (tagsWith nested) (Tags (Sum inner)) := by
  intro s
  refine (reads_sumWith hnested s).bind fun e t => readsAt_bounded ?_
  exact (reads_tagsUpTo (Sum inner) _ e t).mono fun ys e' he xs h => he xs (.operand h)

theorem reads_comparisonWith : Reads (comparisonWith nested) (Comparison (Tags (Sum inner))) := by
  intro s
  refine (reads_tagsWith hnested s).bind fun lhs t => readsAt_operator? (readsAt_pure ?_) fun u op hu hop => ?_
  · intro xs h
    simpa using Comparison.operand h
  · apply readsAt_advance hu
    refine (reads_tagsWith hnested _).bind fun rhs v => readsAt_newExpr fun site ys hrhs xs hlhs => ?_
    simpa using Comparison.compare hlhs (comparisonOp?_eq_some_iff.mp hop) hrhs

theorem reads_conjunctionWith : Reads (conjunctionWith nested) (Conjunction inner) :=
  reads_chain andOp?_eq_some_iff (reads_comparisonWith hnested)

theorem reads_exprWith : Reads (exprWith nested) (Disjunction inner) :=
  reads_chain orOp?_eq_some_iff (reads_conjunctionWith hnested)

end

theorem reads_exprUpTo (depth : Nat) : Reads (exprUpTo depth) ExprPhrase := by
  induction depth with
  | zero => exact fun _ => readsAt_expected
  | succ depth ih => exact fun s => (reads_exprWith ih s).mono fun _ _ => .mk

theorem reads_expr : Reads expr ExprPhrase := fun s => readsAt_bounded (reads_exprUpTo _ s)

end

/-! ## Completeness -/

section

variable {α β : Type} {s : State} {left : List Token → Prop} {xs ys : List Token} {limit : Nat}

/-- The reader takes expressions with what may stand behind them. -/
def TakesExpr (limit : Nat) (nested : Reader Expr) (phrase : Phrase Expr) : Prop :=
  ∀ left, Open left → Takes limit nested phrase left

theorem givesAt_operator? {γ : Type} {read : Token → Option γ} {next : Option γ → Reader β}
    {after : List Token → Prop} (h : GivesAt s (next (s.tokens.head?.bind read)) after) :
    GivesAt s (operator? read >>= next) after := by
  rw [State.tokens, List.head?_map] at h
  exact h.of_eq rfl

section

variable {op? : Token → Option BinaryOp} {op : Token → BinaryOp → Prop} {operand : Reader Expr}
  {inner : Phrase Expr} {x : Extension} (hop : ∀ {t o}, op? t = some o ↔ op t o)
  (hpiece : Piece x = Joined op inner) (hextension : ∀ {t}, extension? t = some x ↔ ∃ o, op t o)
  (hoperand : TakesExpr limit operand inner)
include hop hpiece hextension hoperand

theorem givesAt_chainUpTo (hleft : Open left) {count : Nat} {lhs : Expr} (hcount : s.tokens.length ≤ count)
    (hlimit : s.tokens.length ≤ limit) (hs : Tail (Piece x) left s.tokens) :
    GivesAt s (chainUpTo op? operand count lhs) left := by
  induction count generalizing s lhs with
  | zero =>
      have hnil : s.tokens = [] := List.length_eq_zero_iff.mp (Nat.le_zero.mp hcount)
      exact givesAt_pure (behind_of_tail hs (by simp [hnil]))
  | succ count ih =>
      apply givesAt_operator?
      cases htokens : s.tokens with
      | nil => exact givesAt_pure (behind_of_tail hs (by simp [htokens]))
      | cons t rest =>
          cases hread : op? t with
          | none =>
              have hhead : ∀ t ∈ s.tokens.head?, extension? t ≠ some x := by
                rw [htokens]
                rintro _ ⟨⟩ ht
                obtain ⟨o, ho⟩ := hextension.mp ht
                rw [hop.mpr ho] at hread
                cases hread
              simp only [List.head?_cons, Option.bind_some, hread]
              exact givesAt_pure (behind_of_tail hs hhead)
          | some o =>
              simp only [List.head?_cons, Option.bind_some, hread]
              have hext := hextension.mpr ⟨o, hop.mp hread⟩
              obtain ⟨piece, behind, heq, hys, hbehind⟩ := hleft.tail x x t rest hext (htokens ▸ hs)
              rw [hpiece] at hys
              obtain ⟨_, _, words, e, rfl, -, he⟩ := hys
              obtain ⟨rfl, rfl⟩ := List.cons.inj heq
              apply givesAt_advance htokens
              intro u hu
              have hcount := length_tail_le_pred htokens hcount hu
              have hlimit := length_tail_le htokens hlimit hu
              refine (hoperand _ (hleft.tail x) u words behind e hlimit hu he hbehind).bind
                fun rhs v hv hwords => ?_
              apply givesAt_newExpr_bind
              intro grouped w hw
              rw [← hw] at hv hwords
              exact ih (Nat.le_trans hv hcount) (Nat.le_trans hv hlimit) hwords

theorem takesExpr_chain : TakesExpr limit (chain op? operand) (Chain op inner) := by
  intro left hleft s xs ys e hlimit hs h hys
  obtain ⟨first, rest, a, heq, hfirst, hrest⟩ := h.split (.done hys)
  rw [← hpiece] at hrest
  have hlhs := hoperand _ (hleft.tail x) s first rest a hlimit (hs.trans heq) hfirst hrest
  refine hlhs.bind fun lhs t ht htokens => givesAt_bounded ?_
  exact givesAt_chainUpTo hop hpiece hextension hoperand hleft (Nat.le_refl _) (Nat.le_trans ht hlimit) htokens

end

theorem givesAt_tagsUpTo (hleft : Open left) {count : Nat} {e : Expr} (hcount : s.tokens.length ≤ count)
    (hs : Tail TagPiece left s.tokens) : GivesAt s (tagsUpTo count e) left := by
  induction count generalizing s e with
  | zero =>
      have hnil : s.tokens = [] := List.length_eq_zero_iff.mp (Nat.le_zero.mp hcount)
      exact givesAt_pure (@behind_of_tail _ .tag _ hs (by simp [hnil]))
  | succ count ih =>
      apply givesAt_operator?
      cases htokens : s.tokens with
      | nil => exact givesAt_pure (@behind_of_tail _ .tag _ hs (by simp [htokens]))
      | cons t rest =>
          by_cases hext : extension? t = some .tag
          · have hopen : Open (Tail TagPiece left) := hleft.tail .tag
            obtain ⟨piece, behind, heq, hpiece, hbehind⟩ := hopen .tag t rest hext (htokens ▸ hs)
            have hstep : ∃ make tag, tagOp? t = some make ∧ rest = .ident tag :: behind := by
              cases hpiece <;> cases heq <;> exact ⟨_, _, rfl, rfl⟩
            obtain ⟨make, tag, hread, rfl⟩ := hstep
            simp only [List.head?_cons, Option.bind_some, hread]
            apply givesAt_advance htokens
            intro u hu
            have hcount := length_tail_le_pred htokens hcount hu
            apply givesAt_ident hu
            intro tagSpan v hv
            have hcount := length_tail_le hu hcount hv
            apply givesAt_newExpr_bind
            intro e w hw
            have hw := hw.trans hv
            exact ih (hw ▸ hv ▸ hcount) (hw ▸ hbehind)
          · have hread : tagOp? t = none := by
              unfold tagOp?
              split
              · exact absurd rfl hext
              · exact absurd rfl hext
              · rfl
            simp only [List.head?_cons, Option.bind_some, hread]
            refine givesAt_pure (@behind_of_tail _ .tag _ hs ?_)
            rw [htokens]
            rintro _ ⟨⟩
            exact hext

section

variable {nested : Reader Expr} (hnested : TakesExpr limit nested ExprPhrase)
include hnested

theorem takes_fieldInitWith (hleft : Open left) :
    Takes (limit + 1) (fieldInitWith nested) (ValueEntry ExprPhrase) left := by
  intro s xs ys field hlimit hs h hys
  cases h with
  | @mk name xs value _ h =>
      apply givesAt_ident hs
      intro nameSpan t ht
      have hlimit := length_tail_le_pred hs hlimit ht
      apply givesAt_mark ht
      intro u hu
      have hlimit := length_tail_le ht hlimit hu
      refine (hnested left hleft u xs ys _ hlimit hu h hys).bind fun value v _ hv => ?_
      exact givesAt_spanFrom (givesAt_pure hv)

theorem takes_matchArmWith (hleft : Open left) :
    Takes (limit + 1) (matchArmWith nested) (ArmEntry ExprPhrase) left := by
  intro s xs ys arm hlimit hs h hys
  cases h with
  | @mk tag binding xs body _ _ _ h =>
      apply givesAt_ident hs
      intro tagSpan t ht
      have hlimit := length_tail_le_pred hs hlimit ht
      apply givesAt_ident ht
      intro bindingSpan u hu
      have hlimit := length_tail_le ht hlimit hu
      apply givesAt_mark hu
      intro v hv
      have hlimit := length_tail_le hu hlimit hv
      refine (hnested left hleft v xs ys _ hlimit hv h hys).bind fun body w _ hw => ?_
      exact givesAt_spanFrom (givesAt_pure hw)

/-- Arguments, when the opening parenthesis has been taken. -/
theorem givesAt_arguments {arguments : List Expr} (h : Items ExprPhrase xs arguments)
    (hlimit : s.tokens.length ≤ limit) (hs : s.tokens = xs ++ .mark .rightParen :: ys) :
    GivesAt s (itemsUntil .rightParen nested) (· = ys) := by
  have hclose : Punctuation.rightParen ≠ .comma := nofun
  have hitem : ∀ zs, zs.head? = some (.mark .comma) ∨ zs.head? = some (.mark .rightParen) →
      Takes limit nested ExprPhrase (· = zs) := by
    intro zs hzs
    apply hnested
    rcases hzs with hzs | hzs <;> exact open_of_head hzs rfl
  have hstart : ∀ {xs e}, ExprPhrase xs e → StartsWith (· ≠ .mark .rightParen) xs := by
    intro xs e h
    refine h.startsWith.mono fun t ht => ?_
    rintro rfl
    cases ht
  exact givesAt_itemsUntil hclose hitem hstart h hlimit hs

theorem takes_conditionalWith (start : Span) (hleft : Open left) : Takes limit (conditionalWith nested start)
    (fun xs e => Primary ExprPhrase (.keyword .ifWord :: xs) e) left := by
  intro s xs ys e hlimit hs h hys
  cases h with
  | @conditional xs zs ws c t e _ hc ht he =>
      have hs' : s.tokens = xs ++ .keyword .thenWord :: (zs ++ .keyword .elseWord :: (ws ++ ys)) := by
        simpa using hs
      have hthen : Open (· = Token.keyword .thenWord :: (zs ++ .keyword .elseWord :: (ws ++ ys))) :=
        open_of_head rfl rfl
      refine (hnested _ hthen s xs _ c hlimit hs' hc rfl).bind fun condition t₁ hle h₁ => ?_
      have hlimit := Nat.le_trans hle hlimit
      apply givesAt_keyword h₁
      intro t₂ h₂
      have hlimit := length_tail_le h₁ hlimit h₂
      have helse : Open (· = Token.keyword .elseWord :: (ws ++ ys)) := open_of_head rfl rfl
      refine (hnested _ helse t₂ zs _ t hlimit h₂ ht rfl).bind fun thenBranch t₃ hle h₃ => ?_
      have hlimit := Nat.le_trans hle hlimit
      apply givesAt_keyword h₃
      intro t₄ h₄
      have hlimit := length_tail_le h₃ hlimit h₄
      refine (hnested left hleft t₄ ws ys e hlimit h₄ he hys).bind fun elseBranch t₅ _ h₅ => ?_
      exact givesAt_spanFrom (givesAt_newExpr h₅)

theorem takes_lambdaWith (start : Span) (hleft : Open left) : Takes limit (lambdaWith nested start)
    (fun xs e => Primary ExprPhrase (.keyword .fnWord :: xs) e) left := by
  intro s xs ys e hlimit hs h hys
  cases h with
  | @lambda xs zs ws vs names ps result body _ hnames hps hresult hbody =>
      have hs' : s.tokens = xs ++ (zs ++ (ws ++ .mark .fatArrow :: (vs ++ ys))) := by simpa using hs
      have hbracket := hps.head?_ne_bracket (ws ++ .mark .fatArrow :: (vs ++ ys))
      refine (takes_generics hbracket s xs _ names hlimit hs' hnames rfl).bind fun names t₁ hle h₁ => ?_
      have hlimit := Nat.le_trans hle hlimit
      refine (takes_parameters t₁ zs _ ps hlimit h₁ hps rfl).bind fun ps t₂ hle h₂ => ?_
      have hlimit := Nat.le_trans hle hlimit
      have hopen : TypeOpen (· = Token.mark .fatArrow :: (vs ++ ys)) := typeOpen_of_head rfl nofun nofun
      refine (takes_annotation? hopen nofun t₂ ws _ result hlimit h₂ hresult rfl).bind
        fun result t₃ hle h₃ => ?_
      have hlimit := Nat.le_trans hle hlimit
      apply givesAt_mark h₃
      intro t₄ h₄
      have hlimit := length_tail_le h₃ hlimit h₄
      refine (hnested left hleft t₄ vs ys body hlimit h₄ hbody hys).bind fun body t₅ _ h₅ => ?_
      exact givesAt_spanFrom (givesAt_newExpr h₅)

theorem takes_casesWith (start : Span) : Takes limit (casesWith nested start)
    (fun xs e => Primary ExprPhrase (.keyword .matchWord :: xs) e) left := by
  intro s xs ys e hlimit hs h hys
  cases h with
  | @cases xs zs scrutinee arms _ hscrutinee harms =>
      have hs' : s.tokens = xs ++ .mark .leftBrace :: (zs ++ .mark .rightBrace :: ys) := by simpa using hs
      have hopen : Open (· = Token.mark .leftBrace :: (zs ++ .mark .rightBrace :: ys)) :=
        open_of_head rfl rfl
      refine (hnested _ hopen s xs _ scrutinee hlimit hs' hscrutinee rfl).bind fun scrutinee t₁ hle h₁ => ?_
      have hlimit := Nat.le_trans hle hlimit
      apply givesAt_mark h₁
      intro t₂ h₂
      have hlimit := Nat.le_succ_of_le (length_tail_le h₁ hlimit h₂)
      have hclose : Punctuation.rightBrace ≠ .comma := nofun
      have hitem : ∀ ws, ws.head? = some (.mark .comma) ∨ ws.head? = some (.mark .rightBrace) →
          Takes (limit + 1) (matchArmWith nested) (ArmEntry ExprPhrase) (· = ws) := by
        intro ws hws
        apply takes_matchArmWith hnested
        rcases hws with hws | hws <;> exact open_of_head hws rfl
      refine (givesAt_itemsUntil hclose hitem (·.startsWith _) harms hlimit h₂).bind fun arms t₃ _ h₃ => ?_
      exact givesAt_spanFrom (givesAt_newExpr (h₃ ▸ hys))

theorem takes_primaryWith (hleft : Open left) :
    Takes (limit + 1) (primaryWith nested) (Primary ExprPhrase) left := by
  intro s xs ys e hlimit hs h hys
  apply givesAt_here
  have hphrase := h
  cases h with
  | number | bigInteger | trueWord | falseWord | null | reference =>
      apply givesAt_peek_of_eq hs
      apply givesAt_advance hs
      intro t ht
      exact givesAt_spanFrom (givesAt_newExpr (ht ▸ hys))
  | @parens xs e h =>
      have hs' : s.tokens = .mark .leftParen :: (xs ++ .mark .rightParen :: ys) := by simpa using hs
      apply givesAt_peek_of_eq hs'
      apply givesAt_advance hs'
      intro t ht
      have hlimit := length_tail_le_pred hs' hlimit ht
      have hopen : Open (· = Token.mark .rightParen :: ys) := open_of_head rfl rfl
      refine (hnested _ hopen t xs _ e hlimit ht h rfl).bind fun inner u _ hu => ?_
      apply givesAt_mark hu
      intro v hv
      exact givesAt_pure (hv ▸ hys)
  | @object xs fields _ h =>
      have hs' : s.tokens = .mark .leftBrace :: (xs ++ .mark .rightBrace :: ys) := by simpa using hs
      apply givesAt_peek_of_eq hs'
      apply givesAt_advance hs'
      intro t ht
      have hlimit := length_tail_le hs' hlimit ht
      have hclose : Punctuation.rightBrace ≠ .comma := nofun
      have hitem : ∀ zs, zs.head? = some (.mark .comma) ∨ zs.head? = some (.mark .rightBrace) →
          Takes (limit + 1) (fieldInitWith nested) (ValueEntry ExprPhrase) (· = zs) := by
        intro zs hzs
        apply takes_fieldInitWith hnested
        rcases hzs with hzs | hzs <;> exact open_of_head hzs rfl
      refine (givesAt_itemsUntil hclose hitem (·.startsWith _) h hlimit ht).bind fun fields u _ hu => ?_
      exact givesAt_spanFrom (givesAt_newExpr (hu ▸ hys))
  | conditional =>
      apply givesAt_peek_of_eq hs
      apply givesAt_advance hs
      intro t ht
      exact takes_conditionalWith hnested _ hleft t _ ys _ (length_tail_le_pred hs hlimit ht) ht hphrase hys
  | lambda =>
      apply givesAt_peek_of_eq hs
      apply givesAt_advance hs
      intro t ht
      exact takes_lambdaWith hnested _ hleft t _ ys _ (length_tail_le_pred hs hlimit ht) ht hphrase hys
  | cases =>
      apply givesAt_peek_of_eq hs
      apply givesAt_advance hs
      intro t ht
      exact takes_casesWith hnested _ t _ ys _ (length_tail_le_pred hs hlimit ht) ht hphrase hys

theorem givesAt_accessUpTo (hleft : Open left) {count : Nat} {e : Expr} (hcount : s.tokens.length ≤ count)
    (hlimit : s.tokens.length ≤ limit + 1) (hs : Tail AccessPiece left s.tokens) :
    GivesAt s (accessUpTo nested count e) left := by
  induction count generalizing s e with
  | zero =>
      have hnil : s.tokens = [] := List.length_eq_zero_iff.mp (Nat.le_zero.mp hcount)
      exact givesAt_pure (@behind_of_tail _ .access _ hs (by simp [hnil]))
  | succ count ih =>
      by_cases hhead : ∃ t, s.tokens.head? = some t ∧ extension? t = some .access
      · obtain ⟨t, ht, hext⟩ := hhead
        obtain ⟨rest, hrest⟩ := List.head?_eq_some_iff.mp ht
        have hopen : Open (Tail AccessPiece left) := hleft.tail .access
        obtain ⟨piece, behind, heq, hpiece, hbehind⟩ := hopen .access t rest hext (hrest ▸ hs)
        have hs' := hrest.trans heq
        have hnext : ∀ {e : Expr} {u : State}, u.tokens.length ≤ count → u.tokens.length ≤ limit →
            u.tokens = behind → GivesAt u (accessUpTo nested count e) left :=
          fun hcount hlimit hu => ih hcount (Nat.le_succ_of_le hlimit) (hu ▸ hbehind)
        cases hpiece with
        | field =>
            apply givesAt_peek_of_eq hs'
            apply givesAt_advance hs'
            intro t₁ h₁
            have hcount := length_tail_le_pred hs' hcount h₁
            have hlimit := length_tail_le_pred hs' hlimit h₁
            apply givesAt_ident h₁
            intro nameSpan t₂ h₂
            have hcount := length_tail_le h₁ hcount h₂
            have hlimit := length_tail_le h₁ hlimit h₂
            apply givesAt_spanFrom
            apply givesAt_newExpr_bind
            intro e t₃ h₃
            exact hnext (h₃ ▸ hcount) (h₃ ▸ hlimit) (h₃.trans h₂)
        | @call _ arguments h =>
            obtain ⟨h⟩ := h
            rename_i words
            have hs'' : s.tokens = .mark .leftParen :: (words ++ .mark .rightParen :: behind) := by
              simpa using hs'
            apply givesAt_peek_of_eq hs''
            apply givesAt_advance hs''
            intro t₁ h₁
            have hcount := length_tail_le_pred hs'' hcount h₁
            have hlimit := length_tail_le_pred hs'' hlimit h₁
            refine (givesAt_arguments hnested h hlimit h₁).bind fun arguments t₂ hle h₂ => ?_
            apply givesAt_spanFrom
            apply givesAt_newExpr_bind
            intro e t₃ h₃
            rw [← h₃] at hle
            exact hnext (Nat.le_trans hle hcount) (Nat.le_trans hle hlimit) (h₃.trans h₂)
        | @instantiate _ _ types arguments htypes h =>
            obtain ⟨htypes⟩ := htypes
            rename_i typeWords
            obtain ⟨h⟩ := h
            rename_i words
            have hs'' : s.tokens = .mark .leftBracket :: (typeWords ++ .mark .rightBracket ::
                .mark .leftParen :: (words ++ .mark .rightParen :: behind)) := by
              simpa using hs'
            apply givesAt_peek_of_eq hs''
            apply givesAt_advance hs''
            intro t₁ h₁
            have hcount := length_tail_le_pred hs'' hcount h₁
            have hlimit := length_tail_le_pred hs'' hlimit h₁
            refine (givesAt_typeArgumentsWith takesType_type htypes hlimit h₁).bind fun types t₂ hle h₂ => ?_
            have hcount := Nat.le_trans hle hcount
            have hlimit := Nat.le_trans hle hlimit
            apply givesAt_mark h₂
            intro t₃ h₃
            have hcount := length_tail_le h₂ hcount h₃
            have hlimit := length_tail_le h₂ hlimit h₃
            refine (givesAt_arguments hnested h hlimit h₃).bind fun arguments t₄ hle h₄ => ?_
            apply givesAt_spanFrom
            apply givesAt_newExpr_bind
            intro e t₅ h₅
            rw [← h₅] at hle
            exact hnext (Nat.le_trans hle hcount) (Nat.le_trans hle hlimit) (h₅.trans h₄)
      · apply givesAt_peek
        split
        · exact absurd ⟨_, ‹_›, rfl⟩ hhead
        · exact absurd ⟨_, ‹_›, rfl⟩ hhead
        · exact absurd ⟨_, ‹_›, rfl⟩ hhead
        · exact givesAt_pure (@behind_of_tail _ .access _ hs fun t ht hext => hhead ⟨t, ht, hext⟩)

theorem takesExpr_accessWith : TakesExpr (limit + 1) (accessWith nested) (Access ExprPhrase) := by
  intro left hleft s xs ys e hlimit hs h hys
  obtain ⟨first, rest, a, heq, hfirst, hrest⟩ := h.split (.done hys)
  have hopen : Open (Tail AccessPiece left) := hleft.tail .access
  have hprimary := takes_primaryWith hnested hopen s first rest a hlimit (hs.trans heq) hfirst hrest
  refine hprimary.bind fun e t ht htokens => givesAt_bounded ?_
  exact givesAt_accessUpTo hnested hleft (Nat.le_refl _) (Nat.le_trans ht hlimit) htokens

omit hnested in
theorem leadingOp?_of_opensPrimary {t : Token} (h : opensPrimary t = true) : leadingOp? t = none := by
  unfold leadingOp?
  split
  · cases h
  · cases h
  · cases h
  · rfl

omit hnested in
/-- A leading operator, and what its operand gives. -/
theorem givesAt_leading {t : Token} {make : Site → Expr → Expr} (hmake : leadingOp? t = some make)
    (hs : s.tokens = t :: xs) {count : Nat} (hcount : s.tokens.length ≤ count)
    (hlimit : s.tokens.length ≤ limit) (hoperand : ∀ n u, u.tokens.length ≤ n → u.tokens.length ≤ limit →
      u.tokens = xs → GivesAt u (unaryUpTo nested n) left) : GivesAt s (unaryUpTo nested count) left := by
  obtain ⟨count, rfl⟩ : ∃ n, count = n + 1 := by
    rw [hs, List.length_cons] at hcount
    exact ⟨count - 1, by omega⟩
  apply givesAt_here
  apply givesAt_operator?
  simp only [hs, List.head?_cons, Option.bind_some, hmake]
  apply givesAt_advance hs
  intro u hu
  have hcount := length_tail_le_pred hs hcount hu
  have hlimit := length_tail_le hs hlimit hu
  refine (hoperand count u hcount hlimit hu).bind fun e v _ hv => ?_
  exact givesAt_spanFrom (givesAt_newExpr hv)

theorem givesAt_unaryUpTo (hleft : Open left) {e : Expr} (h : Unary (Access ExprPhrase) xs e) (hys : left ys)
    {count : Nat} (hcount : s.tokens.length ≤ count) (hlimit : s.tokens.length ≤ limit + 1)
    (hs : s.tokens = xs ++ ys) : GivesAt s (unaryUpTo nested count) left := by
  induction h generalizing s count with
  | operand h =>
      have hgives := takesExpr_accessWith hnested left hleft s _ ys _ hlimit hs h hys
      cases count with
      | zero => exact hgives
      | succ count =>
          apply givesAt_here
          apply givesAt_operator?
          obtain ⟨t, rest, rfl, ht⟩ := h.startsWith
          rw [hs]
          simp only [List.cons_append, List.head?_cons, Option.bind_some, leadingOp?_of_opensPrimary ht]
          exact hgives
  | not _ ih =>
      refine givesAt_leading rfl hs hcount hlimit fun n t hn hlimit ht => ?_
      exact ih hn hlimit ht
  | negate _ ih =>
      refine givesAt_leading rfl hs hcount hlimit fun n t hn hlimit ht => ?_
      exact ih hn hlimit ht
  | untag _ ih =>
      refine givesAt_leading rfl hs hcount hlimit fun n t hn hlimit ht => ?_
      exact ih hn hlimit ht

theorem takesExpr_unaryWith : TakesExpr (limit + 1) (unaryWith nested) (Unary (Access ExprPhrase)) := by
  intro left hleft s xs ys e hlimit hs h hys
  exact givesAt_bounded (givesAt_unaryUpTo hnested hleft h hys (Nat.le_refl _) hlimit hs)

theorem takesExpr_productWith : TakesExpr (limit + 1) (productWith nested) (Product ExprPhrase) :=
  takesExpr_chain productOp?_eq_some_iff rfl extension?_product_iff (takesExpr_unaryWith hnested)

theorem takesExpr_sumWith : TakesExpr (limit + 1) (sumWith nested) (Sum ExprPhrase) :=
  takesExpr_chain sumOp?_eq_some_iff rfl extension?_sum_iff (takesExpr_productWith hnested)

theorem takesExpr_tagsWith : TakesExpr (limit + 1) (tagsWith nested) (Tags (Sum ExprPhrase)) := by
  intro left hleft s xs ys e hlimit hs h hys
  obtain ⟨first, rest, a, heq, hfirst, hrest⟩ := h.split (.done hys)
  have hopen : Open (Tail TagPiece left) := hleft.tail .tag
  have hvalue := takesExpr_sumWith hnested _ hopen s first rest a hlimit (hs.trans heq) hfirst hrest
  refine hvalue.bind fun e t ht htokens => givesAt_bounded ?_
  exact givesAt_tagsUpTo hleft (Nat.le_refl _) htokens

theorem takesExpr_comparisonWith :
    TakesExpr (limit + 1) (comparisonWith nested) (Comparison (Tags (Sum ExprPhrase))) := by
  intro left hleft s xs ys e hlimit hs h hys
  have hsplit : ∃ first rest a, s.tokens = first ++ rest ∧ Tags (Sum ExprPhrase) first a ∧
      AtMostOne (Piece .comparison) left rest := by
    cases h with
    | operand h => exact ⟨xs, ys, e, hs, h, .inl hys⟩
    | @compare xs zs t o lhs rhs _ hlhs hop hrhs =>
        exact ⟨xs, t :: zs ++ ys, lhs, by simpa using hs, hlhs,
          .inr ⟨t :: zs, ys, rfl, ⟨t, o, zs, rhs, rfl, hop, hrhs⟩, hys⟩⟩
  obtain ⟨first, rest, a, heq, hfirst, hrest⟩ := hsplit
  have hlhs := takesExpr_tagsWith hnested _ (hleft.atMostOne .comparison) s first rest a hlimit heq hfirst hrest
  refine hlhs.bind fun lhs t ht htokens => ?_
  have hlimit := Nat.le_trans ht hlimit
  apply givesAt_operator?
  cases ht : t.tokens with
  | nil => exact givesAt_pure (behind_of_atMostOne htokens (by simp [ht]))
  | cons token rest =>
      cases hread : comparisonOp? token with
      | none =>
          simp only [List.head?_cons, Option.bind_some, hread]
          refine givesAt_pure (behind_of_atMostOne htokens ?_)
          rw [ht]
          rintro _ ⟨⟩ hext
          obtain ⟨o, ho⟩ := extension?_comparison_iff.mp hext
          rw [comparisonOp?_eq_some_iff.mpr ho] at hread
          cases hread
      | some o =>
          simp only [List.head?_cons, Option.bind_some, hread]
          have hext := extension?_comparison_iff.mpr ⟨o, comparisonOp?_eq_some_iff.mp hread⟩
          obtain ⟨piece, behind, heq, hpiece, hbehind⟩ := hleft.split_atMostOne (ht ▸ htokens) hext
          obtain ⟨_, _, words, e, rfl, -, he⟩ := hpiece
          obtain ⟨rfl, rfl⟩ := List.cons.inj heq
          apply givesAt_advance ht
          intro u hu
          have hlimit := length_tail_le ht hlimit hu
          refine (takesExpr_tagsWith hnested left hleft u words behind e hlimit hu he hbehind).bind
            fun rhs v _ hv => ?_
          exact givesAt_newExpr hv

theorem takesExpr_conjunctionWith : TakesExpr (limit + 1) (conjunctionWith nested) (Conjunction ExprPhrase) :=
  takesExpr_chain andOp?_eq_some_iff rfl extension?_conjunction_iff (takesExpr_comparisonWith hnested)

theorem takesExpr_exprWith : TakesExpr (limit + 1) (exprWith nested) (Disjunction ExprPhrase) :=
  takesExpr_chain orOp?_eq_some_iff rfl extension?_disjunction_iff (takesExpr_conjunctionWith hnested)

end

theorem takesExpr_exprUpTo (depth : Nat) : TakesExpr depth (exprUpTo depth) ExprPhrase := by
  induction depth with
  | zero =>
      intro left _ s xs ys e hlimit hs h _
      have hnil : s.tokens = [] := List.length_eq_zero_iff.mp (Nat.le_zero.mp hlimit)
      obtain ⟨t, rest, rfl, -⟩ := h.startsWith
      cases hs.symm.trans hnil
  | succ depth ih =>
      rintro left hleft s xs ys e hlimit hs ⟨h⟩ hys
      exact takesExpr_exprWith ih left hleft s xs ys e hlimit hs h hys

theorem takesExpr_expr : TakesExpr limit expr ExprPhrase := by
  intro left hleft s xs ys e _ hs h hys
  exact givesAt_bounded (takesExpr_exprUpTo _ left hleft s xs ys e (Nat.le_refl _) hs h hys)

end

end Sable.Reader
