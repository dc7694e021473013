import Sable.Proofs.Reader.Takes
import Sable.Reader.Type

/-! Reading types: what is read without an error is a type of the grammar, and where a type stands, its reader
puts down no error.

Readers take as much as they can. So a reader may take more than the phrase that is known to be there, but
what it leaves may stand behind the phrase as well. -/
namespace Sable.Reader

open Grammar

/-! ## Soundness -/

section

variable {α β : Type} {s : State} {r : Reader α} {next : α → Reader β} {phrase : Phrase α}
  {whole : Phrase β}

theorem reads_generics : Reads generics TypeParameters := by
  refine fun s => readsAt_mark? (fun t => ?_) (readsAt_pure .none)
  refine (reads_separated reads_ident .comma t).bind fun names t => readsAt_mark fun t => readsAt_pure ?_
  intro xs h
  simpa using TypeParameters.some h

/-- The question marks that may still follow a type. -/
def Widened (inner : Phrase TypeExpr) (type : TypeExpr) : Phrase TypeExpr :=
  fun xs wider => ∀ ys, NullableType inner ys type → NullableType inner (ys ++ xs) wider

theorem reads_nullableUpTo (inner : Phrase TypeExpr) (count : Nat) (type : TypeExpr) :
    Reads (nullableUpTo count type) (Widened inner type) := by
  have hsame : ∀ type, Widened inner type [] type := fun type ys h => by simpa using h
  induction count generalizing type with
  | zero => exact fun _ => readsAt_pure (hsame type)
  | succ count ih =>
      intro s
      refine readsAt_mark? (fun t => readsAt_spanFrom ?_) (readsAt_pure (hsame type))
      apply readsAt_newType_bind
      intro site t
      refine (ih (.nullable site type) t).mono fun xs wider hwider ys h => ?_
      simpa using hwider _ (.nullable h)

theorem readsAt_atParameters {next : Bool → Reader β}
    (h : ReadsAt s (next (opensParameters s.rest)) whole) : ReadsAt s (atParameters >>= next) whole :=
  h.of_eq rfl

section

variable {nested : Reader TypeExpr} {inner : Phrase TypeExpr} (hnested : Reads nested inner)
include hnested

theorem reads_parameterWith : Reads (parameterWith nested) (TypedName inner) := by
  intro s
  apply readsAt_ident
  intro name nameSpan t
  apply readsAt_mark
  intro t
  refine (hnested t).bind fun type t => readsAt_spanFrom (readsAt_pure ?_)
  intro xs h
  simpa using TypedName.mk h

theorem reads_parametersWith : Reads (parametersWith nested) (ParameterGroup inner) := by
  intro s
  apply readsAt_mark
  intro t
  apply readsAt_mark?
  · intro t
    refine (reads_parameterWith hnested t).bind fun p t => readsAt_mark fun t => readsAt_pure ?_
    intro xs h
    simpa using ParameterGroup.variadic h
  · refine (reads_itemsUntil (reads_parameterWith hnested) .rightParen t).bind fun ps t => readsAt_pure ?_
    rintro _ ⟨xs, rfl, h⟩
    simpa using ParameterGroup.fixed h

theorem reads_typeArgumentsWith : Reads (typeArgumentsWith nested)
    fun xs types => TypeArguments inner (.mark .leftBracket :: xs) types := by
  intro s
  refine (reads_separated hnested .comma s).bind fun types t => readsAt_mark fun t => readsAt_pure ?_
  intro xs h
  simpa using TypeArguments.mk h

theorem reads_functionTypeWith (start : Span) : Reads (functionTypeWith nested start) (PrimaryType inner) := by
  intro s
  refine (reads_generics s).bind fun names t => (reads_parametersWith hnested t).bind fun ps t => ?_
  apply readsAt_mark
  intro t
  refine (hnested t).bind fun result t => readsAt_spanFrom (readsAt_newType fun site => ?_)
  intro zs hresult ys hps xs hnames
  simpa using PrimaryType.function hnames hps hresult

theorem reads_typeFieldWith : Reads (typeFieldWith nested) (TypeEntry inner) := by
  intro s
  apply readsAt_ident
  intro name nameSpan t
  apply readsAt_mark
  intro t
  refine (hnested t).bind fun type t => readsAt_pure ?_
  intro xs h
  simpa using TypeEntry.mk h

theorem reads_primaryTypeWith : Reads (primaryTypeWith nested) (PrimaryType inner) := by
  intro s
  apply readsAt_here
  apply readsAt_peek
  split
  · apply readsAt_advance ‹_›
    apply readsAt_mark?
    · intro t
      refine (reads_typeArgumentsWith hnested t).bind fun types t =>
        readsAt_spanFrom (readsAt_newType fun site => ?_)
      intro xs h
      exact (List.append_nil xs).symm ▸ .applied h
    · exact readsAt_pure_bind (readsAt_spanFrom (readsAt_newType fun site => .named))
  · apply readsAt_advance ‹_›
    refine (reads_itemsUntil (reads_typeFieldWith hnested) .rightBrace _).bind fun fields t =>
      readsAt_spanFrom (readsAt_newType fun site => ?_)
    rintro _ ⟨xs, rfl, h⟩
    simpa using PrimaryType.object h
  · exact reads_functionTypeWith hnested _ s
  · apply readsAt_atParameters
    split
    · exact reads_functionTypeWith hnested _ s
    · apply readsAt_advance ‹_›
      refine (hnested _).bind fun type t => readsAt_mark fun t => readsAt_pure ?_
      intro xs h
      simpa using PrimaryType.parens h
  · exact readsAt_expected

theorem reads_typeWith : Reads (typeWith nested) (NullableType inner) := by
  intro s
  refine (reads_primaryTypeWith hnested s).bind fun type t => readsAt_bounded ?_
  exact (reads_nullableUpTo inner _ type t).mono fun ys wider hwider xs h => hwider xs (.primary h)

end

theorem reads_typeUpTo (depth : Nat) : Reads (typeUpTo depth) TypePhrase := by
  induction depth with
  | zero => exact fun _ => readsAt_expected
  | succ depth ih => exact fun s => (reads_typeWith ih s).mono fun _ _ => .mk

theorem reads_type : Reads type TypePhrase := fun s => readsAt_bounded (reads_typeUpTo _ s)

theorem reads_parameters : Reads parameters (ParameterGroup TypePhrase) := reads_parametersWith reads_type

theorem reads_annotation? : Reads annotation? Annotation := by
  intro s
  apply readsAt_mark?
  · intro t
    refine (reads_type t).bind fun type t => readsAt_pure ?_
    intro xs h
    simpa using Annotation.some h
  · exact readsAt_pure .none

end

/-! ## Completeness -/

section

variable {α β : Type} {s : State} {left : List Token → Prop} {xs ys : List Token} {limit : Nat}

theorem takes_generics (hys : ys.head? ≠ some (.mark .leftBracket)) :
    Takes limit generics TypeParameters (· = ys) := by
  rintro s xs zs names hlength hs h rfl
  cases h with
  | none => exact givesAt_token?_of_ne (hs ▸ hys) (givesAt_pure hs)
  | @some xs _ h =>
      have hs' : s.tokens = .mark .leftBracket :: (xs ++ .mark .rightBracket :: zs) := by simpa using hs
      apply givesAt_token?_of_eq hs'
      intro t ht
      have hstop : (Token.mark .rightBracket :: zs).head? ≠ some (.mark .comma) := nofun
      have hnames := takes_separated (fun _ _ => takes_ident) hstop t _ _ _ (Nat.le_refl _) ht h rfl
      refine hnames.bind fun names u _ hu => ?_
      apply givesAt_mark hu
      intro v hv
      exact givesAt_pure hv

/-- The reader takes types with what may stand behind them. -/
def TakesType (limit : Nat) (nested : Reader TypeExpr) : Prop :=
  ∀ left, TypeOpen left → Takes limit nested TypePhrase left

section

variable {nested : Reader TypeExpr} (hnested : TakesType limit nested)
include hnested

theorem takes_parameterWith (hleft : TypeOpen left) :
    Takes (limit + 1) (parameterWith nested) (TypedName TypePhrase) left := by
  intro s xs ys p hlimit hs h hys
  cases h with
  | @mk name xs _ _ _ h =>
      apply givesAt_ident hs
      intro nameSpan t ht
      have hlimit := length_tail_le_pred hs hlimit ht
      apply givesAt_mark ht
      intro u hu
      have hlimit := length_tail_le ht hlimit hu
      refine (hnested left hleft u xs ys _ hlimit hu h hys).bind fun type v _ hv => ?_
      exact givesAt_spanFrom (givesAt_pure hv)

theorem takes_parametersWith : Takes (limit + 1) (parametersWith nested) (ParameterGroup TypePhrase) (· = ys) := by
  rintro s xs zs ps hlimit hs h rfl
  cases h with
  | @fixed xs ps h =>
      have hs' : s.tokens = .mark .leftParen :: (xs ++ .mark .rightParen :: zs) := by simpa using hs
      apply givesAt_mark hs'
      intro t ht
      have hlimit := Nat.le_succ_of_le (length_tail_le_pred hs' hlimit ht)
      have hellipsis : StartsWith (· ≠ .mark .ellipsis) t.tokens :=
        ht ▸ h.startsWith (·.startsWith _) ⟨_, _, rfl, nofun⟩
      apply givesAt_token?_of_ne hellipsis.head?_ne
      have hitem : ∀ ws, ws.head? = some (.mark .comma) ∨ ws.head? = some (.mark .rightParen) →
          Takes (limit + 1) (parameterWith nested) (TypedName TypePhrase) (· = ws) := by
        intro ws hws
        apply takes_parameterWith hnested
        rcases hws with hws | hws <;> exact typeOpen_of_head hws nofun nofun
      have hclose : Punctuation.rightParen ≠ .comma := nofun
      refine (givesAt_itemsUntil hclose hitem (·.startsWith _) h hlimit ht).bind fun ps u _ hu => ?_
      exact givesAt_pure hu
  | @variadic xs p h =>
      have hs' : s.tokens = .mark .leftParen :: .mark .ellipsis :: (xs ++ .mark .rightParen :: zs) := by
        simpa using hs
      apply givesAt_mark hs'
      intro t ht
      have hlimit := length_tail_le hs' hlimit ht
      apply givesAt_token?_of_eq ht
      intro u hu
      have hlimit := length_tail_le ht hlimit hu
      have hopen : TypeOpen (· = Token.mark .rightParen :: zs) := typeOpen_of_head rfl nofun nofun
      refine (takes_parameterWith hnested hopen u _ _ _ hlimit hu h rfl).bind fun p v _ hv => ?_
      apply givesAt_mark hv
      intro w hw
      exact givesAt_pure hw

/-- Type arguments, when the opening bracket has been taken. -/
theorem givesAt_typeArgumentsWith {types : List TypeExpr} (h : Separated TypePhrase .comma xs types)
    (hlimit : s.tokens.length ≤ limit) (hs : s.tokens = xs ++ .mark .rightBracket :: ys) :
    GivesAt s (typeArgumentsWith nested) (· = ys) := by
  have hitem : ∀ zs, zs = .mark .rightBracket :: ys ∨ zs.head? = some (.mark .comma) →
      Takes limit nested TypePhrase (· = zs) := by
    rintro zs (rfl | hzs)
    · exact hnested _ (typeOpen_of_head rfl nofun nofun)
    · exact hnested _ (typeOpen_of_head hzs nofun nofun)
  have hstop : (Token.mark .rightBracket :: ys).head? ≠ some (.mark .comma) := nofun
  refine (takes_separated hitem hstop s xs _ types hlimit hs h rfl).bind fun types t _ ht => ?_
  apply givesAt_mark ht
  intro u hu
  exact givesAt_pure hu

theorem givesAt_functionTypeWith {start : Span} {zs : List Token} {names : Generics}
    {ps : ParameterList (Parameter TypeExpr)} {result : TypeExpr} (hleft : TypeOpen left)
    (hnames : TypeParameters xs names) (hps : ParameterGroup TypePhrase ys ps) (hresult : TypePhrase zs result)
    (hlimit : s.tokens.length ≤ limit + 1) {ws : List Token} (hws : left ws)
    (hs : s.tokens = xs ++ (ys ++ .mark .arrow :: (zs ++ ws))) :
    GivesAt s (functionTypeWith nested start) left := by
  have hbracket := hps.head?_ne_bracket (.mark .arrow :: (zs ++ ws))
  refine (takes_generics hbracket s _ _ _ hlimit hs hnames rfl).bind fun names t ht htokens => ?_
  have hlimit := Nat.le_trans ht hlimit
  refine (takes_parametersWith hnested t _ _ _ hlimit htokens hps rfl).bind fun ps u hu htokens' => ?_
  have hlimit := Nat.le_trans hu hlimit
  apply givesAt_mark htokens'
  intro v hv
  have hlimit := length_tail_le_pred htokens' hlimit hv
  refine (hnested left hleft v _ _ _ hlimit hv hresult hws).bind fun result w _ hw => ?_
  exact givesAt_spanFrom (givesAt_newType hw)

theorem takes_typeFieldWith (hleft : TypeOpen left) :
    Takes (limit + 1) (typeFieldWith nested) (TypeEntry TypePhrase) left := by
  intro s xs ys field hlimit hs h hys
  cases h with
  | @mk name xs _ h =>
      apply givesAt_ident hs
      intro nameSpan t ht
      have hlimit := length_tail_le_pred hs hlimit ht
      apply givesAt_mark ht
      intro u hu
      have hlimit := length_tail_le ht hlimit hu
      refine (hnested left hleft u xs ys _ hlimit hu h hys).bind fun type v _ hv => ?_
      exact givesAt_pure hv

omit hnested in
theorem opensParameters_eq (rest : List (Spanned Token)) :
    opensParameters rest = opensGroup (rest.map (·.value)).tail := by
  cases rest with
  | nil => rfl
  | cons first rest =>
      cases rest with
      | nil => rfl
      | cons second rest =>
          obtain ⟨token, span⟩ := second
          cases token with
          | mark p => cases p <;> rfl
          | keyword k => rfl
          | number value => rfl
          | bigInteger digits => rfl
          | ident name =>
              cases rest with
              | nil => rfl
              | cons third rest =>
                  obtain ⟨token, span⟩ := third
                  cases token with
                  | mark p => cases p <;> rfl
                  | keyword k => rfl
                  | number value => rfl
                  | bigInteger digits => rfl
                  | ident name => rfl

omit hnested in
theorem givesAt_atParameters {t : Token} {next : Bool → Reader β} {after : List Token → Prop}
    (hs : s.tokens = t :: xs) (h : GivesAt s (next (opensGroup xs)) after) :
    GivesAt s (atParameters >>= next) after := by
  refine h.of_eq ?_
  have hopens : opensParameters s.rest = opensGroup xs := by
    rw [opensParameters_eq, ← State.tokens, hs]
    rfl
  rw [← hopens]
  rfl

theorem takes_primaryTypeWith (hleft : TypeOpen left) :
    Takes (limit + 1) (primaryTypeWith nested) (PrimaryType TypePhrase) left := by
  intro s xs ys type hlimit hs h hys
  apply givesAt_here
  cases h with
  | named =>
      apply givesAt_peek_of_eq hs
      apply givesAt_advance hs
      intro t ht
      have hbracket : t.tokens.head? ≠ some (.mark .leftBracket) := by
        rw [ht]
        intro hhead
        obtain ⟨rest, hrest⟩ := List.head?_eq_some_iff.mp hhead
        exact hleft.bracket rest (hrest ▸ hys)
      apply givesAt_token?_of_ne hbracket
      exact givesAt_pure_bind (givesAt_spanFrom (givesAt_newType (ht ▸ hys)))
  | @applied name _ types _ h =>
      obtain ⟨h⟩ := h
      rename_i xs
      have hs' : s.tokens = .ident name :: .mark .leftBracket :: (xs ++ .mark .rightBracket :: ys) := by
        simpa using hs
      apply givesAt_peek_of_eq hs'
      apply givesAt_advance hs'
      intro t ht
      have hlimit := length_tail_le_pred hs' hlimit ht
      apply givesAt_token?_of_eq ht
      intro u hu
      have hlimit := length_tail_le ht hlimit hu
      refine (givesAt_typeArgumentsWith hnested h hlimit hu).bind fun types v _ hv => ?_
      exact givesAt_spanFrom (givesAt_newType (hv ▸ hys))
  | @object xs fields _ h =>
      have hs' : s.tokens = .mark .leftBrace :: (xs ++ .mark .rightBrace :: ys) := by simpa using hs
      apply givesAt_peek_of_eq hs'
      apply givesAt_advance hs'
      intro t ht
      have hlimit := length_tail_le hs' hlimit ht
      have hitem : ∀ ws, ws.head? = some (.mark .comma) ∨ ws.head? = some (.mark .rightBrace) →
          Takes (limit + 1) (typeFieldWith nested) (TypeEntry TypePhrase) (· = ws) := by
        intro ws hws
        apply takes_typeFieldWith hnested
        rcases hws with hws | hws <;> exact typeOpen_of_head hws nofun nofun
      have hclose : Punctuation.rightBrace ≠ .comma := nofun
      refine (givesAt_itemsUntil hclose hitem (·.startsWith _) h hlimit ht).bind fun fields u _ hu => ?_
      exact givesAt_spanFrom (givesAt_newType (hu ▸ hys))
  | @function xs zs ws names ps result _ hnames hps hresult =>
      have hs' : s.tokens = xs ++ (zs ++ .mark .arrow :: (ws ++ ys)) := by simpa using hs
      have hgives : ∀ start, GivesAt s (functionTypeWith nested start) left := fun start =>
        givesAt_functionTypeWith hnested hleft hnames hps hresult hlimit hys hs'
      cases hnames with
      | some _ => exact givesAt_peek_of_eq hs' (hgives _)
      | none =>
          obtain ⟨rest, heq, hgroup⟩ := hps.opensGroup (.mark .arrow :: (ws ++ ys))
          have hs'' := hs'.trans heq
          apply givesAt_peek_of_eq hs''
          apply givesAt_atParameters hs''
          rw [hgroup]
          exact hgives _
  | @parens xs type h =>
      have hs' : s.tokens = .mark .leftParen :: (xs ++ .mark .rightParen :: ys) := by simpa using hs
      apply givesAt_peek_of_eq hs'
      apply givesAt_atParameters hs'
      have hgroup : opensGroup (xs ++ .mark .rightParen :: ys) = false := by
        obtain ⟨h⟩ := h
        exact h.opensGroup nofun
      rw [hgroup]
      apply givesAt_advance hs'
      intro t ht
      have hlimit := length_tail_le_pred hs' hlimit ht
      have hopen : TypeOpen (· = Token.mark .rightParen :: ys) := typeOpen_of_head rfl nofun nofun
      refine (hnested _ hopen t xs _ type hlimit ht h rfl).bind fun inner u _ hu => ?_
      apply givesAt_mark hu
      intro v hv
      exact givesAt_pure (hv ▸ hys)

omit hnested in
theorem givesAt_nullableUpTo (hleft : TypeOpen left) {count : Nat} {type : TypeExpr}
    (hcount : s.tokens.length ≤ count) (hs : Tail (· = [.mark .question]) left s.tokens) :
    GivesAt s (nullableUpTo count type) left := by
  induction count generalizing s type with
  | zero =>
      have hnil : s.tokens = [] := List.length_eq_zero_iff.mp (Nat.le_zero.mp hcount)
      exact givesAt_pure (behind_of_question hs (by simp [hnil]))
  | succ count ih =>
      by_cases hhead : s.tokens.head? = some (.mark .question)
      · obtain ⟨rest, hrest⟩ := List.head?_eq_some_iff.mp hhead
        apply givesAt_token?_of_eq hrest
        intro t ht
        have hcount := length_tail_le_pred hrest hcount ht
        apply givesAt_spanFrom
        apply givesAt_newType_bind
        intro wider u hu
        rw [hrest] at hs
        have hu := hu.trans ht
        exact ih (by rw [hu, ← ht]; exact hcount) (hu ▸ hleft.tail.question rest hs)
      · exact givesAt_token?_of_ne hhead (givesAt_pure (behind_of_question hs hhead))

theorem takes_typeWith (hleft : TypeOpen left) :
    Takes (limit + 1) (typeWith nested) (NullableType TypePhrase) left := by
  intro s xs ys type hlimit hs h hys
  obtain ⟨first, rest, a, heq, hfirst, hrest⟩ := h.split (.done hys)
  have hprimary := takes_primaryTypeWith hnested hleft.tail s first rest a hlimit (hs.trans heq) hfirst hrest
  refine hprimary.bind fun type t _ ht => ?_
  exact givesAt_bounded (givesAt_nullableUpTo hleft (Nat.le_refl _) ht)

end

theorem takesType_typeUpTo (depth : Nat) : TakesType depth (typeUpTo depth) := by
  induction depth with
  | zero =>
      rintro left - s xs ys type hlimit hs ⟨h⟩ -
      have hnil : s.tokens = [] := List.length_eq_zero_iff.mp (Nat.le_zero.mp hlimit)
      obtain ⟨hxs, -⟩ := List.append_eq_nil_iff.mp (hs.symm.trans hnil)
      exact absurd hxs h.ne_nil
  | succ depth ih =>
      rintro left hleft s xs ys type hlimit hs ⟨h⟩ hys
      exact takes_typeWith ih hleft s xs ys type hlimit hs h hys

theorem takesType_type : TakesType limit type := by
  intro left hleft s xs ys t _ hs h hys
  exact givesAt_bounded (takesType_typeUpTo _ left hleft s xs ys t (Nat.le_refl _) hs h hys)

theorem takes_parameters : Takes limit parameters (ParameterGroup TypePhrase) (· = ys) :=
  (takes_parametersWith takesType_type).mono (Nat.le_succ limit)

theorem takes_annotation? (hopen : TypeOpen (· = ys)) (hcolon : ys.head? ≠ some (.mark .colon)) :
    Takes limit annotation? Annotation (· = ys) := by
  rintro s xs zs t hlimit hs h rfl
  cases h with
  | none => exact givesAt_token?_of_ne (hs ▸ hcolon) (givesAt_pure hs)
  | @some xs t h =>
      apply givesAt_token?_of_eq hs
      intro u hu
      have htype := takesType_type _ hopen u xs zs t (Nat.le_refl _) hu h rfl
      exact htype.bind fun t v _ hv => givesAt_pure hv

end

end Sable.Reader
