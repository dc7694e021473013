import Sable.Proofs.Reader.Program
import Sable.Proofs.Token.Munch
import Sable.Proofs.Tree.Faithful

/-!
Trees that are read have names in the places of names.

The scanner makes a name only of what is spelt like one and is no keyword. Every name in a tree is the name of one of
the tokens that the tree is read from, whatever the grammar reads them as.
-/

namespace Sable

/-! ## Tokens -/

namespace Token

/-- What stands for a name in the token is one, and so is what stands for digits. -/
def Named : Token → Prop
  | ident name => isName name = true
  | bigInteger digits => IsDigits digits.toList
  | _ => True

theorem Munches.named {t : Token} {chars behind : List Char} (h : Munches t chars behind) : t.Named := by
  cases t with
  | ident name =>
    obtain ⟨rfl, ⟨c, hhead, hstart⟩, hkeyword⟩ := (h.ident name).mp rfl
    have hparts := (h.spells.word_of_isNameStart hhead hstart).isNamePart
    obtain ⟨rest, hname⟩ := List.head?_eq_some_iff.mp hhead
    rw [hname, List.forall_mem_cons] at hparts
    have hnone : Keyword.ofText? name = none := by
      rw [Option.eq_none_iff_forall_ne_some]
      intro k hk
      exact hkeyword k (congrArg String.toList (ofText?_eq_some_iff.mp hk))
    rw [Named, isName, hname]
    simp only [hstart, List.all_eq_true.mpr hparts.2, hnone, Option.isNone_none, Bool.and_self]
  | bigInteger digits =>
    have hdigits := (h.bigInteger digits.toList).mp (by rw [String.ofList_toList])
    exact hdigits.1
  | _ => trivial

theorem CutInto.exists_stands {start : Nat} {text : List Char} {pieces : List (Spanned Piece)} {p : Spanned Piece}
    (h : CutInto start text pieces) (hp : p ∈ pieces) : ∃ chars behind, p.value.Stands chars behind := by
  induction h with
  | done => cases hp
  | piece _ hstands _ _ ih =>
    rcases List.mem_cons.mp hp with rfl | hp
    · exact ⟨_, _, hstands⟩
    · exact ih hp

end Token

/-- What stands for names and digits in the tokens is such. -/
def AllNamed (ts : List Token) : Prop := ∀ t ∈ ts, t.Named

theorem allNamed_scan (source : String) : AllNamed ((scan source).tokens.map (·.value)) := by
  intro t ht
  obtain ⟨⟨t, span⟩, hmem, rfl⟩ := List.mem_map.mp ht
  obtain ⟨⟨piece, pieceSpan⟩, hp, htoken⟩ := List.mem_filterMap.mp hmem
  cases piece with
  | unexpected => cases htoken
  | token u =>
    cases htoken
    obtain ⟨chars, behind, hstands⟩ := (Token.cutInto_piecesFrom 0 source.toList).exists_stands hp
    cases hstands with
    | token hmunches => exact hmunches.named

/-! ## Phrases -/

namespace Grammar

open Item (Spelled)

section

variable {α : Type} {item : Phrase α} {xs : List Token} {as : List α} {a : α}

theorem Items.exists_of_mem (h : Items item xs as) (ha : a ∈ as) : ∃ ys, ys.Sublist xs ∧ item ys a := by
  induction h with
  | none => cases ha
  | last h =>
    obtain rfl := List.mem_singleton.mp ha
    exact ⟨_, List.Sublist.refl _, h⟩
  | more h _ ih =>
    rcases List.mem_cons.mp ha with rfl | ha
    · exact ⟨_, List.sublist_append_left .., h⟩
    · obtain ⟨zs, hsub, hitem⟩ := ih ha
      exact ⟨zs, (hsub.cons _).trans (List.sublist_append_right ..), hitem⟩

theorem Separated.exists_of_mem {separator : Punctuation} (h : Separated item separator xs as) (ha : a ∈ as) :
    ∃ ys, ys.Sublist xs ∧ item ys a := by
  induction h with
  | last h =>
    obtain rfl := List.mem_singleton.mp ha
    exact ⟨_, List.Sublist.refl _, h⟩
  | more h _ ih =>
    rcases List.mem_cons.mp ha with rfl | ha
    · exact ⟨_, List.sublist_append_left .., h⟩
    · obtain ⟨zs, hsub, hitem⟩ := ih ha
      exact ⟨zs, (hsub.cons _).trans (List.sublist_append_right ..), hitem⟩

theorem Repeated.exists_of_mem (h : Repeated item xs as) (ha : a ∈ as) : ∃ ys, ys.Sublist xs ∧ item ys a := by
  induction h with
  | none => cases ha
  | more h _ ih =>
    rcases List.mem_cons.mp ha with rfl | ha
    · exact ⟨_, List.sublist_append_left .., h⟩
    · obtain ⟨zs, hsub, hitem⟩ := ih ha
      exact ⟨zs, hsub.trans (List.sublist_append_right ..), hitem⟩

/-- What the phrase reads from any of the tokens is spelled. -/
def Spelling (make : α → Item) (xs : List Token) (phrase : Phrase α) : Prop :=
  ∀ ys a, ys.Sublist xs → phrase ys a → (make a).Spelled

/-- What the phrase reads from some of the tokens, but not from all of them, is spelled. -/
def SpellingInside (make : α → Item) (xs : List Token) (phrase : Phrase α) : Prop :=
  ∀ ys a, ys.Sublist xs → ys.length < xs.length → phrase ys a → (make a).Spelled

variable {make : α → Item} {phrase : Phrase α} {ys : List Token}

theorem Spelling.mono (h : Spelling make xs phrase) (hsub : ys.Sublist xs) : Spelling make ys phrase :=
  fun zs a hzs => h zs a (hzs.trans hsub)

theorem SpellingInside.mono (h : SpellingInside make xs phrase) (hsub : ys.Sublist xs) :
    SpellingInside make ys phrase :=
  fun zs a hzs hlength => h zs a (hzs.trans hsub) (Nat.lt_of_lt_of_le hlength hsub.length_le)

/-- Not the first of the tokens. -/
theorem SpellingInside.tail {t : Token} (h : SpellingInside make (t :: xs) phrase) : Spelling make xs phrase :=
  fun ys a hsub => h ys a (hsub.cons t) (Nat.lt_succ_of_le hsub.length_le)

/-- A phrase that reads all of the tokens reads fewer of them inside. -/
theorem spelling_of_inside
    (step : ∀ xs, AllNamed xs → SpellingInside make xs phrase → ∀ a, phrase xs a → (make a).Spelled)
    (hxs : AllNamed xs) : Spelling make xs phrase := by
  intro ys a hsub h
  induction hlength : ys.length using Nat.strongRecOn generalizing ys a with
  | ind n ih =>
    refine step ys (fun t ht => hxs t (hsub.subset ht)) (fun zs b hzs hless hb => ?_) a h
    exact ih zs.length (hlength ▸ hless) zs b (hzs.trans hsub) hb rfl

end

@[simp] theorem allNamed_append {xs ys : List Token} : AllNamed (xs ++ ys) ↔ AllNamed xs ∧ AllNamed ys :=
  List.forall_mem_append

@[simp] theorem allNamed_cons {t : Token} {xs : List Token} : AllNamed (t :: xs) ↔ t.Named ∧ AllNamed xs :=
  List.forall_mem_cons

theorem allNamed_sublist {xs ys : List Token} (h : AllNamed xs) (hsub : ys.Sublist xs) : AllNamed ys :=
  fun t ht => h t (hsub.subset ht)

/-! ### Types -/

theorem spelled_token (span : Span) : (Item.token span).Spelled :=
  Item.spelled_iff.mpr ⟨⟨List.forall_mem_nil _, List.forall_mem_nil _⟩, List.forall_mem_nil _⟩

theorem spelled_ofGenerics (names : Generics) : ∀ c ∈ Item.ofGenerics names, c.Spelled := by
  intro c hc
  obtain ⟨name, -, rfl⟩ := List.mem_map.mp hc
  exact spelled_token name.span

/-- Names of type parameters. -/
theorem TypeParameters.names {xs : List Token} {names : Generics} (h : TypeParameters xs names) (hxs : AllNamed xs) :
    ∀ name ∈ names.names, Token.isName name = true := by
  cases h with
  | none => exact List.forall_mem_nil _
  | @some xs names h =>
    intro name hname
    obtain ⟨a, ha, rfl⟩ := List.mem_map.mp hname
    obtain ⟨ys, hsub, hitem⟩ := h.exists_of_mem ha
    cases hitem with
    | mk =>
      simp only [allNamed_append, List.cons_append, allNamed_cons] at hxs
      exact hxs.2.1 _ (hsub.subset List.mem_cons_self)

section

variable {nested : Phrase TypeExpr} {xs : List Token}

theorem spelling_typedName (hxs : AllNamed xs) (hnested : Spelling .type xs nested) :
    Spelling .parameter xs (TypedName nested) := by
  intro ys p hsub h
  cases h with
  | @mk name zs type nameSpan span h =>
    have hname := hxs _ (hsub.subset List.mem_cons_self)
    have htype := hnested zs type (((List.sublist_cons_self _ _).trans (List.sublist_cons_self _ _)).trans hsub) h
    refine Item.spelled_iff.mpr ⟨⟨?_, List.forall_mem_nil _⟩, ?_⟩
    · exact List.forall_mem_singleton.mpr hname
    · simp only [Item.children, List.forall_mem_cons]
      exact ⟨spelled_token nameSpan, htype, List.forall_mem_nil _⟩

theorem ParameterGroup.spelled {ps : ParameterList (Parameter TypeExpr)} (h : ParameterGroup nested xs ps)
    (hxs : AllNamed xs) (hnested : SpellingInside .type xs nested) : ∀ c ∈ Item.ofParameters ps, c.Spelled := by
  cases h with
  | @fixed xs ps h =>
    intro c hc
    obtain ⟨p, hp, rfl⟩ := List.mem_map.mp hc
    obtain ⟨ys, hsub, hitem⟩ := h.exists_of_mem hp
    have hinside := hnested.tail.mono (List.sublist_append_left xs _)
    simp only [List.cons_append, allNamed_cons, allNamed_append] at hxs
    exact spelling_typedName hxs.2.1 hinside ys p hsub hitem
  | @variadic xs p h =>
    intro c hc
    obtain rfl := List.mem_singleton.mp hc
    have hinside := hnested.tail.mono ((List.sublist_append_left xs _).cons _)
    simp only [List.cons_append, allNamed_cons, allNamed_append] at hxs
    exact spelling_typedName hxs.2.2.1 hinside xs p (List.Sublist.refl _) h

theorem TypeArguments.spelled {types : List TypeExpr} (h : TypeArguments nested xs types)
    (hnested : SpellingInside .type xs nested) : ∀ t ∈ types, (Item.type t).Spelled := by
  cases h with
  | @mk xs types h =>
    intro t ht
    obtain ⟨ys, hsub, hitem⟩ := h.exists_of_mem ht
    exact hnested.tail ys t (hsub.trans (List.sublist_append_left xs _)) hitem

theorem PrimaryType.spelled {t : TypeExpr} (h : PrimaryType nested xs t) (hxs : AllNamed xs)
    (hnested : SpellingInside .type xs nested) : (Item.type t).Spelled := by
  cases h with
  | @named name site =>
    refine Item.spelled_iff.mpr ⟨⟨?_, List.forall_mem_nil _⟩, List.forall_mem_nil _⟩
    exact List.forall_mem_singleton.mpr (hxs _ List.mem_cons_self)
  | @applied name ys types site h =>
    refine Item.spelled_iff.mpr ⟨⟨?_, List.forall_mem_nil _⟩, ?_⟩
    · exact List.forall_mem_singleton.mpr (hxs _ List.mem_cons_self)
    · exact List.forall_mem_map.mpr (h.spelled (hnested.mono (List.sublist_cons_self _ _)))
  | @object ys fields site h =>
    simp only [List.cons_append, allNamed_cons, allNamed_append] at hxs
    have hfields : ∀ field ∈ fields, Token.isName field.1 = true ∧ (Item.type field.2).Spelled := by
      intro field hfield
      obtain ⟨zs, hsub, hitem⟩ := h.exists_of_mem hfield
      cases hitem with
      | @mk name ws type h =>
        refine ⟨hxs.2.1 _ (hsub.subset List.mem_cons_self), ?_⟩
        refine hnested.tail ws type (List.Sublist.trans ?_ (List.sublist_append_left ys _)) h
        exact ((List.sublist_cons_self _ _).trans (List.sublist_cons_self _ _)).trans hsub
    refine Item.spelled_iff.mpr ⟨⟨?_, List.forall_mem_nil _⟩, ?_⟩
    · exact List.forall_mem_map.mpr fun field hfield => (hfields field hfield).1
    · exact List.forall_mem_map.mpr fun field hfield => (hfields field hfield).2
  | @function ys zs ws names ps result site hnames hps hresult =>
    simp only [List.append_assoc, allNamed_cons, allNamed_append] at hxs
    have hgroup := hps.spelled hxs.2.1
      (hnested.mono ((List.sublist_append_right ys zs).trans (List.sublist_append_left _ _)))
    have hshort : ws.length < (ys ++ zs ++ .mark .arrow :: ws).length := by
      simp only [List.length_append, List.length_cons]
      omega
    have hlast := hnested ws result ((List.sublist_cons_self _ _).trans (List.sublist_append_right _ _)) hshort hresult
    refine Item.spelled_iff.mpr ⟨⟨hnames.names hxs.1, List.forall_mem_nil _⟩, ?_⟩
    simp only [Item.children, TypeExpr.items, List.forall_mem_append, List.forall_mem_cons]
    exact ⟨⟨spelled_ofGenerics names, hgroup⟩, hlast, List.forall_mem_nil _⟩
  | @parens ys type h => exact hnested.tail ys t (List.sublist_append_left ys _) h

theorem NullableType.spelled {t : TypeExpr} (h : NullableType nested xs t) (hxs : AllNamed xs)
    (hnested : SpellingInside .type xs nested) : (Item.type t).Spelled := by
  induction h with
  | primary h => exact h.spelled hxs hnested
  | @nullable ys type site _ ih =>
    have hinner := ih (allNamed_append.mp hxs).1 (hnested.mono (List.sublist_append_left ys _))
    refine Item.spelled_iff.mpr ⟨⟨List.forall_mem_nil _, List.forall_mem_nil _⟩, ?_⟩
    exact List.forall_mem_singleton.mpr hinner

end

theorem spelling_type {xs : List Token} (hxs : AllNamed xs) : Spelling .type xs TypePhrase :=
  spelling_of_inside (fun _ hys hinside _ ⟨h⟩ => h.spelled hys hinside) hxs

/-- What reads from any of the tokens reads from fewer of them, too. -/
theorem Spelling.inside {α : Type} {make : α → Item} {xs : List Token} {phrase : Phrase α}
    (h : Spelling make xs phrase) : SpellingInside make xs phrase := fun ys a hsub _ => h ys a hsub

theorem Annotation.spelled {xs : List Token} {type : Option TypeExpr} (h : Annotation xs type) (hxs : AllNamed xs) :
    ∀ c ∈ Item.ofType? type, c.Spelled := by
  cases h with
  | none => exact List.forall_mem_nil _
  | @some xs type h =>
    have htype := spelling_type (allNamed_cons.mp hxs).2 xs type (List.Sublist.refl _) h
    exact List.forall_mem_singleton.mpr htype

/-! ### Expressions -/

/-- An expression with names in it whose parts are spelled. -/
theorem spelled_expr {e : Expr} (hnames : ∀ name ∈ e.names, Token.isName name = true)
    (hdigits : ∀ digits ∈ e.digits, Token.IsDigits digits.toList) (h : ∀ c ∈ e.items, c.Spelled) :
    (Item.expr e).Spelled :=
  Item.spelled_iff.mpr ⟨⟨hnames, hdigits⟩, h⟩

/-- An expression in which no name stands, but for those in its parts. -/
theorem spelled_plain {e : Expr} (hnames : e.names = []) (hdigits : e.digits = []) (h : ∀ c ∈ e.items, c.Spelled) :
    (Item.expr e).Spelled :=
  spelled_expr (hnames ▸ List.forall_mem_nil _) (hdigits ▸ List.forall_mem_nil _) h

/-- An expression with one name, and one part. -/
theorem spelled_named {e operand : Expr} {name : String} (hnames : e.names = [name]) (hdigits : e.digits = [])
    (hitems : e.items = [.expr operand]) (hname : Token.isName name = true) (h : (Item.expr operand).Spelled) :
    (Item.expr e).Spelled :=
  spelled_expr (hnames ▸ List.forall_mem_singleton.mpr hname) (hdigits ▸ List.forall_mem_nil _)
    (hitems ▸ List.forall_mem_singleton.mpr h)

section

variable {op : Token → BinaryOp → Prop} {operand nested : Phrase Expr} {xs : List Token}

theorem spelled_binary {site : Site} {o : BinaryOp} {lhs rhs : Expr} (hlhs : (Item.expr lhs).Spelled)
    (hrhs : (Item.expr rhs).Spelled) : (Item.expr (.binary site o lhs rhs)).Spelled :=
  spelled_plain rfl rfl (List.forall_mem_cons.mpr ⟨hlhs, List.forall_mem_singleton.mpr hrhs⟩)

theorem Chain.spelled {e : Expr} (h : Chain op operand xs e) (hoperand : Spelling .expr xs operand) :
    (Item.expr e).Spelled := by
  induction h with
  | operand h => exact hoperand _ _ (List.Sublist.refl _) h
  | more _ _ hrhs ih =>
    refine spelled_binary (ih (hoperand.mono (List.sublist_append_left ..))) ?_
    exact hoperand _ _ ((List.sublist_cons_self ..).trans (List.sublist_append_right ..)) hrhs

theorem Spelling.chain (h : Spelling .expr xs operand) : Spelling .expr xs (Chain op operand) :=
  fun _ _ hsub hchain => hchain.spelled (h.mono hsub)

theorem Spelling.comparison (h : Spelling .expr xs operand) : Spelling .expr xs (Comparison operand) := by
  intro ys e hsub hcomparison
  cases hcomparison with
  | operand ho => exact h _ _ hsub ho
  | compare hlhs _ hrhs =>
    refine spelled_binary (h _ _ ((List.sublist_append_left ..).trans hsub) hlhs) ?_
    exact h _ _ (((List.sublist_cons_self ..).trans (List.sublist_append_right ..)).trans hsub) hrhs

theorem Tags.spelled {e : Expr} (h : Tags operand xs e) (hxs : AllNamed xs) (hoperand : Spelling .expr xs operand) :
    (Item.expr e).Spelled := by
  induction h with
  | operand h => exact hoperand _ _ (List.Sublist.refl _) h
  | tagged _ ih | hasTag _ ih =>
    simp only [allNamed_append, allNamed_cons] at hxs
    exact spelled_named rfl rfl rfl hxs.2.2.1 (ih hxs.1 (hoperand.mono (List.sublist_append_left ..)))

theorem Spelling.tags (hxs : AllNamed xs) (h : Spelling .expr xs operand) : Spelling .expr xs (Tags operand) :=
  fun _ _ hsub htags => htags.spelled (allNamed_sublist hxs hsub) (h.mono hsub)

theorem Unary.spelled {e : Expr} (h : Unary operand xs e) (hoperand : Spelling .expr xs operand) :
    (Item.expr e).Spelled := by
  induction h with
  | operand h => exact hoperand _ _ (List.Sublist.refl _) h
  | not _ ih | negate _ ih | untag _ ih =>
    exact spelled_plain rfl rfl (List.forall_mem_singleton.mpr (ih (hoperand.mono (List.sublist_cons_self ..))))

theorem Spelling.unary (h : Spelling .expr xs operand) : Spelling .expr xs (Unary operand) :=
  fun _ _ hsub hunary => hunary.spelled (h.mono hsub)

theorem Arguments.spelled {arguments : List Expr} (h : Arguments nested xs arguments)
    (hnested : SpellingInside .expr xs nested) : ∀ c ∈ arguments.map Item.expr, c.Spelled := by
  cases h with
  | @mk ys arguments h =>
    refine List.forall_mem_map.mpr fun a ha => ?_
    obtain ⟨zs, hsub, hitem⟩ := h.exists_of_mem ha
    exact hnested.tail zs a (hsub.trans (List.sublist_append_left ys _)) hitem

theorem spelling_valueEntry (hxs : AllNamed xs) (hnested : Spelling .expr xs nested) :
    Spelling .field xs (ValueEntry nested) := by
  intro ys f hsub h
  cases h with
  | @mk name zs value span h =>
    refine Item.spelled_iff.mpr ⟨⟨?_, List.forall_mem_nil _⟩, ?_⟩
    · exact List.forall_mem_singleton.mpr (hxs _ (hsub.subset List.mem_cons_self))
    · exact List.forall_mem_singleton.mpr
        (hnested zs value (((List.sublist_cons_self _ _).trans (List.sublist_cons_self _ _)).trans hsub) h)

theorem spelling_armEntry (hxs : AllNamed xs) (hnested : Spelling .expr xs nested) :
    Spelling .arm xs (ArmEntry nested) := by
  intro ys arm hsub h
  cases h with
  | @mk tag binding zs body tagSpan bindingSpan span h =>
    have hnamed := allNamed_sublist hxs hsub
    simp only [allNamed_cons] at hnamed
    have hbehind := (List.sublist_cons_self (.mark .fatArrow) zs).trans
      ((List.sublist_cons_self (.ident binding) _).trans (List.sublist_cons_self (.ident tag) _))
    refine Item.spelled_iff.mpr ⟨⟨?_, List.forall_mem_nil _⟩, ?_⟩
    · exact List.forall_mem_cons.mpr ⟨hnamed.1, List.forall_mem_singleton.mpr hnamed.2.1⟩
    · simp only [Item.children, List.forall_mem_cons]
      exact ⟨spelled_token tagSpan, spelled_token bindingSpan, hnested zs body (hbehind.trans hsub) h,
        List.forall_mem_nil _⟩

theorem Primary.spelled {e : Expr} (h : Primary nested xs e) (hxs : AllNamed xs)
    (hnested : SpellingInside .expr xs nested) : (Item.expr e).Spelled := by
  cases h with
  | number | trueWord | falseWord | null => exact spelled_plain rfl rfl (List.forall_mem_nil _)
  | bigInteger =>
    have hdigits := hxs _ List.mem_cons_self
    exact spelled_expr (List.forall_mem_nil _) (List.forall_mem_singleton.mpr hdigits) (List.forall_mem_nil _)
  | reference =>
    have hname := hxs _ List.mem_cons_self
    exact spelled_expr (List.forall_mem_singleton.mpr hname) (List.forall_mem_nil _) (List.forall_mem_nil _)
  | @parens ys e h => exact hnested.tail ys e (List.sublist_append_left ys _) h
  | @object ys fields site h =>
    simp only [List.cons_append, allNamed_cons, allNamed_append] at hxs
    refine spelled_plain rfl rfl (List.forall_mem_map.mpr fun f hf => ?_)
    obtain ⟨zs, hsub, hitem⟩ := h.exists_of_mem hf
    exact spelling_valueEntry hxs.2.1 (hnested.tail.mono (List.sublist_append_left ys _)) zs f hsub hitem
  | @conditional ys zs ws c t e site hc ht he =>
    have hall := hnested.tail
    refine spelled_plain rfl rfl ?_
    simp only [Expr.items, List.forall_mem_cons]
    refine ⟨hall ys c ?_ hc, hall zs t ?_ ht, hall ws e ?_ he, List.forall_mem_nil _⟩
    · exact (List.sublist_append_left ys _).trans (List.sublist_append_left _ _)
    · exact ((List.sublist_cons_self _ zs).trans (List.sublist_append_right ys _)).trans (List.sublist_append_left _ _)
    · exact (List.sublist_cons_self _ ws).trans (List.sublist_append_right _ _)
  | @lambda ys zs ws us names ps result body site hnames hps hresult hbody =>
    have hall := hnested.tail
    simp only [List.cons_append, allNamed_cons, allNamed_append] at hxs
    obtain ⟨-, ⟨⟨hys, hzs⟩, hws⟩, hus⟩ := hxs
    refine spelled_expr (hnames.names hys) (List.forall_mem_nil _) ?_
    simp only [Expr.items, List.forall_mem_append, List.forall_mem_cons]
    refine ⟨⟨⟨spelled_ofGenerics names, hps.spelled hzs (spelling_type hzs).inside⟩, hresult.spelled hws⟩, ?_,
      List.forall_mem_nil _⟩
    exact hall us body ((List.sublist_cons_self _ us).trans (List.sublist_append_right _ _)) hbody
  | @cases ys zs scrutinee arms site hscrutinee harms =>
    have hall := hnested.tail
    simp only [List.cons_append, List.append_assoc, allNamed_cons, allNamed_append] at hxs
    obtain ⟨-, hys, -, hzs, -⟩ := hxs
    have hsub : zs.Sublist (ys ++ .mark .leftBrace :: zs ++ [.mark .rightBrace]) :=
      ((List.sublist_cons_self _ zs).trans (List.sublist_append_right ys _)).trans (List.sublist_append_left _ _)
    refine spelled_plain rfl rfl (List.forall_mem_cons.mpr ⟨?_, List.forall_mem_map.mpr fun arm harm => ?_⟩)
    · refine hall ys scrutinee ?_ hscrutinee
      exact (List.sublist_append_left ys _).trans (List.sublist_append_left _ _)
    · obtain ⟨ws, hws, hitem⟩ := harms.exists_of_mem harm
      exact spelling_armEntry hzs (hall.mono hsub) ws arm hws hitem

theorem Access.spelled {e : Expr} (h : Access nested xs e) (hxs : AllNamed xs)
    (hnested : SpellingInside .expr xs nested) : (Item.expr e).Spelled := by
  induction h with
  | primary h => exact h.spelled hxs hnested
  | field _ ih =>
    simp only [allNamed_append, allNamed_cons] at hxs
    exact spelled_named rfl rfl rfl hxs.2.2.1 (ih hxs.1 (hnested.mono (List.sublist_append_left ..)))
  | call _ harguments ih =>
    obtain ⟨hcallee, -⟩ := allNamed_append.mp hxs
    refine spelled_plain rfl rfl ?_
    simp only [Expr.items, List.map_nil, List.cons_append, List.nil_append, List.forall_mem_cons]
    exact ⟨ih hcallee (hnested.mono (List.sublist_append_left ..)),
      harguments.spelled (hnested.mono (List.sublist_append_right ..))⟩
  | instantiate _ htypes harguments ih =>
    simp only [allNamed_append] at hxs
    obtain ⟨hcallee, htokens, -⟩ := hxs
    refine spelled_plain rfl rfl ?_
    simp only [Expr.items, List.cons_append, List.forall_mem_cons, List.forall_mem_append]
    refine ⟨ih hcallee (hnested.mono (List.sublist_append_left ..)), ?_, ?_⟩
    · exact List.forall_mem_map.mpr (htypes.spelled (spelling_type htokens).inside)
    · exact harguments.spelled
        (hnested.mono ((List.sublist_append_right ..).trans (List.sublist_append_right ..)))

theorem SpellingInside.access (hxs : AllNamed xs) (h : SpellingInside .expr xs nested) :
    Spelling .expr xs (Access nested) :=
  fun _ _ hsub haccess => haccess.spelled (allNamed_sublist hxs hsub) (h.mono hsub)

end

theorem spelling_expr {xs : List Token} (hxs : AllNamed xs) : Spelling .expr xs ExprPhrase := by
  refine spelling_of_inside (fun ys hys hinside e h => ?_) hxs
  cases h with
  | mk h =>
    have hsum : Spelling .expr ys (Sum ExprPhrase) := (hinside.access hys).unary.chain.chain
    have hall : Spelling .expr ys (Disjunction ExprPhrase) := (hsum.tags hys).comparison.chain.chain
    exact hall ys e (List.Sublist.refl ys) h

/-! ### Declarations -/

theorem spelling_unionEntry {xs : List Token} (hxs : AllNamed xs) : Spelling .alternative xs UnionEntry := by
  intro ys a hsub h
  cases h with
  | @mk tag zs payload span h =>
    have hnamed := allNamed_sublist hxs hsub
    simp only [allNamed_cons] at hnamed
    refine Item.spelled_iff.mpr ⟨⟨?_, List.forall_mem_nil _⟩, ?_⟩
    · exact List.forall_mem_singleton.mpr hnamed.1
    · exact List.forall_mem_singleton.mpr (spelling_type hnamed.2.2 zs payload (List.Sublist.refl _) h)

section

variable {nested : Phrase Body} {xs : List Token}

theorem FunctionBlock.spelled {b : Body} (h : FunctionBlock nested xs b) (hxs : AllNamed xs)
    (hnested : SpellingInside .body xs nested) : (Item.body b).Spelled := by
  cases h with
  | @expression ys e span h =>
    refine Item.spelled_iff.mpr ⟨⟨List.forall_mem_nil _, List.forall_mem_nil _⟩, ?_⟩
    exact List.forall_mem_singleton.mpr (spelling_expr (allNamed_cons.mp hxs).2 ys e (List.Sublist.refl _) h)
  | @block ys b h => exact hnested.tail ys b (List.sublist_append_left ys _) h

/-- A declaration with names in it whose parts are spelled. -/
theorem spelled_declaration {d : Declaration} (hnames : ∀ name ∈ d.names, Token.isName name = true)
    (h : ∀ c ∈ d.items, c.Spelled) : (Item.declaration d).Spelled :=
  Item.spelled_iff.mpr ⟨⟨hnames, List.forall_mem_nil _⟩, h⟩

theorem Declared.spelled {d : Declaration} (h : Declared nested xs d) (hxs : AllNamed xs)
    (hnested : SpellingInside .body xs nested) : (Item.declaration d).Spelled := by
  cases h with
  | @value name ys zs type e nameSpan span htype hvalue =>
    simp only [List.cons_append, allNamed_cons, allNamed_append] at hxs
    obtain ⟨-, hname, hys, -, hzs⟩ := hxs
    refine spelled_declaration (List.forall_mem_singleton.mpr hname) ?_
    simp only [Declaration.items, List.forall_mem_append, List.forall_mem_cons]
    exact ⟨⟨spelled_token nameSpan, htype.spelled hys⟩, spelling_expr hzs zs e (List.Sublist.refl _) hvalue,
      List.forall_mem_nil _⟩
  | @function name ys zs ws us names ps result body nameSpan span hnames hps hresult hbody =>
    have hinside := hnested.mono (List.sublist_append_right (.keyword .defWord :: .ident name :: ys ++ zs ++ ws) us)
    simp only [List.cons_append, List.append_assoc, allNamed_cons, allNamed_append] at hxs
    obtain ⟨-, hname, hys, hzs, hws, hus⟩ := hxs
    refine spelled_declaration (List.forall_mem_cons.mpr ⟨hname, hnames.names hys⟩) ?_
    simp only [Declaration.items, List.forall_mem_append, List.forall_mem_cons]
    exact ⟨⟨⟨⟨spelled_token nameSpan, spelled_ofGenerics names⟩, hps.spelled hzs (spelling_type hzs).inside⟩,
      hresult.spelled hws⟩, hbody.spelled hus hinside, List.forall_mem_nil _⟩
  | @external name ys zs ws names ps result nameSpan span hnames hps hresult =>
    simp only [List.cons_append, List.append_assoc, allNamed_cons, allNamed_append] at hxs
    obtain ⟨-, -, hname, hys, hzs, -, hws⟩ := hxs
    refine spelled_declaration (List.forall_mem_cons.mpr ⟨hname, hnames.names hys⟩) ?_
    simp only [Declaration.items, List.forall_mem_append, List.forall_mem_cons]
    exact ⟨⟨⟨spelled_token nameSpan, spelled_ofGenerics names⟩, hps.spelled hzs (spelling_type hzs).inside⟩,
      spelling_type hws ws result (List.Sublist.refl _) hresult, List.forall_mem_nil _⟩
  | @typeAlias name ys zs names target nameSpan span hnames htarget =>
    simp only [List.cons_append, allNamed_cons, allNamed_append] at hxs
    obtain ⟨-, hname, hys, -, hzs⟩ := hxs
    refine spelled_declaration (List.forall_mem_cons.mpr ⟨hname, hnames.names hys⟩) ?_
    simp only [Declaration.items, List.forall_mem_append, List.forall_mem_cons]
    exact ⟨⟨spelled_token nameSpan, spelled_ofGenerics names⟩,
      spelling_type hzs zs target (List.Sublist.refl _) htarget, List.forall_mem_nil _⟩
  | @union name ys zs names alternatives nameSpan span hnames halternatives =>
    simp only [List.cons_append, allNamed_cons, allNamed_append] at hxs
    obtain ⟨-, hname, hys, -, hzs⟩ := hxs
    refine spelled_declaration (List.forall_mem_cons.mpr ⟨hname, hnames.names hys⟩) ?_
    simp only [Declaration.items, List.forall_mem_append, List.forall_mem_cons]
    refine ⟨⟨spelled_token nameSpan, spelled_ofGenerics names⟩, List.forall_mem_map.mpr fun a ha => ?_⟩
    obtain ⟨ws, hsub, hitem⟩ := halternatives.exists_of_mem ha
    exact spelling_unionEntry hzs ws a hsub hitem

theorem Block.spelled {b : Body} (h : Block nested xs b) (hxs : AllNamed xs)
    (hnested : SpellingInside .body xs nested) : (Item.body b).Spelled := by
  cases h with
  | @mk ys zs declarations result span hdeclarations hresult =>
    have hinside := hnested.mono (List.sublist_append_left ys (.keyword .returnWord :: zs))
    simp only [allNamed_cons, allNamed_append] at hxs
    obtain ⟨hys, -, hzs⟩ := hxs
    refine Item.spelled_iff.mpr ⟨⟨List.forall_mem_nil _, List.forall_mem_nil _⟩, ?_⟩
    simp only [Item.children, Body.items, List.forall_mem_append]
    refine ⟨List.forall_mem_map.mpr fun d hd => ?_, List.forall_mem_singleton.mpr ?_⟩
    · obtain ⟨ws, hsub, hitem⟩ := hdeclarations.exists_of_mem hd
      exact hitem.spelled (allNamed_sublist hys hsub) (hinside.mono hsub)
    · exact spelling_expr hzs zs result (List.Sublist.refl _) hresult

end

/-- In a body that is read from tokens with names in the places of names there are names in the places of names. -/
theorem spelling_body {xs : List Token} (hxs : AllNamed xs) : Spelling .body xs BodyPhrase := by
  refine spelling_of_inside (fun ys hys hinside b h => ?_) hxs
  cases h with
  | mk h => exact h.spelled hys hinside

end Grammar

/-- A tree that is read without an error has names in the places of names. -/
theorem spelled_parse {source : String} (h : (parse source).errors = []) :
    (Item.body (parse source).tree.body).Spelled := by
  have herrors : (Parse.ofTokens (scan source).tokens).errors = [] := (List.append_eq_nil_iff.mp h).2
  have hphrase := Parse.bodyPhrase_ofTokens herrors
  exact Grammar.spelling_body (allNamed_scan source) _ _ (List.Sublist.refl _) hphrase

end Sable
