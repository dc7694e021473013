import Mathlib.Data.List.Forall2
import Sable.Proofs.Reader.Types
import Sable.Proofs.Ty.Written

/-! Reading the tokens of a type gives an expression that spells the type.

It is told what a reader gives and which tokens it leaves, for the tokens of the text of a type can be read in
one way only. -/
namespace Sable

/-! ## Spelling -/

namespace Ty

mutual

/-- The expression spells the type: it is built alike and has the same names. -/
def SpelledBy : Ty → TypeExpr → Prop
  | number, e => ∃ site, e = .named site "Number" []
  | boolean, e => ∃ site, e = .named site "Boolean" []
  | bigInteger, e => ∃ site, e = .named site "BigInteger" []
  | null, e => ∃ site, e = .named site "Null" []
  | list a, e => ∃ site inner, e = .named site "List" [inner] ∧ a.SpelledBy inner
  | sequence a, e => ∃ site inner, e = .named site "Sequence" [inner] ∧ a.SpelledBy inner
  | object fields, e => ∃ site entries, e = .object site entries ∧ FieldsSpelledBy fields entries
  | function vs ps result, e =>
    ∃ site names parameters inner, e = .function site names parameters inner ∧
      names.map (·.value) = vs.map (·.name) ∧ ParametersSpelledBy ps parameters ∧ result.SpelledBy inner
  | nullable a, e => ∃ site inner, e = .nullable site inner ∧ a.SpelledBy inner
  | var v, e => ∃ site, e = .named site v.name []
  | union .., _ | tagged .., _ => False

def FieldsSpelledBy : List (String × Ty) → List (String × TypeExpr) → Prop
  | [], entries => entries = []
  | (name, a) :: rest, entries =>
    ∃ e more, entries = (name, e) :: more ∧ a.SpelledBy e ∧ FieldsSpelledBy rest more

def ParametersSpelledBy : ParameterList (String × Ty) → ParameterList (Parameter TypeExpr) → Prop
  | .fixed ps, .fixed parameters => FieldsSpelledBy ps (parameters.map fun p => (p.name.value, p.type))
  | .variadic (name, a), .variadic p => p.name.value = name ∧ a.SpelledBy p.type
  | _, _ => False

end

theorem fieldsSpelledBy_of_forall₂ {fields : List (String × Ty)} {entries : List (String × TypeExpr)}
    (h : List.Forall₂ (fun field entry => entry.1 = field.1 ∧ field.2.SpelledBy entry.2) fields entries) :
    FieldsSpelledBy fields entries := by
  induction h with
  | nil => rfl
  | @cons field entry _ _ hfirst _ ih =>
      obtain ⟨name, a⟩ := field
      obtain ⟨name', e⟩ := entry
      obtain ⟨rfl, hspelled⟩ := hfirst
      exact ⟨e, _, rfl, hspelled, ih⟩

end Ty

namespace Reader

open Ty Grammar

variable {α β : Type} {s : State}

/-- In `t` no more has happened since `s` than that tokens were taken and nodes were made. -/
structure State.LeadsTo (s t : State) : Prop where
  rest : t.rest <:+ s.rest
  finish : t.finish = s.finish
  errors : t.errors = s.errors

theorem State.LeadsTo.refl (s : State) : s.LeadsTo s := ⟨List.suffix_refl _, rfl, rfl⟩

theorem State.LeadsTo.trans {s t u : State} (h : s.LeadsTo t) (h' : t.LeadsTo u) : s.LeadsTo u :=
  ⟨h'.rest.trans h.rest, h'.finish.trans h.finish, h'.errors.trans h.errors⟩

theorem State.leadsTo_advance (s : State) : s.LeadsTo s.advance := by
  obtain ⟨rest, previous, finish, nodes, errors⟩ := s
  cases rest with
  | nil => exact .refl _
  | cons t rest => exact ⟨List.suffix_cons t rest, rfl, rfl⟩

/-- From the state `s` the reader gives something good, puts down no error and leaves the tokens `ys`. -/
def ReturnsAt (s : State) (r : Reader α) (good : α → Prop) (ys : List Token) : Prop :=
  ∃ a t, r s = (some a, t) ∧ good a ∧ t.tokens = ys ∧ s.LeadsTo t

variable {r : Reader α} {next : α → Reader β} {good : α → Prop} {good' : β → Prop} {xs ys : List Token}

theorem ReturnsAt.of_eq {r' : Reader α} (h : ReturnsAt s r good ys) (hr : r' s = r s) :
    ReturnsAt s r' good ys := by
  unfold ReturnsAt
  rw [hr]
  exact h

theorem ReturnsAt.bind (h : ReturnsAt s r good xs)
    (hnext : ∀ a t, good a → t.tokens = xs → ReturnsAt t (next a) good' ys) :
    ReturnsAt s (r >>= next) good' ys := by
  obtain ⟨a, t, hr, ha, ht, hst⟩ := h
  obtain ⟨b, u, hb, hgood, hu, htu⟩ := hnext a t ha ht
  refine ⟨b, u, ?_, hgood, hu, hst.trans htu⟩
  rw [run_bind, hr]
  exact hb

theorem returnsAt_pure {a : α} (ha : good a) (hs : s.tokens = ys) : ReturnsAt s (pure a) good ys :=
  ⟨a, s, rfl, ha, hs, .refl s⟩

theorem returnsAt_bounded {r : Nat → Reader α} (h : ReturnsAt s (r s.tokens.length) good ys) :
    ReturnsAt s (bounded r) good ys := by
  rw [← State.length_rest] at h
  exact h.of_eq rfl

theorem returnsAt_pure_bind {a : α} (h : ReturnsAt s (next a) good' ys) : ReturnsAt s (pure a >>= next) good' ys :=
  h.of_eq rfl

theorem returnsAt_here {next : Span → Reader β} (h : ReturnsAt s (next s.here) good' ys) :
    ReturnsAt s (here >>= next) good' ys := h.of_eq rfl

theorem returnsAt_peek {t : Token} {next : Option Token → Reader β} (hs : s.tokens = t :: xs)
    (h : ReturnsAt s (next (some t)) good' ys) : ReturnsAt s (peek >>= next) good' ys := by
  have hhead : s.rest.head?.map (·.value) = some t := by
    rw [← List.head?_map]
    exact congrArg List.head? hs
  refine h.of_eq ?_
  rw [run_bind, peek, hhead]

theorem returnsAt_advance {t : Token} {next : Unit → Reader β} (hs : s.tokens = t :: xs)
    (h : ∀ u, u.tokens = xs → ReturnsAt u (next ()) good' ys) : ReturnsAt s (advance >>= next) good' ys := by
  obtain ⟨b, u, hb, hgood, hu, htu⟩ := h s.advance (State.tokens_advance_of_eq hs)
  exact ⟨b, u, hb, hgood, hu, s.leadsTo_advance.trans htu⟩

theorem returnsAt_token?_of_eq {token : Token} {yes no : Reader β} (hs : s.tokens = token :: xs)
    (h : ∀ u, u.tokens = xs → ReturnsAt u yes good' ys) :
    ReturnsAt s (do if ← token? token then yes else no) good' ys := by
  have hadvance : ReturnsAt s (advance >>= fun _ => yes) good' ys := returnsAt_advance hs h
  refine hadvance.of_eq ?_
  rw [run_bind, run_token?_of_eq (by rw [hs]; rfl)]
  rfl

theorem returnsAt_token?_of_ne {token : Token} {yes no : Reader β} (hs : s.tokens.head? ≠ some token)
    (h : ReturnsAt s no good' ys) : ReturnsAt s (do if ← token? token then yes else no) good' ys := by
  refine h.of_eq ?_
  rw [run_bind, run_token?_of_ne hs]
  rfl

theorem returnsAt_atParameters {t : Token} {next : Bool → Reader β} (hs : s.tokens = t :: xs)
    (h : ReturnsAt s (next (opensGroup xs)) good' ys) : ReturnsAt s (atParameters >>= next) good' ys := by
  refine h.of_eq ?_
  have hopens : opensParameters s.rest = opensGroup xs := by
    rw [opensParameters_eq, ← State.tokens, hs]
    rfl
  rw [← hopens]
  rfl

theorem returnsAt_mark {p : Punctuation} {next : Unit → Reader β} (hs : s.tokens = .mark p :: xs)
    (h : ∀ u, u.tokens = xs → ReturnsAt u (next ()) good' ys) : ReturnsAt s (mark p >>= next) good' ys := by
  have hmark : ReturnsAt s (mark p) (fun _ => True) xs :=
    returnsAt_token?_of_eq hs fun u hu => returnsAt_pure trivial hu
  exact hmark.bind fun _ u _ hu => h u hu

theorem returnsAt_ident {name : String} (hs : s.tokens = .ident name :: xs) :
    ReturnsAt s ident (·.value = name) xs :=
  ⟨_, _, run_ident hs, rfl, State.tokens_advance_of_eq hs, s.leadsTo_advance⟩

theorem returnsAt_atClose_of_eq {close : Punctuation} {yes no : Reader β} (hs : s.tokens = .mark close :: xs)
    (h : ReturnsAt s yes good' ys) : ReturnsAt s (do if ← atClose close then yes else no) good' ys := by
  refine h.of_eq ?_
  rw [run_bind, run_atClose, hs]
  simp

theorem returnsAt_atClose_of_ident {close : Punctuation} {yes no : Reader β} {name : String}
    (hs : s.tokens = .ident name :: xs) (h : ReturnsAt s no good' ys) :
    ReturnsAt s (do if ← atClose close then yes else no) good' ys := by
  refine h.of_eq ?_
  rw [run_bind, run_atClose, hs]
  simp

theorem returnsAt_newType {make : Site → TypeExpr} {start : Span} {good : TypeExpr → Prop}
    (h : ∀ site, good (make site)) (hs : s.tokens = ys) :
    ReturnsAt s (do newType (← spanFrom start) make) good ys :=
  ⟨_, _, rfl, h _, hs, List.suffix_refl _, rfl, rfl⟩

/-! ## Lists -/

section

variable {ι : Type} {item : Reader α} {ts : ι → List Token} {matched : ι → α → Prop} {is : List ι}
  {limit : Nat}

theorem head?_of_flatMap (tss : List (List Token)) (ys : List Token) :
    tss.flatMap (.mark .comma :: ·) ++ ys = ys ∨
      (tss.flatMap (.mark .comma :: ·) ++ ys).head? = some (.mark .comma) := by
  cases tss with
  | nil => exact .inl rfl
  | cons xs tss => exact .inr rfl

section

variable (hitem : ∀ i ∈ is, ∀ s zs, s.tokens.length ≤ limit → s.tokens = ts i ++ zs →
    zs = ys ∨ zs.head? = some (.mark .comma) → ReturnsAt s item (matched i) zs)
  (hys : ys.head? ≠ some (.mark .comma))
include hitem hys

theorem returnsAt_moreUpTo {count : Nat} (hcount : s.tokens.length ≤ count) (hlimit : s.tokens.length ≤ limit)
    (hs : s.tokens = (is.map ts).flatMap (.mark .comma :: ·) ++ ys) :
    ReturnsAt s (moreUpTo .comma item count) (List.Forall₂ matched is) ys := by
  induction is generalizing s count with
  | nil =>
      have hdone : s.tokens = ys := hs
      cases count with
      | zero => exact returnsAt_pure .nil hdone
      | succ count => exact returnsAt_token?_of_ne (hdone ▸ hys) (returnsAt_pure .nil hdone)
  | cons i is ih =>
      rw [List.forall_mem_cons] at hitem
      have hs' : s.tokens = .mark .comma :: (ts i ++ ((is.map ts).flatMap (.mark .comma :: ·) ++ ys)) := by
        simpa using hs
      rw [hs', List.length_cons, List.length_append] at hcount hlimit
      obtain ⟨count, rfl⟩ : ∃ n, count = n + 1 := ⟨count - 1, by omega⟩
      apply returnsAt_token?_of_eq hs'
      intro t ht
      have hfirst := hitem.1 t _ (by rw [ht, List.length_append]; omega) ht (head?_of_flatMap _ _)
      refine hfirst.bind fun a u ha hu => ?_
      have hcount' : u.tokens.length ≤ count := by rw [hu]; omega
      have hrest := ih hitem.2 hcount' (by rw [hu]; omega) hu
      exact hrest.bind fun as v has hv => returnsAt_pure (.cons ha has) hv

end

theorem returnsAt_separated {i : ι}
    (hitem : ∀ j ∈ i :: is, ∀ s zs, s.tokens.length ≤ limit → s.tokens = ts j ++ zs →
      zs = ys ∨ zs.head? = some (.mark .comma) → ReturnsAt s item (matched j) zs)
    (hys : ys.head? ≠ some (.mark .comma)) (hlimit : s.tokens.length ≤ limit)
    (hs : s.tokens = separate ((i :: is).map ts) ++ ys) :
    ReturnsAt s (separated .comma item) (List.Forall₂ matched (i :: is)) ys := by
  rw [List.map_cons, separate_cons, List.append_assoc] at hs
  rw [List.forall_mem_cons] at hitem
  refine (hitem.1 s _ hlimit hs (head?_of_flatMap _ _)).bind fun a t ha ht => ?_
  have hlength : t.tokens.length ≤ limit := by
    rw [hs, List.length_append] at hlimit
    rw [ht]
    omega
  have hmore := returnsAt_moreUpTo hitem.2 hys (Nat.le_refl _) hlength ht
  exact (returnsAt_bounded hmore).bind fun as u has hu => returnsAt_pure (.cons ha has) hu

section

variable {close : Punctuation} (hclose : close ≠ .comma)
  (hitem : ∀ i ∈ is, ∀ s zs, s.tokens.length ≤ limit → s.tokens = ts i ++ zs →
    zs.head? = some (.mark .comma) ∨ zs.head? = some (.mark close) → ReturnsAt s item (matched i) zs)
  (hstart : ∀ i ∈ is, ∃ name rest, ts i = .ident name :: rest)
include hclose hitem hstart

theorem returnsAt_itemsUpTo {count : Nat} (hcount : s.tokens.length ≤ count) (hlimit : s.tokens.length ≤ limit)
    (hs : s.tokens = separate (is.map ts) ++ .mark close :: ys) :
    ReturnsAt s (itemsUpTo close item count) (List.Forall₂ matched is) (.mark close :: ys) := by
  induction is generalizing s count with
  | nil =>
      obtain ⟨count, rfl⟩ := count_eq_succ hs hcount
      exact returnsAt_atClose_of_eq hs (returnsAt_pure .nil hs)
  | cons i is ih =>
      obtain ⟨count, rfl⟩ := count_eq_succ hs hcount
      rw [List.forall_mem_cons] at hitem hstart
      obtain ⟨name, rest, hname⟩ := hstart.1
      rw [List.map_cons, separate_cons, List.append_assoc] at hs
      apply returnsAt_atClose_of_ident (hs.trans (congrArg (· ++ _) hname))
      cases is with
      | nil =>
          have hs' : s.tokens = ts i ++ .mark close :: ys := hs
          refine (hitem.1 s _ hlimit hs' (.inr rfl)).bind fun a t ha ht => ?_
          have hcomma : t.tokens.head? ≠ some (.mark .comma) := by
            rw [ht]
            simpa using hclose
          exact returnsAt_token?_of_ne hcomma (returnsAt_pure (.cons ha .nil) ht)
      | cons j is =>
          have hs' : s.tokens = ts i ++ .mark .comma :: (separate ((j :: is).map ts) ++ .mark close :: ys) := by
            rw [hs, List.map_cons, separate_cons]
            simp
          refine (hitem.1 s _ hlimit hs' (.inl rfl)).bind fun a t ha ht => ?_
          apply returnsAt_token?_of_eq ht
          intro u hu
          rw [hs', hname, List.length_append, List.length_cons, List.length_cons, ← hu] at hcount hlimit
          have hcount' : u.tokens.length ≤ count := by omega
          have hrest := ih hitem.2 hstart.2 hcount' (by omega) hu
          exact hrest.bind fun as v has hv => returnsAt_pure (.cons ha has) hv

theorem returnsAt_itemsUntil (hlimit : s.tokens.length ≤ limit)
    (hs : s.tokens = separate (is.map ts) ++ .mark close :: ys) :
    ReturnsAt s (itemsUntil close item) (List.Forall₂ matched is) ys := by
  have hitems := returnsAt_itemsUpTo hclose hitem hstart (Nat.le_refl _) hlimit hs
  refine (returnsAt_bounded hitems).bind fun as t has ht => ?_
  apply returnsAt_mark ht
  intro u hu
  exact returnsAt_pure has hu

end

end

/-! ## Types -/

theorem returnsAt_generics {vs : List TypeVariable} (hys : ys.head? ≠ some (.mark .leftBracket))
    (hs : s.tokens = variableTokens vs ++ ys) :
    ReturnsAt s generics (fun names => names.map (·.value) = vs.map (·.name)) ys := by
  cases vs with
  | nil =>
      have hs' : s.tokens = ys := hs
      exact returnsAt_token?_of_ne (hs' ▸ hys) (returnsAt_pure rfl hs')
  | cons v vs =>
      have hs' : s.tokens = .mark .leftBracket ::
          (separate ((v :: vs).map fun v => [.ident v.name]) ++ .mark .rightBracket :: ys) := by
        simpa [variableTokens] using hs
      apply returnsAt_token?_of_eq hs'
      intro t ht
      have hitem : ∀ w ∈ v :: vs, ∀ s zs, s.tokens.length ≤ t.tokens.length → s.tokens = [.ident w.name] ++ zs →
          zs = .mark .rightBracket :: ys ∨ zs.head? = some (.mark .comma) →
          ReturnsAt s ident (fun name => name.value = w.name) zs := fun _ _ _ _ _ hs _ => returnsAt_ident hs
      refine (returnsAt_separated hitem nofun (Nat.le_refl _) ht).bind fun names u hnames hu => ?_
      apply returnsAt_mark hu
      intro w hw
      refine returnsAt_pure ?_ hw
      exact List.forall₂_eq_eq_eq ▸ List.forall₂_map_left_iff.mpr (List.forall₂_map_right_iff.mpr hnames.flip)

/-- Parameters are not taken for a type in parentheses. -/
theorem opensGroup_parametersTokens (ps : ParameterList (String × Ty)) (ys : List Token) :
    ∃ rest, parametersTokens ps ++ ys = .mark .leftParen :: rest ∧ opensGroup rest = true := by
  cases ps with
  | fixed ps =>
      refine ⟨_, rfl, ?_⟩
      cases ps with
      | nil => rfl
      | cons field ps =>
          rw [fieldTokens_eq, List.map_cons, separate_cons]
          rfl
  | variadic p => exact ⟨_, rfl, rfl⟩

/-- With no more than `limit` tokens left, the reader reads the tokens of a type, unless what stands behind them
belongs to the type. -/
def ReadsBack (limit : Nat) (nested : Reader TypeExpr) : Prop :=
  ∀ (a : Ty) scope, a.writable scope = true → ∀ s ys, s.tokens.length ≤ limit → s.tokens = a.tokens ++ ys →
    ys.head? ≠ some (.mark .leftBracket) → ys.head? ≠ some (.mark .question) →
    ReturnsAt s nested a.SpelledBy ys

section

variable {nested : Reader TypeExpr} {limit : Nat} (hnested : ReadsBack limit nested) {scope : List TypeVariable}
include hnested

theorem returnsAt_typeFieldWith {name : String} {a : Ty} (ha : a.writable scope = true)
    (hlimit : s.tokens.length ≤ limit + 1) (hs : s.tokens = .ident name :: .mark .colon :: a.tokens ++ ys)
    (hbracket : ys.head? ≠ some (.mark .leftBracket)) (hquestion : ys.head? ≠ some (.mark .question)) :
    ReturnsAt s (typeFieldWith nested) (fun entry => entry.1 = name ∧ a.SpelledBy entry.2) ys := by
  refine (returnsAt_ident hs).bind fun own t hown ht => ?_
  have hlimit := length_tail_le_pred hs hlimit ht
  apply returnsAt_mark ht
  intro u hu
  have hlimit := length_tail_le ht hlimit hu
  refine (hnested a scope ha u ys hlimit hu hbracket hquestion).bind fun e v he hv => ?_
  exact returnsAt_pure ⟨hown, he⟩ hv

theorem returnsAt_parameterWith {name : String} {a : Ty} (ha : a.writable scope = true)
    (hlimit : s.tokens.length ≤ limit + 1) (hs : s.tokens = .ident name :: .mark .colon :: a.tokens ++ ys)
    (hbracket : ys.head? ≠ some (.mark .leftBracket)) (hquestion : ys.head? ≠ some (.mark .question)) :
    ReturnsAt s (parameterWith nested) (fun p => p.name.value = name ∧ a.SpelledBy p.type) ys := by
  refine (returnsAt_ident hs).bind fun own t hown ht => ?_
  have hlimit := length_tail_le_pred hs hlimit ht
  apply returnsAt_mark ht
  intro u hu
  have hlimit := length_tail_le ht hlimit hu
  refine (hnested a scope ha u ys hlimit hu hbracket hquestion).bind fun e v he hv => ?_
  exact ReturnsAt.of_eq (returnsAt_pure (a := ⟨own, e, own.span.merge v.previous⟩) ⟨hown, he⟩ hv) rfl

theorem returnsAt_parametersWith {ps : ParameterList (String × Ty)} (hps : writableParameters scope ps = true)
    (hlimit : s.tokens.length ≤ limit + 1) (hs : s.tokens = parametersTokens ps ++ ys) :
    ReturnsAt s (parametersWith nested) (ParametersSpelledBy ps) ys := by
  cases ps with
  | fixed ps =>
      have hs' : s.tokens =
          .mark .leftParen :: (separate (ps.map fieldTokensOf) ++ .mark .rightParen :: ys) := by
        simpa [parametersTokens, fieldTokens_eq] using hs
      apply returnsAt_mark hs'
      intro t ht
      have hlimit := Nat.le_succ_of_le (length_tail_le_pred hs' hlimit ht)
      have hellipsis : t.tokens.head? ≠ some (.mark .ellipsis) := by
        rw [ht]
        cases ps with
        | nil => nofun
        | cons field ps =>
            rw [List.map_cons, separate_cons]
            nofun
      apply returnsAt_token?_of_ne hellipsis
      have hitem : ∀ field ∈ ps, ∀ s zs, s.tokens.length ≤ limit + 1 → s.tokens = fieldTokensOf field ++ zs →
          zs.head? = some (.mark .comma) ∨ zs.head? = some (.mark .rightParen) →
          ReturnsAt s (parameterWith nested) (fun p => p.name.value = field.1 ∧ field.2.SpelledBy p.type) zs := by
        intro field hfield s zs hlimit hs hzs
        have ha := (forall_of_writableFields hps field hfield).2
        apply returnsAt_parameterWith hnested ha hlimit hs <;> rcases hzs with hzs | hzs <;> simp [hzs]
      have hclose : Punctuation.rightParen ≠ .comma := nofun
      have hitems := returnsAt_itemsUntil hclose hitem (fun _ _ => ⟨_, _, rfl⟩) hlimit ht
      refine hitems.bind fun parameters u hparameters hu => returnsAt_pure ?_ hu
      exact fieldsSpelledBy_of_forall₂ (List.forall₂_map_right_iff.mpr hparameters)
  | variadic p =>
      obtain ⟨name, a⟩ := p
      simp only [writableParameters, Bool.and_eq_true] at hps
      have hs' : s.tokens = .mark .leftParen :: .mark .ellipsis ::
          (.ident name :: .mark .colon :: a.tokens ++ .mark .rightParen :: ys) := by
        simpa [parametersTokens] using hs
      apply returnsAt_mark hs'
      intro t ht
      have hlimit := length_tail_le hs' hlimit ht
      apply returnsAt_token?_of_eq ht
      intro u hu
      have hlimit := length_tail_le ht hlimit hu
      refine (returnsAt_parameterWith hnested hps.2 hlimit hu nofun nofun).bind fun p v hp hv => ?_
      apply returnsAt_mark hv
      intro w hw
      exact returnsAt_pure (a := ParameterList.variadic p) hp hw

theorem returnsAt_functionTypeWith {vs : List TypeVariable} {ps : ParameterList (String × Ty)} {result : Ty}
    (h : (function vs ps result).writable scope = true) (hlimit : s.tokens.length ≤ limit + 1)
    (hs : s.tokens = (function vs ps result).tokens ++ ys)
    (hbracket : ys.head? ≠ some (.mark .leftBracket)) (hquestion : ys.head? ≠ some (.mark .question))
    (start : Span) : ReturnsAt s (functionTypeWith nested start) (function vs ps result).SpelledBy ys := by
  simp only [writable, Bool.and_eq_true] at h
  obtain ⟨⟨hvs, hps⟩, hresult⟩ := h
  have hs' : s.tokens = variableTokens vs ++ (parametersTokens ps ++ .mark .arrow :: (result.tokens ++ ys)) := by
    simpa [tokens] using hs
  have hparen : (parametersTokens ps ++ .mark .arrow :: (result.tokens ++ ys)).head? ≠
      some (.mark .leftBracket) := by cases ps <;> nofun
  have hlength : ∀ {n : Nat} {xs zs : List Token} {t : State}, s.tokens.length ≤ n → s.tokens = xs ++ zs →
      t.tokens = zs → t.tokens.length ≤ n := by
    intro n xs zs t hn heq ht
    rw [heq, List.length_append] at hn
    rw [ht]
    omega
  refine (returnsAt_generics hparen hs').bind fun names t hnames ht => ?_
  have hlimit := hlength hlimit hs' ht
  refine (returnsAt_parametersWith hnested hps hlimit ht).bind fun parameters u hparameters hu => ?_
  apply returnsAt_mark hu
  intro v hv
  have hlimit : v.tokens.length ≤ limit := by
    rw [ht, List.length_append, List.length_cons, ← hv] at hlimit
    omega
  refine (hnested result _ hresult v ys hlimit hv hbracket hquestion).bind fun inner w hinner hw => ?_
  exact returnsAt_newType (fun site => ⟨site, names, parameters, inner, rfl, hnames, hparameters, hinner⟩) hw

omit hnested in
theorem returnsAt_named {name : String} (hs : s.tokens = .ident name :: ys)
    (hbracket : ys.head? ≠ some (.mark .leftBracket)) :
    ReturnsAt s (primaryTypeWith nested) (fun e => ∃ site, e = .named site name []) ys := by
  apply returnsAt_here
  apply returnsAt_peek hs
  apply returnsAt_advance hs
  intro t ht
  apply returnsAt_token?_of_ne (ht ▸ hbracket)
  exact returnsAt_pure_bind (returnsAt_newType (fun site => ⟨site, rfl⟩) ht)

theorem returnsAt_applied {name : String} {a : Ty} (ha : a.writable scope = true)
    (hlimit : s.tokens.length ≤ limit + 1)
    (hs : s.tokens = .ident name :: .mark .leftBracket :: (a.tokens ++ .mark .rightBracket :: ys)) :
    ReturnsAt s (primaryTypeWith nested)
      (fun e => ∃ site inner, e = .named site name [inner] ∧ a.SpelledBy inner) ys := by
  apply returnsAt_here
  apply returnsAt_peek hs
  apply returnsAt_advance hs
  intro t ht
  have hlimit := length_tail_le_pred hs hlimit ht
  apply returnsAt_token?_of_eq ht
  intro u hu
  have hlimit := length_tail_le ht hlimit hu
  have hitem : ∀ b ∈ [a], ∀ s zs, s.tokens.length ≤ limit → s.tokens = b.tokens ++ zs →
      zs = .mark .rightBracket :: ys ∨ zs.head? = some (.mark .comma) → ReturnsAt s nested b.SpelledBy zs := by
    intro b hb s zs hlimit hs hzs
    cases List.mem_singleton.mp hb
    refine hnested a scope ha s zs hlimit hs ?_ ?_ <;> rcases hzs with rfl | hzs <;> simp [*]
  have htypes : u.tokens = separate ([a].map tokens) ++ .mark .rightBracket :: ys := by simpa [separate] using hu
  have harguments : ReturnsAt u (typeArgumentsWith nested) (List.Forall₂ SpelledBy [a]) ys := by
    refine (returnsAt_separated hitem (by simp) hlimit htypes).bind fun types v htypes hv => ?_
    apply returnsAt_mark hv
    intro w hw
    exact returnsAt_pure htypes hw
  refine harguments.bind fun types v htypes hv => ?_
  cases htypes with
  | cons hinner hnil =>
      cases hnil
      exact returnsAt_newType (fun site => ⟨site, _, rfl, hinner⟩) hv

theorem returnsAt_object {fields : List (String × Ty)} (h : writableFields scope fields = true)
    (hlimit : s.tokens.length ≤ limit + 1) (hs : s.tokens = (object fields).tokens ++ ys) :
    ReturnsAt s (primaryTypeWith nested) (object fields).SpelledBy ys := by
  have hs' : s.tokens = .mark .leftBrace :: (separate (fields.map fieldTokensOf) ++ .mark .rightBrace :: ys) := by
    simpa [tokens, fieldTokens_eq] using hs
  apply returnsAt_here
  apply returnsAt_peek hs'
  apply returnsAt_advance hs'
  intro t ht
  have hlimit := length_tail_le hs' hlimit ht
  have hitem : ∀ field ∈ fields, ∀ s zs, s.tokens.length ≤ limit + 1 → s.tokens = fieldTokensOf field ++ zs →
      zs.head? = some (.mark .comma) ∨ zs.head? = some (.mark .rightBrace) →
      ReturnsAt s (typeFieldWith nested) (fun entry => entry.1 = field.1 ∧ field.2.SpelledBy entry.2) zs := by
    intro field hfield s zs hlimit hs hzs
    have ha := (forall_of_writableFields h field hfield).2
    apply returnsAt_typeFieldWith hnested ha hlimit hs <;> rcases hzs with hzs | hzs <;> simp [hzs]
  have hclose : Punctuation.rightBrace ≠ .comma := nofun
  have hitems := returnsAt_itemsUntil hclose hitem (fun _ _ => ⟨_, _, rfl⟩) hlimit ht
  refine hitems.bind fun entries u hentries hu => ?_
  exact returnsAt_newType (fun site => ⟨site, entries, rfl, fieldsSpelledBy_of_forall₂ hentries⟩) hu

/-- A type before its question mark. -/
theorem returnsAt_primaryTypeWith {a : Ty} (ha : a.writable scope = true) (hnullable : a.isNullable = false)
    (hlimit : s.tokens.length ≤ limit + 1) (hs : s.tokens = a.tokens ++ ys)
    (hbracket : ys.head? ≠ some (.mark .leftBracket))
    (hquestion : (∃ vs ps result, a = .function vs ps result) → ys.head? ≠ some (.mark .question)) :
    ReturnsAt s (primaryTypeWith nested) a.SpelledBy ys := by
  cases a with
  | number | boolean | bigInteger | null | var v => exact returnsAt_named hs hbracket
  | list a | sequence a => exact returnsAt_applied hnested ha hlimit (by simpa [tokens] using hs)
  | object fields =>
      simp only [writable, Bool.and_eq_true] at ha
      exact returnsAt_object hnested ha.2 hlimit hs
  | function vs ps result =>
      have hfunction := returnsAt_functionTypeWith hnested ha hlimit hs hbracket (hquestion ⟨_, _, _, rfl⟩)
      apply returnsAt_here
      cases vs with
      | cons v vs => exact returnsAt_peek hs (hfunction _)
      | nil =>
          obtain ⟨rest, hrest, hopens⟩ := opensGroup_parametersTokens ps (.mark .arrow :: result.tokens ++ ys)
          have hs' : s.tokens = .mark .leftParen :: rest := by
            rw [hs, ← hrest]
            simp [tokens, variableTokens]
          apply returnsAt_peek hs'
          apply returnsAt_atParameters hs'
          rw [hopens]
          exact hfunction _
  | union _ _ | tagged _ _ => cases ha
  | nullable _ => cases hnullable

/-- The function type in parentheses before a question mark. -/
theorem returnsAt_parens {vs : List TypeVariable} {ps : ParameterList (String × Ty)} {result : Ty}
    (h : (function vs ps result).writable scope = true) (hlimit : s.tokens.length ≤ limit + 1)
    (hs : s.tokens = .mark .leftParen :: ((function vs ps result).tokens ++ .mark .rightParen :: ys)) :
    ReturnsAt s (primaryTypeWith nested) (function vs ps result).SpelledBy ys := by
  apply returnsAt_here
  apply returnsAt_peek hs
  apply returnsAt_atParameters hs
  have hopens : opensGroup ((function vs ps result).tokens ++ .mark .rightParen :: ys) = false := by
    cases vs with
    | cons v vs => rfl
    | nil => cases ps <;> rfl
  rw [hopens]
  apply returnsAt_advance hs
  intro t ht
  have hlimit := length_tail_le_pred hs hlimit ht
  refine (hnested _ scope h t _ hlimit ht nofun nofun).bind fun e u he hu => ?_
  apply returnsAt_mark hu
  intro v hv
  exact returnsAt_pure he hv

omit hnested in
theorem returnsAt_nullableUpTo_of_ne (count : Nat) {e : TypeExpr} {good : TypeExpr → Prop} (he : good e)
    (hs : s.tokens = ys) (hquestion : ys.head? ≠ some (.mark .question)) :
    ReturnsAt s (nullableUpTo count e) good ys := by
  cases count with
  | zero => exact returnsAt_pure he hs
  | succ count => exact returnsAt_token?_of_ne (hs ▸ hquestion) (returnsAt_pure he hs)

omit hnested in
/-- The question mark behind an optional type. -/
theorem returnsAt_question {a : Ty} {e : TypeExpr} (he : a.SpelledBy e) (hs : s.tokens = .mark .question :: ys)
    (hquestion : ys.head? ≠ some (.mark .question)) :
    ReturnsAt s (bounded (nullableUpTo · e)) (nullable a).SpelledBy ys := by
  apply returnsAt_bounded
  rw [hs, List.length_cons]
  apply returnsAt_token?_of_eq hs
  intro t ht
  have hnew : ReturnsAt t (do newType (← spanFrom e.site.span) (.nullable · e)) (nullable a).SpelledBy ys :=
    returnsAt_newType (fun site => ⟨site, e, rfl, he⟩) ht
  have hboth := hnew.bind fun wider u hwider hu =>
    returnsAt_nullableUpTo_of_ne ys.length hwider hu hquestion
  exact hboth.of_eq rfl

theorem returnsAt_typeWith {a : Ty} (ha : a.writable scope = true)
    (hlimit : s.tokens.length ≤ limit + 1) (hs : s.tokens = a.tokens ++ ys)
    (hbracket : ys.head? ≠ some (.mark .leftBracket)) (hquestion : ys.head? ≠ some (.mark .question)) :
    ReturnsAt s (typeWith nested) a.SpelledBy ys := by
  cases hnullable : a.isNullable with
  | false =>
      refine (returnsAt_primaryTypeWith hnested ha hnullable hlimit hs hbracket fun _ => hquestion).bind
        fun e t he ht => ?_
      exact returnsAt_bounded (returnsAt_nullableUpTo_of_ne _ he ht hquestion)
  | true =>
      cases a with
      | nullable a =>
          simp only [writable, Bool.and_eq_true, Bool.not_eq_true'] at ha
          cases hfunction : a.isFunction with
          | true =>
              cases a with
              | function vs ps result =>
                  have hs' : s.tokens = .mark .leftParen ::
                      ((function vs ps result).tokens ++ .mark .rightParen :: .mark .question :: ys) := by
                    rw [hs]
                    simp [tokens]
                  refine (returnsAt_parens hnested ha.2 hlimit hs').bind fun e t he ht => ?_
                  exact returnsAt_question he ht hquestion
              | _ => cases hfunction
          | false =>
              have hs' : s.tokens = a.tokens ++ .mark .question :: ys := by
                rw [hs, tokens_nullable ha.2 hfunction]
                simp
              have hprimary := returnsAt_primaryTypeWith hnested ha.2 ha.1 hlimit hs' nofun (by
                rintro ⟨vs, ps, result, rfl⟩
                cases hfunction)
              exact hprimary.bind fun e t he ht => returnsAt_question he ht hquestion
      | _ => cases hnullable

end

theorem readsBack_typeUpTo (depth : Nat) : ReadsBack depth (typeUpTo depth) := by
  induction depth with
  | zero =>
      intro a scope ha s ys hlimit hs
      have hnil : s.tokens = [] := List.length_eq_zero_iff.mp (Nat.le_zero.mp hlimit)
      obtain ⟨hempty, -⟩ := List.append_eq_nil_iff.mp (hs.symm.trans hnil)
      exact absurd hempty (tokens_ne_nil ha)
  | succ depth ih => exact fun a scope ha s ys => returnsAt_typeWith ih ha

/-- The tokens of a type are read as the type. -/
theorem returnsAt_type {a : Ty} {scope : List TypeVariable} (ha : a.writable scope = true) (hs : s.tokens = a.tokens) :
    ReturnsAt s type a.SpelledBy [] :=
  returnsAt_bounded (readsBack_typeUpTo _ a scope ha s [] (Nat.le_refl _) (by simpa using hs) nofun nofun)

end Reader

end Sable
