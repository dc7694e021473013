import Sable.Proofs.Reader.Types
import Sable.Proofs.Tree.Moved
import Sable.Reader.Expr

/-! Reading a text that is moved.

Behind other text the same tokens stand at later bytes, and more nodes and errors were made before. Nothing else
changes: a reader gives what it gives otherwise, moved, and leaves the same tokens. -/
namespace Sable

def ParseError.moved (offset : Nat) (e : ParseError) : ParseError := ⟨e.fault, e.span.moved offset⟩

namespace Reader

/-- What was found in the text in front: its errors, and as many nodes as the trees behind it are moved by. -/
structure Earlier (m : Shift) where
  errors : Array ParseError
  nodes : Nodes
  size_expressions : nodes.expressions.size = m.expressions
  size_types : nodes.types.size = m.types

variable (m : Shift) (before : Earlier m)

/-- The state after the text in front. -/
def State.moved (s : State) : State where
  rest := s.rest.map (·.moved m.offset)
  previous := s.previous.moved m.offset
  finish := s.finish.moved m.offset
  nodes := ⟨before.nodes.expressions ++ s.nodes.expressions.map (Expr.moved m),
    before.nodes.types ++ s.nodes.types.map (TypeExpr.moved m)⟩
  errors := before.errors ++ s.errors.map (·.moved m.offset)

/-- What one reader gives from a state the other one gives from the moved state, with `f` put on the result. It
leaves no more tokens than there were. -/
structure MovesAt {α β : Type} (s : State) (f : α → β) (r : Reader α) (r' : Reader β) : Prop where
  run : r' (s.moved m before) = ((r s).1.map f, (r s).2.moved m before)
  shorter : (r s).2.rest.length ≤ s.rest.length

abbrev Moves {α β : Type} (f : α → β) (r : Reader α) (r' : Reader β) : Prop := ∀ s, MovesAt m before s f r r'

section

variable {m before} {α β γ δ : Type} {s : State} {f : α → β} {g : γ → δ} {r : Reader α} {r' : Reader β}
  {next : α → Reader γ} {next' : β → Reader δ}

theorem State.here_moved (s : State) : (s.moved m before).here = s.here.moved m.offset := by
  simp only [State.here, State.moved]
  cases s.rest <;> rfl

theorem State.advance_moved (s : State) : (s.moved m before).advance = s.advance.moved m before := by
  simp only [State.advance, State.moved]
  cases hrest : s.rest with
  | nil => simp [hrest]
  | cons t rest => rfl

theorem State.head?_moved (s : State) :
    (s.moved m before).rest.head?.map (·.value) = s.rest.head?.map (·.value) := by
  simp only [State.moved]
  cases s.rest <;> rfl

theorem State.length_advance_le (s : State) : s.advance.rest.length ≤ s.rest.length := by
  simp only [State.advance]
  cases h : s.rest <;> simp [h]

theorem State.length_advance_lt (s : State) {t : Token} (h : s.rest.head?.map (·.value) = some t) :
    s.advance.rest.length < s.rest.length := by
  simp only [State.advance]
  cases hrest : s.rest with
  | nil => simp [hrest] at h
  | cons t rest => simp

theorem MovesAt.congr {q : Reader α} {q' : Reader β} (h : MovesAt m before s f r r') (hq : q s = r s)
    (hq' : q' (s.moved m before) = r' (s.moved m before)) : MovesAt m before s f q q' :=
  ⟨by rw [hq, hq', h.run], by rw [hq]; exact h.shorter⟩

theorem MovesAt.bind_of_eq (h : MovesAt m before s f r r')
    (hnext : ∀ a t, r s = (some a, t) → MovesAt m before t g (next a) (next' (f a))) :
    MovesAt m before s g (r >>= next) (r' >>= next') := by
  obtain ⟨hrun, hshorter⟩ := h
  cases hr : r s with
  | mk a t =>
      rw [hr] at hrun hshorter
      cases a with
      | none => exact ⟨by rw [run_bind, run_bind, hrun, hr]; rfl, by rw [run_bind, hr]; exact hshorter⟩
      | some a =>
          obtain ⟨hrun', hshorter'⟩ := hnext a t hr
          refine ⟨?_, ?_⟩
          · rw [run_bind, run_bind, hrun, hr]
            exact hrun'
          · rw [run_bind, hr]
            exact Nat.le_trans hshorter' hshorter

theorem MovesAt.bind (h : MovesAt m before s f r r')
    (hnext : ∀ a t, t.rest.length ≤ s.rest.length → MovesAt m before t g (next a) (next' (f a))) :
    MovesAt m before s g (r >>= next) (r' >>= next') := by
  refine h.bind_of_eq fun a t ht => hnext a t ?_
  have hshorter := h.shorter
  rwa [ht] at hshorter

theorem movesAt_pure {a : α} {b : β} (h : f a = b) : MovesAt m before s f (pure a) (pure b) :=
  ⟨h ▸ rfl, Nat.le_refl _⟩

theorem movesAt_bounded {r : Nat → Reader α} {r' : Nat → Reader β}
    (h : MovesAt m before s f (r s.rest.length) (r' s.rest.length)) :
    MovesAt m before s f (bounded r) (bounded r') := by
  refine ⟨?_, h.shorter⟩
  have hlength : (s.moved m before).rest.length = s.rest.length := List.length_map _
  rw [bounded, hlength]
  exact h.run

/-! ## Steps that take one token, or none -/

theorem movesAt_peek {next : Option Token → Reader γ} {next' : Option Token → Reader δ}
    (h : MovesAt m before s g (next (s.rest.head?.map (·.value))) (next' (s.rest.head?.map (·.value)))) :
    MovesAt m before s g (peek >>= next) (peek >>= next') := by
  refine ⟨?_, h.shorter⟩
  rw [run_bind, peek, State.head?_moved]
  exact h.run

theorem movesAt_here {next : Span → Reader γ} {next' : Span → Reader δ}
    (h : MovesAt m before s g (next s.here) (next' (s.here.moved m.offset))) :
    MovesAt m before s g (here >>= next) (here >>= next') := by
  refine ⟨?_, h.shorter⟩
  rw [run_bind, here, State.here_moved]
  exact h.run

theorem moves_advance : Moves m before id advance advance :=
  fun s => ⟨by simp only [advance, State.advance_moved]; rfl, s.length_advance_le⟩

theorem moves_spanFrom (start : Span) :
    Moves m before (·.moved m.offset) (spanFrom start) (spanFrom (start.moved m.offset)) := by
  refine fun s => ⟨?_, Nat.le_refl _⟩
  have hmerge : (start.moved m.offset).merge (s.moved m before).previous = (start.merge s.previous).moved m.offset :=
    Span.merge_moved ..
  simp only [spanFrom, hmerge]
  rfl

theorem moves_report (fault : Option Token → ParseFault) : Moves m before id (report fault) (report fault) := by
  refine fun s => ⟨?_, Nat.le_refl _⟩
  simp only [report, State.head?_moved, State.here_moved]
  simp only [State.moved, Array.map_push, Array.append_push]
  rfl

theorem moves_expected (what : Expectation) : Moves m before f (expected what) (expected what) := by
  intro s
  obtain ⟨hrun, hshorter⟩ := (moves_report (.expected what) : Moves m before id _ _) s
  exact ⟨by simp only [expected, hrun]; rfl, hshorter⟩

theorem MovesAt.attempt (h : MovesAt m before s f r r') :
    MovesAt m before s (Option.map f) (attempt r) (attempt r') := by
  refine ⟨?_, h.shorter⟩
  simp only [Reader.attempt, h.run]
  rfl

theorem moves_token? (token : Token) : Moves m before id (token? token) (token? token) := by
  intro s
  apply movesAt_peek
  split
  · exact (moves_advance s).bind fun _ t _ => movesAt_pure rfl
  · exact movesAt_pure rfl

theorem moves_token (token : Token) : Moves m before id (Reader.token token) (Reader.token token) := by
  refine fun s => (moves_token? token s).bind fun found t _ => ?_
  cases found with
  | true => exact movesAt_pure rfl
  | false => exact moves_expected _ t

theorem moves_mark? (p : Punctuation) : Moves m before id (mark? p) (mark? p) := moves_token? _

theorem moves_mark (p : Punctuation) : Moves m before id (mark p) (mark p) := moves_token _

theorem moves_keyword (k : Keyword) : Moves m before id (keyword k) (keyword k) := moves_token _

theorem moves_ident : Moves m before (·.moved m.offset) ident ident := by
  intro s
  apply movesAt_peek
  split
  · apply movesAt_here
    exact (moves_advance s).bind fun _ t _ => movesAt_pure rfl
  · exact moves_expected _ s

theorem moves_newExpr (span : Span) {make make' : Site → Expr}
    (hmake : ∀ site : Site, make' (site.movedBy m m.expressions) = (make site).moved m) :
    Moves m before (Expr.moved m) (newExpr span make) (newExpr (span.moved m.offset) make') := by
  refine fun s => ⟨?_, Nat.le_refl _⟩
  have hsite := hmake ⟨s.nodes.expressions.size, span⟩
  have hsize : (s.moved m before).nodes.expressions.size = s.nodes.expressions.size + m.expressions := by
    simp [State.moved, before.size_expressions, Nat.add_comm]
  simp only [newExpr, Option.map_some, hsize]
  simp only [State.moved, Array.map_push, ← hsite, Array.append_push]
  rfl

theorem moves_newType (span : Span) {make make' : Site → TypeExpr}
    (hmake : ∀ site : Site, make' (site.movedBy m m.types) = (make site).moved m) :
    Moves m before (TypeExpr.moved m) (newType span make) (newType (span.moved m.offset) make') := by
  refine fun s => ⟨?_, Nat.le_refl _⟩
  have hsite := hmake ⟨s.nodes.types.size, span⟩
  have hsize : (s.moved m before).nodes.types.size = s.nodes.types.size + m.types := by
    simp [State.moved, before.size_types, Nat.add_comm]
  simp only [newType, Option.map_some, hsize]
  simp only [State.moved, Array.map_push, ← hsite, Array.append_push]
  rfl

theorem moves_newExprFrom (start : Span) {make make' : Site → Expr}
    (hmake : ∀ site : Site, make' (site.movedBy m m.expressions) = (make site).moved m) :
    Moves m before (Expr.moved m) (spanFrom start >>= (newExpr · make))
      (spanFrom (start.moved m.offset) >>= (newExpr · make')) :=
  fun s => (moves_spanFrom start s).bind fun span t _ => moves_newExpr span hmake t

theorem moves_newTypeFrom (start : Span) {make make' : Site → TypeExpr}
    (hmake : ∀ site : Site, make' (site.movedBy m m.types) = (make site).moved m) :
    Moves m before (TypeExpr.moved m) (spanFrom start >>= (newType · make))
      (spanFrom (start.moved m.offset) >>= (newType · make')) :=
  fun s => (moves_spanFrom start s).bind fun span t _ => moves_newType span hmake t

/-! ## Lists -/

section

variable {item : Reader α} {item' : Reader β} (hitem : Moves m before f item item')
include hitem

theorem moves_moreUpTo (separator : Punctuation) (count : Nat) :
    Moves m before (List.map f) (moreUpTo separator item count) (moreUpTo separator item' count) := by
  induction count with
  | zero => exact fun s => movesAt_pure rfl
  | succ count ih =>
      refine fun s => (moves_mark? separator s).bind fun found t _ => ?_
      cases found with
      | true =>
          refine (hitem t).bind fun a t _ => ?_
          exact (ih t).bind fun rest t _ => movesAt_pure rfl
      | false => exact movesAt_pure rfl

theorem moves_separated (separator : Punctuation) :
    Moves m before (List.map f) (separated separator item) (separated separator item') := by
  refine fun s => (hitem s).bind fun a t _ => ?_
  exact (movesAt_bounded (moves_moreUpTo hitem separator _ t)).bind fun rest t _ => movesAt_pure rfl

omit hitem in
theorem moves_atClose (close : Punctuation) : Moves m before id (atClose close) (atClose close) := by
  intro s
  apply movesAt_peek
  split <;> exact movesAt_pure rfl

theorem moves_itemsUpTo (close : Punctuation) (count : Nat) :
    Moves m before (List.map f) (itemsUpTo close item count) (itemsUpTo close item' count) := by
  induction count with
  | zero => exact fun s => movesAt_pure rfl
  | succ count ih =>
      refine fun s => (moves_atClose close s).bind fun atEnd t _ => ?_
      cases atEnd with
      | true => exact movesAt_pure rfl
      | false =>
          refine (hitem t).bind fun a t _ => (moves_mark? .comma t).bind fun found t _ => ?_
          cases found with
          | true => exact (ih t).bind fun rest t _ => movesAt_pure rfl
          | false => exact movesAt_pure rfl

theorem moves_itemsUntil (close : Punctuation) :
    Moves m before (List.map f) (itemsUntil close item) (itemsUntil close item') := by
  refine fun s => (movesAt_bounded (moves_itemsUpTo hitem close _ s)).bind fun items t _ => ?_
  exact (moves_mark close t).bind fun _ t _ => movesAt_pure rfl

end

/-! ## Types -/

theorem moves_generics : Moves m before (Generics.moved m) generics generics := by
  refine fun s => (moves_mark? .leftBracket s).bind fun found t _ => ?_
  cases found with
  | true =>
      refine (moves_separated moves_ident .comma t).bind fun names t _ => ?_
      exact (moves_mark .rightBracket t).bind fun _ t _ => movesAt_pure rfl
  | false => exact movesAt_pure rfl

theorem opensParameters_moved (rest : List (Spanned Token)) :
    opensParameters (rest.map (·.moved m.offset)) = opensParameters rest := by
  rw [opensParameters_eq, opensParameters_eq, List.map_map]
  rfl

theorem moves_atParameters : Moves m before id atParameters atParameters :=
  fun s => ⟨by simp only [atParameters, State.moved, opensParameters_moved]; rfl, Nat.le_refl _⟩

section

variable {nested : Reader TypeExpr} (hnested : Moves m before (TypeExpr.moved m) nested nested)
include hnested

theorem moves_parameterWith :
    Moves m before (Parameter.moved m (TypeExpr.moved m)) (parameterWith nested) (parameterWith nested) := by
  refine fun s => (moves_ident s).bind fun name t _ => (moves_mark .colon t).bind fun _ t _ => ?_
  refine (hnested t).bind fun type t _ => (moves_spanFrom name.span t).bind fun span t _ => ?_
  exact movesAt_pure rfl

theorem moves_parametersWith :
    Moves m before (ParameterList.map (Parameter.moved m (TypeExpr.moved m))) (parametersWith nested)
      (parametersWith nested) := by
  refine fun s => (moves_mark .leftParen s).bind fun _ t _ => (moves_mark? .ellipsis t).bind fun found t _ => ?_
  cases found with
  | true =>
      refine (moves_parameterWith hnested t).bind fun p t _ => ?_
      exact (moves_mark .rightParen t).bind fun _ t _ => movesAt_pure rfl
  | false =>
      exact (moves_itemsUntil (moves_parameterWith hnested) .rightParen t).bind fun ps t _ => movesAt_pure rfl

theorem moves_typeArgumentsWith :
    Moves m before (List.map (TypeExpr.moved m)) (typeArgumentsWith nested) (typeArgumentsWith nested) := by
  refine fun s => (moves_separated hnested .comma s).bind fun types t _ => ?_
  exact (moves_mark .rightBracket t).bind fun _ t _ => movesAt_pure rfl

theorem moves_functionTypeWith (start : Span) :
    Moves m before (TypeExpr.moved m) (functionTypeWith nested start)
      (functionTypeWith nested (start.moved m.offset)) := by
  refine fun s => (moves_generics s).bind fun names t _ => (moves_parametersWith hnested t).bind fun ps t _ => ?_
  refine (moves_mark .arrow t).bind fun _ t _ => (hnested t).bind fun result t _ => ?_
  refine moves_newTypeFrom start (fun site => ?_) t
  simp [TypeExpr.moved]

theorem moves_typeFieldWith :
    Moves m before (fun field => (field.1, field.2.moved m)) (typeFieldWith nested) (typeFieldWith nested) := by
  refine fun s => (moves_ident s).bind fun name t _ => (moves_mark .colon t).bind fun _ t _ => ?_
  exact (hnested t).bind fun type t _ => movesAt_pure rfl

theorem moves_primaryTypeWith :
    Moves m before (TypeExpr.moved m) (primaryTypeWith nested) (primaryTypeWith nested) := by
  intro s
  apply movesAt_here
  apply movesAt_peek
  split
  · refine (moves_advance s).bind fun _ t _ => (moves_mark? .leftBracket t).bind fun found t _ => ?_
    cases found with
    | true =>
        refine (moves_typeArgumentsWith hnested t).bind fun types t _ => ?_
        refine moves_newTypeFrom s.here (fun site => ?_) t
        simp [TypeExpr.moved]
    | false =>
        refine moves_newTypeFrom s.here (fun site => ?_) t
        rfl
  · refine (moves_advance s).bind fun _ t _ => ?_
    refine (moves_itemsUntil (moves_typeFieldWith hnested) .rightBrace t).bind fun fields t _ => ?_
    refine moves_newTypeFrom s.here (fun site => ?_) t
    simp [TypeExpr.moved]
  · exact moves_functionTypeWith hnested s.here s
  · refine (moves_atParameters s).bind fun opens t _ => ?_
    cases opens with
    | true => exact moves_functionTypeWith hnested s.here t
    | false =>
        refine (moves_advance t).bind fun _ t _ => (hnested t).bind fun inner t _ => ?_
        exact (moves_mark .rightParen t).bind fun _ t _ => movesAt_pure rfl
  · exact moves_expected _ s

omit hnested in
theorem moves_nullableUpTo (count : Nat) (type : TypeExpr) :
    Moves m before (TypeExpr.moved m) (nullableUpTo count type) (nullableUpTo count (type.moved m)) := by
  induction count generalizing type with
  | zero => exact fun s => movesAt_pure rfl
  | succ count ih =>
      refine fun s => (moves_mark? .question s).bind fun found t _ => ?_
      cases found with
      | true =>
          have hspan : (type.moved m).site.span = type.site.span.moved m.offset := by
            rw [TypeExpr.site_moved]
            rfl
          rw [hspan]
          refine (moves_spanFrom type.site.span t).bind fun span t _ => ?_
          exact (moves_newType span (fun site => by simp [TypeExpr.moved]) t).bind fun wider t _ => ih wider t
      | false => exact movesAt_pure rfl

theorem moves_typeWith : Moves m before (TypeExpr.moved m) (typeWith nested) (typeWith nested) :=
  fun s => (moves_primaryTypeWith hnested s).bind fun type t _ => movesAt_bounded (moves_nullableUpTo _ type t)

end

theorem moves_typeUpTo (depth : Nat) : Moves m before (TypeExpr.moved m) (typeUpTo depth) (typeUpTo depth) := by
  induction depth with
  | zero => exact moves_expected _
  | succ depth ih => exact moves_typeWith ih

theorem moves_type : Moves m before (TypeExpr.moved m) type type :=
  fun s => movesAt_bounded (moves_typeUpTo _ s)

theorem moves_parameters :
    Moves m before (ParameterList.map (Parameter.moved m (TypeExpr.moved m))) parameters parameters :=
  moves_parametersWith moves_type

theorem moves_annotation? : Moves m before (Option.map (TypeExpr.moved m)) annotation? annotation? := by
  refine fun s => (moves_mark? .colon s).bind fun found t _ => ?_
  cases found with
  | true => exact (moves_type t).bind fun type t _ => movesAt_pure rfl
  | false => exact movesAt_pure rfl

end

end Reader

end Sable
