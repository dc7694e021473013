import Sable.Proofs.Reader.Reads
import Sable.Proofs.Tree.Items

/-! What stands where, while reading.

A reader that puts down no error takes a stretch of the tokens. What it gives stands there, one item after the other,
and every node that it makes is in one of these items. A node is made of the items at the end of a stretch, with the
span from the first of them, or from the first token, to the last. -/
namespace Sable

namespace Item

/-! ## Leaving tokens out -/

/-- Some tokens are left out. -/
inductive Keeps : List Item → List Item → Prop
  | nil : Keeps [] []
  | cons (i : Item) {given kept : List Item} : Keeps given kept → Keeps (i :: given) (i :: kept)
  | token (span : Span) {given kept : List Item} : Keeps given kept → Keeps (.token span :: given) kept

/-- What stands in an item with these children: a token in front of them, or two items at least. -/
inductive MakesUp : List Item → List Item → Prop
  | behind {span : Span} {given children : List Item} (h : Keeps given children) :
    MakesUp (.token span :: given) children
  | several {given children : List Item} (h : Keeps given children) (htwo : 2 ≤ given.length) : MakesUp given children

variable {given kept : List Item}

namespace Keeps

theorem refl (items : List Item) : Keeps items items := by
  induction items with
  | nil => exact .nil
  | cons i _ ih => exact .cons i ih

theorem append_left (items : List Item) (h : Keeps given kept) : Keeps (items ++ given) (items ++ kept) := by
  induction items with
  | nil => exact h
  | cons i _ ih => exact .cons i ih

theorem sublist (h : Keeps given kept) : kept.Sublist given := by
  induction h with
  | nil => exact .slnil
  | cons i _ ih => exact .cons_cons i ih
  | token span _ ih => exact .cons _ ih

theorem flatMap_eq {α : Type} {f : Item → List α} (hf : ∀ span, f (.token span) = []) (h : Keeps given kept) :
    kept.flatMap f = given.flatMap f := by
  induction h with
  | nil => rfl
  | cons i _ ih => rw [List.flatMap_cons, List.flatMap_cons, ih]
  | token span _ ih => rw [List.flatMap_cons, hf, List.nil_append, ih]

end Keeps

@[simp]
theorem expressions_token (span : Span) : (token span).expressions = [] := by
  rw [expressions_eq]
  rfl

@[simp]
theorem types_token (span : Span) : (token span).types = [] := by
  rw [types_eq]
  rfl

namespace MakesUp

variable {children : List Item}

theorem keeps (h : MakesUp given children) : Keeps given children := by
  cases h with
  | behind h => exact .token _ h
  | several h _ => exact h

theorem ne_nil (h : MakesUp given children) : given ≠ [] := by
  cases h with
  | behind h => exact List.cons_ne_nil _ _
  | several h htwo =>
      rintro rfl
      cases htwo

/-- Where there is a child, there is something else. -/
theorem exists_cons_cons (h : MakesUp given children) (hchildren : children ≠ []) :
    ∃ first second rest, given = first :: second :: rest := by
  have hlength : 2 ≤ given.length := by
    cases h with
    | several h htwo => exact htwo
    | behind h =>
        have := List.length_pos_iff.mpr hchildren
        have := h.sublist.length_le
        rw [List.length_cons]
        omega
  match given, hlength with
  | first :: second :: rest, _ => exact ⟨first, second, rest, rfl⟩

/-- An item fits with such children in order. -/
theorem fits {i : Item} (h : MakesUp given i.children)
    (horder : Span.InOrder i.span.start (given.map span) i.span.stop) : i.Fits where
  nonempty := by
    obtain ⟨first, rest, rfl⟩ := List.exists_cons_of_ne_nil h.ne_nil
    exact Nat.lt_of_le_of_lt horder.1 (Nat.lt_of_lt_of_le horder.2.1 horder.2.2.le)
  order := horder.sublist (h.keeps.sublist.map _)
  proper c hc hspan := by
    have hmem : c.span ∈ given.map span := List.mem_map_of_mem (h.keeps.sublist.subset hc)
    obtain ⟨first, second, rest, rfl⟩ := h.exists_cons_cons (List.ne_nil_of_mem hc)
    exact absurd hspan (Span.InOrder.ne_whole horder hmem)

end MakesUp

end Item

namespace Reader

open Item

/-! ## Stretches -/

/-- The tokens that are left stand one after the other behind the last token taken. -/
def State.Ready (s : State) : Prop := Span.InOrder s.previous.stop (s.rest.map (·.span)) s.finish.start

theorem State.Ready.le_finish {s : State} (h : s.Ready) : s.previous.stop ≤ s.finish.start := Span.InOrder.le h

theorem State.Ready.le {s : State} (h : s.Ready) : s.previous.stop ≤ s.here.start := by
  obtain ⟨rest, previous, finish, nodes, errors⟩ := s
  cases rest with
  | nil => exact h
  | cons t rest => exact h.1

/-- On the way from the state `s` to the state `t` the items have been read, one after the other, and all nodes that
have been made are in them. -/
structure Stretch (s t : State) (items : List Item) : Prop where
  begun : s.Ready
  ready : t.Ready
  finish : t.finish = s.finish
  took : t.here = s.here ∧ t.previous = s.previous ∨
    s.here.start ≤ t.previous.start ∧ s.here.stop ≤ t.previous.stop
  ahead : Span.InOrder s.here.start (items.map Item.span) t.here.start
  behind : Span.InOrder s.previous.stop (items.map Item.span) t.previous.stop
  nested : ∀ i ∈ items, i.Nested
  expressions : t.nodes.expressions.toList = s.nodes.expressions.toList ++ items.flatMap Item.expressions
  types : t.nodes.types.toList = s.nodes.types.toList ++ items.flatMap Item.types

/-- The span covers the items, within the stretch in which they stand. -/
structure Encloses (s t : State) (items : List Item) (span : Span) : Prop where
  lower : s.here.start ≤ span.start
  upper : span.stop ≤ t.previous.stop
  order : Span.InOrder span.start (items.map Item.span) span.stop

namespace Stretch

variable {s t u : State} {items more : List Item} {i : Item}

theorem refl (h : s.Ready) : Stretch s s [] :=
  ⟨h, h, rfl, .inl ⟨rfl, rfl⟩, Nat.le_refl _, Nat.le_refl _, nofun, (List.append_nil _).symm, (List.append_nil _).symm⟩

theorem trans (h : Stretch s t items) (h' : Stretch t u more) : Stretch s u (items ++ more) where
  begun := h.begun
  ready := h'.ready
  finish := h'.finish.trans h.finish
  took := by
    have hahead := h.ahead.le
    have hbehind := h'.behind.le
    rcases h.took with ⟨hhere, hprevious⟩ | ⟨hstart, hstop⟩
    · rw [← hhere, ← hprevious]
      exact h'.took
    · rcases h'.took with ⟨hhere, hprevious⟩ | ⟨hstart', -⟩
      · rw [hprevious]
        exact .inr ⟨hstart, hstop⟩
      · exact .inr ⟨Nat.le_trans hahead hstart', Nat.le_trans hstop hbehind⟩
  ahead := by
    rw [List.map_append]
    exact h.ahead.append h'.ahead
  behind := by
    rw [List.map_append]
    exact h.behind.append h'.behind
  nested := List.forall_mem_append.mpr ⟨h.nested, h'.nested⟩
  expressions := by rw [h'.expressions, h.expressions, List.flatMap_append, List.append_assoc]
  types := by rw [h'.types, h.types, List.flatMap_append, List.append_assoc]

theorem keep {kept : List Item} (h : Stretch s t items) (hkeep : Keeps items kept) : Stretch s t kept where
  begun := h.begun
  ready := h.ready
  finish := h.finish
  took := h.took
  ahead := h.ahead.sublist (hkeep.sublist.map _)
  behind := h.behind.sublist (hkeep.sublist.map _)
  nested i hi := h.nested i (hkeep.sublist.subset hi)
  expressions := by rw [hkeep.flatMap_eq expressions_token, h.expressions]
  types := by rw [hkeep.flatMap_eq types_token, h.types]

/-- Taking a token. -/
theorem advance {token : Token} (hhead : s.tokens.head? = some token) (h : s.Ready) :
    Stretch s s.advance [.token s.here] := by
  obtain ⟨rest, previous, finish, nodes, errors⟩ := s
  cases rest with
  | nil => cases hhead
  | cons first rest =>
      obtain ⟨hstart, hnonempty, hrest⟩ := h
      have hready : State.Ready ⟨rest, first.span, finish, nodes, errors⟩ := hrest
      refine ⟨⟨hstart, hnonempty, hrest⟩, hready, rfl, .inr ⟨Nat.le_refl _, Nat.le_refl _⟩, ?_, ?_, ?_, ?_, ?_⟩
      · exact ⟨Nat.le_refl _, hnonempty, hready.le⟩
      · exact ⟨hstart, hnonempty, Nat.le_refl _⟩
      · rw [List.forall_mem_singleton, nested_iff]
        exact ⟨⟨hnonempty, Nat.le_of_lt hnonempty, nofun⟩, nofun⟩
      · rw [List.flatMap_singleton, expressions_token, List.append_nil]
        rfl
      · rw [List.flatMap_singleton, types_token, List.append_nil]
        rfl

/-! The spans of nodes -/

/-- From the first token on. -/
theorem encloses_here (h : Stretch s t items) (hitems : items ≠ []) :
    Encloses s t items (s.here.merge t.previous) := by
  obtain ⟨i, rest, rfl⟩ := List.exists_cons_of_ne_nil hitems
  have hfirst := h.ahead.1
  have hall := h.behind.2
  have hready := h.begun.le
  have htook : s.here.start ≤ t.previous.start ∧ s.here.stop ≤ t.previous.stop := by
    refine h.took.resolve_left fun ⟨_, hprevious⟩ => ?_
    have := hall.1
    have := hall.2.le
    rw [hprevious] at this
    omega
  refine ⟨?_, ?_, ?_⟩
  · exact Nat.le_min.mpr ⟨Nat.le_refl _, htook.1⟩
  · exact Nat.max_le.mpr ⟨htook.2, Nat.le_refl _⟩
  · have horder : Span.InOrder s.here.start ((i :: rest).map Item.span) t.previous.stop := ⟨hfirst, hall⟩
    exact horder.widen (Nat.min_le_left _ _) (Nat.le_max_right _ _)

/-- From the first item on. -/
theorem encloses_first (h : Stretch s t (i :: items)) : Encloses s t (i :: items) (i.span.merge t.previous) := by
  have hwhole := h.encloses_here (List.cons_ne_nil _ _)
  have hall := h.behind.2
  have hlower := hwhole.lower
  have hmin : (s.here.merge t.previous).start ≤ t.previous.start := Nat.min_le_right _ _
  refine ⟨?_, ?_, ?_⟩
  · exact Nat.le_min.mpr ⟨h.ahead.1, Nat.le_trans hlower hmin⟩
  · exact Nat.max_le.mpr ⟨hall.2.le, Nat.le_refl _⟩
  · have horder : Span.InOrder i.span.start ((i :: items).map Item.span) t.previous.stop := ⟨Nat.le_refl _, hall⟩
    exact horder.widen (Nat.min_le_left _ _) (Nat.le_max_right _ _)

/-- From the first of two items to the second. -/
theorem encloses_both {j : Item} (h : Stretch s t [i, j]) : Encloses s t [i, j] (i.span.merge j.span) := by
  obtain ⟨hfirst, hnonempty, hsecond, hnonempty', -⟩ := h.ahead
  obtain ⟨-, -, -, -, hlast⟩ := h.behind
  have hlast : j.span.stop ≤ t.previous.stop := hlast
  refine ⟨?_, ?_, ?_⟩
  · exact Nat.le_min.mpr ⟨hfirst, by omega⟩
  · exact Nat.max_le.mpr ⟨by omega, hlast⟩
  · have horder : Span.InOrder i.span.start ([i, j].map Item.span) j.span.stop :=
      ⟨Nat.le_refl _, hnonempty, hsecond, hnonempty', Nat.le_refl _⟩
    exact horder.widen (Nat.min_le_left _ _) (Nat.le_max_right _ _)

/-- The items are put into one, which is a new node if it is an expression or a type. -/
theorem item (h : Stretch s t items) (hfits : i.Fits) (hkeeps : Keeps items i.children)
    (hspan : s.here.start ≤ i.span.start ∧ i.span.stop ≤ t.previous.stop) {nodes : Nodes}
    (hexpressions : nodes.expressions.toList = t.nodes.expressions.toList ++ i.expr?.toList)
    (htypes : nodes.types.toList = t.nodes.types.toList ++ i.type?.toList) : Stretch s { t with nodes } [i] where
  begun := h.begun
  ready := h.ready
  finish := h.finish
  took := h.took
  ahead := ⟨hspan.1, hfits.nonempty, Nat.le_trans hspan.2 h.ready.le⟩
  behind := ⟨Nat.le_trans h.begun.le hspan.1, hfits.nonempty, hspan.2⟩
  nested := by
    rw [List.forall_mem_singleton, nested_iff]
    exact ⟨hfits, fun c hc => h.nested c (hkeeps.sublist.subset hc)⟩
  expressions := by
    rw [List.flatMap_singleton, expressions_eq, hkeeps.flatMap_eq expressions_token, ← List.append_assoc,
      ← h.expressions]
    exact hexpressions
  types := by
    rw [List.flatMap_singleton, types_eq, hkeeps.flatMap_eq types_token, ← List.append_assoc, ← h.types]
    exact htypes

/-- The items are put into one that they make up. -/
theorem madeUp (h : Stretch s t items) (hmakes : MakesUp items i.children) (hspan : Encloses s t items i.span)
    {nodes : Nodes} (hexpressions : nodes.expressions.toList = t.nodes.expressions.toList ++ i.expr?.toList)
    (htypes : nodes.types.toList = t.nodes.types.toList ++ i.type?.toList) : Stretch s { t with nodes } [i] :=
  h.item (hmakes.fits hspan.order) hmakes.keeps ⟨hspan.lower, hspan.upper⟩ hexpressions htypes

end Stretch

/-! ## Readers -/

variable {α β : Type} {s₀ s : State} {given : List Item} {r : Reader α} {next : α → Reader β} {items : α → List Item}
  {more : β → List Item}

/-- Where `given` has been read from the state `s₀` up to the state `s`, the reader puts down an error, or `items` have
been read from `s₀` on when it is done. -/
structure SetsAt (s₀ : State) (given : List Item) (s : State) (r : Reader α) (items : α → List Item) : Prop
    extends CarefulAt s r where
  sets : ∀ a, (r s).1 = some a → (r s).2.errors.size = s.errors.size → Stretch s₀ s given →
    Stretch s₀ (r s).2 (items a)

/-- The reader puts down an error or reads the items. -/
abbrev Sets (r : Reader α) (items : α → List Item) : Prop := ∀ s, SetsAt s [] s r items

/-- The reader puts down an error or reads tokens. -/
abbrev Skips (r : Reader α) : Prop := Sets r fun _ => []

theorem SetsAt.of_eq {r' : Reader α} (h : SetsAt s₀ given s r items) (hr : r' s = r s) :
    SetsAt s₀ given s r' items := by
  constructor
  · constructor <;> rw [hr]
    · exact h.errors
    · exact h.failed
  · rw [hr]
    exact h.sets

/-- Where there was an error, nothing needs to have been read. -/
theorem setsAt_of_grown (h : s.errors.size < (r s).2.errors.size) : SetsAt s₀ given s r items :=
  ⟨⟨Nat.le_of_lt h, fun _ => h⟩, fun _ _ hquiet => absurd hquiet (Nat.ne_of_gt h)⟩

theorem SetsAt.bind (h : SetsAt s₀ given s r items) (hnext : ∀ a t, SetsAt s₀ (items a) t (next a) more) :
    SetsAt s₀ given s (r >>= next) more := by
  refine ⟨h.toCarefulAt.bind fun a t => (hnext a t).toCarefulAt, ?_⟩
  have herrors := h.errors
  have hsets := h.sets
  rw [run_bind]
  match hr : r s with
  | (none, t) => exact nofun
  | (some a, t) =>
      rw [hr] at herrors hsets
      intro b hb hquiet hgiven
      have hrest := (hnext a t).errors
      have hitems := hsets a rfl (Nat.le_antisymm (hquiet ▸ hrest) herrors) hgiven
      exact (hnext a t).sets b hb (Nat.le_antisymm (hquiet ▸ herrors) hrest) hitems

/-- Behind what has been read before. -/
theorem SetsAt.frame (h : SetsAt s [] s r items) (s₀ : State) (given : List Item) :
    SetsAt s₀ given s r fun a => given ++ items a :=
  ⟨h.toCarefulAt, fun a ha hquiet hgiven => hgiven.trans (h.sets a ha hquiet (.refl hgiven.ready))⟩

theorem SetsAt.andThen (h : SetsAt s [] s r items) (hnext : ∀ a t, SetsAt s₀ (given ++ items a) t (next a) more) :
    SetsAt s₀ given s (r >>= next) more := (h.frame s₀ given).bind hnext

theorem SetsAt.keep {kept : α → List Item} (h : SetsAt s₀ given s r items) (hkeep : ∀ a, Keeps (items a) (kept a)) :
    SetsAt s₀ given s r kept :=
  ⟨h.toCarefulAt, fun a ha hquiet hgiven => (h.sets a ha hquiet hgiven).keep (hkeep a)⟩

theorem SetsAt.skip (h : SetsAt s [] s r fun _ => []) (hnext : ∀ a t, SetsAt s₀ given t (next a) more) :
    SetsAt s₀ given s (r >>= next) more := by
  refine h.andThen fun a t => ?_
  rw [List.append_nil]
  exact hnext a t

theorem setsAt_pure {a : α} (h : Keeps given (items a)) : SetsAt s₀ given s (pure a) items := by
  refine ⟨⟨Nat.le_refl _, nofun⟩, fun b hb _ hgiven => ?_⟩
  obtain rfl := Option.some.inj hb
  exact hgiven.keep h

theorem setsAt_expected (what : Expectation) : SetsAt s₀ given s (expected what) items :=
  setsAt_of_grown (by simp [expected, report])

theorem setsAt_bounded {r : Nat → Reader α} (h : ∀ count, SetsAt s₀ given s (r count) items) :
    SetsAt s₀ given s (bounded r) items := (h _).of_eq rfl

/-! ## Steps that take one token, or none -/

theorem setsAt_here {next : Span → Reader β} (h : SetsAt s₀ given s (next s.here) more) :
    SetsAt s₀ given s (here >>= next) more := h.of_eq rfl

theorem setsAt_spanFrom {start : Span} {next : Span → Reader β}
    (h : SetsAt s₀ given s (next (start.merge s.previous)) more) : SetsAt s₀ given s (spanFrom start >>= next) more :=
  h.of_eq rfl

theorem setsAt_peek {next : Option Token → Reader β} (h : SetsAt s₀ given s (next s.tokens.head?) more) :
    SetsAt s₀ given s (peek >>= next) more := by
  rw [State.tokens, List.head?_map] at h
  exact h.of_eq rfl

theorem skips_atClose (close : Punctuation) : Skips (atClose close) := by
  intro s
  have hleaves (atEnd : Bool) : SetsAt s [] s (pure atEnd) fun _ => [] := setsAt_pure .nil
  exact (hleaves _).of_eq run_atClose

theorem sets_advance {token : Token} (hhead : s.tokens.head? = some token) :
    SetsAt s [] s advance fun _ => [.token s.here] :=
  ⟨⟨Nat.le_of_eq (congrArg Array.size State.errors_advance.symm), nofun⟩,
    fun _ _ _ hgiven => .advance hhead hgiven.ready⟩

theorem sets_token? (token : Token) (s : State) :
    SetsAt s [] s (token? token) fun found => if found then [.token s.here] else [] := by
  by_cases hhead : s.tokens.head? = some token
  · have htakes : SetsAt s [] s (advance >>= fun _ => pure true) fun found => if found then [.token s.here] else [] :=
      (sets_advance hhead).andThen fun _ t => setsAt_pure (.refl _)
    exact htakes.of_eq (run_token?_of_eq hhead)
  · have hleaves : SetsAt s [] s (pure false) fun found => if found then [.token s.here] else [] :=
      setsAt_pure (.refl _)
    exact hleaves.of_eq (run_token?_of_ne hhead)

theorem sets_token (token : Token) (s : State) : SetsAt s [] s (Reader.token token) fun _ => [.token s.here] := by
  refine (sets_token? token s).andThen fun found t => ?_
  cases found with
  | true => exact setsAt_pure (.refl _)
  | false => exact setsAt_expected _

theorem sets_mark? (p : Punctuation) (s : State) :
    SetsAt s [] s (mark? p) fun found => if found then [.token s.here] else [] := sets_token? _ s

theorem sets_mark (p : Punctuation) (s : State) : SetsAt s [] s (mark p) fun _ => [.token s.here] := sets_token _ s

theorem sets_ident : Sets ident fun name => [.token name.span] := by
  intro s
  apply setsAt_peek
  split
  · apply setsAt_here
    exact (sets_advance ‹_›).andThen fun _ t => setsAt_pure (.refl _)
  · exact setsAt_expected _

theorem skips_advance {token : Token} (hhead : s.tokens.head? = some token) : SetsAt s [] s advance fun _ => [] :=
  (sets_advance hhead).keep fun _ => .token _ .nil

theorem skips_ident : Skips ident := fun s => (sets_ident s).keep fun _ => .token _ .nil

theorem skips_mark? (p : Punctuation) : Skips (mark? p) := by
  refine fun s => (sets_mark? p s).keep fun found => ?_
  cases found with
  | true => exact .token _ .nil
  | false => exact .nil

theorem skips_mark (p : Punctuation) : Skips (mark p) := fun s => (sets_mark p s).keep fun _ => .token _ .nil

theorem skips_keyword (k : Keyword) : Skips (keyword k) := fun s => (sets_token _ s).keep fun _ => .token _ .nil

/-! ## Lists -/

section

variable {item : Reader α} {make : α → Item} (hitem : Sets item fun a => [make a])
include hitem

theorem sets_moreUpTo (separator : Punctuation) (count : Nat) : Sets (moreUpTo separator item count) (·.map make) := by
  induction count with
  | zero => exact fun s => setsAt_pure .nil
  | succ count ih =>
      refine fun s => (skips_mark? separator s).skip fun found t => ?_
      cases found with
      | true => exact (hitem t).andThen fun a t => (ih t).andThen fun rest t => setsAt_pure (.refl _)
      | false => exact setsAt_pure .nil

theorem sets_separated (separator : Punctuation) : Sets (separated separator item) (·.map make) := by
  refine fun s => (hitem s).andThen fun a t => ?_
  exact SetsAt.andThen (setsAt_bounded fun count => sets_moreUpTo hitem separator count t) fun rest t =>
    setsAt_pure (.refl _)

theorem sets_itemsUpTo (close : Punctuation) (count : Nat) : Sets (itemsUpTo close item count) (·.map make) := by
  induction count with
  | zero => exact fun s => setsAt_pure .nil
  | succ count ih =>
      refine fun s => (skips_atClose close s).skip fun atEnd t => ?_
      cases atEnd with
      | true => exact setsAt_pure .nil
      | false =>
          refine (hitem t).andThen fun a t => (skips_mark? .comma t).skip fun found t => ?_
          cases found with
          | true => exact (ih t).andThen fun rest t => setsAt_pure (.refl _)
          | false => exact setsAt_pure (.refl _)

theorem sets_itemsUntil (close : Punctuation) : Sets (itemsUntil close item) (·.map make) := by
  refine fun s => SetsAt.andThen (setsAt_bounded fun count => sets_itemsUpTo hitem close count s) fun as t => ?_
  exact (skips_mark close t).skip fun _ t => setsAt_pure (.refl _)

end

/-! ## Nodes -/

theorem setsAt_newExpr {span : Span} {make : Site → Expr} (hsite : ∀ site, (make site).site = site)
    (hmakes : ∀ site, MakesUp given (make site).items)
    (hspan : Stretch s₀ s given → given ≠ [] → Encloses s₀ s given span) :
    SetsAt s₀ given s (newExpr span make) fun e => [.expr e] := by
  refine ⟨⟨Nat.le_refl _, nofun⟩, fun e he _ hgiven => ?_⟩
  obtain rfl := Option.some.inj he
  have hmakes := hmakes ⟨s.nodes.expressions.size, span⟩
  have hencloses : Encloses s₀ s given (make ⟨s.nodes.expressions.size, span⟩).site.span := by
    rw [hsite]
    exact hspan hgiven hmakes.ne_nil
  exact hgiven.madeUp (i := .expr _) hmakes hencloses Array.toList_push (List.append_nil _).symm

theorem setsAt_newType {span : Span} {make : Site → TypeExpr} (hsite : ∀ site, (make site).site = site)
    (hmakes : ∀ site, MakesUp given (make site).items)
    (hspan : Stretch s₀ s given → given ≠ [] → Encloses s₀ s given span) :
    SetsAt s₀ given s (newType span make) fun t => [.type t] := by
  refine ⟨⟨Nat.le_refl _, nofun⟩, fun t ht _ hgiven => ?_⟩
  obtain rfl := Option.some.inj ht
  have hmakes := hmakes ⟨s.nodes.types.size, span⟩
  have hencloses : Encloses s₀ s given (make ⟨s.nodes.types.size, span⟩).site.span := by
    rw [hsite]
    exact hspan hgiven hmakes.ne_nil
  exact hgiven.madeUp (i := .type _) hmakes hencloses (List.append_nil _).symm Array.toList_push

/-- A node that begins where the stretch begins. -/
theorem setsAt_newExprFrom {make : Site → Expr} (hsite : ∀ site, (make site).site = site)
    (hmakes : ∀ site, MakesUp given (make site).items) :
    SetsAt s₀ given s (do newExpr (← spanFrom s₀.here) make) fun e => [.expr e] :=
  setsAt_spanFrom (setsAt_newExpr hsite hmakes Stretch.encloses_here)

theorem setsAt_newTypeFrom {make : Site → TypeExpr} (hsite : ∀ site, (make site).site = site)
    (hmakes : ∀ site, MakesUp given (make site).items) :
    SetsAt s₀ given s (do newType (← spanFrom s₀.here) make) fun t => [.type t] :=
  setsAt_spanFrom (setsAt_newType hsite hmakes Stretch.encloses_here)

/-- A part of the tree that is no node. -/
theorem setsAt_pure_item {a : α} {i : Item} (hitems : items a = [i]) (hexpr : i.expr? = none) (htype : i.type? = none)
    (hmakes : MakesUp given i.children) (hspan : Stretch s₀ s given → given ≠ [] → Encloses s₀ s given i.span) :
    SetsAt s₀ given s (pure a) items := by
  refine ⟨⟨Nat.le_refl _, nofun⟩, fun b hb _ hgiven => ?_⟩
  obtain rfl := Option.some.inj hb
  rw [hitems]
  refine hgiven.madeUp hmakes (hspan hgiven hmakes.ne_nil) ?_ ?_
  · rw [hexpr, Option.toList_none, List.append_nil]
  · rw [htype, Option.toList_none, List.append_nil]

end Reader

end Sable
