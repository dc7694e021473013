import Sable.Tree

/-! The parts of a tree that have spans, and how their spans lie.

The parts of an item stand in it one after the other, with gaps between them for the tokens of which no place is
kept. So an item contains what its parts contain, and what is in one of its parts does not overlap what is in
another. -/
namespace Sable

namespace Span

/-- The spans are not empty and stand one after the other from `lo` on, up to `hi` at most. -/
def InOrder : Nat → List Span → Nat → Prop
  | lo, [], hi => lo ≤ hi
  | lo, span :: rest, hi => lo ≤ span.start ∧ span.start < span.stop ∧ InOrder span.stop rest hi

theorem eq_of_within {a b : Span} (hstart : a.start ≤ b.start) (hstop : b.stop ≤ a.stop) (hstart' : b.start ≤ a.start)
    (hstop' : a.stop ≤ b.stop) : b = a := by
  cases a
  cases b
  rw [Span.mk.injEq]
  exact ⟨Nat.le_antisymm hstart' hstart, Nat.le_antisymm hstop hstop'⟩

variable {lo mid hi : Nat} {spans rest : List Span} {span : Span}

namespace InOrder

theorem le (h : InOrder lo spans hi) : lo ≤ hi := by
  induction spans generalizing lo with
  | nil => exact h
  | cons span spans ih =>
      have := h.1
      have := h.2.1
      have := ih h.2.2
      omega

theorem append (h : InOrder lo spans mid) (h' : InOrder mid rest hi) : InOrder lo (spans ++ rest) hi := by
  induction spans generalizing lo with
  | nil =>
      have hle : lo ≤ mid := h
      cases rest with
      | nil => exact Nat.le_trans hle h'
      | cons span rest => exact ⟨Nat.le_trans hle h'.1, h'.2⟩
  | cons span spans ih => exact ⟨h.1, h.2.1, ih h.2.2⟩

theorem widen {lo' hi' : Nat} (h : InOrder lo spans hi) (hlo : lo' ≤ lo) (hhi : hi ≤ hi') : InOrder lo' spans hi' := by
  have hlast : InOrder hi [] hi' := hhi
  have hfirst : InOrder lo' [] lo := hlo
  have hall := hfirst.append (h.append hlast)
  rwa [List.nil_append, List.append_nil] at hall

theorem sublist (h : InOrder lo spans hi) (hrest : rest.Sublist spans) : InOrder lo rest hi := by
  induction hrest generalizing lo with
  | slnil => exact h
  | cons span _ ih => exact (ih h.2.2).widen (Nat.le_trans h.1 (Nat.le_of_lt h.2.1)) (Nat.le_refl _)
  | cons_cons span _ ih => exact ⟨h.1, h.2.1, ih h.2.2⟩

/-- Spans that follow each other are in order, up to the end of the last. -/
theorem of_pairwise (hordered : spans.Pairwise fun a b => a.stop ≤ b.start)
    (hnonempty : ∀ span ∈ spans, span.start < span.stop) (hlo : ∀ span ∈ spans, lo ≤ span.start) :
    InOrder lo spans ((spans.getLast?.map stop).getD lo) := by
  induction spans generalizing lo with
  | nil => exact Nat.le_refl _
  | cons span spans ih =>
      obtain ⟨hspan, hordered⟩ := List.pairwise_cons.mp hordered
      have hrest := ih hordered (fun a ha => hnonempty a (List.mem_cons_of_mem _ ha)) hspan
      refine ⟨hlo span List.mem_cons_self, hnonempty span List.mem_cons_self, ?_⟩
      rw [List.getLast?_cons]
      cases hlast : spans.getLast? with
      | none => rwa [hlast] at hrest
      | some last => rwa [hlast] at hrest

theorem bounds (h : InOrder lo spans hi) (hspan : span ∈ spans) :
    lo ≤ span.start ∧ span.start < span.stop ∧ span.stop ≤ hi := by
  have hone := h.sublist (List.singleton_sublist.mpr hspan)
  exact ⟨hone.1, hone.2.1, hone.2.2⟩

theorem pairwise (h : InOrder lo spans hi) : spans.Pairwise fun a b => a.stop ≤ b.start := by
  induction spans generalizing lo with
  | nil => exact .nil
  | cons span spans ih => exact .cons (fun _ hb => (h.2.2.bounds hb).1) (ih h.2.2)

/-- Of two spans or more none is as long as all of them together. -/
theorem ne_whole {first second whole : Span} (h : InOrder whole.start (first :: second :: rest) whole.stop)
    (hspan : span ∈ first :: second :: rest) : span ≠ whole := by
  rintro rfl
  obtain ⟨hstart, hfirst, hlater⟩ := h
  rcases List.mem_cons.mp hspan with rfl | hspan
  · have := hlater.1
    have := hlater.2.1
    have := hlater.2.2.le
    omega
  · have := (hlater.bounds hspan).1
    omega

end InOrder

end Span

/-! ## Items -/

def Declaration.span : Declaration → Span
  | .value span .. | .function span .. | .external span .. | .alias span .. | .union span .. => span

/-- What has a span: a token that the tree keeps the place of, such as a name, or a part of the tree. -/
inductive Item where
  | token (span : Span)
  | type (t : TypeExpr)
  | parameter (p : Parameter TypeExpr)
  | expr (e : Expr)
  | field (f : FieldInit Expr)
  | arm (a : MatchArm Expr)
  | alternative (a : Alternative)
  | declaration (d : Declaration)
  | body (b : Body)

namespace Item

def span : Item → Span
  | token span => span
  | type t => t.site.span
  | parameter p => p.span
  | expr e => e.span
  | field f => f.span
  | arm a => a.span
  | alternative a => a.span
  | declaration d => d.span
  | body b => b.span

/-- The names of type parameters. -/
def ofGenerics (names : Generics) : List Item := names.map fun name => token name.span

def ofParameters (ps : ParameterList (Parameter TypeExpr)) : List Item := ps.toList.map parameter

/-- A type that may be left out. -/
def ofType? (t : Option TypeExpr) : List Item := t.toList.map type

end Item

/-! The items that an item is made of, as they follow each other in the text. -/

def TypeExpr.items : TypeExpr → List Item
  | named _ _ arguments => arguments.map .type
  | object _ fields => fields.map fun field => .type field.2
  | function _ names ps result => Item.ofGenerics names ++ Item.ofParameters ps ++ [.type result]
  | nullable _ inner => [.type inner]

def Expr.items : Expr → List Item
  | number .. | bigInteger .. | boolean .. | null _ | reference .. => []
  | object _ fields => fields.map .field
  | binary _ _ lhs rhs => [.expr lhs, .expr rhs]
  | unary _ _ operand => [.expr operand]
  | conditional _ condition thenBranch elseBranch => [.expr condition, .expr thenBranch, .expr elseBranch]
  | call _ callee types arguments => .expr callee :: types.map .type ++ arguments.map .expr
  | lambda _ names ps result body =>
    Item.ofGenerics names ++ Item.ofParameters ps ++ Item.ofType? result ++ [.expr body]
  | field _ owner _ => [.expr owner]
  | tagged _ value _ | hasTag _ value _ | untag _ value => [.expr value]
  | cases _ scrutinee arms => .expr scrutinee :: arms.map .arm

def Declaration.items : Declaration → List Item
  | .value _ name type result => .token name.span :: Item.ofType? type ++ [.expr result]
  | .function _ name names ps result body =>
    .token name.span :: Item.ofGenerics names ++ Item.ofParameters ps ++ Item.ofType? result ++ [.body body]
  | .external _ name names ps result =>
    .token name.span :: Item.ofGenerics names ++ Item.ofParameters ps ++ [.type result]
  | .alias _ name names target => .token name.span :: Item.ofGenerics names ++ [.type target]
  | .union _ name names alternatives => .token name.span :: Item.ofGenerics names ++ alternatives.map .alternative

def Body.items (b : Body) : List Item := b.declarations.map .declaration ++ [.expr b.result]

namespace Item

/-- The items that the item is made of. -/
def children : Item → List Item
  | token _ => []
  | type t => t.items
  | parameter p => [token p.name.span, type p.type]
  | expr e => e.items
  | field f => [expr f.value]
  | arm a => [token a.tag.span, token a.binding.span, expr a.body]
  | alternative a => [type a.payload]
  | declaration d => d.items
  | body b => b.items

variable {i c inner : Item}

/-! ## Everything in an item -/

theorem sizeOf_token (name : Spanned String) : sizeOf (token name.span) ≤ sizeOf name := by
  cases name
  simp only [token.sizeOf_spec, Spanned.mk.sizeOf_spec]
  omega

theorem sizeOf_map {α : Type} [SizeOf α] {make : α → Item} (hmake : ∀ a, sizeOf (make a) ≤ 1 + sizeOf a) {xs : List α}
    (h : c ∈ xs.map make) : sizeOf c ≤ sizeOf xs := by
  obtain ⟨a, ha, rfl⟩ := List.mem_map.mp h
  have := List.sizeOf_lt_of_mem ha
  have := hmake a
  omega

@[grind →]
theorem sizeOf_ofGenerics {names : Generics} (h : c ∈ ofGenerics names) : sizeOf c ≤ sizeOf names :=
  sizeOf_map (fun name => Nat.le_add_left_of_le (sizeOf_token name)) h

@[grind →]
theorem sizeOf_ofParameters {ps : ParameterList (Parameter TypeExpr)} (h : c ∈ ofParameters ps) :
    sizeOf c ≤ sizeOf ps := by
  cases ps with
  | fixed parameters =>
      have := sizeOf_map (fun _ => by simp) (show c ∈ parameters.map parameter from h)
      simp only [ParameterList.fixed.sizeOf_spec]
      omega
  | variadic p =>
      obtain rfl := List.mem_singleton.mp h
      simp

@[grind →]
theorem sizeOf_ofType? {t : Option TypeExpr} (h : c ∈ ofType? t) : sizeOf c ≤ sizeOf t := by
  obtain ⟨type, ht, rfl⟩ := List.mem_map.mp h
  obtain rfl := Option.mem_toList.mp ht
  simp

theorem sizeOf_typeExpr {t : TypeExpr} (h : c ∈ t.items) : sizeOf c ≤ sizeOf t := by
  have harguments {ts : List TypeExpr} (h : c ∈ ts.map type) := sizeOf_map (fun _ => by simp) h
  have hfields {fields : List (String × TypeExpr)} (h : c ∈ fields.map fun field => .type field.2) :=
    sizeOf_map (fun field => by cases field; simp) h
  cases t <;> simp only [TypeExpr.items, List.mem_append, List.mem_singleton] at h <;> simp <;>
    grind [type.sizeOf_spec]

theorem sizeOf_expr {e : Expr} (h : c ∈ e.items) : sizeOf c ≤ sizeOf e := by
  have htypes {ts : List TypeExpr} (h : c ∈ ts.map type) := sizeOf_map (fun _ => by simp) h
  have harguments {es : List Expr} (h : c ∈ es.map expr) := sizeOf_map (fun _ => by simp) h
  have hfields {fields : List (FieldInit Expr)} (h : c ∈ fields.map field) := sizeOf_map (fun _ => by simp) h
  have harms {arms : List (MatchArm Expr)} (h : c ∈ arms.map arm) := sizeOf_map (fun _ => by simp) h
  cases e <;> simp only [Expr.items, List.mem_append, List.mem_cons, List.not_mem_nil, or_false] at h <;> simp <;>
    grind [expr.sizeOf_spec]

theorem sizeOf_declaration {d : Declaration} (h : c ∈ d.items) : sizeOf c ≤ sizeOf d := by
  have halternatives {as : List Alternative} (h : c ∈ as.map alternative) := sizeOf_map (fun _ => by simp) h
  cases d <;> simp only [Declaration.items, List.mem_append, List.mem_cons, List.not_mem_nil, or_false] at h <;>
    simp <;> grind [expr.sizeOf_spec, type.sizeOf_spec, body.sizeOf_spec, sizeOf_token]

theorem sizeOf_body {b : Body} (h : c ∈ b.items) : sizeOf c ≤ sizeOf b := by
  have hdeclarations {ds : List Declaration} (h : c ∈ ds.map declaration) := sizeOf_map (fun _ => by simp) h
  cases b
  simp only [Body.items, Body.declarations, Body.result, List.mem_append, List.mem_singleton] at h
  simp only [Body.mk.sizeOf_spec]
  grind [expr.sizeOf_spec]

/-- What an item is made of is smaller. -/
theorem sizeOf_lt_of_mem_children (h : c ∈ i.children) : sizeOf c < sizeOf i := by
  cases i with
  | token span => cases h
  | type t => simpa [Nat.lt_one_add_iff] using sizeOf_typeExpr h
  | expr e => simpa [Nat.lt_one_add_iff] using sizeOf_expr h
  | declaration d => simpa [Nat.lt_one_add_iff] using sizeOf_declaration h
  | body b => simpa [Nat.lt_one_add_iff] using sizeOf_body h
  | parameter p =>
      cases p
      simp only [children, List.mem_cons, List.not_mem_nil, or_false] at h
      grind [parameter.sizeOf_spec, Parameter.mk.sizeOf_spec, type.sizeOf_spec, sizeOf_token]
  | field f =>
      cases f
      simp only [children, List.mem_singleton] at h
      grind [field.sizeOf_spec, FieldInit.mk.sizeOf_spec, expr.sizeOf_spec]
  | arm a =>
      cases a
      simp only [children, List.mem_cons, List.not_mem_nil, or_false] at h
      grind [arm.sizeOf_spec, MatchArm.mk.sizeOf_spec, expr.sizeOf_spec, sizeOf_token]
  | alternative a =>
      cases a
      simp only [children, List.mem_singleton] at h
      grind [alternative.sizeOf_spec, Alternative.mk.sizeOf_spec, type.sizeOf_spec]

/-- Everything in an item, each part of it before the item itself. -/
def postorder (i : Item) : List Item := i.children.attach.flatMap (fun c => postorder c.val) ++ [i]
termination_by sizeOf i
decreasing_by exact sizeOf_lt_of_mem_children c.property

theorem postorder_eq (i : Item) : i.postorder = i.children.flatMap postorder ++ [i] := by
  rw [postorder, List.flatMap_subtype (fun _ _ => rfl), List.unattach_attach]

theorem mem_postorder_iff : inner ∈ i.postorder ↔ inner = i ∨ ∃ c ∈ i.children, inner ∈ c.postorder := by
  rw [postorder_eq, List.mem_append, List.mem_flatMap, List.mem_singleton, or_comm]

theorem mem_postorder_self (i : Item) : i ∈ i.postorder := mem_postorder_iff.mpr (.inl rfl)

theorem mem_postorder_of_child (hc : c ∈ i.children) (h : inner ∈ c.postorder) : inner ∈ i.postorder :=
  mem_postorder_iff.mpr (.inr ⟨c, hc, h⟩)

/-- What holds of everything in an item holds of the item and of everything in its parts. -/
theorem forall_mem_postorder_iff {P : Item → Prop} :
    (∀ inner ∈ i.postorder, P inner) ↔ P i ∧ ∀ c ∈ i.children, ∀ inner ∈ c.postorder, P inner := by
  constructor
  · exact fun h => ⟨h i (mem_postorder_self i), fun c hc inner hinner => h inner (mem_postorder_of_child hc hinner)⟩
  · rintro ⟨hi, hchildren⟩ inner hinner
    rcases mem_postorder_iff.mp hinner with rfl | ⟨c, hc, hinner⟩
    · exact hi
    · exact hchildren c hc inner hinner

/-- Induction from the parts of an item to the item. -/
@[elab_as_elim]
theorem parts_induction {motive : Item → Prop} (step : ∀ i, (∀ c ∈ i.children, motive c) → motive i) (i : Item) :
    motive i :=
  step i fun c hc =>
    have := sizeOf_lt_of_mem_children hc
    parts_induction step c
termination_by sizeOf i

/-! ## How spans lie -/

/-- The item is not empty, and the items that it is made of stand in it one after the other. None of them is as long as
the item, except that a body may be nothing but its result. -/
structure Fits (i : Item) : Prop where
  nonempty : i.span.start < i.span.stop
  order : Span.InOrder i.span.start (i.children.map span) i.span.stop
  proper : ∀ c ∈ i.children, c.span = i.span → ∃ b, i = body b

/-- So does everything in the item. -/
def Nested (i : Item) : Prop := ∀ inner ∈ i.postorder, inner.Fits

theorem nested_iff : i.Nested ↔ i.Fits ∧ ∀ c ∈ i.children, c.Nested := forall_mem_postorder_iff

/-- An item contains everything in it. -/
theorem Nested.contains (h : i.Nested) (hinner : inner ∈ i.postorder) :
    i.span.start ≤ inner.span.start ∧ inner.span.stop ≤ i.span.stop := by
  induction i using parts_induction with
  | step i ih =>
      obtain ⟨hi, hchildren⟩ := nested_iff.mp h
      rcases mem_postorder_iff.mp hinner with rfl | ⟨c, hc, hinner⟩
      · exact ⟨Nat.le_refl _, Nat.le_refl _⟩
      · have := ih c hc (hchildren c hc) hinner
        have := hi.order.bounds (List.mem_map_of_mem hc)
        omega

/-! ## The expressions and the types in an item -/

def expr? : Item → Option Expr
  | expr e => some e
  | _ => none

def type? : Item → Option TypeExpr
  | type t => some t
  | _ => none

/-- The expressions in an item, each after those in it. -/
def expressions (i : Item) : List Expr := i.postorder.filterMap expr?

/-- The types in an item, each after those in it. -/
def types (i : Item) : List TypeExpr := i.postorder.filterMap type?

theorem filterMap_postorder {α : Type} (own : Item → Option α) (i : Item) : i.postorder.filterMap own =
    i.children.flatMap (fun c => c.postorder.filterMap own) ++ (own i).toList := by
  rw [postorder_eq, List.filterMap_append, List.filterMap_flatMap]
  cases h : own i <;> simp [h]

theorem expressions_eq (i : Item) : i.expressions = i.children.flatMap expressions ++ i.expr?.toList :=
  filterMap_postorder expr? i

theorem types_eq (i : Item) : i.types = i.children.flatMap types ++ i.type?.toList := filterMap_postorder type? i

theorem mem_expressions_iff {e : Expr} : e ∈ i.expressions ↔ expr e ∈ i.postorder := by
  simp only [expressions, List.mem_filterMap]
  constructor
  · rintro ⟨inner, hinner, he⟩
    cases inner <;> cases he
    exact hinner
  · exact fun h => ⟨expr e, h, rfl⟩

/-- An expression can be told by its span. -/
theorem Nested.pairwise_span (h : i.Nested) : i.expressions.Pairwise fun e f => e.span ≠ f.span := by
  induction i using parts_induction with
  | step i ih =>
      obtain ⟨hi, hchildren⟩ := nested_iff.mp h
      have hwithin {c : Item} {e : Expr} (hc : c ∈ i.children) (he : e ∈ c.expressions) :
          e.span.start < e.span.stop ∧ c.span.start ≤ e.span.start ∧ e.span.stop ≤ c.span.stop :=
        ⟨(hchildren c hc _ (mem_expressions_iff.mp he)).nonempty,
          (hchildren c hc).contains (mem_expressions_iff.mp he)⟩
      rw [expressions_eq, List.pairwise_append, List.pairwise_flatMap]
      refine ⟨⟨fun c hc => ih c hc (hchildren c hc), ?_⟩, ?_, ?_⟩
      · -- Of two children the one ends before the other begins.
        refine (List.pairwise_map.mp hi.order.pairwise).imp_of_mem fun {c d} hc hd hcd e he f hf heq => ?_
        have := hwithin hc he
        have := hwithin hd hf
        rw [heq] at *
        omega
      · cases i.expr? <;> simp
      · -- What is in a child is no longer than the child, which is shorter than the whole.
        rintro e he f hf heq
        obtain ⟨c, hc, he⟩ := List.mem_flatMap.mp he
        obtain ⟨-, hstart, hstop⟩ := hwithin hc he
        rw [heq] at hstart hstop
        have hbounds := hi.order.bounds (List.mem_map_of_mem hc)
        cases i <;> cases Option.mem_toList.mp hf
        exact nomatch hi.proper c hc (Span.eq_of_within hbounds.1 hbounds.2.2 hstart hstop)

end Item

end Sable
