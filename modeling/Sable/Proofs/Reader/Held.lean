import Sable.Proofs.Reader.MovedBodies
import Sable.Proofs.Reader.Program
import Sable.Proofs.Tree.Printed

/-! Reading puts every node in one place.

A reader has nodes at hand, those that it was given and those that it makes. It puts them into the nodes that it
makes, or gives them back. So none is put into two places; where there is no error, none is left behind. -/
namespace Sable.Reader

open TreeNode

/-- From the state `s` on, the nodes `given` are at hand; in the state `t` the nodes `left` are, and what else
there was is held by the nodes that were made. -/
structure Turns (s t : State) (given left : List TreeNode) : Prop where
  errors : s.errors.size ≤ t.errors.size
  within : s.nodes.Within t.nodes
  sound : s.nodes.Sound → (∀ node ∈ given, s.nodes.get? node.id = some node) →
    t.nodes.Sound ∧ ∀ node ∈ left, t.nodes.get? node.id = some node
  once : ∀ id, count id t.nodes.held + count id left + s.nodes.tally id ≤
    count id s.nodes.held + count id given + t.nodes.tally id
  exact : t.errors.size = s.errors.size → ∀ id, count id t.nodes.held + count id left + s.nodes.tally id =
    count id s.nodes.held + count id given + t.nodes.tally id

namespace Turns

variable {s t u : State} {given left final rest : List TreeNode}

theorem of_nodes_eq (herrors : s.errors.size ≤ t.errors.size) (hnodes : t.nodes = s.nodes) (given : List TreeNode) :
    Turns s t given given := by
  refine ⟨herrors, ?_, ?_, ?_, ?_⟩ <;> rw [hnodes]
  · exact .refl _
  · exact fun h hgiven => ⟨h, hgiven⟩
  · exact fun id => Nat.le_refl _
  · exact fun _ id => rfl

theorem trans (h : Turns s t given left) (h' : Turns t u left final) : Turns s u given final where
  errors := Nat.le_trans h.errors h'.errors
  within := h.within.trans h'.within
  sound hs hgiven :=
    have ⟨ht, hleft⟩ := h.sound hs hgiven
    h'.sound ht hleft
  once id := by
    have := h.once id
    have := h'.once id
    omega
  exact hquiet id := by
    have := h.errors
    have := h'.errors
    have := h.exact (by omega) id
    have := h'.exact (by omega) id
    omega

/-- More nodes at hand that are left alone. -/
theorem frame (h : Turns s t given left) (rest : List TreeNode) : Turns s t (rest ++ given) (rest ++ left) where
  errors := h.errors
  within := h.within
  sound hs hall := by
    rw [List.forall_mem_append] at hall
    obtain ⟨ht, hleft⟩ := h.sound hs hall.2
    exact ⟨ht, List.forall_mem_append.mpr ⟨fun node hnode => h.within _ _ (hall.1 node hnode), hleft⟩⟩
  once id := by
    have := h.once id
    simp only [count_append]
    omega
  exact hquiet id := by
    have := h.exact hquiet id
    simp only [count_append]
    omega

/-- With an error nodes may be left behind. -/
theorem drop (h : Turns s t given left) (herror : s.errors.size < t.errors.size) : Turns s t given [] where
  errors := h.errors
  within := h.within
  sound hs hgiven := ⟨(h.sound hs hgiven).1, by simp⟩
  once id := by
    have := h.once id
    rw [count_nil]
    omega
  exact hquiet := absurd hquiet (Nat.ne_of_gt herror)

theorem perm (h : Turns s t given left) {given' left' : List TreeNode} (hgiven : given'.Perm given)
    (hleft : left.Perm left') : Turns s t given' left' where
  errors := h.errors
  within := h.within
  sound hs hall := by
    obtain ⟨ht, hin⟩ := h.sound hs fun node hnode => hall node (hgiven.mem_iff.mpr hnode)
    exact ⟨ht, fun node hnode => hin node (hleft.mem_iff.mpr hnode)⟩
  once id := by
    rw [count_perm id hgiven, ← count_perm id hleft]
    exact h.once id
  exact hquiet id := by
    rw [count_perm id hgiven, ← count_perm id hleft]
    exact h.exact hquiet id

/-- A node is made of what is at hand. -/
theorem push {node : TreeNode} (herrors : t.errors = s.errors) (hnodes : t.nodes = s.nodes.push node)
    (hid : node.id = s.nodes.next node) : Turns s t node.parts [node] := by
  have hbalance (id) : count id t.nodes.held + count id [node] + s.nodes.tally id =
      count id s.nodes.held + count id node.parts + t.nodes.tally id := by
    rw [hnodes, Nodes.tally_push, count_perm id (s.nodes.held_push node), count_append, count_singleton, hid]
    omega
  refine ⟨Nat.le_of_eq (by rw [herrors]), ?_, fun hs hparts => ?_, fun id => Nat.le_of_eq (hbalance id),
    fun _ => hbalance⟩
  · rw [hnodes]
    exact s.nodes.within_push node
  · rw [hnodes]
    refine ⟨hs.push hid hparts, List.forall_mem_singleton.mpr ?_⟩
    rw [Nodes.get?_push, if_pos hid]

end Turns

/-! ## Readers -/

variable {α β : Type} {s : State} {given : List TreeNode} {r : Reader α} {next : α → Reader β}
  {held : α → List TreeNode} {heldNext : β → List TreeNode}

/-- From the state `s`, with `given` at hand, the reader gives something that holds `held`. -/
structure HandsAt (s : State) (given : List TreeNode) (r : Reader α) (held : α → List TreeNode) : Prop where
  turns : Turns s (r s).2 given ((r s).1.elim [] held)
  failed : (r s).1 = none → s.errors.size < (r s).2.errors.size

/-- What the reader gives holds nodes that the reader makes. -/
abbrev Hands (r : Reader α) (held : α → List TreeNode) : Prop := ∀ s, HandsAt s [] r held

theorem HandsAt.bind (h : HandsAt s given r held) (hnext : ∀ a t, HandsAt t (held a) (next a) heldNext) :
    HandsAt s given (r >>= next) heldNext := by
  obtain ⟨hturns, hfailed⟩ := h
  cases hr : r s with
  | mk found t =>
      rw [hr] at hturns hfailed
      cases found with
      | none =>
          have hrun : (r >>= next) s = (none, t) := by rw [run_bind, hr]
          exact ⟨hrun ▸ hturns, fun _ => hrun ▸ hfailed rfl⟩
      | some a =>
          obtain ⟨hturns', hfailed'⟩ := hnext a t
          have hrun : (r >>= next) s = next a t := by rw [run_bind, hr]
          rw [← hrun] at hturns' hfailed'
          exact ⟨hturns.trans hturns', fun hnone => Nat.lt_of_le_of_lt hturns.errors (hfailed' hnone)⟩

/-- More nodes at hand that the reader leaves alone. -/
theorem HandsAt.frame (h : HandsAt s [] r held) (given : List TreeNode) :
    HandsAt s given r fun a => given ++ held a := by
  refine ⟨?_, h.failed⟩
  have hturns := h.turns.frame given
  rw [List.append_nil] at hturns
  cases hfound : (r s).1 with
  | none => exact hturns.drop (h.failed hfound)
  | some a =>
      rw [hfound] at hturns
      exact hturns

theorem HandsAt.andThen (h : HandsAt s [] r held)
    (hnext : ∀ a t, HandsAt t (given ++ held a) (next a) heldNext) : HandsAt s given (r >>= next) heldNext :=
  (h.frame given).bind hnext

/-- After a reader that makes no nodes, or none that it gives back. -/
theorem HandsAt.skip (h : HandsAt s [] r fun _ => []) (hnext : ∀ a t, HandsAt t given (next a) heldNext) :
    HandsAt s given (r >>= next) heldNext := by
  refine h.andThen fun a t => ?_
  rw [List.append_nil]
  exact hnext a t

theorem HandsAt.perm {given' : List TreeNode} (h : HandsAt s given r held) (hgiven : given'.Perm given) :
    HandsAt s given' r held := ⟨h.turns.perm hgiven (.refl _), h.failed⟩

theorem handsAt_pure {a : α} (h : given.Perm (held a)) : HandsAt s given (pure a) held :=
  ⟨(Turns.of_nodes_eq (Nat.le_refl _) rfl given).perm (.refl _) h, nofun⟩

theorem hands_bounded {r : Nat → Reader α} (h : ∀ count, HandsAt s given (r count) held) :
    HandsAt s given (bounded r) held := ⟨(h _).turns, (h _).failed⟩

theorem handsAt_step (hcareful : CarefulAt s r) (hnodes : (r s).2.nodes = s.nodes) :
    HandsAt s [] r fun _ => [] := by
  refine ⟨?_, hcareful.failed⟩
  have hturns := Turns.of_nodes_eq hcareful.errors hnodes []
  cases (r s).1 <;> exact hturns

theorem handsAt_expected (what : Expectation) : HandsAt s given (expected what) held := by
  have herror : s.errors.size < ((expected what : Reader α) s).2.errors.size := by simp [expected, report]
  exact ⟨(Turns.of_nodes_eq (Nat.le_of_lt herror) rfl given).drop herror, fun _ => herror⟩

theorem HandsAt.attempt (h : HandsAt s [] r held) : HandsAt s [] (attempt r) (·.elim [] held) := ⟨h.turns, nofun⟩

/-! ## Steps that make no node -/

theorem hands_peek : Hands peek fun _ => [] := fun _ => handsAt_step ⟨Nat.le_refl _, nofun⟩ rfl

theorem hands_here : Hands here fun _ => [] := fun _ => handsAt_step ⟨Nat.le_refl _, nofun⟩ rfl

theorem State.nodes_advance (s : State) : s.advance.nodes = s.nodes := by
  unfold State.advance
  split <;> rfl

theorem hands_advance : Hands advance fun _ => [] := fun s =>
  handsAt_step ⟨Nat.le_of_eq (congrArg Array.size State.errors_advance.symm), nofun⟩ s.nodes_advance

theorem hands_spanFrom (start : Span) : Hands (spanFrom start) fun _ => [] :=
  fun _ => handsAt_step ⟨Nat.le_refl _, nofun⟩ rfl

theorem hands_report (fault : Option Token → ParseFault) : Hands (report fault) fun _ => [] :=
  fun _ => handsAt_step ⟨by simp [report], nofun⟩ rfl

theorem hands_recover : Hands recover fun _ => [] := fun _ => handsAt_step ⟨Nat.le_refl _, nofun⟩ rfl

theorem hands_atParameters : Hands atParameters fun _ => [] := fun _ => handsAt_step ⟨Nat.le_refl _, nofun⟩ rfl

theorem hands_token? (token : Token) : Hands (token? token) fun _ => [] := by
  refine fun s => (hands_peek s).skip fun found t => ?_
  split
  · exact (hands_advance t).skip fun _ t => handsAt_pure (.refl _)
  · exact handsAt_pure (.refl _)

theorem hands_token (token : Token) : Hands (Reader.token token) fun _ => [] := by
  refine fun s => (hands_token? token s).skip fun found t => ?_
  cases found with
  | true => exact handsAt_pure (.refl _)
  | false => exact handsAt_expected _

theorem hands_mark? (p : Punctuation) : Hands (mark? p) fun _ => [] := hands_token? _

theorem hands_mark (p : Punctuation) : Hands (mark p) fun _ => [] := hands_token _

theorem hands_keyword (k : Keyword) : Hands (keyword k) fun _ => [] := hands_token _

theorem hands_ident : Hands ident fun _ => [] := by
  refine fun s => (hands_peek s).skip fun found t => ?_
  split
  · refine (hands_here t).skip fun span t => (hands_advance t).skip fun _ t => ?_
    exact handsAt_pure (.refl _)
  · exact handsAt_expected _

theorem hands_operator? {γ : Type} (read : Token → Option γ) : Hands (operator? read) fun _ => [] :=
  fun s => (hands_peek s).skip fun _ _ => handsAt_pure (.refl _)

/-- The operator is one that some token stands for. -/
theorem handsAt_operator? {γ : Type} {read : Token → Option γ} {next : Option γ → Reader β}
    (h : ∀ found, (∀ op, found = some op → ∃ t, read t = some op) → HandsAt s given (next found) heldNext) :
    HandsAt s given (operator? read >>= next) heldNext := by
  have hnext := h ((s.rest.head?.map (·.value)).bind read) fun op hop =>
    have ⟨t, _, ht⟩ := Option.bind_eq_some_iff.mp hop
    ⟨t, ht⟩
  exact ⟨hnext.turns, hnext.failed⟩

theorem hands_atClose (close : Punctuation) : Hands (atClose close) fun _ => [] := by
  refine fun s => (hands_peek s).skip fun found t => ?_
  split <;> exact handsAt_pure (.refl _)

/-! ## Nodes -/

theorem handsAt_newExpr {span : Span} {make : Site → Expr} (hsite : ∀ site, (make site).site = site)
    (hparts : ∀ site, given.Perm (make site).parts) : HandsAt s given (newExpr span make) fun e => [.expr e] := by
  refine ⟨?_, nofun⟩
  have hid : TreeNode.id (.expr (make ⟨s.nodes.expressions.size, span⟩)) = .expr s.nodes.expressions.size := by
    rw [TreeNode.id, hsite]
  exact (Turns.push (s := s) (t := (newExpr span make s).2) rfl rfl hid).perm (hparts _) (.refl _)

theorem handsAt_newType {span : Span} {make : Site → TypeExpr} (hsite : ∀ site, (make site).site = site)
    (hparts : ∀ site, given.Perm (make site).parts) : HandsAt s given (newType span make) fun t => [.type t] := by
  refine ⟨?_, nofun⟩
  have hid : TreeNode.id (.type (make ⟨s.nodes.types.size, span⟩)) = .type s.nodes.types.size := by
    rw [TreeNode.id, hsite]
  exact (Turns.push (s := s) (t := (newType span make s).2) rfl rfl hid).perm (hparts _) (.refl _)

theorem handsAt_newExprFrom {start : Span} {make : Site → Expr} (hsite : ∀ site, (make site).site = site)
    (hparts : ∀ site, given.Perm (make site).parts) :
    HandsAt s given (do newExpr (← spanFrom start) make) fun e => [.expr e] :=
  (hands_spanFrom start s).skip fun _ _ => handsAt_newExpr hsite hparts

theorem handsAt_newTypeFrom {start : Span} {make : Site → TypeExpr} (hsite : ∀ site, (make site).site = site)
    (hparts : ∀ site, given.Perm (make site).parts) :
    HandsAt s given (do newType (← spanFrom start) make) fun t => [.type t] :=
  (hands_spanFrom start s).skip fun _ _ => handsAt_newType hsite hparts

/-! ## Lists -/

section

variable {item : Reader α} (hitem : Hands item held)
include hitem

theorem hands_moreUpTo (separator : Punctuation) (count : Nat) :
    Hands (moreUpTo separator item count) (·.flatMap held) := by
  induction count with
  | zero => exact fun s => handsAt_pure (.refl _)
  | succ count ih =>
      refine fun s => (hands_mark? separator s).skip fun found t => ?_
      cases found with
      | true => exact (hitem t).andThen fun a t => (ih t).andThen fun rest t => handsAt_pure (.refl _)
      | false => exact handsAt_pure (.refl _)

theorem hands_separated (separator : Punctuation) : Hands (separated separator item) (·.flatMap held) := by
  refine fun s => (hitem s).andThen fun a t => ?_
  exact (hands_bounded fun count => hands_moreUpTo hitem separator count t).andThen fun rest t => handsAt_pure (.refl _)

theorem hands_itemsUpTo (close : Punctuation) (count : Nat) :
    Hands (itemsUpTo close item count) (·.flatMap held) := by
  induction count with
  | zero => exact fun s => handsAt_pure (.refl _)
  | succ count ih =>
      refine fun s => (hands_atClose close s).skip fun atEnd t => ?_
      cases atEnd with
      | true => exact handsAt_pure (.refl _)
      | false =>
          refine (hitem t).andThen fun a t => (hands_mark? .comma t).skip fun found t => ?_
          cases found with
          | true => exact (ih t).andThen fun rest t => handsAt_pure (.refl _)
          | false => exact handsAt_pure (by rw [List.flatMap_singleton]; exact .refl _)

theorem hands_itemsUntil (close : Punctuation) : Hands (itemsUntil close item) (·.flatMap held) := by
  refine fun s => (hands_bounded fun count => hands_itemsUpTo hitem close count s).andThen fun items t => ?_
  exact (hands_mark close t).skip fun _ t => handsAt_pure (.refl _)

end

theorem flatMap_nil_of_forall {xs : List α} (h : ∀ a, held a = []) : xs.flatMap held = [] := by
  rw [List.flatMap_eq_nil_iff]
  exact fun a _ => h a

/-! ## Types -/

theorem hands_generics : Hands generics fun _ => [] := by
  refine fun s => (hands_mark? .leftBracket s).skip fun found t => ?_
  cases found with
  | true =>
      refine (hands_separated hands_ident .comma t).andThen fun names t => ?_
      rw [flatMap_nil_of_forall fun _ => rfl]
      exact (hands_mark .rightBracket t).skip fun _ t => handsAt_pure (.refl _)
  | false => exact handsAt_pure (.refl _)

section

variable {nested : Reader TypeExpr} (hnested : Hands nested fun t => [.type t])
include hnested

theorem hands_parameterWith : Hands (parameterWith nested) fun p => [.type p.type] := by
  refine fun s => (hands_ident s).skip fun name t => (hands_mark .colon t).skip fun _ t => ?_
  refine (hnested t).andThen fun type t => (hands_spanFrom _ t).skip fun span t => ?_
  exact handsAt_pure (.refl _)

theorem hands_parametersWith : Hands (parametersWith nested) ParameterList.held := by
  refine fun s => (hands_mark .leftParen s).skip fun _ t => (hands_mark? .ellipsis t).skip fun found t => ?_
  cases found with
  | true =>
      refine (hands_parameterWith hnested t).andThen fun p t => ?_
      exact (hands_mark .rightParen t).skip fun _ t => handsAt_pure (.refl _)
  | false =>
      refine (hands_itemsUntil (hands_parameterWith hnested) .rightParen t).andThen fun ps t => handsAt_pure ?_
      exact .of_eq List.map_eq_flatMap.symm

theorem hands_typeArgumentsWith : Hands (typeArgumentsWith nested) (·.map .type) := by
  refine fun s => (hands_separated hnested .comma s).andThen fun types t => ?_
  refine (hands_mark .rightBracket t).skip fun _ t => handsAt_pure ?_
  exact .of_eq List.map_eq_flatMap.symm

theorem hands_functionTypeWith (start : Span) : Hands (functionTypeWith nested start) fun t => [.type t] := by
  refine fun s => (hands_generics s).skip fun names t => (hands_parametersWith hnested t).andThen fun ps t => ?_
  refine (hands_mark .arrow t).skip fun _ t => (hnested t).andThen fun result t => ?_
  exact handsAt_newTypeFrom (fun _ => rfl) fun _ => .refl _

theorem hands_typeFieldWith : Hands (typeFieldWith nested) fun field => [.type field.2] := by
  refine fun s => (hands_ident s).skip fun name t => (hands_mark .colon t).skip fun _ t => ?_
  exact (hnested t).andThen fun type t => handsAt_pure (.refl _)

theorem hands_primaryTypeWith : Hands (primaryTypeWith nested) fun t => [.type t] := by
  refine fun s => (hands_here s).skip fun start t => (hands_peek t).skip fun found t => ?_
  split
  · refine (hands_advance t).skip fun _ t => (hands_mark? .leftBracket t).skip fun found t => ?_
    cases found with
    | true =>
        refine (hands_typeArgumentsWith hnested t).andThen fun types t => ?_
        exact handsAt_newTypeFrom (fun _ => rfl) fun _ => .refl _
    | false => exact handsAt_newTypeFrom (fun _ => rfl) fun _ => .refl _
  · refine (hands_advance t).skip fun _ t => ?_
    refine (hands_itemsUntil (hands_typeFieldWith hnested) .rightBrace t).andThen fun fields t => ?_
    exact handsAt_newTypeFrom (fun _ => rfl) fun _ => .of_eq List.map_eq_flatMap.symm
  · exact hands_functionTypeWith hnested start t
  · refine (hands_atParameters t).skip fun opens t => ?_
    cases opens with
    | true => exact hands_functionTypeWith hnested start t
    | false =>
        refine (hands_advance t).skip fun _ t => (hnested t).andThen fun inner t => ?_
        exact (hands_mark .rightParen t).skip fun _ t => handsAt_pure (.refl _)
  · exact handsAt_expected _

omit hnested in
theorem handsAt_nullableUpTo (count : Nat) (type : TypeExpr) (s : State) :
    HandsAt s [.type type] (nullableUpTo count type) fun t => [.type t] := by
  induction count generalizing type s with
  | zero => exact handsAt_pure (.refl _)
  | succ count ih =>
      refine (hands_mark? .question s).skip fun found t => ?_
      cases found with
      | true =>
          refine (hands_spanFrom _ t).skip fun span t => ?_
          have hwider : HandsAt t [.type type] (newType span (.nullable · type)) fun t => [.type t] :=
            handsAt_newType (fun _ => rfl) fun _ => .refl _
          exact hwider.bind fun wider t => ih wider t
      | false => exact handsAt_pure (.refl _)

theorem hands_typeWith : Hands (typeWith nested) fun t => [.type t] :=
  fun s => (hands_primaryTypeWith hnested s).bind fun type t =>
    hands_bounded fun count => handsAt_nullableUpTo count type t

end

theorem hands_typeUpTo (depth : Nat) : Hands (typeUpTo depth) fun t => [.type t] := by
  induction depth with
  | zero => exact fun s => handsAt_expected _
  | succ depth ih => exact hands_typeWith ih

theorem hands_type : Hands type fun t => [.type t] := fun s => hands_bounded fun depth => hands_typeUpTo depth s

theorem hands_parameters : Hands parameters ParameterList.held := hands_parametersWith hands_type

theorem hands_annotation? : Hands annotation? TypeExpr.held? := by
  refine fun s => (hands_mark? .colon s).skip fun found t => ?_
  cases found with
  | true => exact (hands_type t).andThen fun type t => handsAt_pure (.refl _)
  | false => exact handsAt_pure (.refl _)

/-! ## Expressions -/

theorem handsAt_newBinary {op : BinaryOp} {lhs rhs : Expr} :
    HandsAt s [.expr lhs, .expr rhs] (newBinary op lhs rhs) fun e => [.expr e] :=
  handsAt_newExpr (fun _ => rfl) fun _ => .refl _

section

variable {operand : Reader Expr} (hoperand : Hands operand fun e => [.expr e])
include hoperand

theorem handsAt_chainUpTo (op? : Token → Option BinaryOp) (count : Nat) (lhs : Expr) (s : State) :
    HandsAt s [.expr lhs] (chainUpTo op? operand count lhs) fun e => [.expr e] := by
  induction count generalizing lhs s with
  | zero => exact handsAt_pure (.refl _)
  | succ count ih =>
      refine (hands_operator? op? s).skip fun found t => ?_
      cases found with
      | none => exact handsAt_pure (.refl _)
      | some op =>
          refine (hands_advance t).skip fun _ t => (hoperand t).andThen fun rhs t => ?_
          exact handsAt_newBinary.bind fun grouped t => ih grouped t

theorem hands_chain (op? : Token → Option BinaryOp) : Hands (chain op? operand) fun e => [.expr e] :=
  fun s => (hoperand s).bind fun lhs t => hands_bounded fun count => handsAt_chainUpTo hoperand op? count lhs t

end

section

variable {nested : Reader Expr} (hnested : Hands nested fun e => [.expr e])
include hnested

theorem hands_fieldInitWith : Hands (fieldInitWith nested) fun field => [.expr field.value] := by
  refine fun s => (hands_ident s).skip fun name t => (hands_mark .colon t).skip fun _ t => ?_
  refine (hnested t).andThen fun value t => (hands_spanFrom _ t).skip fun span t => ?_
  exact handsAt_pure (.refl _)

theorem hands_matchArmWith : Hands (matchArmWith nested) fun arm => [.expr arm.body] := by
  refine fun s => (hands_ident s).skip fun tag t => (hands_ident t).skip fun binding t => ?_
  refine (hands_mark .fatArrow t).skip fun _ t => (hnested t).andThen fun body t => ?_
  exact (hands_spanFrom _ t).skip fun span t => handsAt_pure (.refl _)

theorem hands_conditionalWith (start : Span) : Hands (conditionalWith nested start) fun e => [.expr e] := by
  refine fun s => (hnested s).andThen fun condition t => (hands_keyword .thenWord t).skip fun _ t => ?_
  refine (hnested t).andThen fun yes t => (hands_keyword .elseWord t).skip fun _ t => ?_
  exact (hnested t).andThen fun no t => handsAt_newExprFrom (fun _ => rfl) fun _ => .refl _

theorem hands_lambdaWith (start : Span) : Hands (lambdaWith nested start) fun e => [.expr e] := by
  refine fun s => (hands_generics s).skip fun names t => (hands_parameters t).andThen fun ps t => ?_
  refine (hands_annotation? t).andThen fun result t => (hands_mark .fatArrow t).skip fun _ t => ?_
  exact (hnested t).andThen fun body t => handsAt_newExprFrom (fun _ => rfl) fun _ => .refl _

theorem hands_casesWith (start : Span) : Hands (casesWith nested start) fun e => [.expr e] := by
  refine fun s => (hnested s).andThen fun scrutinee t => (hands_mark .leftBrace t).skip fun _ t => ?_
  refine (hands_itemsUntil (hands_matchArmWith hnested) .rightBrace t).andThen fun arms t => ?_
  exact handsAt_newExprFrom (fun _ => rfl) fun _ => .of_eq (congrArg _ List.map_eq_flatMap.symm)

omit hnested in
theorem literal?_parts {t : Token} {make : Site → Expr} (h : literal? t = some make) (site : Site) :
    (make site).site = site ∧ (make site).parts = [] := by
  unfold literal? at h
  split at h <;> cases h <;> exact ⟨rfl, rfl⟩

theorem hands_primaryWith : Hands (primaryWith nested) fun e => [.expr e] := by
  refine fun s => (hands_here s).skip fun start t => (hands_peek t).skip fun found t => ?_
  split
  · refine (hands_advance t).skip fun _ t => (hnested t).andThen fun inner t => ?_
    exact (hands_mark .rightParen t).skip fun _ t => handsAt_pure (.refl _)
  · refine (hands_advance t).skip fun _ t => ?_
    refine (hands_itemsUntil (hands_fieldInitWith hnested) .rightBrace t).andThen fun fields t => ?_
    exact handsAt_newExprFrom (fun _ => rfl) fun _ => .of_eq List.map_eq_flatMap.symm
  · exact (hands_advance t).skip fun _ t => hands_conditionalWith hnested start t
  · exact (hands_advance t).skip fun _ t => hands_lambdaWith hnested start t
  · exact (hands_advance t).skip fun _ t => hands_casesWith hnested start t
  · split
    · rename_i make hmake
      obtain ⟨token, -, htoken⟩ := Option.bind_eq_some_iff.mp hmake
      refine (hands_advance t).skip fun _ t => handsAt_newExprFrom (fun site => (literal?_parts htoken site).1) ?_
      exact fun site => .of_eq (literal?_parts htoken site).2.symm
    · exact handsAt_expected _

theorem handsAt_accessUpTo (count : Nat) (e : Expr) (s : State) :
    HandsAt s [.expr e] (accessUpTo nested count e) fun e => [.expr e] := by
  induction count generalizing e s with
  | zero => exact handsAt_pure (.refl _)
  | succ count ih =>
      refine (hands_peek s).skip fun found t => ?_
      split
      · refine (hands_advance t).skip fun _ t => (hands_ident t).skip fun name t => ?_
        refine (hands_spanFrom _ t).skip fun span t => ?_
        have hfield : HandsAt t [.expr e] (newExpr span (.field · e name.value)) fun e => [.expr e] :=
          handsAt_newExpr (fun _ => rfl) fun _ => .refl _
        exact hfield.bind fun e t => ih e t
      · refine (hands_advance t).skip fun _ t => ?_
        refine (hands_itemsUntil hnested .rightParen t).andThen fun arguments t => ?_
        refine (hands_spanFrom _ t).skip fun span t => ?_
        refine (handsAt_newExpr (fun _ => rfl) fun _ => ?_).bind fun e t => ih e t
        exact .of_eq (congrArg _ List.map_eq_flatMap.symm)
      · refine (hands_advance t).skip fun _ t => ?_
        refine (hands_typeArgumentsWith hands_type t).andThen fun types t => ?_
        refine (hands_mark .leftParen t).skip fun _ t => ?_
        refine (hands_itemsUntil hnested .rightParen t).andThen fun arguments t => ?_
        refine (hands_spanFrom _ t).skip fun span t => ?_
        refine (handsAt_newExpr (fun _ => rfl) fun _ => ?_).bind fun e t => ih e t
        exact .of_eq (congrArg _ List.map_eq_flatMap.symm)
      · exact handsAt_pure (.refl _)

theorem hands_accessWith : Hands (accessWith nested) fun e => [.expr e] :=
  fun s => (hands_primaryWith hnested s).bind fun e t =>
    hands_bounded fun count => handsAt_accessUpTo hnested count e t

omit hnested in
theorem leadingOp?_parts {t : Token} {make : Site → Expr → Expr} (h : leadingOp? t = some make) (site : Site)
    (e : Expr) : (make site e).site = site ∧ (make site e).parts = [.expr e] := by
  unfold leadingOp? at h
  split at h <;> cases h <;> exact ⟨rfl, rfl⟩

theorem hands_unaryUpTo (count : Nat) : Hands (unaryUpTo nested count) fun e => [.expr e] := by
  induction count with
  | zero => exact hands_accessWith hnested
  | succ count ih =>
      refine fun s => (hands_here s).skip fun start t => handsAt_operator? fun found hfound => ?_
      cases found with
      | some make =>
          obtain ⟨token, htoken⟩ := hfound make rfl
          refine (hands_advance t).skip fun _ t => (ih t).andThen fun operand t => ?_
          refine handsAt_newExprFrom (fun site => (leadingOp?_parts htoken site operand).1) fun site => ?_
          exact .of_eq (leadingOp?_parts htoken site operand).2.symm
      | none => exact hands_accessWith hnested t

theorem hands_unaryWith : Hands (unaryWith nested) fun e => [.expr e] :=
  fun s => hands_bounded fun count => hands_unaryUpTo hnested count s

theorem hands_productWith : Hands (productWith nested) fun e => [.expr e] := hands_chain (hands_unaryWith hnested) _

theorem hands_sumWith : Hands (sumWith nested) fun e => [.expr e] := hands_chain (hands_productWith hnested) _

omit hnested in
theorem tagOp?_parts {t : Token} {make : Site → Expr → String → Expr} (h : tagOp? t = some make) (site : Site)
    (e : Expr) (tag : String) : (make site e tag).site = site ∧ (make site e tag).parts = [.expr e] := by
  unfold tagOp? at h
  split at h <;> cases h <;> exact ⟨rfl, rfl⟩

omit hnested in
theorem handsAt_tagsUpTo (count : Nat) (value : Expr) (s : State) :
    HandsAt s [.expr value] (tagsUpTo count value) fun e => [.expr e] := by
  induction count generalizing value s with
  | zero => exact handsAt_pure (.refl _)
  | succ count ih =>
      refine handsAt_operator? fun found hfound => ?_
      cases found with
      | some make =>
          obtain ⟨token, htoken⟩ := hfound make rfl
          refine (hands_advance s).skip fun _ t => (hands_ident t).skip fun tag t => ?_
          have htagged : HandsAt t [.expr value] (newExpr (value.span.merge tag.span) (make · value tag.value))
              fun e => [.expr e] :=
            handsAt_newExpr (fun site => (tagOp?_parts htoken site value tag.value).1) fun site =>
              .of_eq (tagOp?_parts htoken site value tag.value).2.symm
          exact htagged.bind fun e t => ih e t
      | none => exact handsAt_pure (.refl _)

theorem hands_tagsWith : Hands (tagsWith nested) fun e => [.expr e] :=
  fun s => (hands_sumWith hnested s).bind fun value t => hands_bounded fun count => handsAt_tagsUpTo count value t

theorem hands_comparisonWith : Hands (comparisonWith nested) fun e => [.expr e] := by
  refine fun s => (hands_tagsWith hnested s).andThen fun lhs t => (hands_operator? _ t).skip fun found t => ?_
  cases found with
  | none => exact handsAt_pure (.refl _)
  | some op =>
      refine (hands_advance t).skip fun _ t => (hands_tagsWith hnested t).andThen fun rhs t => ?_
      exact handsAt_newBinary

theorem hands_conjunctionWith : Hands (conjunctionWith nested) fun e => [.expr e] :=
  hands_chain (hands_comparisonWith hnested) _

theorem hands_exprWith : Hands (exprWith nested) fun e => [.expr e] := hands_chain (hands_conjunctionWith hnested) _

end

theorem hands_exprUpTo (depth : Nat) : Hands (exprUpTo depth) fun e => [.expr e] := by
  induction depth with
  | zero => exact fun s => handsAt_expected _
  | succ depth ih => exact hands_exprWith ih

theorem hands_expr : Hands expr fun e => [.expr e] := fun s => hands_bounded fun depth => hands_exprUpTo depth s

/-! ## Declarations -/

theorem hands_valueDeclaration (start : Span) : Hands (valueDeclaration start) Declaration.held := by
  refine fun s => (hands_ident s).skip fun name t => (hands_annotation? t).andThen fun type t => ?_
  refine (hands_mark .assign t).skip fun _ t => (hands_expr t).andThen fun value t => ?_
  exact (hands_spanFrom _ t).skip fun span t => handsAt_pure (.refl _)

theorem hands_alternative : Hands alternative fun a => [.type a.payload] := by
  refine fun s => (hands_ident s).skip fun tag t => (hands_mark .colon t).skip fun _ t => ?_
  refine (hands_type t).andThen fun payload t => (hands_spanFrom _ t).skip fun span t => ?_
  exact handsAt_pure (.refl _)

theorem hands_aliasDeclaration (start : Span) : Hands (aliasDeclaration start) Declaration.held := by
  refine fun s => (hands_ident s).skip fun name t => (hands_generics t).skip fun names t => ?_
  refine (hands_mark .assign t).skip fun _ t => (hands_type t).andThen fun target t => ?_
  exact (hands_spanFrom _ t).skip fun span t => handsAt_pure (.refl _)

theorem hands_unionDeclaration (start : Span) : Hands (unionDeclaration start) Declaration.held := by
  refine fun s => (hands_ident s).skip fun name t => (hands_generics t).skip fun names t => ?_
  refine (hands_mark .assign t).skip fun _ t => ?_
  refine (hands_separated hands_alternative .pipe t).andThen fun alternatives t => ?_
  refine (hands_spanFrom _ t).skip fun span t => handsAt_pure ?_
  exact .of_eq List.map_eq_flatMap.symm

theorem hands_externalDeclaration (start : Span) : Hands (externalDeclaration start) Declaration.held := by
  refine fun s => (hands_keyword .defWord s).skip fun _ t => (hands_ident t).skip fun name t => ?_
  refine (hands_generics t).skip fun names t => (hands_parameters t).andThen fun ps t => ?_
  refine (hands_mark .colon t).skip fun _ t => (hands_type t).andThen fun result t => ?_
  exact (hands_spanFrom _ t).skip fun span t => handsAt_pure (.refl _)

theorem hands_placeholder : Hands placeholder fun e => [.expr e] :=
  fun s => (hands_here s).skip fun _ _ => handsAt_newExpr (fun _ => rfl) fun _ => .refl _

theorem hands_passOver : Hands passOver fun _ => [] := by
  refine fun s => (hands_report _ s).skip fun _ t => (hands_advance t).skip fun _ t => ?_
  exact hands_recover t

/-! ## Bodies -/

theorem handsAt_unfinished (start : Span) (declarations : List Declaration) (s : State) :
    HandsAt s (Declaration.heldByAll declarations) (unfinished start declarations) Body.held := by
  refine (hands_report _ s).skip fun _ t => (hands_here t).skip fun stop t => ?_
  exact (hands_placeholder t).andThen fun result t => handsAt_pure (.refl _)

theorem handsAt_finished (start : Span) (declarations : List Declaration) (s : State) :
    HandsAt s (Declaration.heldByAll declarations) (finished start declarations) Body.held := by
  refine (hands_advance s).skip fun _ t => (hands_expr t).attempt.andThen fun found t => ?_
  cases found with
  | some result =>
      have hbody : HandsAt t (Declaration.heldByAll declarations ++ [.expr result])
          (do pure (.mk declarations result (← spanFrom start))) Body.held :=
        (hands_spanFrom start t).skip fun span t => handsAt_pure (.refl _)
      exact hbody
  | none =>
      rw [Option.elim_none, List.append_nil]
      refine (hands_placeholder t).andThen fun result t => ?_
      exact (hands_spanFrom start t).skip fun span t => handsAt_pure (.refl _)

section

variable {nested : Reader Body} (hnested : Hands nested Body.held)
include hnested

theorem hands_functionBodyWith : Hands (functionBodyWith nested) Body.held := by
  refine fun s => (hands_peek s).skip fun found t => ?_
  split
  · exact (hands_advance t).skip fun _ t => (hands_expr t).andThen fun result t => handsAt_pure (.refl _)
  · refine (hands_advance t).skip fun _ t => (hnested t).andThen fun body t => ?_
    exact (hands_mark .rightBrace t).skip fun _ t => handsAt_pure (.refl _)
  · exact handsAt_expected _

theorem hands_functionDeclarationWith (start : Span) :
    Hands (functionDeclarationWith nested start) Declaration.held := by
  refine fun s => (hands_ident s).skip fun name t => (hands_generics t).skip fun names t => ?_
  refine (hands_parameters t).andThen fun ps t => (hands_annotation? t).andThen fun result t => ?_
  refine (hands_functionBodyWith hnested t).andThen fun body t => ?_
  exact (hands_spanFrom _ t).skip fun span t => handsAt_pure (.refl _)

theorem hands_declarationWith (k : Keyword) : Hands (declarationWith nested k) Declaration.held := by
  refine fun s => (hands_here s).skip fun start t => (hands_advance t).skip fun _ t => ?_
  split
  · exact hands_valueDeclaration start t
  · exact hands_externalDeclaration start t
  · exact hands_aliasDeclaration start t
  · exact hands_unionDeclaration start t
  · exact hands_functionDeclarationWith hnested start t

theorem handsAt_bodyRestUpTo (start : Span) (count : Nat) (declarations : List Declaration) (s : State) :
    HandsAt s (Declaration.heldByAll declarations) (bodyRestUpTo nested start count declarations) Body.held := by
  induction count generalizing declarations s with
  | zero => exact handsAt_unfinished start declarations s
  | succ count ih =>
      refine (hands_peek s).skip fun found t => ?_
      split
      · exact handsAt_unfinished start declarations t
      · exact handsAt_unfinished start declarations t
      · rename_i k
        split
        · refine (hands_declarationWith hnested k t).attempt.andThen fun found t => ?_
          cases found with
          | some d =>
              refine (ih (declarations ++ [d]) t).perm (.of_eq ?_)
              rw [Declaration.heldByAll_append, Declaration.heldByAll, Declaration.heldByAll, List.append_nil]
              rfl
          | none =>
              rw [Option.elim_none, List.append_nil]
              exact (hands_recover t).skip fun _ t => ih declarations t
        · split
          · exact handsAt_finished start declarations t
          · exact (hands_passOver t).skip fun _ t => ih declarations t
      · exact (hands_passOver t).skip fun _ t => ih declarations t

theorem hands_bodyWith : Hands (bodyWith nested) Body.held :=
  fun s => (hands_here s).skip fun start t => hands_bounded fun count => handsAt_bodyRestUpTo hnested start count [] t

end

theorem hands_bodyUpTo (depth : Nat) : Hands (bodyUpTo depth) Body.held := by
  induction depth with
  | zero => exact fun s => (hands_here s).skip fun start t => handsAt_unfinished start [] t
  | succ depth ih => exact hands_bodyWith ih

theorem hands_program : Hands program Body.held := by
  refine fun s => (hands_bounded fun depth => hands_bodyUpTo depth s).andThen fun b t => ?_
  refine (hands_peek t).skip fun found t => ?_
  split
  · exact (hands_report _ t).skip fun _ t => handsAt_pure (.refl _)
  · exact handsAt_pure (.refl _)

/-! ## The whole text -/

/-- Reading a body never fails. -/
theorem exists_run_body (s : State) : ∃ b t, body s = (some b, t) := by
  rw [body, bounded]
  cases s.rest.length with
  | zero => exact ⟨_, _, rfl⟩
  | succ depth =>
      obtain ⟨b, _, t, h, -⟩ := bodyRestUpTo_behind (bodyUpTo depth) s.here s.here [] s.rest.length [] s
      exact ⟨b, t, h⟩

theorem exists_run_program (s : State) : ∃ b t, program s = (some b, t) := by
  obtain ⟨b, t, h⟩ := exists_run_body s
  rw [run_program, h]
  dsimp only
  split <;> exact ⟨_, _, rfl⟩

theorem sound_empty : Nodes.Sound ⟨#[], #[]⟩ := by
  refine ⟨fun id node h => ?_, fun _ h => (by cases h), fun _ h => (by cases h)⟩
  cases id <;> cases h

/-- Where reading begins without a node, the tree that it gives lies in the nodes that it made. -/
theorem Turns.arranged {s t : State} {b : Body} (h : Turns s t [] b.held) (hs : s.nodes = ⟨#[], #[]⟩) :
    Tree.Arranged ⟨b, t.nodes⟩ := by
  obtain ⟨hsound, hleft⟩ := h.sound (hs ▸ sound_empty) (fun _ hnone => (by cases hnone))
  refine ⟨hsound.numbered, List.forall_mem_append.mpr ⟨hleft, hsound.present⟩, hsound.descending, fun id => ?_⟩
  have honce := h.once id
  have htally := t.nodes.tally_le_one id
  have hnone : count id s.nodes.held = 0 := by rw [hs]; rfl
  have hheld : count id (Tree.held ⟨b, t.nodes⟩) = count id b.held + count id t.nodes.held := count_append ..
  rw [count_nil] at honce
  omega

/-- Without an error every node that was made is held. -/
theorem Turns.filled {s t : State} {b : Body} (h : Turns s t [] b.held) (hs : s.nodes = ⟨#[], #[]⟩)
    (hquiet : t.errors.size = s.errors.size) : Tree.Filled ⟨b, t.nodes⟩ := by
  intro id node hnode
  have hexact := h.exact hquiet id
  have htally : t.nodes.tally id = 1 := if_pos (by rw [hnode]; rfl)
  have hnone : count id s.nodes.held = 0 := by rw [hs]; rfl
  have hbefore : s.nodes.tally id = 0 := by rw [hs]; cases id <;> rfl
  have hheld : count id (Tree.held ⟨b, t.nodes⟩) = count id b.held + count id t.nodes.held := count_append ..
  rw [count_nil] at hexact
  omega

end Reader

/-- Every text is read to a tree that lies in the nodes made on the way, and that can be printed by their numbers.
Where there is no error no node is left behind. -/
theorem arranged_parse (source : String) :
    (parse source).tree.Arranged ∧ (parse source).tree.print = some (parse source).tree.dump ∧
      ((parse source).errors = [] → (parse source).tree.Filled) := by
  let start : Reader.State := .start (scan source).tokens
  obtain ⟨b, t, hrun⟩ := Reader.exists_run_program start
  have hturns := (Reader.hands_program start).turns
  rw [hrun] at hturns
  have htokens : Parse.ofTokens (scan source).tokens = ⟨⟨b, t.nodes⟩, t.errors.toList⟩ := by
    rw [Parse.ofTokens, hrun]
  have htree : (parse source).tree = ⟨b, t.nodes⟩ := by rw [parse, htokens]
  have harranged : (parse source).tree.Arranged := htree ▸ hturns.arranged rfl
  refine ⟨harranged, harranged.print_eq, ?_⟩
  intro herrors
  rw [parse, htokens, List.append_eq_nil_iff] at herrors
  rw [htree]
  exact hturns.filled rfl (congrArg Array.size (Array.toList_eq_nil_iff.mp herrors.2))

end Sable
