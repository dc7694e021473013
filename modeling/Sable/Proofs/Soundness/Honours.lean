import Sable.Proofs.Meaning.Inhabits
import Sable.Proofs.Prelude.Declared

/-! Builtins honour the types that the prelude declares them with.

Arguments that inhabit the declared types of the parameters are of the kinds that a builtin casts them to. The
functions among them are called with inhabitants of their parameters only, be it later and by a cursor. -/
namespace Sable.Builtin

open Eval
open Ty (Extents)

/-- The errors that a builtin raises by itself although its arguments are as declared. -/
inductive Complains (b : Builtin) (span : Span) : RuntimeError → Prop
  | negativeCount (h : b = take) : Complains b span ⟨.negativeCount, span⟩
  | notWhole {x : Float} (h : b = take ∨ b = get ∨ b = bigint) (hx : Binary64.toInt? x = none) :
      Complains b span ⟨.notWhole b x, span⟩

section

variable {p : Program} {E E' : RuntimeError → Prop} {ρ : Extents} {a result : Ty} {steps : Nat} {span : Span}

/-! ## Parts of calls -/

theorem ends_asNumber {v : Value} (h : Ty.number.Inhabits p E ρ v) :
    (blame span v.asNumber).Ends E' fun _ => True := by
  obtain ⟨x, rfl⟩ := h
  exact .blame_ok rfl trivial

theorem ends_wholeArgument {b : Builtin} (hb : b = take ∨ b = get ∨ b = bigint) {v : Value}
    (h : Ty.number.Inhabits p E ρ v) :
    (blame span (wholeArgument b v)).Ends (fun e => b.Complains span e ∨ E e) fun _ => True := by
  obtain ⟨x, rfl⟩ := h
  cases hx : Binary64.toInt? x with
  | none =>
      have hwhole : wholeArgument b (Value.number x : Value) = .error (.notWhole b x) := by
        rw [wholeArgument, Value.asNumber]
        simp only [bind, Except.bind, hx]
        rfl
      rw [hwhole]
      exact .throw (.inl (.notWhole hb hx))
  | some n =>
      have hwhole : wholeArgument b (Value.number x : Value) = .ok n := by
        rw [wholeArgument, Value.asNumber]
        simp only [bind, Except.bind, hx]
        rfl
      exact .blame_ok hwhole trivial

theorem exists_sumFrom {arguments : List Value} (h : ∀ v ∈ arguments, Ty.number.Inhabits p E ρ v) (total : Float) :
    ∃ x, sumFrom total arguments = .ok x := by
  induction arguments generalizing total with
  | nil => exact ⟨total, rfl⟩
  | cons v rest ih =>
      obtain ⟨⟨x, rfl⟩, hrest⟩ := List.forall_mem_cons.mp h
      exact ih hrest (total + x)

/-- A sequence that only counts through a source. -/
theorem inhabits_counted {I : Sequence.Source Value → Prop}
    (hI : ∀ {source rest : Sequence.Source Value} {item : Value}, I source → source.next? = some (item, rest) →
      I rest ∧ a.Inhabits p E ρ item) {source : Sequence.Source Value} (hsource : I source) (identity : Nat) :
    (Ty.sequence a).Inhabits p E ρ (.sequence identity ⟨source, []⟩) := by
  refine ⟨identity, _, rfl, fun item hfinds => ?_, fun e hfinds => ?_⟩
  · obtain hnone | ⟨own, heq, hown⟩ := hfinds.of_source hI hsource
    · cases hnone
    · cases heq
      exact hown
  · obtain hnone | ⟨own, heq, -⟩ := hfinds.of_source hI hsource
    · cases hnone
    · cases heq

theorem inhabits_range (start : Float) (stop : Option Float) (identity : Nat) :
    (Ty.sequence .number).Inhabits p E ρ (.sequence identity ⟨.range start stop, []⟩) := by
  refine inhabits_counted (I := fun source => ∃ x y, source = .range x y) ?_ ⟨start, stop, rfl⟩ identity
  rintro source rest item ⟨x, y, rfl⟩ h
  simp only [Sequence.Source.next?, Option.ite_none_left_eq_some] at h
  obtain ⟨-, h⟩ := h
  cases h
  exact ⟨⟨x + 1, y, rfl⟩, x, rfl⟩

theorem inhabits_items {items : List Value} (h : ∀ item ∈ items, a.Inhabits p E ρ item) (identity : Nat) :
    (Ty.sequence a).Inhabits p E ρ (.sequence identity ⟨.items items, []⟩) := by
  refine inhabits_counted (I := fun source => ∃ left, source = .items left ∧ ∀ item ∈ left, a.Inhabits p E ρ item) ?_
    ⟨items, rfl, h⟩ identity
  rintro source rest item ⟨left, rfl, hleft⟩ hnext
  cases left with
  | nil => cases hnext
  | cons first left =>
      cases hnext
      obtain ⟨hfirst, hrest⟩ := List.forall_mem_cons.mp hleft
      exact ⟨⟨left, rfl, hrest⟩, hfirst⟩

/-- A function that takes an item is called with one. -/
theorem ends_call_item {name : String} {f item : Value}
    (h : (Ty.function [] (.fixed [(name, a)]) result).Inhabits p E ρ f) (hitem : a.Inhabits p E ρ item) :
    (p.call steps f [item] span).Ends E (result.Inhabits p E ρ) := by
  obtain ⟨g, rfl, hcalls⟩ := h
  exact hcalls ρ (fun _ _ => rfl) [item] ⟨item, [], rfl, hitem, rfl⟩ steps span

end

/-! ## Sequences -/

section

variable {p : Program} {E E' : RuntimeError → Prop} {ρ : Extents} {a result : Ty} {steps : Nat} {span : Span}
  {s : Sequence Value} (hitems : ∀ item, s.Finds p (.ok (some item)) → a.Inhabits p E ρ item)
  (herrors : ∀ e, s.Finds p (.error e) → E e)
include hitems herrors

/-- What a cursor finds behind one more stage is as the stage makes it of an item. -/
theorem inhabits_push {stage : Sequence.Stage Value}
    (hstage : ∀ item, a.Inhabits p E ρ item → ∀ steps span,
      (Sequence.through (p.call steps) span [stage] item).Ends E fun found => ∀ out ∈ found, result.Inhabits p E ρ out)
    (identity : Nat) : (Ty.sequence result).Inhabits p E ρ (.sequence identity (s.push stage)) := by
  refine ⟨identity, _, rfl, fun item hfinds => ?_, fun e hfinds => ?_⟩
  · cases hfinds.of_push with
    | made h hmade => exact hstage _ (hitems _ h) _ _ _ _ _ hmade item rfl
  · cases hfinds.of_push with
    | failed h => exact herrors e h
    | made h hmade => exact hstage _ (hitems _ h) _ _ _ _ _ hmade

theorem inhabits_filter {name : String} {f : Value}
    (hf : (Ty.function [] (.fixed [(name, a)]) .boolean).Inhabits p E ρ f) (identity : Nat) :
    (Ty.sequence a).Inhabits p E ρ (.sequence identity (s.push (.filter f))) := by
  refine inhabits_push hitems herrors (fun item hitem steps span => ?_) identity
  refine (ends_call_item hf hitem).bind fun answer hanswer => ?_
  obtain ⟨b, rfl⟩ := hanswer
  refine Ends.bind (Q := fun _ => True) (.blame_ok rfl trivial) fun c _ => ?_
  cases c with
  | true =>
      refine .pure fun out hout => ?_
      obtain rfl := Option.some.inj hout
      exact hitem
  | false => exact .pure nofun

theorem inhabits_map {name : String} {f : Value}
    (hf : (Ty.function [] (.fixed [(name, a)]) result).Inhabits p E ρ f) (identity : Nat) :
    (Ty.sequence result).Inhabits p E ρ (.sequence identity (s.push (.map f))) := by
  refine inhabits_push hitems herrors (fun item hitem steps span => ?_) identity
  refine (ends_call_item hf hitem).bind fun made hmade => .pure fun out hout => ?_
  obtain rfl := Option.some.inj hout
  exact hmade

/-- The items that are taken are items that a cursor finds. -/
theorem ends_takeItems (count : Nat) : (s.take (p.call steps) span steps count).Ends E fun items =>
    ∀ item ∈ items, a.Inhabits p E ρ item := by
  refine Sequence.ends_takeFrom (I := s.Leaves p) (fun t ht => ?_) count .all (List.forall_mem_nil _)
  intro now later found hrun
  obtain ⟨answer, rest, rfl, -⟩ := Sequence.next_begins hrun
  have hdraw : t.Draws p answer rest := ⟨steps, steps, span, now, later, hrun⟩
  refine ⟨ht.after hdraw, fun item hitem => ?_, fun e he => ?_⟩
  · exact hitems item ⟨t, rest, ht, hitem ▸ hdraw⟩
  · exact herrors e ⟨t, rest, ht, he ▸ hdraw⟩

end

/-! ## Calls -/

section

variable {p : Program} {E : RuntimeError → Prop} {ρ : Extents} {a : Ty} {steps : Nat} {span : Span}

theorem ends_take {items count : Value} (hitems : (Ty.sequence a).Inhabits p E ρ items)
    (hcount : Ty.number.Inhabits p E ρ count) :
    (take.call (p.call steps) steps [items, count] span).Ends (fun e => take.Complains span e ∨ E e)
      ((Ty.list a).Inhabits p E ρ) := by
  obtain ⟨identity, s, rfl, hfinds, herrors⟩ := hitems
  refine Ends.bind (Q := fun own => s = own) (.blame_ok rfl rfl) ?_
  rintro _ rfl
  refine (ends_wholeArgument (.inl rfl) hcount).bind fun n _ => ?_
  have htaken : Ends (fun e => take.Complains span e ∨ E e) ((Ty.list a).Inhabits p E ρ)
      (Value.list <$> Sequence.take (p.call steps) span steps n.toNat s) := by
    have hitems : Ends E _ (Sequence.take (p.call steps) span steps n.toNat s) :=
      ends_takeItems hfinds herrors n.toNat
    exact (hitems.mono (fun _ h => h) fun _ h => .inr h).bind fun found hfound => .pure ⟨found, rfl, hfound⟩
  split
  · exact Ends.bind (Q := fun _ => False) (.throw (.inl (.negativeCount rfl))) fun _ hfalse => hfalse.elim
  · exact htaken

theorem ends_get {items index : Value} (hitems : (Ty.list a).Inhabits p E ρ items)
    (hindex : Ty.number.Inhabits p E ρ index) :
    (get.call (p.call steps) steps [items, index] span).Ends (fun e => get.Complains span e ∨ E e)
      ((Ty.nullable a).Inhabits p E ρ) := by
  obtain ⟨found, rfl, hfound⟩ := hitems
  refine Ends.bind (Q := fun own => found = own) (.blame_ok rfl rfl) ?_
  rintro _ rfl
  refine (ends_wholeArgument (.inr (.inl rfl)) hindex).bind fun n _ => .pure ?_
  -- an index below or behind the items finds `null`
  split
  · exact .inl rfl
  · cases hget : found[n.toNat]? with
    | none => exact .inl rfl
    | some item => exact .inr (hfound item (List.mem_of_getElem? hget))

theorem ends_call_of_type? {b : Builtin} {us vs : List TypeVariable} {ps : Parameters} {result : Ty}
    (h : b.type? us = some (.function vs ps result)) {arguments : List Value}
    (harguments : Ty.InhabitsParameters p E ps ρ arguments) :
    (b.call (p.call steps) steps arguments span).Ends (fun e => b.Complains span e ∨ E e)
      (result.Inhabits p E ρ) := by
  unfold type? at h
  split at h <;> cases h
  · -- range
    obtain ⟨start, _, rfl, hstart, stop, _, rfl, hstop, rfl⟩ := harguments
    refine (ends_asNumber hstart).bind fun x _ => (ends_asNumber hstop).bind fun y _ => ?_
    exact ends_newSequence (inhabits_range x (some y))
  · -- naturals
    obtain rfl := harguments
    exact ends_newSequence (inhabits_range 0 none)
  · -- filter
    obtain ⟨items, _, rfl, ⟨identity, s, rfl, hitems, herrors⟩, f, _, rfl, hf, rfl⟩ := harguments
    have hfiltered := inhabits_filter hitems herrors hf
    obtain ⟨g, rfl, -⟩ := hf
    refine Ends.bind (Q := fun own => s = own) (.blame_ok rfl rfl) ?_
    rintro _ rfl
    exact Ends.bind (Q := fun _ => True) (.blame_ok rfl trivial) fun _ _ => ends_newSequence hfiltered
  · -- map
    obtain ⟨items, _, rfl, ⟨identity, s, rfl, hitems, herrors⟩, f, _, rfl, hf, rfl⟩ := harguments
    have hmapped := inhabits_map hitems herrors hf
    obtain ⟨g, rfl, -⟩ := hf
    refine Ends.bind (Q := fun own => s = own) (.blame_ok rfl rfl) ?_
    rintro _ rfl
    exact Ends.bind (Q := fun _ => True) (.blame_ok rfl trivial) fun _ _ => ends_newSequence hmapped
  · -- take
    obtain ⟨items, _, rfl, hitems, count, _, rfl, hcount, rfl⟩ := harguments
    exact ends_take hitems hcount
  · -- list
    exact .pure ⟨arguments, rfl, harguments⟩
  · -- sequence
    obtain ⟨_, _, rfl, ⟨items, rfl, hitems⟩, rfl⟩ := harguments
    refine Ends.bind (Q := fun own => items = own) (.blame_ok rfl rfl) ?_
    rintro _ rfl
    exact ends_newSequence (inhabits_items hitems)
  · -- length
    obtain ⟨_, _, rfl, ⟨items, rfl, hitems⟩, rfl⟩ := harguments
    exact Ends.bind (Q := fun _ => True) (.blame_ok rfl trivial) fun found _ => .pure ⟨_, rfl⟩
  · -- get
    obtain ⟨items, _, rfl, hitems, index, _, rfl, hindex, rfl⟩ := harguments
    exact ends_get hitems hindex
  · -- sum
    obtain ⟨x, hx⟩ := exists_sumFrom harguments 0
    exact Ends.bind (Q := fun _ => True) (.blame_ok hx trivial) fun y _ => .pure ⟨y, rfl⟩
  · -- bigint
    obtain ⟨value, _, rfl, hvalue, rfl⟩ := harguments
    exact (ends_wholeArgument (.inr (.inr rfl)) hvalue).bind fun n _ => .pure ⟨n, rfl⟩

/-- A call of a builtin with arguments that inhabit the declared types of its parameters, whatever its type variables
stand for, comes to an inhabitant of the declared type of its result, or fails with an error of the functions and
sequences among the arguments, or complains of a count that is negative or a number that is not whole. -/
theorem ends_call_of_declared {b : Builtin} {vs : List TypeVariable} {ps : Parameters} {result : Ty}
    (hdeclared : Prelude.declared? b = some (.function vs ps result)) {arguments : List Value}
    (harguments : Ty.InhabitsParameters p E ps ρ arguments) (steps : Nat) (span : Span) :
    (p.call steps (.function (.builtin b)) arguments span).Ends (fun e => b.Complains span e ∨ E e)
      (result.Inhabits p E ρ) := by
  obtain ⟨type, own, htype, hown, hsame⟩ := Prelude.exists_declared? b
  obtain rfl := Option.some.inj (hdeclared.symm.trans htype)
  cases own with
  | function ws qs own =>
      simp only [Ty.same, Bool.and_eq_true] at hsame
      rw [Ty.inhabitsParameters_eq_of_same hsame.1.2] at harguments
      rw [Ty.inhabits_eq_of_same hsame.2]
      cases steps with
      | zero => exact .outOfSteps
      | succ steps => exact ends_call_of_type? hown harguments
  | _ => exact absurd hsame Bool.false_ne_true

end

open Sequence (echoProgram echo)

/-- The function that gives back its argument has the types of functions that any values may go through. -/
theorem inhabits_echo {E : RuntimeError → Prop} {ρ : Extents} {a b : Ty} (name : String)
    (h : ∀ v, a.Inhabits echoProgram E ρ v → b.Inhabits echoProgram E ρ v) :
    (Ty.function [] (.fixed [(name, a)]) b).Inhabits echoProgram E ρ echo := by
  refine ⟨_, rfl, fun σ hσ arguments harguments steps span => ?_⟩
  obtain rfl : σ = ρ := funext fun x => hσ x List.not_mem_nil
  obtain ⟨item, _, rfl, hitem, rfl⟩ := harguments
  intro now later found hrun
  match steps with
  | 0 | 1 => cases hrun
  | steps + 2 =>
      cases hrun
      exact h item hitem

/-- `map` with that function and the sequence of one `null`. -/
theorem ends_call_of_declared_map : ∃ vs ps result, Prelude.declared? .map = some (.function vs ps result) ∧
    Ty.InhabitsParameters echoProgram (fun _ => False) ps (fun _ v => v = .null)
      [.sequence 1 ⟨.items [.null], []⟩, echo] ∧
    (echoProgram.call 3 (.function (.builtin .map)) [.sequence 1 ⟨.items [.null], []⟩, echo] .none).Ends
      (fun e => map.Complains .none e ∨ False) (result.Inhabits echoProgram (fun _ => False) fun _ v => v = .null) := by
  obtain ⟨type, own, htype, hown, hsame⟩ := Prelude.exists_declared? .map
  cases hown
  cases type with
  | function vs ps result =>
      have harguments : Ty.InhabitsParameters echoProgram (fun _ => False) ps (fun _ v => v = .null)
          [.sequence 1 ⟨.items [.null], []⟩, echo] := by
        simp only [Ty.same, Bool.and_eq_true] at hsame
        rw [Ty.inhabitsParameters_eq_of_same hsame.1.2]
        have hsequence : (Ty.sequence (.var ⟨"A", 1⟩)).Inhabits echoProgram (fun _ => False) (fun _ v => v = .null)
            (.sequence 1 ⟨.items [.null], []⟩) := by
          refine inhabits_items (fun item hitem => ?_) 1
          exact List.mem_singleton.mp hitem
        exact ⟨_, _, rfl, hsequence, echo, [], rfl, inhabits_echo "item" fun _ h => h, rfl⟩
      exact ⟨vs, ps, result, htype, harguments, ends_call_of_declared htype harguments 3 .none⟩
  | _ => cases hsame

end Sable.Builtin
