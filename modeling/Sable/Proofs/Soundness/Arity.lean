import Sable.Proofs.Evaluation.Ends
import Sable.Proofs.Meaning.Substitution
import Sable.Proofs.Prelude.Declared
import Sable.Proofs.Typing.Rules

/-! Numbers of arguments.

A function may stand for one that takes more arguments. A closure passes over those that it does not take. A builtin
takes as many arguments as it is declared with, no more and no less, and so it is only called in the right way where
it stands for a function with as many parameters. -/
namespace Sable

/-- So many arguments may stand in a call of a function with the parameters. -/
def ParameterList.Admits {α : Type} : ParameterList α → Nat → Prop
  | .fixed ps, n => ps.length = n
  | .variadic _, _ => True

theorem Ty.Covers.admits {α β γ : Type} {ps : ParameterList α} {qs : ParameterList β} {names : List γ} {n : Nat}
    (h : Covers ps qs) (hn : qs.Admits n) (hcovers : Covers (.fixed names) ps) : names.length ≤ n := by
  match ps, qs with
  | .fixed ps, .fixed qs => exact Nat.le_trans hcovers (Nat.le_trans h (Nat.le_of_eq hn))
  | .fixed _, .variadic _ => exact h.elim
  | .variadic _, _ => exact hcovers.elim

namespace Program

variable {p : Program}

/-- The rule for calls lets only calls pass that have as many arguments as may stand in them. -/
theorem admits_of_callType {τ : TypeTable} {callee : NodeId} {written : List Ty} {arguments : List NodeId}
    {span : Span} {vs : List TypeVariable} {ps : Parameters} {result type : Ty}
    (hcallee : τ callee = .ok (.function vs ps result))
    (h : p.callType τ callee written arguments span = .ok type) : ps.Admits arguments.length := by
  cases callType_eq_ok h with
  | call hcallee' _ hlength _ _ =>
      cases hcallee.symm.trans hcallee'
      cases ps with
      | fixed ps => exact hlength ps rfl
      | variadic _ => trivial

/-- A closure that does not have too many parameters gets into its body. -/
theorem exists_enter {κ : Type} {identity : Nat} {c : Closure (Value κ) κ} {arguments : List (Value κ)} {span : Span}
    (h : ∀ names, c.parameters = .fixed names → names.length ≤ arguments.length) :
    ∃ env, enter identity c arguments span = .ok env := by
  rw [enter_eq]
  cases hparameters : c.parameters with
  | fixed names => exact ⟨_, if_neg (Nat.not_lt.mpr (h names hparameters))⟩
  | variadic name => exact ⟨_, rfl⟩

end Program

namespace Ty

/-- A function that may stand for another one covers its parameters. -/
theorem covers_of_assignable {vs ws : List TypeVariable} {ps qs : Parameters} {a b : Ty}
    (h : assignable (function vs ps a) (function ws qs b) = .ok true) : Covers ps qs := by
  have hsize : (function vs ps a).size + (function ws qs b).size =
      (sizeParameters ps + a.size + (function ws qs b).size) + 1 := by
    simp only [size]
    omega
  rw [assignable, hsize, assignableUpTo, assignableWith] at h
  by_cases hsame : (function vs ps a == function ws qs b) = true
  · exact (Program.alike_of_same hsame).2.1.covers
  · rw [if_neg hsame] at h
    by_cases hlength : vs.length ≠ ws.length
    · simp [hlength] at h
    · simp only [hlength, if_false] at h
      split at h
      · have hcovers := (parametersRelated_eq_true_iff.mp h).1
        rw [Substitution.applyParameters] at hcovers
        split at hcovers
        · exact hcovers
        · exact hcovers.trans (Substitution.covers_replace _ qs).2
      · cases h

end Ty

/-! ## Errors of calls -/

namespace Builtin

variable {callback : Value → List Value → Span → Eval Value} {steps : Nat} {span : Span}

/-- An error that a call of the callback ends in. -/
def Raises (callback : Value → List Value → Span → Eval Value) (e : RuntimeError) : Prop :=
  ∃ f arguments span now later, (callback f arguments span).outcome now = some (.error e, later)

/-- An error that is not about a number of arguments that a builtin got, unless the callback raises it. -/
def Counts (callback : Value → List Value → Span → Eval Value) (e : RuntimeError) : Prop :=
  (∀ b n m, e.fault ≠ .builtinArgumentCount b n m) ∨ Raises callback e

theorem ends_callback (f : Value) (arguments : List Value) (span : Span) :
    (callback f arguments span).Ends (Counts callback) fun _ => True := by
  intro now later found hrun
  cases found with
  | ok _ => trivial
  | error e => exact .inr ⟨f, arguments, span, now, later, hrun⟩

/-- A failure that is not about a number of arguments. -/
def Uncounted {α : Type} (r : Except RuntimeFault α) : Prop :=
  ∀ b n m, r ≠ .error (.builtinArgumentCount b n m)

theorem uncounted_asNumber (v : Value) : Uncounted v.asNumber := by
  cases v <;> exact nofun

theorem uncounted_asBoolean (v : Value) : Uncounted v.asBoolean := by
  cases v <;> exact nofun

theorem uncounted_asList (v : Value) : Uncounted v.asList := by
  cases v <;> exact nofun

theorem uncounted_asSequence (v : Value) : Uncounted v.asSequence := by
  cases v <;> exact nofun

theorem uncounted_asFunction (v : Value) : Uncounted v.asFunction := by
  cases v <;> exact nofun

theorem Uncounted.bind {α β : Type} {r : Except RuntimeFault α} {f : α → Except RuntimeFault β} (h : Uncounted r)
    (hf : ∀ a, Uncounted (f a)) : Uncounted (r >>= f) := by
  intro b n m hr
  cases r with
  | ok a => exact hf a b n m hr
  | error fault => exact h b n m (congrArg Except.error (Except.error.inj hr))

theorem uncounted_wholeArgument (b : Builtin) (v : Value) : Uncounted (wholeArgument b v) := by
  refine (uncounted_asNumber v).bind fun x => ?_
  split <;> exact nofun

theorem uncounted_sumFrom (total : Float) (values : List Value) : Uncounted (sumFrom total values) := by
  induction values generalizing total with
  | nil => exact nofun
  | cons v rest ih => exact (uncounted_asNumber v).bind fun x => ih (total + x)

theorem Uncounted.ends_blame {α : Type} {r : Except RuntimeFault α} (h : Uncounted r) :
    Eval.Ends (Counts callback) (fun _ => True) (.blame span r) := by
  refine .blame (fun _ _ => trivial) fun fault hfault => .inl fun b n m hcount => h b n m ?_
  rw [hfault, ← hcount]

/-! ### Sequences -/

theorem ends_through (stages : List (Sequence.Stage Value)) (item : Value) :
    (Sequence.through callback span stages item).Ends (Counts callback) fun _ => True := by
  induction stages generalizing item with
  | nil => exact .pure trivial
  | cons stage rest ih =>
      cases stage with
      | map f => exact (ends_callback f [item] span).bind fun result _ => ih result
      | filter f =>
          refine (ends_callback f [item] span).bind fun answer _ => ?_
          refine (uncounted_asBoolean answer).ends_blame.bind fun b _ => ?_
          cases b with
          | true => exact ih item
          | false => exact .pure trivial

theorem ends_next (count : Nat) (s : Sequence Value) : (s.next callback span count).Ends (Counts callback)
    fun found => ∀ e, found.1 = .error e → Counts callback e := by
  induction count generalizing s with
  | zero => exact .outOfSteps
  | succ count ih =>
      unfold Sequence.next
      cases hnext : s.source.next? with
      | none =>
          refine .pure fun e he => ?_
          cases he
      | some found =>
          obtain ⟨item, source⟩ := found
          refine (ends_through s.stages item).observe.bind fun found hfound => ?_
          rcases found with e | _ | out
          · refine .pure fun own hown => ?_
            obtain rfl := Except.error.inj hown
            exact hfound
          · exact ih _
          · refine .pure fun e he => ?_
            cases he

theorem ends_takeFirst (s : Sequence Value) (count : Nat) :
    (s.take callback span steps count).Ends (Counts callback) fun _ => True := by
  have hnext : ∀ s : Sequence Value, True → (s.next callback span steps).Ends (Counts callback) fun found =>
      True ∧ (∀ item, found.1 = .ok (some item) → True) ∧ ∀ e, found.1 = .error e → Counts callback e := fun s _ =>
    (ends_next steps s).mono (fun found hfound => ⟨trivial, fun _ _ => trivial, hfound⟩) fun _ he => he
  exact (Sequence.ends_takeFrom hnext count trivial (List.forall_mem_nil _)).mono (fun _ _ => trivial) fun _ he => he

/-- A builtin that gets as many arguments as it takes does not complain of their number. -/
theorem ends_call_of_length {b : Builtin} {arguments : List Value}
    (hlength : ∀ n, b.arity? = some n → arguments.length = n) :
    (b.call callback steps arguments span).Ends (Counts callback) fun _ => True := by
  cases b with
  | range =>
      obtain ⟨start, stop, rfl⟩ := List.length_eq_two.mp (hlength 2 rfl)
      refine (uncounted_asNumber start).ends_blame.bind fun x _ => ?_
      exact (uncounted_asNumber stop).ends_blame.bind fun y _ => ends_newSequence fun _ => trivial
  | naturals =>
      obtain rfl := List.length_eq_zero_iff.mp (hlength 0 rfl)
      exact ends_newSequence fun _ => trivial
  | filter | map =>
      obtain ⟨items, f, rfl⟩ := List.length_eq_two.mp (hlength 2 rfl)
      refine (uncounted_asSequence items).ends_blame.bind fun s _ => ?_
      exact (uncounted_asFunction f).ends_blame.bind fun _ _ => ends_newSequence fun _ => trivial
  | take =>
      obtain ⟨items, count, rfl⟩ := List.length_eq_two.mp (hlength 2 rfl)
      refine (uncounted_asSequence items).ends_blame.bind fun s _ => ?_
      refine (uncounted_wholeArgument take count).ends_blame.bind fun n _ => ?_
      have htake : Eval.Ends (Counts callback) (fun _ => True)
          (Value.list <$> s.take callback span steps n.toNat) :=
        (ends_takeFirst s n.toNat).bind fun _ _ => .pure trivial
      split
      · exact Eval.Ends.bind (Q := fun _ => True) (.throw (.inl nofun)) fun _ _ => htake
      · exact htake
  | list => exact .pure trivial
  | sequence | length =>
      obtain ⟨items, rfl⟩ := List.length_eq_one_iff.mp (hlength 1 rfl)
      refine (uncounted_asList items).ends_blame.bind fun found _ => ?_
      first | exact ends_newSequence fun _ => trivial | exact .pure trivial
  | get =>
      obtain ⟨items, index, rfl⟩ := List.length_eq_two.mp (hlength 2 rfl)
      refine (uncounted_asList items).ends_blame.bind fun found _ => ?_
      exact (uncounted_wholeArgument get index).ends_blame.bind fun n _ => .pure trivial
  | sum => exact (uncounted_sumFrom 0 arguments).ends_blame.bind fun _ _ => .pure trivial
  | bigint =>
      obtain ⟨value, rfl⟩ := List.length_eq_one_iff.mp (hlength 1 rfl)
      exact (uncounted_wholeArgument bigint value).ends_blame.bind fun _ _ => .pure trivial

/-! ## Builtins that stand for other functions -/

/-- A builtin is declared with as many parameters as it takes arguments. -/
theorem parameters_of_declared {b : Builtin} {vs : List TypeVariable} {ps : Parameters} {result : Ty}
    (h : Prelude.declared? b = some (.function vs ps result)) :
    match b.arity? with
    | some n => ∃ own, ps = .fixed own ∧ own.length = n
    | none => ∃ q, ps = .variadic q := by
  obtain ⟨type, own, htype, hown, hsame⟩ := Prelude.exists_declared? b
  obtain rfl := Option.some.inj (h.symm.trans htype)
  have halike := (Ty.alike_iff_same _ fun _ _ => Iff.rfl).mpr hsame
  cases b <;> cases hown <;> cases ps <;>
    first
    | exact halike.2.1.elim
    | exact ⟨_, rfl⟩
    | exact ⟨_, rfl, Ty.AlikeTypes.length_eq halike.2.1⟩

/-- Where the declared type of a builtin stands for the type of a function, arguments may be passed to it that such
a function takes. A closure with the parameters of the declaration takes them all; the builtin refuses them if it
takes a fixed number of arguments and they are more, and otherwise raises no error about their number. -/
theorem arity_of_assignable {b : Builtin} {vs ws : List TypeVariable} {ps qs : Parameters} {own result : Ty}
    (hdeclared : Prelude.declared? b = some (.function vs ps own))
    (hfits : Ty.assignable (.function vs ps own) (.function ws qs result) = .ok true) {arguments : List Value}
    (hadmits : qs.Admits arguments.length) (callback : Value → List Value → Span → Eval Value) (steps : Nat)
    (span : Span) :
    (∀ (identity : Nat) (c : Closure Value), c.parameters.map (fun _ => ()) = ps.map (fun _ => ()) →
        ∃ env, Program.enter identity c arguments span = .ok env) ∧
      (∀ n, b.arity? = some n → n < arguments.length →
        b.call callback steps arguments span = .throw ⟨.builtinArgumentCount b n arguments.length, span⟩) ∧
      ((∀ n, b.arity? = some n → arguments.length ≤ n) →
        (b.call callback steps arguments span).Ends (Counts callback) fun _ => True) := by
  have hcovers := Ty.covers_of_assignable hfits
  refine ⟨fun identity c hc => Program.exists_enter fun names hnames => ?_, fun n hn hmore => ?_, fun hmost => ?_⟩
  · refine hcovers.admits hadmits ?_
    cases ps with
    | fixed ps =>
        rw [hnames] at hc
        have hlength := congrArg List.length (ParameterList.fixed.inj hc)
        rw [List.length_map, List.length_map] at hlength
        exact Nat.le_of_eq hlength
    | variadic q =>
        rw [hnames] at hc
        cases hc
  · exact call_of_length_ne hn (Nat.ne_of_gt hmore) callback steps span
  · refine ends_call_of_length fun n hn => Nat.le_antisymm (hmost n hn) ?_
    have hps := parameters_of_declared hdeclared
    rw [hn] at hps
    obtain ⟨own, rfl, rfl⟩ := hps
    exact hcovers.admits hadmits (Nat.le_refl own.length)

/-- `[A](items: List[A]) -> Number`, with a name for the parameter. -/
def lengthType (name : String) : Ty :=
  .function [⟨"A", 6⟩] (.fixed [(name, .list (.var ⟨"A", 6⟩))]) .number

theorem exists_declared_length : ∃ name, Prelude.declared? .length = some (lengthType name) := by
  obtain ⟨type, own, htype, hown, hsame⟩ := Prelude.exists_declared? .length
  cases hown
  have halike := (Ty.alike_iff_same type fun _ _ => Iff.rfl).mpr hsame
  cases type with
  | function vs ps result =>
      obtain ⟨rfl, hps, hresult⟩ := halike
      have hnumber : result = .number := by
        cases result <;> first | rfl | exact hresult.elim
      rcases ps with (_ | ⟨⟨name, a⟩, _ | ⟨_, _⟩⟩) | _
      · exact hps.elim
      · have ha : a = .list (.var ⟨"A", 6⟩) := by
          cases a with
          | list a =>
              cases a with
              | var v =>
                  have hv := (Matching.bind_self (fun _ _ => Iff.rfl) _ _ _).mp hps.1
                  rw [hv]
              | _ => exact hps.1.elim
          | _ => exact hps.1.elim
        exact ⟨name, by rw [htype, hnumber, ha]; rfl⟩
      · exact hps.2.elim
      · exact hps.elim
  | _ => exact halike.elim

/-- Calls that never come to a result. -/
def endless : Value → List Value → Span → Eval Value := fun _ _ _ => .outOfSteps

/-- `length` where it stands for a function with as many parameters. -/
theorem arity_of_assignable_length : ∃ name, Prelude.declared? .length = some (lengthType name) ∧
    Ty.assignable (lengthType name) (lengthType "items") = .ok true ∧
      (∃ env : Environment, Program.enter 0 ⟨none, .fixed ["items"], ⟨[], 0⟩, []⟩ [.list []] .none = .ok env) ∧
        (length.call endless 0 [.list []] .none).Ends (Counts endless) fun _ => True := by
  obtain ⟨name, hname⟩ := exists_declared_length
  have hfits : Ty.assignable (lengthType name) (lengthType "items") = .ok true := rfl
  have hadmits : (ParameterList.fixed [("items", Ty.list (.var ⟨"A", 0⟩))]).Admits
      ([.list []] : List Value).length := rfl
  obtain ⟨hclosure, -, hbuiltin⟩ := arity_of_assignable hname hfits hadmits endless 0 .none
  exact ⟨name, hname, hfits, hclosure 0 ⟨none, .fixed ["items"], ⟨[], 0⟩, []⟩ rfl,
    hbuiltin fun n hn => Nat.le_of_eq (Option.some.inj hn)⟩

/-- `length` where it stands for a function of a list and a number: such a function takes two arguments. -/
theorem length_refuses_surplus : ∃ name, Prelude.declared? .length = some (lengthType name) ∧
    Ty.assignable (lengthType name)
      (.function [⟨"A", 0⟩] (.fixed [("items", .list (.var ⟨"A", 0⟩)), ("extra", .number)]) .number) = .ok true ∧
    ∀ (callback : Value → List Value → Span → Eval Value) (steps : Nat) (span : Span),
      length.call callback steps [.list [], .number 0] span = .throw ⟨.builtinArgumentCount .length 1 2, span⟩ := by
  obtain ⟨name, hname⟩ := exists_declared_length
  exact ⟨name, hname, rfl, fun _ _ _ => rfl⟩

end Builtin

end Sable
