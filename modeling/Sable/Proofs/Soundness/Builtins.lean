import Sable.Proofs.Soundness.Program

/-! Builtins keep the promise of the types that they are declared with.

A sequence calls the functions of its stages whenever items are taken from it. What it promises is a promise
for a budget of time, and all of its items and calls are within that budget. -/
namespace Sable

/-! ## Sequences -/

namespace Setting

variable {S : Setting} {k steps : Nat} {span : Span} {m : Meaning} {Q : Nat → Value → Prop}

/-- What comes out of the stages goes through a predicate as well. -/
theorem Passes.filter {stages : List (Sequence.Stage Value)} {keep : Value} (h : S.Passes k Q stages m)
    (hkeep : ∀ j ≤ k, ∀ item, Q j item → S.Calls j keep [item] fun _ v => ∃ b, v = .boolean b) :
    S.Passes k Q (stages ++ [.filter keep]) m := by
  induction stages generalizing m with
  | nil => exact ⟨fun j hj item hitem => hkeep j hj item (h j hj item hitem), h⟩
  | cons stage rest ih =>
      cases stage with
      | filter f => exact ⟨h.1, ih h.2⟩
      | map f =>
          obtain ⟨m', hcalls, hrest⟩ := h
          exact ⟨m', hcalls, ih hrest⟩

/-- The results of a function come out instead of what comes out of the stages. -/
theorem Passes.map {stages : List (Sequence.Stage Value)} {f : Value} {n : Meaning} (h : S.Passes k Q stages m)
    (hf : ∀ j ≤ k, ∀ item, Q j item → S.Calls j f [item] n.holds) :
    S.Passes k n.holds (stages ++ [.map f]) m := by
  induction stages generalizing m with
  | nil => exact ⟨n, fun j hj item hitem => hf j hj item (h j hj item hitem), fun _ _ _ hitem => hitem⟩
  | cons stage rest ih =>
      cases stage with
      | filter f => exact ⟨h.1, ih h.2⟩
      | map f =>
          obtain ⟨own, hcalls, hrest⟩ := h
          exact ⟨own, hcalls, ih hrest⟩

/-- An item of a source on its way through the stages. -/
theorem within_through {stages : List (Sequence.Stage Value)} {item : Value} (h : S.Passes k Q stages m)
    (hitem : m.holds k item) : Eval.Within S.allowed k
      (Sequence.through (S.program.call steps) span stages item) fun j found => ∀ out ∈ found, Q j out := by
  induction stages generalizing k m item with
  | nil =>
      refine Eval.Within.pure fun out hout => ?_
      obtain rfl := Option.some.inj hout
      exact h k (Nat.le_refl k) item hitem
  | cons stage rest ih =>
      cases stage with
      | filter f =>
          obtain ⟨hcalls, hrest⟩ := h
          refine Eval.Within.bind (hcalls k (Nat.le_refl k) item hitem steps span) fun i answer hi hanswer => ?_
          refine Eval.Within.bind (within_asBoolean (ρ := fun _ => .nothing) hanswer) ?_
          rintro _ b - ⟨rfl, -⟩
          cases b with
          | true => exact ih (hrest.mono hi) (m.mono hi hitem)
          | false => exact Eval.Within.pure fun out hout => by cases hout
      | map f =>
          obtain ⟨m', hcalls, hrest⟩ := h
          refine Eval.Within.bind (hcalls k (Nat.le_refl k) item hitem steps span) fun i result hi hresult => ?_
          exact ih (hrest.mono hi) hresult

/-- The first item of a source belongs to the meaning, and so do those of the source after it. -/
theorem Supplies.next {source source' : Sequence.Source Value} {item : Value} (h : Supplies k m source)
    (hnext : source.next? = some (item, source')) : m.holds k item ∧ Supplies k m source' := by
  cases source with
  | range next stop =>
      simp only [Sequence.Source.next?] at hnext
      split at hnext
      · cases hnext
      · cases hnext
        exact ⟨h k _, h⟩
  | items items =>
      cases items with
      | nil => cases hnext
      | cons first rest =>
          cases hnext
          exact ⟨h item List.mem_cons_self, fun item hitem => h item (List.mem_cons_of_mem _ hitem)⟩

/-- The next item is as the sequence promises, if there is one, and what is left promises the same. -/
theorem within_next (count : Nat) {s : Sequence Value} (h : S.Yields k s Q) : Eval.Within S.allowed k
    (s.next (S.program.call steps) span count) fun j found => S.Yields j found.2 Q ∧
      (∀ out, found.1 = .ok (some out) → Q j out) ∧ ∀ e, found.1 = .error e → S.allowed e.fault := by
  induction count generalizing k s with
  | zero => exact Eval.Within.outOfSteps
  | succ count ih =>
      obtain ⟨m, hsource, hstages⟩ := h
      unfold Sequence.next
      cases hnext : s.source.next? with
      | none => exact Eval.Within.pure ⟨⟨m, hsource, hstages⟩, by simp, by simp⟩
      | some found =>
          obtain ⟨item, source⟩ := found
          obtain ⟨hitem, hsource'⟩ := hsource.next hnext
          refine Eval.Within.bind (within_through hstages hitem).observe fun i found hi hfound => ?_
          have hrest : S.Yields i { s with source } Q := ⟨m, hsource'.mono hi, hstages.mono hi⟩
          cases found with
          | error e =>
              refine Eval.Within.pure ⟨hrest, by simp, fun own hown => ?_⟩
              obtain rfl := Except.error.inj hown
              exact hfound
          | ok found =>
              cases found with
              | none => exact ih hrest
              | some out =>
                  refine Eval.Within.pure ⟨hrest, fun own hown => ?_, by simp⟩
                  obtain rfl := Option.some.inj (Except.ok.inj hown)
                  exact hfound out rfl

/-- The items that are taken are as the sequence promises. -/
theorem within_takeFrom (count : Nat) {s : Sequence Value} {taken : List Value} (h : S.Yields k s m.holds)
    (htaken : ∀ item ∈ taken, m.holds k item) : Eval.Within S.allowed k
      (Sequence.takeFrom (S.program.call steps) span steps count s taken) fun j items =>
        ∀ item ∈ items, m.holds j item := by
  induction count generalizing k s taken with
  | zero => exact Eval.Within.pure fun item hitem => htaken item (List.mem_reverse.mp hitem)
  | succ count ih =>
      refine Eval.Within.bind (within_next steps h) fun i found hi hfound => ?_
      obtain ⟨found, rest⟩ := found
      obtain ⟨hrest, hitem, herror⟩ := hfound
      have htaken' : ∀ item ∈ taken, m.holds i item := fun item hitem => m.mono hi (htaken item hitem)
      cases found with
      | error e => exact Eval.Within.throw (herror e rfl)
      | ok found =>
          cases found with
          | none => exact Eval.Within.pure fun item hitem => htaken' item (List.mem_reverse.mp hitem)
          | some out => exact ih hrest (List.forall_mem_cons.mpr ⟨hitem out rfl, htaken'⟩)

end Setting

/-! ## The types of builtins -/

namespace Builtin

/-- The type of a builtin over its type variables, as it is to be declared. -/
def type? (b : Builtin) (vs : List TypeVariable) : Option Ty :=
  match b, vs with
  | range, [] => some (.function [] (.fixed [("from", .number), ("to", .number)]) (.sequence .number))
  | naturals, [] => some (.function [] (.fixed []) (.sequence .number))
  | filter, [a] => some (.function [a] (.fixed [("items", .sequence (.var a)),
      ("keep", .function [] (.fixed [("item", .var a)]) .boolean)]) (.sequence (.var a)))
  | map, [a, b] => some (.function [a, b] (.fixed [("items", .sequence (.var a)),
      ("f", .function [] (.fixed [("item", .var a)]) (.var b))]) (.sequence (.var b)))
  | take, [a] => some (.function [a] (.fixed [("items", .sequence (.var a)), ("count", .number)])
      (.list (.var a)))
  | list, [a] => some (.function [a] (.variadic ("items", .var a)) (.list (.var a)))
  | sequence, [a] => some (.function [a] (.fixed [("items", .list (.var a))]) (.sequence (.var a)))
  | length, [a] => some (.function [a] (.fixed [("items", .list (.var a))]) .number)
  | get, [a] => some (.function [a] (.fixed [("items", .list (.var a)), ("index", .number)])
      (.nullable (.var a)))
  | sum, [] => some (.function [] (.variadic ("values", .number)) .number)
  | bigint, [] => some (.function [] (.fixed [("value", .number)]) .bigInteger)
  | _, _ => none

/-- The function of the name is a builtin, and its type is that of the builtin. -/
def Declares (name : String) (s : Signature) : Prop :=
  ∃ b result, ofName? name = some b ∧ s.result = some result ∧
    b.type? s.typeVariables = some (.function s.typeVariables s.arguments result)

theorem ofName?_name (b : Builtin) : ofName? b.name = some b := by
  cases b <;> decide

/-- A builtin that does not take just any number of arguments fails for other numbers than its own. -/
theorem call_of_length_ne {b : Builtin} {n : Nat} (harity : b.arity? = some n) {arguments : List Value}
    (hlength : arguments.length ≠ n) (callback : Value → List Value → Span → Eval Value) (steps : Nat)
    (span : Span) : b.call callback steps arguments span =
      .throw ⟨.builtinArgumentCount b n arguments.length, span⟩ := by
  cases b <;> cases harity <;> rcases arguments with _ | ⟨_, _ | ⟨_, _ | ⟨_, _⟩⟩⟩ <;>
    first | rfl | exact absurd rfl hlength

end Builtin

/-! ## Builtins -/

/-- The faults that types do not rule out. A builtin may get too many arguments, if functions that take as
many as it does may stand for functions that take more. -/
inductive Unavoidable (exact : Nat → Prop) : RuntimeFault → Prop
  | divisionByZero : Unavoidable exact .divisionByZero
  | negativeCount : Unavoidable exact .negativeCount
  | notWhole {b : Builtin} (hwhole : b = .take ∨ b = .get ∨ b = .bigint) (x : Float) :
      Unavoidable exact (.notWhole b x)
  | tooManyArguments {b : Builtin} {n m : Nat} (harity : b.arity? = some n) (hexact : ¬ exact n)
      (hmore : n < m) : Unavoidable exact (.builtinArgumentCount b n m)

/-- What types mean in a program with builtins. -/
def Program.withBuiltins (p : Program) (exact : Nat → Prop) : Setting where
  program := p
  allowed := Unavoidable exact
  exact := exact
  suits _ _ := True
  suits_of_covers := fun _ _ => trivial

namespace Builtin

open Ty

variable {p : Program} {exact : Nat → Prop} {ρ σ : Assignment} {k j steps : Nat} {span : Span}

/-- A builtin with a fixed number of parameters has its type if its calls with so many arguments keep the
promise of the type. -/
theorem holds_fixed {b : Builtin} {vs : List TypeVariable} {ps : List (String × Ty)} {result : Ty}
    (harity : b.arity? = some ps.length)
    (hcall : ∀ (σ : Assignment) (j steps : Nat) (span : Span) (arguments : List Value),
      arguments.length = ps.length → HoldsEach (p.withBuiltins exact) ps σ j arguments →
        Eval.Within (Unavoidable exact) j (b.call (p.call steps) steps arguments span)
          (result.Holds (p.withBuiltins exact) σ)) :
    (Ty.function vs (.fixed ps) result).Holds (p.withBuiltins exact) ρ k (.function (.builtin b)) := by
  refine ⟨.builtin b, rfl, trivial, fun σ _ j _ arguments harguments steps span => ?_⟩
  obtain ⟨heach, hexact⟩ := harguments
  cases steps with
  | zero => exact Eval.Within.outOfSteps
  | succ steps =>
      by_cases hlength : arguments.length = ps.length
      · exact hcall σ j steps span arguments hlength heach
      · have hrun : p.call (steps + 1) (.function (.builtin b)) arguments span =
            .throw ⟨.builtinArgumentCount b ps.length arguments.length, span⟩ :=
          call_of_length_ne harity hlength (p.call steps) steps span
        have hmore : ps.length < arguments.length :=
          Nat.lt_of_le_of_ne (holdsEach_iff.mp heach).1 (Ne.symm hlength)
        have hfault := Unavoidable.tooManyArguments harity (fun h => hlength (hexact h)) hmore
        exact hrun ▸ Eval.Within.throw hfault

/-- A builtin that takes any number of arguments. -/
theorem holds_variadic {b : Builtin} {vs : List TypeVariable} {q : String × Ty} {result : Ty}
    (hcall : ∀ (σ : Assignment) (j steps : Nat) (span : Span) (arguments : List Value),
      (∀ v ∈ arguments, q.2.Holds (p.withBuiltins exact) σ j v) →
        Eval.Within (Unavoidable exact) j (b.call (p.call steps) steps arguments span)
          (result.Holds (p.withBuiltins exact) σ)) :
    (Ty.function vs (.variadic q) result).Holds (p.withBuiltins exact) ρ k (.function (.builtin b)) := by
  refine ⟨.builtin b, rfl, trivial, fun σ _ j _ arguments harguments steps span => ?_⟩
  cases steps with
  | zero => exact Eval.Within.outOfSteps
  | succ steps => exact hcall σ j steps span arguments harguments

/-! ### Casts -/

theorem within_newSequence {a : Ty} {s : Sequence Value}
    (h : (p.withBuiltins exact).Yields j s (a.Holds (p.withBuiltins exact) σ)) :
    Eval.Within (Unavoidable exact) j (newSequence s) ((Ty.sequence a).Holds (p.withBuiltins exact) σ) := by
  refine Eval.Within.bind Eval.Within.tick fun i identity hi _ => Eval.Within.pure ?_
  exact ⟨identity, s, rfl, h.mono hi⟩

theorem within_asNumber {v : Value} (h : Ty.number.Holds (p.withBuiltins exact) σ j v) :
    Eval.Within (Unavoidable exact) j (.blame span v.asNumber) fun _ _ => True := by
  obtain ⟨x, rfl⟩ := h
  exact Eval.Within.blame_ok rfl trivial

theorem within_wholeArgument {b : Builtin} (hwhole : b = take ∨ b = get ∨ b = bigint) {v : Value}
    (h : Ty.number.Holds (p.withBuiltins exact) σ j v) :
    Eval.Within (Unavoidable exact) j (.blame span (wholeArgument b v)) fun i _ => i = j := by
  obtain ⟨x, rfl⟩ := h
  refine Eval.Within.blame (fun _ _ => rfl) fun fault hfault => ?_
  simp only [wholeArgument, Value.asNumber, bind, Except.bind] at hfault
  split at hfault
  · cases hfault
  · cases hfault
    exact .notWhole hwhole x

theorem within_asSequence {a : Ty} {v : Value} (h : (Ty.sequence a).Holds (p.withBuiltins exact) σ j v) :
    Eval.Within (Unavoidable exact) j (.blame span v.asSequence) fun i s => i = j ∧
      (p.withBuiltins exact).Yields j s (a.Holds (p.withBuiltins exact) σ) := by
  obtain ⟨identity, s, rfl, hs⟩ := h
  exact Eval.Within.blame_ok rfl ⟨rfl, hs⟩

theorem within_asList {a : Ty} {v : Value} (h : (Ty.list a).Holds (p.withBuiltins exact) σ j v) :
    Eval.Within (Unavoidable exact) j (.blame span v.asList) fun i items => i = j ∧
      ∀ item ∈ items, a.Holds (p.withBuiltins exact) σ j item := by
  obtain ⟨items, rfl, hitems⟩ := h
  exact Eval.Within.blame_ok rfl ⟨rfl, hitems⟩

theorem sumFrom_of_numbers {arguments : List Value}
    (h : ∀ v ∈ arguments, Ty.number.Holds (p.withBuiltins exact) σ j v) (total : Float) :
    ∃ x, sumFrom total arguments = .ok x := by
  induction arguments generalizing total with
  | nil => exact ⟨total, rfl⟩
  | cons v rest ih =>
      obtain ⟨⟨x, rfl⟩, hrest⟩ := List.forall_mem_cons.mp h
      exact ih hrest (total + x)

/-- A function that takes an item keeps its promise for each item by itself. -/
theorem calls_of_holds {a result : Ty} {f : Value} {name : String}
    (h : (Ty.function [] (.fixed [(name, a)]) result).Holds (p.withBuiltins exact) σ j f) :
    ∀ i ≤ j, ∀ item, a.Holds (p.withBuiltins exact) σ i item →
      (p.withBuiltins exact).Calls i f [item] (result.Holds (p.withBuiltins exact) σ) := by
  intro i hi item hitem
  obtain ⟨g, rfl, -, hcalls⟩ := h
  exact hcalls σ (fun _ _ => rfl) i hi [item] ⟨⟨item, [], rfl, hitem, trivial⟩, fun _ => rfl⟩

/-! ### Calls -/

theorem within_range (start : Float) (stop : Option Float) :
    Eval.Within (Unavoidable exact) j (newSequence ⟨.range start stop, []⟩)
      ((Ty.sequence .number).Holds (p.withBuiltins exact) σ) := by
  refine within_newSequence ⟨Ty.number.meaning (p.withBuiltins exact) σ, fun _ x => ⟨x, rfl⟩, ?_⟩
  exact fun _ _ _ hitem => hitem

section

variable {a b : Ty} {items f count : Value}
  (hitems : (Ty.sequence a).Holds (p.withBuiltins exact) σ j items)
include hitems

theorem within_filter {name : String}
    (hf : (Ty.function [] (.fixed [(name, a)]) .boolean).Holds (p.withBuiltins exact) σ j f) :
    Eval.Within (Unavoidable exact) j (filter.call (p.call steps) steps [items, f] span)
      ((Ty.sequence a).Holds (p.withBuiltins exact) σ) := by
  refine Eval.Within.bind (within_asSequence hitems) ?_
  rintro _ s - ⟨rfl, m, hsource, hstages⟩
  have hcalls := calls_of_holds hf
  obtain ⟨g, rfl, -, -⟩ := hf
  refine Eval.Within.bind (Eval.Within.blame_ok rfl rfl) fun i _ hi (_ : i = i) => ?_
  exact within_newSequence (Setting.Yields.mono hi ⟨m, hsource, hstages.filter hcalls⟩)

theorem within_map {name : String}
    (hf : (Ty.function [] (.fixed [(name, a)]) b).Holds (p.withBuiltins exact) σ j f) :
    Eval.Within (Unavoidable exact) j (map.call (p.call steps) steps [items, f] span)
      ((Ty.sequence b).Holds (p.withBuiltins exact) σ) := by
  refine Eval.Within.bind (within_asSequence hitems) ?_
  rintro _ s - ⟨rfl, m, hsource, hstages⟩
  have hcalls := calls_of_holds hf
  obtain ⟨g, rfl, -, -⟩ := hf
  refine Eval.Within.bind (Eval.Within.blame_ok rfl rfl) fun i _ hi (_ : i = i) => ?_
  have hmapped := Setting.Passes.map (n := b.meaning (p.withBuiltins exact) σ) hstages hcalls
  exact within_newSequence (Setting.Yields.mono hi ⟨m, hsource, hmapped⟩)

theorem within_take (hcount : Ty.number.Holds (p.withBuiltins exact) σ j count) :
    Eval.Within (Unavoidable exact) j (take.call (p.call steps) steps [items, count] span)
      ((Ty.list a).Holds (p.withBuiltins exact) σ) := by
  refine Eval.Within.bind (within_asSequence hitems) ?_
  rintro _ s - ⟨rfl, hs⟩
  refine Eval.Within.bind (within_wholeArgument (.inl rfl) hcount) ?_
  rintro i n - rfl
  have htaken : Eval.Within (Unavoidable exact) i (do
      pure (.list (← s.take (p.call steps) span steps n.toNat)))
      ((Ty.list a).Holds (p.withBuiltins exact) σ) := by
    refine Eval.Within.bind ?_ fun i found _ hfound => Eval.Within.pure ⟨found, rfl, hfound⟩
    exact Setting.within_takeFrom (m := a.meaning (p.withBuiltins exact) σ) n.toNat hs
      (List.forall_mem_nil _)
  by_cases hn : n < 0
  · simp only [hn, if_true]
    have hthrow : Eval.Within (Unavoidable exact) i (.throw ⟨.negativeCount, span⟩ : Eval PUnit)
        fun _ _ => False := Eval.Within.throw .negativeCount
    exact Eval.Within.bind hthrow fun _ _ _ hfalse => hfalse.elim
  · simp only [hn, if_false]
    exact htaken

end

theorem within_get {a : Ty} {items index : Value} (hitems : (Ty.list a).Holds (p.withBuiltins exact) σ j items)
    (hindex : Ty.number.Holds (p.withBuiltins exact) σ j index) :
    Eval.Within (Unavoidable exact) j (get.call (p.call steps) steps [items, index] span)
      ((Ty.nullable a).Holds (p.withBuiltins exact) σ) := by
  refine Eval.Within.bind (within_asList hitems) ?_
  rintro _ found - ⟨rfl, hfound⟩
  refine Eval.Within.bind (within_wholeArgument (.inr (.inl rfl)) hindex) ?_
  rintro _ n - rfl
  refine Eval.Within.pure ?_
  split
  · exact .inl rfl
  · cases hget : found[n.toNat]? with
    | none => exact .inl rfl
    | some item => exact .inr (hfound item (List.mem_of_getElem? hget))

/-- A builtin keeps the promise of its type. -/
theorem holds {b : Builtin} {vs : List TypeVariable} {type : Ty} (h : b.type? vs = some type) :
    type.Holds (p.withBuiltins exact) ρ k (.function (.builtin b)) := by
  unfold type? at h
  split at h <;> cases h
  · -- range
    refine holds_fixed rfl fun σ j steps span arguments hlength heach => ?_
    obtain ⟨start, _, rfl, hstart, stop, rest, rfl, hstop, -⟩ := heach
    obtain rfl := List.eq_nil_of_length_eq_zero (by simpa using hlength)
    refine Eval.Within.bind (within_asNumber hstart) fun _ x hi _ => ?_
    refine Eval.Within.bind (within_asNumber (hstop.mono hi)) fun _ y _ _ => ?_
    exact within_range x (some y)
  · -- naturals
    refine holds_fixed rfl fun σ j steps span arguments hlength _ => ?_
    obtain rfl := List.eq_nil_of_length_eq_zero hlength
    exact within_range 0 none
  · -- filter
    refine holds_fixed rfl fun σ j steps span arguments hlength heach => ?_
    obtain ⟨items, _, rfl, hitems, f, rest, rfl, hf, -⟩ := heach
    obtain rfl := List.eq_nil_of_length_eq_zero (by simpa using hlength)
    exact within_filter hitems hf
  · -- map
    refine holds_fixed rfl fun σ j steps span arguments hlength heach => ?_
    obtain ⟨items, _, rfl, hitems, f, rest, rfl, hf, -⟩ := heach
    obtain rfl := List.eq_nil_of_length_eq_zero (by simpa using hlength)
    exact within_map hitems hf
  · -- take
    refine holds_fixed rfl fun σ j steps span arguments hlength heach => ?_
    obtain ⟨items, _, rfl, hitems, count, rest, rfl, hcount, -⟩ := heach
    obtain rfl := List.eq_nil_of_length_eq_zero (by simpa using hlength)
    exact within_take hitems hcount
  · -- list
    refine holds_variadic fun σ j steps span arguments heach => ?_
    exact Eval.Within.pure ⟨arguments, rfl, heach⟩
  · -- sequence
    refine holds_fixed rfl fun σ j steps span arguments hlength heach => ?_
    obtain ⟨items, rest, rfl, hitems, -⟩ := heach
    obtain rfl := List.eq_nil_of_length_eq_zero (by simpa using hlength)
    refine Eval.Within.bind (within_asList hitems) ?_
    rintro i found - ⟨rfl, hfound⟩
    refine within_newSequence ⟨Ty.meaning (p.withBuiltins exact) (.var _) σ, hfound, ?_⟩
    exact fun _ _ _ hitem => hitem
  · -- length
    refine holds_fixed rfl fun σ j steps span arguments hlength heach => ?_
    obtain ⟨items, rest, rfl, hitems, -⟩ := heach
    obtain rfl := List.eq_nil_of_length_eq_zero (by simpa using hlength)
    exact Eval.Within.bind (within_asList hitems) fun _ found _ _ => Eval.Within.pure ⟨_, rfl⟩
  · -- get
    refine holds_fixed rfl fun σ j steps span arguments hlength heach => ?_
    obtain ⟨items, _, rfl, hitems, index, rest, rfl, hindex, -⟩ := heach
    obtain rfl := List.eq_nil_of_length_eq_zero (by simpa using hlength)
    exact within_get hitems hindex
  · -- sum
    refine holds_variadic fun σ j steps span arguments heach => ?_
    obtain ⟨x, hx⟩ := sumFrom_of_numbers heach 0
    refine Eval.Within.bind (Eval.Within.blame_ok hx trivial) fun _ y _ (_ : True) => ?_
    exact Eval.Within.pure ⟨y, rfl⟩
  · -- bigint
    refine holds_fixed rfl fun σ j steps span arguments hlength heach => ?_
    obtain ⟨value, rest, rfl, hvalue, -⟩ := heach
    obtain rfl := List.eq_nil_of_length_eq_zero (by simpa using hlength)
    exact Eval.Within.bind (within_wholeArgument (.inr (.inr rfl)) hvalue) fun _ n _ _ => Eval.Within.pure ⟨n, rfl⟩

end Builtin

end Sable
