import Sable.Proofs.Evaluation.Within
import Sable.Proofs.Ty.Fits

/-! What types mean: which values have a type, for a budget of time.

A value has a type by what can be done with it. That a function has a type is a promise about its calls,
and a call takes time; so a value has a type for a budget, and the type says nothing of what takes longer.
The variables of a type mean sets of values, and a function with type variables keeps its promise whatever
these mean. -/
namespace Sable

/-- What a type variable may mean: the values that belong to it, by budget. -/
structure Meaning where
  holds : Nat → Value → Prop
  mono : ∀ {j k : Nat} {v : Value}, j ≤ k → holds k v → holds j v

/-- A meaning to which no value belongs. -/
def Meaning.nothing : Meaning := ⟨fun _ _ => False, fun _ h => h⟩

/-- Meanings by type variable. -/
abbrev Assignment := TypeVariable → Meaning

/-- What the meaning of types depends on. -/
structure Setting where
  /-- The program that runs. -/
  program : Program
  /-- The faults that may happen in spite of all types. -/
  allowed : RuntimeFault → Prop
  /-- The numbers of parameters for which a function gets no arguments besides. -/
  exact : Nat → Prop
  /-- Which functions may have a type with the given parameters, whatever their calls come to. -/
  suits : Function Value → Parameters → Prop
  suits_of_covers : ∀ {f : Function Value} {ps qs : Parameters},
    suits f ps → Ty.Covers ps qs → suits f qs

namespace Setting

variable (S : Setting)

/-- A call of `f`, with any steps and blamed on any place, keeps within the budget to the promise. -/
def Calls (k : Nat) (f : Value) (arguments : List Value) (Q : Nat → Value → Prop) : Prop :=
  ∀ (steps : Nat) (span : Span), Eval.Within S.allowed k (S.program.call steps f arguments span) Q

/-! ## Sequences -/

/-- The items of a source belong to a meaning. -/
def Supplies (k : Nat) (m : Meaning) : Sequence.Source Value → Prop
  | .range .. => ∀ (j : Nat) (x : Float), m.holds j (.number x)
  | .items items => ∀ item ∈ items, m.holds k item

/-- Items of the meaning `m` come out of the stages as `Q` says. -/
def Passes (k : Nat) (Q : Nat → Value → Prop) : List (Sequence.Stage Value) → Meaning → Prop
  | [], m => ∀ j ≤ k, ∀ item, m.holds j item → Q j item
  | .filter f :: stages, m =>
    (∀ j ≤ k, ∀ item, m.holds j item → S.Calls j f [item] fun _ v => ∃ b, v = .boolean b) ∧
      Passes k Q stages m
  | .map f :: stages, m =>
    ∃ m' : Meaning, (∀ j ≤ k, ∀ item, m.holds j item → S.Calls j f [item] m'.holds) ∧
      Passes k Q stages m'

/-- What comes out of a sequence is as `Q` says. -/
def Yields (k : Nat) (s : Sequence Value) (Q : Nat → Value → Prop) : Prop :=
  ∃ m : Meaning, Supplies k m s.source ∧ S.Passes k Q s.stages m

end Setting

/-! ## Values of a type -/

namespace Ty

variable (S : Setting)

mutual

/-- The value has the type for the budget, where the variables of the type mean what `ρ` says. -/
def Holds : Ty → Assignment → Nat → Value → Prop
  | number, _, _, v => ∃ x, v = .number x
  | boolean, _, _, v => ∃ b, v = .boolean b
  | bigInteger, _, _, v => ∃ n, v = .bigInteger n
  | null, _, _, v => v = .null
  | list a, ρ, k, v => ∃ items, v = .list items ∧ ∀ item ∈ items, a.Holds ρ k item
  | sequence a, ρ, k, v => ∃ identity s, v = .sequence identity s ∧ S.Yields k s (a.Holds ρ)
  | object fields, ρ, k, v => ∃ entries, v = .object entries ∧ HoldsFields fields ρ k entries
  | function vs ps result, ρ, k, v => ∃ f, v = .function f ∧ S.suits f ps ∧
      ∀ σ : Assignment, (∀ x, x ∉ vs → σ x = ρ x) → ∀ j ≤ k, ∀ arguments,
        HoldsParameters ps σ j arguments → S.Calls j v arguments (result.Holds σ)
  | union alternatives narrowed, ρ, k, v => ∃ payload tag, v = .tagged payload tag ∧
      (∀ t ∈ narrowed, t = tag) ∧ HoldsAlternative alternatives ρ k tag payload
  | tagged a tag, ρ, k, v => ∃ payload, v = .tagged payload tag ∧ a.Holds ρ k payload
  | nullable a, ρ, k, v => v = .null ∨ a.Holds ρ k v
  | var x, ρ, k, v => (ρ x).holds k v
termination_by structural a => a

/-- Values by the same names in the same order, each of the type under its name. -/
def HoldsFields : List (String × Ty) → Assignment → Nat → List (String × Value) → Prop
  | [], _, _, entries => entries = []
  | (name, a) :: rest, ρ, k, entries => ∃ v entries', entries = (name, v) :: entries' ∧
      a.Holds ρ k v ∧ HoldsFields rest ρ k entries'
termination_by structural fields => fields

/-- The payload has the type under the tag. -/
def HoldsAlternative : List (String × Ty) → Assignment → Nat → String → Value → Prop
  | [], _, _, _, _ => False
  | (name, a) :: rest, ρ, k, tag, payload =>
    if name = tag then a.Holds ρ k payload else HoldsAlternative rest ρ k tag payload
termination_by structural alternatives => alternatives

/-- Arguments that functions with the parameters are promised. -/
def HoldsParameters : ParameterList (String × Ty) → Assignment → Nat → List Value → Prop
  | .fixed ps, ρ, k, arguments =>
    HoldsEach ps ρ k arguments ∧ (S.exact ps.length → arguments.length = ps.length)
  | .variadic (_, a), ρ, k, arguments => ∀ v ∈ arguments, a.Holds ρ k v
termination_by structural ps => ps

def HoldsEach : List (String × Ty) → Assignment → Nat → List Value → Prop
  | [], _, _, _ => True
  | (_, a) :: rest, ρ, k, arguments => ∃ v arguments', arguments = v :: arguments' ∧
      a.Holds ρ k v ∧ HoldsEach rest ρ k arguments'
termination_by structural ps => ps

end

variable {S}

/-! ## Parts of values -/

theorem holdsAlternative_iff {alternatives : Fields Ty} {ρ : Assignment} {k : Nat} {tag : String}
    {payload : Value} : HoldsAlternative S alternatives ρ k tag payload ↔
      ∃ a, Fields.get? tag alternatives = some a ∧ a.Holds S ρ k payload := by
  induction alternatives with
  | nil => simp [HoldsAlternative, Fields.get?]
  | cons alternative rest ih =>
      simp only [HoldsAlternative, Fields.get?]
      split
      · simp
      · exact ih

theorem HoldsFields.get? {fields : Fields Ty} {ρ : Assignment} {k : Nat} {entries : Fields Value}
    (h : HoldsFields S fields ρ k entries) {name : String} {a : Ty}
    (hget : Fields.get? name fields = some a) :
    ∃ v, Fields.get? name entries = some v ∧ a.Holds S ρ k v := by
  induction fields generalizing entries with
  | nil => simp [Fields.get?] at hget
  | cons field rest ih =>
      obtain ⟨v, entries', rfl, hv, hrest⟩ := h
      simp only [Fields.get?] at hget ⊢
      split
      · rw [if_pos ‹_›] at hget
        obtain rfl := Option.some.inj hget
        exact ⟨v, rfl, hv⟩
      · rw [if_neg ‹_›] at hget
        exact ih hrest hget

theorem HoldsFields.insert {fields : Fields Ty} {ρ : Assignment} {k : Nat} {entries : Fields Value}
    (h : HoldsFields S fields ρ k entries) {name : String} {a : Ty} {v : Value}
    (hv : a.Holds S ρ k v) :
    HoldsFields S (Fields.insert name a fields) ρ k (Fields.insert name v entries) := by
  induction fields generalizing entries with
  | nil =>
      obtain rfl := h
      exact ⟨v, [], rfl, hv, rfl⟩
  | cons field rest ih =>
      obtain ⟨w, entries', rfl, hw, hrest⟩ := h
      simp only [Fields.insert]
      split
      · exact ⟨v, entries', rfl, hv, hrest⟩
      · split
        · exact ⟨v, _, rfl, hv, w, entries', rfl, hw, hrest⟩
        · exact ⟨w, _, rfl, hw, ih hrest⟩

variable (S) in
/-- A number of arguments that functions with the parameters are promised. -/
def Arity : Parameters → Nat → Prop
  | .fixed ps, n => ps.length ≤ n ∧ (S.exact ps.length → n = ps.length)
  | .variadic _, _ => True

theorem holdsEach_iff {ps : List (String × Ty)} {ρ : Assignment} {k : Nat} {arguments : List Value} :
    HoldsEach S ps ρ k arguments ↔ ps.length ≤ arguments.length ∧
      ∀ (i : Nat) (q : String × Ty) (v : Value), ps[i]? = some q → arguments[i]? = some v →
        q.2.Holds S ρ k v := by
  induction ps generalizing arguments with
  | nil => simp [HoldsEach]
  | cons p rest ih =>
      constructor
      · rintro ⟨v, arguments', rfl, hv, hrest⟩
        obtain ⟨hlength, heach⟩ := ih.mp hrest
        refine ⟨Nat.succ_le_succ hlength, fun i q w hq hw => ?_⟩
        cases i with
        | zero =>
            simp only [List.getElem?_cons_zero, Option.some.injEq] at hq hw
            subst hq hw
            exact hv
        | succ i => exact heach i q w hq hw
      · rintro ⟨hlength, heach⟩
        cases arguments with
        | nil => simp at hlength
        | cons v arguments' =>
            refine ⟨v, arguments', rfl, heach 0 p v rfl rfl, ih.mpr ?_⟩
            exact ⟨Nat.le_of_succ_le_succ hlength, fun i => heach (i + 1)⟩

theorem holdsParameters_iff {ps : Parameters} {ρ : Assignment} {k : Nat} {arguments : List Value} :
    HoldsParameters S ps ρ k arguments ↔ Arity S ps arguments.length ∧
      ∀ (i : Nat) (q : String × Ty) (v : Value), ps.get? i = some q → arguments[i]? = some v →
        q.2.Holds S ρ k v := by
  cases ps with
  | fixed ps =>
      simp only [HoldsParameters, holdsEach_iff, Arity, ParameterList.get?]
      exact and_right_comm
  | variadic q =>
      simp only [HoldsParameters, Arity, ParameterList.get?, true_and]
      constructor
      · intro h i q' v hq hv
        obtain rfl := Option.some.inj hq
        exact h v (List.mem_of_getElem? hv)
      · intro h v hv
        obtain ⟨i, hi⟩ := List.mem_iff_getElem?.mp hv
        exact h i q v rfl hi

end Ty

/-! ## Smaller budgets -/

namespace Setting

variable {S : Setting}

theorem Supplies.mono {m : Meaning} {j k : Nat} (hj : j ≤ k) {source : Sequence.Source Value}
    (h : Supplies k m source) : Supplies j m source := by
  cases source with
  | range _ _ => exact h
  | items items => exact fun item hitem => m.mono hj (h item hitem)

theorem Passes.mono {Q : Nat → Value → Prop} {j k : Nat} (hj : j ≤ k)
    {stages : List (Sequence.Stage Value)} {m : Meaning} (h : S.Passes k Q stages m) :
    S.Passes j Q stages m := by
  induction stages generalizing m with
  | nil => exact fun i hi => h i (Nat.le_trans hi hj)
  | cons stage rest ih =>
      cases stage with
      | filter f => exact ⟨fun i hi => h.1 i (Nat.le_trans hi hj), ih h.2⟩
      | map f =>
          obtain ⟨m', hcalls, hrest⟩ := h
          exact ⟨m', fun i hi => hcalls i (Nat.le_trans hi hj), ih hrest⟩

theorem Yields.mono {Q : Nat → Value → Prop} {j k : Nat} (hj : j ≤ k) {s : Sequence Value}
    (h : S.Yields k s Q) : S.Yields j s Q := by
  obtain ⟨m, hsource, hstages⟩ := h
  exact ⟨m, hsource.mono hj, hstages.mono hj⟩

end Setting

namespace Ty

variable {S : Setting}

mutual

/-- A value that has a type for a budget has it for a smaller one. -/
theorem Holds.mono : ∀ {a : Ty} {ρ : Assignment} {j k : Nat} {v : Value} (_ : j ≤ k),
    a.Holds S ρ k v → a.Holds S ρ j v
  | .number, _, _, _, _, _, h | .boolean, _, _, _, _, _, h | .bigInteger, _, _, _, _, _, h
  | .null, _, _, _, _, _, h => h
  | .list _, _, _, _, _, hj, ⟨items, hv, h⟩ =>
      ⟨items, hv, fun item hitem => Holds.mono hj (h item hitem)⟩
  | .sequence _, _, _, _, _, hj, ⟨identity, s, hv, h⟩ => ⟨identity, s, hv, h.mono hj⟩
  | .object _, _, _, _, _, hj, ⟨entries, hv, h⟩ => ⟨entries, hv, HoldsFields.mono hj h⟩
  | .function _ _ _, _, _, _, _, hj, ⟨f, hv, hsuits, h⟩ =>
      ⟨f, hv, hsuits, fun σ hσ i hi => h σ hσ i (Nat.le_trans hi hj)⟩
  | .union _ _, _, _, _, _, hj, ⟨payload, tag, hv, hnarrowed, h⟩ =>
      ⟨payload, tag, hv, hnarrowed, HoldsAlternative.mono hj h⟩
  | .tagged _ _, _, _, _, _, hj, ⟨payload, hv, h⟩ => ⟨payload, hv, Holds.mono hj h⟩
  | .nullable _, _, _, _, _, _, .inl h => .inl h
  | .nullable _, _, _, _, _, hj, .inr h => .inr (Holds.mono hj h)
  | .var x, ρ, _, _, _, hj, h => (ρ x).mono hj h
termination_by structural a => a

theorem HoldsFields.mono : ∀ {fields : List (String × Ty)} {ρ : Assignment} {j k : Nat}
    {entries : List (String × Value)} (_ : j ≤ k),
    HoldsFields S fields ρ k entries → HoldsFields S fields ρ j entries
  | [], _, _, _, _, _, h => h
  | (_, _) :: _, _, _, _, _, hj, ⟨v, entries', hentries, hv, hrest⟩ =>
      ⟨v, entries', hentries, Holds.mono hj hv, HoldsFields.mono hj hrest⟩
termination_by structural fields => fields

theorem HoldsAlternative.mono : ∀ {alternatives : List (String × Ty)} {ρ : Assignment} {j k : Nat}
    {tag : String} {payload : Value} (_ : j ≤ k),
    HoldsAlternative S alternatives ρ k tag payload → HoldsAlternative S alternatives ρ j tag payload
  | (_, _) :: _, _, _, _, _, _, hj, h => by
      simp only [HoldsAlternative] at h ⊢
      split at h
      · rw [if_pos ‹_›]
        exact Holds.mono hj h
      · rw [if_neg ‹_›]
        exact HoldsAlternative.mono hj h
termination_by structural alternatives => alternatives

end

/-- What a type means, as something that a variable may mean. -/
def meaning (S : Setting) (a : Ty) (ρ : Assignment) : Meaning := ⟨a.Holds S ρ, Holds.mono⟩

theorem HoldsParameters.mono {ps : Parameters} {ρ : Assignment} {j k : Nat} {arguments : List Value}
    (hj : j ≤ k) (h : HoldsParameters S ps ρ k arguments) : HoldsParameters S ps ρ j arguments := by
  obtain ⟨harity, heach⟩ := holdsParameters_iff.mp h
  exact holdsParameters_iff.mpr ⟨harity, fun i q v hq hv => (heach i q v hq hv).mono hj⟩

end Ty

end Sable
