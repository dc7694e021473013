import Sable.Proofs.Evaluation.Runs

/-! Sequences as lists of outcomes.

A sequence that is walked stands for a list of outcomes, values and errors. The items of its source are the
first of them, and each stage makes another list of the list before it. The list may go on for ever, so it is
given piece by piece: with the outcomes at its front goes the sequence that is left after them.

A function that makes functions or sequences gives each of them the time as its identity, so that two calls
of it never come to the same. An outcome of a call is therefore one that the call has at some time. -/
namespace Sable.Sequence

variable {κ : Type}

/-- What comes of a call. -/
abbrev Outcome (κ : Type) := Except RuntimeError (Value κ)

/-! ## Sources -/

/-- The items at the front of a source, and what is left of it. -/
inductive Source.Lists : Source (Value κ) → List (Value κ) → Source (Value κ) → Prop
  | none {source : Source (Value κ)} : Lists source [] source
  | item {a : Value κ} {items as : List (Value κ)} {rest : Source (Value κ)}
      (h : Lists (.items items) as rest) : Lists (.items (a :: items)) (a :: as) rest
  /-- Numbers are counted up as the language adds them, up to the first that is not below the end. -/
  | number {next : Float} {stop : Option Float} {as : List (Value κ)} {rest : Source (Value κ)}
      (hstop : ∀ last ∈ stop, ¬last ≤ next) (h : Lists (.range (next + 1) stop) as rest) :
      Lists (.range next stop) (.number next :: as) rest

/-- There are no more items. -/
inductive Source.Spent : Source (Value κ) → Prop
  | items : Spent (.items [])
  | range {next stop : Float} (h : stop ≤ next) : Spent (.range next (some stop))

theorem Source.Lists.trans {source mid rest : Source (Value κ)} {as bs : List (Value κ)}
    (h : source.Lists as mid) (h' : mid.Lists bs rest) : source.Lists (as ++ bs) rest := by
  induction h with
  | none => exact h'
  | item _ ih => exact .item (ih h')
  | number hstop _ ih => exact .number hstop (ih h')

theorem Source.lists_of_next? {source rest : Source (Value κ)} {a : Value κ}
    (h : source.next? = some (a, rest)) : source.Lists [a] rest := by
  cases source with
  | range next stop =>
      simp only [next?, Option.ite_none_left_eq_some] at h
      obtain ⟨hstop, h⟩ := h
      cases h
      refine .number (fun last hlast => ?_) .none
      cases hlast
      simpa using hstop
  | items items =>
      cases items with
      | nil => cases h
      | cons a items =>
          cases h
          exact .item .none

theorem Source.next?_eq_none_iff {source : Source (Value κ)} : source.next? = none ↔ source.Spent := by
  constructor
  · intro h
    cases source with
    | range next stop =>
        cases stop with
        | none => simp [next?] at h
        | some stop => exact .range (by simpa [next?] using h)
    | items items =>
        cases items with
        | nil => exact .items
        | cons a items => cases h
  · rintro (_ | h)
    · rfl
    · simpa [next?] using h

/-- Of two lists of the items of a source one goes on where the other ends. -/
theorem Source.Lists.comparable {source rest rest' : Source (Value κ)} {as bs : List (Value κ)}
    (h : source.Lists as rest) (h' : source.Lists bs rest') : as <+: bs ∨ bs <+: as := by
  induction h generalizing bs with
  | none => exact .inl (List.nil_prefix ..)
  | item _ ih =>
      cases h' with
      | none => exact .inr (List.nil_prefix ..)
      | item h' => exact (ih h').imp (List.prefix_cons_inj _).mpr (List.prefix_cons_inj _).mpr
  | number _ _ ih =>
      cases h' with
      | none => exact .inr (List.nil_prefix ..)
      | number _ h' => exact (ih h').imp (List.prefix_cons_inj _).mpr (List.prefix_cons_inj _).mpr

theorem Source.Spent.lists {source rest : Source (Value κ)} {as : List (Value κ)} (h : source.Spent)
    (hlists : source.Lists as rest) : as = [] := by
  cases hlists with
  | none => rfl
  | item _ => cases h
  | number hstop _ =>
      cases h with
      | range h => exact absurd h (hstop _ rfl)

/-- A list of all items of a source goes on from every other list of them. -/
theorem Source.Lists.isPrefix_of_spent {source rest rest' : Source (Value κ)} {as bs : List (Value κ)}
    (h : source.Lists as rest) (h' : source.Lists bs rest') (hspent : rest'.Spent) : as <+: bs := by
  induction h' generalizing as with
  | none => exact hspent.lists h ▸ List.prefix_rfl
  | item _ ih =>
      cases h with
      | none => exact List.nil_prefix ..
      | item h => exact (List.prefix_cons_inj _).mpr (ih h hspent)
  | number _ _ ih =>
      cases h with
      | none => exact List.nil_prefix ..
      | number _ h => exact (List.prefix_cons_inj _).mpr (ih h hspent)

/-! ## Stages -/

section

variable (call : Value κ → List (Value κ) → Span → Eval (Value κ)) (span : Span)

/-- A call of the function with one argument has the outcome, at some time. -/
def Answers (f a : Value κ) (o : Outcome κ) : Prop :=
  ∃ now later, (call f [a] span).outcome now = some (o, later)

/-- What a stage makes of one outcome: another outcome, or nothing. -/
inductive Becomes : Stage (Value κ) → Outcome κ → List (Outcome κ) → Prop
  | passed {stage : Stage (Value κ)} {e : RuntimeError} : Becomes stage (.error e) [.error e]
  | mapped {f a : Value κ} {o : Outcome κ} (h : Answers call span f a o) : Becomes (.map f) (.ok a) [o]
  | kept {f a : Value κ} (h : Answers call span f a (.ok (.boolean true))) :
      Becomes (.filter f) (.ok a) [.ok a]
  | dropped {f a : Value κ} (h : Answers call span f a (.ok (.boolean false))) :
      Becomes (.filter f) (.ok a) []
  | failed {f a : Value κ} {e : RuntimeError} (h : Answers call span f a (.error e)) :
      Becomes (.filter f) (.ok a) [.error e]
  /-- The answer of a predicate is neither true nor false. -/
  | undecided {f a b : Value κ} {fault : RuntimeFault} (h : Answers call span f a (.ok b))
      (hb : b.asBoolean = .error fault) : Becomes (.filter f) (.ok a) [.error ⟨fault, span⟩]

/-- What a stage makes of a list of outcomes. -/
inductive Turns (stage : Stage (Value κ)) : List (Outcome κ) → List (Outcome κ) → Prop
  | none : Turns stage [] []
  | more {o : Outcome κ} {os now later : List (Outcome κ)} (ho : Becomes call span stage o now)
      (h : Turns stage os later) : Turns stage (o :: os) (now ++ later)

/-- What stages make of a list of outcomes, one after the other. -/
inductive Makes : List (Stage (Value κ)) → List (Outcome κ) → List (Outcome κ) → Prop
  | none {os : List (Outcome κ)} : Makes [] os os
  | stage {stage : Stage (Value κ)} {stages : List (Stage (Value κ))} {os os' os'' : List (Outcome κ)}
      (h : Turns call span stage os os') (hstages : Makes stages os' os'') : Makes (stage :: stages) os os''

/-- The sequence begins with the outcomes, and then `rest` is left of it. -/
def Begins (s : Sequence (Value κ)) (os : List (Outcome κ)) (rest : Sequence (Value κ)) : Prop :=
  rest.stages = s.stages ∧
    ∃ items, s.source.Lists items rest.source ∧ Makes call span s.stages (items.map .ok) os

/-- The outcomes are all there are. -/
def Has (s : Sequence (Value κ)) (os : List (Outcome κ)) : Prop :=
  ∃ rest, Begins call span s os rest ∧ rest.source.Spent

/-- The function that a stage calls. -/
def Stage.function : Stage (Value κ) → Value κ
  | .filter f | .map f => f

/-- Calls of the function come to the same at all times. -/
def Settled (f : Value κ) : Prop :=
  ∀ a o o', Answers call span f a o → Answers call span f a o' → o = o'

end

section

variable {call : Value κ → List (Value κ) → Span → Eval (Value κ)} {span : Span}

theorem Turns.append {stage : Stage (Value κ)} {os₁ os₁' os₂ os₂' : List (Outcome κ)}
    (h₁ : Turns call span stage os₁ os₁') (h₂ : Turns call span stage os₂ os₂') :
    Turns call span stage (os₁ ++ os₂) (os₁' ++ os₂') := by
  induction h₁ with
  | none => exact h₂
  | more ho _ ih =>
      rw [List.append_assoc]
      exact .more ho ih

/-- A stage with a settled function makes one thing of an outcome. -/
theorem Becomes.unique {stage : Stage (Value κ)} (hstage : Settled call span stage.function) {o : Outcome κ}
    {os os' : List (Outcome κ)} (h : Becomes call span stage o os) (h' : Becomes call span stage o os') :
    os = os' := by
  cases h with
  | passed =>
      cases h'
      rfl
  | mapped h =>
      cases h' with
      | mapped h' => rw [hstage _ _ _ h h']
  | kept h =>
      cases h' with
      | kept _ => rfl
      | dropped h' | failed h' => cases hstage _ _ _ h h'
      | undecided h' hb =>
          cases hstage _ _ _ h h'
          cases hb
  | dropped h =>
      cases h' with
      | dropped _ => rfl
      | kept h' | failed h' => cases hstage _ _ _ h h'
      | undecided h' hb =>
          cases hstage _ _ _ h h'
          cases hb
  | failed h =>
      cases h' with
      | kept h' | dropped h' | undecided h' _ => cases hstage _ _ _ h h'
      | failed h' =>
          cases hstage _ _ _ h h'
          rfl
  | undecided h hb =>
      cases h' with
      | kept h' | dropped h' | failed h' =>
          cases hstage _ _ _ h h'
          try cases hb
      | undecided h' hb' =>
          cases hstage _ _ _ h h'
          cases hb.symm.trans hb'
          rfl

/-- What a stage with a settled function makes of a longer list goes on where that of a shorter one ends. -/
theorem Turns.isPrefix {stage : Stage (Value κ)} (hstage : Settled call span stage.function)
    {os₁ os₁' os₂ os₂' : List (Outcome κ)} (h₁ : Turns call span stage os₁ os₁')
    (h₂ : Turns call span stage os₂ os₂') (h : os₁ <+: os₂) : os₁' <+: os₂' := by
  induction h₁ generalizing os₂ os₂' with
  | none => exact List.nil_prefix ..
  | more ho _ ih =>
      obtain ⟨more, rfl⟩ := h
      cases h₂ with
      | more ho' h₂ =>
          rw [ho.unique hstage ho']
          exact (List.prefix_append_right_inj _).mpr (ih h₂ (List.prefix_append ..))

theorem Makes.append {stages : List (Stage (Value κ))} {os₁ os₁' os₂ os₂' : List (Outcome κ)}
    (h₁ : Makes call span stages os₁ os₁') (h₂ : Makes call span stages os₂ os₂') :
    Makes call span stages (os₁ ++ os₂) (os₁' ++ os₂') := by
  induction h₁ generalizing os₂ with
  | none =>
      cases h₂
      exact .none
  | stage h _ ih =>
      cases h₂ with
      | stage h' h₂ => exact .stage (h.append h') (ih h₂)

theorem Makes.isPrefix {stages : List (Stage (Value κ))}
    (hstages : ∀ stage ∈ stages, Settled call span stage.function) {os₁ os₁' os₂ os₂' : List (Outcome κ)}
    (h₁ : Makes call span stages os₁ os₁') (h₂ : Makes call span stages os₂ os₂') (h : os₁ <+: os₂) :
    os₁' <+: os₂' := by
  induction h₁ generalizing os₂ with
  | none =>
      cases h₂
      exact h
  | stage hturns _ ih =>
      cases h₂ with
      | stage hturns' h₂ =>
          rw [List.forall_mem_cons] at hstages
          exact ih hstages.2 h₂ (hturns.isPrefix hstages.1 hturns' h)

/-- Nothing and errors pass through all stages. -/
theorem Makes.passed {os : List (Outcome κ)} (hos : os = [] ∨ ∃ e, os = [.error e])
    (stages : List (Stage (Value κ))) : Makes call span stages os os := by
  induction stages with
  | nil => exact .none
  | cons stage stages ih =>
      refine .stage ?_ ih
      rcases hos with rfl | ⟨e, rfl⟩
      · exact .none
      · exact .more .passed .none

/-! ## The front of a sequence -/

theorem Begins.nothing (s : Sequence (Value κ)) : Begins call span s [] s :=
  ⟨rfl, [], .none, .passed (.inl rfl) _⟩

theorem Begins.trans {s mid rest : Sequence (Value κ)} {os os' : List (Outcome κ)}
    (h : Begins call span s os mid) (h' : Begins call span mid os' rest) :
    Begins call span s (os ++ os') rest := by
  obtain ⟨hstages, items, hitems, hmakes⟩ := h
  obtain ⟨hstages', items', hitems', hmakes'⟩ := h'
  rw [hstages] at hmakes'
  refine ⟨hstages'.trans hstages, items ++ items', hitems.trans hitems', ?_⟩
  rw [List.map_append]
  exact hmakes.append hmakes'

section

variable {s rest rest' : Sequence (Value κ)} {os os' : List (Outcome κ)}
  (hs : ∀ stage ∈ s.stages, Settled call span stage.function)

include hs

/-- As long as all functions are settled, of two lists of outcomes of a sequence one goes on where the other
ends. -/
theorem Begins.comparable (h : Begins call span s os rest) (h' : Begins call span s os' rest') :
    os <+: os' ∨ os' <+: os := by
  obtain ⟨-, items, hitems, hmakes⟩ := h
  obtain ⟨-, items', hitems', hmakes'⟩ := h'
  refine (hitems.comparable hitems').imp (fun h => ?_) (fun h => ?_)
  · exact hmakes.isPrefix hs hmakes' (h.map _)
  · exact hmakes'.isPrefix hs hmakes (h.map _)

theorem Begins.isPrefix_of_has (h : Begins call span s os rest) (hall : Has call span s os') : os <+: os' := by
  obtain ⟨-, items, hitems, hmakes⟩ := h
  obtain ⟨rest', ⟨-, items', hitems', hmakes'⟩, hspent⟩ := hall
  exact hmakes.isPrefix hs hmakes' ((hitems.isPrefix_of_spent hitems' hspent).map _)

end

/-! ## Steps -/

/-- The outcomes that come of one item. -/
def outcomesOf : Except RuntimeError (Option (Value κ)) → List (Outcome κ)
  | .ok none => []
  | .ok (some a) => [.ok a]
  | .error e => [.error e]

theorem makes_through {stages : List (Stage (Value κ))} {item : Value κ} {now later : Nat}
    {found : Except RuntimeError (Option (Value κ))}
    (h : (through call span stages item).outcome now = some (found, later)) :
    Makes call span stages [.ok item] (outcomesOf found) := by
  induction stages generalizing item now with
  | nil =>
      rw [through, Eval.outcome_pure] at h
      cases h
      exact .none
  | cons stage stages ih =>
      cases stage with
      | map f =>
          rw [through, Eval.outcome_bind] at h
          split at h
          · cases h
          · exact .stage (.more (.mapped ⟨_, _, ‹_›⟩) .none) (ih h)
          · cases h
            exact .stage (.more (.mapped ⟨_, _, ‹_›⟩) .none) (.passed (.inr ⟨_, rfl⟩) _)
      | filter f =>
          rw [through, Eval.outcome_bind] at h
          split at h
          · cases h
          · rename_i answer _ hcall
            rw [Eval.outcome_bind] at h
            cases hanswer : answer.asBoolean with
            | error fault =>
                rw [hanswer, Eval.outcome_blame_error] at h
                cases h
                exact .stage (.more (.undecided ⟨_, _, hcall⟩ hanswer) .none) (.passed (.inr ⟨_, rfl⟩) _)
            | ok b =>
                rw [hanswer, Eval.outcome_blame_ok] at h
                have hb : answer = .boolean b := by
                  cases answer <;> cases hanswer
                  rfl
                subst hb
                cases b with
                | true => exact .stage (.more (.kept ⟨_, _, hcall⟩) .none) (ih h)
                | false =>
                    cases h
                    exact .stage (.more (.dropped ⟨_, _, hcall⟩) .none) (.passed (.inl rfl) _)
          · cases h
            exact .stage (.more (.failed ⟨_, _, ‹_›⟩) .none) (.passed (.inr ⟨_, rfl⟩) _)

/-- The answer of one step is at the front of the sequence; if it is that there is no more, then no items are
left. -/
theorem next_begins {steps : Nat} {s : Sequence (Value κ)} {now later : Nat}
    {found : Except RuntimeError (Except RuntimeError (Option (Value κ)) × Sequence (Value κ))}
    (h : (next call span steps s).outcome now = some (found, later)) :
    ∃ answer rest, found = .ok (answer, rest) ∧ Begins call span s (outcomesOf answer) rest ∧
      (answer = .ok none → rest.source.Spent) := by
  induction steps generalizing s now with
  | zero => cases h
  | succ steps ih =>
      rw [next] at h
      split at h
      · rename_i hnone
        cases h
        exact ⟨_, _, rfl, .nothing s, fun _ => Source.next?_eq_none_iff.mp hnone⟩
      · rename_i item source hitem
        rw [Eval.outcome_bind, Eval.outcome_observe] at h
        cases hrun : (through call span s.stages item).outcome now with
        | none =>
            rw [hrun] at h
            cases h
        | some result =>
            obtain ⟨answer, between⟩ := result
            rw [hrun] at h
            have hfirst : Begins call span s (outcomesOf answer) { s with source } :=
              ⟨rfl, [item], Source.lists_of_next? hitem, makes_through hrun⟩
            rcases answer with e | _ | a
            · cases h
              exact ⟨_, _, rfl, hfirst, nofun⟩
            · obtain ⟨answer, rest, rfl, hrest, hspent⟩ := ih h
              exact ⟨answer, rest, rfl, hfirst.trans hrest, hspent⟩
            · cases h
              exact ⟨_, _, rfl, hfirst, nofun⟩

/-! ## Walks -/

variable (call span) in
/-- The answers of successive steps through a sequence, each taken at any time, and what is left after them. -/
inductive Pulls : Sequence (Value κ) → List (Except RuntimeError (Option (Value κ))) → Sequence (Value κ) → Prop
  | none {s : Sequence (Value κ)} : Pulls s [] s
  | next {s mid rest : Sequence (Value κ)} {answer : Except RuntimeError (Option (Value κ))}
      {answers : List (Except RuntimeError (Option (Value κ)))} (steps now : Nat) {later : Nat}
      (h : (Sequence.next call span steps s).outcome now = some (.ok (answer, mid), later))
      (hrest : Pulls mid answers rest) : Pulls s (answer :: answers) rest

/-- Without items all answers are that there are no more. -/
theorem Pulls.spent {s rest : Sequence (Value κ)} {answers : List (Except RuntimeError (Option (Value κ)))}
    (h : Pulls call span s answers rest) (hs : s.source.Spent) :
    rest = s ∧ answers = List.replicate answers.length (.ok .none) := by
  induction h with
  | none => exact ⟨rfl, rfl⟩
  | @next s mid _ _ _ steps _ _ h _ ih =>
      cases steps with
      | zero => cases h
      | succ steps =>
          rw [Sequence.next, Source.next?_eq_none_iff.mpr hs, Eval.outcome_pure] at h
          cases h
          obtain ⟨rfl, hanswers⟩ := ih hs
          exact ⟨rfl, congrArg (_ :: ·) hanswers⟩

/-- The answers are the outcomes of the sequence in their order, and after the last of them that there are no
more. -/
theorem Pulls.begins {s rest : Sequence (Value κ)} {answers : List (Except RuntimeError (Option (Value κ)))}
    (h : Pulls call span s answers rest) :
    ∃ os n, Begins call span s os rest ∧
      answers = os.map (Except.map some) ++ List.replicate n (.ok .none) ∧ (0 < n → rest.source.Spent) := by
  induction h with
  | none => exact ⟨[], 0, .nothing _, rfl, nofun⟩
  | @next s mid rest answer answers _ _ _ h hrest ih =>
      obtain ⟨_, _, heq, hfirst, hspent⟩ := next_begins h
      cases heq
      match answer with
      | .ok .none =>
          obtain ⟨rfl, hanswers⟩ := hrest.spent (hspent rfl)
          exact ⟨[], answers.length + 1, hfirst, congrArg (_ :: ·) hanswers, fun _ => hspent rfl⟩
      | .ok (some a) =>
          obtain ⟨os, n, hos, rfl, hlast⟩ := ih
          exact ⟨.ok a :: os, n, hfirst.trans hos, rfl, hlast⟩
      | .error e =>
          obtain ⟨os, n, hos, rfl, hlast⟩ := ih
          exact ⟨.error e :: os, n, hfirst.trans hos, rfl, hlast⟩

variable (call span) in
/-- What the first `count` items of a sequence come to: the first error, if it comes before that many values,
otherwise that many values, or all values if there are fewer. -/
inductive Gives (s : Sequence (Value κ)) (count : Nat) : Except RuntimeError (List (Value κ)) → Prop
  | failed {as : List (Value κ)} {e : RuntimeError} {rest : Sequence (Value κ)} (hcount : as.length < count)
      (h : Begins call span s (as.map .ok ++ [.error e]) rest) : Gives s count (.error e)
  | enough {as : List (Value κ)} {rest : Sequence (Value κ)} (hcount : as.length = count)
      (h : Begins call span s (as.map .ok) rest) : Gives s count (.ok as)
  | all {as : List (Value κ)} (hcount : as.length < count) (h : Has call span s (as.map .ok)) :
      Gives s count (.ok as)

/-- Of the items taken the first are known. -/
theorem takeFrom_gives {steps count : Nat} {s mid : Sequence (Value κ)} {taken : List (Value κ)} {now later : Nat}
    {found : Except RuntimeError (List (Value κ))}
    (h : (takeFrom call span steps count mid taken).outcome now = some (found, later))
    (hmid : Begins call span s (taken.reverse.map .ok) mid) :
    Gives call span s (taken.length + count) found := by
  induction count generalizing mid taken now with
  | zero =>
      rw [takeFrom, Eval.outcome_pure] at h
      cases h
      exact .enough (by simp) hmid
  | succ count ih =>
      rw [takeFrom, Eval.outcome_bind] at h
      split at h
      · cases h
      · rename_i hnext
        obtain ⟨answer, rest, heq, hfirst, hspent⟩ := next_begins hnext
        cases heq
        have hrest := hmid.trans hfirst
        match answer with
        | .ok (some a) =>
            have := ih h (by simpa [outcomesOf] using hrest)
            simpa [Nat.add_assoc, Nat.add_comm 1] using this
        | .ok .none =>
            cases h
            exact .all (by simp) ⟨rest, by simpa [outcomesOf] using hrest, hspent rfl⟩
        | .error e =>
            cases h
            exact .failed (by simp : taken.reverse.length < taken.length + (count + 1)) hrest
      · rename_i hnext
        obtain ⟨_, _, heq, -⟩ := next_begins hnext
        cases heq

/-- A count that is a whole number, and not negative, is how many items are taken. -/
theorem outcome_take (steps identity : Nat) (s : Sequence (Value κ)) {count : Value κ} {n : Nat}
    (hcount : Builtin.wholeArgument .take count = .ok (Int.ofNat n)) (now : Nat) :
    (Builtin.call call steps .take [.sequence identity s, count] span).outcome now =
      ((take call span steps n s).outcome now).map fun found => (found.1.map .list, found.2) := by
  have hsequence : (Value.sequence identity s).asSequence = .ok s := rfl
  have hn : ¬Int.ofNat n < 0 := by simp
  have htoNat : (Int.ofNat n).toNat = n := rfl
  simp only [Builtin.call, hcount, hsequence, Eval.outcome_bind, Eval.outcome_blame_ok, hn, if_false,
    Eval.outcome_pure, htoNat]
  rcases (take call span steps n s).outcome now with _ | ⟨_ | _, _⟩ <;> rfl

end

/-- The answers of successive steps through a sequence are its outcomes in their order, and then that there
are no more, once there are none. To take a number of items gives the first error, if it comes before that
many values, otherwise that many values, or all values if there are fewer. As long as all functions that the
sequence goes through are settled, its outcomes are known: of two lists of them one goes on where the other
ends, and one that has all of them goes on from every other. -/
theorem steps_follow_outcomes (call : Value κ → List (Value κ) → Span → Eval (Value κ)) (span : Span)
    (s : Sequence (Value κ)) :
    (∀ answers rest, Pulls call span s answers rest →
      ∃ os n, Begins call span s os rest ∧
        answers = os.map (Except.map some) ++ List.replicate n (.ok none) ∧ (0 < n → Has call span s os)) ∧
    (∀ steps identity count n now found later, Builtin.wholeArgument .take count = .ok (Int.ofNat n) →
      (Builtin.call call steps .take [.sequence identity s, count] span).outcome now = some (found, later) →
      ∃ items, found = items.map .list ∧ Gives call span s n items) ∧
    ((∀ stage ∈ s.stages, Settled call span stage.function) →
      ∀ os rest, Begins call span s os rest →
        (∀ os' rest', Begins call span s os' rest' → os <+: os' ∨ os' <+: os) ∧
          ∀ os', Has call span s os' → os <+: os') := by
  refine ⟨fun answers rest h => ?_, fun steps identity count n now found later hcount h => ?_,
    fun hs os rest h => ⟨fun os' rest' h' => h.comparable hs h', fun os' h' => h.isPrefix_of_has hs h'⟩⟩
  · obtain ⟨os, n, hos, hanswers, hlast⟩ := h.begins
    exact ⟨os, n, hos, hanswers, fun hn => ⟨rest, hos, hlast hn⟩⟩
  · rw [outcome_take steps identity s hcount, Option.map_eq_some_iff] at h
    obtain ⟨⟨items, later⟩, htake, h⟩ := h
    cases h
    exact ⟨items, rfl, by simpa using takeFrom_gives htake (.nothing s)⟩

/-- A program of one node, the name `x`. -/
def echoProgram : Program := ⟨#[⟨.reference "x" none, .none⟩], #[], ⟨[], 0⟩⟩

/-- The function that gives back its argument. -/
def echo : Value := .function (.closure 0 ⟨none, .fixed ["x"], ⟨[], 0⟩, []⟩)

theorem settled_echo (span : Span) : Settled (echoProgram.call 2) span echo := by
  rintro a o o' ⟨_, _, h⟩ ⟨_, _, h'⟩
  cases h
  cases h'
  rfl

/-- The items of a list of which the function says that they hold: `null` does not say either. -/
def echoed : Sequence Value :=
  ⟨.items [.boolean true, .boolean false, .null, .boolean true], [.filter echo]⟩

theorem steps_follow_outcomes_echoed :
    (∃ os n, Begins (echoProgram.call 2) .none echoed os ⟨.items [], [.filter echo]⟩ ∧
      [.ok (some (.boolean true)), .error ⟨.wrongKind .boolean .null, .none⟩, .ok (some (.boolean true)),
        .ok none] = os.map (Except.map some) ++ List.replicate n (.ok none) ∧
      (0 < n → Has (echoProgram.call 2) .none echoed os)) ∧
    (∃ items, .error ⟨.wrongKind .boolean .null, .none⟩ = items.map Value.list ∧
      Gives (echoProgram.call 2) .none echoed 2 items) ∧
    ∀ os, Has (echoProgram.call 2) .none echoed os → [.ok (.boolean true)] <+: os := by
  obtain ⟨hsteps, htake, hknown⟩ := steps_follow_outcomes (echoProgram.call 2) .none echoed
  have hpulls : Pulls (echoProgram.call 2) .none echoed
      [.ok (some (.boolean true)), .error ⟨.wrongKind .boolean .null, .none⟩, .ok (some (.boolean true)), .ok none]
      ⟨.items [], [.filter echo]⟩ :=
    .next 3 0 rfl (.next 3 0 rfl (.next 3 0 rfl (.next 3 0 rfl .none)))
  have hsettled : ∀ stage ∈ echoed.stages, Settled (echoProgram.call 2) .none stage.function := by
    intro stage hstage
    cases List.mem_singleton.mp hstage
    exact settled_echo .none
  refine ⟨hsteps _ _ hpulls, htake 4 0 (.number 2) 2 0 _ _ rfl rfl, ?_⟩
  exact (hknown hsettled _ ⟨.items [.boolean false, .null, .boolean true], [.filter echo]⟩
    ⟨rfl, [.boolean true], .item .none, .stage (.more (.kept ⟨0, 1, rfl⟩) .none) .none⟩).2

end Sable.Sequence
