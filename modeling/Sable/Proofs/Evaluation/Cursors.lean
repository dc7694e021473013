import Sable.Proofs.Evaluation.Outcomes

/-! What cursors find in sequences.

A cursor asks a sequence for one item after the other, each time with any steps, at any place and at any time.
What it finds in a sequence with one more stage is made of what a cursor finds in the sequence without it. -/
namespace Sable.Sequence

variable {p : Program} {s t rest : Sequence Value} {answer : Except RuntimeError (Option Value)}

/-- A cursor that has come to `s` finds the answer, and then it has come to `rest`. -/
def Draws (p : Program) (s : Sequence Value) (answer : Except RuntimeError (Option Value))
    (rest : Sequence Value) : Prop :=
  ∃ steps count span now later, (next (p.call steps) span count s).outcome now = some (.ok (answer, rest), later)

/-- Where a cursor of the sequence may have come to. -/
inductive Leaves (p : Program) (s : Sequence Value) : Sequence Value → Prop
  | all : Leaves p s s
  | after {t rest : Sequence Value} {answer : Except RuntimeError (Option Value)} (h : Leaves p s t)
      (hdraw : Draws p t answer rest) : Leaves p s rest

/-- A cursor of the sequence finds the answer, sooner or later. -/
def Finds (p : Program) (s : Sequence Value) (answer : Except RuntimeError (Option Value)) : Prop :=
  ∃ t rest, Leaves p s t ∧ Draws p t answer rest

theorem Leaves.trans (h : Leaves p s t) (h' : Leaves p t rest) : Leaves p s rest := by
  induction h' with
  | all => exact h
  | after _ hdraw ih => exact ih.after hdraw

theorem Finds.of_leaves (h : Leaves p s t) (h' : Finds p t answer) : Finds p s answer := by
  obtain ⟨u, rest, hu, hdraw⟩ := h'
  exact ⟨u, rest, h.trans hu, hdraw⟩

/-! ## Sequences without stages -/

/-- What cursors find that only count through a source has the property of its items. -/
theorem Finds.of_source {I : Source Value → Prop} {P : Value → Prop}
    (hI : ∀ {source rest : Source Value} {item : Value}, I source → source.next? = some (item, rest) →
      I rest ∧ P item) {source : Source Value} (hsource : I source) (h : Finds p ⟨source, []⟩ answer) :
    answer = .ok none ∨ ∃ item, answer = .ok (some item) ∧ P item := by
  have hdraws : ∀ {source : Source Value} {answer rest}, I source → Draws p ⟨source, []⟩ answer rest →
      (answer = .ok none ∨ ∃ item, answer = .ok (some item) ∧ P item) ∧ ∃ left, rest = ⟨left, []⟩ ∧ I left := by
    rintro source answer rest hsource ⟨steps, count, span, now, later, h⟩
    cases count with
    | zero => cases h
    | succ count =>
        rw [next] at h
        split at h
        · cases h
          exact ⟨.inl rfl, source, rfl, hsource⟩
        · rename_i item left hnext
          cases h
          obtain ⟨hleft, hitem⟩ := hI hsource hnext
          exact ⟨.inr ⟨item, rfl, hitem⟩, left, rfl, hleft⟩
  have hleaves : ∀ {t}, Leaves p ⟨source, []⟩ t → ∃ left, t = ⟨left, []⟩ ∧ I left := by
    intro t ht
    induction ht with
    | all => exact ⟨source, rfl, hsource⟩
    | after _ hdraw ih =>
        obtain ⟨left, rfl, hleft⟩ := ih
        exact (hdraws hleft hdraw).2
  obtain ⟨t, rest, ht, hdraw⟩ := h
  obtain ⟨left, rfl, hleft⟩ := hleaves ht
  exact (hdraws hleft hdraw).1

/-! ## One more stage -/

section

variable {call : Value → List Value → Span → Eval Value} {span : Span}

/-- What comes out of the stages goes into the last one. -/
theorem outcome_through_append (stages : List (Stage Value)) (stage : Stage Value) (item : Value) (now : Nat) :
    (through call span (stages ++ [stage]) item).outcome now =
      match (through call span stages item).outcome now with
      | some (.ok (some out), mid) => (through call span [stage] out).outcome mid
      | other => other := by
  induction stages generalizing item now with
  | nil => rfl
  | cons first stages ih =>
      cases first with
      | map f =>
          simp only [List.cons_append, through, Eval.outcome_bind]
          split
          · rfl
          · exact ih _ _
          · rfl
      | filter f =>
          simp only [List.cons_append, through, Eval.outcome_bind]
          split
          · rfl
          · rename_i answer mid _
            cases answer.asBoolean with
            | error fault => rfl
            | ok b =>
                cases b with
                | true => exact ih item mid
                | false => rfl
          · rfl

/-- A sequence with items left goes on with the first of them, and with the next ones as long as they are dropped. -/
theorem outcome_next_succ {source : Source Value} {item : Value} (h : s.source.next? = some (item, source))
    (count now : Nat) : (next call span (count + 1) s).outcome now =
      match (through call span s.stages item).outcome now with
      | none => none
      | some (.ok none, mid) => (next call span count ⟨source, s.stages⟩).outcome mid
      | some (answer, mid) => some (.ok (answer, ⟨source, s.stages⟩), mid) := by
  rw [next, h]
  simp only [Eval.outcome_bind, Eval.outcome_observe]
  rcases (through call span s.stages item).outcome now with _ | ⟨_ | _ | _, _⟩ <;> rfl

/-- To ask a sequence with one more stage is to ask the sequence without it, and to ask again as long as the stage
drops the item. -/
theorem exists_next_of_push {stage : Stage Value} {count now later : Nat}
    {found : Except RuntimeError (Except RuntimeError (Option Value) × Sequence Value)}
    (h : (next call span count (s.push stage)).outcome now = some (found, later)) :
    ∃ answer t mid, (next call span count s).outcome now = some (.ok (answer, t), mid) ∧
      match answer with
      | .ok (some item) => ∃ made mid', (through call span [stage] item).outcome mid = some (made, mid') ∧
          (found = .ok (made, t.push stage) ∨ ∃ less < count,
            (next call span less (t.push stage)).outcome mid' = some (found, later))
      | other => found = .ok (other, t.push stage) := by
  induction count generalizing s now with
  | zero => cases h
  | succ count ih =>
      cases hnext : s.source.next? with
      | none =>
          have hnext' : (s.push stage).source.next? = none := hnext
          rw [next, hnext'] at h
          cases h
          exact ⟨.ok none, s, _, by rw [next, hnext]; rfl, rfl⟩
      | some first =>
          obtain ⟨item, source⟩ := first
          have hnext' : (s.push stage).source.next? = some (item, source) := hnext
          have hstages : (s.push stage).stages = s.stages ++ [stage] := rfl
          rw [outcome_next_succ hnext', hstages, outcome_through_append] at h
          rw [outcome_next_succ hnext]
          rcases hthrough : (through call span s.stages item).outcome now with _ | ⟨e | _ | out, mid⟩
          · rw [hthrough] at h
            cases h
          · rw [hthrough] at h
            cases h
            exact ⟨_, _, _, rfl, rfl⟩
          · rw [hthrough] at h
            obtain ⟨answer, t, mid', hfirst, hrest⟩ := ih (s := ⟨source, s.stages⟩) h
            refine ⟨answer, t, mid', hfirst, ?_⟩
            rcases answer with e | _ | item'
            · exact hrest
            · exact hrest
            · obtain ⟨made, mid'', hmade, hfound | ⟨less, hless, hagain⟩⟩ := hrest
              · exact ⟨made, mid'', hmade, .inl hfound⟩
              · exact ⟨made, mid'', hmade, .inr ⟨less, Nat.lt_succ_of_lt hless, hagain⟩⟩
          · rw [hthrough] at h
            refine ⟨.ok (some out), ⟨source, s.stages⟩, mid, rfl, ?_⟩
            dsimp only at h ⊢
            rcases hlast : (through call span [stage] out).outcome mid with _ | ⟨made, mid'⟩
            · rw [hlast] at h
              cases h
            · rw [hlast] at h
              refine ⟨made, mid', rfl, ?_⟩
              rcases made with e | _ | out'
              · cases h
                exact .inl rfl
              · exact .inr ⟨count, Nat.lt_succ_self count, h⟩
              · cases h
                exact .inl rfl

end

/-- What a cursor finds in a sequence with one more stage, by what a cursor finds in the sequence without it. -/
inductive Comes (p : Program) (s : Sequence Value) (stage : Stage Value) : Except RuntimeError (Option Value) → Prop
  | done : Comes p s stage (.ok none)
  | failed {e : RuntimeError} (h : Finds p s (.error e)) : Comes p s stage (.error e)
  | made {item : Value} {answer : Except RuntimeError (Option Value)} {steps now later : Nat} {span : Span}
      (h : Finds p s (.ok (some item)))
      (hmade : (through (p.call steps) span [stage] item).outcome now = some (answer, later)) : Comes p s stage answer

theorem Comes.of_leaves {stage : Stage Value} (h : Leaves p s t) (h' : Comes p t stage answer) :
    Comes p s stage answer := by
  cases h' with
  | done => exact .done
  | failed hfinds => exact .failed (.of_leaves h hfinds)
  | made hfinds hmade => exact .made (.of_leaves h hfinds) hmade

theorem Draws.of_push {stage : Stage Value} (h : Draws p (s.push stage) answer rest) :
    (∃ t, rest = t.push stage ∧ Leaves p s t) ∧ Comes p s stage answer := by
  obtain ⟨steps, count, span, now, later, h⟩ := h
  induction count using Nat.strongRecOn generalizing s now with
  | ind count ih =>
      obtain ⟨first, t, mid, hfirst, hrest⟩ := exists_next_of_push h
      have hdraw : Draws p s first t := ⟨steps, count, span, now, mid, hfirst⟩
      have hleaves : Leaves p s t := Leaves.all.after hdraw
      rcases first with e | _ | item
      · cases hrest
        exact ⟨⟨t, rfl, hleaves⟩, .failed ⟨s, t, .all, hdraw⟩⟩
      · cases hrest
        exact ⟨⟨t, rfl, hleaves⟩, .done⟩
      · obtain ⟨made, mid', hmade, hfound | ⟨less, hless, hagain⟩⟩ := hrest
        · cases hfound
          exact ⟨⟨t, rfl, hleaves⟩, .made ⟨s, t, .all, hdraw⟩ hmade⟩
        · obtain ⟨⟨u, hu, hleaves'⟩, hcomes⟩ := ih less hless mid' hagain
          exact ⟨⟨u, hu, hleaves.trans hleaves'⟩, .of_leaves hleaves hcomes⟩

theorem Finds.of_push {stage : Stage Value} (h : Finds p (s.push stage) answer) : Comes p s stage answer := by
  have hleaves : ∀ {u}, Leaves p (s.push stage) u → ∃ t, u = t.push stage ∧ Leaves p s t := by
    intro u hu
    induction hu with
    | all => exact ⟨s, rfl, .all⟩
    | after _ hdraw ih =>
        obtain ⟨t, rfl, ht⟩ := ih
        obtain ⟨⟨v, hv, htv⟩, -⟩ := hdraw.of_push
        exact ⟨v, hv, ht.trans htv⟩
  obtain ⟨u, rest, hu, hdraw⟩ := h
  obtain ⟨t, rfl, ht⟩ := hleaves hu
  exact .of_leaves ht hdraw.of_push.2

end Sable.Sequence
