import Sable.Proofs.Reader.InStepExpressions
import Sable.Proofs.Reader.Recovery

/-! The rounds in which a body is read.

A round reads a declaration, skips tokens behind an error, or ends the body, and one that does not end the body with an error
takes a token: where nothing is skipped behind a declaration that cannot be read, its keyword has been taken. So there is at
most one round more than there are tokens. -/
namespace Sable.Reader

open Grammar

variable {α β : Type} {s t u : State} {r : Reader α} {limit : Nat}

/-! ## Skipping -/

theorem skipFrom_suffix (depth : Nat) (previous : Span) (rest : List (Spanned Token)) :
    (skipFrom depth previous rest).2 <:+ rest := by
  fun_induction skipFrom depth previous rest <;>
    first | exact List.suffix_rfl | exact List.IsSuffix.trans ‹_› (List.suffix_cons _ _)

theorem recover_forward : Forward recover := fun s => skipFrom_suffix 0 s.previous s.rest

/-- Skipping stops at a part of a body, at a closing brace, or at the end. -/
theorem head?_recover (s : State) :
    ∀ t ∈ (recover s).2.tokens.head?, t = .mark .rightBrace ∨ t.beginsPart = true := by
  have hskip (depth : Nat) (previous : Span) (rest : List (Spanned Token)) :
      ∀ t ∈ (skipFrom depth previous rest).2.head?, t.value = .mark .rightBrace ∨ t.value.beginsPart = true := by
    fun_induction skipFrom depth previous rest <;> simp_all [Token.beginsPart]
  intro t ht
  rw [State.tokens, List.head?_map] at ht
  obtain ⟨first, hfirst, rfl⟩ := Option.map_eq_some_iff.mp ht
  exact hskip 0 s.previous s.rest first hfirst

/-! ## Declarations -/

theorem inStep_valueDeclaration (start : Span) (s : State) :
    InStepAt 1 s (valueDeclaration start) (valueDeclaration start) :=
  (inStep_ident s).bind fun _ t _ => (inStep_annotation? t).bind fun _ u _ =>
    (inStep_mark .assign u).bind fun _ v _ => (inStep_expr v (Nat.le_refl _)).bind fun _ _ _ =>
      inStepAt_spanFrom fun _ => inStepAt_pure

theorem inStep_alternative (s : State) : InStepAt 1 s alternative alternative :=
  (inStep_ident s).bind fun _ t _ => (inStep_mark .colon t).bind fun _ u _ =>
    (inStep_type u (Nat.le_refl _)).bind fun _ _ _ => inStepAt_spanFrom fun _ => inStepAt_pure

theorem inStep_aliasDeclaration (start : Span) (s : State) :
    InStepAt 1 s (aliasDeclaration start) (aliasDeclaration start) :=
  (inStep_ident s).bind fun _ t _ => (inStep_generics t).bind fun _ u _ =>
    (inStep_mark .assign u).bind fun _ v _ => (inStep_type v (Nat.le_refl _)).bind fun _ _ _ =>
      inStepAt_spanFrom fun _ => inStepAt_pure

theorem inStep_unionDeclaration (start : Span) (s : State) :
    InStepAt 1 s (unionDeclaration start) (unionDeclaration start) :=
  (inStep_ident s).bind fun _ t _ => (inStep_generics t).bind fun _ u _ =>
    (inStep_mark .assign u).bind fun _ v _ =>
      have halternatives := inStep_separated (fun s _ => (inStep_alternative s).mono (Nat.zero_le _)) .pipe v (Nat.le_refl _)
      halternatives.bind fun _ _ _ => inStepAt_spanFrom fun _ => inStepAt_pure

theorem inStep_externalDeclaration (start : Span) (s : State) :
    InStepAt 1 s (externalDeclaration start) (externalDeclaration start) :=
  (inStep_keyword .defWord s).bind fun _ t _ => (inStep_ident t).bind fun _ u _ =>
    (inStep_generics u).bind fun _ v _ => (inStep_parameters v).bind fun _ w _ =>
      (inStep_mark .colon w).bind fun _ x _ => (inStep_type x (Nat.le_refl _)).bind fun _ _ _ =>
        inStepAt_spanFrom fun _ => inStepAt_pure

/-- The declaration that the keyword `k` begins, behind the keyword. -/
def behindKeyword (nested : Reader Body) (start : Span) (k : Keyword) : Reader Declaration :=
  match k with
  | .valWord => valueDeclaration start
  | .externalWord => externalDeclaration start
  | .typeWord => aliasDeclaration start
  | .unionWord => unionDeclaration start
  | _ => functionDeclarationWith nested start

theorem run_declarationWith (nested : Reader Body) (k : Keyword) (s : State) :
    declarationWith nested k s = behindKeyword nested s.here k s.advance := by cases k <;> rfl

section

variable {nested nested' : Reader Body} (hnested : InStep limit 0 nested nested')
include hnested

theorem inStep_functionBodyWith : InStep (limit + 1) 1 (functionBodyWith nested) (functionBodyWith nested') := by
  intro s hs
  apply inStepAt_peek
  split
  · refine inStepAt_advance ‹_› fun t ht => ((inStep_expr t (Nat.le_refl _)).mono (Nat.zero_le _)).bind fun e u _ => ?_
    exact inStepAt_pure
  · refine inStepAt_advance ‹_› fun t ht => (hnested t (by omega)).bind fun b u _ => ?_
    exact ((inStep_mark .rightBrace u).mono (Nat.zero_le _)).bind fun _ v _ => inStepAt_pure
  · exact inStepAt_expected

theorem inStep_functionDeclarationWith (start : Span) :
    InStep (limit + 1) 1 (functionDeclarationWith nested start) (functionDeclarationWith nested' start) := fun s hs =>
  (inStep_ident s).bind fun name t ht => (inStep_generics t).bind fun names u hu =>
    (inStep_parameters u).bind fun ps v hv => (inStep_annotation? v).bind fun result w hw =>
      (inStep_functionBodyWith hnested w (by omega)).bind fun b x _ => inStepAt_spanFrom fun span => inStepAt_pure

theorem inStep_behindKeyword (start : Span) (k : Keyword) :
    InStep (limit + 1) 1 (behindKeyword nested start k) (behindKeyword nested' start k) := by
  intro s hs
  unfold behindKeyword
  split
  · exact inStep_valueDeclaration start s
  · exact inStep_externalDeclaration start s
  · exact inStep_aliasDeclaration start s
  · exact inStep_unionDeclaration start s
  · exact inStep_functionDeclarationWith hnested start s hs

/-- The keyword of a declaration is taken even if the declaration cannot be read. -/
theorem inStepAt_declarationWith {k : Keyword} (hhead : s.tokens.head? = some (.keyword k)) (hs : s.rest.length ≤ limit + 1) :
    InStepAt 1 s (declarationWith nested k) (declarationWith nested' k) ∧
      (declarationWith nested k s).2.rest.length < s.rest.length := by
  have hlength := State.length_advance hhead
  have hbehind := inStep_behindKeyword hnested s.here k s.advance (by omega)
  refine ⟨⟨?_, ?_, ?_⟩, ?_⟩ <;> rw [run_declarationWith]
  · rw [run_declarationWith, hbehind.same]
  · exact hbehind.forward.trans s.rest_advance_suffix
  · intro d hd
    have := hbehind.taken d hd
    omega
  · have := hbehind.forward.length_le
    omega

end

/-! ## Rounds -/

/-- What one round of reading a body comes to. -/
inductive Round where
  /-- A declaration was read. -/
  | read (d : Declaration)
  /-- Something was not read, and tokens may have been skipped behind it. -/
  | skipped
  /-- The body has ended with `return`. -/
  | finished (b : Body)
  /-- The body has ended with an error. -/
  | unfinished (b : Body)

namespace Round

/-- Nothing went wrong. -/
def isClean : Round → Bool
  | read _ | finished _ => true
  | skipped | unfinished _ => false

/-- Reading goes on, or the body has ended with `return`. -/
def takes : Round → Bool
  | unfinished _ => false
  | _ => true

end Round

section

variable (nested : Reader Body) (start : Span)

/-- The next round, after the declarations `before`. -/
def round (before : List Declaration) : Reader Round := do
  match ← peek with
  | none | some (.mark .rightBrace) =>
    let b ← unfinished start before
    pure (.unfinished b)
  | some (.keyword k) =>
    if k.opensDeclaration then
      match ← attempt (declarationWith nested k) with
      | some d => pure (.read d)
      | none =>
        recover
        pure .skipped
    else if k = .returnWord then
      let b ← finished start before
      pure (.finished b)
    else
      passOver
      pure .skipped
  | some _ =>
    passOver
    pure .skipped

/-- The body, when a round has come to this; `again` reads the rounds behind it. -/
def behindRound (again : List Declaration → Reader Body) (before : List Declaration) : Round → Reader Body
  | .read d => again (before ++ [d])
  | .skipped => again before
  | .finished b | .unfinished b => pure b

def bodyTurn (again : List Declaration → Reader Body) (before : List Declaration) : Reader Body := do
  behindRound again before (← round nested start before)

end

variable {start : Span} {before : List Declaration}

instance : LawfulMonad Reader := by
  refine .mk' Reader (fun r => ?_) (fun a next => rfl) fun r next last => ?_
  · funext s
    change (match r s with | (some a, t) => (some a, t) | (none, t) => (none, t)) = r s
    rcases r s with ⟨_ | a, t⟩ <;> rfl
  · funext s
    simp only [run_bind]
    rcases r s with ⟨_ | a, t⟩ <;> rfl

theorem repeats_body (nested : Reader Body) (start : Span) :
    Repeats (bodyTurn nested start) (bodyRestUpTo nested start) where
  succ count before := by
    rw [bodyRestUpTo, bodyTurn, round, bind_assoc]
    congr 1
    funext found
    cases found with
    | none => simp only [bind_assoc, pure_bind, behindRound, bind_pure]
    | some token =>
        cases token with
        | mark p => cases p <;> simp only [bind_assoc, pure_bind, behindRound, bind_pure]
        | keyword k =>
            by_cases hopens : k.opensDeclaration = true
            · simp only [if_pos hopens, bind_assoc]
              congr 1
              funext read
              cases read <;> simp only [bind_assoc, pure_bind, behindRound]
            · by_cases hreturn : k = .returnWord
              · simp only [if_neg hopens, if_pos hreturn, bind_assoc, pure_bind, behindRound, bind_pure]
              · simp only [if_neg hopens, if_neg hreturn, bind_assoc, pure_bind, behindRound]
        | _ => simp only [bind_assoc, pure_bind, behindRound]
  atEnd f before s hs := by
    rw [bodyTurn, round, run_bind, run_bind, run_peek, State.head?_of_nil hs]
    rfl

theorem inStep_recover (s : State) : InStepAt 0 s recover recover :=
  ⟨rfl, recover_forward s, fun _ _ => (recover_forward s).length_le⟩

theorem inStepAt_passOver {token : Token} (hhead : s.tokens.head? = some token) : InStepAt 1 s passOver passOver := by
  have hreport : InStepAt 0 s (report (.expected .declaration)) (report (.expected .declaration)) :=
    ⟨rfl, List.suffix_rfl, fun _ _ => Nat.le_refl _⟩
  refine hreport.bind_of_eq fun _ t ht _ => ?_
  have hhead' : t.tokens.head? = some token := by
    cases ht
    exact hhead
  exact inStepAt_advance hhead' fun u _ => inStep_recover u

theorem inStepAt_unfinished : InStepAt 0 s (unfinished start before) (unfinished start before) :=
  ⟨rfl, List.suffix_rfl, fun _ _ => Nat.le_refl _⟩

theorem inStepAt_finished {token : Token} (hhead : s.tokens.head? = some token) :
    InStepAt 1 s (finished start before) (finished start before) := by
  refine inStepAt_advance hhead fun t _ => (inStep_expr t (Nat.le_refl _)).attempt.bind fun found u _ => ?_
  have hplaceholder : InStepAt 0 u placeholder placeholder := inStepAt_here inStepAt_newExpr
  cases found with
  | some e => exact inStepAt_spanFrom fun span => inStepAt_pure
  | none => exact hplaceholder.bind fun e v _ => inStepAt_spanFrom fun span => inStepAt_pure

/-- From the state `s` a round comes to `x` in the state `t`. -/
inductive RoundAt (nested : Reader Body) (start : Span) (before : List Declaration) (s : State) : Round → State → Prop where
  | read {k : Keyword} {d : Declaration} {t : State} (hhead : s.tokens.head? = some (.keyword k))
      (hk : k.opensDeclaration = true) (h : declarationWith nested k s = (some d, t)) : RoundAt nested start before s (.read d) t
  | lost {k : Keyword} {t : State} (hhead : s.tokens.head? = some (.keyword k)) (hk : k.opensDeclaration = true)
      (h : declarationWith nested k s = (none, t)) : RoundAt nested start before s .skipped (recover t).2
  | passed {token : Token} (hhead : s.tokens.head? = some token) (hpart : token.beginsPart = false)
      (hbrace : token ≠ .mark .rightBrace) : RoundAt nested start before s .skipped (passOver s).2
  | finished {b : Body} {t : State} (hhead : s.tokens.head? = some (.keyword .returnWord))
      (h : finished start before s = (some b, t)) : RoundAt nested start before s (.finished b) t
  | unfinished {b : Body} {t : State} (hend : BodyEnd s.tokens) (h : unfinished start before s = (some b, t)) :
      RoundAt nested start before s (.unfinished b) t

section

variable {nested nested' : Reader Body} {x : Round}

theorem RoundAt.run (h : RoundAt nested start before s x t) : round nested start before s = (some x, t) := by
  rw [round, run_bind, run_peek]
  cases h with
  | read hhead hk h =>
      simp only [hhead, hk, if_true, run_bind, attempt, h]
      rfl
  | lost hhead hk h =>
      simp only [hhead, hk, if_true, run_bind, attempt, h]
      rfl
  | @passed token hhead hpart hbrace =>
      rw [hhead]
      cases token with
      | mark p => cases p <;> first | rfl | exact absurd rfl hbrace
      | keyword k =>
          have hk : k.opensDeclaration = false ∧ k ≠ .returnWord := by simpa [Token.beginsPart] using hpart
          simp only [hk, Bool.false_eq_true, if_false]
          rfl
      | _ => rfl
  | finished hhead h =>
      rw [hhead]
      change (Reader.finished start before >>= fun b => pure (Round.finished b)) s = _
      rw [run_bind, h]
      rfl
  | unfinished hend h =>
      rcases hend with hhead | hhead <;> simp only [hhead, run_bind, h] <;> rfl

theorem exists_run_finished (start : Span) (before : List Declaration) (s : State) :
    ∃ b t, finished start before s = (some b, t) := by
  simp only [finished, run_bind, advance, attempt]
  rcases expr s.advance with ⟨_ | e, t⟩ <;> exact ⟨_, _, rfl⟩

theorem exists_roundAt (nested : Reader Body) (start : Span) (before : List Declaration) (s : State) :
    ∃ x t, RoundAt nested start before s x t := by
  cases hhead : s.tokens.head? with
  | none => exact ⟨_, _, .unfinished (.inl hhead) rfl⟩
  | some token =>
      by_cases hbrace : token = .mark .rightBrace
      · exact ⟨_, _, .unfinished (.inr (hhead.trans (congrArg some hbrace))) rfl⟩
      by_cases hpart : token.beginsPart = false
      · exact ⟨_, _, .passed hhead hpart hbrace⟩
      cases token with
      | keyword k =>
          by_cases hk : k.opensDeclaration = true
          · rcases hrun : declarationWith nested k s with ⟨_ | d, t⟩
            · exact ⟨_, _, .lost hhead hk hrun⟩
            · exact ⟨_, _, .read hhead hk hrun⟩
          · have hreturn : k = .returnWord := by simpa [Token.beginsPart, hk] using hpart
            obtain ⟨b, t, hrun⟩ := exists_run_finished start before s
            exact ⟨_, _, .finished (hhead.trans (by rw [hreturn])) hrun⟩
      | _ => exact absurd rfl hpart

theorem roundAt_iff : RoundAt nested start before s x t ↔ round nested start before s = (some x, t) := by
  refine ⟨RoundAt.run, fun h => ?_⟩
  obtain ⟨y, u, hround⟩ := exists_roundAt nested start before s
  cases hround.run.symm.trans h
  exact hround

/-- A round takes tokens from the front, and one at least if it does not end the body with an error. -/
theorem RoundAt.takes (h : RoundAt nested start before s x t) (hnested : InStep limit 0 nested nested')
    (hs : s.rest.length ≤ limit + 1) : RoundAt nested' start before s x t ∧ t.rest <:+ s.rest ∧
      (x.takes = true → t.rest.length < s.rest.length) := by
  cases h with
  | read hhead hk h =>
      obtain ⟨hdeclaration, -⟩ := inStepAt_declarationWith hnested hhead hs
      obtain ⟨hsame, hforward, htaken⟩ := hdeclaration
      rw [h] at hsame hforward htaken
      exact ⟨.read hhead hk hsame, hforward, fun _ => htaken _ rfl⟩
  | @lost k u hhead hk h =>
      obtain ⟨hdeclaration, hlength⟩ := inStepAt_declarationWith hnested hhead hs
      obtain ⟨hsame, hforward, -⟩ := hdeclaration
      rw [h] at hsame hforward hlength
      have hrecover := recover_forward u
      exact ⟨.lost hhead hk hsame, hrecover.trans hforward, fun _ => Nat.lt_of_le_of_lt hrecover.length_le hlength⟩
  | passed hhead hpart hbrace =>
      have hpass := inStepAt_passOver hhead
      exact ⟨.passed hhead hpart hbrace, hpass.forward, fun _ => hpass.taken () rfl⟩
  | finished hhead h =>
      have hfinished : InStepAt 1 s (Reader.finished start before) (Reader.finished start before) := inStepAt_finished hhead
      obtain ⟨-, hforward, htaken⟩ := hfinished
      rw [h] at hforward htaken
      exact ⟨.finished hhead h, hforward, fun _ => htaken _ rfl⟩
  | unfinished hend h =>
      have hrest : (Reader.unfinished start before s).2.rest = s.rest := rfl
      rw [h] at hrest
      exact ⟨.unfinished hend h, hrest ▸ List.suffix_rfl, nofun⟩

theorem size_errors_of_push {e : ParseError} (h : t.errors = s.errors.push e) : s.errors.size < t.errors.size := by
  rw [h, Array.size_push]
  exact Nat.lt_succ_self _

/-- A round takes no error back, and it puts one down if something goes wrong. -/
theorem RoundAt.errors {inner : Phrase Body} (h : RoundAt nested start before s x t) (hnested : Reads nested inner) :
    s.errors.size ≤ t.errors.size ∧ (x.isClean = false → s.errors.size < t.errors.size) := by
  cases h with
  | read hhead hk h =>
      have hdeclaration := readsAt_declarationWith hnested hhead hk
      have herrors := hdeclaration.errors
      rw [h] at herrors
      exact ⟨herrors, nofun⟩
  | lost hhead hk h =>
      have hdeclaration := readsAt_declarationWith hnested hhead hk
      have hfailed := hdeclaration.failed
      rw [h] at hfailed
      exact ⟨Nat.le_of_lt (hfailed rfl), fun _ => hfailed rfl⟩
  | passed hhead hpart hbrace =>
      have hmore := size_errors_of_push (s := s) (t := (passOver s).2) State.errors_advance
      exact ⟨Nat.le_of_lt hmore, fun _ => hmore⟩
  | finished hhead h =>
      have hfinished : ReadsAt s (Reader.finished start before) (BodyAfter inner before) := readsAt_finished inner hhead
      have herrors := hfinished.errors
      rw [h] at herrors
      exact ⟨herrors, nofun⟩
  | unfinished hend h =>
      have hmore := size_errors_of_push (s := s) (t := (Reader.unfinished start before s).2) rfl
      rw [h] at hmore
      exact ⟨Nat.le_of_lt hmore, fun _ => hmore⟩

end

/-! ## Bodies -/

section

variable {nested nested' : Reader Body} (hnested : InStep limit 0 nested nested')
include hnested

theorem turnsInStep_body (start : Span) :
    TurnsInStep (limit + 1) 0 (bodyTurn nested start) (bodyTurn nested' start) := by
  intro n hn f f' hf before s hs
  obtain ⟨x, t, hround⟩ := exists_roundAt nested start before s
  obtain ⟨hround', hforward, htakes⟩ := hround.takes hnested (by omega)
  have hbehind : InStepAt 0 t (behindRound f before x) (behindRound f' before x) := by
    cases x with
    | read d => exact hf _ t (by have := htakes rfl; omega)
    | skipped => exact hf _ t (by have := htakes rfl; omega)
    | finished b => exact inStepAt_pure
    | unfinished b => exact inStepAt_pure
  have hleft : t.rest.length ≤ s.rest.length := hforward.length_le
  have hstep : InStepAt 0 s (round nested start before) (round nested' start before) := by
    refine ⟨?_, ?_, ?_⟩ <;> rw [hround.run]
    · exact hround'.run
    · exact hforward
    · exact fun _ _ => hleft
  refine hstep.bind_of_eq fun y u hy _ => ?_
  cases hround.run.symm.trans hy
  exact hbehind

theorem inStep_bodyWith : InStep (limit + 1) 0 (bodyWith nested) (bodyWith nested') := fun s hs =>
  inStepAt_here ((repeats_body nested s.here).inStep_bounded (repeats_body nested' s.here) (turnsInStep_body hnested s.here)
    (fun _ _ _ => inStepAt_unfinished) [] s hs)

end

theorem repeats_bodies : Repeats (fun f (_ : Unit) => bodyWith (f ())) fun depth _ => bodyUpTo depth where
  succ _ _ := rfl
  atEnd f _ s hs := by
    simp only [bodyWith, bodyUpTo, run_bind, here, bounded, hs, List.length_nil]
    rfl

theorem turnsInStep_bodies : TurnsInStep limit 0 (fun f (_ : Unit) => bodyWith (f ())) fun f _ => bodyWith (f ()) :=
  fun _ _ _ _ hf _ => inStep_bodyWith (hf ())

theorem inStepAt_bodyUpTo_zero : InStepAt 0 s (bodyUpTo 0) (bodyUpTo 0) := inStepAt_here inStepAt_unfinished

theorem inStep_body : InStep limit 0 body body :=
  repeats_bodies.inStep_bounded repeats_bodies turnsInStep_bodies (fun _ _ _ => inStepAt_bodyUpTo_zero) ()

theorem ends_body (r : Reader Body) : r = bodyWith r ↔ r = body :=
  (repeats_bodies.ends (fun _ => turnsInStep_bodies) fun _ _ _ => inStepAt_bodyUpTo_zero).solution r

theorem ends_bodyRest {nested : Reader Body} (hnested : Forward nested) (start : Span) :
    Ends (bodyTurn nested start) fun before => bounded (bodyRestUpTo nested start · before) := by
  have hturn (limit) : TurnsInStep limit 0 (bodyTurn nested start) (bodyTurn nested start) :=
    (turnsInStep_body hnested.inStep start).pred
  exact (repeats_body nested start).ends hturn fun _ _ _ => inStepAt_unfinished

theorem forward_body : Forward body := forward_of_inStep fun _ => inStep_body

/-- The rounds from the state `s` on, up to the body `b` in the state `t`. -/
inductive Rounds (start : Span) : State → List Declaration → List Round → Body → State → Prop where
  | read {s t u : State} {before : List Declaration} {d : Declaration} {rounds : List Round} {b : Body}
      (h : round body start before s = (some (.read d), t)) (hrest : Rounds start t (before ++ [d]) rounds b u) :
      Rounds start s before (.read d :: rounds) b u
  | skipped {s t u : State} {before : List Declaration} {rounds : List Round} {b : Body}
      (h : round body start before s = (some .skipped, t)) (hrest : Rounds start t before rounds b u) :
      Rounds start s before (.skipped :: rounds) b u
  | finished {s t : State} {before : List Declaration} {b : Body}
      (h : round body start before s = (some (.finished b), t)) : Rounds start s before [.finished b] b t
  | unfinished {s t : State} {before : List Declaration} {b : Body}
      (h : round body start before s = (some (.unfinished b), t)) : Rounds start s before [.unfinished b] b t

theorem round_forward {x : Round} (h : round body start before s = (some x, t)) :
    t.rest <:+ s.rest ∧ (x.takes = true → t.rest.length < s.rest.length) := by
  have hbody : InStep s.rest.length 0 body body := inStep_body
  obtain ⟨-, hforward⟩ := (roundAt_iff.mpr h).takes hbody (Nat.le_succ _)
  exact hforward

theorem round_errors {x : Round} (h : round body start before s = (some x, t)) :
    s.errors.size ≤ t.errors.size ∧ (x.isClean = false → s.errors.size < t.errors.size) :=
  (roundAt_iff.mpr h).errors reads_body

/-- Reading a body comes to its last round. -/
theorem exists_rounds (start : Span) (before : List Declaration) (s : State) :
    ∃ rounds b t, Rounds start s before rounds b t := by
  induction hlength : s.rest.length using Nat.strongRecOn generalizing s before with
  | _ n ih =>
      subst hlength
      obtain ⟨x, t, hround⟩ := exists_roundAt body start before s
      obtain ⟨-, htakes⟩ := round_forward hround.run
      cases x with
      | read d =>
          obtain ⟨rounds, b, u, hrest⟩ := ih _ (htakes rfl) (before ++ [d]) t rfl
          exact ⟨_, b, u, .read hround.run hrest⟩
      | skipped =>
          obtain ⟨rounds, b, u, hrest⟩ := ih _ (htakes rfl) before t rfl
          exact ⟨_, b, u, .skipped hround.run hrest⟩
      | finished b => exact ⟨_, b, t, .finished hround.run⟩
      | unfinished b => exact ⟨_, b, t, .unfinished hround.run⟩

namespace Rounds

variable {rounds : List Round} {b : Body}

theorem run (h : Rounds start s before rounds b t) :
    bounded (bodyRestUpTo body start · before) s = (some b, t) := by
  have hturn := (ends_bodyRest forward_body start _).mpr rfl
  induction h with
  | read h _ ih =>
      rw [congrFun hturn _, bodyTurn, run_bind, h]
      exact ih
  | skipped h _ ih =>
      rw [congrFun hturn _, bodyTurn, run_bind, h]
      exact ih
  | finished h =>
      rw [congrFun hturn _, bodyTurn, run_bind, h]
      rfl
  | unfinished h =>
      rw [congrFun hturn _, bodyTurn, run_bind, h]
      rfl

theorem length_le (h : Rounds start s before rounds b t) : rounds.length ≤ s.rest.length + 1 := by
  induction h with
  | read h _ ih =>
      have := (round_forward h).2 rfl
      rw [List.length_cons]
      omega
  | skipped h _ ih =>
      have := (round_forward h).2 rfl
      rw [List.length_cons]
      omega
  | finished h => exact Nat.le_add_left _ _
  | unfinished h => exact Nat.le_add_left _ _

theorem forward (h : Rounds start s before rounds b t) : t.rest <:+ s.rest := by
  induction h with
  | read h _ ih => exact ih.trans (round_forward h).1
  | skipped h _ ih => exact ih.trans (round_forward h).1
  | finished h => exact (round_forward h).1
  | unfinished h => exact (round_forward h).1

/-- A body that ends with `return` takes a token. -/
theorem length_lt (h : Rounds start s before rounds b t) (hfinished : .unfinished b ∉ rounds) :
    t.rest.length < s.rest.length := by
  cases h with
  | read h hrest => exact Nat.lt_of_le_of_lt hrest.forward.length_le ((round_forward h).2 rfl)
  | skipped h hrest => exact Nat.lt_of_le_of_lt hrest.forward.length_le ((round_forward h).2 rfl)
  | finished h => exact (round_forward h).2 rfl
  | unfinished h => exact absurd (List.mem_singleton_self _) hfinished

theorem errors (h : Rounds start s before rounds b t) : s.errors.size ≤ t.errors.size := by
  induction h with
  | read h _ ih => exact Nat.le_trans (round_errors h).1 ih
  | skipped h _ ih => exact Nat.le_trans (round_errors h).1 ih
  | finished h => exact (round_errors h).1
  | unfinished h => exact (round_errors h).1

/-- Where no error is put down, nothing goes wrong in any round. -/
theorem isClean (h : Rounds start s before rounds b t) (hquiet : t.errors.size = s.errors.size) :
    ∀ x ∈ rounds, x.isClean = true := by
  induction h with
  | read h hrest ih =>
      have hround := (round_errors h).1
      have hbehind := hrest.errors
      exact List.forall_mem_cons.mpr ⟨rfl, ih (by omega)⟩
  | skipped h hrest ih =>
      have hround := (round_errors h).2 rfl
      have hbehind := hrest.errors
      omega
  | finished h => exact List.forall_mem_singleton.mpr rfl
  | unfinished h =>
      have hround := (round_errors h).2 rfl
      omega

end Rounds

end Sable.Reader
