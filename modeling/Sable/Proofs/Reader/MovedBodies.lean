import Sable.Proofs.Reader.MovedExpressions
import Sable.Reader.Body

/-! Reading the declarations and bodies of a text that is moved.

A body in a longer text may be read with more repetitions allowed. As many as there are tokens are enough, so this
makes no difference. -/
namespace Sable.Reader

variable {m : Shift} {before : Earlier m}

/-! ## Going on after an error -/

theorem skipFrom_moved (n depth : Nat) (previous : Span) (rest : List (Spanned Token)) :
    skipFrom depth (previous.moved n) (rest.map (·.moved n)) =
      ((skipFrom depth previous rest).1.moved n, (skipFrom depth previous rest).2.map (·.moved n)) := by
  have hvalue (t : Spanned Token) : (t.moved n).value = t.value := rfl
  have hspan (t : Spanned Token) : (t.moved n).span = t.span.moved n := rfl
  fun_induction skipFrom depth previous rest <;> simp_all [skipFrom]

theorem length_skipFrom_le (depth : Nat) (previous : Span) (rest : List (Spanned Token)) :
    (skipFrom depth previous rest).2.length ≤ rest.length := by
  fun_induction skipFrom depth previous rest <;> simp only [List.length_cons, Nat.le_refl] <;> omega

theorem moves_recover : Moves m before id recover recover := by
  refine fun s => ⟨?_, length_skipFrom_le 0 s.previous s.rest⟩
  simp only [recover, State.moved, skipFrom_moved]
  rfl

theorem moves_placeholder : Moves m before (Expr.moved m) placeholder placeholder :=
  fun s => movesAt_here (moves_newExpr s.here (fun _ => rfl) s)

theorem movesAt_advance {γ δ : Type} {s : State} {token : Token} {g : γ → δ} {next : Unit → Reader γ}
    {next' : Unit → Reader δ} (h : s.rest.head?.map (·.value) = some token)
    (hnext : ∀ t, t.rest.length < s.rest.length → MovesAt m before t g (next ()) (next' ())) :
    MovesAt m before s g (advance >>= next) (advance >>= next') := by
  refine (moves_advance s).bind_of_eq fun _ t ht => hnext t ?_
  have hless := s.length_advance_lt h
  rwa [show s.advance = t from congrArg Prod.snd ht] at hless

/-! ## Declarations -/

theorem moves_valueDeclaration (start : Span) :
    Moves m before (Declaration.moved m) (valueDeclaration start) (valueDeclaration (start.moved m.offset)) := by
  refine fun s => (moves_ident s).bind fun name t _ => (moves_annotation? t).bind fun type t _ => ?_
  refine (moves_mark .assign t).bind fun _ t _ => (moves_expr t).bind fun value t _ => ?_
  exact (moves_spanFrom start t).bind fun span t _ => movesAt_pure (by rw [Declaration.moved])

theorem moves_alternative : Moves m before (Alternative.moved m) alternative alternative := by
  refine fun s => (moves_ident s).bind fun tag t _ => (moves_mark .colon t).bind fun _ t _ => ?_
  refine (moves_type t).bind fun payload t _ => (moves_spanFrom tag.span t).bind fun span t _ => ?_
  exact movesAt_pure rfl

theorem moves_aliasDeclaration (start : Span) :
    Moves m before (Declaration.moved m) (aliasDeclaration start) (aliasDeclaration (start.moved m.offset)) := by
  refine fun s => (moves_ident s).bind fun name t _ => (moves_generics t).bind fun names t _ => ?_
  refine (moves_mark .assign t).bind fun _ t _ => (moves_type t).bind fun target t _ => ?_
  exact (moves_spanFrom start t).bind fun span t _ => movesAt_pure (by rw [Declaration.moved])

theorem moves_unionDeclaration (start : Span) :
    Moves m before (Declaration.moved m) (unionDeclaration start) (unionDeclaration (start.moved m.offset)) := by
  refine fun s => (moves_ident s).bind fun name t _ => (moves_generics t).bind fun names t _ => ?_
  refine (moves_mark .assign t).bind fun _ t _ => ?_
  refine (moves_separated moves_alternative .pipe t).bind fun alternatives t _ => ?_
  exact (moves_spanFrom start t).bind fun span t _ => movesAt_pure (by rw [Declaration.moved])

theorem moves_externalDeclaration (start : Span) :
    Moves m before (Declaration.moved m) (externalDeclaration start)
      (externalDeclaration (start.moved m.offset)) := by
  refine fun s => (moves_keyword .defWord s).bind fun _ t _ => (moves_ident t).bind fun name t _ => ?_
  refine (moves_generics t).bind fun names t _ => (moves_parameters t).bind fun ps t _ => ?_
  refine (moves_mark .colon t).bind fun _ t _ => (moves_type t).bind fun result t _ => ?_
  exact (moves_spanFrom start t).bind fun span t _ => movesAt_pure (by rw [Declaration.moved])

section

-- The bodies inside are read in texts of fewer tokens.
variable {nested nested' : Reader Body} {limit : Nat}
  (hnested : ∀ t, t.rest.length < limit → MovesAt m before t (Body.moved m) nested nested')
include hnested

theorem movesAt_functionBodyWith {s : State} (hlimit : s.rest.length ≤ limit) :
    MovesAt m before s (Body.moved m) (functionBodyWith nested) (functionBodyWith nested') := by
  apply movesAt_peek
  split
  · refine (moves_advance s).bind fun _ t _ => (moves_expr t).bind fun result t _ => ?_
    exact movesAt_pure (by rw [Body.moved, Expr.span_moved]; rfl)
  · rename_i hbrace
    refine movesAt_advance hbrace fun t ht => (hnested t (by omega)).bind fun body t _ => ?_
    exact (moves_mark .rightBrace t).bind fun _ t _ => movesAt_pure rfl
  · exact moves_expected _ s

theorem movesAt_functionDeclarationWith (start : Span) {s : State} (hlimit : s.rest.length ≤ limit) :
    MovesAt m before s (Declaration.moved m) (functionDeclarationWith nested start)
      (functionDeclarationWith nested' (start.moved m.offset)) := by
  refine (moves_ident s).bind fun name t _ => (moves_generics t).bind fun names t _ => ?_
  refine (moves_parameters t).bind fun ps t _ => (moves_annotation? t).bind fun result t _ => ?_
  refine (movesAt_functionBodyWith hnested (by omega)).bind fun body t _ => ?_
  exact (moves_spanFrom start t).bind fun span t _ => movesAt_pure (by rw [Declaration.moved])

/-- What comes behind the keyword of a declaration. -/
theorem movesAt_behindKeyword (k : Keyword) (start : Span) {t : State} (ht : t.rest.length ≤ limit) :
    MovesAt m before t (Declaration.moved m)
      (match k with
        | .valWord => valueDeclaration start
        | .externalWord => externalDeclaration start
        | .typeWord => aliasDeclaration start
        | .unionWord => unionDeclaration start
        | _ => functionDeclarationWith nested start)
      (match k with
        | .valWord => valueDeclaration (start.moved m.offset)
        | .externalWord => externalDeclaration (start.moved m.offset)
        | .typeWord => aliasDeclaration (start.moved m.offset)
        | .unionWord => unionDeclaration (start.moved m.offset)
        | _ => functionDeclarationWith nested' (start.moved m.offset)) := by
  split
  · exact moves_valueDeclaration start t
  · exact moves_externalDeclaration start t
  · exact moves_aliasDeclaration start t
  · exact moves_unionDeclaration start t
  · exact movesAt_functionDeclarationWith hnested start ht

theorem movesAt_declarationWith {k : Keyword} {s : State} (hlimit : s.rest.length ≤ limit)
    (hk : s.rest.head?.map (·.value) = some (.keyword k)) :
    MovesAt m before s (Declaration.moved m) (declarationWith nested k) (declarationWith nested' k) ∧
      (declarationWith nested k s).2.rest.length < s.rest.length := by
  have hless := s.length_advance_lt hk
  have hrest (t : State) (ht : t.rest.length ≤ limit) : MovesAt m before t _ _ _ :=
    movesAt_behindKeyword hnested k s.here ht
  refine ⟨movesAt_here ((moves_advance s).bind fun _ t _ => hrest t (by omega)), ?_⟩
  exact Nat.lt_of_le_of_lt (hrest s.advance (by omega)).shorter hless

/-! ## Bodies -/

omit hnested in
theorem moves_unfinished (start : Span) (declarations : List Declaration) :
    Moves m before (Body.moved m) (unfinished start declarations)
      (unfinished (start.moved m.offset) (declarations.map (Declaration.moved m))) := by
  refine fun s => (moves_report _ s).bind fun _ t _ => movesAt_here ?_
  refine (moves_placeholder t).bind fun result u _ => movesAt_pure ?_
  rw [Body.moved, Declaration.movedEach_eq_map, Span.merge_moved]

omit hnested in
theorem moves_finished (start : Span) (declarations : List Declaration) :
    Moves m before (Body.moved m) (finished start declarations)
      (finished (start.moved m.offset) (declarations.map (Declaration.moved m))) := by
  refine fun s => (moves_advance s).bind fun _ t _ => (moves_expr t).attempt.bind fun found t _ => ?_
  cases found with
  | some result =>
      change MovesAt m before t (Body.moved m) (spanFrom start >>= fun span => pure (.mk declarations result span))
        (spanFrom (start.moved m.offset) >>= fun span =>
          pure (.mk (declarations.map (Declaration.moved m)) (result.moved m) span))
      refine (moves_spanFrom start t).bind fun span t _ => movesAt_pure ?_
      rw [Body.moved, Declaration.movedEach_eq_map]
  | none =>
      refine (moves_placeholder t).bind fun result t _ => (moves_spanFrom start t).bind fun span t _ => ?_
      exact movesAt_pure (by rw [Body.moved, Declaration.movedEach_eq_map])

omit hnested in
theorem movesAt_passOver {s : State} {token : Token} {g : Body → Body} {next : Unit → Reader Body}
    {next' : Unit → Reader Body} (h : s.rest.head?.map (·.value) = some token)
    (hnext : ∀ t, t.rest.length < s.rest.length → MovesAt m before t g (next ()) (next' ())) :
    MovesAt m before s g (passOver >>= next) (passOver >>= next') := by
  change MovesAt m before s g (report (.expected .declaration) >>= fun _ => advance >>= fun _ => recover >>= next)
    (report (.expected .declaration) >>= fun _ => advance >>= fun _ => recover >>= next')
  refine (moves_report _ s).bind_of_eq fun _ t ht => ?_
  have hrest : t.rest = s.rest := (congrArg (fun p => p.2.rest) ht).symm
  refine movesAt_advance (hrest ▸ h) fun u hu => (moves_recover u).bind fun _ v _ => hnext v ?_
  rw [hrest] at hu
  omega

omit hnested in
/-- A body read from no tokens is unfinished, however many repetitions are allowed. -/
theorem bodyRestUpTo_of_nil (nested : Reader Body) (start : Span) (count : Nat) (declarations : List Declaration)
    {s : State} (hs : s.rest = []) :
    bodyRestUpTo nested start count declarations s = unfinished start declarations s := by
  cases count with
  | zero => rfl
  | succ count =>
      rw [bodyRestUpTo, run_bind, peek, hs]
      rfl

theorem movesAt_bodyRestUpTo (start : Span) {count count' : Nat} (declarations : List Declaration) {s : State}
    (hlimit : s.rest.length ≤ limit) (hcount : s.rest.length ≤ count) (hcount' : s.rest.length ≤ count') :
    MovesAt m before s (Body.moved m) (bodyRestUpTo nested start count declarations)
      (bodyRestUpTo nested' (start.moved m.offset) count' (declarations.map (Declaration.moved m))) := by
  induction count generalizing count' declarations s with
  | zero =>
      have hs := List.eq_nil_of_length_eq_zero (Nat.le_zero.1 hcount)
      refine (moves_unfinished start declarations s).congr rfl (bodyRestUpTo_of_nil _ _ _ _ ?_)
      rw [State.moved, hs, List.map_nil]
  | succ count ih =>
      cases count' with
      | zero =>
          have hs := List.eq_nil_of_length_eq_zero (Nat.le_zero.1 hcount')
          exact (moves_unfinished start declarations s).congr (bodyRestUpTo_of_nil _ _ _ _ hs) rfl
      | succ count' =>
          apply movesAt_peek
          split
          · exact moves_unfinished start declarations s
          · exact moves_unfinished start declarations s
          · rename_i k hk
            split
            · obtain ⟨hdeclaration, hless⟩ := movesAt_declarationWith hnested hlimit hk
              refine hdeclaration.attempt.bind_of_eq fun found t ht => ?_
              rw [show (declarationWith nested k s).2 = t from congrArg Prod.snd ht] at hless
              cases found with
              | some d =>
                  have h := @ih count' (declarations ++ [d]) t (by omega) (by omega) (by omega)
                  rwa [List.map_append] at h
              | none =>
                  refine (moves_recover t).bind fun _ t _ => ?_
                  exact ih declarations (by omega) (by omega) (by omega)
            · split
              · exact moves_finished start declarations s
              · refine movesAt_passOver hk fun t ht => ?_
                exact ih declarations (by omega) (by omega) (by omega)
          · rename_i token _ _ htoken
            refine movesAt_passOver htoken fun t ht => ?_
            exact ih declarations (by omega) (by omega) (by omega)

theorem movesAt_bodyWith {s : State} (hlimit : s.rest.length ≤ limit) :
    MovesAt m before s (Body.moved m) (bodyWith nested) (bodyWith nested') := by
  refine movesAt_here (movesAt_bounded ?_)
  exact movesAt_bodyRestUpTo hnested s.here [] hlimit (Nat.le_refl _) (Nat.le_refl _)

end

theorem bodyUpTo_of_nil (depth : Nat) {s : State} (hs : s.rest = []) :
    bodyUpTo depth s = unfinished s.here [] s := by
  cases depth with
  | zero => rfl
  | succ depth => exact bodyRestUpTo_of_nil _ _ _ _ hs

theorem movesAt_bodyUpTo {depth depth' : Nat} {s : State} (hdepth : s.rest.length ≤ depth)
    (hdepth' : s.rest.length ≤ depth') :
    MovesAt m before s (Body.moved m) (bodyUpTo depth) (bodyUpTo depth') := by
  have hunfinished : MovesAt m before s (Body.moved m) (unfinished s.here []) (unfinished (s.here.moved m.offset) []) :=
    moves_unfinished s.here [] s
  induction depth generalizing depth' s with
  | zero =>
      have hs := List.eq_nil_of_length_eq_zero (Nat.le_zero.1 hdepth)
      refine hunfinished.congr rfl ?_
      rw [← State.here_moved]
      refine bodyUpTo_of_nil depth' ?_
      rw [State.moved, hs, List.map_nil]
  | succ depth ih =>
      cases depth' with
      | zero =>
          have hs := List.eq_nil_of_length_eq_zero (Nat.le_zero.1 hdepth')
          refine hunfinished.congr (bodyUpTo_of_nil _ hs) ?_
          rw [← State.here_moved]
          rfl
      | succ depth' =>
          refine movesAt_bodyWith (fun t ht => ?_) (Nat.le_refl _)
          exact ih (by omega) (by omega) (moves_unfinished t.here [] t)

/-! ## What stands in front of a body -/

theorem run_finished (s : State) : ∃ result t, ∀ start declarations,
    finished start declarations s = (some (.mk declarations result (start.merge t.previous)), t) := by
  cases hr : expr s.advance with
  | mk found t =>
      cases found with
      | some result =>
          refine ⟨result, t, fun start declarations => ?_⟩
          simp only [finished, run_bind, advance, attempt, hr]
          rfl
      | none =>
          refine ⟨.null ⟨t.nodes.expressions.size, t.here⟩, (newExpr t.here .null t).2, fun _ _ => ?_⟩
          simp only [finished, run_bind, advance, attempt, hr]
          rfl

/-- What reading a body does with the next token. It looks neither at the place of the token before, except in a body
without an end, nor at the declarations that it has. -/
theorem bodyRestUpTo_step (nested : Reader Body) (count : Nat) (s : State) :
    (∀ p start declarations, bodyRestUpTo nested start (count + 1) declarations { s with previous := p } =
      unfinished start declarations { s with previous := p }) ∨
    (∀ p start declarations, bodyRestUpTo nested start (count + 1) declarations { s with previous := p } =
      finished start declarations s) ∨
    (∃ d t, ∀ p start declarations, bodyRestUpTo nested start (count + 1) declarations { s with previous := p } =
      bodyRestUpTo nested start count (declarations ++ [d]) t) ∨
    ∃ t, ∀ p start declarations, bodyRestUpTo nested start (count + 1) declarations { s with previous := p } =
      bodyRestUpTo nested start count declarations t := by
  obtain ⟨rest, previous, finish, nodes, errors⟩ := s
  cases rest with
  | nil => exact .inl fun _ _ _ => rfl
  | cons first rest =>
      obtain ⟨token, span⟩ := first
      let s : State := ⟨⟨token, span⟩ :: rest, previous, finish, nodes, errors⟩
      cases token with
      | number x => exact .inr (.inr (.inr ⟨(passOver s).2, fun _ _ _ => rfl⟩))
      | bigInteger digits => exact .inr (.inr (.inr ⟨(passOver s).2, fun _ _ _ => rfl⟩))
      | ident name => exact .inr (.inr (.inr ⟨(passOver s).2, fun _ _ _ => rfl⟩))
      | mark p =>
          cases p with
          | rightBrace => exact .inl fun _ _ _ => rfl
          | _ => exact .inr (.inr (.inr ⟨(passOver s).2, fun _ _ _ => rfl⟩))
      | keyword k =>
          have hrun (p start declarations) :
              bodyRestUpTo nested start (count + 1) declarations { s with previous := p } =
                if k.opensDeclaration then
                  match declarationWith nested k s with
                  | (some d, t) => bodyRestUpTo nested start count (declarations ++ [d]) t
                  | (none, t) => bodyRestUpTo nested start count declarations (recover t).2
                else if k = .returnWord then finished start declarations s
                else bodyRestUpTo nested start count declarations (passOver s).2 := by
            simp only [bodyRestUpTo, run_bind, peek, s, List.head?_cons, Option.map_some]
            by_cases hk : k.opensDeclaration = true
            · rw [if_pos hk, if_pos hk, run_bind]
              have hread : attempt (declarationWith nested k) { s with previous := p } =
                  (some (declarationWith nested k s).1, (declarationWith nested k s).2) := rfl
              simp only [s] at hread
              simp only [hread]
              split
              · simp_all
              · simp_all
                rfl
            · rw [if_neg hk, if_neg hk]
              split <;> rfl
          simp only [s] at hrun
          by_cases hk : k.opensDeclaration = true
          · cases hread : declarationWith nested k s with
            | mk found t =>
                simp only [s] at hread
                simp only [if_pos hk, hread] at hrun
                cases found with
                | some d => exact .inr (.inr (.inl ⟨d, t, hrun⟩))
                | none => exact .inr (.inr (.inr ⟨(recover t).2, hrun⟩))
          · simp only [if_neg hk] at hrun
            by_cases hreturn : k = .returnWord
            · simp only [if_pos hreturn] at hrun
              exact .inr (.inl hrun)
            · simp only [if_neg hreturn] at hrun
              exact .inr (.inr (.inr ⟨(passOver s).2, hrun⟩))

/-- With other declarations in front the same text is read to the same end. -/
theorem bodyRestUpTo_behind (nested : Reader Body) (start start' : Span) (front : List Declaration) (count : Nat)
    (declarations : List Declaration) (s : State) :
    ∃ b span t, bodyRestUpTo nested start count declarations s = (some b, t) ∧
      bodyRestUpTo nested start' count (front ++ declarations) s =
        (some (.mk (front ++ b.declarations) b.result span), t) := by
  induction count generalizing declarations s with
  | zero => exact ⟨_, _, _, rfl, rfl⟩
  | succ count ih =>
      obtain hend | hend | ⟨d, t, hnext⟩ | ⟨t, hnext⟩ := bodyRestUpTo_step nested count s
      · exact ⟨_, _, _, hend s.previous start declarations, hend s.previous start' (front ++ declarations)⟩
      · obtain ⟨result, t, hfinished⟩ := run_finished s
        rw [hend s.previous, hend s.previous, hfinished, hfinished]
        exact ⟨_, _, _, rfl, rfl⟩
      · have h := ih (declarations ++ [d]) t
        rw [← List.append_assoc] at h
        rwa [hnext s.previous, hnext s.previous]
      · rw [hnext s.previous, hnext s.previous]
        exact ih declarations t

/-- Where the token before a body stands makes a difference only to what is told about it later. -/
theorem bodyRestUpTo_previous (nested : Reader Body) (start : Span) (count : Nat) (declarations : List Declaration)
    (s : State) (p : Span) : ∃ q, bodyRestUpTo nested start (count + 1) declarations { s with previous := p } =
      ((bodyRestUpTo nested start (count + 1) declarations s).1,
        { (bodyRestUpTo nested start (count + 1) declarations s).2 with previous := q }) := by
  have hself : s = { s with previous := s.previous } := rfl
  obtain hend | hend | ⟨d, t, hnext⟩ | ⟨t, hnext⟩ := bodyRestUpTo_step nested count s
  · rw [hself, hend, hend]
    exact ⟨p, rfl⟩
  · rw [hself, hend, hend]
    exact ⟨_, rfl⟩
  · rw [hself, hnext, hnext]
    exact ⟨_, rfl⟩
  · rw [hself, hnext, hnext]
    exact ⟨_, rfl⟩

end Sable.Reader
