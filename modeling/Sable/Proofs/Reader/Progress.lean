import Sable.Proofs.Reader.Held
import Sable.Proofs.Reader.Rounds

/-! Reading goes on until the tokens are used up.

Whatever gives a result has taken a token, and whatever gives none has put down an error. So nothing repeats itself without
taking a token in between, and reading ends. -/
namespace Sable.Reader

open Grammar

variable {α : Type} {s t : State} {r : Reader α}

/-! ## Parts of a program -/

/-- From the state `s` the reader takes tokens from the front: at least one if it gives something, and if it fails there is
an error more. -/
structure ProgressesAt (s : State) (r : Reader α) : Prop where
  forward : (r s).2.rest <:+ s.rest
  taken : ∀ a, (r s).1 = some a → (r s).2.rest.length < s.rest.length
  failed : (r s).1 = none → s.errors.size < (r s).2.errors.size

theorem InStepAt.progresses {phrase : Phrase α} (h : InStepAt 1 s r r) (hreads : ReadsAt s r phrase) : ProgressesAt s r :=
  ⟨h.forward, h.taken, hreads.failed⟩

/-- The readers of parts of a program that may be called in the state `s`. Declarations are read at their keywords. -/
inductive ReadsPart (s : State) : {α : Type} → Reader α → Prop where
  | token (t : Token) : ReadsPart s (token t)
  | name : ReadsPart s ident
  | declaration {k : Keyword} (hhead : s.tokens.head? = some (.keyword k)) (hk : k.opensDeclaration = true) :
    ReadsPart s (declarationWith body k)
  | value (start : Span) : ReadsPart s (valueDeclaration start)
  | function (start : Span) : ReadsPart s (functionDeclarationWith body start)
  | functionBody : ReadsPart s (functionBodyWith body)
  | external (start : Span) : ReadsPart s (externalDeclaration start)
  | typeAlias (start : Span) : ReadsPart s (aliasDeclaration start)
  | union (start : Span) : ReadsPart s (unionDeclaration start)
  | alternative : ReadsPart s alternative
  | parameters : ReadsPart s parameters
  | parameter : ReadsPart s (parameterWith type)
  | type : ReadsPart s type
  | primaryType : ReadsPart s (primaryTypeWith type)
  | typeArguments : ReadsPart s (typeArgumentsWith type)
  | typeFields : ReadsPart s (itemsUntil .rightBrace (typeFieldWith type))
  | functionType (start : Span) : ReadsPart s (functionTypeWith type start)
  | expression : ReadsPart s expr
  | conjunction : ReadsPart s (conjunctionWith expr)
  | comparison : ReadsPart s (comparisonWith expr)
  | tagged : ReadsPart s (tagsWith expr)
  | sum : ReadsPart s (sumWith expr)
  | product : ReadsPart s (productWith expr)
  | unary : ReadsPart s (unaryWith expr)
  | access : ReadsPart s (accessWith expr)
  | arguments : ReadsPart s (itemsUntil .rightParen expr)
  | primary : ReadsPart s (primaryWith expr)
  | conditional (start : Span) : ReadsPart s (conditionalWith expr start)
  | lambda (start : Span) : ReadsPart s (lambdaWith expr start)
  | cases (start : Span) : ReadsPart s (casesWith expr start)
  | fieldInits : ReadsPart s (itemsUntil .rightBrace (fieldInitWith expr))
  | matchArm : ReadsPart s (matchArmWith expr)

theorem ReadsPart.progresses (h : ReadsPart s r) : ProgressesAt s r := by
  have hlimit : s.rest.length ≤ s.rest.length + 1 := Nat.le_succ _
  have hself : s.rest.length ≤ s.rest.length := Nat.le_refl _
  have htype : InStep s.rest.length 0 Reader.type Reader.type := inStep_type.weaken
  have hexpr : InStep s.rest.length 0 expr expr := inStep_expr.weaken
  cases h with
  | token t => exact (inStep_token t s).progresses (reads_token t s)
  | name => exact (inStep_ident s).progresses (reads_ident s)
  | declaration hhead hk =>
      exact (inStepAt_declarationWith inStep_body hhead hlimit).1.progresses (readsAt_declarationWith reads_body hhead hk)
  | value start => exact (inStep_valueDeclaration start s).progresses (reads_valueDeclaration BodyPhrase start s)
  | function start =>
      exact (inStep_functionDeclarationWith inStep_body start s hlimit).progresses
        (reads_functionDeclarationWith reads_body start s)
  | functionBody => exact (inStep_functionBodyWith inStep_body s hlimit).progresses (reads_functionBodyWith reads_body s)
  | external start => exact (inStep_externalDeclaration start s).progresses (reads_externalDeclaration BodyPhrase start s)
  | typeAlias start => exact (inStep_aliasDeclaration start s).progresses (reads_aliasDeclaration BodyPhrase start s)
  | union start => exact (inStep_unionDeclaration start s).progresses (reads_unionDeclaration BodyPhrase start s)
  | alternative => exact (inStep_alternative s).progresses (reads_alternative s)
  | parameters => exact (inStep_parameters s).progresses (reads_parameters s)
  | parameter => exact (inStep_parameterWith htype s hself).progresses (reads_parameterWith reads_type s)
  | type => exact (inStep_type s hself).progresses (reads_type s)
  | primaryType => exact (inStep_primaryTypeWith htype s hlimit).progresses (reads_primaryTypeWith reads_type s)
  | typeArguments => exact (inStep_typeArgumentsWith htype s hself).progresses (reads_typeArgumentsWith reads_type s)
  | typeFields =>
      exact (inStep_itemsUntil (inStep_typeFieldWith htype).weaken .rightBrace s hself).progresses
        (reads_itemsUntil (reads_typeFieldWith reads_type) .rightBrace s)
  | functionType start =>
      exact (inStep_functionTypeWith htype start s hlimit).progresses (reads_functionTypeWith reads_type start s)
  | expression => exact (inStep_expr s hself).progresses (reads_expr s)
  | conjunction => exact (inStep_conjunctionWith hexpr s hlimit).progresses (reads_conjunctionWith reads_expr s)
  | comparison => exact (inStep_comparisonWith hexpr s hlimit).progresses (reads_comparisonWith reads_expr s)
  | tagged => exact (inStep_tagsWith hexpr s hlimit).progresses (reads_tagsWith reads_expr s)
  | sum => exact (inStep_sumWith hexpr s hlimit).progresses (reads_sumWith reads_expr s)
  | product => exact (inStep_productWith hexpr s hlimit).progresses (reads_productWith reads_expr s)
  | unary => exact (inStep_unaryWith hexpr s hlimit).progresses (reads_unaryWith reads_expr s)
  | access => exact (inStep_accessWith hexpr s hlimit).progresses (reads_accessWith reads_expr s)
  | arguments => exact (inStep_itemsUntil hexpr .rightParen s hself).progresses (reads_itemsUntil reads_expr .rightParen s)
  | primary => exact (inStep_primaryWith hexpr s hlimit).progresses (reads_primaryWith reads_expr s)
  | conditional start =>
      exact (inStep_conditionalWith hexpr start s hself).progresses (reads_conditionalWith reads_expr start s)
  | lambda start => exact (inStep_lambdaWith hexpr start s hself).progresses (reads_lambdaWith reads_expr start s)
  | cases start => exact (inStep_casesWith hexpr start s hself).progresses (reads_casesWith reads_expr start s)
  | fieldInits =>
      exact (inStep_itemsUntil (inStep_fieldInitWith hexpr).weaken .rightBrace s hself).progresses
        (reads_itemsUntil (reads_fieldInitWith reads_expr) .rightBrace s)
  | matchArm => exact (inStep_matchArmWith hexpr s hself).progresses (reads_matchArmWith reads_expr s)

/-! ## Reading without bounds -/

/-- Nothing is read without end: the equations that the readers solve have no other solutions. -/
structure ReadingEnds : Prop where
  type (r : Reader TypeExpr) : r = typeWith r ↔ r = type
  expr (r : Reader Expr) : r = exprWith r ↔ r = expr
  body (r : Reader Body) : r = bodyWith r ↔ r = body
  rounds {nested : Reader Body} (hnested : Forward nested) (start : Span) :
    Ends (bodyTurn nested start) fun before => bounded (bodyRestUpTo nested start · before)
  more {α : Type} {item : Reader α} (hitem : Forward item) (separator : Punctuation) :
    Ends (fun f (_ : Unit) => moreTurn separator item (f ())) fun _ => bounded (moreUpTo separator item)
  items {α : Type} {item : Reader α} (hitem : Forward item) (close : Punctuation) :
    Ends (fun f (_ : Unit) => itemsTurn close item (f ())) fun _ => bounded (itemsUpTo close item)
  nullable : Ends nullableTurn fun type => bounded (nullableUpTo · type)
  chain {operand : Reader Expr} (hoperand : Forward operand) (op? : Token → Option BinaryOp) :
    Ends (chainTurn op? operand) fun lhs => bounded (chainUpTo op? operand · lhs)
  tags : Ends tagTurn fun value => bounded (tagsUpTo · value)
  unary {nested : Reader Expr} (hnested : Forward nested) :
    Ends (fun f (_ : Unit) => unaryTurn nested (f ())) fun _ => bounded (unaryUpTo nested)
  access {nested : Reader Expr} (hnested : Forward nested) : Ends (accessTurn nested) fun e => bounded (accessUpTo nested · e)

theorem readingEnds : ReadingEnds where
  type := ends_type
  expr := ends_expr
  body := ends_body
  rounds := ends_bodyRest
  more hitem separator :=
    (repeats_more separator _).ends (fun _ => turnsInStep_more hitem.inStep separator) fun _ _ _ => inStepAt_pure
  items hitem close := (repeats_items close _).ends (fun _ => turnsInStep_items hitem.inStep close) fun _ _ _ => inStepAt_pure
  nullable := repeats_nullable.ends (fun _ => turnsInStep_nullable) fun _ _ _ => inStepAt_pure
  chain hoperand op? := (repeats_chain op? _).ends (fun _ => turnsInStep_chain hoperand.inStep) fun _ _ _ => inStepAt_pure
  tags := repeats_tags.ends (fun _ => turnsInStep_tags) fun _ _ _ => inStepAt_pure
  unary hnested := by
    refine (repeats_unary _).ends (fun _ => (turnsInStep_unary hnested.inStep).pred) fun _ s _ => ?_
    exact inStep_accessWith hnested.inStep s (Nat.le_succ s.rest.length)
  access hnested := (repeats_access _).ends (fun _ => turnsInStep_access hnested.inStep) fun _ _ _ => inStepAt_pure

/-! ## The whole text -/

theorem generics_forward : Forward generics := fun s => (inStep_generics s).forward

theorem Rounds.run_body {rounds : List Round} {b : Body} (h : Rounds s.here s [] rounds b t) : body s = (some b, t) := by
  rw [congrFun ((ends_body body).mpr rfl) s]
  exact h.run

/-- A program is a body, and what is left behind it is an error. -/
theorem exists_run_program_rest (s : State) : ∃ b t, program s = (some b, t) ∧ (body s).1 = some b ∧
    t.rest = (body s).2.rest ∧ (t.rest ≠ [] → s.errors.size < t.errors.size) := by
  obtain ⟨b, t, hbody⟩ := exists_run_body s
  have herrors := (reads_body s).errors
  rw [hbody] at herrors
  rw [run_program, hbody]
  dsimp only
  split
  · rename_i ht
    exact ⟨b, t, rfl, rfl, rfl, fun hrest => absurd (List.map_eq_nil_iff.mp ht) hrest⟩
  · refine ⟨b, _, rfl, rfl, rfl, fun _ => ?_⟩
    exact Nat.lt_of_le_of_lt herrors (size_errors_of_push (s := t) rfl)

/-- Reading always goes on. A part of a program that is read has taken a token, and one that cannot be read has put down an
error; nothing goes back. Every round of a body takes a token or ends the body, also where nothing is skipped behind a
declaration that cannot be read, and skipping stops where a round can do something with the next token. Hence reading ends,
a body has at most one round more than there are tokens, and without an error every token stands in the tree. -/
theorem reading_progresses :
    (∀ {α : Type} (s : State) (r : Reader α), ReadsPart s r → ProgressesAt s r) ∧
      (∀ s, (generics s).2.rest <:+ s.rest ∧ ((generics s).1 = none → s.errors.size < (generics s).2.errors.size)) ∧
      (∀ s, (recover s).2.rest <:+ s.rest ∧
        ∀ t ∈ (recover s).2.tokens.head?, t = .mark .rightBrace ∨ t.beginsPart = true) ∧
      (∀ start before s, ∃ x t, round body start before s = (some x, t) ∧ t.rest <:+ s.rest ∧
        (x.takes = true → t.rest.length < s.rest.length)) ∧
      (∀ s, ∃ rounds b t, Rounds s.here s [] rounds b t ∧ body s = (some b, t) ∧ t.rest <:+ s.rest ∧
        rounds.length ≤ s.rest.length + 1 ∧ (.unfinished b ∉ rounds → t.rest.length < s.rest.length) ∧
        (t.errors.size = s.errors.size → ∀ x ∈ rounds, x.isClean = true)) ∧
      (∀ s, ∃ b t, program s = (some b, t) ∧ (body s).1 = some b ∧ t.rest = (body s).2.rest ∧
        (t.rest ≠ [] → s.errors.size < t.errors.size)) ∧
      ReadingEnds ∧
      ∀ tokens, (Parse.ofTokens tokens).errors = [] →
        BodyPhrase (tokens.map (·.value)) (Parse.ofTokens tokens).tree.body := by
  refine ⟨fun s r => ReadsPart.progresses, fun s => ⟨generics_forward s, (reads_generics s).failed⟩,
    fun s => ⟨recover_forward s, head?_recover s⟩, fun start before s => ?_, fun s => ?_, exists_run_program_rest, readingEnds,
    fun tokens => Parse.bodyPhrase_ofTokens⟩
  · obtain ⟨x, t, hround⟩ := exists_roundAt body start before s
    exact ⟨x, t, hround.run, round_forward hround.run⟩
  · obtain ⟨rounds, b, t, hrounds⟩ := exists_rounds s.here [] s
    exact ⟨rounds, b, t, hrounds, hrounds.run_body, hrounds.forward, hrounds.length_le, hrounds.length_lt, hrounds.isClean⟩

/-- The parameters of the function are cut off, and reading goes on at `val` without skipping anything. -/
def cutParameters : State := .start (scan "def f( val x = 1 return x").tokens

theorem reading_progresses_cutParameters :
    cutParameters.tokens.head? = some (.keyword .defWord) ∧
      (declarationWith body .defWord cutParameters).1 = none ∧
      cutParameters.errors.size < (declarationWith body .defWord cutParameters).2.errors.size ∧
      (recover (declarationWith body .defWord cutParameters).2).2.rest =
        (declarationWith body .defWord cutParameters).2.rest ∧
      (∃ rounds b t, Rounds cutParameters.here cutParameters [] rounds b t ∧
        rounds.length ≤ cutParameters.rest.length + 1) ∧
      (Parse.ofTokens (scan "val x = 1 return x").tokens).errors = [] ∧
      BodyPhrase ((scan "val x = 1 return x").tokens.map (·.value))
        (Parse.ofTokens (scan "val x = 1 return x").tokens).tree.body := by
  obtain ⟨hpart, -, -, -, hbody, -, -, hquiet⟩ := reading_progresses
  have hhead : cutParameters.tokens.head? = some (.keyword .defWord) := by
    rw [cutParameters, scan, String.toList_ofList]
    decide +kernel
  have hnone : (declarationWith body .defWord cutParameters).1 = none := by
    rw [← Option.isNone_iff_eq_none, cutParameters, scan, String.toList_ofList]
    decide +kernel
  have hstop : (recover (declarationWith body .defWord cutParameters).2).2.rest =
      (declarationWith body .defWord cutParameters).2.rest := by
    rw [cutParameters, scan, String.toList_ofList]
    decide +kernel
  have herrors : (Parse.ofTokens (scan "val x = 1 return x").tokens).errors = [] := by
    rw [scan, String.toList_ofList]
    decide +kernel
  obtain ⟨rounds, b, t, hrounds, -, -, hlength, -⟩ := hbody cutParameters
  exact ⟨hhead, hnone, (hpart _ _ (.declaration hhead rfl)).failed hnone, hstop, ⟨rounds, b, t, hrounds, hlength⟩, herrors,
    hquiet _ herrors⟩

end Sable.Reader
