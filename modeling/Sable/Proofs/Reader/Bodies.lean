import Sable.Proofs.Reader.Expressions
import Sable.Reader.Body

/-! Reading declarations and bodies, as types and expressions are read. -/
namespace Sable.Reader

open Grammar

/-! ## Soundness -/

section

variable {α β : Type} {s : State} {r : Reader α} {next : α → Reader β} {phrase : Phrase α}
  {whole : Phrase β}

theorem reads_valueDeclaration (inner : Phrase Body) (start : Span) : Reads (valueDeclaration start)
    fun xs d => Declared inner (.keyword .valWord :: xs) d := by
  intro s
  apply readsAt_ident
  intro name nameSpan t
  refine (reads_annotation? t).bind fun type t => readsAt_mark fun t => ?_
  refine (reads_expr t).bind fun e t => readsAt_spanFrom (readsAt_pure ?_)
  intro ys hvalue xs htype
  simpa using Declared.value htype hvalue

theorem reads_alternative : Reads alternative UnionEntry := by
  intro s
  apply readsAt_ident
  intro tag tagSpan t
  apply readsAt_mark
  intro t
  refine (reads_type t).bind fun payload t => readsAt_spanFrom (readsAt_pure ?_)
  intro xs h
  simpa using UnionEntry.mk h

theorem reads_aliasDeclaration (inner : Phrase Body) (start : Span) : Reads (aliasDeclaration start)
    fun xs d => Declared inner (.keyword .typeWord :: xs) d := by
  intro s
  apply readsAt_ident
  intro name nameSpan t
  refine (reads_generics t).bind fun names t => readsAt_mark fun t => ?_
  refine (reads_type t).bind fun target t => readsAt_spanFrom (readsAt_pure ?_)
  intro ys htarget xs hnames
  simpa using Declared.typeAlias hnames htarget

theorem reads_unionDeclaration (inner : Phrase Body) (start : Span) : Reads (unionDeclaration start)
    fun xs d => Declared inner (.keyword .unionWord :: xs) d := by
  intro s
  apply readsAt_ident
  intro name nameSpan t
  refine (reads_generics t).bind fun names t => readsAt_mark fun t => ?_
  refine (reads_separated reads_alternative .pipe t).bind fun alternatives t =>
    readsAt_spanFrom (readsAt_pure ?_)
  intro ys halternatives xs hnames
  simpa using Declared.union hnames halternatives

theorem reads_externalDeclaration (inner : Phrase Body) (start : Span) : Reads (externalDeclaration start)
    fun xs d => Declared inner (.keyword .externalWord :: xs) d := by
  intro s
  apply readsAt_keyword
  intro t
  apply readsAt_ident
  intro name nameSpan t
  refine (reads_generics t).bind fun names t => (reads_parameters t).bind fun ps t => ?_
  apply readsAt_mark
  intro t
  refine (reads_type t).bind fun result t => readsAt_spanFrom (readsAt_pure ?_)
  intro zs hresult ys hps xs hnames
  simpa using Declared.external hnames hps hresult

theorem readsAt_attempt {next : Option α → Reader β} (h : ReadsAt s r phrase)
    (hsome : ∀ a t, ReadsAt t (next (some a)) fun ys b => ∀ xs, phrase xs a → whole (xs ++ ys) b)
    (hnone : ∀ t, CarefulAt t (next none)) : ReadsAt s (attempt r >>= next) whole := by
  cases hr : r s with
  | mk found t =>
      cases found with
      | some a =>
          refine (h.bind hsome).of_eq ?_
          simp only [run_bind, attempt, hr]
      | none =>
          have hfailed := h.failed
          rw [hr] at hfailed
          refine readsAt_of_grown ?_
          simp only [run_bind, attempt, hr]
          exact Nat.lt_of_lt_of_le (hfailed rfl) (hnone t).errors

theorem readsAt_passOver {next : Unit → Reader β} (h : ∀ t, CarefulAt t (next ())) :
    ReadsAt s (passOver >>= next) whole := by
  have hrun : ∃ t e, passOver s = (some (), t) ∧ t.errors = s.errors.push e := by
    refine ⟨_, _, rfl, State.errors_advance⟩
  obtain ⟨t, e, hrun, herrors⟩ := hrun
  refine readsAt_of_grown ?_
  rw [run_bind, hrun]
  have hnext := (h t).errors
  rw [herrors, Array.size_push] at hnext
  exact hnext

theorem readsAt_unfinished {start : Span} {declarations : List Declaration} {phrase : Phrase Body} :
    ReadsAt s (unfinished start declarations) phrase := by
  have herrors : ∃ e, (unfinished start declarations s).2.errors = s.errors.push e := ⟨_, rfl⟩
  obtain ⟨e, herrors⟩ := herrors
  refine readsAt_of_grown ?_
  rw [herrors, Array.size_push]
  exact Nat.lt_succ_self _

/-- What may still follow declarations in a body. -/
def BodyAfter (inner : Phrase Body) (declarations : List Declaration) : Phrase Body :=
  fun xs body => ∀ ys, Repeated (Declared inner) ys declarations → Block inner (ys ++ xs) body

theorem readsAt_finished (inner : Phrase Body) {start : Span} {declarations : List Declaration}
    (hhead : s.tokens.head? = some (.keyword .returnWord)) :
    ReadsAt s (finished start declarations) (BodyAfter inner declarations) := by
  apply readsAt_advance hhead
  refine readsAt_attempt (reads_expr _) (fun e t => ?_) fun t => ?_
  · refine readsAt_pure_bind (readsAt_spanFrom (readsAt_pure ?_))
    intro xs h ys hdeclarations
    simpa using Block.mk hdeclarations h
  · exact ⟨Nat.le_refl _, nofun⟩

section

variable {nested : Reader Body} {inner : Phrase Body} (hnested : Reads nested inner)
include hnested

theorem reads_functionBodyWith : Reads (functionBodyWith nested) (FunctionBlock inner) := by
  intro s
  apply readsAt_peek
  split
  · apply readsAt_advance ‹_›
    refine (reads_expr _).bind fun e t => readsAt_pure ?_
    intro xs h
    simpa using FunctionBlock.expression h
  · apply readsAt_advance ‹_›
    refine (hnested _).bind fun body t => readsAt_mark fun t => readsAt_pure ?_
    intro xs h
    simpa using FunctionBlock.block h
  · exact readsAt_expected

theorem reads_functionDeclarationWith (start : Span) : Reads (functionDeclarationWith nested start)
    fun xs d => Declared inner (.keyword .defWord :: xs) d := by
  intro s
  apply readsAt_ident
  intro name nameSpan t
  refine (reads_generics t).bind fun names t => (reads_parameters t).bind fun ps t => ?_
  refine (reads_annotation? t).bind fun result t => (reads_functionBodyWith hnested t).bind fun body t => ?_
  refine readsAt_spanFrom (readsAt_pure ?_)
  intro ws hbody zs hresult ys hps xs hnames
  simpa using Declared.function hnames hps hresult hbody

theorem readsAt_declarationWith {k : Keyword} (hhead : s.tokens.head? = some (.keyword k))
    (hk : k.opensDeclaration = true) : ReadsAt s (declarationWith nested k) (Declared inner) := by
  apply readsAt_here
  apply readsAt_advance hhead
  cases k <;> try cases hk
  · exact reads_valueDeclaration inner _ _
  · exact reads_functionDeclarationWith hnested _ _
  · exact reads_externalDeclaration inner _ _
  · exact reads_aliasDeclaration inner _ _
  · exact reads_unionDeclaration inner _ _

theorem reads_bodyRestUpTo (start : Span) (count : Nat) (declarations : List Declaration) :
    Reads (bodyRestUpTo nested start count declarations) (BodyAfter inner declarations) := by
  induction count generalizing declarations with
  | zero => exact fun _ => readsAt_unfinished
  | succ count ih =>
      intro s
      apply readsAt_peek
      split
      · exact readsAt_unfinished
      · exact readsAt_unfinished
      · split
        · refine readsAt_attempt (readsAt_declarationWith hnested ‹_› ‹_›) (fun d t => ?_) fun t => ?_
          · refine (ih (declarations ++ [d]) t).mono fun xs body hbody ys hd zs hdeclarations => ?_
            simpa using hbody _ (hdeclarations.concat hd)
          · have hrecover : CarefulAt t recover := ⟨Nat.le_refl _, nofun⟩
            exact hrecover.bind fun _ u => (ih declarations u).toCarefulAt
        · split
          · rename_i hk
            subst hk
            exact readsAt_finished inner ‹_›
          · exact readsAt_passOver fun t => (ih declarations t).toCarefulAt
      · exact readsAt_passOver fun t => (ih declarations t).toCarefulAt

theorem reads_bodyWith : Reads (bodyWith nested) (Block inner) := by
  intro s
  apply readsAt_here
  apply readsAt_bounded
  exact (reads_bodyRestUpTo hnested _ _ [] s).mono fun xs body h => by simpa using h [] .none

end

theorem reads_bodyUpTo (depth : Nat) : Reads (bodyUpTo depth) BodyPhrase := by
  induction depth with
  | zero => exact fun _ => readsAt_here readsAt_unfinished
  | succ depth ih => exact fun s => (reads_bodyWith ih s).mono fun _ _ => .mk

theorem reads_body : Reads body BodyPhrase := fun s => readsAt_bounded (reads_bodyUpTo _ s)

end

/-! ## Completeness -/

section

variable {α β : Type} {s : State} {left : List Token → Prop} {xs ys : List Token} {limit : Nat}

/-- The tokens that stand behind a declaration: another one, or `return`. -/
def DeclarationEnd (xs : List Token) : Prop :=
  ∃ k, xs.head? = some (.keyword k) ∧ (k.opensDeclaration = true ∨ k = .returnWord)

theorem DeclarationEnd.open (h : DeclarationEnd xs) : Open (· = xs) := by
  obtain ⟨k, hhead, hk⟩ := h
  refine open_of_head hhead ?_
  rcases hk with hk | rfl
  · cases k <;> first | rfl | cases hk
  · rfl

theorem DeclarationEnd.typeOpen (h : DeclarationEnd xs) : TypeOpen (· = xs) := by
  obtain ⟨k, hhead, -⟩ := h
  exact typeOpen_eq (by simp [hhead]) (by simp [hhead])

theorem takes_alternative (hopen : TypeOpen left) : Takes limit alternative UnionEntry left := by
  intro s xs ys a hlimit hs h hys
  cases h with
  | @mk tag xs payload _ h =>
      apply givesAt_ident hs
      intro tagSpan t ht
      apply givesAt_mark ht
      intro u hu
      refine (takesType_type left hopen u xs ys payload (Nat.le_refl _) hu h hys).bind fun payload v _ hv => ?_
      exact givesAt_spanFrom (givesAt_pure hv)

theorem takes_valueDeclaration (start : Span) (hys : DeclarationEnd ys) : Takes limit (valueDeclaration start)
    (fun xs d => Declared BodyPhrase (.keyword .valWord :: xs) d) (· = ys) := by
  rintro s xs ys d hlimit hs h rfl
  cases h with
  | @value name xs zs type e _ _ htype hvalue =>
      have hs' : s.tokens = .ident name :: (xs ++ .mark .assign :: (zs ++ ys)) := by simpa using hs
      apply givesAt_ident hs'
      intro nameSpan t₁ h₁
      have hopen : TypeOpen (· = Token.mark .assign :: (zs ++ ys)) := typeOpen_of_head rfl nofun nofun
      refine (takes_annotation? hopen nofun t₁ xs _ type (Nat.le_refl _) h₁ htype rfl).bind
        fun type t₂ _ h₂ => ?_
      apply givesAt_mark h₂
      intro t₃ h₃
      refine (takesExpr_expr _ hys.open t₃ zs ys e (Nat.le_refl _) h₃ hvalue rfl).bind fun e t₄ _ h₄ => ?_
      exact givesAt_spanFrom (givesAt_pure h₄)

theorem takes_externalDeclaration (start : Span) (hys : DeclarationEnd ys) :
    Takes limit (externalDeclaration start)
      (fun xs d => Declared BodyPhrase (.keyword .externalWord :: xs) d) (· = ys) := by
  rintro s xs ys d hlimit hs h rfl
  cases h with
  | @external name xs zs ws names ps result _ _ hnames hps hresult =>
      have hs' : s.tokens = .keyword .defWord :: .ident name ::
          (xs ++ (zs ++ .mark .colon :: (ws ++ ys))) := by simpa using hs
      apply givesAt_keyword hs'
      intro t₁ h₁
      apply givesAt_ident h₁
      intro nameSpan t₂ h₂
      have hbracket := hps.head?_ne_bracket (.mark .colon :: (ws ++ ys))
      refine (takes_generics hbracket t₂ xs _ names (Nat.le_refl _) h₂ hnames rfl).bind fun names t₃ _ h₃ => ?_
      refine (takes_parameters t₃ zs _ ps (Nat.le_refl _) h₃ hps rfl).bind fun ps t₄ _ h₄ => ?_
      apply givesAt_mark h₄
      intro t₅ h₅
      refine (takesType_type _ hys.typeOpen t₅ ws ys result (Nat.le_refl _) h₅ hresult rfl).bind
        fun result t₆ _ h₆ => ?_
      exact givesAt_spanFrom (givesAt_pure h₆)

theorem takes_aliasDeclaration (start : Span) (hys : DeclarationEnd ys) : Takes limit (aliasDeclaration start)
    (fun xs d => Declared BodyPhrase (.keyword .typeWord :: xs) d) (· = ys) := by
  rintro s xs ys d hlimit hs h rfl
  cases h with
  | @typeAlias name xs zs names target _ _ hnames htarget =>
      have hs' : s.tokens = .ident name :: (xs ++ .mark .assign :: (zs ++ ys)) := by simpa using hs
      apply givesAt_ident hs'
      intro nameSpan t₁ h₁
      have hbracket : (Token.mark .assign :: (zs ++ ys)).head? ≠ some (.mark .leftBracket) := nofun
      refine (takes_generics hbracket t₁ xs _ names (Nat.le_refl _) h₁ hnames rfl).bind fun names t₂ _ h₂ => ?_
      apply givesAt_mark h₂
      intro t₃ h₃
      refine (takesType_type _ hys.typeOpen t₃ zs ys target (Nat.le_refl _) h₃ htarget rfl).bind
        fun target t₄ _ h₄ => ?_
      exact givesAt_spanFrom (givesAt_pure h₄)

theorem takes_unionDeclaration (start : Span) (hys : DeclarationEnd ys) : Takes limit (unionDeclaration start)
    (fun xs d => Declared BodyPhrase (.keyword .unionWord :: xs) d) (· = ys) := by
  rintro s xs ys d hlimit hs h rfl
  cases h with
  | @union name xs zs names alternatives _ _ hnames halternatives =>
      have hs' : s.tokens = .ident name :: (xs ++ .mark .assign :: (zs ++ ys)) := by simpa using hs
      apply givesAt_ident hs'
      intro nameSpan t₁ h₁
      have hbracket : (Token.mark .assign :: (zs ++ ys)).head? ≠ some (.mark .leftBracket) := nofun
      refine (takes_generics hbracket t₁ xs _ names (Nat.le_refl _) h₁ hnames rfl).bind fun names t₂ _ h₂ => ?_
      apply givesAt_mark h₂
      intro t₃ h₃
      have hitem : ∀ ws, ws = ys ∨ ws.head? = some (.mark .pipe) →
          Takes t₃.tokens.length alternative UnionEntry (· = ws) := by
        rintro ws (rfl | hws)
        · exact takes_alternative hys.typeOpen
        · exact takes_alternative (typeOpen_of_head hws nofun nofun)
      have hpipe : ys.head? ≠ some (.mark .pipe) := by
        obtain ⟨k, hhead, -⟩ := hys
        simp [hhead]
      refine (takes_separated hitem hpipe t₃ zs ys alternatives (Nat.le_refl _) h₃ halternatives rfl).bind
        fun alternatives t₄ _ h₄ => ?_
      exact givesAt_spanFrom (givesAt_pure h₄)

theorem declarationEnd_of_declared {d : Declaration} (h : Declared BodyPhrase xs d) : DeclarationEnd (xs ++ ys) := by
  cases h
  · exact ⟨.valWord, rfl, .inl rfl⟩
  · exact ⟨.defWord, rfl, .inl rfl⟩
  · exact ⟨.externalWord, rfl, .inl rfl⟩
  · exact ⟨.typeWord, rfl, .inl rfl⟩
  · exact ⟨.unionWord, rfl, .inl rfl⟩

theorem declarationEnd_of_repeated {declarations : List Declaration}
    (h : Repeated (Declared BodyPhrase) xs declarations) :
    DeclarationEnd (xs ++ .keyword .returnWord :: ys) := by
  cases h with
  | none => exact ⟨.returnWord, rfl, .inr rfl⟩
  | more h _ =>
      rw [List.append_assoc]
      exact declarationEnd_of_declared h

/-- The tokens that stand behind a body. -/
def BodyEnd (xs : List Token) : Prop := xs.head? = none ∨ xs.head? = some (.mark .rightBrace)

theorem BodyEnd.open (h : BodyEnd xs) : Open (· = xs) := by
  rcases h with h | h
  · exact open_eq fun t ht => by simp [h] at ht
  · exact open_of_head h rfl

theorem givesAt_attempt {r : Reader α} {next : Option α → Reader β} {after : List Token → Prop}
    (h : GivesAt s r left) (hnext : ∀ a t, left t.tokens → GivesAt t (next (some a)) after) :
    GivesAt s (attempt r >>= next) after := by
  have hattempt : GivesAt s (r >>= fun a => next (some a)) after := h.bind fun a t _ ht => hnext a t ht
  obtain ⟨a, t, hr, -⟩ := h
  refine hattempt.of_eq ?_
  simp only [run_bind, attempt, hr]

section

variable {nested : Reader Body} (hnested : ∀ {ys}, ys.head? = some (.mark .rightBrace) →
  Takes limit nested BodyPhrase (· = ys))
include hnested

theorem takes_functionBodyWith (hys : DeclarationEnd ys) :
    Takes (limit + 1) (functionBodyWith nested) (FunctionBlock BodyPhrase) (· = ys) := by
  rintro s xs zs body hlimit hs h rfl
  cases h with
  | @expression xs e _ h =>
      apply givesAt_peek_of_eq hs
      apply givesAt_advance hs
      intro t ht
      refine (takesExpr_expr _ hys.open t xs zs e (Nat.le_refl _) ht h rfl).bind fun e u _ hu => ?_
      exact givesAt_pure hu
  | @block xs body h =>
      have hs' : s.tokens = .mark .leftBrace :: (xs ++ .mark .rightBrace :: zs) := by simpa using hs
      apply givesAt_peek_of_eq hs'
      apply givesAt_advance hs'
      intro t ht
      have hlimit := length_tail_le_pred hs' hlimit ht
      refine (hnested rfl t xs _ body hlimit ht h rfl).bind fun body u _ hu => ?_
      apply givesAt_mark hu
      intro v hv
      exact givesAt_pure hv

theorem takes_functionDeclarationWith (start : Span) (hys : DeclarationEnd ys) :
    Takes (limit + 1) (functionDeclarationWith nested start)
      (fun xs d => Declared BodyPhrase (.keyword .defWord :: xs) d) (· = ys) := by
  rintro s xs ys d hlimit hs h rfl
  cases h with
  | @function name xs zs ws vs names ps result body _ _ hnames hps hresult hbody =>
      have hs' : s.tokens = .ident name :: (xs ++ (zs ++ (ws ++ (vs ++ ys)))) := by simpa using hs
      apply givesAt_ident hs'
      intro nameSpan t₁ h₁
      have hlimit := length_tail_le hs' hlimit h₁
      have hbracket := hps.head?_ne_bracket (ws ++ (vs ++ ys))
      refine (takes_generics hbracket t₁ xs _ names hlimit h₁ hnames rfl).bind fun names t₂ hle h₂ => ?_
      have hlimit := Nat.le_trans hle hlimit
      refine (takes_parameters t₂ zs _ ps hlimit h₂ hps rfl).bind fun ps t₃ hle h₃ => ?_
      have hlimit := Nat.le_trans hle hlimit
      obtain ⟨hopen, hcolon⟩ := hbody.behind ys
      refine (takes_annotation? hopen hcolon t₃ ws _ result hlimit h₃ hresult rfl).bind
        fun result t₄ hle h₄ => ?_
      have hlimit := Nat.le_trans hle hlimit
      refine (takes_functionBodyWith hnested hys t₄ vs ys body hlimit h₄ hbody rfl).bind fun body t₅ _ h₅ => ?_
      exact givesAt_spanFrom (givesAt_pure h₅)

/-- The keyword that a declaration starts with tells which reader takes it. -/
theorem givesAt_declarationWith (hys : DeclarationEnd ys) {d : Declaration} (h : Declared BodyPhrase xs d)
    (hlimit : s.tokens.length ≤ limit + 1) (hs : s.tokens = xs ++ ys) :
    ∃ k, s.tokens.head? = some (.keyword k) ∧ k.opensDeclaration = true ∧
      GivesAt s (declarationWith nested k) (· = ys) := by
  have hphrase := h
  cases h with
  | value =>
      refine ⟨.valWord, by rw [hs]; rfl, rfl, givesAt_here (givesAt_advance hs fun t ht => ?_)⟩
      exact takes_valueDeclaration _ hys t _ ys _ (length_tail_le hs hlimit ht) ht hphrase rfl
  | function =>
      refine ⟨.defWord, by rw [hs]; rfl, rfl, givesAt_here (givesAt_advance hs fun t ht => ?_)⟩
      exact takes_functionDeclarationWith hnested _ hys t _ ys _ (length_tail_le hs hlimit ht) ht hphrase rfl
  | external =>
      refine ⟨.externalWord, by rw [hs]; rfl, rfl, givesAt_here (givesAt_advance hs fun t ht => ?_)⟩
      exact takes_externalDeclaration _ hys t _ ys _ (length_tail_le hs hlimit ht) ht hphrase rfl
  | typeAlias =>
      refine ⟨.typeWord, by rw [hs]; rfl, rfl, givesAt_here (givesAt_advance hs fun t ht => ?_)⟩
      exact takes_aliasDeclaration _ hys t _ ys _ (length_tail_le hs hlimit ht) ht hphrase rfl
  | union =>
      refine ⟨.unionWord, by rw [hs]; rfl, rfl, givesAt_here (givesAt_advance hs fun t ht => ?_)⟩
      exact takes_unionDeclaration _ hys t _ ys _ (length_tail_le hs hlimit ht) ht hphrase rfl

theorem givesAt_bodyRestUpTo {start : Span} {zs : List Token} {read declarations : List Declaration}
    {result : Expr} (hys : BodyEnd ys) (hdeclarations : Repeated (Declared BodyPhrase) xs declarations)
    (hresult : ExprPhrase zs result) {count : Nat} (hcount : s.tokens.length ≤ count)
    (hlimit : s.tokens.length ≤ limit + 1) (hs : s.tokens = xs ++ .keyword .returnWord :: (zs ++ ys)) :
    GivesAt s (bodyRestUpTo nested start count read) (· = ys) := by
  induction hdeclarations generalizing s count read with
  | none =>
      obtain ⟨count, rfl⟩ := count_eq_succ hs hcount
      have hfinished : GivesAt s (finished start read) (· = ys) := by
        apply givesAt_advance hs
        intro t ht
        have hexpr := takesExpr_expr _ hys.open t zs ys result (Nat.le_refl _) ht hresult rfl
        refine givesAt_attempt hexpr fun e u hu => ?_
        exact givesAt_pure_bind (givesAt_spanFrom (givesAt_pure hu))
      exact givesAt_peek_of_eq hs hfinished
  | @more words rest d declarations h hrest ih =>
      have hs' : s.tokens = words ++ (rest ++ .keyword .returnWord :: (zs ++ ys)) := by simpa using hs
      obtain ⟨k, hhead, hk, hgives⟩ :=
        givesAt_declarationWith hnested (declarationEnd_of_repeated hrest) h hlimit hs'
      obtain ⟨others, hothers⟩ := List.head?_eq_some_iff.mp hhead
      have hwords : 0 < words.length := List.length_pos_iff.mpr h.ne_nil
      have hlength := congrArg List.length hs'
      rw [List.length_append] at hlength
      obtain ⟨count, rfl⟩ := @count_eq_succ s [] others _ count hothers hcount
      apply givesAt_peek_of_eq hothers
      simp only [hk, if_true]
      refine givesAt_attempt hgives fun d t ht => ?_
      rw [← ht] at hlength
      exact ih (by omega) (by omega) ht

theorem takes_bodyWith (hys : BodyEnd ys) : Takes (limit + 1) (bodyWith nested) (Block BodyPhrase) (· = ys) := by
  rintro s xs zs body hlimit hs h rfl
  cases h with
  | @mk xs ws declarations result _ hdeclarations hresult =>
      have hs' : s.tokens = xs ++ .keyword .returnWord :: (ws ++ zs) := by simpa using hs
      apply givesAt_here
      apply givesAt_bounded
      exact givesAt_bodyRestUpTo hnested hys hdeclarations hresult (Nat.le_refl _) hlimit hs'

end

theorem takes_bodyUpTo (depth : Nat) (hys : BodyEnd ys) :
    Takes depth (bodyUpTo depth) BodyPhrase (· = ys) := by
  induction depth generalizing ys with
  | zero =>
      rintro s xs zs body hlimit hs ⟨⟨h, -⟩⟩ -
      simp [hs] at hlimit
  | succ depth ih =>
      rintro s xs zs body hlimit hs ⟨h⟩ rfl
      exact takes_bodyWith (fun hys => ih (.inr hys)) hys s xs zs body hlimit hs h rfl

/-- The bodies around any part are counted by the tokens, and so are the steps. -/
theorem run_body {depth : Nat} (h : s.tokens.length = depth + 1) :
    body s = bodyRestUpTo (bodyUpTo depth) s.here (depth + 1) [] s := by
  rw [← State.length_rest] at h
  rw [body, bounded, h]
  change bodyRestUpTo (bodyUpTo depth) s.here s.rest.length [] s = _
  rw [h]

theorem takes_body (hys : BodyEnd ys) : Takes limit body BodyPhrase (· = ys) := by
  rintro s xs zs b - hs h rfl
  exact givesAt_bounded (takes_bodyUpTo _ hys s xs zs b (Nat.le_refl _) hs h rfl)

end

end Sable.Reader
