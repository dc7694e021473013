import Mathlib.Data.List.Forall2
import Sable.Proofs.Reader.Balanced
import Sable.Proofs.Reader.Program

/-! What a malformed value costs the rest of a program.

A body is read in steps, each of which leaves fewer tokens. A well-formed declaration is one step. A value that cannot
be read is one step, or two where an expression was read and tokens are left behind it; these end in front of the next
declaration, or at a closing brace. There the body ends, and what follows is lost. -/
namespace Sable

open Grammar Token

namespace Reader

variable {nested : Reader Body} {start : Span} {s t u : State} {before after final : List Declaration}
  {xs ys : List Token} {depth : Nat}

/-- Reading a body comes from the state `s` with the declarations `before` to the state `t` with the declarations
`after`. As many steps as there are tokens are enough, here and there. -/
def Passes (nested : Reader Body) (start : Span) (s : State) (before : List Declaration) (t : State)
    (after : List Declaration) : Prop :=
  ∀ count, s.tokens.length ≤ count → ∃ left, t.tokens.length ≤ left ∧
    bodyRestUpTo nested start count before s = bodyRestUpTo nested start left after t

theorem Passes.refl : Passes nested start s before s before := fun count hcount => ⟨count, hcount, rfl⟩

theorem Passes.trans (h : Passes nested start s before t after) (h' : Passes nested start t after u final) :
    Passes nested start s before u final := by
  intro count hcount
  obtain ⟨left, hleft, hrun⟩ := h count hcount
  obtain ⟨left', hleft', hrun'⟩ := h' left hleft
  exact ⟨left', hleft', hrun.trans hrun'⟩

theorem Passes.of_step (hlength : t.tokens.length < s.tokens.length)
    (hstep : ∀ count, bodyRestUpTo nested start (count + 1) before s = bodyRestUpTo nested start count after t) :
    Passes nested start s before t after := by
  intro count hcount
  obtain ⟨left, rfl⟩ : ∃ left, count = left + 1 := Nat.exists_eq_add_one.mpr (by omega)
  exact ⟨left, by omega, hstep left⟩

/-! ## Steps -/

theorem run_peek (s : State) : peek s = (some s.tokens.head?, s) := by
  rw [State.tokens, List.head?_map]
  rfl

section

variable {k : Keyword} (hs : s.tokens = .keyword k :: xs) (hk : k.opensDeclaration = true)
include hs hk

theorem passes_declaration {d : Declaration} (hd : declarationWith nested k s = (some d, t))
    (hlength : t.tokens.length < s.tokens.length) : Passes nested start s before t (before ++ [d]) := by
  refine .of_step hlength fun count => ?_
  rw [bodyRestUpTo, run_bind, run_peek, hs]
  simp only [List.head?_cons, hk, if_true]
  rw [run_bind, attempt, hd]

theorem passes_recover (hd : declarationWith nested k s = (none, t)) (hu : recover t = (some (), u))
    (hlength : u.tokens.length < s.tokens.length) : Passes nested start s before u before := by
  refine .of_step hlength fun count => ?_
  have hrecover : (recover t).2 = u := congrArg Prod.snd hu
  rw [bodyRestUpTo, run_bind, run_peek, hs]
  simp only [List.head?_cons, hk, if_true]
  rw [run_bind, attempt, hd, ← hrecover]
  rfl

end

theorem passes_passOver {x : Token} (hs : s.tokens = x :: xs) (hpart : x.beginsPart = false)
    (hbrace : x ≠ .mark .rightBrace) (ht : passOver s = (some (), t)) (hlength : t.tokens.length < s.tokens.length) :
    Passes nested start s before t before := by
  refine .of_step hlength fun count => ?_
  have hpass : bodyRestUpTo nested start (count + 1) before s =
      (passOver >>= fun _ => bodyRestUpTo nested start count before) s := by
    rw [bodyRestUpTo, run_bind, run_peek, hs, List.head?_cons]
    cases x with
    | mark p => cases p <;> first | rfl | exact absurd rfl hbrace
    | keyword k =>
        have hk : k.opensDeclaration = false ∧ k ≠ .returnWord := by simpa [beginsPart] using hpart
        simp only [hk, Bool.false_eq_true, if_false]
    | _ => rfl
  rw [hpass, run_bind, ht]

/-! ## Well-formed declarations -/

theorem declarationEnd_flatten {xss : List (List Token)} (h : ∀ xs ∈ xss, ∃ d, Declared BodyPhrase xs d)
    (hys : DeclarationEnd ys) : DeclarationEnd (xss.flatten ++ ys) := by
  cases xss with
  | nil => exact hys
  | cons xs xss =>
      obtain ⟨d, hd⟩ := h xs (.head _)
      rw [List.flatten_cons, List.append_assoc]
      exact declarationEnd_of_declared hd

theorem exists_passes_declared (hys : DeclarationEnd ys) (h : ∃ d, Declared BodyPhrase xs d)
    (hdepth : s.tokens.length ≤ depth + 1) (hs : s.tokens = xs ++ ys) (start : Span) (before : List Declaration) :
    ∃ d t, Declared BodyPhrase xs d ∧ t.tokens = ys ∧
      Passes (bodyUpTo depth) start s before t (before ++ [d]) := by
  obtain ⟨d, hd⟩ := h
  obtain ⟨k, hhead, hk, d', t, hrun, herrors, -, ht⟩ :=
    givesAt_declarationWith (fun hys => takes_bodyUpTo depth (.inr hys)) hys hd hdepth hs
  have hread := (readsAt_declarationWith (reads_bodyUpTo depth) hhead hk).read
  rw [hrun] at hread
  obtain ⟨words, hwords, hd'⟩ := hread d' rfl (by rw [herrors])
  obtain rfl : xs = words := by
    rw [ht, hs] at hwords
    exact List.append_cancel_right hwords
  obtain ⟨rest, hrest⟩ := List.head?_eq_some_iff.mp hhead
  refine ⟨d', t, hd', ht, passes_declaration hrest hk hrun ?_⟩
  rw [hs, ht, List.length_append]
  exact Nat.lt_add_of_pos_left (List.length_pos_iff.mpr hd.ne_nil)

/-- Well-formed declarations are read one after the other. -/
theorem exists_passes_declarations {xss : List (List Token)} (h : ∀ xs ∈ xss, ∃ d, Declared BodyPhrase xs d)
    (hys : DeclarationEnd ys) (hdepth : s.tokens.length ≤ depth + 1) (hs : s.tokens = xss.flatten ++ ys)
    (start : Span) (before : List Declaration) :
    ∃ ds t, List.Forall₂ (Declared BodyPhrase) xss ds ∧ t.tokens = ys ∧
      Passes (bodyUpTo depth) start s before t (before ++ ds) := by
  induction xss generalizing s before with
  | nil => exact ⟨[], s, .nil, hs, by rw [List.append_nil]; exact .refl⟩
  | cons xs xss ih =>
      obtain ⟨hfirst, hrest⟩ := List.forall_mem_cons.mp h
      rw [List.flatten_cons, List.append_assoc] at hs
      obtain ⟨d, t, hd, ht, hpass⟩ :=
        exists_passes_declared (declarationEnd_flatten hrest hys) hfirst hdepth hs start before
      have hlength : t.tokens.length ≤ s.tokens.length := by
        rw [hs, ht]
        simp only [List.length_append]
        omega
      obtain ⟨ds, u, hds, hu, hpass'⟩ := ih hrest (Nat.le_trans hlength hdepth) ht (before ++ [d])
      refine ⟨d :: ds, u, .cons hd hds, hu, ?_⟩
      rw [List.append_assoc] at hpass'
      exact hpass.trans hpass'

/-! ## A malformed value -/

/-- Nothing, or one value called `name`. -/
def AtMostValue (name : String) (ds : List Declaration) : Prop :=
  ds = [] ∨ ∃ span nameSpan value, ds = [.value span ⟨name, nameSpan⟩ none value]

theorem run_declarationWith_value {name : String}
    (hs : s.tokens = .keyword .valWord :: .ident name :: .mark .assign :: xs) :
    ∃ nameSpan u, u.tokens = xs ∧ declarationWith nested .valWord s = match expr u with
      | (some value, t) => (some (.value (s.here.merge t.previous) ⟨name, nameSpan⟩ none value), t)
      | (none, t) => (none, t) := by
  have hname := State.tokens_advance_of_eq hs
  have hassign := State.tokens_advance_of_eq hname
  have hannotation : annotation? s.advance.advance = (some none, s.advance.advance) := by
    rw [annotation?, run_bind, mark?, run_token?_of_ne (by simp [hassign])]
    rfl
  have hmark : mark .assign s.advance.advance = (some (), s.advance.advance.advance) := by
    rw [mark, Reader.token, run_bind, run_token?_of_eq (by simp [hassign])]
    rfl
  refine ⟨s.advance.here, s.advance.advance.advance, State.tokens_advance_of_eq hassign, ?_⟩
  have hrun : declarationWith nested .valWord s = valueDeclaration s.here s.advance := rfl
  simp only [hrun, valueDeclaration, run_bind, run_ident hname, hannotation, hmark]
  match expr s.advance.advance.advance with
  | (some value, t) => rfl
  | (none, t) => rfl

/-- An expression that begins in front of the next declaration is read, or left with an error, in front of it. -/
theorem exists_left_expr (hys : DeclarationEnd ys) (hs : s.tokens = xs ++ ys) :
    ∃ taken left, xs = taken ++ left ∧ (expr s).2.tokens = left ++ ys := by
  obtain ⟨taken, htokens, htaken⟩ := spares_expr s
  rw [hs] at htokens
  rcases List.append_eq_append_iff.mp htokens with ⟨more, rfl, hmore⟩ | ⟨left, hxs, hleft⟩
  · obtain ⟨y, rest, rfl, hy⟩ := hys.exists_cons
    cases more with
    | nil =>
        rw [List.nil_append] at hmore
        exact ⟨xs, [], (List.append_nil xs).symm, hmore.symm⟩
    | cons x more =>
        -- The next declaration would begin among the tokens taken.
        obtain ⟨rfl, -⟩ := List.cons.inj hmore
        have hspared := htaken y (List.mem_append_right _ (.head _))
        exact absurd (hy.symm.trans hspared) (by decide)
  · exact ⟨taken, left, hxs, hleft⟩

theorem run_passOver {x : Token} (hs : s.tokens = x :: xs) : ∃ t, t.tokens = xs ∧ passOver s = recover t :=
  ⟨_, State.tokens_advance_of_eq (s := (report (.expected .declaration) s).2) hs, rfl⟩

/-- What is left behind an expression is passed over, up to a closing brace. -/
theorem exists_passes_left {left : List Token} (hjunk : Balanced (xs ++ left))
    (hparts : ∀ t ∈ left, t.beginsPart = false) (hys : DeclarationEnd ys) (hs : s.tokens = left ++ ys)
    (nested : Reader Body) (start : Span) (before : List Declaration) :
    ∃ t, Passes nested start s before t before ∧
      (t.tokens = ys ∨ t.tokens.head? = some (.mark .rightBrace) ∧ .mark .rightBrace ∈ left) := by
  cases left with
  | nil => exact ⟨s, .refl, .inl hs⟩
  | cons x left =>
      by_cases hbrace : x = .mark .rightBrace
      · subst hbrace
        exact ⟨s, .refl, .inr ⟨congrArg List.head? hs, .head _⟩⟩
      · obtain ⟨hx, hparts⟩ := List.forall_mem_cons.mp hparts
        have hclosing : Closing left := by
          rw [← List.singleton_append, ← List.append_assoc] at hjunk
          exact hjunk.closing_of_append
        obtain ⟨t, ht, hpass⟩ := run_passOver hs
        obtain ⟨u, hu, hut, hend⟩ := exists_recover hclosing hparts hys ht
        have hlength : u.tokens.length < s.tokens.length := by
          rw [ht] at hut
          rw [hs]
          exact Nat.lt_succ_of_le hut
        refine ⟨u, passes_passOver hs hx hbrace (hpass.trans hu) hlength, ?_⟩
        exact hend.imp_right fun ⟨hhead, hmem⟩ => ⟨hhead, .tail _ hmem⟩

section

variable {name : String} {junk : List Token} (hys : DeclarationEnd ys)
  (hs : s.tokens = .keyword .valWord :: .ident name :: .mark .assign :: (junk ++ ys))
include hys hs

theorem exists_passes_expression (hjunk : ∃ e, ExprPhrase junk e) (nested : Reader Body) (start : Span)
    (before : List Declaration) :
    ∃ ds t, AtMostValue name ds ∧ Passes nested start s before t (before ++ ds) ∧ t.tokens = ys := by
  obtain ⟨nameSpan, u, hu, hrun⟩ := @run_declarationWith_value nested s _ name hs
  obtain ⟨e, he⟩ := hjunk
  obtain ⟨value, t, hexpr, -, -, ht⟩ := takesExpr_expr _ hys.open u junk ys e (Nat.le_refl _) hu he rfl
  rw [hexpr] at hrun
  have hlength : t.tokens.length < s.tokens.length := by
    rw [ht, hs]
    simp only [List.length_cons, List.length_append]
    omega
  exact ⟨_, t, .inr ⟨_, _, _, rfl⟩, passes_declaration hs rfl hrun hlength, ht⟩

theorem exists_passes_malformed (hjunk : Balanced junk) (hparts : ∀ t ∈ junk, t.beginsPart = false)
    (nested : Reader Body) (start : Span) (before : List Declaration) :
    ∃ ds t, AtMostValue name ds ∧ Passes nested start s before t (before ++ ds) ∧
      (t.tokens = ys ∨ t.tokens.head? = some (.mark .rightBrace) ∧ .mark .rightBrace ∈ junk) := by
  obtain ⟨nameSpan, u, hu, hrun⟩ := @run_declarationWith_value nested s _ name hs
  obtain ⟨taken, left, rfl, hleft⟩ := exists_left_expr hys hu
  obtain ⟨-, hpartsLeft⟩ := List.forall_mem_append.mp hparts
  have hlength : (expr u).2.tokens.length < s.tokens.length := by
    rw [hleft, hs]
    simp only [List.length_cons, List.length_append]
    omega
  have hmem : Token.mark .rightBrace ∈ left → Token.mark .rightBrace ∈ taken ++ left := List.mem_append_right _
  match hexpr : expr u with
  | (none, t) =>
      rw [hexpr] at hrun hleft hlength
      obtain ⟨v, hv, hvt, hend⟩ := exists_recover hjunk.closing_of_append hpartsLeft hys hleft
      have hpass := @passes_recover nested start s t v before _ _ hs rfl hrun hv (Nat.lt_of_le_of_lt hvt hlength)
      refine ⟨[], v, .inl rfl, ?_, hend.imp_right (And.imp_right hmem)⟩
      rw [List.append_nil]
      exact hpass
  | (some value, t) =>
      rw [hexpr] at hrun hleft hlength
      let d : Declaration := .value (s.here.merge t.previous) ⟨name, nameSpan⟩ none value
      have hvalue : Passes nested start s before t (before ++ [d]) := passes_declaration hs rfl hrun hlength
      obtain ⟨v, hpass, hend⟩ := exists_passes_left hjunk hpartsLeft hys hleft nested start (before ++ [d])
      exact ⟨[d], v, .inr ⟨_, _, _, rfl⟩, hvalue.trans hpass, hend.imp_right (And.imp_right hmem)⟩

/-- Reading goes on behind a value called `name` that may be malformed, with the value or without it; or it comes to a
closing brace in what should be an expression. -/
theorem exists_passes_value (hjunk : Balanced junk) (hparts : ∀ t ∈ junk, t.beginsPart = false)
    (nested : Reader Body) (start : Span) (before : List Declaration) :
    ∃ ds t, AtMostValue name ds ∧ Passes nested start s before t (before ++ ds) ∧
      (t.tokens = ys ∨ t.tokens.head? = some (.mark .rightBrace) ∧ .mark .rightBrace ∈ junk ∧
        ¬∃ e, ExprPhrase junk e) := by
  by_cases hphrase : ∃ e, ExprPhrase junk e
  · obtain ⟨ds, t, hds, hpass, ht⟩ := exists_passes_expression hys hs hphrase nested start before
    exact ⟨ds, t, hds, hpass, .inl ht⟩
  · obtain ⟨ds, t, hds, hpass, hend⟩ := exists_passes_malformed hys hs hjunk hparts nested start before
    exact ⟨ds, t, hds, hpass, hend.imp_right fun ⟨hhead, hmem⟩ => ⟨hhead, hmem, hphrase⟩⟩

end

/-! ## The end of a body -/

theorem exists_bodyRestUpTo_return (hresult : ∃ e, ExprPhrase xs e) (hs : s.tokens = .keyword .returnWord :: xs)
    {count : Nat} (hcount : s.tokens.length ≤ count) :
    ∃ result span t, bodyRestUpTo nested start count before s = (some (.mk before result span), t) ∧
      ExprPhrase xs result := by
  obtain ⟨e, he⟩ := hresult
  have hend : BodyEnd [] := .inl rfl
  have hadvance := State.tokens_advance_of_eq hs
  obtain ⟨result, t, hexpr, herrors, -, ht⟩ := takesExpr_expr _ hend.open s.advance xs [] e (Nat.le_refl _)
    (by rw [hadvance, List.append_nil]) he rfl
  have hread := (reads_expr s.advance).read
  rw [hexpr] at hread
  obtain ⟨words, hwords, hphrase⟩ := hread result rfl (by rw [herrors])
  rw [hadvance, ht, List.append_nil] at hwords
  obtain ⟨left, rfl⟩ : ∃ left, count = left + 1 := Nat.exists_eq_add_one.mpr (by simp [hs] at hcount; omega)
  have hfinished : bodyRestUpTo nested start (left + 1) before s = finished start before s := by
    rw [bodyRestUpTo, run_bind, run_peek, hs]
    rfl
  refine ⟨result, start.merge t.previous, t, ?_, hwords ▸ hphrase⟩
  simp only [hfinished, finished, run_bind, advance, attempt, hexpr]
  rfl

/-- A body ends at a closing brace, and something stands in for its result. -/
theorem exists_bodyRestUpTo_brace (hs : s.tokens.head? = some (.mark .rightBrace)) (count : Nat) :
    ∃ site span t, bodyRestUpTo nested start count before s = (some (.mk before (.null site) span), t) := by
  cases count with
  | zero => exact ⟨_, _, _, rfl⟩
  | succ count =>
      have hunfinished : bodyRestUpTo nested start (count + 1) before s = unfinished start before s := by
        rw [bodyRestUpTo, run_bind, run_peek, hs]
      exact ⟨_, _, _, hunfinished⟩

end Reader

open Reader

/-! ## Programs -/

/-- The body has a declaration for each of `pre` and of `post`, in order, with nothing but a value called `name` in
between, and its result is that of `words`. -/
def Body.Recovered (pre : List (List Token)) (name : String) (post : List (List Token)) (words : List Token)
    (b : Body) : Prop :=
  ∃ before middle after, List.Forall₂ (Declared BodyPhrase) pre before ∧ AtMostValue name middle ∧
    List.Forall₂ (Declared BodyPhrase) post after ∧ b.declarations = before ++ middle ++ after ∧
    ExprPhrase words b.result

/-- The body ends behind the declarations of `pre` and the value called `name`, or before that value; it has no result
of its own. -/
def Body.CutShort (pre : List (List Token)) (name : String) (b : Body) : Prop :=
  ∃ before middle site, List.Forall₂ (Declared BodyPhrase) pre before ∧ AtMostValue name middle ∧
    b.declarations = before ++ middle ∧ b.result = .null site

section

variable {pre post : List (List Token)} {name : String} {junk words : List Token}
  (hpre : ∀ xs ∈ pre, ∃ d, Declared BodyPhrase xs d) (hpost : ∀ xs ∈ post, ∃ d, Declared BodyPhrase xs d)
  (hresult : ∃ e, ExprPhrase words e) (hjunk : Balanced junk) (hparts : ∀ t ∈ junk, t.beginsPart = false)
include hpre hpost hresult hjunk hparts

theorem Reader.exists_body_value {s : State} (hs : s.tokens = pre.flatten ++ .keyword .valWord :: .ident name ::
      .mark .assign :: (junk ++ (post.flatten ++ .keyword .returnWord :: words))) :
    ∃ b t, body s = (some b, t) ∧ (b.Recovered pre name post words ∨
      b.CutShort pre name ∧ .mark .rightBrace ∈ junk ∧ ¬∃ e, ExprPhrase junk e) := by
  obtain ⟨depth, hdepth⟩ : ∃ depth, s.tokens.length = depth + 1 :=
    Nat.exists_eq_add_one.mpr (by simp only [hs, List.length_append, List.length_cons]; omega)
  have hreturn : DeclarationEnd (.keyword .returnWord :: words) := ⟨.returnWord, rfl, .inr rfl⟩
  have hbehind := declarationEnd_flatten hpost hreturn
  obtain ⟨before, t, hbefore, ht, hpassBefore⟩ :=
    exists_passes_declarations hpre ⟨.valWord, rfl, .inl rfl⟩ (Nat.le_of_eq hdepth) hs s.here []
  obtain ⟨middle, u, hmiddle, hpassMiddle, hend⟩ :=
    exists_passes_value hbehind ht hjunk hparts (bodyUpTo depth) s.here ([] ++ before)
  have hpass := hpassBefore.trans hpassMiddle
  rw [List.nil_append] at hpass
  rw [run_body hdepth]
  rcases hend with hu | ⟨hbrace, hmem, hno⟩
  · have hlimit : u.tokens.length ≤ depth + 1 := by
      rw [← hdepth, hs, hu]
      simp only [List.length_append, List.length_cons]
      omega
    obtain ⟨after, v, hafter, hv, hpassAfter⟩ :=
      exists_passes_declarations hpost hreturn hlimit hu s.here (before ++ middle)
    obtain ⟨left, hleft, hrun⟩ := (hpass.trans hpassAfter) (depth + 1) (Nat.le_of_eq hdepth)
    obtain ⟨result, span, w, hfinal, hphrase⟩ := exists_bodyRestUpTo_return hresult hv hleft
    exact ⟨_, w, hrun.trans hfinal, .inl ⟨before, middle, after, hbefore, hmiddle, hafter, rfl, hphrase⟩⟩
  · obtain ⟨left, -, hrun⟩ := hpass (depth + 1) (Nat.le_of_eq hdepth)
    obtain ⟨site, span, w, hfinal⟩ := exists_bodyRestUpTo_brace hbrace left
    exact ⟨_, w, hrun.trans hfinal, .inr ⟨⟨before, middle, site, hbefore, hmiddle, rfl, rfl⟩, hmem, hno⟩⟩

/-- A malformed value costs only itself, unless there is a closing brace in it: then the rest of the program may be
lost with it. -/
theorem Parse.recovered_or_cutShort {tokens : List (Spanned Token)} (htokens : tokens.map (·.value) = pre.flatten ++
      .keyword .valWord :: .ident name :: .mark .assign ::
        (junk ++ (post.flatten ++ .keyword .returnWord :: words))) :
    (ofTokens tokens).tree.body.Recovered pre name post words ∨
      (ofTokens tokens).tree.body.CutShort pre name ∧ .mark .rightBrace ∈ junk ∧ ¬∃ e, ExprPhrase junk e := by
  obtain ⟨b, t, hbody, hb⟩ := exists_body_value (s := .start tokens) hpre hpost hresult hjunk hparts htokens
  have hprogram : (program (.start tokens)).1 = some b := by
    rw [run_program, hbody]
    simp only
    split <;> rfl
  rw [body_ofTokens hprogram]
  exact hb

end

theorem exprPhrase_of_primary {xs : List Token} {e : Expr} (h : Primary ExprPhrase xs e) : ExprPhrase xs e :=
  .mk (.operand (.operand (.operand (.operand (.operand (.operand (.operand (.primary h))))))))

/-- The tokens of `val y = null`. -/
def nullValue : List Token := [.keyword .valWord, .ident "y", .mark .assign, .keyword .nullWord]

theorem declared_nullValue : ∃ d, Declared BodyPhrase nullValue d :=
  ⟨.value .none ⟨"y", .none⟩ none (.null default), .value .none (exprPhrase_of_primary .null)⟩

theorem exprPhrase_ident (name : String) : ∃ e, ExprPhrase [.ident name] e :=
  ⟨.reference default name, exprPhrase_of_primary .reference⟩

/-- Behind parentheses that are no expression reading goes on. -/
theorem Parse.recovered_or_cutShort_parens :
    (∀ xs ∈ [nullValue], ∃ d, Declared BodyPhrase xs d) ∧
      Balanced [.mark .leftParen, .ident "a", .ident "b", .mark .rightParen] ∧
      (ofTokens (scan "val x = (a b) val y = null return y").tokens).tree.body.Recovered [] "x" [nullValue]
        [.ident "y"] := by
  have hpost : ∀ xs ∈ [nullValue], ∃ d, Declared BodyPhrase xs d := List.forall_mem_singleton.mpr declared_nullValue
  have hjunk : Balanced [.mark .leftParen, .ident "a", .ident "b", .mark .rightParen] :=
    .pair .parens (.plain rfl (.plain rfl .nil)) .nil
  have htokens : (scan "val x = (a b) val y = null return y").tokens.map (·.value) = [].flatten ++
      .keyword .valWord :: .ident "x" :: .mark .assign :: ([.mark .leftParen, .ident "a", .ident "b",
        .mark .rightParen] ++ ([nullValue].flatten ++ .keyword .returnWord :: [.ident "y"])) := by
    rw [scan, String.toList_ofList]
    decide +kernel
  refine ⟨hpost, hjunk, ?_⟩
  have hend := Parse.recovered_or_cutShort (by simp) hpost (exprPhrase_ident "y") hjunk (by decide) htokens
  exact hend.resolve_right fun h => absurd h.2.1 (by decide)

/-- Behind braces that are no expression nothing is read. -/
theorem Parse.not_recovered_braces :
    (∃ d, Declared BodyPhrase nullValue d) ∧ (∃ e, ExprPhrase [.ident "y"] e) ∧
      Balanced [.mark .leftBrace, .ident "y", .mark .rightBrace] ∧
      (∀ t ∈ [Token.mark .leftBrace, .ident "y", .mark .rightBrace], t.beginsPart = false) ∧
      (scan "val x = { y } val y = null return y").tokens.map (·.value) = .keyword .valWord :: .ident "x" ::
        .mark .assign :: ([.mark .leftBrace, .ident "y", .mark .rightBrace] ++
          ([nullValue].flatten ++ [.keyword .returnWord, .ident "y"])) ∧
      ¬(ofTokens (scan "val x = { y } val y = null return y").tokens).tree.body.Recovered [] "x" [nullValue]
        [.ident "y"] := by
  refine ⟨declared_nullValue, exprPhrase_ident "y", .pair .braces (.plain rfl .nil) .nil, by decide, ?_, ?_⟩
  · rw [scan, String.toList_ofList]
    decide +kernel
  · rintro ⟨before, middle, after, -, -, hafter, hdeclarations, -⟩
    have hnone : (ofTokens (scan "val x = { y } val y = null return y").tokens).tree.body.declarations.length = 0 := by
      rw [scan, String.toList_ofList]
      decide +kernel
    have hone := hafter.length_eq
    rw [hdeclarations, List.length_append, ← hone, List.length_singleton] at hnone
    omega

end Sable
