import Sable.Proofs.Prelude.Text
import Sable.Proofs.Reader.MovedBodies
import Sable.Proofs.Reader.Program
import Sable.Proofs.Reader.Spelled

/-! Reading a text behind the prelude.

The last declaration of the prelude ends in a type. A type goes on with a question mark, and its name with a
bracket; a text that begins with anything else is read as it is by itself. -/
namespace Sable

open Token

/-- The declaration is that of the builtin in the prelude. -/
def Builtin.DeclaredBy (b : Builtin) (d : Declaration) : Prop :=
  ∃ ps result span name names parameters type,
    b.type? (Prelude.typeVariables b) = some (.function (Prelude.typeVariables b) ps result) ∧
    d = .external span name names parameters type ∧ name.value = b.name ∧
    names.map (·.value) = (Prelude.typeVariables b).map (·.name) ∧
    Ty.ParametersSpelledBy ps parameters ∧ result.SpelledBy type

namespace Reader

variable {s : State} {ys : List Token}

theorem readsBack_type (limit : Nat) : ReadsBack limit type := fun a scope ha _ ys _ hs hbracket hquestion =>
  returnsAt_bounded (readsBack_typeUpTo _ a scope ha _ ys (Nat.le_refl _) hs hbracket hquestion)

/-- What the type at the end of a declaration does not take up. -/
def EndsType (ys : List Token) : Prop :=
  ys.head? ≠ some (.mark .leftBracket) ∧ ys.head? ≠ some (.mark .question)

theorem exists_type?_prelude (b : Builtin) : ∃ ps result,
    b.type? (Prelude.typeVariables b) = some (.function (Prelude.typeVariables b) ps result) ∧
    Ty.writableParameters (Prelude.typeVariables b) ps = true ∧
    result.writable (Prelude.typeVariables b) = true := by
  cases b <;> exact ⟨_, _, rfl, by decide, by decide⟩

theorem exists_tokens_eq (b : Builtin) : ∃ rest, Prelude.tokens b = .keyword .externalWord :: rest := by
  cases b <;> exact ⟨_, rfl⟩

theorem length_le_length_tokens (bs : List Builtin) : bs.length ≤ (bs.flatMap Prelude.tokens).length := by
  induction bs with
  | nil => exact Nat.le_refl _
  | cons b bs ih =>
      obtain ⟨rest, hrest⟩ := exists_tokens_eq b
      rw [List.flatMap_cons, List.length_append, hrest, List.length_cons, List.length_cons]
      omega

theorem returnsAt_keyword {β : Type} {k : Keyword} {xs : List Token} {next : Unit → Reader β} {good : β → Prop}
    (hs : s.tokens = .keyword k :: xs) (h : ∀ u, u.tokens = xs → ReturnsAt u (next ()) good ys) :
    ReturnsAt s (keyword k >>= next) good ys := by
  have hkeyword : ReturnsAt s (keyword k) (fun _ => True) xs :=
    returnsAt_token?_of_eq hs fun u hu => returnsAt_pure trivial hu
  exact hkeyword.bind fun _ u _ hu => h u hu

theorem returnsAt_externalDeclaration {b : Builtin} (start : Span) (hys : EndsType ys)
    (hs : .keyword .externalWord :: s.tokens = Prelude.tokens b ++ ys) :
    ReturnsAt s (externalDeclaration start) b.DeclaredBy ys := by
  obtain ⟨ps, result, htype, hps, hresult⟩ := exists_type?_prelude b
  have hs' : s.tokens = .keyword .defWord :: .ident b.name :: (Ty.variableTokens (Prelude.typeVariables b) ++
      (Ty.parametersTokens ps ++ .mark .colon :: (result.tokens ++ ys))) := by
    simpa [Prelude.tokens, htype] using hs
  apply returnsAt_keyword hs'
  intro t ht
  refine (returnsAt_ident ht).bind fun name u hname hu => ?_
  have hparen : (Ty.parametersTokens ps ++ .mark .colon :: (result.tokens ++ ys)).head? ≠
      some (.mark .leftBracket) := by
    cases ps <;> nofun
  refine (returnsAt_generics hparen hu).bind fun names v hnames hv => ?_
  refine (returnsAt_parametersWith (readsBack_type _) hps (Nat.le_succ _) hv).bind fun parameters w hparameters hw => ?_
  apply returnsAt_mark hw
  intro x hx
  refine (readsBack_type _ _ _ hresult x _ (Nat.le_refl _) hx hys.1 hys.2).bind fun type z htype' hz => ?_
  exact ⟨_, _, rfl, ⟨ps, result, _, name, names, parameters, type, htype, rfl, hname, hnames, hparameters, htype'⟩,
    hz, .refl z⟩

/-- The declaration of a builtin is read, and reading the body goes on behind it. -/
theorem exists_bodyRestUpTo_builtin {b : Builtin} (hys : EndsType ys) (hs : s.tokens = Prelude.tokens b ++ ys)
    (nested : Reader Body) : ∃ d t, b.DeclaredBy d ∧ t.tokens = ys ∧ s.LeadsTo t ∧
      ∀ start count declarations, bodyRestUpTo nested start (count + 1) declarations s =
        bodyRestUpTo nested start count (declarations ++ [d]) t := by
  obtain ⟨rest, hrest⟩ := exists_tokens_eq b
  have hs' : s.tokens = .keyword .externalWord :: (rest ++ ys) := by rw [hs, hrest, List.cons_append]
  have hadvance := State.tokens_advance_of_eq hs'
  have hread : ReturnsAt s.advance (externalDeclaration s.here) b.DeclaredBy ys := by
    refine returnsAt_externalDeclaration s.here hys ?_
    rw [hadvance, hrest, List.cons_append]
  obtain ⟨d, t, hd, hdeclared, ht, hleads⟩ := hread
  refine ⟨d, t, hdeclared, ht, s.leadsTo_advance.trans hleads, fun start count declarations => ?_⟩
  have hhead : s.rest.head?.map (·.value) = some (.keyword .externalWord) := by
    rw [← List.head?_map]
    exact congrArg List.head? hs'
  have hattempt : attempt (declarationWith nested .externalWord) s = (some (some d), t) := by
    have hdeclaration : declarationWith nested .externalWord s = externalDeclaration s.here s.advance := rfl
    rw [attempt, hdeclaration, hd]
  rw [bodyRestUpTo, run_bind, peek, hhead]
  change (attempt (declarationWith nested .externalWord) >>= _) s = _
  rw [run_bind, hattempt]

/-- The declarations of builtins are read one after the other. -/
theorem exists_bodyRestUpTo_builtins {bs : List Builtin} (hys : EndsType ys)
    (hs : s.tokens = bs.flatMap Prelude.tokens ++ ys) (nested : Reader Body) :
    ∃ ds t, List.Forall₂ Builtin.DeclaredBy bs ds ∧ t.tokens = ys ∧ s.LeadsTo t ∧
      ∀ start count declarations, bodyRestUpTo nested start (bs.length + count) declarations s =
        bodyRestUpTo nested start count (declarations ++ ds) t := by
  induction bs generalizing s with
  | nil => exact ⟨[], s, .nil, hs, .refl s, fun _ _ _ => by rw [List.length_nil, Nat.zero_add, List.append_nil]⟩
  | cons b bs ih =>
      rw [List.flatMap_cons, List.append_assoc] at hs
      have hnext : EndsType (bs.flatMap Prelude.tokens ++ ys) := by
        cases bs with
        | nil => exact hys
        | cons c bs =>
            obtain ⟨rest, hrest⟩ := exists_tokens_eq c
            rw [List.flatMap_cons, hrest]
            exact ⟨nofun, nofun⟩
      obtain ⟨d, t, hd, ht, hst, hfirst⟩ := exists_bodyRestUpTo_builtin hnext hs nested
      obtain ⟨ds, u, hds, hu, htu, hrest⟩ := ih ht
      refine ⟨d :: ds, u, .cons hd hds, hu, hst.trans htu, fun start count declarations => ?_⟩
      rw [List.length_cons, Nat.add_right_comm, hfirst, hrest, List.append_assoc]
      rfl

/-- The state behind the prelude, where the tokens `us` are left. -/
structure BehindPrelude (us : List (Spanned Token)) (finish : Span) (s : State) : Prop where
  rest : s.rest = us
  finish : s.finish = finish
  errors : s.errors = #[]

section

variable {front us : List (Spanned Token)}

theorem exists_body_prelude (hfront : front.map (·.value) = Builtin.all.flatMap Prelude.tokens)
    (hus : EndsType (us.map (·.value))) :
    ∃ ds t depth count start, List.Forall₂ Builtin.DeclaredBy Builtin.all ds ∧
      BehindPrelude us (State.start (front ++ us)).finish t ∧ us.length ≤ depth ∧ us.length ≤ count ∧
      body (.start (front ++ us)) = bodyRestUpTo (bodyUpTo depth) start count ds t := by
  have hlength := length_le_length_tokens Builtin.all
  rw [← hfront, List.length_map] at hlength
  obtain ⟨more, hmore⟩ := Nat.exists_eq_add_of_le hlength
  have hall : Builtin.all.length = 11 := rfl
  have htokens : (State.start (front ++ us)).tokens =
      Builtin.all.flatMap Prelude.tokens ++ us.map (·.value) := by
    rw [← hfront, ← List.map_append]
    rfl
  have hcount : (front ++ us).length = Builtin.all.length + (more + us.length) := by
    rw [List.length_append, hmore, Nat.add_assoc]
  obtain ⟨depth, hdepth⟩ : ∃ depth, (front ++ us).length = depth + 1 := Nat.exists_eq_add_one.mpr (by omega)
  obtain ⟨ds, t, hds, ht, hleads, hrun⟩ := exists_bodyRestUpTo_builtins hus htokens (bodyUpTo depth)
  refine ⟨ds, t, depth, more + us.length, (State.start (front ++ us)).here, hds,
    ⟨?_, hleads.finish, hleads.errors⟩, ?_, Nat.le_add_left .., ?_⟩
  · -- What is left ends the list of all tokens, as `us` does, and is as long.
    have hsame : t.rest.length = us.length := by rw [State.length_rest, ht, List.length_map]
    exact (List.suffix_of_suffix_length_le hleads.rest (List.suffix_append _ _) (Nat.le_of_eq hsame)).eq_of_length hsame
  · omega
  · have hbody : body (.start (front ++ us)) = bodyRestUpTo (bodyUpTo depth) (State.start (front ++ us)).here
        (front ++ us).length [] (.start (front ++ us)) := by
      rw [hdepth]
      exact run_body (by rw [← State.length_rest]; exact hdepth)
    rw [hbody, hcount, hrun, List.nil_append]

theorem finish_start_append (front : List (Spanned Token)) {us : List (Spanned Token)} (hus : us ≠ []) (n : Nat) :
    (State.start (front ++ us.map (·.moved n))).finish = (State.start us).finish.moved n := by
  obtain ⟨last, hlast⟩ := Option.ne_none_iff_exists'.mp (mt List.getLast?_eq_none_iff.mp hus)
  have happend : (front ++ us.map (·.moved n)).getLast? = some (last.moved n) := by
    rw [List.getLast?_append, List.getLast?_map, hlast]
    rfl
  simp only [State.start, happend, hlast]
  rfl

theorem finish_start_lt {n : Nat} (hpos : 0 < n) (hus : ∀ t ∈ us, t.span.stop < n) :
    (State.start us).finish.start < n ∧ (State.start us).finish.stop < n := by
  simp only [State.start]
  split
  · rename_i last hlast
    have h := hus last (List.mem_of_getLast? hlast)
    exact ⟨h, h⟩
  · exact ⟨hpos, hpos⟩

/-- Behind the prelude a body is read as it is by itself. -/
theorem exists_body_behind (hfront : front.map (·.value) = Builtin.all.flatMap Prelude.tokens)
    (hus : EndsType (us.map (·.value))) (hne : us ≠ []) (n : Nat) :
    ∃ (m : Shift) (before : Earlier m), ∃ ds b span t q, m.offset = n ∧ before.errors = #[] ∧
      List.Forall₂ Builtin.DeclaredBy Builtin.all ds ∧ body (.start us) = (some b, t) ∧
      body (.start (front ++ us.map (·.moved n))) =
        (some (.mk (ds ++ b.declarations.map (Declaration.moved m)) (b.result.moved m) span),
          { t.moved m before with previous := q }) := by
  have hus' : EndsType ((us.map (·.moved n)).map (·.value)) := by
    rw [List.map_map]
    exact hus
  obtain ⟨ds, t₀, depth, count, start, hds, ht₀, hdepth, hcount, hbody⟩ := exists_body_prelude hfront hus'
  rw [List.length_map] at hdepth hcount
  have hpos := List.length_pos_iff.mpr hne
  let m : Shift := ⟨n, t₀.nodes.expressions.size, t₀.nodes.types.size⟩
  let before : Earlier m := ⟨#[], t₀.nodes, rfl, rfl⟩
  let s : State := .start us
  have hstate : t₀ = { s.moved m before with previous := t₀.previous } := by
    have hfinish := ht₀.finish.trans (finish_start_append front hne n)
    have hrest := ht₀.rest
    have herrors := ht₀.errors
    obtain ⟨rest, previous, finish, nodes, errors⟩ := t₀
    simp only at hfinish hrest herrors
    subst hfinish hrest herrors
    simp [s, m, before, State.moved, State.start]
  have hmoves : MovesAt m before s (Body.moved m) (bodyRestUpTo (bodyUpTo (us.length - 1)) s.here us.length [])
      (bodyRestUpTo (bodyUpTo depth) (s.here.moved m.offset) count []) := by
    refine movesAt_bodyRestUpTo (fun t ht => ?_) s.here [] (Nat.le_refl us.length) (Nat.le_refl _) hcount
    exact movesAt_bodyUpTo (by omega) (by omega)
  have hself : body s = bodyRestUpTo (bodyUpTo (us.length - 1)) s.here us.length [] s := by
    obtain ⟨depth, hlength⟩ : ∃ depth, us.length = depth + 1 := Nat.exists_eq_add_one.mpr hpos
    rw [hlength]
    exact run_body (by rw [← State.length_rest]; exact hlength)
  obtain ⟨b', span, t', hb', hbehind⟩ :=
    bodyRestUpTo_behind (bodyUpTo depth) (s.here.moved m.offset) start ds count [] (s.moved m before)
  rw [List.append_nil] at hbehind
  rw [hmoves.run, ← hself] at hb'
  obtain ⟨count, rfl⟩ : ∃ c, count = c + 1 := Nat.exists_eq_add_one.mpr (by omega)
  obtain ⟨q, hq⟩ := bodyRestUpTo_previous (bodyUpTo depth) start count ds (s.moved m before) t₀.previous
  rw [← hstate, hbehind, ← hbody] at hq
  cases hrun : body s with
  | mk found t =>
      rw [hrun] at hb'
      cases found with
      | none => cases hb'
      | some b =>
          obtain ⟨rfl, rfl⟩ : b.moved m = b' ∧ t.moved m before = t' := by simpa using hb'
          refine ⟨m, before, ds, b, span, t, q, rfl, rfl, hds, rfl, ?_⟩
          rw [hq]
          cases b
          simp [Body.moved, Body.declarations, Body.result]

/-- Behind the prelude, too, a body without a token has no end. Its place is where the prelude ends. -/
theorem exists_body_of_nil (hfront : front.map (·.value) = Builtin.all.flatMap Prelude.tokens) {n : Nat} (hpos : 0 < n)
    (hless : ∀ t ∈ front, t.span.stop < n) :
    ∃ ds id place span t, List.Forall₂ Builtin.DeclaredBy Builtin.all ds ∧ place.start < n ∧ place.stop < n ∧
      body (.start front) = (some (.mk ds (.null ⟨id, place⟩) span), t) ∧ t.rest = [] ∧
      t.errors = #[⟨.expected .declaration none, place⟩] := by
  obtain ⟨ds, s, depth, count, start, hds, hs, -, -, hbody⟩ := @exists_body_prelude front [] hfront ⟨nofun, nofun⟩
  rw [List.append_nil] at hs hbody
  rw [bodyRestUpTo_of_nil _ _ _ _ hs.rest] at hbody
  obtain ⟨hstart, hstop⟩ := finish_start_lt hpos hless
  obtain ⟨rest, previous, finish, nodes, errors⟩ := s
  have hrest := hs.rest
  have hfinish := hs.finish
  have herrors := hs.errors
  simp only at hrest hfinish herrors
  subst hrest hfinish herrors
  exact ⟨ds, _, _, _, _, hds, hstart, hstop, hbody, rfl, rfl⟩

end

end Reader

open Reader

/-- The errors of a program, given the state after its body: what is left does not belong there. -/
def Reader.State.allErrors (t : State) : List ParseError :=
  t.errors.toList ++ if t.rest = [] then [] else [⟨.trailing (t.rest.head?.map (·.value)), t.here⟩]

theorem Reader.State.allErrors_moved {m : Shift} {before : Earlier m} (hbefore : before.errors = #[]) (t : State)
    (q : Span) :
    State.allErrors { t.moved m before with previous := q } = t.allErrors.map (·.moved m.offset) := by
  have hempty : (t.moved m before).rest = [] ↔ t.rest = [] := List.map_eq_nil_iff
  have hhere : State.here { t.moved m before with previous := q } = t.here.moved m.offset :=
    @State.here_moved m before t
  have herrors : (t.moved m before).errors.toList = t.errors.toList.map (·.moved m.offset) := by
    simp [State.moved, hbefore]
  simp only [allErrors, hempty, hhere, herrors, State.head?_moved, List.map_append]
  split <;> rfl

theorem Parse.ofTokens_eq {tokens : List (Spanned Token)} {b : Body} {t : State}
    (h : body (.start tokens) = (some b, t)) : ofTokens tokens = ⟨⟨b, t.nodes⟩, t.allErrors⟩ := by
  have hempty : t.tokens = [] ↔ t.rest = [] := List.map_eq_nil_iff
  rw [ofTokens, run_program, h, State.allErrors]
  simp only [hempty]
  by_cases hrest : t.rest = []
  · simp only [if_pos hrest, List.append_nil]
  · simp only [if_neg hrest, report, Array.toList_push]

namespace Prelude

theorem scan_prepend (source : String) : scan (prepend source) =
    ⟨(scan text).tokens ++ (scan source).tokens.map (·.moved offset), (scan source).unexpected.map (·.moved offset)⟩ := by
  rw [prepend, scan_append_newline, (scan_of_found found_text).2, List.nil_append, ← offset]
  simp only [Scan.moved]

/-- A text with a token that cannot belong to a type is read as it is by itself, only further on. -/
theorem exists_parse_prepend {source : String} (hne : (scan source).tokens ≠ [])
    (hends : EndsType ((scan source).tokens.map (·.value))) :
    ∃ m ds span nodes, m.offset = offset ∧ List.Forall₂ Builtin.DeclaredBy Builtin.all ds ∧
      parse (prepend source) = ⟨⟨.mk (ds ++ (parse source).tree.body.declarations.map (Declaration.moved m))
          ((parse source).tree.body.result.moved m) span, nodes⟩,
        (parse source).errors.map (·.moved offset)⟩ := by
  obtain ⟨m, before, ds, b, span, t, q, hoffset, hbefore, hds, hb, hbehind⟩ :=
    exists_body_behind (scan_of_found found_text).1 hends hne offset
  refine ⟨m, ds, span, (t.moved m before).nodes, hoffset, hds, ?_⟩
  simp only [parse, scan_prepend, Parse.ofTokens_eq hb, Parse.ofTokens_eq hbehind, State.allErrors_moved hbefore,
    hoffset, List.map_append, List.map_map]
  rfl

/-- Reading behind the prelude finds the same errors as reading the text by itself, and the same declarations and
result behind those of the builtins. A text without a token comes to an end where the prelude does. -/
theorem parse_prepend (source : String)
    (hfirst : ∀ t ∈ (scan source).tokens.head?, t.value ≠ .mark .leftBracket ∧ t.value ≠ .mark .question) :
    (parse (prepend source)).errors.map (fun e => ⟨e.fault, e.span.rebase offset⟩) = (parse source).errors ∧
      ∃ m ds, m.offset = offset ∧ List.Forall₂ Builtin.DeclaredBy Builtin.all ds ∧
        (parse (prepend source)).tree.body.declarations =
          ds ++ (parse source).tree.body.declarations.map (Declaration.moved m) ∧
        ((scan source).tokens ≠ [] →
          (parse (prepend source)).tree.body.result = (parse source).tree.body.result.moved m) ∧
        ((scan source).tokens = [] → ∃ id place, place.stop < offset ∧
          (parse (prepend source)).tree.body.result = .null ⟨id, place⟩) := by
  have hrebase (e : ParseError) : (⟨(e.moved offset).fault, (e.moved offset).span.rebase offset⟩ : ParseError) = e := by
    simp [ParseError.moved, Span.moved, Span.rebase]
  by_cases hne : (scan source).tokens = []
  · obtain ⟨ds, id, place, span, t, hds, hstart, hstop, hbody, hrest, herrors⟩ :=
      exists_body_of_nil (scan_of_found found_text).1 (Nat.zero_lt_of_lt utf8ByteSize_lt_offset) fun t ht =>
        Nat.lt_of_le_of_lt (stop_le_of_mem_scan ht) utf8ByteSize_lt_offset
    have hself : Parse.ofTokens [] = ⟨⟨.mk [] (.null ⟨0, .none⟩) .none, ⟨#[.null ⟨0, .none⟩], #[]⟩⟩,
      [⟨.expected .declaration none, .none⟩]⟩ := rfl
    have hplace : place.rebase offset = .none := by
      rw [Span.rebase, Nat.sub_eq_zero_of_le (Nat.le_of_lt hstart), Nat.sub_eq_zero_of_le (Nat.le_of_lt hstop)]
      rfl
    simp only [parse, scan_prepend, hne, List.map_nil, List.append_nil, Parse.ofTokens_eq hbody, State.allErrors,
      hrest, herrors, hself]
    refine ⟨?_, ⟨offset, 0, 0⟩, ds, rfl, hds, ?_, fun h => absurd rfl h, fun _ => ⟨id, place, hstop, rfl⟩⟩
    · have hspan (span : Span) : (span.moved offset).rebase offset = span := by simp [Span.moved, Span.rebase]
      simp [hplace, hspan, Function.comp_def]
    · exact (List.append_nil ds).symm
  · have hends : EndsType ((scan source).tokens.map (·.value)) := by
      obtain ⟨first, rest, hcons⟩ := List.exists_cons_of_ne_nil hne
      rw [hcons] at hfirst ⊢
      have h := hfirst first rfl
      exact ⟨fun hbracket => h.1 (Option.some.inj hbracket), fun hquestion => h.2 (Option.some.inj hquestion)⟩
    obtain ⟨m, ds, span, _, hoffset, hds, hparse⟩ := exists_parse_prepend hne hends
    rw [hparse, List.map_map]
    refine ⟨?_, m, ds, hoffset, hds, rfl, fun _ => rfl, fun h => absurd h hne⟩
    exact List.map_id'' hrebase _

/-- A text with an error in it, whose tokens end no type. -/
theorem parse_prepend_unfinished :
    (∀ t ∈ (scan "val half = return bigint(2)").tokens.head?,
      t.value ≠ .mark .leftBracket ∧ t.value ≠ .mark .question) ∧
    (parse (prepend "val half = return bigint(2)")).errors.map (fun e => ⟨e.fault, e.span.rebase offset⟩) =
      (parse "val half = return bigint(2)").errors := by
  have hfirst : ∀ t ∈ (scan "val half = return bigint(2)").tokens.head?,
      t.value ≠ .mark .leftBracket ∧ t.value ≠ .mark .question := by
    rw [scan, String.toList_ofList]
    decide +kernel
  exact ⟨hfirst, (parse_prepend _ hfirst).1⟩

/-- A question mark at the front of a text makes the result of the last builtin optional. -/
theorem parse_prepend_question : (parse (prepend "? return 1")).errors = [] ∧
    (parse "? return 1").errors = [⟨.expected .declaration (some (.mark .question)), ⟨0, 1⟩⟩] := by
  constructor
  · rw [parse, scan, prepend]
    unfold text
    repeat rw [String.toList_append]
    repeat rw [String.toList_ofList]
    decide +kernel
  · rw [parse, scan, String.toList_ofList]
    decide +kernel

end Prelude

end Sable
