import Sable.Proofs.Evaluation.Behind
import Sable.Proofs.Evaluation.Keys
import Sable.Proofs.Lowering.Behind
import Sable.Proofs.Lowering.Spelled
import Sable.Proofs.Prelude.Read
import Sable.Proofs.Soundness.Core
import Sable.Proofs.Typing.Behind
import Sable.Proofs.Typing.Variables

/-! The prelude is conservative.

Its declarations make no nodes, only bindings that are valid by themselves. A valid program stays valid behind them,
its declarations and its result keep the texts of their types, and it comes to the same value or error. -/
namespace Sable

open Ty (RenumberedFields RenumberedParameters)

namespace Lowering

/-! ## Declarations of builtins -/

/-- A step that makes no nodes, and only bindings that are valid in every program. -/
structure Furnishes (d d' : Draft) : Prop where
  nodes : d'.nodes = d.nodes
  bindings : ∃ new, d'.bindings = d.bindings ++ new ∧ ∀ b ∈ new, Front.Harmless b
  next : d.nextVariable ≤ d'.nextVariable

theorem Furnishes.refl (d : Draft) : Furnishes d d := ⟨rfl, ⟨#[], by simp, by simp⟩, Nat.le_refl _⟩

theorem TypesOnly.furnishes {d d' : Draft} (h : TypesOnly d d') : Furnishes d d' :=
  ⟨h.nodes, ⟨#[], by simp [h.bindings], by simp⟩, h.next⟩

theorem Furnishes.trans {d₁ d₂ d₃ : Draft} (h : Furnishes d₁ d₂) (h' : Furnishes d₂ d₃) : Furnishes d₁ d₃ := by
  obtain ⟨bs, hbs, hharmless⟩ := h.bindings
  obtain ⟨cs, hcs, hharmless'⟩ := h'.bindings
  refine ⟨h'.nodes.trans h.nodes, ⟨bs ++ cs, by rw [hcs, hbs, Array.append_assoc], fun b hb => ?_⟩,
    Nat.le_trans h.next h'.next⟩
  exact (Array.mem_append.mp hb).elim (hharmless b) (hharmless' b)

theorem Furnishes.push (d : Draft) {b : Binding} (hb : Front.Harmless b) :
    Furnishes d { d with bindings := d.bindings.push b } := by
  refine ⟨rfl, ⟨#[b], by simp, fun c hc => ?_⟩, Nat.le_refl _⟩
  rwa [List.mem_singleton.mp (Array.mem_toList_iff.mpr hc)]

/-- Bindings that were there keep their numbers. -/
theorem Furnishes.getElem? {d d' : Draft} (h : Furnishes d d') {id : BindingId} {b : Binding}
    (hb : d.bindings[id]? = some b) : d'.bindings[id]? = some b := by
  obtain ⟨new, hnew, -⟩ := h.bindings
  obtain ⟨hid, -⟩ := Array.getElem?_eq_some_iff.mp hb
  rw [hnew, Array.getElem?_append_left hid, hb]

theorem exists_addParameters (ps : List (String × Ty)) : ∀ (spans : List Span) (d : Draft),
    ∃ ids d', (addParameters ps spans).run d = .ok (ids, d') ∧ Furnishes d d' := by
  induction ps with
  | nil => exact fun spans d => ⟨[], d, rfl, .refl d⟩
  | cons p rest ih =>
      intro spans d
      cases spans with
      | nil => exact ⟨[], d, rfl, .refl d⟩
      | cons span spans =>
          obtain ⟨name, type⟩ := p
          let b : Binding := .parameter name span type
          obtain ⟨ids, d', hrest, hfurnishes⟩ := ih spans { d with bindings := d.bindings.push b }
          refine ⟨d.bindings.size :: ids, d', ?_, (Furnishes.push d (.parameter name span type)).trans hfurnishes⟩
          refine run_bind_eq_ok.mpr ⟨_, _, run_addBinding_eq_ok.mpr rfl, ?_⟩
          exact run_bind_eq_ok.mpr ⟨ids, d', hrest, rfl⟩

/-- The scope of a whole program, but for names of values. -/
structure Rootlike (d : Draft) (scope : Scope) : Prop where
  sound : ScopeSound False [] d.nextVariable scope
  types : ∀ name, scope.type? name = Scope.root.type? name

theorem Rootlike.knows {d : Draft} {scope : Scope} (h : Rootlike d scope) (R : Matching) : Knows R [] scope :=
  ⟨nofun, fun name _ => h.types name⟩

theorem map_fst_of_renumberedFields {R : Matching} : ∀ {ps qs : List (String × Ty)},
    RenumberedFields R ps qs → qs.map Prod.fst = ps.map Prod.fst
  | [], [], _ => rfl
  | [], _ :: _, h => h.elim
  | _ :: _, [], h => h.elim
  | (_, _) :: _, (_, _) :: _, ⟨hname, _, hrest⟩ =>
      congrArg₂ List.cons hname.symm (map_fst_of_renumberedFields hrest)

/-- The prelude's type of a builtin is its type, whatever numbers its variables have. -/
theorem type?_of_renumbered {b : Builtin} {ws : List TypeVariable} {ps qs : Parameters} {result type : Ty}
    (htype : b.type? (Prelude.typeVariables b) = some (.function (Prelude.typeVariables b) ps result))
    (hws : ws.map (·.name) = (Prelude.typeVariables b).map (·.name))
    (hps : RenumberedParameters (Matching.bind ((Prelude.typeVariables b).zip ws) fun _ _ => False) ps qs)
    (hresult : result.Renumbered (Matching.bind ((Prelude.typeVariables b).zip ws) fun _ _ => False) type) :
    b.type? ws = some (.function ws qs type) := by
  have hlength := congrArg List.length hws
  rw [List.length_map, List.length_map] at hlength
  cases b <;> cases htype <;> rcases ws with _ | ⟨a, _ | ⟨c, _ | ⟨_, _⟩⟩⟩ <;> cases hlength <;>
    simp_all [Matching.bind, Prelude.typeVariables, Builtin.type?]

/-- The declaration of a builtin can be written, and no two of its parameters have one name. -/
theorem declarable_prelude (b : Builtin) : Ty.declarable [] (Prelude.typeVariables b) = true ∧
    ∀ ps result, b.type? (Prelude.typeVariables b) = some (.function (Prelude.typeVariables b) (.fixed ps) result) →
      (ps.map Prod.fst).Nodup := by
  refine ⟨by cases b <;> decide, fun ps result h => ?_⟩
  cases b <;> cases h <;> decide

theorem exists_lowerDeclaration_builtin {b : Builtin} {declaration : Declaration} (h : b.DeclaredBy declaration)
    {d : Draft} {scope : Scope} (hscope : Rootlike d scope) : ∃ id scope' d',
      (lowerDeclaration scope declaration).run d = .ok ((some id, scope'), d') ∧ Furnishes d d' ∧
        Rootlike d' scope' ∧
        ∃ name span s, d'.bindings[id]? = some (.function name span s none) ∧ Builtin.Declares name s := by
  obtain ⟨ps, result, span, name, names, parameters, type, htype, rfl, hname, hnames, hparameters, hresult⟩ := h
  obtain ⟨ps', result', htype', hps, hwritable⟩ := Reader.exists_type?_prelude b
  cases htype.symm.trans htype'
  obtain ⟨hdeclarable, hdistinct⟩ := declarable_prelude b
  have hearlier : ∀ w ∈ ([] : List TypeVariable), ∃ v ∈ ([] : List TypeVariable), v.name = w.name := by simp
  obtain ⟨ws, inner, d₁, hgenerics, hws, hinner⟩ := exists_lowerGenericsFrom hnames hdeclarable hearlier scope d
  rw [List.nil_append] at hgenerics
  have hdeclared := (hscope.knows fun _ _ => False).declare hdeclarable hws hinner
  have hknows : Knows _ (Prelude.typeVariables b) inner :=
    ⟨fun v hv => hdeclared.variable_of_mem v (by simpa using hv), hdeclared.builtin⟩
  obtain ⟨hg, -⟩ := lowerGenerics_sound hgenerics hscope.sound
  obtain ⟨qs, d₂, hqs, hrenumbered⟩ := exists_lowerParameters ps hknows hps hparameters d₁
  obtain ⟨hd₂, -⟩ := lowerParameters_scoped parameters False.elim hg.sound hqs
  obtain ⟨ids, d₃, hids, hd₃⟩ := exists_addParameters (Program.insideParameters qs) (parameters.toList.map (·.span)) d₂
  obtain ⟨type', d₄, htype', hrenumbered'⟩ := exists_lowerType result hknows hwritable hresult d₃
  have hbefore : Furnishes d d₃ := (hg.typesOnly.trans hd₂).furnishes.trans hd₃
  have hinner' : ScopeSound False (ws ++ []) d₃.nextVariable inner :=
    hg.sound.later (Nat.le_trans hd₂.next hd₃.next)
  obtain ⟨hd₄, -⟩ := lowerType_scoped type False.elim hinner' htype'
  let s : Signature := ⟨ws, qs, ids, some type'⟩
  have hharmless : Front.Harmless (.function name.value span s none) := by
    refine .function _ _ fun own hown => ?_
    cases ps with
    | variadic q => obtain rfl : qs = .fixed own := hown; exact hrenumbered.elim
    | fixed ps =>
        obtain rfl : qs = .fixed own := hown
        exact (map_fst_of_renumberedFields hrenumbered).symm ▸ hdistinct ps result htype
  have hafter := (hbefore.trans hd₄.furnishes).trans (.push d₄ hharmless)
  have hsignature : (lowerSignatureParameters inner parameters).run d₁ = .ok ((qs, ids), d₃) := by
    refine run_bind_eq_ok.mpr ⟨qs, d₂, hqs, run_bind_eq_ok.mpr ⟨ids, d₃, hids, rfl⟩⟩
  have hdeclares : Builtin.Declares name.value s :=
    ⟨b, type', hname ▸ Builtin.ofName?_name b, rfl, type?_of_renumbered htype hws hrenumbered hrenumbered'⟩
  let id := d₄.bindings.size
  refine ⟨id, scope.withValue name.value (.bound id), _, ?_, hafter, ?_, name.value, span, s, by simp [id], hdeclares⟩
  · refine run_bind_eq_ok.mpr ⟨(ws, inner), d₁, hgenerics, run_bind_eq_ok.mpr ⟨(qs, ids), d₃, hsignature, ?_⟩⟩
    refine run_bind_eq_ok.mpr ⟨type', d₄, htype', run_bind_eq_ok.mpr ⟨_, _, run_addBinding_eq_ok.mpr rfl, rfl⟩⟩
  · exact ⟨(hscope.sound.later hafter.next).withValue _ _, hscope.types⟩

theorem exists_lowerDeclarations_builtins {bs : List Builtin} {ds : List Declaration}
    (h : List.Forall₂ Builtin.DeclaredBy bs ds) {d : Draft} {scope : Scope} (hscope : Rootlike d scope) :
    ∃ ids scope' d', (lowerDeclarations scope ds).run d = .ok ((ids, scope'), d') ∧ Furnishes d d' ∧
      Rootlike d' scope' ∧ ids.length = bs.length ∧
      ∀ id ∈ ids, ∃ name span s, d'.bindings[id]? = some (.function name span s none) ∧ Builtin.Declares name s := by
  induction h generalizing d scope with
  | nil => exact ⟨[], scope, d, rfl, .refl d, hscope, rfl, nofun⟩
  | cons hfirst _ ih =>
      obtain ⟨id, next, d₁, hdeclaration, hd₁, hnext, name, span, s, hid, hdeclares⟩ :=
        exists_lowerDeclaration_builtin hfirst hscope
      obtain ⟨ids, last, d', hrest, hd', hlast, hlength, hids⟩ := ih hnext
      refine ⟨id :: ids, last, d', ?_, hd₁.trans hd', hlast, congrArg Nat.succ hlength, ?_⟩
      · refine run_bind_eq_ok.mpr ⟨(some id, next), d₁, hdeclaration, ?_⟩
        exact run_bind_eq_ok.mpr ⟨(ids, last), d', hrest, rfl⟩
      · exact List.forall_mem_cons.mpr ⟨⟨name, span, s, hd'.getElem? hid, hdeclares⟩, hids⟩

/-- The types that need no declaration mention no type variables. -/
theorem behind_root (f : Front) (name : String) :
    (Scope.root.type? name).map (.behind f) = Scope.root.type? name := by
  simp only [Scope.root, Scope.empty, Scope.withType, Scope.type?, Scope.typeIn]
  split_ifs <;> rfl

end Lowering

open Lowering

/-- What the prelude puts in front of a program. -/
structure Front.OfPrelude (f : Front) (ds : List Declaration) (scope : Scope) : Prop where
  lowered : (lowerDeclarations .root ds).run ⟨#[], #[], 0⟩ =
    .ok ((f.declared, scope), ⟨#[], f.bindings, f.typeVariables⟩)
  scope : Scope.root.Behind f scope
  harmless : ∀ (id : BindingId) (hid : id < f.bindings.size), Front.Harmless f.bindings[id]
  externals : f.DeclaresExternals

theorem exists_front {ds : List Declaration} (h : List.Forall₂ Builtin.DeclaredBy Builtin.all ds) (m : Shift) :
    ∃ f scope, f.shift = m ∧ Front.OfPrelude f ds scope ∧ f.declared.length = Builtin.all.length := by
  have hroot : Rootlike ⟨#[], #[], 0⟩ .root := ⟨scopeSound_root, fun _ => rfl⟩
  obtain ⟨ids, scope, d, hrun, hd, hscope, hlength, hids⟩ := exists_lowerDeclarations_builtins h hroot
  obtain ⟨new, hnew, hharmless⟩ := hd.bindings
  rw [Array.empty_append] at hnew
  have htypes (name : String) : scope.type? name = (Scope.root.type? name).map (.behind ⟨d.bindings, ids, d.nextVariable, m⟩) := by
    rw [hscope.types, behind_root]
  have hexternals : ∀ id ∈ ids, ∃ name span s, d.bindings[id]? = some (.function name span s none) := by
    intro id hid
    obtain ⟨name, span, s, hbinding, -⟩ := hids id hid
    exact ⟨name, span, s, hbinding⟩
  refine ⟨⟨d.bindings, ids, d.nextVariable, m⟩, scope, rfl, ⟨?_, ⟨htypes, nofun⟩, fun id hid => ?_, hexternals⟩, hlength⟩
  · rw [hrun]
    obtain ⟨nodes, bindings, next⟩ := d
    cases hd.nodes
    rfl
  · exact hharmless _ (hnew ▸ Array.getElem_mem hid)

/-! ## Reading -/

namespace Grammar

theorem exists_keyword_of_declared {nested : Phrase Body} {xs : List Token} {d : Declaration}
    (h : Declared nested xs d) : ∃ k rest, xs = .keyword k :: rest := by
  cases h <;> exact ⟨_, _, rfl⟩

/-- A body begins with a keyword. -/
theorem exists_keyword_of_bodyPhrase {xs : List Token} {b : Body} (h : BodyPhrase xs b) :
    ∃ k rest, xs = .keyword k :: rest := by
  obtain ⟨⟨hdeclarations, -⟩⟩ := h
  cases hdeclarations with
  | none => exact ⟨.returnWord, _, rfl⟩
  | more hfirst _ =>
      obtain ⟨k, rest, rfl⟩ := exists_keyword_of_declared hfirst
      exact ⟨k, _, rfl⟩

end Grammar

namespace Program

variable {source : String} {p : Program}

theorem errors_parse_of_ofSource (h : ofSource source = .ok p) : (parse source).errors = [] := by
  rw [ofSource] at h
  split at h
  · exact List.isEmpty_iff.mp ‹_›
  · cases h

theorem ofSource_of_ofTree (hread : (parse source).errors = []) (h : ofTree (parse source).tree = .ok p) :
    ofSource source = .ok p := by
  rw [ofSource, hread, h]
  rfl

/-- The tokens of a text that is read without errors can stand behind the prelude. -/
theorem tokens_of_errors (h : (parse source).errors = []) : (scan source).tokens ≠ [] ∧
    Reader.EndsType ((scan source).tokens.map (·.value)) := by
  have hread := (List.append_eq_nil_iff.mp h).2
  obtain ⟨k, rest, htokens⟩ := Grammar.exists_keyword_of_bodyPhrase (Parse.bodyPhrase_ofTokens hread)
  rw [htokens]
  refine ⟨?_, nofun, nofun⟩
  rintro hnil
  rw [hnil] at htokens
  cases htokens

/-- A valid program is valid behind the prelude. -/
theorem exists_check_prepend (h : check source = .ok p) : ∃ f : Front, f.shift.offset = Prelude.offset ∧
    f.DeclaresExternals ∧ f.declared.length = Builtin.all.length ∧
    check (Prelude.prepend source) = .ok (p.behind f) := by
  obtain ⟨hsource, hvalid⟩ := check_eq_ok_iff.mp h
  have hread := errors_parse_of_ofSource hsource
  have htree := ofTree_of_ofSource hsource
  have hlaid := laidOut_of_ofSource hsource
  obtain ⟨hne, hends⟩ := tokens_of_errors hread
  obtain ⟨m, ds, span, nodes, hoffset, hds, hparse⟩ := Prelude.exists_parse_prepend hne hends
  obtain ⟨f, scope, rfl, hf, hlength⟩ := exists_front hds m
  have htree' : ofTree (parse (Prelude.prepend source)).tree = .ok (p.behind f) := by
    rw [hparse]
    generalize (parse source).tree = tree at htree
    obtain ⟨⟨declarations, result, own⟩, made⟩ := tree
    exact ofTree_append hf.lowered hf.scope htree (hlaid.form_ne_reference_none hvalid)
  have hread' : (parse (Prelude.prepend source)).errors = [] := by rw [hparse, hread]; rfl
  have hsource' := ofSource_of_ofTree hread' htree'
  refine ⟨f, hoffset, hf.externals, hlength, check_eq_ok_iff.mpr ⟨hsource', ?_⟩⟩
  exact validate_behind hlaid (laidOut_of_ofSource hsource') hf.harmless hvalid

/-! ## Types and values -/

/-- Validation leaves a memo of plain types. -/
theorem LaidOut.knows_checked (h : p.LaidOut) : p.checked.visiting = [] ∧ p.Knows p.checked := by
  obtain ⟨result, hrecalls, -⟩ := decides_validate h
  exact (hrecalls p.blank rfl (knows_blank p)).2

/-- The two computations find types with the same text. -/
def SameText (x y : Except TypeError Ty × Memo) : Prop :=
  ∃ a b, x.1 = .ok a ∧ y.1 = .ok b ∧ a.text = b.text

theorem SameText.of_carries {k : Nat} {P : List NodeId → Prop} {p' : Program} {x y : Typing Ty}
    {plain plain' : Except TypeError Ty} (hx : p.Recalls P x plain) (hy : p'.Recalls P y plain') {memo memo' : Memo}
    (hmemo : P memo.visiting ∧ p.Knows memo) (hmemo' : P memo'.visiting ∧ p'.Knows memo')
    (hcarries : Carries (Ty.raised k) plain plain') (htyped : ∃ type, plain = .ok type) : SameText (x.run memo) (y.run memo') := by
  obtain ⟨type, rfl⟩ := htyped
  refine ⟨type, type.raised k, (hx memo hmemo.1 hmemo.2).1, ?_, (Ty.text_raised k type).symm⟩
  rw [(hy memo' hmemo'.1 hmemo'.2).1, hcarries type rfl]

/-- What one program finds, and what another one finds whose text stands `n` bytes further on. -/
def SameOutcome (n : Nat) : Option (Except RuntimeError Value) → Option (Except RuntimeError Value) → Prop
  | some (.ok a), some (.ok b) => a.kind = b.kind ∧ a.text = b.text
  | some (.error e), some (.error e') => e.message = e'.message ∧ e.span = e'.span.rebase n
  | none, none => True
  | _, _ => False

theorem sameOutcome_behind {f : Front} (hf : f.DeclaresExternals) (hp : p.ScopedBody False anyFunction [] [] p.body)
    (hp' : (p.behind f).ScopedBody False anyFunction [] [] (p.behind f).body) (steps : Nat) :
    SameOutcome f.shift.offset (p.evaluate steps) ((p.behind f).evaluate steps) := by
  rw [evaluate_eq_of_findsResolved findsResolved_byBinding hp,
    evaluate_eq_of_findsResolved findsResolved_byBinding hp']
  have htrails := runBy_trails (p := p) hf steps 0
  unfold Eval.outcome at htrails
  rw [evaluateBy, evaluateBy, htrails]
  cases (p.runBy byBinding steps).run 0 with
  | none => trivial
  | some r =>
      obtain ⟨found, now⟩ := r
      cases found with
      | error e => exact ⟨rfl, by simp [RuntimeError.moved, Span.moved, Span.rebase]⟩
      | ok a =>
          refine ⟨?_, (Value.text_behind (name_binding_behind f p) a).symm⟩
          rw [Value.kind_rekey, Value.kind_rekey, Value.kind_behind]

/-- The prelude is conservative. A valid program is valid behind it, with the same declarations behind those of
the prelude; they have types with the same texts, and so does the result. In any time, the program behind the prelude
comes to a value exactly if the program does, which is of the same kind and looks the same, or to the same error. -/
theorem prelude_conservative (h : check source = .ok p) : ∃ p', check (Prelude.prepend source) = .ok p' ∧
    List.Forall₂ (fun id id' => (p.binding id).name = (p'.binding id').name ∧
        SameText ((p.typeOfBinding id).run p.checked) ((p'.typeOfBinding id').run p'.checked))
      p.body.bindings (p'.body.bindings.drop Builtin.all.length) ∧
    SameText (p.resultType.run p.checked) (p'.resultType.run p'.checked) ∧
    ∀ steps, SameOutcome Prelude.offset (p.evaluate steps) (p'.evaluate steps) := by
  obtain ⟨f, hoffset, hexternals, hlength, h'⟩ := exists_check_prepend h
  have hlaid := laidOut_of_ofSource (check_eq_ok_iff.mp h).1
  have hlaid' := laidOut_of_ofSource (check_eq_ok_iff.mp h').1
  have htyped := fun id hid => ((hlaid.validate_eq_ok_iff.mp (check_eq_ok_iff.mp h).2).1 id hid).1
  refine ⟨p.behind f, h', ?_, ?_, fun steps => ?_⟩
  · rw [← hlength, behind, List.drop_left, List.forall₂_map_right_iff, List.forall₂_same]
    intro id hid
    refine ⟨(name_binding_behind f p id).symm, ?_⟩
    exact .of_carries (recalls_typeOfBinding hlaid id) (recalls_typeOfBinding hlaid' _) hlaid.knows_checked
      hlaid'.knows_checked (carries_plainTypeOfBinding f p id)
      (hlaid.exists_typeOfBinding htyped (hlaid.bindings id hid).1)
  · exact .of_carries (recalls_typeOf hlaid _) (recalls_typeOf hlaid' _) hlaid.knows_checked hlaid'.knows_checked
      (carries_plainType f p _) (htyped _ hlaid.result)
  · have hscoped {tree : Tree} {q : Program} (hq : ofTree tree = .ok q) :
        q.ScopedBody False anyFunction [] [] q.body := scopedBody_of_ofTree False.elim (fun _ _ _ => trivial) hq
    rw [← hoffset]
    exact sameOutcome_behind hexternals (hscoped (exists_of_check h).1) (hscoped (exists_of_check h').1) steps

/-- A program with a value under the name of a builtin, a builtin of its own, and a function that no one knows. -/
def ownSumSource : String :=
  "external def sum(...values: Number): Number\n" ++
  "external def absent(): Number\n" ++
  "val range = sum(1, 2)\n" ++
  "return if range < 4 then absent() else range"

theorem prelude_conservative_ownSum : ∃ p p', check ownSumSource = .ok p ∧
    check (Prelude.prepend ownSumSource) = .ok p' ∧
    SameText (p.resultType.run p.checked) (p'.resultType.run p'.checked) ∧
    ∀ steps, SameOutcome Prelude.offset (p.evaluate steps) (p'.evaluate steps) := by
  obtain ⟨p, hp⟩ := exists_of_isOk (show (check ownSumSource).isOk = true by decide +kernel)
  obtain ⟨p', hp', -, htext, hsame⟩ := prelude_conservative hp
  exact ⟨p, p', hp, hp', htext, hsame⟩

end Program

end Sable
