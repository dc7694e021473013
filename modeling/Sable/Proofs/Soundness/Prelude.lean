import Sable.Proofs.Prelude.Conservative
import Sable.Proofs.Soundness.Regular

/-! Programs behind the prelude.

A text without external functions that passes its checks behind the prelude comes to a value of its type, or to a
fault that types do not rule out. So it is as long as the checks do not go wrong where they are known to: inference
must not descend under binders, type arguments and renamings must capture nothing, and a function may stand for one
that takes more arguments only where it passes over those that it does not take. A closure does, and a builtin does
not. -/
namespace Sable

/-! ## Functions without a body -/

namespace Lowering

theorem DeclarationsSound.append {plain : Prop} {native : String → Signature → Prop} {vs : List TypeVariable}
    {scope mid last : Scope} {d d₁ d₂ : Draft} {ids ids' : List BindingId}
    (h : DeclarationsSound plain native vs scope mid d d₁ ids)
    (h' : DeclarationsSound plain native vs mid last d₁ d₂ ids') :
    DeclarationsSound plain native vs scope last d d₂ (ids ++ ids') := by
  obtain ⟨hd₁, -, hids⟩ := h
  obtain ⟨hd₂, hlast, hids'⟩ := h'
  refine ⟨hd₁.trans hd₂, hlast, fun p hp => ?_⟩
  exact (hids p (hp.earlier hd₂ (Nat.le_refl _))).append (hids' p (hp.earlier (.refl _) hd₁.size))

/-- The declarations of the prelude are those of builtins, with their types. -/
theorem declarationsSound_builtins {bs : List Builtin} {ds : List Declaration} {scope : Scope} {d : Draft}
    {ids : List BindingId} (h : List.Forall₂ Builtin.DeclaredBy bs ds)
    (hrun : (lowerDeclarations .root ds).run ⟨#[], #[], 0⟩ = .ok ((ids, scope), d)) :
    DeclarationsSound False Builtin.Declares [] .root scope ⟨#[], #[], 0⟩ d ids := by
  have hroot : Rootlike ⟨#[], #[], 0⟩ .root := ⟨scopeSound_root, fun _ => rfl⟩
  obtain ⟨_, _, _, hrun', -, -, -, hids⟩ := exists_lowerDeclarations_builtins h hroot
  cases hrun.symm.trans hrun'
  have hany : Declaration.haveExternal ds = true → ∀ name s, Program.anyFunction name s := fun _ _ _ => trivial
  obtain ⟨hgrows, hscope, hscoped⟩ := lowerDeclarations_sound ds False.elim hany scopeSound_root hrun
  refine ⟨hgrows, hscope, fun p hp => (hscoped p hp).of_natives fun id hid => ?_⟩
  obtain ⟨name, span, s, hbinding, hdeclares⟩ := hids id hid
  exact ⟨name, span, s, hp.binding (Nat.zero_le _) hbinding, hdeclares⟩

end Lowering

namespace Program

open Ty Lowering

variable {source : String} {p : Program} {τ : TypeTable} {exact : Nat → Prop}

/-- Behind the prelude, a text without external functions has no functions without a body but the builtins. -/
theorem scopedBody_of_check_prepend
    (hfirst : ∀ t ∈ (scan source).tokens.head?, t.value ≠ .mark .leftBracket ∧ t.value ≠ .mark .question)
    (hexternal : (parse source).tree.body.hasExternal = false) (h : check (Prelude.prepend source) = .ok p) :
    p.ScopedBody False Builtin.Declares [] [] p.body := by
  have hread : (parse source).errors = [] := by
    rw [← (Prelude.parse_prepend source hfirst).1, errors_parse_of_ofSource (check_eq_ok_iff.mp h).1, List.map_nil]
  obtain ⟨hne, hends⟩ := tokens_of_errors hread
  obtain ⟨m, ds, span, nodes, -, hds, hparse⟩ := Prelude.exists_parse_prepend hne hends
  have htree := (exists_of_check h).1
  rw [hparse] at htree
  obtain ⟨d, hrun, hnodes, hbindings⟩ := lowerBody_of_ofTree htree
  obtain ⟨⟨ids, scope⟩, d₂, hdeclarations, hrun⟩ := run_bind_eq_ok.mp hrun
  obtain ⟨node, d₃, hnode, hrun⟩ := run_bind_eq_ok.mp hrun
  obtain ⟨hbody, rfl⟩ := Prod.mk.inj (run_pure_eq_ok.mp hrun)
  obtain ⟨ids₁, mid, d₁, ids₂, hfront, hrest, rfl⟩ := run_lowerDeclarations_append.mp hdeclarations
  have hown : Declaration.haveExternal ((parse source).tree.body.declarations.map (Declaration.moved m)) = false := by
    rw [← Declaration.movedEach_eq_map, Declaration.haveExternal_moved]
    cases hbody : (parse source).tree.body with
    | mk declarations result span =>
        rw [hbody] at hexternal
        exact hexternal
  have hbuiltins := declarationsSound_builtins hds hfront
  have hnone : Declaration.haveExternal ((parse source).tree.body.declarations.map (Declaration.moved m)) = true →
      ∀ name s, Builtin.Declares name s := fun h => by rw [hown] at h; cases h
  obtain ⟨hgrows, hscope, hids⟩ := hbuiltins.append (lowerDeclarations_sound _ False.elim hnone hbuiltins.2.1 hrest)
  obtain ⟨hgrows', hresult⟩ := lowerExpr_sound _ False.elim hscope hnode
  have hagrees : Agrees p d 0 := ⟨fun _ _ hn => hnodes ▸ hn, fun _ _ _ hb => hbindings ▸ hb⟩
  rw [hbody]
  exact .mk (hids p (hagrees.earlier hgrows' (Nat.zero_le _))) (hresult p (hagrees.earlier (.refl _) (Nat.zero_le _))).2

theorem holds_external {name : String} {s : Signature} {result : Ty} (h : Builtin.Declares name s)
    (hresult : s.result = some result) (ρ : Assignment) (k : Nat) :
    (Ty.function s.typeVariables s.arguments result).Holds (p.withBuiltins exact) ρ k (externalValue name) := by
  obtain ⟨b, own, hname, hown, htype⟩ := h
  obtain rfl := Option.some.inj (hresult.symm.trans hown)
  simp only [externalValue, hname]
  exact Builtin.holds htype

/-! ## What programs come to -/

/-- In a regular program that declares builtins with their types, types can be trusted. -/
theorem Regular.trusts (h : p.Regular τ exact) (hobeys : p.Obeys τ) :
    (p.withBuiltins exact).Trusts τ False Builtin.Declares where
  obeys := hobeys
  contained := fun _ => h.infers
  fits := fun _ _ hasked _ _ hfits _ _ _ hv =>
    hv.of_assignable hfits (h.captures hasked hfits) (h.keepsArity hasked hfits)
  spared := fun hcall _ hs => h.spares hcall hs
  suits := fun _ _ => trivial
  divisionByZero := .divisionByZero
  native := fun hdeclares hresult ρ k => holds_external hdeclares hresult ρ k

/-- A text without external functions that passes its checks behind the prelude, and is regular, has a type; and it
comes to a value of the type, or to a fault that types do not rule out, unless it runs for ever. -/
theorem evaluate_behind_prelude
    (hfirst : ∀ t ∈ (scan source).tokens.head?, t.value ≠ .mark .leftBracket ∧ t.value ≠ .mark .question)
    (hexternal : (parse source).tree.body.hasExternal = false) (h : check (Prelude.prepend source) = .ok p)
    (hregular : p.Regular p.types exact) :
    ∃ type, (p.resultType.run p.checked).1 = .ok type ∧
      ∀ (steps : Nat) (found : Except RuntimeError Value), p.evaluate steps = some found →
        (∃ v, found = .ok v ∧ ∀ ρ k, type.Holds (p.withBuiltins exact) ρ k v) ∨
          ∃ e, found = .error e ∧ Unavoidable exact e.fault := by
  obtain ⟨htree, hvalidate⟩ := exists_of_check h
  obtain ⟨hobeys, hvalid⟩ := valid_of_validate hvalidate
  obtain ⟨type, htype⟩ := hvalid.typed
  have hscoped := scopedBody_of_check_prepend hfirst hexternal h
  refine ⟨type, ?_, fun steps found hrun => ?_⟩
  · rw [resultType, run_typeOf_checked (result_lt_of_ofTree htree) htype]
  · have hsound := fun ρ =>
      Setting.evaluate_sound (S := p.withBuiltins exact) (hregular.trusts hobeys) hscoped hvalid htype ρ hrun
    cases found with
    | ok v =>
        refine .inl ⟨v, rfl, fun ρ => ?_⟩
        rcases hsound ρ with ⟨w, hw, hholds⟩ | ⟨e, he, -⟩
        · cases hw
          exact hholds
        · cases he
    | error e =>
        rcases hsound fun _ => .nothing with ⟨v, hv, -⟩ | ⟨e', he, hallowed⟩
        · cases hv
        · exact .inr ⟨e', he, hallowed⟩

/-- Functions that take one argument stand for others that take two, a builtin stands for a generic function with
type parameters of its own, and a variadic one for a function of two parameters. -/
def standInSource : String :=
  "def each[A, B](items: List[A], f: (item: A, last: Boolean) -> B): Sequence[B] =\n" ++
  "  map(sequence(items), fn(item: A) => f(item, false))\n" ++
  "def count(measure: [T](items: List[T]) -> Number): Number = measure(list(true)) + measure(list(1, 2))\n" ++
  "def fold(f: (a: Number, b: Number) -> Number): Number = f(1, 2)\n" ++
  "return take(each(list(1, 2), fn(x: Number) => 10 / x), count(length) - fold(sum))"

theorem evaluate_behind_prelude_standIn :
    (∀ t ∈ (scan standInSource).tokens.head?, t.value ≠ .mark .leftBracket ∧ t.value ≠ .mark .question) ∧
      (parse standInSource).tree.body.hasExternal = false ∧ ∃ p, check (Prelude.prepend standInSource) = .ok p ∧
        p.Regular p.types (· ≠ 1) ∧ ∃ type, (p.resultType.run p.checked).1 = .ok type ∧
          ∀ (steps : Nat) (found : Except RuntimeError Value), p.evaluate steps = some found →
            (∃ v, found = .ok v ∧ ∀ ρ k, type.Holds (p.withBuiltins (· ≠ 1)) ρ k v) ∨
              ∃ e, found = .error e ∧ Unavoidable (· ≠ 1) e.fault := by
  obtain ⟨hfirst, hexternal⟩ : (∀ t ∈ (scan standInSource).tokens.head?,
      t.value ≠ .mark .leftBracket ∧ t.value ≠ .mark .question) ∧
        (parse standInSource).tree.body.hasExternal = false := by
    rw [parse, scan]
    unfold standInSource
    repeat rw [String.toList_append]
    repeat rw [String.toList_ofList]
    decide +kernel
  have hrun : ((check (Prelude.prepend standInSource)).toOption.any fun p => p.isRegular p.types (· ≠ 1)) = true := by
    rw [check, ofSource, parse, scan, Prelude.prepend]
    unfold Prelude.text standInSource
    repeat rw [String.toList_append]
    repeat rw [String.toList_ofList]
    decide +kernel
  obtain ⟨p, hcheck, hp⟩ := exists_of_any hrun
  have hregular : p.Regular p.types (· ≠ 1) := regular_of_isRegular hp
  exact ⟨hfirst, hexternal, p, hcheck, hregular, evaluate_behind_prelude hfirst hexternal hcheck hregular⟩

/-- A builtin that takes one argument stands for a function that takes two. -/
def surplusSource : String :=
  "def apply(g: (value: Number, extra: Number) -> BigInteger): BigInteger = g(1, 2) return apply(bigint)"

/-- The builtin whose argument count ends the run, with the number of arguments it takes and the number it gets. -/
def argumentCounts? (p : Program) (steps : Nat) : Option (Builtin × Nat × Nat) :=
  match p.evaluate steps with
  | some (.error ⟨.builtinArgumentCount b expected actual, _⟩) => some (b, expected, actual)
  | _ => none

theorem exists_of_argumentCounts? {p : Program} {steps n m : Nat} {b : Builtin}
    (h : p.argumentCounts? steps = some (b, n, m)) :
    ∃ e, p.evaluate steps = some (.error e) ∧ e.fault = .builtinArgumentCount b n m := by
  unfold argumentCounts? at h
  split at h
  · next hrun =>
      cases h
      exact ⟨_, hrun, rfl⟩
  · cases h

/-- The checks let the program pass, and the builtin gets one argument too many. -/
theorem evaluate_surplus : (parse surplusSource).tree.body.hasExternal = false ∧ ∃ p e,
    check (Prelude.prepend surplusSource) = .ok p ∧ p.evaluate 20 = some (.error e) ∧
      e.fault = .builtinArgumentCount .bigint 1 2 := by
  have hexternal : (parse surplusSource).tree.body.hasExternal = false := by
    rw [parse, scan, surplusSource, String.toList_ofList]
    decide +kernel
  have hrun : ((check (Prelude.prepend surplusSource)).toOption.any fun p =>
      p.argumentCounts? 20 = some (.bigint, 1, 2)) = true := by
    rw [check, ofSource, parse, scan, Prelude.prepend]
    unfold Prelude.text surplusSource
    repeat rw [String.toList_append]
    repeat rw [String.toList_ofList]
    decide +kernel
  obtain ⟨p, hcheck, hp⟩ := exists_of_any hrun
  obtain ⟨e, hend, hfault⟩ := exists_of_argumentCounts? (of_decide_eq_true hp)
  exact ⟨hexternal, p, e, hcheck, hend, hfault⟩

end Program

end Sable
