import Sable.Proofs.Lowering.Program
import Sable.Proofs.Soundness.Program
import Sable.Proofs.Typing.Validity

/-! Programs of the core: without type parameters on functions, without variadic parameters and without
external functions. There types tell the whole truth about values, and all that can go wrong in a program
that passes its checks is a division by zero. -/
namespace Sable

namespace Ty

theorem monomorphic_function {vs : List TypeVariable} {ps : Parameters} {result : Ty}
    (h : monomorphic (function vs ps result) = true) : vs = [] ∧ ∃ qs, ps = .fixed qs := by
  simp only [monomorphic, Bool.and_eq_true, List.isEmpty_iff] at h
  cases ps with
  | fixed qs => exact ⟨h.1, qs, rfl⟩
  | variadic _ => cases h.2

/-- Functions with fixed numbers of parameters may pass over all arguments that they do not take. -/
theorem keepsArity_of_monomorphic {a b : Ty} (ha : a.every monomorphic = true)
    (hb : b.every monomorphic = true) : KeepsArity (fun _ => False) a b := by
  intro vs ws ps qs r r' hquestion _ _
  obtain ⟨hown, hrequired⟩ := hquestion.every bindsNothing_of_monomorphic ha hb
  obtain ⟨-, own, rfl⟩ := monomorphic_function (every_root hown)
  obtain ⟨-, required, rfl⟩ := monomorphic_function (every_root hrequired)
  exact fun _ => not_false

end Ty

namespace Program

variable {p : Program}

/-- What types mean in a program of the core. Functions are closures that take no more arguments than
their types say, and they may get more than they take. -/
def core (p : Program) : Setting where
  program := p
  allowed fault := fault = .divisionByZero
  exact _ := False
  suits f ps := ∃ identity c names, f = .closure identity c ∧ c.parameters = .fixed names ∧
    Ty.Covers (.fixed names) ps
  suits_of_covers := fun ⟨identity, c, names, hf, hc, hnames⟩ hcovers =>
    ⟨identity, c, names, hf, hc, hnames.trans hcovers⟩

/-- The value has the type, for every budget of time. -/
def Inhabits (p : Program) (type : Ty) (v : Value) : Prop :=
  ∀ k, type.Holds p.core (fun _ => .nothing) k v

/-- In a plain program, types that obey the rules can be trusted. -/
theorem core_trusts {τ : TypeTable} (hobeys : p.Obeys τ) :
    p.core.Trusts τ True fun _ _ => False where
  obeys := hobeys
  contained := fun h => absurd trivial h
  fits := fun a b _ ha hb h ρ k v hv => hv.of_assignable h
    (Ty.capturesNothing_of_every Ty.bindsNothing_of_monomorphic (ha trivial) (hb trivial))
    (Ty.keepsArity_of_monomorphic (ha trivial) (hb trivial))
  spared := fun hcall hplain hs => by
    cases hcall with
    | mk _ _ _ hinstance =>
        rw [hinstance.eq_empty (hplain trivial)] at hs
        cases hs
  suits := fun {_ s identity c} hs hparameters => by
    obtain ⟨-, hfixed⟩ := hs.monomorphic trivial
    have hids := hs.parameters
    unfold parameterKeys at hparameters
    cases hsignature : s.arguments with
    | variadic _ => simp [hsignature, ParameterList.isVariadic] at hfixed
    | fixed ps =>
        rw [hsignature] at hids hparameters
        refine ⟨identity, c, _, rfl, hparameters, ?_⟩
        simp only [Ty.Covers, List.length_map]
        exact Nat.le_of_eq hids.length_eq
  divisionByZero := rfl
  native := False.elim

/-! ## Values of the types of the core -/

section

variable {a : Ty} {fields alternatives : Fields Ty} {tag : String} {narrowed : Option String}
  {v : Value}

theorem inhabits_number : p.Inhabits .number v ↔ ∃ x, v = .number x :=
  ⟨fun h => h 0, fun h _ => h⟩

theorem inhabits_boolean : p.Inhabits .boolean v ↔ ∃ b, v = .boolean b :=
  ⟨fun h => h 0, fun h _ => h⟩

theorem inhabits_bigInteger : p.Inhabits .bigInteger v ↔ ∃ n, v = .bigInteger n :=
  ⟨fun h => h 0, fun h _ => h⟩

theorem inhabits_null : p.Inhabits .null v ↔ v = .null := ⟨fun h => h 0, fun h _ => h⟩

theorem inhabits_nullable : p.Inhabits (.nullable a) v ↔ v = .null ∨ p.Inhabits a v := by
  constructor
  · intro h
    by_cases hnull : v = .null
    · exact .inl hnull
    · exact .inr fun k => (h k).resolve_left hnull
  · rintro (h | h) k
    · exact .inl h
    · exact .inr (h k)

theorem inhabits_tagged :
    p.Inhabits (.tagged a tag) v ↔ ∃ payload, v = .tagged payload tag ∧ p.Inhabits a payload := by
  constructor
  · intro h
    obtain ⟨payload, rfl, -⟩ := h 0
    refine ⟨payload, rfl, fun k => ?_⟩
    obtain ⟨payload', hv, hpayload⟩ := h k
    obtain ⟨rfl, -⟩ := Value.tagged.inj hv
    exact hpayload
  · rintro ⟨payload, rfl, hpayload⟩ k
    exact ⟨payload, rfl, hpayload k⟩

theorem inhabits_union : p.Inhabits (.union alternatives narrowed) v ↔
    ∃ payload tag type, v = .tagged payload tag ∧ (∀ t ∈ narrowed, t = tag) ∧
      Fields.get? tag alternatives = some type ∧ p.Inhabits type payload := by
  constructor
  · intro h
    obtain ⟨payload, tag, rfl, hnarrowed, hpayload⟩ := h 0
    obtain ⟨type, hget, -⟩ := Ty.holdsAlternative_iff.mp hpayload
    refine ⟨payload, tag, type, rfl, hnarrowed, hget, fun k => ?_⟩
    obtain ⟨payload', tag', hv, -, hpayload'⟩ := h k
    obtain ⟨rfl, rfl⟩ := Value.tagged.inj hv
    obtain ⟨type', hget', htype'⟩ := Ty.holdsAlternative_iff.mp hpayload'
    obtain rfl := Option.some.inj (hget.symm.trans hget')
    exact htype'
  · rintro ⟨payload, tag, type, rfl, hnarrowed, hget, htype⟩ k
    exact ⟨payload, tag, rfl, hnarrowed, Ty.holdsAlternative_iff.mpr ⟨type, hget, htype k⟩⟩

theorem inhabits_object : p.Inhabits (.object fields) v ↔ ∃ entries, v = .object entries ∧
    List.Forall₂ (fun field entry => field.1 = entry.1 ∧ p.Inhabits field.2 entry.2)
      fields entries := by
  have heach : ∀ entries, (∀ k, Ty.HoldsFields p.core fields (fun _ => .nothing) k entries) ↔
      List.Forall₂ (fun field entry => field.1 = entry.1 ∧ p.Inhabits field.2 entry.2)
        fields entries := by
    induction fields with
    | nil =>
        intro entries
        rw [List.forall₂_nil_left_iff]
        exact ⟨fun h => h 0, fun h _ => h⟩
    | cons field rest ih =>
        intro entries
        obtain ⟨name, a⟩ := field
        rw [List.forall₂_cons_left_iff]
        constructor
        · intro h
          obtain ⟨w, others, rfl, -, -⟩ := h 0
          have hpart : ∀ k, a.Holds p.core (fun _ => .nothing) k w ∧
              Ty.HoldsFields p.core rest (fun _ => .nothing) k others := by
            intro k
            obtain ⟨w', others', hentries, hw, hothers⟩ := h k
            obtain ⟨hentry, rfl⟩ := List.cons.inj hentries
            obtain ⟨-, rfl⟩ := Prod.mk.inj hentry
            exact ⟨hw, hothers⟩
          exact ⟨(name, w), others, ⟨rfl, fun k => (hpart k).1⟩,
            (ih others).mp fun k => (hpart k).2, rfl⟩
        · rintro ⟨⟨own, w⟩, others, ⟨rfl, hw⟩, hothers, rfl⟩ k
          exact ⟨w, others, rfl, hw k, (ih others).mpr hothers k⟩
  constructor
  · intro h
    obtain ⟨entries, rfl, -⟩ := h 0
    refine ⟨entries, rfl, (heach entries).mp fun k => ?_⟩
    obtain ⟨entries', hv, hentries⟩ := h k
    obtain rfl := Value.object.inj hv
    exact hentries
  · rintro ⟨entries, rfl, hentries⟩ k
    exact ⟨entries, rfl, (heach entries).mpr hentries k⟩

end

/-- Ends, if at all, with a value of the type or in a division by zero. -/
def Delivers (p : Program) (type : Ty) (found : Except RuntimeError Value) : Prop :=
  (∃ v, found = .ok v ∧ p.Inhabits type v) ∨ ∃ e, found = .error e ∧ e.fault = .divisionByZero

/-- A value of a function type is a closure that takes no more arguments than the type says, and its calls
with values of the types of the parameters deliver the result. -/
theorem Inhabits.function {ps : List (String × Ty)} {result : Ty} {v : Value}
    (h : p.Inhabits (.function [] (.fixed ps) result) v) :
    (∃ identity c names, v = .function (.closure identity c) ∧ c.parameters = .fixed names ∧
      names.length ≤ ps.length) ∧
    ∀ arguments, List.Forall₂ (fun q a => p.Inhabits q.2 a) ps arguments →
      ∀ (steps : Nat) (span : Span) (now later : Nat) (found : Except RuntimeError Value),
        (p.call steps v arguments span).run now = some (found, later) → p.Delivers result found := by
  constructor
  · obtain ⟨_, rfl, ⟨identity, c, names, rfl, hnames, hcovers⟩, -⟩ := h 0
    exact ⟨identity, c, names, rfl, hnames, hcovers⟩
  · intro arguments harguments steps span now later found hrun
    have hholds : ∀ k, Ty.HoldsParameters p.core (.fixed ps) (fun _ => .nothing) k arguments := by
      intro k
      refine Ty.holdsParameters_iff.mpr ⟨⟨Nat.le_of_eq harguments.length_eq, False.elim⟩, ?_⟩
      intro i q a hq ha
      obtain ⟨hi, rfl⟩ := List.getElem?_eq_some_iff.mp hq
      obtain ⟨hi', rfl⟩ := List.getElem?_eq_some_iff.mp ha
      exact harguments.get hi hi' k
    have hwithin : ∀ k, Eval.Within p.core.allowed k (p.call steps v arguments span)
        (result.Holds p.core fun _ => .nothing) := by
      intro k
      obtain ⟨_, rfl, -, hcalls⟩ := h k
      exact hcalls _ (fun _ _ => rfl) k (Nat.le_refl k) arguments (hholds k) steps span
    cases found with
    | ok r =>
        refine .inl ⟨r, rfl, fun k => ?_⟩
        have hforward := (p.call steps v arguments span).forward hrun
        have hr := hwithin (later - now + k) now later _ hrun (by omega)
        rwa [show now + (later - now + k) - later = k by omega] at hr
    | error e => exact .inr ⟨e, rfl, hwithin (later - now) now later _ hrun (by omega)⟩

/-! ## Programs of the core -/

theorem exists_of_check {source : String} {p : Program} (h : check source = .ok p) :
    ofTree (parse source).tree = .ok p ∧ (p.validate.run p.blank).1 = .ok () := by
  obtain ⟨hsource, hvalidate⟩ := check_eq_ok_iff.mp h
  exact ⟨ofTree_of_ofSource hsource, hvalidate⟩

/-- A program of the core that passes its checks has a type, and it comes to a value of the type unless it
runs for ever or divides by zero. -/
theorem evaluate_delivers {source : String} {p : Program}
    (hcore : (parse source).tree.body.isCore = true) (h : check source = .ok p) :
    ∃ type, (p.resultType.run p.checked).1 = .ok type ∧
      ∀ (steps : Nat) (found : Except RuntimeError Value),
        p.evaluate steps = some found → p.Delivers type found := by
  obtain ⟨htree, hvalidate⟩ := exists_of_check h
  obtain ⟨hobeys, hvalid⟩ := valid_of_validate hvalidate
  obtain ⟨type, htype⟩ := hvalid.typed
  have hscoped : p.core.program.ScopedBody True (fun _ _ => False) [] [] p.body := by
    refine scopedBody_of_ofTree (fun _ => hcore) (fun hext => ?_) htree
    rw [Body.hasExternal_of_isCore hcore] at hext
    cases hext
  refine ⟨type, ?_, fun steps found hrun => ?_⟩
  · rw [resultType, run_typeOf_checked (result_lt_of_ofTree htree) htype]
  · exact Setting.evaluate_sound (core_trusts hobeys) hscoped hvalid htype _ hrun

def factorialSource : String :=
  "def factorial(n: BigInteger): BigInteger = if n < 2n then 1n else n * factorial(n - 1n)\n" ++
  "return factorial"

theorem evaluate_delivers_factorial : ∃ p, check factorialSource = .ok p ∧
    ∃ type, (p.resultType.run p.checked).1 = .ok type ∧
      ∀ (steps : Nat) (found : Except RuntimeError Value),
        p.evaluate steps = some found → p.Delivers type found := by
  obtain ⟨p, hp⟩ := exists_of_isOk (show (check factorialSource).isOk = true by decide +kernel)
  exact ⟨p, hp, evaluate_delivers (by decide +kernel) hp⟩

end Program

end Sable
