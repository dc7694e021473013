import Sable.Proofs.Meaning.Holds
import Sable.Proofs.Ty.Capture

/-! Assignability keeps its word: what has a type has every type that it is assignable to. -/
namespace Sable.Ty

open Matching

variable {S : Setting} {R : Matching} {ρ σ : Assignment}

/-! ## Meanings of variables that stand for each other -/

/-- Variables that stand for each other mean the same. -/
def Agree (R : Matching) (ρ σ : Assignment) : Prop := ∀ v w, R v w → ρ v = σ w

theorem agree_eq (ρ : Assignment) : Agree Eq ρ ρ := fun _ _ h => h ▸ rfl

theorem Agree.converse (h : Agree R ρ σ) : Agree (converse R) σ ρ := fun v w hvw => (h w v hvw).symm

/-- Whatever the variables that one type binds mean, those that the other binds may mean the same. -/
theorem Agree.bind (h : Agree R ρ σ) {vs ws : List TypeVariable} (hlength : vs.length = ws.length)
    {σ' : Assignment} (hσ' : ∀ x, x ∉ ws → σ' x = σ x) :
    ∃ ρ' : Assignment, (∀ x, x ∉ vs → ρ' x = ρ x) ∧ Agree (Matching.bind (vs.zip ws) R) ρ' σ' := by
  induction vs generalizing ws σ' with
  | nil =>
      cases ws with
      | cons _ _ => simp at hlength
      | nil =>
          obtain rfl : σ' = σ := funext fun x => hσ' x List.not_mem_nil
          exact ⟨ρ, fun _ _ => rfl, h⟩
  | cons a vs ih =>
      cases ws with
      | nil => simp at hlength
      | cons b ws =>
          -- the first pair is set last, for it hides the others
          have hrest : ∀ x, x ∉ ws → (if x = b then σ x else σ' x) = σ x := by
            intro x hx
            by_cases hxb : x = b
            · simp [hxb]
            · simp [hxb, hσ' x (by simp [hxb, hx])]
          obtain ⟨ρ', hρ', hagree⟩ := ih (Nat.succ.inj hlength) hrest
          refine ⟨fun x => if x = a then σ' b else ρ' x, fun x hx => ?_, fun v w hvw => ?_⟩
          · simp only [List.mem_cons, not_or] at hx
            simp [hx.1, hρ' x hx.2]
          · rcases hvw with ⟨rfl, rfl⟩ | ⟨hv, hw, hvw⟩
            · simp
            · have hvw' := hagree v w hvw
              simp only [hw, if_false] at hvw'
              simp [hv, hvw']

/-- Whatever the variables that the other type binds mean, those that the one binds may mean the same. -/
theorem Agree.bind_right (h : Agree R ρ σ) {vs ws : List TypeVariable} (hlength : vs.length = ws.length)
    {ρ' : Assignment} (hρ' : ∀ x, x ∉ vs → ρ' x = ρ x) :
    ∃ σ' : Assignment, (∀ x, x ∉ ws → σ' x = σ x) ∧ Agree (Matching.bind (vs.zip ws) R) ρ' σ' := by
  obtain ⟨σ', hσ', hagree⟩ := h.converse.bind hlength.symm hρ'
  rw [← converse_bind] at hagree
  exact ⟨σ', hσ', hagree.converse⟩

/-- A function stands for another one if, whatever the variables of that one mean, it takes the arguments
promised to that one and its results are as that one promises. -/
theorem Holds.function {vs ws : List TypeVariable} {ps qs : Parameters} {a b : Ty} {k : Nat} {v : Value}
    (h : (function vs ps a).Holds S ρ k v) (hcovers : Covers ps qs)
    (hstands : ∀ σ' : Assignment, (∀ x, x ∉ ws → σ' x = σ x) → ∃ ρ' : Assignment,
      (∀ x, x ∉ vs → ρ' x = ρ x) ∧
        (∀ j arguments, HoldsParameters S qs σ' j arguments → HoldsParameters S ps ρ' j arguments) ∧
          ∀ j w, a.Holds S ρ' j w → b.Holds S σ' j w) : (function ws qs b).Holds S σ k v := by
  obtain ⟨f, hv, hsuits, hcalls⟩ := h
  refine ⟨f, hv, S.suits_of_covers hsuits hcovers, fun σ' hσ' j hj arguments harguments => ?_⟩
  obtain ⟨ρ', hρ', hparameters, hresult⟩ := hstands σ' hσ'
  intro steps span
  exact Eval.Within.mono (hcalls ρ' hρ' j hj arguments (hparameters j arguments harguments) steps span)
    fun i w _ => hresult i w

/-! ## Alike types -/

mutual

/-- Alike types mean the same. -/
theorem Alike.holds_eq : ∀ {a b : Ty} {R : Matching} {ρ σ : Assignment}, a.Alike R b → Agree R ρ σ →
    a.Holds S ρ = b.Holds S σ
  | .number, b, _, _, _, h, _ | .boolean, b, _, _, _, h, _ | .bigInteger, b, _, _, _, h, _
  | .null, b, _, _, _, h, _ => by
      cases b <;> first | exact h.elim | rfl
  | .var v, b, _, _, _, h, hagree => by
      cases b with
      | var w =>
          funext k value
          simp only [Holds, hagree v w h]
      | _ => exact h.elim
  | .list a, b, _, _, _, h, hagree | .sequence a, b, _, _, _, h, hagree
  | .nullable a, b, _, _, _, h, hagree => by
      cases b with
      | list b | sequence b | nullable b =>
          first
          | exact h.elim
          | funext k value
            simp only [Holds, Alike.holds_eq (a := a) h hagree]
      | _ => exact h.elim
  | .tagged a tag, b, _, _, _, h, hagree => by
      cases b with
      | tagged b tag' =>
          obtain ⟨h, rfl⟩ := h
          funext k value
          simp only [Holds, Alike.holds_eq h hagree]
      | _ => exact h.elim
  | .object fields, b, _, _, _, h, hagree => by
      cases b with
      | object others =>
          funext k value
          simp only [Holds, AlikeFields.holds_eq h hagree]
      | _ => exact h.elim
  | .union fields narrowed, b, _, _, _, h, hagree => by
      cases b with
      | union others narrowed' =>
          obtain ⟨h, rfl⟩ := h
          funext k value
          simp only [Holds, AlikeFields.holdsAlternative_eq h hagree]
      | _ => exact h.elim
  | .function vs ps a, b, _, ρ, σ, h, hagree => by
      cases b with
      | function ws qs b =>
          obtain ⟨rfl, hps, ha⟩ := h
          have hps' := fun {ρ' σ'} (hagree' : Agree _ ρ' σ') =>
            AlikeParameters.holds_eq hps hagree'
          have ha' := fun {ρ' σ'} (hagree' : Agree _ ρ' σ') => Alike.holds_eq ha hagree'
          funext k value
          refine propext ⟨fun h => h.function hps.covers fun σ' hσ' => ?_,
            fun h => h.function hps.symm.covers fun ρ' hρ' => ?_⟩
          · obtain ⟨ρ', hρ', hagree'⟩ := hagree.bind rfl hσ'
            exact ⟨ρ', hρ', fun j arguments h => hps' hagree' ▸ h, fun j w h => ha' hagree' ▸ h⟩
          · obtain ⟨σ', hσ', hagree'⟩ := hagree.bind_right rfl hρ'
            exact ⟨σ', hσ', fun j arguments h => hps' hagree' ▸ h, fun j w h => ha' hagree' ▸ h⟩
      | _ => exact h.elim
termination_by structural a => a

theorem AlikeFields.holds_eq : ∀ {fields others : List (String × Ty)} {R : Matching}
    {ρ σ : Assignment}, AlikeFields R fields others → Agree R ρ σ →
    HoldsFields S fields ρ = HoldsFields S others σ
  | [], others, _, _, _, h, _ => by
      cases others with
      | nil => rfl
      | cons _ _ => exact h.elim
  | (_, a) :: rest, others, _, _, _, h, hagree => by
      cases others with
      | nil => exact h.elim
      | cons other rest' =>
          obtain ⟨rfl, ha, hrest⟩ := h
          funext k entries
          simp only [HoldsFields, Alike.holds_eq ha hagree, AlikeFields.holds_eq hrest hagree]
termination_by structural fields => fields

theorem AlikeFields.holdsAlternative_eq : ∀ {fields others : List (String × Ty)} {R : Matching}
    {ρ σ : Assignment}, AlikeFields R fields others → Agree R ρ σ →
    HoldsAlternative S fields ρ = HoldsAlternative S others σ
  | [], others, _, _, _, h, _ => by
      cases others with
      | nil => rfl
      | cons _ _ => exact h.elim
  | (_, a) :: rest, others, _, _, _, h, hagree => by
      cases others with
      | nil => exact h.elim
      | cons other rest' =>
          obtain ⟨rfl, ha, hrest⟩ := h
          funext k tag payload
          simp only [HoldsAlternative, Alike.holds_eq ha hagree,
            AlikeFields.holdsAlternative_eq hrest hagree]
termination_by structural fields => fields

theorem AlikeParameters.holds_eq : ∀ {ps qs : ParameterList (String × Ty)} {R : Matching}
    {ρ σ : Assignment}, AlikeParameters R ps qs → Agree R ρ σ →
    HoldsParameters S ps ρ = HoldsParameters S qs σ
  | .fixed ps, qs, _, _, _, h, hagree => by
      cases qs with
      | fixed qs =>
          have hlength : ps.length = qs.length := AlikeTypes.length_eq h
          have heach : HoldsEach S ps _ = HoldsEach S qs _ := AlikeTypes.holds_eq h hagree
          funext k arguments
          simp only [HoldsParameters, heach, hlength]
      | variadic _ => exact h.elim
  | .variadic (_, a), qs, _, _, _, h, hagree => by
      cases qs with
      | fixed _ => exact h.elim
      | variadic q =>
          funext k arguments
          simp only [HoldsParameters, Alike.holds_eq (a := a) h hagree]
termination_by structural ps => ps

theorem AlikeTypes.holds_eq : ∀ {ps qs : List (String × Ty)} {R : Matching} {ρ σ : Assignment},
    AlikeTypes R ps qs → Agree R ρ σ → HoldsEach S ps ρ = HoldsEach S qs σ
  | [], qs, _, _, _, h, _ => by
      cases qs with
      | nil => rfl
      | cons _ _ => exact h.elim
  | (_, a) :: rest, qs, _, _, _, h, hagree => by
      cases qs with
      | nil => exact h.elim
      | cons q rest' =>
          funext k arguments
          simp only [HoldsEach, Alike.holds_eq h.1 hagree, AlikeTypes.holds_eq h.2 hagree]
termination_by structural ps => ps

end

/-! ## Numbers of arguments -/

/-- Parameters that may stand for others without a surprise in the number of arguments: a variadic
function gets as many as it stands for, where these are exact, and a function that is promised an exact
number stands for no greater one. -/
def Accepts (exact : Nat → Prop) : Parameters → Parameters → Prop
  | .fixed own, .fixed required => own.length < required.length → ¬ exact own.length
  | .variadic _, .fixed required => exact required.length
  | _, .variadic _ => True

/-- Deciding whether `own` is assignable to `required` meets no surprise in numbers of arguments. -/
def KeepsArity (exact : Nat → Prop) (own required : Ty) : Prop :=
  ∀ (vs ws : List TypeVariable) (ps qs : Parameters) (a b : Ty),
    Question own required (function vs ps a) (function ws qs b) →
    (function vs ps a).same (function ws qs b) = false → vs.length = ws.length →
    Accepts exact ps qs

theorem KeepsArity.asks {exact : Nat → Prop} {a b a' b' : Ty} (h : KeepsArity exact a b)
    (hne : a.same b = false) (hasks : Asks a b a' b') : KeepsArity exact a' b' :=
  fun _ _ _ _ _ _ hquestion => h _ _ _ _ _ _ ((Question.start.step hne hasks).trans hquestion)

/-- Arguments promised to some parameters are taken by the parameters that stand for them. -/
theorem HoldsParameters.accepted {ps qs : Parameters} {j : Nat} {arguments : List Value}
    (h : HoldsParameters S qs σ j arguments) (hcovers : Covers ps qs)
    (haccepts : Accepts S.exact ps qs)
    (heach : ∀ (i : Nat) (p q : String × Ty) (v : Value), ps.get? i = some p → qs.get? i = some q →
      q.2.Holds S σ j v → p.2.Holds S ρ j v) : HoldsParameters S ps ρ j arguments := by
  obtain ⟨harity, hq⟩ := holdsParameters_iff.mp h
  refine holdsParameters_iff.mpr ⟨?_, fun i p v hp hv => ?_⟩
  · match ps, qs with
    | .fixed ps, .fixed qs =>
        refine ⟨Nat.le_trans hcovers harity.1, fun hexact => ?_⟩
        have hlength : ps.length = qs.length :=
          Nat.le_antisymm hcovers (Nat.not_lt.mp fun hlt => haccepts hlt hexact)
        exact (harity.2 (hlength ▸ hexact)).trans hlength.symm
    | .fixed _, .variadic _ => exact hcovers.elim
    | .variadic _, _ => trivial
  · have hexists : ∃ q, qs.get? i = some q := by
      obtain ⟨hi, -⟩ := List.getElem?_eq_some_iff.mp hv
      match ps, qs with
      | .fixed ps, .fixed qs =>
          obtain ⟨hi', -⟩ := List.getElem?_eq_some_iff.mp hp
          exact ⟨_, List.getElem?_eq_getElem (Nat.lt_of_lt_of_le hi' hcovers)⟩
      | .variadic _, .fixed qs =>
          exact ⟨_, List.getElem?_eq_getElem (harity.2 haccepts ▸ hi)⟩
      | _, .variadic q => exact ⟨q, rfl⟩
    obtain ⟨q, hq'⟩ := hexists
    exact heach i p q v hp hq' (hq i q v hq' hv)

/-! ## Assignability -/

theorem RenamesWell.holds {vs ws : List TypeVariable} {ps qs : Parameters} {a b : Ty} {k : Nat}
    {v : Value} (hlength : vs.length = ws.length) (hwell : RenamesWell vs ws qs b)
    (haccepts : Accepts S.exact ps qs) (hresult : a.same ((renamed vs ws).apply b) = true)
    (hcovers : Covers ps ((renamed vs ws).applyParameters qs))
    (hparameters : ∀ (i : Nat) (p q : String × Ty), ps.get? i = some p →
      ((renamed vs ws).applyParameters qs).get? i = some q → ∀ (ρ : Assignment) (j : Nat) (w : Value),
        q.2.Holds S ρ j w → p.2.Holds S ρ j w)
    (h : (function vs ps a).Holds S ρ k v) : (function ws qs b).Holds S ρ k v := by
  obtain ⟨hqs, hb⟩ := hwell
  refine h.function (hcovers.trans hqs.symm.covers) fun σ' hσ' => ?_
  obtain ⟨ρ', hρ', hagree⟩ := (agree_eq ρ).bind hlength hσ'
  have hagree' := hagree.converse
  rw [converse_bind, converse_eq] at hagree'
  refine ⟨ρ', hρ', fun j arguments harguments => ?_, fun j w hw => ?_⟩
  · refine harguments.accepted (hcovers.trans hqs.symm.covers) haccepts fun i p q w hp hq hw => ?_
    obtain ⟨q', hq'⟩ := hqs.symm.exists_get hq
    rw [(hqs.get hq hq').holds_eq hagree'] at hw
    exact hparameters i p q' hp hq' ρ' j w hw
  · rw [hb.holds_eq hagree']
    rwa [((alike_iff_same a fun _ _ => Iff.rfl).mpr hresult).holds_eq (agree_eq ρ')] at hw

theorem Holds.of_assignableUpTo (n : Nat) : ∀ {a b : Ty}, assignableUpTo n a b = .ok true →
    CapturesNothing a b → KeepsArity S.exact a b → ∀ {ρ : Assignment} {k : Nat} {v : Value},
      a.Holds S ρ k v → b.Holds S ρ k v := by
  have hequal : ∀ {a b : Ty} {ρ : Assignment} {k : Nat} {v : Value}, a.same b = true →
      a.Holds S ρ k v → b.Holds S ρ k v := by
    intro a b ρ k v hsame h
    rwa [((alike_iff_same a fun _ _ => Iff.rfl).mpr hsame).holds_eq (agree_eq ρ)] at h
  induction n with
  | zero =>
      intro a b h _ _ ρ k v
      exact hequal (Except.ok.inj h)
  | succ n ih =>
      intro a b h hcapture harity ρ k v hv
      cases hsame : a.same b with
      | true => exact hequal hsame hv
      | false =>
          have hpart : ∀ {a' b' : Ty}, Asks a b a' b' → assignableUpTo n a' b' = .ok true →
              ∀ {ρ : Assignment} {k : Nat} {v : Value}, a'.Holds S ρ k v → b'.Holds S ρ k v :=
            fun hasks h' => ih h' (hcapture.asks hsame hasks) (harity.asks hsame hasks)
          simp only [assignableUpTo] at h
          unfold assignableWith at h
          simp only [BEq.beq, hsame, Bool.false_eq_true, if_false] at h
          split at h
          · rename_i vs ps result ws qs wanted
            split at h
            · cases h
            · rename_i hlength
              have hlength := Decidable.not_not.mp hlength
              split at h
              · rename_i hresult
                obtain ⟨hcovers, hrelated⟩ := parametersRelated_eq_true_iff.mp h
                have hwell := hcapture vs ws ps qs result wanted .start hsame hlength
                have haccepts := harity vs ws ps qs result wanted .start hsame hlength
                refine hwell.holds hlength haccepts hresult hcovers ?_ hv
                intro i p q hp hq ρ j w
                exact hpart (.parameter hlength hp hq) (hrelated i p q hp hq)
              · cases h
          · rename_i payload tag alternatives narrowed
            split at h
            · cases h
            · rename_i b hget
              split at h
              · cases h
              · rename_i hnarrowed
                obtain ⟨w, rfl, hw⟩ := hv
                refine ⟨w, tag, rfl, fun t ht => ?_, ?_⟩
                · obtain rfl := Option.mem_def.mp ht
                  simpa using hnarrowed
                · exact holdsAlternative_iff.mpr ⟨b, hget, hpart (.tagged hget) h hw⟩
          · rename_i alternatives narrowed others narrowed'
            simp only [Except.ok.injEq, Bool.and_eq_true] at h
            obtain ⟨⟨-, hnone⟩, hsame'⟩ := h
            obtain ⟨payload, tag, rfl, -, hpayload⟩ := hv
            rw [((alikeFields_iff_sameFields _ fun _ _ => Iff.rfl).mpr hsame').holdsAlternative_eq
              (agree_eq ρ)] at hpayload
            refine ⟨payload, tag, rfl, fun t ht => ?_, hpayload⟩
            rw [Option.isNone_iff_eq_none.mp hnone] at ht
            cases ht
          · exact .inl hv
          · exact hv.imp_right (hpart .nullable h)
          · rename_i b hnull hoption
            have hplain : a.Plain := by
              cases a <;> first | trivial | exact absurd rfl hnull | exact absurd rfl (hoption _)
            exact .inr (hpart (.orNull hplain) h hv)
          · cases h

/-- A value has every type that its type is assignable to, if the question captures nothing and meets no
surprise in numbers of arguments. -/
theorem Holds.of_assignable {a b : Ty} {k : Nat} {v : Value} (hv : a.Holds S ρ k v)
    (h : assignable a b = .ok true) (hcapture : CapturesNothing a b)
    (harity : KeepsArity S.exact a b) : b.Holds S ρ k v :=
  Holds.of_assignableUpTo _ h hcapture harity hv

end Sable.Ty
