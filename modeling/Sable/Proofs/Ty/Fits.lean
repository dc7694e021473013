import Sable.Proofs.Ty.Alike
import Sable.Ty.Assignable

/-! Assignability as a relation, one rule a shape.

Where the decision procedure renames the variables that a required function type binds, the relation
keeps both types as they are and remembers which variable stands for which. -/
namespace Sable.Ty

open Matching

/-! ## Parts of alike types -/

theorem AlikeFields.get? {R : Matching} {fields others : Fields Ty} {tag : String} {a : Ty}
    (h : AlikeFields R fields others) (hget : Fields.get? tag fields = some a) :
    ∃ b, Fields.get? tag others = some b ∧ a.Alike R b := by
  induction fields generalizing others with
  | nil => simp [Fields.get?] at hget
  | cons field rest ih =>
      cases others with
      | nil => exact h.elim
      | cons other rest' =>
          obtain ⟨hname, ha, hrest⟩ := h
          simp only [Fields.get?, ← hname] at hget ⊢
          split
          · rw [if_pos ‹_›] at hget
            obtain rfl := Option.some.inj hget
            exact ⟨other.2, rfl, ha⟩
          · rw [if_neg ‹_›] at hget
            exact ih hrest hget

theorem AlikeFields.names {R : Matching} {fields others : Fields Ty}
    (h : AlikeFields R fields others) : Fields.names fields = Fields.names others := by
  induction fields generalizing others with
  | nil => cases others with
    | nil => rfl
    | cons _ _ => exact h.elim
  | cons field rest ih =>
      cases others with
      | nil => exact h.elim
      | cons other rest' => 
          simp only [Fields.names, List.map_cons, h.1]
          exact congrArg (_ :: ·) (ih h.2.2)

theorem AlikeTypes.length_eq {R : Matching} {ps qs : List (String × Ty)} (h : AlikeTypes R ps qs) :
    ps.length = qs.length := by
  induction ps generalizing qs with
  | nil => cases qs with
    | nil => rfl
    | cons _ _ => exact h.elim
  | cons p rest ih =>
      cases qs with
      | nil => exact h.elim
      | cons q rest' => exact congrArg (· + 1) (ih h.2)

theorem AlikeTypes.get {R : Matching} {ps qs : List (String × Ty)} (h : AlikeTypes R ps qs)
    {i : Nat} {p q : String × Ty} (hp : ps[i]? = some p) (hq : qs[i]? = some q) :
    p.2.Alike R q.2 := by
  induction ps generalizing qs i with
  | nil => simp at hp
  | cons p' rest ih =>
      cases qs with
      | nil => exact h.elim
      | cons q' rest' =>
          cases i with
          | zero =>
              simp only [List.getElem?_cons_zero, Option.some.injEq] at hp hq
              subst hp hq
              exact h.1
          | succ i => exact ih h.2 hp hq

theorem AlikeParameters.get {R : Matching} {ps qs : Parameters} (h : AlikeParameters R ps qs)
    {i : Nat} {p q : String × Ty} (hp : ps.get? i = some p) (hq : qs.get? i = some q) :
    p.2.Alike R q.2 := by
  match ps, qs with
  | .fixed ps, .fixed qs => exact AlikeTypes.get h hp hq
  | .variadic p', .variadic q' =>
      obtain rfl := Option.some.inj hp
      obtain rfl := Option.some.inj hq
      exact h
  | .fixed _, .variadic _ | .variadic _, .fixed _ => exact h.elim

theorem AlikeParameters.exists_get {R : Matching} {ps qs : Parameters}
    (h : AlikeParameters R ps qs) {i : Nat} {q : String × Ty} (hq : qs.get? i = some q) :
    ∃ p, ps.get? i = some p := by
  match ps, qs with
  | .fixed ps, .fixed qs =>
      obtain ⟨hi, -⟩ := List.getElem?_eq_some_iff.mp hq
      exact ⟨_, List.getElem?_eq_getElem (h.length_eq ▸ hi)⟩
  | .variadic p', .variadic _ => exact ⟨p', rfl⟩
  | .fixed _, .variadic _ | .variadic _, .fixed _ => exact h.elim

theorem size_le_of_get {ps : Parameters} {i : Nat} {p : String × Ty} (h : ps.get? i = some p) :
    p.2.size ≤ sizeParameters ps := by
  match ps with
  | .variadic p' =>
      obtain rfl := Option.some.inj h
      exact Nat.le_refl _
  | .fixed ps =>
      simp only [ParameterList.get?, sizeParameters] at h ⊢
      induction ps generalizing i with
      | nil => simp at h
      | cons p' rest ih =>
          simp only [sizeFields]
          cases i with
          | zero =>
              obtain rfl := Option.some.inj h
              omega
          | succ i =>
              have hrest := ih h
              omega

theorem size_le_of_field {fields : Fields Ty} {tag : String} {a : Ty}
    (h : Fields.get? tag fields = some a) : a.size ≤ sizeFields fields := by
  induction fields with
  | nil => simp [Fields.get?] at h
  | cons field rest ih =>
      simp only [Fields.get?, sizeFields] at h ⊢
      split at h
      · obtain rfl := Option.some.inj h
        omega
      · have hrest := ih h
        omega

/-! ## Parameters that cover others -/

/-- Parameters that take whatever number of arguments the required ones take. -/
def Covers {α β : Type} : ParameterList α → ParameterList β → Prop
  | .fixed own, .fixed required => own.length ≤ required.length
  | .variadic _, _ => True
  | .fixed _, .variadic _ => False

theorem Covers.trans {α β γ : Type} {ps : ParameterList α} {qs : ParameterList β}
    {rs : ParameterList γ} (h : Covers ps qs) (h' : Covers qs rs) : Covers ps rs := by
  match ps, qs, rs with
  | .fixed _, .fixed _, .fixed _ => exact Nat.le_trans h h'
  | .variadic _, _, _ => trivial
  | .fixed _, .variadic _, _ => exact h.elim
  | .fixed _, .fixed _, .variadic _ => exact h'

theorem AlikeParameters.covers {R : Matching} {ps qs : Parameters} (h : AlikeParameters R ps qs) :
    Covers ps qs := by
  match ps, qs with
  | .fixed ps, .fixed qs => exact Nat.le_of_eq (AlikeTypes.length_eq h)
  | .variadic _, _ => trivial
  | .fixed _, .variadic _ => exact h.elim

/-- The obligations are the pairs of the parameters at one position. -/
theorem obligations?_eq_some_iff {own required : Parameters} {P : Ty → Ty → Prop} :
    (∃ pairs, obligations? own required = some pairs ∧ ∀ pair ∈ pairs, P pair.1 pair.2) ↔
      Covers own required ∧ ∀ i p q, own.get? i = some p → required.get? i = some q → P q.2 p.2 := by
  match own, required with
  | .fixed own, .fixed required =>
      simp only [obligations?, Covers, ParameterList.get?]
      split
      · simp; omega
      · rename_i hlen
        simp only [Option.some.injEq, exists_eq_left', Nat.not_lt.mp hlen, true_and]
        constructor
        · intro h i p q hp hq
          refine h (q.2, p.2) (List.mem_iff_getElem?.mpr ⟨i, ?_⟩)
          simp [List.getElem?_zip_eq_some, hp, hq]
        · intro h pair hpair
          obtain ⟨i, hi⟩ := List.mem_iff_getElem?.mp hpair
          simp only [List.getElem?_zip_eq_some, List.getElem?_map, Option.map_eq_some_iff] at hi
          obtain ⟨⟨q, hq, hq'⟩, p, hp, hp'⟩ := hi
          rw [← hq', ← hp']
          exact h i p q hp hq
  | .variadic own, .fixed required =>
      simp only [obligations?, Covers, ParameterList.get?, Option.some.injEq, exists_eq_left',
        true_and]
      constructor
      · rintro h i p q rfl hq
        exact h _ (List.mem_map.mpr ⟨q, List.mem_of_getElem? hq, rfl⟩)
      · intro h pair hpair
        obtain ⟨q, hq, rfl⟩ := List.mem_map.mp hpair
        obtain ⟨i, hi⟩ := List.mem_iff_getElem?.mp hq
        exact h i own q rfl hi
  | .variadic own, .variadic required =>
      simp [obligations?, Covers, ParameterList.get?]
  | .fixed _, .variadic _ => simp [obligations?, Covers]

/-! ## The relation -/

/-- A plain type: neither `null` nor an optional type. -/
def Plain : Ty → Prop
  | null | nullable _ => False
  | _ => True

/-- A value of the one type may stand where the other is required, with variables of the one in the
place of the variables of the other that `R` relates to them. -/
inductive Fits : Matching → Ty → Ty → Prop
  | alike {R : Matching} {a b : Ty} (h : a.Alike R b) : Fits R a b
  /-- A tagged value stands for a union that has its tag and is not known to hold another one. -/
  | tagged {R : Matching} {payload b : Ty} {tag : String} {alternatives : Fields Ty}
      {narrowed : Option String} (hget : Fields.get? tag alternatives = some b)
      (hnarrowed : ∀ t ∈ narrowed, t = tag) (h : Fits R payload b) :
      Fits R (tagged payload tag) (union alternatives narrowed)
  /-- A narrowed union stands for the whole one. -/
  | widen {R : Matching} {alternatives others : Fields Ty} {tag : String}
      (h : AlikeFields R alternatives others) :
      Fits R (union alternatives (some tag)) (union others none)
  | null {R : Matching} {b : Ty} : Fits R null (nullable b)
  | nullable {R : Matching} {a b : Ty} (h : Fits R a b) : Fits R (nullable a) (nullable b)
  | orNull {R : Matching} {a b : Ty} (hplain : a.Plain) (h : Fits R a b) : Fits R a (nullable b)
  /-- A function stands for one of which the parameters are covered; every parameter takes what is
  passed to the one required, and the results are alike. -/
  | function {R : Matching} {vs ws : List TypeVariable} {ps qs : Parameters} {a b : Ty}
      (hlength : vs.length = ws.length) (hresult : a.Alike (bind (vs.zip ws) R) b)
      (hcovers : Covers ps qs)
      (h : ∀ (i : Nat) (p q : String × Ty), ps.get? i = some p → qs.get? i = some q →
        Fits (bind (ws.zip vs) (converse R)) q.2 p.2) :
      Fits R (function vs ps a) (function ws qs b)

theorem Alike.plain {R : Matching} {a b : Ty} (h : a.Alike R b) (ha : a.Plain) : b.Plain := by
  cases a with
  | null | nullable _ => exact ha.elim
  | _ => cases b <;> trivial

/-- What fits still does when both types are replaced by alike ones. -/
theorem Fits.alike_alike {R S Q T : Matching} {a b c d : Ty} (h : Fits S b c)
    (hcompose : Composes (andThen R S) Q T) (hab : a.Alike R b) (hcd : c.Alike Q d) :
    Fits T a d := by
  induction h generalizing R Q T a d with
  | alike h => exact .alike (((hab.trans (composes_andThen R _) h).trans hcompose hcd))
  | tagged hget hnarrowed h ih =>
      cases a <;> first | exact hab.elim | skip
      cases d <;> first | exact hcd.elim | skip
      obtain ⟨hpayload, rfl⟩ := hab
      obtain ⟨halternatives, rfl⟩ := hcd
      obtain ⟨d', hd', hbd'⟩ := halternatives.get? hget
      exact .tagged hd' hnarrowed (ih hcompose hpayload hbd')
  | widen h =>
      cases a <;> first | exact hab.elim | skip
      cases d <;> first | exact hcd.elim | skip
      obtain ⟨hab, rfl⟩ := hab
      obtain ⟨hcd, rfl⟩ := hcd
      exact .widen ((hab.trans (composes_andThen R _) h).trans hcompose hcd)
  | null =>
      cases a <;> first | exact hab.elim | skip
      cases d <;> first | exact hcd.elim | skip
      exact .null
  | nullable h ih =>
      cases a <;> first | exact hab.elim | skip
      cases d <;> first | exact hcd.elim | skip
      exact .nullable (ih hcompose hab hcd)
  | @orNull S b c hplain h ih =>
      cases d <;> first | exact hcd.elim | skip
      have ha : a.Plain := by
        cases b with
        | null | nullable _ => exact hplain.elim
        | _ => cases a <;> trivial
      exact .orNull ha (ih hcompose hab hcd)
  | @function S vs ws ps qs b c hlength hresult hcovers h ih =>
      cases a <;> first | exact hab.elim | skip
      cases d <;> first | exact hcd.elim | skip
      rename_i us ps' a xs qs' d
      obtain ⟨rfl, hps, ha⟩ := hab
      obtain ⟨rfl, hqs, hd⟩ := hcd
      have hRS := @Composes.bind _ _ _ (composes_andThen R S) us us ws rfl hlength
      have hQ := @Composes.bind _ _ _ hcompose us ws ws hlength rfl
      refine .function hlength ((ha.trans hRS hresult).trans hQ hd)
        (hps.covers.trans (hcovers.trans hqs.covers)) ?_
      intro i p q hp hq
      obtain ⟨p', hp'⟩ := hps.symm.exists_get hp
      obtain ⟨q', hq'⟩ := hqs.exists_get hq
      refine ih i p' q' hp' hq' ?_ (hqs.get hq' hq).symm (hps.get hp hp').symm
      -- from the parameter required back to the one passed on, by way of both middle types
      rw [← converse_bind, ← converse_bind]
      rintro x u w ⟨v, hxv, hvu⟩ huw
      exact hQ w v x (hRS w u v huw hvu) hxv

theorem Fits.trans_alike {R S T : Matching} {a b c : Ty} (h : Fits R a b)
    (hcompose : Composes R S T) (hbc : b.Alike S c) : Fits T a c := by
  refine h.alike_alike (R := Eq) ?_ (Alike.refl a fun _ => rfl) hbc
  rintro u v w ⟨_, rfl, huv⟩ hvw
  exact hcompose _ v w huv hvw

theorem Alike.trans_fits {R S T : Matching} {a b c : Ty} (hab : a.Alike R b)
    (hcompose : Composes R S T) (h : Fits S b c) : Fits T a c := by
  refine h.alike_alike (Q := Eq) ?_ hab (Alike.refl c fun _ => rfl)
  rintro u v _ ⟨x, hux, hxv⟩ rfl
  exact hcompose u x v hux hxv

theorem Fits.plain {R : Matching} {a b : Ty} (h : Fits R a b) (hb : b.Plain) : a.Plain := by
  cases h with
  | alike h => exact h.symm.plain hb
  | null | nullable _ | orNull _ _ => exact hb.elim
  | _ => trivial

/-! ## The rules read backwards -/

theorem fits_tagged_union_iff {R : Matching} {payload : Ty} {tag : String}
    {alternatives : Fields Ty} {narrowed : Option String} :
    Fits R (tagged payload tag) (union alternatives narrowed) ↔
      ∃ b, Fields.get? tag alternatives = some b ∧ (∀ t ∈ narrowed, t = tag) ∧ Fits R payload b := by
  constructor
  · intro h
    cases h with
    | alike h => exact h.elim
    | tagged hget hnarrowed h => exact ⟨_, hget, hnarrowed, h⟩
  · rintro ⟨b, hget, hnarrowed, h⟩
    exact .tagged hget hnarrowed h

theorem fits_union_union_iff {R : Matching} {alternatives others : Fields Ty}
    {narrowed narrowed' : Option String}
    (hne : ¬ (union alternatives narrowed).Alike R (union others narrowed')) :
    Fits R (union alternatives narrowed) (union others narrowed') ↔
      narrowed.isSome ∧ narrowed' = none ∧ AlikeFields R alternatives others := by
  constructor
  · intro h
    cases h with
    | alike h => exact absurd h hne
    | widen h => exact ⟨rfl, rfl, h⟩
  · rintro ⟨hsome, rfl, h⟩
    obtain ⟨tag, rfl⟩ := Option.isSome_iff_exists.mp hsome
    exact .widen h

theorem fits_nullable_nullable_iff {R : Matching} {a b : Ty} :
    Fits R (nullable a) (nullable b) ↔ Fits R a b := by
  constructor
  · intro h
    cases h with
    | alike h => exact .alike h
    | nullable h => exact h
    | orNull hplain _ => exact hplain.elim
  · exact .nullable

theorem fits_nullable_iff {R : Matching} {a b : Ty} (hplain : a.Plain) :
    Fits R a (nullable b) ↔ Fits R a b := by
  constructor
  · intro h
    cases h with
    | alike h => cases a <;> first | exact h.elim | exact hplain.elim
    | null | nullable _ => exact hplain.elim
    | orNull _ h => exact h
  · exact .orNull hplain

end Sable.Ty
