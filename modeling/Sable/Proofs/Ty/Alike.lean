import Sable.Ty

/-! Types that are alike up to the names of their variables. Which variable of the one type stands
for which variable of the other is a relation; it grows by pairs below the variables that a
function type binds. -/
namespace Sable

/-- Which variables of one type stand where which variables of another stand. -/
abbrev Matching := TypeVariable → TypeVariable → Prop

namespace Matching

/-- Variables bound in pairs. A bound variable stands for its partner only. -/
def bind : List (TypeVariable × TypeVariable) → Matching → Matching
  | [], R => R
  | (a, b) :: rest, R => fun v w => (v = a ∧ w = b) ∨ (v ≠ a ∧ w ≠ b ∧ bind rest R v w)

/-- The same pairs seen from the other type. -/
def converse (R : Matching) : Matching := fun v w => R w v

/-- What stands for each other by way of a third variable does so in `T`. -/
def Composes (R S T : Matching) : Prop := ∀ u v w, R u v → S v w → T u w

/-- Related by way of a third variable. -/
def andThen (R S : Matching) : Matching := fun u w => ∃ v, R u v ∧ S v w

theorem composes_andThen (R S : Matching) : Composes R S (andThen R S) :=
  fun _ v _ huv hvw => ⟨v, huv, hvw⟩

theorem converse_bind (R : Matching) (vs ws : List TypeVariable) :
    converse (bind (vs.zip ws) R) = bind (ws.zip vs) (converse R) := by
  induction vs generalizing ws with
  | nil => cases ws <;> rfl
  | cons v vs ih =>
      cases ws with
      | nil => rfl
      | cons w ws =>
          funext a b
          have h : bind (vs.zip ws) R b a = bind (ws.zip vs) (converse R) a b :=
            congrFun (congrFun (ih ws) a) b
          simp only [converse, List.zip_cons_cons, bind, h]
          exact propext ⟨fun | .inl ⟨p, q⟩ => .inl ⟨q, p⟩ | .inr ⟨p, q, r⟩ => .inr ⟨q, p, r⟩,
            fun | .inl ⟨p, q⟩ => .inl ⟨q, p⟩ | .inr ⟨p, q, r⟩ => .inr ⟨q, p, r⟩⟩

theorem converse_eq : converse Eq = (Eq : Matching) := by
  funext v w
  exact propext eq_comm

theorem Composes.bind {R S T : Matching} (h : Composes R S T) {us vs ws : List TypeVariable}
    (huv : us.length = vs.length) (hvw : vs.length = ws.length) :
    Composes (bind (us.zip vs) R) (bind (vs.zip ws) S) (bind (us.zip ws) T) := by
  induction us generalizing vs ws with
  | nil =>
      cases vs <;> cases ws <;> simp at huv hvw
      exact h
  | cons a us ih =>
      cases vs with
      | nil => simp at huv
      | cons b vs =>
          cases ws with
          | nil => simp at hvw
          | cons c ws =>
              simp only [List.length_cons, Nat.add_right_cancel_iff] at huv hvw
              intro u v w huv' hvw'
              simp only [List.zip_cons_cons, Matching.bind] at huv' hvw' ⊢
              rcases huv' with ⟨hu, hv⟩ | ⟨hu, hv, hr⟩
              · rcases hvw' with ⟨-, hw⟩ | ⟨hv', -, -⟩
                · exact .inl ⟨hu, hw⟩
                · exact absurd hv hv'
              · rcases hvw' with ⟨hv', -⟩ | ⟨-, hw, hs⟩
                · exact absurd hv' hv
                · exact .inr ⟨hu, hw, ih huv hvw u v w hr hs⟩

theorem Composes.converse {R S T : Matching} (h : Composes R S T) :
    Composes (converse S) (converse R) (converse T) :=
  fun u v w huv hvw => h w v u hvw huv

/-- Variables bound to themselves stand for themselves. -/
theorem bind_self {R : Matching} (hR : ∀ v w, R v w ↔ v = w) (vs : List TypeVariable)
    (v w : TypeVariable) : bind (vs.zip vs) R v w ↔ v = w := by
  induction vs with
  | nil => exact hR v w
  | cons a vs ih =>
      simp only [List.zip_cons_cons, bind, ih]
      constructor
      · rintro (⟨rfl, rfl⟩ | ⟨-, -, h⟩)
        · rfl
        · exact h
      · rintro rfl
        by_cases ha : v = a
        · exact .inl ⟨ha, ha⟩
        · exact .inr ⟨ha, ha, rfl⟩

theorem bind_zip_self {R : Matching} {vs : List TypeVariable} {v : TypeVariable} :
    bind (vs.zip vs) R v v ↔ v ∈ vs ∨ R v v := by
  induction vs with
  | nil => simp [bind]
  | cons a vs ih =>
      simp only [List.zip_cons_cons, bind, ih, List.mem_cons, and_self]
      by_cases ha : v = a <;> simp [ha]

theorem bind_refl {R : Matching} (hR : ∀ v, R v v) (vs : List TypeVariable) (v : TypeVariable) :
    bind (vs.zip vs) R v v :=
  bind_zip_self.mpr (.inr (hR v))

end Matching

namespace Ty

open Matching

/-! ## Alike types -/

mutual

/-- Built alike, with variables that `R` relates at the same places. -/
def Alike (R : Matching) : Ty → Ty → Prop
  | number, number | boolean, boolean | bigInteger, bigInteger | null, null => True
  | list a, list b | sequence a, sequence b | nullable a, nullable b => a.Alike R b
  | object fields, object others => AlikeFields R fields others
  | function vs ps a, function ws qs b =>
    vs = ws ∧ AlikeParameters (bind (vs.zip ws) R) ps qs ∧ a.Alike (bind (vs.zip ws) R) b
  | union fields narrowed, union others narrowed' =>
    AlikeFields R fields others ∧ narrowed = narrowed'
  | tagged a tag, tagged b tag' => a.Alike R b ∧ tag = tag'
  | var v, var w => R v w
  | _, _ => False
termination_by structural a => a

def AlikeFields (R : Matching) : List (String × Ty) → List (String × Ty) → Prop
  | [], [] => True
  | (name, a) :: rest, (name', b) :: rest' => name = name' ∧ a.Alike R b ∧ AlikeFields R rest rest'
  | _, _ => False
termination_by structural a => a

def AlikeParameters (R : Matching) :
    ParameterList (String × Ty) → ParameterList (String × Ty) → Prop
  | .fixed ps, .fixed qs => AlikeTypes R ps qs
  | .variadic (_, a), .variadic (_, b) => a.Alike R b
  | _, _ => False
termination_by structural a => a

def AlikeTypes (R : Matching) : List (String × Ty) → List (String × Ty) → Prop
  | [], [] => True
  | (_, a) :: rest, (_, b) :: rest' => a.Alike R b ∧ AlikeTypes R rest rest'
  | _, _ => False
termination_by structural a => a

end

/-! ## Equal types, converse and composition -/

mutual

theorem Alike.refl : ∀ (a : Ty) {R : Matching} (_ : ∀ v, R v v), a.Alike R a
  | .number, _, _ | .boolean, _, _ | .bigInteger, _, _ | .null, _, _ => trivial
  | .var v, _, hR => hR v
  | .list a, _, hR | .sequence a, _, hR | .nullable a, _, hR => Alike.refl a hR
  | .tagged a _, _, hR => ⟨Alike.refl a hR, rfl⟩
  | .object fields, _, hR => AlikeFields.refl fields hR
  | .union fields _, _, hR => ⟨AlikeFields.refl fields hR, rfl⟩
  | .function vs ps a, _, hR =>
      ⟨rfl, AlikeParameters.refl ps (bind_refl hR vs), Alike.refl a (bind_refl hR vs)⟩
termination_by structural a => a

theorem AlikeFields.refl : ∀ (fields : List (String × Ty)) {R : Matching} (_ : ∀ v, R v v),
    AlikeFields R fields fields
  | [], _, _ => trivial
  | (_, a) :: rest, _, hR => ⟨rfl, Alike.refl a hR, AlikeFields.refl rest hR⟩
termination_by structural fields => fields

theorem AlikeParameters.refl : ∀ (ps : ParameterList (String × Ty)) {R : Matching}
    (_ : ∀ v, R v v), AlikeParameters R ps ps
  | .fixed ps, _, hR => AlikeTypes.refl ps hR
  | .variadic (_, a), _, hR => Alike.refl a hR
termination_by structural ps => ps

theorem AlikeTypes.refl : ∀ (ps : List (String × Ty)) {R : Matching} (_ : ∀ v, R v v),
    AlikeTypes R ps ps
  | [], _, _ => trivial
  | (_, a) :: rest, _, hR => ⟨Alike.refl a hR, AlikeTypes.refl rest hR⟩
termination_by structural ps => ps

end

mutual

/-- Types are equal when they are alike with the same variables at the same places. -/
theorem alike_iff_same : ∀ (a : Ty) {R : Matching} (_ : ∀ v w, R v w ↔ v = w) {b : Ty},
    a.Alike R b ↔ a.same b = true
  | .number, _, _, b | .boolean, _, _, b | .bigInteger, _, _, b | .null, _, _, b => by
      cases b <;> simp [Alike, same]
  | .var v, _, hR, b => by
      cases b <;> simp [Alike, same, hR]
  | .list a, _, hR, b | .sequence a, _, hR, b | .nullable a, _, hR, b => by
      cases b <;> simp [Alike, same, alike_iff_same a hR]
  | .tagged a tag, _, hR, b => by
      cases b <;> simp [Alike, same, alike_iff_same a hR]
  | .object fields, _, hR, b => by
      cases b <;> simp [Alike, same, alikeFields_iff_sameFields fields hR]
  | .union fields narrowed, _, hR, b => by
      cases b <;> simp [Alike, same, alikeFields_iff_sameFields fields hR]
  | .function vs ps a, _, hR, b => by
      cases b with
      | function ws qs b =>
          have hself := bind_self hR vs
          have hp : AlikeParameters _ ps qs ↔ sameParameters ps qs = true :=
            alikeParameters_iff_sameParameters ps hself
          have hr : a.Alike _ b ↔ a.same b = true := alike_iff_same a hself
          simp only [Alike, same, Bool.and_eq_true, beq_iff_eq, and_assoc]
          constructor
          · rintro ⟨rfl, h, h'⟩
            exact ⟨rfl, hp.mp h, hr.mp h'⟩
          · rintro ⟨rfl, h, h'⟩
            exact ⟨rfl, hp.mpr h, hr.mpr h'⟩
      | _ => simp [Alike, same]
termination_by structural a => a

theorem alikeFields_iff_sameFields : ∀ (fields : List (String × Ty)) {R : Matching}
    (_ : ∀ v w, R v w ↔ v = w) {others : List (String × Ty)},
    AlikeFields R fields others ↔ sameFields fields others = true
  | [], _, _, others => by
      cases others <;> simp [AlikeFields, sameFields]
  | (name, a) :: rest, _, hR, others => by
      cases others <;>
        simp [AlikeFields, sameFields, alike_iff_same a hR, alikeFields_iff_sameFields rest hR,
          and_assoc]
termination_by structural fields => fields

theorem alikeParameters_iff_sameParameters : ∀ (ps : ParameterList (String × Ty)) {R : Matching}
    (_ : ∀ v w, R v w ↔ v = w) {qs : ParameterList (String × Ty)},
    AlikeParameters R ps qs ↔ sameParameters ps qs = true
  | .fixed ps, _, hR, qs => by
      cases qs <;> simp [AlikeParameters, sameParameters, alikeTypes_iff_sameTypes ps hR]
  | .variadic (_, a), _, hR, qs => by
      cases qs <;> simp [AlikeParameters, sameParameters, alike_iff_same a hR]
termination_by structural ps => ps

theorem alikeTypes_iff_sameTypes : ∀ (ps : List (String × Ty)) {R : Matching}
    (_ : ∀ v w, R v w ↔ v = w) {qs : List (String × Ty)},
    AlikeTypes R ps qs ↔ sameTypes ps qs = true
  | [], _, _, qs => by
      cases qs <;> simp [AlikeTypes, sameTypes]
  | (_, a) :: rest, _, hR, qs => by
      cases qs <;>
        simp [AlikeTypes, sameTypes, alike_iff_same a hR, alikeTypes_iff_sameTypes rest hR]
termination_by structural ps => ps

end

mutual

theorem Alike.symm {R : Matching} : ∀ {a b : Ty}, a.Alike R b → b.Alike (converse R) a
  | .number, b, h | .boolean, b, h | .bigInteger, b, h | .null, b, h => by
      cases b <;> exact h
  | .var v, b, h => by
      cases b <;> exact h
  | .list a, b, h | .sequence a, b, h | .nullable a, b, h => by
      cases b with
      | list b | sequence b | nullable b => first | exact Alike.symm (a := a) h | exact h
      | _ => exact h
  | .tagged a tag, b, h => by
      cases b with
      | tagged b tag' => exact ⟨Alike.symm h.1, h.2.symm⟩
      | _ => exact h
  | .object fields, b, h => by
      cases b with
      | object others => exact AlikeFields.symm h
      | _ => exact h
  | .union fields narrowed, b, h => by
      cases b with
      | union others narrowed' => exact ⟨AlikeFields.symm h.1, h.2.symm⟩
      | _ => exact h
  | .function vs ps a, b, h => by
      cases b with
      | function ws qs b =>
          obtain ⟨rfl, hp, hr⟩ := h
          have hp' := AlikeParameters.symm hp
          have hr' := Alike.symm hr
          rw [converse_bind] at hp' hr'
          exact ⟨rfl, hp', hr'⟩
      | _ => exact h

theorem AlikeFields.symm {R : Matching} : ∀ {fields others : List (String × Ty)},
    AlikeFields R fields others → AlikeFields (converse R) others fields
  | [], others, h => by
      cases others with
      | nil => trivial
      | cons _ _ => exact h
  | (name, a) :: rest, others, h => by
      cases others with
      | nil => exact h
      | cons other rest' => exact ⟨h.1.symm, Alike.symm h.2.1, AlikeFields.symm h.2.2⟩

theorem AlikeParameters.symm {R : Matching} : ∀ {ps qs : ParameterList (String × Ty)},
    AlikeParameters R ps qs → AlikeParameters (converse R) qs ps
  | .fixed ps, qs, h => by
      cases qs with
      | fixed qs => exact AlikeTypes.symm h
      | variadic _ => exact h
  | .variadic (_, a), qs, h => by
      cases qs with
      | fixed qs => exact h
      | variadic q => exact Alike.symm (a := a) h

theorem AlikeTypes.symm {R : Matching} : ∀ {ps qs : List (String × Ty)},
    AlikeTypes R ps qs → AlikeTypes (converse R) qs ps
  | [], qs, h => by
      cases qs with
      | nil => trivial
      | cons _ _ => exact h
  | (_, a) :: rest, qs, h => by
      cases qs with
      | nil => exact h
      | cons q rest' => exact ⟨Alike.symm h.1, AlikeTypes.symm h.2⟩

end

mutual

theorem Alike.trans : ∀ {R S T : Matching} (_ : Composes R S T) {a b c : Ty},
    a.Alike R b → b.Alike S c → a.Alike T c
  | _, _, _, _, .number, b, c, hab, hbc | _, _, _, _, .boolean, b, c, hab, hbc
  | _, _, _, _, .bigInteger, b, c, hab, hbc | _, _, _, _, .null, b, c, hab, hbc => by
      cases b <;> first | exact hab.elim | (cases c <;> first | exact hbc.elim | trivial)
  | _, _, _, h, .var u, b, c, hab, hbc => by
      cases b with
      | var v =>
          cases c with
          | var w => exact h u v w hab hbc
          | _ => exact hbc.elim
      | _ => exact hab.elim
  | _, _, _, h, .list a, b, c, hab, hbc | _, _, _, h, .sequence a, b, c, hab, hbc
  | _, _, _, h, .nullable a, b, c, hab, hbc => by
      cases b with
      | list b | sequence b | nullable b =>
          first
          | exact hab.elim
          | cases c with
            | list c | sequence c | nullable c =>
                first | exact hbc.elim | exact Alike.trans h (a := a) (b := b) (c := c) hab hbc
            | _ => exact hbc.elim
      | _ => exact hab.elim
  | _, _, _, h, .tagged a tag, b, c, hab, hbc => by
      cases b with
      | tagged b tag' =>
          cases c with
          | tagged c tag'' => exact ⟨Alike.trans h hab.1 hbc.1, hab.2.trans hbc.2⟩
          | _ => exact hbc.elim
      | _ => exact hab.elim
  | _, _, _, h, .object fields, b, c, hab, hbc => by
      cases b with
      | object others =>
          cases c with
          | object others' => exact AlikeFields.trans h hab hbc
          | _ => exact hbc.elim
      | _ => exact hab.elim
  | _, _, _, h, .union fields narrowed, b, c, hab, hbc => by
      cases b with
      | union others narrowed' =>
          cases c with
          | union others' narrowed'' => exact ⟨AlikeFields.trans h hab.1 hbc.1, hab.2.trans hbc.2⟩
          | _ => exact hbc.elim
      | _ => exact hab.elim
  | _, _, _, h, .function us ps a, b, c, hab, hbc => by
      cases b with
      | function vs qs b =>
          cases c with
          | function ws rs c =>
              obtain ⟨rfl, hp, hr⟩ := hab
              obtain ⟨rfl, hp', hr'⟩ := hbc
              have hbind := @Composes.bind _ _ _ h us us us rfl rfl
              exact ⟨rfl, AlikeParameters.trans hbind hp hp', Alike.trans hbind hr hr'⟩
          | _ => exact hbc.elim
      | _ => exact hab.elim

theorem AlikeFields.trans : ∀ {R S T : Matching} (_ : Composes R S T)
    {fields others others' : List (String × Ty)},
    AlikeFields R fields others → AlikeFields S others others' → AlikeFields T fields others'
  | _, _, _, _, [], others, others', hab, hbc => by
      cases others with
      | nil => cases others' <;> exact hbc
      | cons _ _ => exact hab.elim
  | _, _, _, h, (name, a) :: rest, others, others', hab, hbc => by
      cases others with
      | nil => exact hab.elim
      | cons other rest' =>
          cases others' with
          | nil => exact hbc.elim
          | cons other' rest'' =>
              exact ⟨hab.1.trans hbc.1, Alike.trans h hab.2.1 hbc.2.1,
                AlikeFields.trans h hab.2.2 hbc.2.2⟩

theorem AlikeParameters.trans : ∀ {R S T : Matching} (_ : Composes R S T)
    {ps qs rs : ParameterList (String × Ty)},
    AlikeParameters R ps qs → AlikeParameters S qs rs → AlikeParameters T ps rs
  | _, _, _, h, .fixed ps, .fixed qs, .fixed rs, hab, hbc => AlikeTypes.trans h hab hbc
  | _, _, _, h, .variadic (_, a), .variadic (_, b), .variadic (_, c), hab, hbc =>
      Alike.trans h (a := a) (b := b) (c := c) hab hbc
  | _, _, _, _, .fixed _, .variadic _, _, hab, _ => hab.elim
  | _, _, _, _, .variadic _, .fixed _, _, hab, _ => hab.elim
  | _, _, _, _, _, .fixed _, .variadic _, _, hbc => hbc.elim
  | _, _, _, _, _, .variadic _, .fixed _, _, hbc => hbc.elim

theorem AlikeTypes.trans : ∀ {R S T : Matching} (_ : Composes R S T)
    {ps qs rs : List (String × Ty)},
    AlikeTypes R ps qs → AlikeTypes S qs rs → AlikeTypes T ps rs
  | _, _, _, _, [], qs, rs, hab, hbc => by
      cases qs with
      | nil => cases rs <;> exact hbc
      | cons _ _ => exact hab.elim
  | _, _, _, h, (_, a) :: rest, qs, rs, hab, hbc => by
      cases qs with
      | nil => exact hab.elim
      | cons q rest' =>
          cases rs with
          | nil => exact hbc.elim
          | cons r rest'' =>
              exact ⟨Alike.trans h hab.1 hbc.1, AlikeTypes.trans h hab.2 hbc.2⟩

end

mutual

theorem Alike.size_eq : ∀ {R : Matching} {a b : Ty}, a.Alike R b → a.size = b.size
  | _, .number, b, h | _, .boolean, b, h | _, .bigInteger, b, h | _, .null, b, h
  | _, .var _, b, h => by
      cases b <;> first | exact h.elim | rfl
  | _, .list a, b, h | _, .sequence a, b, h | _, .nullable a, b, h => by
      cases b with
      | list b | sequence b | nullable b =>
          first | exact h.elim | exact congrArg (· + 1) (Alike.size_eq (a := a) (b := b) h)
      | _ => exact h.elim
  | _, .tagged a tag, b, h => by
      cases b with
      | tagged b tag' => exact congrArg (· + 1) h.1.size_eq
      | _ => exact h.elim
  | _, .object fields, b, h => by
      cases b with
      | object others => exact congrArg (· + 1) (AlikeFields.size_eq h)
      | _ => exact h.elim
  | _, .union fields narrowed, b, h => by
      cases b with
      | union others narrowed' => exact congrArg (· + 1) (AlikeFields.size_eq h.1)
      | _ => exact h.elim
  | _, .function vs ps a, b, h => by
      cases b with
      | function ws qs b =>
          have hp := AlikeParameters.size_eq h.2.1
          have hr := Alike.size_eq h.2.2
          simp only [size, hp, hr]
      | _ => exact h.elim

theorem AlikeFields.size_eq : ∀ {R : Matching} {fields others : List (String × Ty)},
    AlikeFields R fields others → sizeFields fields = sizeFields others
  | _, [], others, h => by
      cases others with
      | nil => rfl
      | cons _ _ => exact h.elim
  | _, (name, a) :: rest, others, h => by
      cases others with
      | nil => exact h.elim
      | cons other rest' =>
          have ha := Alike.size_eq h.2.1
          have hrest := AlikeFields.size_eq h.2.2
          simp only [sizeFields, ha, hrest]

theorem AlikeParameters.size_eq : ∀ {R : Matching} {ps qs : ParameterList (String × Ty)},
    AlikeParameters R ps qs → sizeParameters ps = sizeParameters qs
  | _, .fixed ps, .fixed qs, h => by
      simpa only [sizeParameters] using AlikeTypes.size_eq h
  | _, .variadic (_, a), .variadic (_, b), h => Alike.size_eq (a := a) (b := b) h
  | _, .fixed _, .variadic _, h => h.elim
  | _, .variadic _, .fixed _, h => h.elim

theorem AlikeTypes.size_eq : ∀ {R : Matching} {ps qs : List (String × Ty)},
    AlikeTypes R ps qs → sizeFields ps = sizeFields qs
  | _, [], qs, h => by
      cases qs with
      | nil => rfl
      | cons _ _ => exact h.elim
  | _, (_, a) :: rest, qs, h => by
      cases qs with
      | nil => exact h.elim
      | cons q rest' =>
          have ha := Alike.size_eq h.1
          have hrest := AlikeTypes.size_eq h.2
          simp only [sizeFields, ha, hrest]

end

end Ty

end Sable
