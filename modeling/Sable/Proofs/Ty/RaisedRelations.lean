import Sable.Proofs.Ty.Raised

/-! Substitution, inference and assignability of raised types. -/
namespace Sable

/-! ## Success -/

section

variable {α β γ δ ε ε' : Type} {f : α → β} {g : γ → δ}

/-- Where the one computation succeeds, the other succeeds with the image of what that one has. -/
def Carries (f : α → β) (c : Except ε α) (c' : Except ε' β) : Prop := ∀ a, c = .ok a → c' = .ok (f a)

theorem Carries.pure {a : α} {b : β} (h : b = f a) : Carries f (.ok a : Except ε α) (.ok b : Except ε' β) := by
  intro a' ha
  cases ha
  rw [h]

theorem Carries.error {e : ε} {c' : Except ε' β} : Carries f (.error e) c' := nofun

theorem Carries.bind {c : Except ε α} {c' : Except ε' β} {rest : α → Except ε γ} {rest' : β → Except ε' δ}
    (hc : Carries f c c') (hrest : ∀ a, c = .ok a → Carries g (rest a) (rest' (f a))) :
    Carries g (c >>= rest) (c' >>= rest') := by
  intro b hb
  cases hown : c with
  | error e =>
      rw [hown] at hb
      cases hb
  | ok a =>
      rw [hown] at hb
      rw [hc a hown]
      exact hrest a hown b hb

end

variable (k : Nat)

/-! ## Substitutions -/

namespace Substitution

def raisedEntry (entry : TypeVariable × Ty) : TypeVariable × Ty := (entry.1.raised k, entry.2.raised k)

def raised (s : Substitution) : Substitution := ⟨s.entries.map (raisedEntry k)⟩

theorem find?_raised (v : TypeVariable) (entries : List (TypeVariable × Ty)) :
    find? (v.raised k) (entries.map (raisedEntry k)) = (find? v entries).map (.raised k) := by
  induction entries with
  | nil => rfl
  | cons entry rest ih =>
      obtain ⟨own, type⟩ := entry
      simp only [List.map_cons, raisedEntry, find?, (TypeVariable.raised_injective k).eq_iff]
      split
      · rfl
      · exact ih

theorem get?_raised (s : Substitution) (v : TypeVariable) :
    (s.raised k).get? (v.raised k) = (s.get? v).map (.raised k) := find?_raised k v s.entries

theorem put_raised (v : TypeVariable) (type : Ty) (entries : List (TypeVariable × Ty)) :
    put (v.raised k) (type.raised k) (entries.map (raisedEntry k)) = (put v type entries).map (raisedEntry k) := by
  induction entries with
  | nil => rfl
  | cons entry rest ih =>
      obtain ⟨own, old⟩ := entry
      simp only [List.map_cons, raisedEntry, put, (TypeVariable.raised_injective k).eq_iff]
      split
      · rfl
      · rw [List.map_cons, ← ih]
        rfl

theorem ofList_raised (pairs : List (TypeVariable × Ty)) :
    ofList (pairs.map (raisedEntry k)) = (ofList pairs).raised k := by
  have hfold : ∀ (pairs entries : List (TypeVariable × Ty)),
      (pairs.map (raisedEntry k)).foldl (fun entries pair => put pair.1 pair.2 entries)
          (entries.map (raisedEntry k)) =
        (pairs.foldl (fun entries pair => put pair.1 pair.2 entries) entries).map (raisedEntry k) := by
    intro pairs
    induction pairs with
    | nil => exact fun _ => rfl
    | cons pair rest ih =>
        intro entries
        rw [List.map_cons, List.foldl_cons, List.foldl_cons, ← ih, ← put_raised]
        rfl
  exact congrArg Substitution.mk (hfold pairs [])

/-- Type arguments for variables in order. -/
theorem ofList_zip_raised (vs : List TypeVariable) (types : List Ty) :
    ofList ((vs.map (.raised k)).zip (types.map (.raised k))) = (ofList (vs.zip types)).raised k := by
  rw [← ofList_raised, List.zip_map]
  rfl

mutual

theorem replace_raised (s : Substitution) : ∀ a : Ty, (s.raised k).replace (a.raised k) = (s.replace a).raised k
  | .number | .boolean | .bigInteger | .null => rfl
  | .var v => by
      simp only [Ty.raised, replace, get?_raised]
      cases s.get? v <;> rfl
  | .list a | .sequence a | .tagged a _ => by simp only [Ty.raised, replace, replace_raised s a]
  | .nullable a => by simp only [Ty.raised, replace, replace_raised s a, Ty.orNull_raised]
  | .object fields | .union fields _ => by simp only [Ty.raised, replace, replaceFields_raised s fields]
  | .function _ ps result => by
      simp only [Ty.raised, replace, replaceParameters_raised s ps, replace_raised s result]

theorem replaceFields_raised (s : Substitution) : ∀ fields : List (String × Ty),
    (s.raised k).replaceFields (Ty.raisedFields k fields) = Ty.raisedFields k (s.replaceFields fields)
  | [] => rfl
  | (name, a) :: rest => by
      simp only [Ty.raisedFields, replaceFields, replace_raised s a, replaceFields_raised s rest]

theorem replaceParameters_raised (s : Substitution) : ∀ ps : ParameterList (String × Ty),
    (s.raised k).replaceParameters (Ty.raisedParameters k ps) = Ty.raisedParameters k (s.replaceParameters ps)
  | .fixed ps => by simp only [Ty.raisedParameters, replaceParameters, replaceFields_raised s ps]
  | .variadic (name, a) => by simp only [Ty.raisedParameters, replaceParameters, replace_raised s a]

end

theorem isEmpty_raised (s : Substitution) : (s.raised k).isEmpty = s.isEmpty := List.isEmpty_map

theorem apply_raised (s : Substitution) (a : Ty) : (s.raised k).apply (a.raised k) = (s.apply a).raised k := by
  simp only [apply, isEmpty_raised, replace_raised]
  split <;> rfl

theorem applyParameters_raised (s : Substitution) (ps : Parameters) :
    (s.raised k).applyParameters (Ty.raisedParameters k ps) = Ty.raisedParameters k (s.applyParameters ps) := by
  simp only [applyParameters, isEmpty_raised, replaceParameters_raised]
  split <;> rfl

/-! ## Inference -/

theorem carries_mergeEntries (entries : List (TypeVariable × Ty)) : ∀ s : Substitution,
    Carries (raised k) (s.mergeEntries entries) ((s.raised k).mergeEntries (entries.map (raisedEntry k))) := by
  induction entries with
  | nil => exact fun s => .pure rfl
  | cons entry rest ih =>
      obtain ⟨v, type⟩ := entry
      intro s
      simp only [List.map_cons, raisedEntry, mergeEntries, get?_raised]
      cases s.get? v with
      | none =>
          have h := ih ⟨s.entries ++ [(v, type)]⟩
          simp only [raised, List.map_append, List.map_cons, List.map_nil, raisedEntry] at h
          exact h
      | some old =>
          simp only [Option.map_some, Ty.raised_beq]
          split
          · exact ih s
          · exact .error

theorem carries_merge (s other : Substitution) :
    Carries (raised k) (s.merge other) ((s.raised k).merge (other.raised k)) :=
  carries_mergeEntries k other.entries s

variable {k} {vs : List TypeVariable}

/-- What is found, together with what is found next. -/
theorem Carries.step {found : Substitution} {c c' : Except InferenceError Substitution}
    {rest rest' : Substitution → Except InferenceError Substitution} (hc : Carries (raised k) c c')
    (hrest : ∀ s, Carries (raised k) (rest s) (rest' (s.raised k))) :
    Carries (raised k) (do rest (← found.merge (← c))) (do rest' (← (found.raised k).merge (← c'))) :=
  hc.bind fun s _ => (carries_merge k found s).bind fun s _ => hrest s

theorem carries_unifyEach {laid laid' : Ty → Except InferenceError Substitution} (types : List Ty)
    (hlaid : ∀ b ∈ types, Carries (raised k) (laid b) (laid' (b.raised k))) : ∀ found : Substitution,
      Carries (raised k) (unifyEach laid found types) (unifyEach laid' (found.raised k) (types.map (.raised k))) := by
  induction types with
  | nil => exact fun found => .pure rfl
  | cons b rest ih =>
      obtain ⟨hb, hrest⟩ := List.forall_mem_cons.mp hlaid
      exact fun _ => Carries.step hb fun s => ih hrest s

theorem map_snd_raisedFields (fields : List (String × Ty)) :
    (Ty.raisedFields k fields).map Prod.snd = (fields.map Prod.snd).map (.raised k) := by
  rw [Ty.raisedFields_eq_map, List.map_map, List.map_map]
  rfl

mutual

theorem carries_unify : ∀ a b : Ty, Carries (raised k) (unify vs a b)
    (unify (vs.map (.raised k)) (a.raised k) (b.raised k))
  | .number, b | .boolean, b | .bigInteger, b | .null, b => by
      simp only [unify, Ty.raised, Ty.mentions, Bool.false_eq_true, if_false]
      exact .pure rfl
  | .var v, b => by
      have hmentions := Ty.mentions_raised k vs (.var v)
      unfold unify
      rw [hmentions]
      split
      · exact .pure (by rw [Ty.widened_raised]; rfl)
      · exact .pure rfl
  | .list a, b => by
      have hmentions := Ty.mentions_raised k vs (.list a)
      unfold unify
      rw [hmentions]
      split
      · cases b <;> first | exact carries_unify a _ | exact .error
      · exact .pure rfl
  | .sequence a, b => by
      have hmentions := Ty.mentions_raised k vs (.sequence a)
      unfold unify
      rw [hmentions]
      split
      · cases b <;> first | exact carries_unify a _ | exact .error
      · exact .pure rfl
  | .nullable a, b => by
      have hmentions := Ty.mentions_raised k vs (.nullable a)
      have hself := carries_unify a b
      unfold unify
      rw [hmentions]
      split
      · cases b with
        | null => exact .pure rfl
        | nullable b => exact carries_unify a b
        | _ => exact hself
      · exact .pure rfl
  | .tagged a tag, b => by
      have hmentions := Ty.mentions_raised k vs (.tagged a tag)
      unfold unify
      rw [hmentions]
      split
      · cases b with
        | tagged b tag' =>
            simp only [Ty.raised]
            split
            · exact carries_unify a b
            · exact .error
        | _ => exact .error
      · exact .pure rfl
  | .object fields, b => by
      have hmentions := Ty.mentions_raised k vs (.object fields)
      unfold unify
      rw [hmentions]
      split
      · cases b <;> first | exact carries_unifyFields fields _ _ _ _ | exact .error
      · exact .pure rfl
  | .union fields _, b => by
      have hmentions := Ty.mentions_raised k vs (.union fields ‹_›)
      unfold unify
      rw [hmentions]
      split
      · cases b <;> first
          | exact carries_unifyFields fields _ _ _ _
          | exact carries_unifyAlternative fields _ _ _ _
          | exact .error
      · exact .pure rfl
  | .function ws ps a, b => by
      have hmentions := Ty.mentions_raised k vs (.function ws ps a)
      unfold unify
      rw [hmentions]
      split
      · cases b with
        | function _ qs b =>
            refine (carries_unifyParameters ps qs).bind fun found _ => ?_
            exact (carries_unify a b).bind fun s _ => carries_merge k found s
        | _ => exact .error
      · exact .pure rfl
termination_by structural a => a

theorem carries_unifyFields : ∀ (fields : List (String × Ty)) (missing missing' : InferenceError)
    (actual : Fields Ty) (found : Substitution), Carries (raised k) (unifyFields vs missing actual found fields)
      (unifyFields (vs.map (.raised k)) missing' (Ty.raisedFields k actual) (found.raised k)
        (Ty.raisedFields k fields))
  | [], _, _, _, _ => .pure rfl
  | (name, a) :: rest, _, _, actual, found => by
      simp only [Ty.raisedFields, unifyFields, Ty.get?_raisedFields]
      cases Fields.get? name actual with
      | none => exact .error
      | some b => exact Carries.step (carries_unify a b) fun s => carries_unifyFields rest _ _ actual s
termination_by structural fields => fields

theorem carries_unifyAlternative : ∀ (fields : List (String × Ty)) (missing missing' : InferenceError)
    (tag : String) (payload : Ty), Carries (raised k) (unifyAlternative vs missing tag payload fields)
      (unifyAlternative (vs.map (.raised k)) missing' tag (payload.raised k) (Ty.raisedFields k fields))
  | [], _, _, _, _ => .error
  | (name, a) :: rest, _, _, tag, payload => by
      simp only [Ty.raisedFields, unifyAlternative]
      split
      · exact carries_unify a payload
      · exact carries_unifyAlternative rest _ _ tag payload
termination_by structural fields => fields

theorem carries_unifyParameters : ∀ ps qs : ParameterList (String × Ty),
    Carries (raised k) (unifyParameters vs ps qs)
      (unifyParameters (vs.map (.raised k)) (Ty.raisedParameters k ps) (Ty.raisedParameters k qs))
  | .fixed ps, .fixed qs => by
      simp only [Ty.raisedParameters, unifyParameters, map_snd_raisedFields]
      exact carries_unifyZip ps _ empty
  | .fixed ps, .variadic (_, b) => carries_unifyOver ps b empty
  | .variadic (_, a), .fixed qs => by
      simp only [Ty.raisedParameters, unifyParameters, map_snd_raisedFields]
      exact carries_unifyEach _ (fun b _ => carries_unify a b) empty
  | .variadic (_, a), .variadic (_, b) => carries_unifyEach [b] (fun b _ => carries_unify a b) empty
termination_by structural ps => ps

theorem carries_unifyZip : ∀ (ps : List (String × Ty)) (types : List Ty) (found : Substitution),
    Carries (raised k) (unifyZip vs found ps types)
      (unifyZip (vs.map (.raised k)) (found.raised k) (Ty.raisedFields k ps) (types.map (.raised k)))
  | [], _, _ => .pure rfl
  | (_, a) :: rest, types, found => by
      cases types with
      | nil => exact .pure rfl
      | cons b others => exact Carries.step (carries_unify a b) fun s => carries_unifyZip rest others s
termination_by structural ps => ps

theorem carries_unifyOver : ∀ (ps : List (String × Ty)) (b : Ty) (found : Substitution),
    Carries (raised k) (unifyOver vs b found ps)
      (unifyOver (vs.map (.raised k)) (b.raised k) (found.raised k) (Ty.raisedFields k ps))
  | [], _, _ => .pure rfl
  | (_, a) :: rest, b, _ => Carries.step (carries_unify a b) fun s => carries_unifyOver rest b s
termination_by structural ps => ps

end

theorem carries_unifyPairs (pairs : List (Ty × Ty)) : ∀ found : Substitution,
    Carries (raised k) (unifyPairs vs found pairs) (unifyPairs (vs.map (.raised k)) (found.raised k)
      (pairs.map fun pair => (pair.1.raised k, pair.2.raised k))) := by
  induction pairs with
  | nil => exact fun found => .pure rfl
  | cons pair rest ih => exact fun _ => Carries.step (carries_unify pair.1 pair.2) ih

theorem argumentPairs_raised (declared : Parameters) (actual : List Ty) :
    argumentPairs (Ty.raisedParameters k declared) (actual.map (.raised k)) =
      (argumentPairs declared actual).map fun pair => (pair.1.raised k, pair.2.raised k) := by
  cases declared with
  | fixed ps =>
      simp only [Ty.raisedParameters, argumentPairs, map_snd_raisedFields, List.zip_map]
      rfl
  | variadic q => simp [Ty.raisedParameters, argumentPairs]

/-- What is inferred for raised types is raised. -/
theorem carries_infer (declared : Parameters) (actual : List Ty) :
    Carries (raised k) (infer vs declared actual)
      (infer (vs.map (.raised k)) (Ty.raisedParameters k declared) (actual.map (.raised k))) := by
  unfold infer
  rw [argumentPairs_raised]
  refine Carries.bind (carries_unifyPairs _ empty) fun found _ => ?_
  rw [List.find?_map]
  have hfind : vs.find? ((fun v => ((found.raised k).get? v).isNone) ∘ TypeVariable.raised k) =
      vs.find? fun v => (found.get? v).isNone :=
    congrArg (vs.find? ·) (funext fun v => by simp [get?_raised])
  rw [hfind]
  cases vs.find? fun v => (found.get? v).isNone with
  | none => exact .pure rfl
  | some v => exact .error

end Substitution

/-! ## Assignability -/

def RelationError.raised : RelationError → RelationError
  | invalidTag tag target => invalidTag tag (target.raised k)

namespace Ty

/-- An answer about types, about the raised ones. -/
def raisedAnswer (answer : Except RelationError Bool) : Except RelationError Bool := answer.mapError (.raised k)

theorem obligations?_raised (own required : Parameters) :
    obligations? (raisedParameters k own) (raisedParameters k required) =
      (obligations? own required).map (List.map fun pair => (pair.1.raised k, pair.2.raised k)) := by
  cases own with
  | fixed ps =>
      cases required with
      | fixed qs =>
          simp only [raisedParameters, obligations?, raisedFields_eq_map, List.length_map, List.map_map,
            List.zip_map]
          split
          · rfl
          · simp only [Option.map_some, List.map_map]
            rfl
      | variadic q => rfl
  | variadic p =>
      cases required with
      | fixed qs =>
          simp only [raisedParameters, obligations?, raisedFields_eq_map, List.map_map, Option.map_some]
          rfl
      | variadic q => rfl

variable {k} {related related' : Ty → Ty → Except RelationError Bool}

theorem allRelated_raised (hrelated : ∀ a b, related' (a.raised k) (b.raised k) = raisedAnswer k (related a b))
    (pairs : List (Ty × Ty)) :
    allRelated related' (pairs.map fun pair => (pair.1.raised k, pair.2.raised k)) =
      raisedAnswer k (allRelated related pairs) := by
  induction pairs with
  | nil => rfl
  | cons pair rest ih =>
      simp only [List.map_cons, allRelated, hrelated, ih]
      cases related pair.1 pair.2 with
      | error e => rfl
      | ok holds => cases holds <;> rfl

theorem parametersRelated_raised
    (hrelated : ∀ a b, related' (a.raised k) (b.raised k) = raisedAnswer k (related a b)) (own required : Parameters) :
    parametersRelated related' (raisedParameters k own) (raisedParameters k required) =
      raisedAnswer k (parametersRelated related own required) := by
  unfold parametersRelated
  rw [obligations?_raised]
  cases obligations? own required with
  | none => rfl
  | some pairs => exact allRelated_raised hrelated pairs

theorem assignableWith_raised
    (hrelated : ∀ a b, related' (a.raised k) (b.raised k) = raisedAnswer k (related a b)) (own required : Ty) :
    assignableWith related' (own.raised k) (required.raised k) =
      raisedAnswer k (assignableWith related own required) := by
  unfold assignableWith
  rw [raised_beq]
  split
  · rfl
  · cases required with
    | nullable b =>
        have hown := hrelated own b
        cases own with
        | null => rfl
        | nullable a => exact hrelated a b
        | _ => exact hown
    | union others narrowed' =>
        cases own with
        | tagged payload tag =>
            simp only [raised, get?_raisedFields]
            cases Fields.get? tag others with
            | none => rfl
            | some alternative =>
                simp only [Option.map_some, hrelated]
                split <;> rfl
        | union alternatives narrowed =>
            simp only [raised, sameFields_raised]
            rfl
        | _ => rfl
    | function ws qs wanted =>
        cases own with
        | function vs ps result =>
            have hmatching : Substitution.ofList ((ws.map (.raised k)).zip ((vs.map (.raised k)).map .var)) =
                (Substitution.ofList (ws.zip (vs.map .var))).raised k := by
              rw [← Substitution.ofList_zip_raised, List.map_map, List.map_map]
              rfl
            simp only [raised, List.length_map, hmatching, Substitution.apply_raised, raised_beq,
              Substitution.applyParameters_raised, parametersRelated_raised hrelated]
            split
            · rfl
            · split <;> rfl
        | _ => rfl
    | _ => cases own <;> rfl

theorem assignableUpTo_raised (depth : Nat) : ∀ own required : Ty,
    assignableUpTo depth (own.raised k) (required.raised k) = raisedAnswer k (assignableUpTo depth own required) := by
  induction depth with
  | zero => exact fun own required => congrArg Except.ok (raised_beq k own required)
  | succ depth ih => exact assignableWith_raised ih

/-- Whether types are assignable does not depend on the numbers of their variables. -/
theorem assignable_raised (own required : Ty) :
    (own.raised k).assignable (required.raised k) = raisedAnswer k (own.assignable required) := by
  unfold assignable
  rw [size_raised, size_raised, assignableUpTo_raised]

end Ty

end Sable
