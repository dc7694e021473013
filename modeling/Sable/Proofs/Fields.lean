import Sable.Fields

/-! Fields by name: what is found under a name, and what a function on the contents makes of it. -/
namespace Sable.Fields

variable {α β : Type} {fields : Fields α} {name : String} {a : α}

theorem mem_of_get? (h : get? name fields = some a) : (name, a) ∈ fields := by
  induction fields with
  | nil => cases h
  | cons field rest ih =>
      simp only [get?] at h
      split at h
      · obtain rfl := Option.some.inj h
        rename_i hname
        exact List.mem_cons.mpr (.inl (by rw [← hname]))
      · exact List.mem_cons_of_mem _ (ih h)

theorem mem_names_of_get? (h : get? name fields = some a) : name ∈ fields.names :=
  List.mem_map_of_mem (mem_of_get? h)

theorem get?_of_mem (hdistinct : (names fields).Nodup) (h : (name, a) ∈ fields) : get? name fields = some a := by
  induction fields with
  | nil => cases h
  | cons field rest ih =>
      obtain ⟨hnot, hrest⟩ := List.nodup_cons.mp hdistinct
      rw [get?]
      rcases List.mem_cons.mp h with rfl | h
      · exact if_pos rfl
      · have hne : field.1 ≠ name := by
          rintro rfl
          exact hnot (List.mem_map.mpr ⟨_, h, rfl⟩)
        rw [if_neg hne, ih hrest h]

/-- What holds of the contents of all fields still holds when a field with it is put in. -/
theorem forall_mem_insert (Q : α → Prop) (name : String) (h : ∀ field ∈ fields, Q field.2) (ha : Q a) :
    ∀ field ∈ insert name a fields, Q field.2 := by
  induction fields with
  | nil => exact List.forall_mem_singleton.mpr ha
  | cons field rest ih =>
      obtain ⟨hfield, hrest⟩ := List.forall_mem_cons.mp h
      rw [insert]
      split
      · exact List.forall_mem_cons.mpr ⟨ha, hrest⟩
      · split
        · exact List.forall_mem_cons.mpr ⟨ha, h⟩
        · exact List.forall_mem_cons.mpr ⟨hfield, ih hrest⟩

theorem forall_mem_ofList {Q : α → Prop} {entries : List (String × α)} (h : ∀ entry ∈ entries, Q entry.2) :
    ∀ field ∈ ofList entries, Q field.2 := by
  suffices hdone : ∀ done : Fields α, (∀ field ∈ done, Q field.2) →
      ∀ field ∈ entries.foldl (fun fields entry => insert entry.1 entry.2 fields) done, Q field.2 from
    hdone [] (List.forall_mem_nil _)
  induction entries with
  | nil => exact fun done hdone => hdone
  | cons entry rest ih =>
      intro done hdone
      obtain ⟨hentry, hrest⟩ := List.forall_mem_cons.mp h
      exact ih hrest (insert entry.1 entry.2 done) (forall_mem_insert Q entry.1 hdone hentry)

theorem get?_of_lt (h : ∀ field ∈ fields, field.1 < name) : get? name fields = none := by
  induction fields with
  | nil => rfl
  | cons field fields ih =>
      rw [List.forall_mem_cons] at h
      have hne : field.1 ≠ name := fun heq => String.lt_irrefl _ (heq ▸ h.1)
      rw [get?, if_neg hne, ih h.2]

theorem insert_of_lt (h : ∀ field ∈ fields, field.1 < name) (a : α) : insert name a fields = fields ++ [(name, a)] := by
  induction fields with
  | nil => rfl
  | cons field fields ih =>
      rw [List.forall_mem_cons] at h
      have hne : name ≠ field.1 := fun heq => String.lt_irrefl _ (heq ▸ h.1)
      rw [insert, if_neg hne, if_neg (String.lt_asymm h.1), ih h.2, List.cons_append]

theorem get?_map (g : α → β) (name : String) (fields : Fields α) :
    get? name (fields.map fun field => (field.1, g field.2)) = (get? name fields).map g := by
  induction fields with
  | nil => rfl
  | cons field rest ih =>
      simp only [List.map_cons, get?, ih]
      split <;> rfl

theorem insert_map (g : α → β) (name : String) (a : α) (fields : Fields α) :
    insert name (g a) (fields.map fun field => (field.1, g field.2)) =
      (insert name a fields).map fun field => (field.1, g field.2) := by
  induction fields with
  | nil => rfl
  | cons field rest ih =>
      simp only [List.map_cons, insert]
      split
      · rfl
      · split
        · rfl
        · rw [ih]
          rfl

end Sable.Fields
