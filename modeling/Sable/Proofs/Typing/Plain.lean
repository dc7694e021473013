import Sable.Proofs.Lowering.Layout
import Sable.Proofs.Typing.Asks
import Sable.Proofs.Typing.Valid

/-! Type determination without a memo.

In a program that is laid out in order the type of a node only depends on nodes before it. So types may be
worked out anew whenever they are asked for, without end to fear, and a memo only saves time: what it is
asked for it answers with the same type or the same error, whatever it was asked for before. -/
namespace Sable.Program

variable {p : Program}

/-! ## Nodes before others -/

theorem LaidOut.asks_lt (h : p.LaidOut) {id c : NodeId} (hc : c ∈ p.asks id) : c < id := by
  rcases Nat.lt_or_ge id p.nodes.size with hid | hid
  · exact (h.node id hid).asks c hc
  · simp [asks, node_of_size_le hid, children] at hc

/-- Computations that are the same. -/
def same (m : Type → Type) [Monad m] [MonadExceptOf TypeError m] : Correspondence m m where
  Rel c c' := c = c'
  pure _ := rfl
  fail _ _ _ := rfl
  bind h hf := by rw [h, funext hf]

variable [EntryOrder]

/-- The rule of a node asks for nothing but nodes before it. -/
theorem LaidOut.typeRule_congr (h : p.LaidOut) {m : Type → Type} [Monad m] [MonadExceptOf TypeError m]
    {id : NodeId} {ask ask' : NodeId → m Ty} (hask : ∀ c < id, ask c = ask' c) :
    typeRule p ask id = typeRule p ask' id :=
  (same m).typeRule fun c hc => hask c (h.asks_lt hc)

/-! ## Types without a memo -/

/-- The type of a node, worked out from types that are worked out with less `depth`. -/
def plainTypeUpTo (p : Program) : (depth : Nat) → NodeId → Except TypeError Ty
  | 0, id => fail .loop (p.node id).span
  | depth + 1, id => typeRule p (p.plainTypeUpTo depth) id

/-- The type of a node, worked out without remembering anything. -/
def plainType (p : Program) : TypeTable := fun id => p.plainTypeUpTo (id + 1) id

theorem plainTypeUpTo_eq (h : p.LaidOut) (depth : Nat) :
    ∀ id < depth, p.plainTypeUpTo depth id = p.plainType id := by
  induction depth using Nat.strongRecOn with
  | ind depth ih =>
      cases depth with
      | zero => exact fun id hid => absurd hid (Nat.not_lt_zero id)
      | succ depth =>
          intro id hid
          refine h.typeRule_congr fun c hc => ?_
          rw [ih depth (Nat.lt_succ_self _) c (Nat.lt_of_lt_of_le hc (Nat.le_of_lt_succ hid))]
          rcases Nat.lt_or_eq_of_le (Nat.le_of_lt_succ hid) with hid | rfl
          · exact (ih id (by omega) c hc).symm
          · exact (ih id (Nat.lt_succ_self _) c hc).symm

/-- Plain types obey the rules. -/
theorem plainType_eq (h : p.LaidOut) (id : NodeId) : p.plainType id = typeRule p p.plainType id :=
  h.typeRule_congr fun c hc => plainTypeUpTo_eq h id c hc

/-- Computations that do not find a type to depend on itself. -/
def loopFree : Correspondence (Except TypeError) (Except TypeError) where
  Rel c _ := ∀ e, c = .error e → e.fault ≠ .loop
  pure _ := nofun
  fail fault span hfault e he := by
    obtain rfl := Except.error.inj he
    exact hfault
  bind := by
    intro _ _ c _ f _ hc hf e he
    cases c with
    | error e' =>
        obtain rfl := Except.error.inj he
        exact hc e' rfl
    | ok a => exact hf a e he

/-- No plain type depends on itself. -/
theorem plainType_loopFree (h : p.LaidOut) (id : NodeId) :
    ∀ e, p.plainType id = .error e → e.fault ≠ .loop := by
  induction id using Nat.strongRecOn with
  | ind id ih =>
      rw [plainType_eq h id]
      have hrule : loopFree.Rel (typeRule p p.plainType id) (typeRule p p.plainType id) :=
        loopFree.typeRule fun c hc => ih c (h.asks_lt hc)
      exact hrule

/-! ## Memos of plain types -/

/-- A memo that has plain types only. -/
structure Knows (p : Program) (memo : Memo) : Prop where
  size : memo.known.size = p.nodes.size
  known : ∀ (id : NodeId) (type : Ty), memo.known.getD id none = some type → p.plainType id = .ok type

theorem knows_blank (p : Program) : p.Knows p.blank := by
  refine ⟨by simp [blank], fun id type hknown => ?_⟩
  simp only [blank, Array.getD_eq_getD_getElem?, Array.getElem?_replicate] at hknown
  split at hknown <;> cases hknown

theorem Knows.visiting {memo : Memo} (h : p.Knows memo) (visiting : List NodeId) :
    p.Knows { memo with visiting := visiting } := ⟨h.size, h.known⟩

theorem Knows.note {memo : Memo} (h : p.Knows memo) {id : NodeId} {type : Ty}
    (htype : p.plainType id = .ok type) :
    p.Knows { memo with known := memo.known.setIfInBounds id (some type) } := by
  refine ⟨by simpa using h.size, fun i a hi => ?_⟩
  rcases Nat.lt_or_ge id memo.known.size with hid | hid
  · simp only [known_set hid] at hi
    split at hi
    · rename_i heq
      obtain rfl := Option.some.inj hi
      rw [heq]
      exact htype
    · exact h.known i a hi
  · simp only [Array.setIfInBounds_eq_of_size_le hid] at hi
    exact h.known i a hi

/-- From memos of plain types, while nodes that satisfy `P` are visited, the computation has this result,
and it leaves such a memo and no other nodes visited. -/
def Recalls (p : Program) (P : List NodeId → Prop) {α : Type} (c : Typing α)
    (result : Except TypeError α) : Prop :=
  ∀ memo, P memo.visiting → p.Knows memo →
    (c.run memo).1 = result ∧ (c.run memo).2.visiting = memo.visiting ∧ p.Knows (c.run memo).2

theorem Recalls.mono {P P' : List NodeId → Prop} {α : Type} {c : Typing α}
    {result : Except TypeError α} (h : p.Recalls P c result) (hP : ∀ visiting, P' visiting → P visiting) :
    p.Recalls P' c result := fun memo hmemo hknows => h memo (hP _ hmemo) hknows

theorem Recalls.bind {P : List NodeId → Prop} {α β : Type} {c : Typing α} {c' : Except TypeError α}
    {f : α → Typing β} {f' : α → Except TypeError β} (h : p.Recalls P c c')
    (hf : ∀ a, p.Recalls P (f a) (f' a)) : p.Recalls P (c >>= f) (c' >>= f') := by
  intro memo hmemo hknows
  obtain ⟨hresult, hvisiting, hknows'⟩ := h memo hmemo hknows
  rw [run_bind_eq]
  match hrun : c.run memo with
  | (.ok a, mid) =>
      rw [hrun] at hresult hvisiting hknows'
      obtain rfl : Except.ok a = c' := hresult
      obtain ⟨hresult, hvisiting', hknows''⟩ := hf a mid (hvisiting ▸ hmemo) hknows'
      exact ⟨hresult, hvisiting'.trans hvisiting, hknows''⟩
  | (.error e, mid) =>
      rw [hrun] at hresult hvisiting hknows'
      obtain rfl : Except.error e = c' := hresult
      exact ⟨rfl, hvisiting, hknows'⟩

/-- Determination by memo and without one. -/
def recalling (p : Program) (P : List NodeId → Prop) : Correspondence Typing (Except TypeError) where
  Rel c result := p.Recalls P c result
  pure _ := fun _ _ hknows => ⟨rfl, rfl, hknows⟩
  fail _ _ _ := fun _ _ hknows => ⟨rfl, rfl, hknows⟩
  bind := Recalls.bind

/-- Only nodes after this one are visited. -/
def Behind (id : NodeId) (visiting : List NodeId) : Prop := ∀ v ∈ visiting, id < v

theorem recalls_visit (h : p.LaidOut) {depth : Nat} {id : NodeId}
    (hask : ∀ c ∈ p.asks id, p.Recalls (Behind c) (p.typeUpTo depth c) (p.plainType c)) :
    p.Recalls (Behind id) (visit id (typeRule p (p.typeUpTo depth) id)) (p.plainType id) := by
  intro memo hbehind hknows
  have hparts : ∀ c ∈ p.asks id, p.Recalls (fun visiting => ∀ v ∈ visiting, id ≤ v)
      (p.typeUpTo depth c) (p.plainType c) := fun c hc =>
    (hask c hc).mono fun visiting hvisiting v hv => Nat.lt_of_lt_of_le (h.asks_lt hc) (hvisiting v hv)
  have hrule := (p.recalling fun visiting => ∀ v ∈ visiting, id ≤ v).typeRule hparts
  rw [← plainType_eq h id] at hrule
  have hbegun : ∀ v ∈ id :: memo.visiting, id ≤ v :=
    List.forall_mem_cons.mpr ⟨Nat.le_refl _, fun v hv => Nat.le_of_lt (hbehind v hv)⟩
  obtain ⟨hresult, hvisiting, hknows'⟩ :=
    hrule { memo with visiting := id :: memo.visiting } hbegun (hknows.visiting _)
  rw [run_visit]
  match hrun : (typeRule p (p.typeUpTo depth) id).run { memo with visiting := id :: memo.visiting } with
  | (.ok type, mid) =>
      rw [hrun] at hresult hvisiting hknows'
      have herase : mid.visiting.erase id = memo.visiting := by
        rw [show mid.visiting = id :: memo.visiting from hvisiting, List.erase_cons_head]
      exact ⟨hresult, herase, (hknows'.note hresult.symm).visiting _⟩
  | (.error e, mid) =>
      rw [hrun] at hresult hvisiting hknows'
      have herase : mid.visiting.erase id = memo.visiting := by
        rw [show mid.visiting = id :: memo.visiting from hvisiting, List.erase_cons_head]
      exact ⟨hresult, herase, hknows'.visiting _⟩

theorem recalls_typeUpTo_succ (h : p.LaidOut) {depth : Nat} {id : NodeId}
    (hask : ∀ c ∈ p.asks id, p.Recalls (Behind c) (p.typeUpTo depth c) (p.plainType c)) :
    p.Recalls (Behind id) (p.typeUpTo (depth + 1) id) (p.plainType id) := by
  intro memo hbehind hknows
  have hfirst : memo.visiting.contains id = false := by
    rw [List.contains_eq_mem, decide_eq_false_iff_not]
    exact fun hmem => Nat.lt_irrefl id (hbehind id hmem)
  cases hknown : memo.known.getD id none with
  | some type =>
      have hrun : (p.typeUpTo (depth + 1) id).run memo = (pure type : Typing Ty).run memo := by
        rw [run_typeUpTo_succ, hknown]
      rw [hrun]
      exact ⟨(hknows.known id type hknown).symm, rfl, hknows⟩
  | none =>
      have hrun : (p.typeUpTo (depth + 1) id).run memo =
          (visit id (typeRule p (p.typeUpTo depth) id)).run memo := by
        rw [run_typeUpTo_succ, hknown]
        simp only [hfirst, Bool.false_eq_true, if_false]
      rw [hrun]
      exact recalls_visit h hask memo hbehind hknows

theorem recalls_typeUpTo (h : p.LaidOut) (depth : Nat) :
    ∀ id < depth, p.Recalls (Behind id) (p.typeUpTo depth id) (p.plainType id) := by
  induction depth with
  | zero => exact fun id hid => absurd hid (Nat.not_lt_zero id)
  | succ depth ih =>
      intro id hid
      exact recalls_typeUpTo_succ h fun c hc => ih c (Nat.lt_of_lt_of_le (h.asks_lt hc) (Nat.le_of_lt_succ hid))

/-- Nothing is being visited. -/
def Idle (visiting : List NodeId) : Prop := visiting = []

theorem recalls_typeOf (h : p.LaidOut) (id : NodeId) :
    p.Recalls Idle (p.typeOf id) (p.plainType id) := by
  have hbehind : p.Recalls (Behind id) (p.typeOf id) (p.plainType id) := by
    rcases Nat.lt_or_ge id p.nodes.size with hid | hid
    · exact recalls_typeUpTo h _ id hid
    · -- a number that belongs to no node asks for nothing
      obtain ⟨depth, hdepth⟩ := Nat.exists_eq_succ_of_ne_zero (Nat.ne_zero_of_lt h.result)
      rw [typeOf, hdepth]
      refine recalls_typeUpTo_succ h fun c hc => ?_
      simp [asks, node_of_size_le hid, children] at hc
  refine hbehind.mono fun visiting hidle v hv => ?_
  rw [hidle] at hv
  cases hv

/-- The type of a binding, worked out without remembering anything. -/
def plainTypeOfBinding (p : Program) (id : BindingId) : Except TypeError Ty := bindingType p p.plainType id

theorem recalls_typeOfBinding (h : p.LaidOut) (id : BindingId) :
    p.Recalls Idle (p.typeOfBinding id) (p.plainTypeOfBinding id) :=
  (p.recalling Idle).bindingType fun c _ => recalls_typeOf h c

theorem plainTypeOfBinding_loopFree (h : p.LaidOut) (id : BindingId) :
    ∀ e, p.plainTypeOfBinding id = .error e → e.fault ≠ .loop := by
  have hrule : loopFree.Rel (bindingType p p.plainType id) (bindingType p p.plainType id) :=
    loopFree.bindingType fun c _ => plainType_loopFree h c
  exact hrule

end Sable.Program
