import Sable.Proofs.Tree.ReadBack

/-!
Dumps are faithful to merged outlines: bodies with names in the places of names have one dump exactly if they have one
merged outline (`Body.dump_eq_iff`).
-/

namespace Sable

open Item (ReadBack)

theorem map_eq_map_of_imp {α β γ : Type} {f : α → β} {g : α → γ} {as bs : List α}
    (h : ∀ a ∈ as, ∀ b ∈ bs, f a = f b → g a = g b) (heq : as.map f = bs.map f) : as.map g = bs.map g := by
  induction as generalizing bs with
  | nil =>
    rw [List.map_nil, eq_comm, List.map_eq_nil_iff] at heq
    rw [heq]
  | cons a as ih =>
    cases bs with
    | nil => cases heq
    | cons b bs =>
      obtain ⟨hhead, htail⟩ := List.cons.inj heq
      rw [List.map_cons, List.map_cons, h a List.mem_cons_self b List.mem_cons_self hhead,
        ih (fun a' ha b' hb => h a' (List.mem_cons_of_mem _ ha) b' (List.mem_cons_of_mem _ hb)) htail]

theorem Spanned.bare_eq {a b : Spanned String} (h : a.value = b.value) : a.bare = b.bare := by rw [bare, bare, h]

section

variable {xs ys : List Sexp}

/-- Names in brackets are told apart from what stands behind them. -/
theorem Generics.outline_eq {names others : Generics} (hxs : ∀ x ∈ xs.head?, x.isSquare = false)
    (hys : ∀ y ∈ ys.head?, y.isSquare = false) (heq : names.forms ++ xs = others.forms ++ ys) :
    names.outline = others.outline ∧ xs = ys := by
  cases names with
  | nil =>
    cases others with
    | nil => exact ⟨rfl, heq⟩
    | cons other others =>
      have hsquare := hxs (.list .square _) (congrArg List.head? heq)
      cases hsquare
  | cons name names =>
    cases others with
    | nil =>
      have hsquare := hys (.list .square _) (congrArg List.head? heq.symm)
      cases hsquare
    | cons other others =>
      obtain ⟨hlist, hrest⟩ := List.cons.inj heq
      rw [← ofForms_map, ← ofForms_map, (Sexp.list.inj hlist).2]
      exact ⟨rfl, hrest⟩

namespace TypeExpr

theorem outline_eq {t u : TypeExpr} (ht : (Item.type t).ReadBack) (hu : (Item.type u).ReadBack)
    (heq : t.form = u.form) : t.outline true = u.outline true := by
  have ht : ofForm t.form = t.outline true := ht
  have hu : ofForm u.form = u.outline true := hu
  rw [← ht, heq, hu]

theorem outlineParameters_eq {ps qs : ParameterList (Parameter TypeExpr)}
    (hps : ∀ c ∈ Item.ofParameters ps, c.ReadBack) (hqs : ∀ c ∈ Item.ofParameters qs, c.ReadBack)
    (heq : formParameters ps = formParameters qs) : outlineParameters true ps = outlineParameters true qs := by
  rw [← ofParameters_form hps, heq, ofParameters_form hqs]

theorem isSquare_formParameters (ps : ParameterList (Parameter TypeExpr)) : (formParameters ps).isSquare = false := by
  cases ps <;> rfl

/-- A type behind a colon is told apart from what stands behind it. -/
theorem outline?_eq {t u : Option TypeExpr} (ht : ∀ c ∈ Item.ofType? t, c.ReadBack)
    (hu : ∀ c ∈ Item.ofType? u, c.ReadBack) (hxs : ∀ a rest, xs ≠ .word ":" :: a :: rest)
    (hys : ∀ a rest, ys ≠ .word ":" :: a :: rest) (heq : annotationForms t ++ xs = annotationForms u ++ ys) :
    t.map (outline true) = u.map (outline true) ∧ xs = ys := by
  cases t with
  | none =>
    cases u with
    | none => exact ⟨rfl, heq⟩
    | some u => exact absurd heq (hxs u.form ys)
  | some t =>
    cases u with
    | none => exact absurd heq.symm (hys t.form xs)
    | some u =>
      obtain ⟨htype, hrest⟩ := List.cons.inj (List.cons.inj heq).2
      have hsame := outline_eq (ht (.type t) (List.mem_singleton.mpr rfl))
        (hu (.type u) (List.mem_singleton.mpr rfl)) htype
      exact ⟨congrArg some hsame, hrest⟩

end TypeExpr

end

theorem Expr.outline_eq {e f : Expr} (he : (Item.expr e).ReadBack) (hf : (Item.expr f).ReadBack)
    (heq : e.form = f.form) : e.outline true = f.outline true := by
  have he : ofForm e.form = e.outline true := he
  have hf : ofForm f.form = f.outline true := hf
  rw [← he, heq, hf]

theorem Alternative.outline_eq {a b : Alternative} (ha : (Item.alternative a).ReadBack)
    (hb : (Item.alternative b).ReadBack) (heq : a.form = b.form) : a.outline true = b.outline true := by
  simp only [form, Sexp.list.injEq, List.cons.injEq, Sexp.word.injEq, and_true, true_and] at heq
  rw [outline, outline, heq.1, TypeExpr.outline_eq ha hb heq.2]

/-- The forms of a declaration or a body tell its merged outline. -/
def Item.Told : Item → Prop
  | declaration d => ∀ d', (declaration d').Spelled → d.form = d'.form → d.outline true = d'.outline true
  | body b => ∀ b', (body b').Spelled → b.forms = b'.forms → b.outline true = b'.outline true
  | _ => True

theorem Body.forms_ne_colon (b : Body) (a : Sexp) (rest : List Sexp) : b.forms ≠ .word ":" :: a :: rest := by
  obtain ⟨declarations, result, span⟩ := b
  intro h
  rcases declarations with _ | ⟨d, ds⟩
  · cases h
  · cases d <;> cases (List.cons.inj h).1

namespace Declaration

theorem outline_eq {d : Declaration} (h : ∀ c ∈ d.items, c.ReadBack) (htold : ∀ c ∈ d.items, c.Told)
    {d' : Declaration} (hspelled : (Item.declaration d').Spelled) (heq : d.form = d'.form) :
    d.outline true = d'.outline true := by
  have hchildren : ∀ c ∈ d'.items, c.Spelled := (Item.spelled_iff.mp hspelled).2
  have h' : ∀ c ∈ d'.items, c.ReadBack := fun c hc => (hchildren c hc).readBack
  cases d with
  | value span name type value =>
    cases d' with
    | value span' name' type' value' =>
      simp only [items, List.forall_mem_append, List.forall_mem_cons] at h h'
      obtain ⟨⟨-, htype⟩, hvalue, -⟩ := h
      obtain ⟨⟨-, htype'⟩, hvalue', -⟩ := h'
      simp only [form, Sexp.list.injEq, List.cons_append, List.cons.injEq, Sexp.word.injEq, true_and] at heq
      obtain ⟨hname, heq⟩ := heq
      obtain ⟨hsame, heq⟩ := TypeExpr.outline?_eq htype htype' (by simp) (by simp) heq
      rw [outline, outline, Spanned.bare_eq hname, hsame, Expr.outline_eq hvalue hvalue' (List.cons.inj heq).1]
    | _ => simp [form] at heq
  | function span name names ps result body =>
    cases d' with
    | function span' name' names' ps' result' body' =>
      simp only [items, List.forall_mem_append, List.forall_mem_cons] at h h' htold hchildren
      obtain ⟨⟨⟨⟨-, -⟩, hps⟩, hresult⟩, -⟩ := h
      obtain ⟨⟨⟨⟨-, -⟩, hps'⟩, hresult'⟩, -⟩ := h'
      simp only [form, Sexp.list.injEq, List.cons_append, List.append_assoc, List.cons.injEq, Sexp.word.injEq, true_and,
        List.nil_append] at heq
      obtain ⟨hname, heq⟩ := heq
      obtain ⟨hnames, heq⟩ := Generics.outline_eq (by simp [TypeExpr.isSquare_formParameters])
        (by simp [TypeExpr.isSquare_formParameters]) heq
      obtain ⟨hparameters, heq⟩ := List.cons.inj heq
      obtain ⟨hsame, heq⟩ := TypeExpr.outline?_eq hresult hresult' body.forms_ne_colon body'.forms_ne_colon heq
      rw [outline, outline, Spanned.bare_eq hname, hnames, TypeExpr.outlineParameters_eq hps hps' hparameters, hsame,
        htold.2.1 body' hchildren.2.1 heq]
    | _ => simp [form] at heq
  | external span name names ps result =>
    cases d' with
    | external span' name' names' ps' result' =>
      simp only [items, List.forall_mem_append, List.forall_mem_cons] at h h'
      obtain ⟨⟨⟨-, -⟩, hps⟩, hresult, -⟩ := h
      obtain ⟨⟨⟨-, -⟩, hps'⟩, hresult', -⟩ := h'
      simp only [form, Sexp.list.injEq, List.cons_append, List.append_assoc, List.cons.injEq, Sexp.word.injEq, true_and,
        List.nil_append, TypeExpr.annotationForms] at heq
      obtain ⟨hname, heq⟩ := heq
      obtain ⟨hnames, heq⟩ := Generics.outline_eq (by simp [TypeExpr.isSquare_formParameters])
        (by simp [TypeExpr.isSquare_formParameters]) heq
      simp only [List.cons.injEq, true_and, and_true] at heq
      rw [outline, outline, Spanned.bare_eq hname, hnames, TypeExpr.outlineParameters_eq hps hps' heq.1,
        TypeExpr.outline_eq hresult hresult' heq.2]
    | _ => simp [form] at heq
  | «alias» span name names target =>
    cases d' with
    | «alias» span' name' names' target' =>
      simp only [items, List.forall_mem_append, List.forall_mem_cons] at h h'
      simp only [form, Sexp.list.injEq, List.cons_append, List.cons.injEq, Sexp.word.injEq, true_and] at heq
      obtain ⟨hname, heq⟩ := heq
      obtain ⟨hnames, heq⟩ :=
        Generics.outline_eq (by simp [TypeExpr.isSquare_form]) (by simp [TypeExpr.isSquare_form]) heq
      rw [outline, outline, Spanned.bare_eq hname, hnames, TypeExpr.outline_eq h.2.1 h'.2.1 (List.cons.inj heq).1]
    | _ => simp [form] at heq
  | union span name names alternatives =>
    cases d' with
    | union span' name' names' alternatives' =>
      have hsquare (as : List Alternative) : ∀ x ∈ (as.map Alternative.form).head?, x.isSquare = false := by
        cases as with
        | nil => exact fun x hx => by cases hx
        | cons a as =>
          intro x hx
          cases hx
          rfl
      simp only [form, Sexp.list.injEq, List.cons_append, List.cons.injEq, Sexp.word.injEq, true_and] at heq
      obtain ⟨hname, heq⟩ := heq
      obtain ⟨hnames, heq⟩ := Generics.outline_eq (hsquare alternatives) (hsquare alternatives') heq
      have halternatives := map_eq_map_of_imp (g := Alternative.outline true) (fun a ha b hb =>
        Alternative.outline_eq (h (.alternative a) (by simp [items, ha]))
          (h' (.alternative b) (by simp [items, hb]))) heq
      rw [outline, outline, Spanned.bare_eq hname, hnames, halternatives]
    | _ => simp [form] at heq

theorem outlineEach_eq_map (ds : List Declaration) : outlineEach true ds = ds.map (outline true) := by
  induction ds with
  | nil => rfl
  | cons d rest ih => rw [outlineEach, ih, List.map_cons]

end Declaration

theorem Item.Spelled.told {i : Item} (h : i.Spelled) : i.Told := by
  induction i using Item.parts_induction with
  | step i ih =>
    obtain ⟨-, hchildren⟩ := spelled_iff.mp h
    have htold : ∀ c ∈ i.children, c.Told := fun c hc => ih c hc (hchildren c hc)
    have hread : ∀ c ∈ i.children, c.ReadBack := fun c hc => (hchildren c hc).readBack
    cases i with
    | declaration d => exact fun d' hd' heq => Declaration.outline_eq hread htold hd' heq
    | body b =>
      intro b' hb' heq
      obtain ⟨declarations, result, span⟩ := b
      obtain ⟨declarations', result', span'⟩ := b'
      have hchildren' := (spelled_iff.mp hb').2
      obtain ⟨hdeclarations, hresult⟩ := List.append_inj' heq rfl
      rw [Declaration.formEach_eq_map, Declaration.formEach_eq_map] at hdeclarations
      simp only [Sexp.list.injEq, List.cons.injEq, true_and, and_true] at hresult
      have hsame := map_eq_map_of_imp (g := Declaration.outline true) (fun d hd d' hd' =>
        htold (.declaration d) (by simp [children, Body.items, Body.declarations, hd]) d'
          (hchildren' (.declaration d') (by simp [children, Body.items, Body.declarations, hd']))) hdeclarations
      have hlast := Expr.outline_eq (hread (.expr result) (by simp [children, Body.items, Body.result]))
        (hchildren' (.expr result') (by simp [children, Body.items, Body.result])).readBack hresult
      rw [Body.outline, Body.outline, Declaration.outlineEach_eq_map, Declaration.outlineEach_eq_map, hsame, hlast]
    | _ => trivial

/-- Bodies have one dump exactly if they have one merged outline. -/
theorem Body.dump_eq_iff {b b' : Body} (h : (Item.body b).Spelled) (h' : (Item.body b').Spelled) :
    b.dump 0 = b'.dump 0 ↔ b.outline true = b'.outline true := by
  constructor
  · exact fun heq => h.told b' h' (forms_eq_of_dump_eq h h' heq)
  · intro heq
    rw [← @dump_outline true b, heq, dump_outline]

end Sable
