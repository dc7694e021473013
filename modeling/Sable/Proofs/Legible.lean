import Sable.Proofs.Token.Munch

/-!
Texts that can be read in one way. Two things are legible if their texts, each followed by what may stand behind it,
are never the same text unless the things are the same; a list of such things between separators is legible in turn
(`Legible.join`).
-/

namespace Sable

/-- Where the texts of both, each with what may follow, make up one text, both are the same. -/
def Legible {α : Type} (text : α → List Char) (follow : List Char → Prop) (a b : α) : Prop :=
  ∀ rest rest', follow rest → follow rest' → text a ++ rest = text b ++ rest' → a = b ∧ rest = rest'

/-- The text begins with one of the given ones, or is none. -/
def Begins (starts : List (List Char)) (text : List Char) : Prop := text = [] ∨ ∃ start ∈ starts, start <+: text

theorem begins_nil (starts : List (List Char)) : Begins starts [] := .inl rfl

theorem begins_append {starts : List (List Char)} {start : List Char} (h : start ∈ starts) (rest : List Char) :
    Begins starts (start ++ rest) :=
  .inr ⟨start, h, List.prefix_append start rest⟩

theorem Begins.mono {starts more : List (List Char)} {text : List Char} (h : Begins starts text)
    (hmore : ∀ start ∈ starts, start ∈ more) : Begins more text :=
  h.imp_right fun ⟨start, hstart, hprefix⟩ => ⟨start, hmore start hstart, hprefix⟩

/-- Where a text has ended, what it is followed by begins. -/
theorem Begins.append {starts : List (List Char)} {text : List Char} (h : Begins starts text) (stop rest : List Char) :
    Begins (stop :: starts) (text ++ (stop ++ rest)) := by
  rcases h with rfl | ⟨start, hstart, more, rfl⟩
  · exact begins_append List.mem_cons_self rest
  · rw [List.append_assoc]
    exact begins_append (List.mem_cons_of_mem _ hstart) _

theorem Begins.stops {starts : List (List Char)} {rest : List Char} {p : Char → Bool} (h : Begins starts rest)
    (hp : starts.all (fun start => start.head?.any (!p ·)) = true) : Token.Stops p rest := by
  rcases h with rfl | ⟨start, hstart, rest, rfl⟩
  · exact nofun
  · have hfirst := List.all_eq_true.mp hp start hstart
    cases start with
    | nil => cases hfirst
    | cons c start =>
      rintro d hd
      cases hd
      exact Bool.not_eq_true' _ ▸ hfirst

/-- Names are legible where what follows does not go on with them. -/
theorem legible_name {name other : String} (h : Token.isName name = true) (h' : Token.isName other = true) :
    Legible String.toList Token.EndsName name other := by
  intro rest rest' hrest hrest' heq
  obtain ⟨_, _, _, _, hparts, _⟩ := Token.exists_of_isName h
  obtain ⟨_, _, _, _, hparts', _⟩ := Token.exists_of_isName h'
  obtain ⟨hname, hbehind⟩ := Token.run_inj hparts hrest hparts' hrest' heq
  exact ⟨String.toList_injective hname, hbehind⟩

section Field

variable {α : Type} {text : α → List Char} {follow : List Char → Prop}

/-- A name, a colon and the text of what is named. -/
def fieldChars (text : α → List Char) (field : String × α) : List Char :=
  field.1.toList ++ ([':', ' '] ++ text field.2)

theorem endsName_cons {c : Char} (h : Token.isNamePart c = false) (rest : List Char) : Token.EndsName (c :: rest) := by
  rintro d hd
  cases hd
  exact h

theorem Legible.field {field other : String × α} (h : Token.isName field.1 = true) (h' : Token.isName other.1 = true)
    (hvalue : Legible text follow field.2 other.2) : Legible (fieldChars text) follow field other := by
  intro rest rest' hrest hrest' heq
  simp only [fieldChars, List.append_assoc] at heq
  obtain ⟨hname, hbehind⟩ := legible_name h h' _ _ (endsName_cons (by decide) _) (endsName_cons (by decide) _) heq
  obtain ⟨hpayload, hbehind⟩ := hvalue _ _ hrest hrest' (List.cons.inj (List.cons.inj hbehind).2).2
  exact ⟨Prod.ext hname hpayload, hbehind⟩

/-- A field begins as no closing bracket does. -/
theorem fieldChars_ne {field : String × α} (h : Token.isName field.1 = true) {c : Char}
    (hc : Token.isNameStart c = false) (rest rest' : List Char) : fieldChars text field ++ rest ≠ c :: rest' := by
  obtain ⟨d, ds, hname, hd, -⟩ := Token.exists_of_isName h
  rw [fieldChars, hname]
  intro heq
  rw [(List.cons.inj heq).1, hc] at hd
  cases hd

end Field

section Join

variable {α : Type} {text : α → List Char} {follow : List Char → Prop} {separator stop : List Char}

/-- The texts with the separator between them. -/
def joined (text : α → List Char) (separator : List Char) (items : List α) : List Char :=
  separator.intercalate (items.map text)

/-- What stands behind the first of several texts, up to the end of them all. -/
def behindFirst (text : α → List Char) (separator stop : List Char) : List α → List Char
  | [] => stop
  | b :: rest => separator ++ joined text separator (b :: rest) ++ stop

theorem joined_cons (a : α) (items : List α) :
    joined text separator (a :: items) ++ stop = text a ++ behindFirst text separator stop items := by
  cases items with
  | nil => simp [joined, behindFirst]
  | cons b rest => simp [joined, behindFirst]

theorem toList_intercalate_map (f : α → String) (separator : String) (items : List α) :
    (separator.intercalate (items.map f)).toList = joined (fun a => (f a).toList) separator.toList items := by
  rw [joined, String.toList_intercalate, List.map_map]
  rfl

/-- Separators and the text behind the last one, `stop`, tell where the items end. -/
structure Separates (text : α → List Char) (follow : List Char → Prop) (separator stop : List Char) : Prop where
  separator_follows : ∀ rest, follow (separator ++ rest)
  stop_follows : ∀ rest, follow (stop ++ rest)
  separator_ne : ∀ rest rest', separator ++ rest ≠ stop ++ rest'

theorem Legible.join (hsep : Separates text follow separator stop) {as bs : List α}
    (h : ∀ a ∈ as, ∀ b ∈ bs, Legible text follow a b)
    (has : ∀ a ∈ as, ∀ rest rest', text a ++ rest ≠ stop ++ rest')
    (hbs : ∀ b ∈ bs, ∀ rest rest', text b ++ rest ≠ stop ++ rest') {rest rest' : List Char}
    (heq : joined text separator as ++ (stop ++ rest) = joined text separator bs ++ (stop ++ rest')) :
    as = bs ∧ rest = rest' := by
  have hfollow : ∀ (items : List α) rest, follow (behindFirst text separator (stop ++ rest) items) := by
    intro items rest
    cases items with
    | nil => exact hsep.stop_follows rest
    | cons b items =>
      rw [behindFirst, List.append_assoc]
      exact hsep.separator_follows _
  induction as generalizing bs with
  | nil =>
    cases bs with
    | nil => exact ⟨rfl, List.append_cancel_left heq⟩
    | cons b bs =>
      rw [joined_cons] at heq
      exact absurd heq.symm (hbs b List.mem_cons_self _ _)
  | cons a as ih =>
    cases bs with
    | nil =>
      rw [joined_cons] at heq
      exact absurd heq (has a List.mem_cons_self _ _)
    | cons b bs =>
      rw [joined_cons, joined_cons] at heq
      obtain ⟨rfl, hbehind⟩ := h a List.mem_cons_self b List.mem_cons_self _ _ (hfollow as rest) (hfollow bs rest') heq
      have hrest : joined text separator as ++ (stop ++ rest) = joined text separator bs ++ (stop ++ rest') := by
        cases as with
        | nil =>
          cases bs with
          | nil => exact hbehind
          | cons c bs =>
            rw [behindFirst, behindFirst, List.append_assoc] at hbehind
            exact absurd hbehind.symm (hsep.separator_ne _ _)
        | cons c as =>
          cases bs with
          | nil =>
            rw [behindFirst, behindFirst, List.append_assoc] at hbehind
            exact absurd hbehind (hsep.separator_ne _ _)
          | cons d bs =>
            rw [behindFirst, behindFirst, List.append_assoc, List.append_assoc] at hbehind
            exact List.append_cancel_left hbehind
      obtain ⟨has, hbehind⟩ := ih (fun a ha b hb => h a (List.mem_cons_of_mem _ ha) b (List.mem_cons_of_mem _ hb))
        (fun a ha => has a (List.mem_cons_of_mem _ ha)) (fun b hb => hbs b (List.mem_cons_of_mem _ hb)) hrest
      exact ⟨congrArg _ has, hbehind⟩

end Join

end Sable
