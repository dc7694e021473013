import Mathlib.Data.List.Forall2
import Sable.Proofs.Token.Munch
import Sable.Tree.Dump

/-!
Nested lists of words, and the texts that they are read from.

A text is cut into words and brackets at blanks and ends of lines; so much of it is kept by `lexemes`, and so much is
enough to tell the lists (`flattenAll_inj`). Texts that are put together spell the lists that are put together
(`Spells.append`, `Spells.list`, `SpellsEach.spaced`).
-/

namespace Sable

inductive Bracket where
  | round | square | curly
deriving DecidableEq, Repr

/-- A word, or a list in brackets. -/
inductive Sexp where
  | word (s : String)
  | list (b : Bracket) (items : List Sexp)
deriving Repr

/-- What is left of a text when it is cut at blanks. -/
inductive Lexeme where
  | word (s : String)
  | opening (b : Bracket)
  | closing (b : Bracket)
deriving DecidableEq, Repr

namespace Sexp

/-! ## Lists from lexemes -/

mutual

def flatten : Sexp → List Lexeme
  | word s => [.word s]
  | list b items => .opening b :: (flattenAll items ++ [.closing b])

def flattenAll : List Sexp → List Lexeme
  | [] => []
  | s :: rest => s.flatten ++ flattenAll rest

end

@[simp] theorem flattenAll_append (xs ys : List Sexp) : flattenAll (xs ++ ys) = flattenAll xs ++ flattenAll ys := by
  induction xs with
  | nil => rfl
  | cons x xs ih => rw [List.cons_append, flattenAll, ih, flattenAll, List.append_assoc]

@[simp] theorem flattenAll_singleton (x : Sexp) : flattenAll [x] = x.flatten := by
  rw [flattenAll, flattenAll, List.append_nil]

/-- A list ends here, or the text does. -/
def Ends (rest : List Lexeme) : Prop := ∀ l ∈ rest.head?, ∃ b, l = .closing b

theorem ends_nil : Ends [] := nofun

theorem ends_closing (b : Bracket) (rest : List Lexeme) : Ends (.closing b :: rest) := by
  rintro l hl
  cases hl
  exact ⟨b, rfl⟩

theorem not_ends_flatten (x : Sexp) (rest : List Lexeme) : ¬ Ends (x.flatten ++ rest) := by
  intro h
  cases x with
  | word s =>
    obtain ⟨b, hb⟩ := h _ rfl
    cases hb
  | list b items =>
    obtain ⟨b', hb'⟩ := h (.opening b) rfl
    cases hb'

mutual

theorem flatten_inj : ∀ {x y : Sexp} {rest rest' : List Lexeme}, x.flatten ++ rest = y.flatten ++ rest' →
    x = y ∧ rest = rest'
  | .word s, y, rest, rest', h => by
    cases y with
    | word t =>
      obtain ⟨hhead, hrest⟩ := List.cons.inj h
      cases hhead
      exact ⟨rfl, hrest⟩
    | list b items => cases (List.cons.inj h).1
  | .list b items, y, rest, rest', h => by
    cases y with
    | word t => cases (List.cons.inj h).1
    | list b' items' =>
      simp only [flatten, List.cons_append, List.append_assoc, List.cons.injEq, Lexeme.opening.injEq,
        List.nil_append] at h
      obtain ⟨rfl, h⟩ := h
      obtain ⟨rfl, hrest⟩ := flattenAll_inj (ends_closing b rest) (ends_closing b rest') h
      exact ⟨rfl, (List.cons.inj hrest).2⟩
termination_by structural x => x

theorem flattenAll_inj : ∀ {xs ys : List Sexp} {rest rest' : List Lexeme}, Ends rest → Ends rest' →
    flattenAll xs ++ rest = flattenAll ys ++ rest' → xs = ys ∧ rest = rest'
  | [], ys, rest, rest', hrest, _, h => by
    cases ys with
    | nil => exact ⟨rfl, h⟩
    | cons y ys =>
      rw [flattenAll, flattenAll, List.nil_append, List.append_assoc] at h
      exact absurd (h ▸ hrest) (not_ends_flatten y _)
  | x :: xs, ys, rest, rest', hrest, hrest', h => by
    cases ys with
    | nil =>
      rw [flattenAll, flattenAll, List.nil_append, List.append_assoc] at h
      exact absurd (h ▸ hrest') (not_ends_flatten x _)
    | cons y ys =>
      rw [flattenAll, flattenAll, List.append_assoc, List.append_assoc] at h
      obtain ⟨rfl, hitems⟩ := flatten_inj h
      obtain ⟨rfl, hbehind⟩ := flattenAll_inj hrest hrest' hitems
      exact ⟨rfl, hbehind⟩
termination_by structural xs => xs

end

end Sexp

/-! ## Lexemes of a text -/

namespace Lexeme

def isGap (c : Char) : Bool := c == ' ' || c == '\n'

def ofBracket? : Char → Option Lexeme
  | '(' => some (.opening .round) | ')' => some (.closing .round)
  | '[' => some (.opening .square) | ']' => some (.closing .square)
  | '\x7b' => some (.opening .curly) | '\x7d' => some (.closing .curly)
  | _ => none

/-- Whether a character goes on with a word. -/
def isPart (c : Char) : Bool := !isGap c && (ofBracket? c).isNone

/-- The word that has been read, unless none has. -/
def ended (word : List Char) : List Lexeme := if word.isEmpty then [] else [.word (.ofList word)]

/-- The lexemes of a text that goes on with a word. -/
def cutFrom (word : List Char) : List Char → List Lexeme
  | [] => ended word
  | c :: cs =>
    if isGap c then ended word ++ cutFrom [] cs
    else
      match ofBracket? c with
      | some bracket => ended word ++ bracket :: cutFrom [] cs
      | none => cutFrom (word ++ [c]) cs

/-- The lexemes of a text. -/
def cut (text : List Char) : List Lexeme := cutFrom [] text

variable {word cs rest : List Char} {c : Char}

theorem cutFrom_append (h : ∀ c ∈ cs, isPart c = true) : cutFrom word (cs ++ rest) = cutFrom (word ++ cs) rest := by
  induction cs generalizing word with
  | nil => rw [List.nil_append, List.append_nil]
  | cons c cs ih =>
    obtain ⟨hc, hcs⟩ := List.forall_mem_cons.mp h
    simp only [isPart, Bool.and_eq_true, Bool.not_eq_true', Option.isNone_iff_eq_none] at hc
    rw [List.cons_append, cutFrom, hc.1, if_neg Bool.false_ne_true, hc.2]
    refine (ih hcs).trans ?_
    rw [List.append_assoc, List.singleton_append]

/-- A word ends where nothing goes on with it. -/
theorem cutFrom_of_stops (h : Token.Stops isPart rest) : cutFrom word rest = ended word ++ cut rest := by
  cases rest with
  | nil => exact (List.append_nil _).symm
  | cons c rest =>
    have hc := h c rfl
    rw [cut, cutFrom, cutFrom]
    cases hgap : isGap c with
    | true => rfl
    | false =>
      cases hbracket : ofBracket? c with
      | some bracket => rfl
      | none =>
        rw [isPart, hgap, hbracket] at hc
        cases hc

theorem cut_word (hne : cs ≠ []) (hcs : ∀ c ∈ cs, isPart c = true) (h : Token.Stops isPart rest) :
    cut (cs ++ rest) = .word (.ofList cs) :: cut rest := by
  rw [cut, cutFrom_append hcs, cutFrom_of_stops h, List.nil_append, ended, List.isEmpty_eq_false_iff.mpr hne,
    if_neg Bool.false_ne_true, List.singleton_append]

theorem cut_gap (h : isGap c = true) (rest : List Char) : cut (c :: rest) = cut rest := by
  rw [cut, cutFrom, h, if_pos rfl]
  rfl

theorem stops_of_isPart_eq_false (h : isPart c = false) (rest : List Char) : Token.Stops isPart (c :: rest) := by
  rintro d hd
  cases hd
  exact h

end Lexeme

/-! ## Texts of lists -/

open Lexeme (isPart isGap cut)
open Sexp (flattenAll)

/-- The text is cut into the lexemes of the items, wherever it stands in front of something that ends a word. -/
def Spells (text : String) (items : List Sexp) : Prop :=
  ∀ rest, Token.Stops isPart rest → cut (text.toList ++ rest) = flattenAll items ++ cut rest

/-- A word in front of the text ends there. -/
def Breaks (text : String) : Prop := text.toList.head?.all (!isPart ·) = true

instance (text : String) : Decidable (Breaks text) := inferInstanceAs (Decidable (_ = true))

variable {s t : String} {items others : List Sexp} {x : Sexp}

theorem Breaks.stops (h : Breaks t) {rest : List Char} (hrest : Token.Stops isPart rest) :
    Token.Stops isPart (t.toList ++ rest) := by
  unfold Breaks at h
  cases htext : t.toList with
  | nil => exact hrest
  | cons c cs =>
    rw [htext] at h
    exact Lexeme.stops_of_isPart_eq_false (by simpa using h) (cs ++ rest)

theorem Breaks.append (h : Breaks s) (ht : Breaks t) : Breaks (s ++ t) := by
  unfold Breaks at h ⊢
  rw [String.toList_append]
  cases hs : s.toList with
  | nil => exact ht
  | cons c cs => rwa [hs] at h

theorem spells_nil : Spells "" [] := fun _ _ => rfl

theorem Spells.append (h : Spells s items) (h' : Spells t others) (ht : Breaks t) :
    Spells (s ++ t) (items ++ others) := by
  intro rest hrest
  rw [String.toList_append, List.append_assoc, h _ (ht.stops hrest), h' rest hrest, Sexp.flattenAll_append,
    List.append_assoc]

theorem spells_word (hne : s ≠ "") (h : ∀ c ∈ s.toList, isPart c = true) : Spells s [.word s] := by
  intro rest hrest
  have hne' : s.toList ≠ [] := fun hnil => hne (String.toList_injective hnil)
  rw [Lexeme.cut_word hne' h hrest, String.ofList_toList]
  rfl

/-- Blanks and ends of lines are dropped. -/
theorem Spells.behind {gaps : String} (hgaps : ∀ c ∈ gaps.toList, isGap c = true) (h : Spells s items) :
    Spells (gaps ++ s) items := by
  intro rest hrest
  rw [String.toList_append, List.append_assoc, ← h rest hrest]
  generalize gaps.toList = cs at hgaps
  induction cs with
  | nil => rfl
  | cons c cs ih =>
    obtain ⟨hc, hcs⟩ := List.forall_mem_cons.mp hgaps
    rw [List.cons_append, Lexeme.cut_gap hc]
    exact ih hcs

theorem Spells.blank (h : Spells s items) : Spells (" " ++ s) items :=
  h.behind (List.all_eq_true.mp (by decide))

namespace Bracket

def opened : Bracket → String
  | round => "(" | square => "[" | curly => "\x7b"

def closed : Bracket → String
  | round => ")" | square => "]" | curly => "\x7d"

theorem breaks_closed (b : Bracket) : Breaks b.closed := by cases b <;> decide

theorem cut_opened (b : Bracket) (rest : List Char) : cut (b.opened.toList ++ rest) = .opening b :: cut rest := by
  cases b <;> rfl

theorem cut_closed (b : Bracket) (rest : List Char) : cut (b.closed.toList ++ rest) = .closing b :: cut rest := by
  cases b <;> rfl

end Bracket

theorem Spells.list (b : Bracket) (h : Spells s items) : Spells (b.opened ++ s ++ b.closed) [.list b items] := by
  intro rest hrest
  have hclosed := b.breaks_closed.stops hrest
  simp only [String.toList_append, List.append_assoc, b.cut_opened, h _ hclosed, b.cut_closed,
    Sexp.flattenAll_singleton, Sexp.flatten, List.cons_append, List.nil_append]

theorem Bracket.breaks_list (b : Bracket) (s : String) : Breaks (b.opened ++ s ++ b.closed) := by
  rw [String.append_assoc, Breaks, String.toList_append]
  cases b <;> rfl

/-- Texts, each with the items that it spells. -/
inductive SpellsEach : List String → List Sexp → Prop
  | nil : SpellsEach [] []
  | cons {s : String} {texts : List String} {items others : List Sexp} (h : Spells s items)
      (hrest : SpellsEach texts others) : SpellsEach (s :: texts) (items ++ others)

theorem spellsEach_map {α : Type} {f : α → String} {g : α → List Sexp} {as : List α}
    (h : ∀ a ∈ as, Spells (f a) (g a)) : SpellsEach (as.map f) (as.flatMap g) := by
  induction as with
  | nil => exact .nil
  | cons a as ih =>
    obtain ⟨ha, has⟩ := List.forall_mem_cons.mp h
    exact .cons ha (ih has)

/-- Texts of one item each. -/
theorem spellsEach_map_one {α : Type} {f : α → String} {g : α → Sexp} {as : List α}
    (h : ∀ a ∈ as, Spells (f a) [g a]) : SpellsEach (as.map f) (as.map g) := by
  rw [List.map_eq_flatMap (f := g)]
  exact spellsEach_map h

theorem spaced_cons (s : String) (texts : List String) :
    spaced (s :: texts) = s ++ String.join (texts.map (" " ++ ·)) := by
  induction texts generalizing s with
  | nil => exact (String.append_empty ..).symm
  | cons t texts ih =>
    rw [spaced, String.intercalate_cons_cons, ← spaced, ih, List.map_cons, String.join_cons, String.append_assoc,
      String.append_assoc]

theorem breaks_join_blank (texts : List String) : Breaks (String.join (texts.map (" " ++ ·))) := by
  cases texts with
  | nil => decide
  | cons t texts =>
    rw [List.map_cons, String.join_cons, String.append_assoc, Breaks, String.toList_append]
    rfl

/-- Each text behind a blank. -/
theorem SpellsEach.join {texts : List String} (h : SpellsEach texts items) :
    Spells (String.join (texts.map (" " ++ ·))) items := by
  induction h with
  | nil => exact spells_nil
  | @cons s texts items others hs _ ih =>
    rw [List.map_cons, String.join_cons, String.append_assoc]
    exact (hs.append ih (breaks_join_blank texts)).blank

/-- Texts with blanks between them. -/
theorem SpellsEach.spaced {texts : List String} (h : SpellsEach texts items) : Spells (spaced texts) items := by
  cases h with
  | nil => exact spells_nil
  | @cons s texts items others hs hrest =>
    rw [spaced_cons]
    exact hs.append hrest.join (breaks_join_blank texts)

/-- One more behind a blank. -/
theorem Spells.spaced (h : Spells s items) (h' : Spells t others) : Spells (s ++ (" " ++ t)) (items ++ others) := by
  refine h.append h'.blank ?_
  rw [Breaks, String.toList_append]
  rfl

/-- One more on the next line. -/
theorem Spells.next (h : Spells s items) (h' : Spells t others) : Spells (s ++ ("\n" ++ t)) (items ++ others) := by
  refine h.append (h'.behind (List.all_eq_true.mp (by decide))) ?_
  rw [Breaks, String.toList_append]
  rfl

/-! ## Lines -/

/-- The text spells the items in front of everything else, for it ends a line. -/
def SpellsLines (text : String) (items : List Sexp) : Prop :=
  ∀ rest others, Spells rest others → Spells (text ++ rest) (items ++ others)

theorem spellsLines_empty : SpellsLines "" [] := fun rest _ h => by rwa [String.empty_append]

theorem SpellsLines.append (h : SpellsLines s items) (h' : SpellsLines t others) :
    SpellsLines (s ++ t) (items ++ others) := by
  intro rest more hrest
  rw [String.append_assoc, List.append_assoc]
  exact h _ _ (h' _ _ hrest)

theorem SpellsLines.spells (h : SpellsLines s items) : Spells s items := by
  have hall := h "" [] spells_nil
  rwa [String.append_empty, List.append_nil] at hall

end Sable
