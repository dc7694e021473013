import Sable.Ty.Text
import Sable.Proofs.Legible
import Sable.Proofs.Ty.Every
import Sable.Proofs.Ty.Merged
import Sable.Proofs.Ty.Written

/-!
The texts of types are legible but for one thing: a tag behind a function type stands where the tag of its result
stands, since no parentheses are written around a function type in front of a tag, as they are in front of a question
mark. Types are printed alike exactly if they are one type once such tags are taken for those of the results
(`text_eq_iff`); where no function type is tagged, types that are printed alike are equal.
-/

namespace Sable.Ty

open Token (isName EndsName isNamePart)

/-! ## Types with names only -/

/-- Whether all that the type itself is named with are names, and it binds no variable and is none. -/
def isNamed : Ty → Bool
  | object fields => fields.all fun field => isName field.1
  | union alternatives narrowed => alternatives.all (fun field => isName field.1) && narrowed.all isName
  | function vs ps _ => vs.isEmpty && ps.toList.all fun p => isName p.1
  | tagged _ tag => isName tag
  | var _ => false
  | _ => true

/-- Whether the type is a tagged function type. -/
def isTaggedFunction : Ty → Bool
  | tagged a _ => a.isFunction
  | _ => false

/-- Whether the type has no variables, no generic function types, and names wherever it has any. -/
def isPlain (a : Ty) : Bool := a.every isNamed

/-- Whether no function type within the type is tagged. -/
def tagsNoFunction (a : Ty) : Bool := a.every fun b => !b.isTaggedFunction

/-- The type with a tag where a text that goes on with that tag has it: on the last result, if it has results. -/
def withTag (tag : String) : Ty → Ty
  | function vs ps result => function vs ps (result.withTag tag)
  | a => tagged a tag

mutual

/-- The type with each tag of a function type on the last result instead. -/
def tagsOnResults : Ty → Ty
  | list a => list a.tagsOnResults
  | sequence a => sequence a.tagsOnResults
  | nullable a => nullable a.tagsOnResults
  | tagged a tag => a.tagsOnResults.withTag tag
  | object fields => object (fieldTagsOnResults fields)
  | union alternatives narrowed => union (fieldTagsOnResults alternatives) narrowed
  | function vs ps result => function vs (parameterTagsOnResults ps) result.tagsOnResults
  | a => a
termination_by structural a => a

def fieldTagsOnResults : List (String × Ty) → List (String × Ty)
  | [] => []
  | (name, a) :: rest => (name, a.tagsOnResults) :: fieldTagsOnResults rest
termination_by structural fields => fields

def parameterTagsOnResults : ParameterList (String × Ty) → ParameterList (String × Ty)
  | .fixed ps => .fixed (fieldTagsOnResults ps)
  | .variadic (name, a) => .variadic (name, a.tagsOnResults)
termination_by structural ps => ps

end

/-! ## Tags moved to results -/

theorem text_withTag (tag : String) : ∀ a : Ty, (a.withTag tag).text = a.text ++ " # " ++ tag
  | function vs ps result => by simp only [withTag, text, text_withTag tag result, String.append_assoc]
  | number | boolean | bigInteger | null | list _ | sequence _ | object _ | union _ _ | tagged _ _ | nullable _
  | var _ => rfl

/-- What is parenthesized in front of a question mark. -/
def isBracketed : Ty → Bool
  | function .. | tagged .. => true
  | _ => false

theorem text_nullable (a : Ty) :
    (nullable a).text = if a.isBracketed then "(" ++ a.text ++ ")?" else a.text ++ "?" := by
  cases a <;> rfl

theorem isBracketed_withTag (tag : String) (a : Ty) : (a.withTag tag).isBracketed = true := by
  cases a <;> rfl

theorem isBracketed_tagsOnResults (a : Ty) : a.tagsOnResults.isBracketed = a.isBracketed := by
  cases a with
  | tagged a tag => exact isBracketed_withTag tag _
  | _ => rfl

mutual

theorem text_tagsOnResults : ∀ a : Ty, a.tagsOnResults.text = a.text
  | number | boolean | bigInteger | null | var _ => rfl
  | list a | sequence a => by simp only [tagsOnResults, text, text_tagsOnResults a]
  | nullable a => by
    rw [tagsOnResults, text_nullable, text_nullable, isBracketed_tagsOnResults, text_tagsOnResults a]
  | tagged a tag => by rw [tagsOnResults, text_withTag, text_tagsOnResults a, text]
  | object fields => by simp only [tagsOnResults, text, fieldTexts_tagsOnResults fields]
  | union alternatives narrowed => by simp only [tagsOnResults, text, fieldTexts_tagsOnResults alternatives]
  | function vs ps result => by
    simp only [tagsOnResults, text, parametersText_tagsOnResults ps, text_tagsOnResults result]

theorem fieldTexts_tagsOnResults : ∀ fields : List (String × Ty),
    fieldTexts (fieldTagsOnResults fields) = fieldTexts fields
  | [] => rfl
  | (name, a) :: rest => by
    simp only [fieldTagsOnResults, fieldTexts, text_tagsOnResults a, fieldTexts_tagsOnResults rest]

theorem parametersText_tagsOnResults : ∀ ps : ParameterList (String × Ty),
    parametersText (parameterTagsOnResults ps) = parametersText ps
  | .fixed ps => by simp only [parameterTagsOnResults, parametersText, fieldTexts_tagsOnResults ps]
  | .variadic (name, a) => by simp only [parameterTagsOnResults, parametersText, text_tagsOnResults a]

end

/-- What is asked of a type whose text is read: names, and tags only where they are read. -/
def isRead (a : Ty) : Bool := a.isNamed && !a.isTaggedFunction

theorem every_withTag {tag : String} (htag : isName tag = true) :
    ∀ {a : Ty}, a.every isRead = true → (a.withTag tag).every isRead = true
  | function vs ps result, h => by
    simp only [withTag, every, Bool.and_eq_true] at h ⊢
    exact ⟨h.1, every_withTag htag h.2⟩
  | number, h | boolean, h | bigInteger, h | null, h | list _, h | sequence _, h | object _, h | union _ _, h
  | tagged _ _, h | nullable _, h | var _, h => by
    simp only [withTag, every, Bool.and_eq_true] at h ⊢
    exact ⟨by simp [isRead, isNamed, isTaggedFunction, isFunction, htag], h⟩

theorem fieldTagsOnResults_eq_map (fields : List (String × Ty)) :
    fieldTagsOnResults fields = fields.map fun field => (field.1, field.2.tagsOnResults) := by
  induction fields with
  | nil => rfl
  | cons field rest ih => rw [fieldTagsOnResults, ih, List.map_cons]

theorem all_fieldTagsOnResults (fields : List (String × Ty)) :
    (fieldTagsOnResults fields).all (fun field => isName field.1) = fields.all fun field => isName field.1 := by
  rw [fieldTagsOnResults_eq_map, List.all_map]
  rfl

theorem all_parameterTagsOnResults (ps : ParameterList (String × Ty)) :
    (parameterTagsOnResults ps).toList.all (fun p => isName p.1) = ps.toList.all fun p => isName p.1 := by
  match ps with
  | .fixed ps => exact all_fieldTagsOnResults ps
  | .variadic _ => rfl

mutual

theorem isRead_tagsOnResults : ∀ {a : Ty}, a.isPlain = true → a.tagsOnResults.every isRead = true
  | number, _ | boolean, _ | bigInteger, _ | null, _ => rfl
  | var _, h => by cases h
  | list a, h | sequence a, h | nullable a, h => by
    rw [isPlain, every, Bool.and_eq_true] at h
    rw [tagsOnResults, every, isRead_tagsOnResults h.2]
    rfl
  | tagged a tag, h => by
    rw [isPlain, every, Bool.and_eq_true] at h
    exact every_withTag h.1 (isRead_tagsOnResults h.2)
  | object fields, h => by
    rw [isPlain, every, Bool.and_eq_true, isNamed] at h
    rw [tagsOnResults, every, isRead, isNamed, all_fieldTagsOnResults, h.1, isRead_fieldTagsOnResults h.2]
    rfl
  | union alternatives narrowed, h => by
    rw [isPlain, every, Bool.and_eq_true, isNamed] at h
    rw [tagsOnResults, every, isRead, isNamed, all_fieldTagsOnResults, h.1, isRead_fieldTagsOnResults h.2]
    rfl
  | function vs ps result, h => by
    rw [isPlain, every, Bool.and_eq_true, Bool.and_eq_true, isNamed] at h
    rw [tagsOnResults, every, isRead, isNamed, all_parameterTagsOnResults, h.1.1, isRead_parameterTagsOnResults h.1.2,
      isRead_tagsOnResults h.2]
    rfl

theorem isRead_fieldTagsOnResults : ∀ {fields : List (String × Ty)}, everyField isNamed fields = true →
    everyField isRead (fieldTagsOnResults fields) = true
  | [], _ => rfl
  | (_, a) :: rest, h => by
    rw [everyField, Bool.and_eq_true] at h
    rw [fieldTagsOnResults, everyField, isRead_tagsOnResults h.1, isRead_fieldTagsOnResults h.2]
    rfl

theorem isRead_parameterTagsOnResults : ∀ {ps : ParameterList (String × Ty)}, everyParameter isNamed ps = true →
    everyParameter isRead (parameterTagsOnResults ps) = true
  | .fixed _, h => isRead_fieldTagsOnResults h
  | .variadic (_, a), h => isRead_tagsOnResults (a := a) h

end

mutual

/-- Nothing is moved where no function type is tagged. -/
theorem tagsOnResults_eq_self : ∀ {a : Ty}, a.tagsNoFunction = true → a.tagsOnResults = a
  | number, _ | boolean, _ | bigInteger, _ | null, _ | var _, _ => rfl
  | list a, h | sequence a, h | nullable a, h => by
    rw [tagsNoFunction, every, Bool.and_eq_true] at h
    rw [tagsOnResults, tagsOnResults_eq_self h.2]
  | tagged a tag, h => by
    rw [tagsNoFunction, every, Bool.and_eq_true] at h
    rw [tagsOnResults, tagsOnResults_eq_self h.2]
    cases a with
    | function vs ps result => cases h.1
    | _ => rfl
  | object fields, h | union fields narrowed, h => by
    rw [tagsNoFunction, every, Bool.and_eq_true] at h
    rw [tagsOnResults, fieldTagsOnResults_eq_self h.2]
  | function vs ps result, h => by
    rw [tagsNoFunction, every, Bool.and_eq_true, Bool.and_eq_true] at h
    rw [tagsOnResults, parameterTagsOnResults_eq_self h.1.2, tagsOnResults_eq_self h.2]

theorem fieldTagsOnResults_eq_self : ∀ {fields : List (String × Ty)},
    everyField (fun b => !b.isTaggedFunction) fields = true → fieldTagsOnResults fields = fields
  | [], _ => rfl
  | (_, a) :: rest, h => by
    rw [everyField, Bool.and_eq_true] at h
    rw [fieldTagsOnResults, tagsOnResults_eq_self h.1, fieldTagsOnResults_eq_self h.2]

theorem parameterTagsOnResults_eq_self : ∀ {ps : ParameterList (String × Ty)},
    everyParameter (fun b => !b.isTaggedFunction) ps = true → parameterTagsOnResults ps = ps
  | .fixed _, h => by rw [parameterTagsOnResults, fieldTagsOnResults_eq_self h]
  | .variadic (_, a), h => by rw [parameterTagsOnResults, @tagsOnResults_eq_self a h]

end

/-! ## Marks behind a type

A text is read from its head, the part in front of all question marks and tags that no parentheses keep together. -/

/-- What may be written behind a type to make another one. -/
inductive Mark where
  | null
  | tag (name : String)

namespace Mark

def chars : Mark → List Char
  | null => ['?']
  | tag name => [' ', '#', ' '] ++ name.toList

def mark : Ty → Mark → Ty
  | a, null => nullable a
  | a, tag name => tagged a name

/-- Whether the mark is a question mark or the mark of a name. -/
def isNamed : Mark → Bool
  | null => true
  | tag name => isName name

end Mark

def chars (a : Ty) : List Char := a.text.toList

/-- What stands in front of the marks of a type. -/
def head : Ty → Ty
  | tagged a _ => a.head
  | nullable a => if a.isBracketed then nullable a else a.head
  | a => a

def marks : Ty → List Mark
  | tagged a tag => a.marks ++ [.tag tag]
  | nullable a => if a.isBracketed then [] else a.marks ++ [.null]
  | _ => []

theorem foldl_marks : ∀ a : Ty, a.marks.foldl Mark.mark a.head = a
  | tagged a tag => by
    rw [marks, head, List.foldl_append, foldl_marks a]
    rfl
  | nullable a => by
    rw [marks, head]
    split
    · rfl
    · rw [List.foldl_append, foldl_marks a]
      rfl
  | number | boolean | bigInteger | null | list _ | sequence _ | object _ | union _ _ | function _ _ _ | var _ => rfl

theorem chars_eq_head : ∀ a : Ty, a.chars = a.head.chars ++ a.marks.flatMap Mark.chars
  | tagged a tag => by
    have htext : (tagged a tag).chars = a.chars ++ (Mark.tag tag).chars := by simp [chars, text, Mark.chars]
    rw [htext, marks, head, List.flatMap_append, ← List.append_assoc, ← chars_eq_head a, List.flatMap_singleton]
  | nullable a => by
    rw [marks, head]
    split
    · exact (List.append_nil _).symm
    · rename_i h
      have htext : (nullable a).chars = a.chars ++ Mark.null.chars := by simp [chars, text_nullable, h, Mark.chars]
      rw [htext, List.flatMap_append, ← List.append_assoc, ← chars_eq_head a, List.flatMap_singleton]
  | number | boolean | bigInteger | null | list _ | sequence _ | object _ | union _ _ | function _ _ _ | var _ =>
    (List.append_nil _).symm

/-! ## What may follow -/

/-- What may stand behind a type. -/
def Closes : List Char → Prop := Begins [[','], [']'], ['\x7d'], [')'], [' ', '|']]

/-- What may stand behind the head of a type: marks, or what closes the type. -/
def Goes : List Char → Prop := Begins [[','], [']'], ['\x7d'], [')'], [' ', '|'], ['?'], [' ', '#']]

theorem Closes.goes {rest : List Char} (h : Closes rest) : Goes rest := Begins.mono h (by decide)

theorem Goes.endsName {rest : List Char} (h : Goes rest) : EndsName rest := Begins.stops h (by decide)

theorem goes_marks (ms : List Mark) {rest : List Char} (h : Closes rest) : Goes (ms.flatMap Mark.chars ++ rest) := by
  cases ms with
  | nil => exact h.goes
  | cons m ms =>
    rw [List.flatMap_cons, List.append_assoc]
    cases m with
    | null => exact begins_append (by decide) _
    | tag name => exact .inr ⟨[' ', '#'], by decide, _, rfl⟩

theorem not_goes_at (rest : List Char) : ¬ Goes (' ' :: '@' :: rest) := by simp [Goes, Begins]

theorem not_goes_arrow (rest : List Char) : ¬ Goes (' ' :: '-' :: rest) := by simp [Goes, Begins]

theorem not_closes_mark {m : Mark} {rest more : List Char} (h : rest = m.chars ++ more) : ¬ Closes rest := by
  cases m <;> simp [h, Mark.chars, Closes, Begins]

theorem legible_marks {ms ms' : List Mark} (h : ∀ m ∈ ms, m.isNamed = true) (h' : ∀ m ∈ ms', m.isNamed = true) :
    Legible (List.flatMap Mark.chars) Closes ms ms' := by
  intro rest rest' hrest hrest' heq
  induction ms generalizing ms' with
  | nil =>
    cases ms' with
    | nil => exact ⟨rfl, heq⟩
    | cons m ms' =>
      rw [List.flatMap_cons, List.append_assoc] at heq
      exact absurd hrest (not_closes_mark heq)
  | cons m ms ih =>
    cases ms' with
    | nil =>
      rw [List.flatMap_cons, List.append_assoc] at heq
      exact absurd hrest' (not_closes_mark heq.symm)
    | cons m' ms' =>
      rw [List.flatMap_cons, List.flatMap_cons, List.append_assoc, List.append_assoc] at heq
      rw [List.forall_mem_cons] at h h'
      have hmark : m = m' ∧ ms.flatMap Mark.chars ++ rest = ms'.flatMap Mark.chars ++ rest' := by
        cases m <;> cases m'
        · exact ⟨rfl, List.append_cancel_left heq⟩
        · exact absurd (List.cons.inj heq).1 (by decide)
        · exact absurd (List.cons.inj heq).1 (by decide)
        · simp only [Mark.chars, List.append_assoc] at heq
          obtain ⟨rfl, hbehind⟩ := legible_name h.1 h'.1 _ _ (goes_marks ms hrest).endsName
            (goes_marks ms' hrest').endsName (List.append_cancel_left heq)
          exact ⟨rfl, hbehind⟩
      obtain ⟨rfl, hbehind⟩ := hmark
      obtain ⟨hms, hbehind⟩ := ih h.2 h'.2 hbehind
      exact ⟨congrArg _ hms, hbehind⟩

/-! ## Heads -/

/-- The word that a head begins with, if it begins with one. -/
def word : Ty → String
  | number => "Number"
  | boolean => "Boolean"
  | bigInteger => "BigInteger"
  | null => "Null"
  | list _ => "List"
  | sequence _ => "Sequence"
  | _ => ""

def parameterChars : ParameterList (String × Ty) → List Char
  | .fixed ps => joined (fieldChars chars) [',', ' '] ps
  | .variadic p => ['.', '.', '.'] ++ fieldChars chars p

def narrowedChars : Option String → List Char
  | some tag => [' ', '@'] ++ tag.toList
  | none => []

/-- What stands behind the word of a head. -/
def behindWord : Ty → List Char
  | list a | sequence a => '[' :: (a.chars ++ [']'])
  | object fields => '\x7b' :: (joined (fieldChars chars) [',', ' '] fields ++ ['\x7d'])
  | union alternatives narrowed =>
    '(' :: (joined (fieldChars chars) [' ', '|', ' '] alternatives ++ (')' :: narrowedChars narrowed))
  | function _ ps result => '(' :: (parameterChars ps ++ ([')', ' ', '-', '>', ' '] ++ result.chars))
  | nullable a => '(' :: (a.chars ++ [')', '?'])
  | _ => []

/-- Whether the type is its own head. -/
def isHead : Ty → Bool
  | tagged .. => false
  | nullable a => a.isBracketed
  | _ => true

theorem isHead_head : ∀ a : Ty, a.head.isHead = true
  | tagged a _ => by rw [head, isHead_head a]
  | nullable a => by
    rw [head]
    split
    · assumption
    · exact isHead_head a
  | number | boolean | bigInteger | null | list _ | sequence _ | object _ | union _ _ | function _ _ _ | var _ => rfl

theorem toList_fieldTexts (separator : String) (fields : List (String × Ty)) :
    (separator.intercalate (fieldTexts fields)).toList = joined (fieldChars chars) separator.toList fields := by
  have hfield (field : String × Ty) : (field.1 ++ ": " ++ field.2.text).toList = fieldChars chars field := by
    simp [fieldChars, chars]
  rw [fieldTexts_eq, toList_intercalate_map]
  simp only [hfield]

theorem toList_parametersText (ps : ParameterList (String × Ty)) :
    (parametersText ps).toList = '(' :: (parameterChars ps ++ [')']) := by
  match ps with
  | .fixed ps =>
    rw [parametersText, String.toList_append, String.toList_append, toList_fieldTexts]
    rfl
  | .variadic (name, a) => simp [parametersText, parameterChars, fieldChars, chars]

theorem chars_eq_word {a : Ty} (hhead : a.isHead = true) (h : a.isNamed = true) :
    a.chars = a.word.toList ++ a.behindWord := by
  cases a with
  | list a => simp [chars, text, word, behindWord]
  | sequence a => simp [chars, text, word, behindWord]
  | object fields =>
    rw [chars, text, String.toList_append, String.toList_append, toList_fieldTexts]
    rfl
  | union alternatives narrowed =>
    have hfields := toList_fieldTexts " | " alternatives
    cases narrowed <;> simp [chars, text, hfields, word, behindWord, narrowedChars]
  | function vs ps result =>
    rw [isNamed, Bool.and_eq_true] at h
    obtain rfl := List.isEmpty_iff.mp h.1
    rw [chars, text, String.toList_append, String.toList_append, String.toList_append, toList_parametersText]
    simp [word, behindWord, chars]
  | nullable a =>
    have hbracketed : a.isBracketed = true := hhead
    simp [chars, text_nullable, hbracketed, word, behindWord]
  | tagged a tag => cases hhead
  | var v => cases h
  | number | boolean | bigInteger | null => rfl

theorem isNamePart_word (a : Ty) : ∀ c ∈ a.word.toList, isNamePart c = true := by
  cases a <;> simp only [word] <;> exact List.all_eq_true.mp (by decide)

theorem endsName_behindWord (a : Ty) {rest : List Char} (h : EndsName rest) : EndsName (a.behindWord ++ rest) := by
  cases a with
  | number | boolean | bigInteger | null | tagged _ _ | var _ => exact h
  | list _ | sequence _ | object _ | union _ _ | function _ _ _ | nullable _ => exact endsName_cons (by decide) _

theorem every_head {p : Ty → Bool} : ∀ {a : Ty}, a.every p = true → a.head.every p = true
  | tagged a _, h => by
    rw [head]
    exact every_head (Bool.and_eq_true_iff.mp h).2
  | nullable a, h => by
    rw [head]
    split
    · exact h
    · exact every_head (Bool.and_eq_true_iff.mp h).2
  | number, h | boolean, h | bigInteger, h | null, h | list _, h | sequence _, h | object _, h | union _ _, h
  | function _ _ _, h | var _, h => h

theorem isNamed_marks : ∀ {a : Ty}, a.every isRead = true → ∀ m ∈ a.marks, m.isNamed = true
  | tagged a tag, h => by
    rw [every, Bool.and_eq_true, isRead, Bool.and_eq_true] at h
    rw [marks, List.forall_mem_append]
    exact ⟨isNamed_marks h.2, List.forall_mem_singleton.mpr h.1.1⟩
  | nullable a, h => by
    rw [every, Bool.and_eq_true] at h
    rw [marks]
    split
    · exact nofun
    · rw [List.forall_mem_append]
      exact ⟨isNamed_marks h.2, List.forall_mem_singleton.mpr rfl⟩
  | number, _ | boolean, _ | bigInteger, _ | null, _ | list _, _ | sequence _, _ | object _, _ | union _ _, _
  | function _ _ _, _ | var _, _ => nofun

/-- A head that is a function type stands alone. -/
theorem marks_of_isFunction : ∀ {a : Ty}, a.every isRead = true → a.head.isFunction = true → a.marks = []
  | tagged a tag, h, hfunction => by
    rw [every, Bool.and_eq_true, isRead, Bool.and_eq_true] at h
    have hmarks := marks_of_isFunction h.2 hfunction
    have heq := foldl_marks a
    rw [hmarks] at heq
    have hnot : a.isFunction = false := by simpa [isTaggedFunction] using h.1.2
    rw [← heq, List.foldl_nil] at hnot
    rw [head] at hfunction
    rw [hnot] at hfunction
    cases hfunction
  | nullable a, h, hfunction => by
    rw [every, Bool.and_eq_true] at h
    rw [head] at hfunction
    rw [marks]
    split
    · rfl
    · rename_i hbracketed
      rw [if_neg hbracketed] at hfunction
      have hmarks := marks_of_isFunction h.2 hfunction
      have heq := foldl_marks a
      rw [hmarks, List.foldl_nil] at heq
      rw [heq] at hfunction
      cases a with
      | function vs ps result => exact absurd rfl hbracketed
      | _ => cases hfunction
  | number, _, _ | boolean, _, _ | bigInteger, _, _ | null, _, _ | list _, _, _ | sequence _, _, _ | object _, _, _
  | union _ _, _, _ | function _ _ _, _, _ | var _, _, _ => rfl

/-- What stands behind the word of a type. -/
def Tail : List Char → Prop := Begins [['['], ['\x7b'], ['('], ['?'], [' ']]

theorem tail_marks (ms : List Mark) : Tail (ms.flatMap Mark.chars) := by
  cases ms with
  | nil => exact begins_nil _
  | cons m ms =>
    cases m with
    | null => exact .inr ⟨['?'], by decide, _, rfl⟩
    | tag name => exact .inr ⟨[' '], by decide, _, rfl⟩

theorem tail_behindWord (a : Ty) (ms : List Mark) : Tail (a.behindWord ++ ms.flatMap Mark.chars) := by
  cases a with
  | number | boolean | bigInteger | null | tagged _ _ | var _ => exact tail_marks ms
  | list _ | sequence _ => exact .inr ⟨['['], by decide, _, rfl⟩
  | object _ => exact .inr ⟨['\x7b'], by decide, _, rfl⟩
  | union _ _ | function _ _ _ | nullable _ => exact .inr ⟨['('], by decide, _, rfl⟩

theorem chars_eq_tail {a : Ty} (h : a.every isRead = true) :
    a.chars = a.head.word.toList ++ (a.head.behindWord ++ a.marks.flatMap Mark.chars) := by
  have hnamed := (Bool.and_eq_true_iff.mp (every_root (every_head h))).1
  rw [chars_eq_head a, chars_eq_word (isHead_head a) hnamed, List.append_assoc]

/-- A type begins with a word or an opening bracket. -/
theorem exists_chars_cons {a : Ty} (h : a.every isRead = true) :
    ∃ c cs, a.chars = c :: cs ∧ (isNamePart c = true ∨ c = '\x7b' ∨ c = '(') := by
  have hhead := isHead_head a
  have hread := every_root (every_head h)
  rw [chars_eq_tail h]
  cases hword : a.head.word.toList with
  | cons c cs => exact ⟨c, _, rfl, .inl (isNamePart_word a.head c (by simp [hword]))⟩
  | nil =>
    cases ha : a.head with
    | object _ => exact ⟨_, _, rfl, .inr (.inl rfl)⟩
    | union _ _ | function _ _ _ | nullable _ => exact ⟨_, _, rfl, .inr (.inr rfl)⟩
    | tagged _ _ =>
      rw [ha] at hhead
      cases hhead
    | var _ =>
      rw [ha] at hread
      cases hread
    | _ => simp [ha, word] at hword

theorem chars_ne_cons {a : Ty} (h : a.every isRead = true) {c : Char} (hpart : isNamePart c = false)
    (hbrace : c ≠ '\x7b') (hparen : c ≠ '(') (rest rest' : List Char) : a.chars ++ rest ≠ c :: rest' := by
  obtain ⟨d, ds, hchars, hd⟩ := exists_chars_cons h
  rw [hchars]
  intro heq
  rw [(List.cons.inj heq).1, hpart] at hd
  simp [hbrace, hparen] at hd

/-- A type is read where a name and a colon cannot be. -/
theorem chars_ne_name {a : Ty} (h : a.every isRead = true) {name : String} (hname : isName name = true)
    (rest rest' : List Char) : a.chars ++ ')' :: rest ≠ name.toList ++ ':' :: rest' := by
  obtain ⟨_, _, _, _, hparts, _⟩ := Token.exists_of_isName hname
  rw [chars_eq_tail h, List.append_assoc]
  intro heq
  have htail := tail_behindWord a.head a.marks
  generalize a.head.behindWord ++ a.marks.flatMap Mark.chars = tail at heq htail
  have hbegins := htail.append [')'] rest
  obtain ⟨-, hbehind⟩ := Token.run_inj (isNamePart_word _) (hbegins.stops (by decide)) hparts
    (endsName_cons (by decide) _) heq
  rw [show tail ++ ([')'] ++ rest) = _ from hbehind] at hbegins
  simp [Begins] at hbegins

/-! ## Fields and parameters -/

/-- Fields with names and types that are read. -/
def AreRead (fields : List (String × Ty)) : Prop :=
  ∀ field ∈ fields, isName field.1 = true ∧ field.2.every isRead = true

/-- The types of the fields are legible beside each other. -/
def LegibleTypes (fields others : List (String × Ty)) : Prop :=
  ∀ field ∈ fields, ∀ other ∈ others, Legible chars Closes field.2 other.2

theorem separates_fields {separator : List Char} {stop : Char} (hstop : [stop] ∈ [[','], [']'], ['\x7d'], [')']])
    (hseparator : separator = [',', ' '] ∧ stop ≠ ',' ∨ separator = [' ', '|', ' ']) :
    Separates (fieldChars chars) Closes separator [stop] where
  separator_follows rest := by
    rcases hseparator with ⟨rfl, -⟩ | rfl
    · exact .inr ⟨[','], by decide, ' ' :: rest, rfl⟩
    · exact .inr ⟨[' ', '|'], by decide, ' ' :: rest, rfl⟩
  stop_follows rest := begins_append (List.mem_append_left [[' ', '|']] hstop) rest
  separator_ne rest rest' heq := by
    rcases hseparator with ⟨rfl, hne⟩ | rfl
    · exact hne (List.cons.inj heq).1.symm
    · rw [← (List.cons.inj heq).1] at hstop
      exact absurd hstop (by decide)

theorem isNameStart_stop {stop : Char} (h : [stop] ∈ [[','], [']'], ['\x7d'], [')']]) :
    Token.isNameStart stop = false := by
  simp only [List.mem_cons, List.cons.injEq, and_true, List.not_mem_nil, or_false] at h
  rcases h with rfl | rfl | rfl | rfl <;> decide

theorem legible_fields {separator : List Char} {stop : Char} (hstop : [stop] ∈ [[','], [']'], ['\x7d'], [')']])
    (hseparator : separator = [',', ' '] ∧ stop ≠ ',' ∨ separator = [' ', '|', ' '])
    {fields others : List (String × Ty)} (h : AreRead fields) (h' : AreRead others)
    (ih : LegibleTypes fields others) {rest rest' : List Char}
    (heq : joined (fieldChars chars) separator fields ++ stop :: rest =
      joined (fieldChars chars) separator others ++ stop :: rest') : fields = others ∧ rest = rest' :=
  Legible.join (separates_fields hstop hseparator)
    (fun a ha b hb => .field (h a ha).1 (h' b hb).1 (ih a ha b hb))
    (fun a ha => fieldChars_ne (h a ha).1 (isNameStart_stop hstop))
    (fun b hb => fieldChars_ne (h' b hb).1 (isNameStart_stop hstop)) heq

/-- Parameters and alternatives are written alike only as far as one of them goes. -/
theorem behind_of_parameters_eq_alternatives {fields others : List (String × Ty)} (h : AreRead fields)
    (h' : AreRead others) (ih : LegibleTypes fields others) {rest rest' : List Char}
    (heq : joined (fieldChars chars) [',', ' '] fields ++ ')' :: rest =
      joined (fieldChars chars) [' ', '|', ' '] others ++ ')' :: rest') : rest = rest' := by
  cases fields with
  | nil =>
    cases others with
    | nil => exact (List.cons.inj heq).2
    | cons other others =>
      rw [joined_cons] at heq
      exact absurd heq.symm (fieldChars_ne (h' other List.mem_cons_self).1 (by decide) _ _)
  | cons field fields =>
    cases others with
    | nil =>
      rw [joined_cons] at heq
      exact absurd heq (fieldChars_ne (h field List.mem_cons_self).1 (by decide) _ _)
    | cons other others =>
      rw [joined_cons, joined_cons] at heq
      have hcloses (c : Char) (hc : [c] ∈ [[','], [']'], ['\x7d'], [')'], [' ', '|']]) (rest : List Char) :
          Closes (c :: rest) := begins_append hc rest
      obtain ⟨-, hbehind⟩ := Legible.field (h field List.mem_cons_self).1 (h' other List.mem_cons_self).1
        (ih field List.mem_cons_self other List.mem_cons_self) _ _
        (show Closes (behindFirst _ _ _ fields) from by
          cases fields with
          | nil => exact hcloses ')' (by decide) rest
          | cons _ _ => exact hcloses ',' (by decide) _)
        (show Closes (behindFirst _ _ _ others) from by
          cases others with
          | nil => exact hcloses ')' (by decide) rest'
          | cons _ _ => exact .inr ⟨[' ', '|'], by decide, _, rfl⟩) heq
      cases fields <;> cases others
      · exact (List.cons.inj hbehind).2
      · exact absurd (List.cons.inj hbehind).1 (by decide)
      · exact absurd (List.cons.inj hbehind).1 (by decide)
      · exact absurd (List.cons.inj hbehind).1 (by decide)

theorem areRead_of_object {fields : List (String × Ty)} (h : (object fields).every isRead = true) : AreRead fields := by
  rw [every, Bool.and_eq_true, isRead, Bool.and_eq_true, isNamed, List.all_eq_true] at h
  exact fun field hfield => ⟨h.1.1 field hfield, everyField_iff.mp h.2 field hfield⟩

theorem areRead_of_union {alternatives : List (String × Ty)} {narrowed : Option String}
    (h : (union alternatives narrowed).every isRead = true) :
    AreRead alternatives ∧ ∀ tag ∈ narrowed, isName tag = true := by
  rw [every, Bool.and_eq_true, isRead, Bool.and_eq_true, isNamed, Bool.and_eq_true, List.all_eq_true,
    Option.all_eq_true] at h
  exact ⟨fun field hfield => ⟨h.1.1.1 field hfield, everyField_iff.mp h.2 field hfield⟩, h.1.1.2⟩

theorem areRead_of_function {vs : List TypeVariable} {ps : Parameters} {result : Ty}
    (h : (function vs ps result).every isRead = true) : vs = [] ∧ AreRead ps.toList ∧ result.every isRead = true := by
  rw [every, Bool.and_eq_true, Bool.and_eq_true, isRead, Bool.and_eq_true, isNamed, Bool.and_eq_true,
    List.all_eq_true] at h
  obtain ⟨⟨⟨⟨hvs, hnames⟩, -⟩, hps⟩, hresult⟩ := h
  refine ⟨List.isEmpty_iff.mp hvs, fun p hp => ⟨hnames p hp, ?_⟩, hresult⟩
  match ps with
  | .fixed ps => exact everyField_iff.mp hps p hp
  | .variadic q =>
    obtain rfl := List.mem_singleton.mp hp
    exact hps

theorem closes_paren (rest : List Char) : Closes (')' :: rest) := .inr ⟨[')'], by decide, rest, rfl⟩

/-- Three dots begin no list of fixed parameters, or of alternatives. -/
theorem joined_ne_dot {separator : List Char} {fields : List (String × Ty)} (h : AreRead fields)
    (rest rest' : List Char) : joined (fieldChars chars) separator fields ++ ')' :: rest ≠ '.' :: rest' := by
  cases fields with
  | nil => exact fun heq => absurd (List.cons.inj heq).1 (by decide)
  | cons field fields =>
    rw [joined_cons]
    exact fieldChars_ne (h field List.mem_cons_self).1 (by decide) _ _

theorem legible_parameters {ps qs : Parameters} (h : AreRead ps.toList) (h' : AreRead qs.toList)
    (ih : LegibleTypes ps.toList qs.toList) {rest rest' : List Char}
    (heq : parameterChars ps ++ ')' :: rest = parameterChars qs ++ ')' :: rest') : ps = qs ∧ rest = rest' := by
  match ps, qs with
  | .fixed ps, .fixed qs =>
    obtain ⟨rfl, hbehind⟩ := legible_fields (by decide) (.inl ⟨rfl, by decide⟩) h h' ih heq
    exact ⟨rfl, hbehind⟩
  | .fixed ps, .variadic q => exact absurd heq (joined_ne_dot h _ _)
  | .variadic p, .fixed qs => exact absurd heq.symm (joined_ne_dot h' _ _)
  | .variadic p, .variadic q =>
    have hp : p ∈ [p] := List.mem_cons_self
    have hq : q ∈ [q] := List.mem_cons_self
    rw [parameterChars, parameterChars, List.append_assoc, List.append_assoc] at heq
    obtain ⟨rfl, hbehind⟩ := Legible.field (h p hp).1 (h' q hq).1 (ih p hp q hq) _ _ (closes_paren _) (closes_paren _)
      (List.append_cancel_left heq)
    exact ⟨rfl, (List.cons.inj hbehind).2⟩

/-- Parameters in front of an arrow are no alternatives of a union. -/
theorem parameters_ne_alternatives {ps : Parameters} {alternatives : List (String × Ty)} {narrowed : Option String}
    (h : AreRead ps.toList) (h' : AreRead alternatives) (ih : LegibleTypes ps.toList alternatives)
    {rest rest' : List Char} (hrest' : Goes rest') :
    parameterChars ps ++ ')' :: ([' ', '-', '>', ' '] ++ rest) ≠
      joined (fieldChars chars) [' ', '|', ' '] alternatives ++ ')' :: (narrowedChars narrowed ++ rest') := by
  intro heq
  match ps with
  | .fixed ps =>
    have hbehind := behind_of_parameters_eq_alternatives h h' ih heq
    cases narrowed with
    | none =>
      rw [show rest' = _ from hbehind.symm] at hrest'
      exact not_goes_arrow _ hrest'
    | some tag => exact absurd (List.cons.inj (List.cons.inj hbehind).2).1 (by decide)
  | .variadic p => exact joined_ne_dot h' _ _ heq.symm

/-- A type in parentheses is read where alternatives, or parameters, cannot be. -/
theorem chars_ne_joined {a : Ty} (h : a.every isRead = true) {separator : List Char} {fields : List (String × Ty)}
    (h' : AreRead fields) (rest rest' : List Char) :
    a.chars ++ ')' :: rest ≠ joined (fieldChars chars) separator fields ++ ')' :: rest' := by
  cases fields with
  | nil => exact chars_ne_cons h (by decide) (by decide) (by decide) _ _
  | cons field fields =>
    rw [joined_cons, fieldChars, List.append_assoc]
    exact chars_ne_name h (h' field List.mem_cons_self).1 _ _

theorem chars_ne_parameters {a : Ty} (h : a.every isRead = true) {ps : Parameters} (h' : AreRead ps.toList)
    (rest rest' : List Char) : a.chars ++ ')' :: rest ≠ parameterChars ps ++ ')' :: rest' := by
  match ps with
  | .fixed ps => exact chars_ne_joined h h' rest rest'
  | .variadic p => exact chars_ne_cons h (by decide) (by decide) (by decide) _ _

theorem legible_narrowed {narrowed narrowed' : Option String} (h : ∀ tag ∈ narrowed, isName tag = true)
    (h' : ∀ tag ∈ narrowed', isName tag = true) : Legible narrowedChars Goes narrowed narrowed' := by
  intro rest rest' hrest hrest' heq
  cases narrowed with
  | none =>
    cases narrowed' with
    | none => exact ⟨rfl, heq⟩
    | some tag =>
      rw [show rest = _ from heq] at hrest
      exact absurd hrest (not_goes_at _)
  | some tag =>
    cases narrowed' with
    | none =>
      rw [show rest' = _ from heq.symm] at hrest'
      exact absurd hrest' (not_goes_at _)
    | some tag' =>
      rw [narrowedChars, narrowedChars, List.append_assoc, List.append_assoc] at heq
      obtain ⟨rfl, hbehind⟩ := legible_name (h tag rfl) (h' tag' rfl) _ _ hrest.endsName hrest'.endsName
        (List.append_cancel_left heq)
      exact ⟨rfl, hbehind⟩

/-! ## Reading heads and types -/

/-- What may follow a head: no mark, if the head is a function type. -/
def Follows (a : Ty) (rest : List Char) : Prop := Goes rest ∧ (a.isFunction = true → Closes rest)

theorem sizeOf_lt_of_mem {fields : List (String × Ty)} {field : String × Ty} (h : field ∈ fields) :
    sizeOf field.2 < sizeOf fields := by
  have := List.sizeOf_lt_of_mem h
  obtain ⟨name, a⟩ := field
  simp at this ⊢
  omega

theorem sizeOf_lt_of_mem_parameters {ps : Parameters} {p : String × Ty} (h : p ∈ ps.toList) :
    sizeOf p.2 < sizeOf ps := by
  match ps, p with
  | .fixed ps, p =>
    have hlt : sizeOf p.2 < sizeOf ps := sizeOf_lt_of_mem h
    simp
    omega
  | .variadic (name, a), p =>
    obtain rfl := List.mem_singleton.mp h
    simp
    omega

section Heads

variable {a b : Ty} {rest rest' : List Char}

/-- The types within a type are legible beside any other. -/
def PartsLegible (a : Ty) : Prop :=
  ∀ x y : Ty, sizeOf x < sizeOf a → x.every isRead = true → y.every isRead = true → Legible chars Closes x y

theorem PartsLegible.fields (ih : PartsLegible a) {fields others : List (String × Ty)} (h : AreRead fields)
    (h' : AreRead others) (hlt : ∀ field ∈ fields, sizeOf field.2 < sizeOf a) : LegibleTypes fields others :=
  fun field hfield other hother => ih field.2 other.2 (hlt field hfield) (h field hfield).2 (h' other hother).2

theorem PartsLegible.object {fields others : List (String × Ty)} (ih : PartsLegible (object fields))
    (h : AreRead fields) (h' : AreRead others) : LegibleTypes fields others :=
  ih.fields h h' fun field hfield => by
    have := sizeOf_lt_of_mem hfield
    simp
    omega

theorem PartsLegible.union {alternatives others : List (String × Ty)} {narrowed : Option String}
    (ih : PartsLegible (union alternatives narrowed)) (h : AreRead alternatives) (h' : AreRead others) :
    LegibleTypes alternatives others :=
  ih.fields h h' fun field hfield => by
    have := sizeOf_lt_of_mem hfield
    simp
    omega

theorem PartsLegible.parameters {vs : List TypeVariable} {ps : Parameters} {result : Ty}
    {others : List (String × Ty)} (ih : PartsLegible (function vs ps result)) (h : AreRead ps.toList)
    (h' : AreRead others) : LegibleTypes ps.toList others :=
  ih.fields h h' fun p hp => by
    have := sizeOf_lt_of_mem_parameters hp
    simp
    omega

theorem LegibleTypes.symm {fields others : List (String × Ty)} (h : LegibleTypes fields others) :
    LegibleTypes others fields := by
  intro other hother field hfield rest rest' hrest hrest' heq
  obtain ⟨htype, hbehind⟩ := h field hfield other hother rest' rest hrest' hrest heq.symm
  exact ⟨htype.symm, hbehind.symm⟩

/-- What stands in brackets behind a name. -/
theorem eq_of_bracketed (h : Legible chars Closes a b)
    (heq : '[' :: (a.chars ++ [']']) ++ rest = '[' :: (b.chars ++ [']']) ++ rest') : a = b ∧ rest = rest' := by
  have hcloses (rest : List Char) : Closes (']' :: rest) := .inr ⟨[']'], by decide, rest, rfl⟩
  simp only [List.cons_append, List.append_assoc, List.cons.injEq, true_and] at heq
  obtain ⟨htype, hbehind⟩ := h _ _ (hcloses _) (hcloses _) heq
  exact ⟨htype, (List.cons.inj hbehind).2⟩

/-- A function type is read among all heads in parentheses. -/
theorem eq_of_function {vs : List TypeVariable} {ps : Parameters} {result : Ty}
    (ha : (function vs ps result).every isRead = true) (hb : b.every isRead = true) (hhead : b.isHead = true)
    (ih : PartsLegible (function vs ps result)) (hrest : Closes rest) (hrest' : Follows b rest') (hword : b.word = "")
    (heq : (function vs ps result).behindWord ++ rest = b.behindWord ++ rest') :
    function vs ps result = b ∧ rest = rest' := by
  obtain ⟨rfl, hps, hresult⟩ := areRead_of_function ha
  cases b with
  | function ws qs other =>
    obtain ⟨rfl, hqs, hother⟩ := areRead_of_function hb
    simp only [behindWord, List.cons_append, List.append_assoc, List.cons.injEq, true_and] at heq
    obtain ⟨rfl, hbehind⟩ := legible_parameters hps hqs (ih.parameters hps hqs) heq
    obtain ⟨rfl, hrests⟩ := ih result other (by simp only [function.sizeOf_spec]; omega) hresult hother _ _ hrest
      (hrest'.2 rfl) (@List.append_cancel_left _ [' ', '-', '>', ' '] _ _ hbehind)
    exact ⟨rfl, hrests⟩
  | union alternatives narrowed =>
    have halternatives := (areRead_of_union hb).1
    simp only [behindWord, List.cons_append, List.append_assoc, List.cons.injEq, true_and] at heq
    exact absurd heq (parameters_ne_alternatives hps halternatives (ih.parameters hps halternatives) hrest'.1)
  | nullable x =>
    rw [every, Bool.and_eq_true] at hb
    simp only [behindWord, List.cons_append, List.append_assoc, List.cons.injEq, true_and] at heq
    exact absurd heq.symm (chars_ne_parameters hb.2 hps _ _)
  | object fields => exact absurd (List.cons.inj heq).1 (by decide)
  | tagged _ _ => cases hhead
  | var _ => cases hb
  | _ => simp [word] at hword

/-- A union is read among all heads in parentheses. -/
theorem eq_of_union {alternatives : List (String × Ty)} {narrowed : Option String}
    (ha : (union alternatives narrowed).every isRead = true) (hb : b.every isRead = true) (hhead : b.isHead = true)
    (ih : PartsLegible (union alternatives narrowed)) (hrest : Goes rest) (hrest' : Goes rest') (hword : b.word = "")
    (heq : (union alternatives narrowed).behindWord ++ rest = b.behindWord ++ rest') :
    union alternatives narrowed = b ∧ rest = rest' := by
  obtain ⟨hread, hnarrowed⟩ := areRead_of_union ha
  cases b with
  | union others narrowed' =>
    obtain ⟨hread', hnarrowed'⟩ := areRead_of_union hb
    simp only [behindWord, List.cons_append, List.append_assoc, List.cons.injEq, true_and] at heq
    obtain ⟨rfl, hbehind⟩ := legible_fields (by decide) (.inr rfl) hread hread' (ih.union hread hread') heq
    obtain ⟨rfl, hrests⟩ := legible_narrowed hnarrowed hnarrowed' _ _ hrest hrest' hbehind
    exact ⟨rfl, hrests⟩
  | function ws qs other =>
    obtain ⟨-, hqs, -⟩ := areRead_of_function hb
    simp only [behindWord, List.cons_append, List.append_assoc, List.cons.injEq, true_and] at heq
    exact absurd heq.symm (parameters_ne_alternatives hqs hread (ih.union hread hqs).symm hrest)
  | nullable x =>
    rw [every, Bool.and_eq_true] at hb
    simp only [behindWord, List.cons_append, List.append_assoc, List.cons.injEq, true_and] at heq
    exact absurd heq.symm (chars_ne_joined hb.2 hread _ _)
  | object fields => exact absurd (List.cons.inj heq).1 (by decide)
  | tagged _ _ => cases hhead
  | var _ => cases hb
  | _ => simp [word] at hword

/-- A type in parentheses in front of a question mark is read among all heads in parentheses. -/
theorem eq_of_nullable {x : Ty} (ha : (nullable x).every isRead = true) (hb : b.every isRead = true)
    (hhead : b.isHead = true) (ih : PartsLegible (nullable x)) (hword : b.word = "")
    (heq : (nullable x).behindWord ++ rest = b.behindWord ++ rest') : nullable x = b ∧ rest = rest' := by
  rw [every, Bool.and_eq_true] at ha
  cases b with
  | nullable y =>
    rw [every, Bool.and_eq_true] at hb
    simp only [behindWord, List.cons_append, List.append_assoc, List.cons.injEq, true_and] at heq
    obtain ⟨rfl, hbehind⟩ := ih x y (by simp) ha.2 hb.2 _ _ (closes_paren _) (closes_paren _) heq
    exact ⟨rfl, (List.cons.inj (List.cons.inj hbehind).2).2⟩
  | function ws qs other =>
    obtain ⟨-, hqs, -⟩ := areRead_of_function hb
    simp only [behindWord, List.cons_append, List.append_assoc, List.cons.injEq, true_and] at heq
    exact absurd heq (chars_ne_parameters ha.2 hqs _ _)
  | union others narrowed =>
    simp only [behindWord, List.cons_append, List.append_assoc, List.cons.injEq, true_and] at heq
    exact absurd heq (chars_ne_joined ha.2 (areRead_of_union hb).1 _ _)
  | object fields => exact absurd (List.cons.inj heq).1 (by decide)
  | tagged _ _ => cases hhead
  | var _ => cases hb
  | _ => simp [word] at hword

/-- An object type is read among all heads without a word. -/
theorem eq_of_object {fields : List (String × Ty)} (ha : (object fields).every isRead = true)
    (hb : b.every isRead = true) (hhead : b.isHead = true) (ih : PartsLegible (object fields)) (hword : b.word = "")
    (heq : (object fields).behindWord ++ rest = b.behindWord ++ rest') : object fields = b ∧ rest = rest' := by
  cases b with
  | object others =>
    have hread := areRead_of_object ha
    have hread' := areRead_of_object hb
    simp only [behindWord, List.cons_append, List.append_assoc, List.cons.injEq, true_and] at heq
    obtain ⟨rfl, hbehind⟩ :=
      legible_fields (by decide) (.inl ⟨rfl, by decide⟩) hread hread' (ih.object hread hread') heq
    exact ⟨rfl, hbehind⟩
  | union _ _ | function _ _ _ | nullable _ => exact absurd (List.cons.inj heq).1 (by decide)
  | tagged _ _ => cases hhead
  | var _ => cases hb
  | _ => simp [word] at hword

/-- Heads are legible if the types within them are: one case for each word, and for each bracket behind none. -/
theorem eq_of_heads (ha : a.every isRead = true) (hb : b.every isRead = true) (hhead : a.isHead = true)
    (hhead' : b.isHead = true) (ih : PartsLegible a) (hrest : Follows a rest) (hrest' : Follows b rest')
    (heq : a.chars ++ rest = b.chars ++ rest') : a = b ∧ rest = rest' := by
  rw [chars_eq_word hhead (Bool.and_eq_true_iff.mp (every_root ha)).1,
    chars_eq_word hhead' (Bool.and_eq_true_iff.mp (every_root hb)).1, List.append_assoc, List.append_assoc] at heq
  obtain ⟨hword, hbehind⟩ := Token.run_inj (isNamePart_word a) (endsName_behindWord a hrest.1.endsName)
    (isNamePart_word b) (endsName_behindWord b hrest'.1.endsName) heq
  have hword := String.toList_injective hword
  cases a with
  | number =>
    cases b with
    | number => exact ⟨rfl, hbehind⟩
    | _ => simp [word] at hword
  | boolean =>
    cases b with
    | boolean => exact ⟨rfl, hbehind⟩
    | _ => simp [word] at hword
  | bigInteger =>
    cases b with
    | bigInteger => exact ⟨rfl, hbehind⟩
    | _ => simp [word] at hword
  | null =>
    cases b with
    | null => exact ⟨rfl, hbehind⟩
    | _ => simp [word] at hword
  | list x =>
    cases b with
    | list y =>
      rw [every, Bool.and_eq_true] at ha hb
      obtain ⟨rfl, hrests⟩ := eq_of_bracketed (ih x y (by simp) ha.2 hb.2) hbehind
      exact ⟨rfl, hrests⟩
    | _ => simp [word] at hword
  | sequence x =>
    cases b with
    | sequence y =>
      rw [every, Bool.and_eq_true] at ha hb
      obtain ⟨rfl, hrests⟩ := eq_of_bracketed (ih x y (by simp) ha.2 hb.2) hbehind
      exact ⟨rfl, hrests⟩
    | _ => simp [word] at hword
  | object fields => exact eq_of_object ha hb hhead' ih hword.symm hbehind
  | union alternatives narrowed => exact eq_of_union ha hb hhead' ih hrest.1 hrest'.1 hword.symm hbehind
  | function vs ps result => exact eq_of_function ha hb hhead' ih (hrest.2 rfl) hrest' hword.symm hbehind
  | nullable x => exact eq_of_nullable ha hb hhead' ih hword.symm hbehind
  | tagged _ _ => cases hhead
  | var _ => cases ha

end Heads

theorem sizeOf_head_le : ∀ a : Ty, sizeOf a.head ≤ sizeOf a
  | tagged a tag => by
    have := sizeOf_head_le a
    rw [head]
    simp
    omega
  | nullable a => by
    have := sizeOf_head_le a
    rw [head]
    split
    · exact Nat.le_refl _
    · simp
      omega
  | number | boolean | bigInteger | null | list _ | sequence _ | object _ | union _ _ | function _ _ _ | var _ =>
    Nat.le_refl _

theorem follows_marks {a : Ty} (ha : a.every isRead = true) {rest : List Char} (hrest : Closes rest) :
    Follows a.head (a.marks.flatMap Mark.chars ++ rest) := by
  refine ⟨goes_marks _ hrest, fun hfunction => ?_⟩
  rw [marks_of_isFunction ha hfunction]
  exact hrest

/-- Types are legible: a head, by induction on the size of the type, and the marks behind it. -/
theorem legible_chars {a b : Ty} (ha : a.every isRead = true) (hb : b.every isRead = true) :
    Legible chars Closes a b := by
  induction hsize : sizeOf a using Nat.strongRecOn generalizing a b with
  | ind size ih =>
    intro rest rest' hrest hrest' heq
    rw [chars_eq_head a, chars_eq_head b, List.append_assoc, List.append_assoc] at heq
    have hparts : PartsLegible a.head := fun x y hlt hx hy =>
      ih (sizeOf x) (by have := sizeOf_head_le a; omega) hx hy rfl
    obtain ⟨hhead, hbehind⟩ := eq_of_heads (every_head ha) (every_head hb) (isHead_head a) (isHead_head b) hparts
      (follows_marks ha hrest) (follows_marks hb hrest') heq
    obtain ⟨hmarks, hbehind⟩ := legible_marks (isNamed_marks ha) (isNamed_marks hb) _ _ hrest hrest' hbehind
    refine ⟨?_, hbehind⟩
    rw [← foldl_marks a, hhead, hmarks, foldl_marks b]

/-- Types are printed alike exactly if they are the same with their tags on results, and equal then where no function
type is tagged. -/
theorem text_eq_iff {a b : Ty} (ha : a.isPlain = true) (hb : b.isPlain = true) :
    (a.text = b.text ↔ a.tagsOnResults = b.tagsOnResults) ∧
      (a.tagsNoFunction = true → b.tagsNoFunction = true → a.text = b.text → a.same b = true) := by
  have hiff : a.text = b.text ↔ a.tagsOnResults = b.tagsOnResults := by
    rw [← text_tagsOnResults a, ← text_tagsOnResults b]
    refine ⟨fun h => ?_, congrArg text⟩
    refine (legible_chars (isRead_tagsOnResults ha) (isRead_tagsOnResults hb) [] [] (begins_nil _) (begins_nil _) ?_).1
    rw [chars, chars, h]
  refine ⟨hiff, fun htags htags' h => ?_⟩
  have heq := hiff.mp h
  rw [tagsOnResults_eq_self htags, tagsOnResults_eq_self htags'] at heq
  rw [heq]
  exact same_refl b

theorem text_eq_iff_taggedFunction :
    let choice := union [("A", null), ("B", number)] none
    let inner := tagged (nullable (function [] (.variadic ("items", choice)) number)) "T"
    let a := function [] (.fixed [("x", tagged (function [] (.fixed []) inner) "U")]) boolean
    let b := function [] (.fixed [("x", function [] (.fixed []) (tagged inner "U"))]) boolean
    (a.isPlain = true ∧ b.isPlain = true) ∧ a.tagsOnResults = b.tagsOnResults ∧ a.text = b.text :=
  ⟨⟨by decide +kernel, by decide +kernel⟩, rfl, (text_eq_iff (by decide +kernel) (by decide +kernel)).1.mpr rfl⟩

/-- A function type that is tagged and one whose result is tagged are two types with one text. -/
theorem not_same_of_text_eq : ¬ ∀ a b : Ty, a.isPlain = true → b.isPlain = true → a.text = b.text → a.same b = true :=
  fun h =>
    absurd (h (tagged (function [] (.fixed []) number) "T") (function [] (.fixed []) (tagged number "T"))
      (by decide +kernel) (by decide +kernel) rfl) (by decide)

end Sable.Ty
