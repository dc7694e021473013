import Sable.Token.Scan

/-! The pieces of a text, one after the other.

How many places are looked at does not matter as long as they are enough, and a text that begins at a later
byte has the same pieces further to the right. A line feed ends whatever stands before it: the pieces of the
lines of a text are those of each line by itself. -/
namespace Sable

/-- Moved right by `offset` bytes. -/
def Span.moved (offset : Nat) (s : Span) : Span := ⟨s.start + offset, s.stop + offset⟩

def Spanned.moved {α : Type} (offset : Nat) (a : Spanned α) : Spanned α := ⟨a.value, a.span.moved offset⟩

/-- Whether no longer mark begins with the mark. -/
def Punctuation.isWhole (p : Punctuation) : Bool := all.all fun q => q = p || !p.chars.isPrefixOf q.chars

namespace Token

/-- Whether the text is a name: it is spelt like one, and like no keyword. -/
def isName (name : String) : Bool :=
  match name.toList with
  | [] => false
  | c :: rest => isNameStart c && rest.all isNamePart && (Keyword.ofText? name).isNone

theorem byteLength_append (xs ys : List Char) : byteLength (xs ++ ys) = byteLength xs + byteLength ys := by
  induction xs with
  | nil => simp [byteLength]
  | cons c xs ih => rw [List.cons_append, byteLength, byteLength, ih, Nat.add_assoc]

theorem utf8ByteSize_ofList (text : List Char) : (String.ofList text).utf8ByteSize = byteLength text := by
  induction text with
  | nil => rfl
  | cons c rest ih => rw [String.ofList_cons, String.utf8ByteSize_append, String.utf8ByteSize_singleton, ih, byteLength]

theorem byteLength_toList (source : String) : byteLength source.toList = source.utf8ByteSize := by
  rw [← utf8ByteSize_ofList, String.ofList_toList]

theorem takeWhile_append_of_stop {p : Char → Bool} {c : Char} (hc : p c = false) (xs ys : List Char) :
    (xs ++ c :: ys).takeWhile p = xs.takeWhile p := by
  induction xs with
  | nil => simp [hc]
  | cons x xs ih =>
      simp only [List.cons_append, List.takeWhile_cons]
      split
      · rw [ih]
      · rfl

theorem dropWhile_append_of_stop {p : Char → Bool} {c : Char} (hc : p c = false) (xs ys : List Char) :
    (xs ++ c :: ys).dropWhile p = xs.dropWhile p ++ c :: ys := by
  induction xs with
  | nil => simp [hc]
  | cons x xs ih =>
      simp only [List.cons_append, List.dropWhile_cons]
      split
      · exact ih
      · rfl

theorem drop_takeWhile (p : Char → Bool) (text : List Char) :
    text.drop (text.takeWhile p).length = text.dropWhile p := by
  induction text with
  | nil => rfl
  | cons c text ih =>
      simp only [List.takeWhile_cons, List.dropWhile_cons]
      split
      · exact ih
      · rfl

theorem exists_append_of_takeWhile (p : Char → Bool) (text : List Char) :
    ∃ rest, text = text.takeWhile p ++ rest := ⟨_, List.takeWhile_append_dropWhile.symm⟩

/-! ## Lexemes -/

theorem isNamePart_of_isNameStart {c : Char} (h : isNameStart c = true) : isNamePart c = true := by
  simp only [isNameStart, isNamePart, Char.isAlphanum, Bool.or_eq_true] at h ⊢
  exact h.imp .inl id

/-- A lexeme is not empty, and the text begins with it. -/
theorem exists_of_lexeme? {text chars : List Char} {t : Token} (h : lexeme? text = some (t, chars)) :
    ∃ rest, text = chars ++ rest ∧ chars ≠ [] := by
  unfold lexeme? at h
  split at h
  · cases h
  · rename_i c text
    split at h
    · rename_i hdigit
      have hwhole : (c :: text).takeWhile Char.isDigit ≠ [] := by simp [hdigit]
      have htext : (c :: text).takeWhile Char.isDigit ++ (c :: text).dropWhile Char.isDigit = c :: text :=
        List.takeWhile_append_dropWhile
      simp only at h
      split at h
      · rename_i rest hrest
        cases h
        exact ⟨rest, by rw [List.append_assoc, List.singleton_append, ← hrest, htext], by simp⟩
      · rename_i rest hrest
        split at h
        · cases h
          exact ⟨_, htext.symm, hwhole⟩
        · cases h
          obtain ⟨more, hmore⟩ := exists_append_of_takeWhile Char.isDigit rest
          refine ⟨more, ?_, by simp⟩
          rw [List.append_assoc, List.cons_append, ← hmore, ← hrest, htext]
      · cases h
        exact ⟨_, htext.symm, hwhole⟩
    · split at h
      · rename_i hstart
        cases h
        obtain ⟨rest, hrest⟩ := exists_append_of_takeWhile isNamePart (c :: text)
        refine ⟨rest, hrest, ?_⟩
        simp [isNamePart_of_isNameStart hstart]
      · rw [Option.map_eq_some_iff] at h
        obtain ⟨p, hp, h⟩ := h
        cases h
        have hprefix := List.find?_some hp
        obtain ⟨rest, hrest⟩ := List.isPrefixOf_iff_prefix.mp hprefix
        refine ⟨rest, hrest.symm, ?_⟩
        cases p <;> nofun

/-- No mark is broken by the end of a line. -/
theorem isPrefixOf_append_newline (p : Punctuation) (text rest : List Char) :
    p.chars.isPrefixOf (text ++ '\n' :: rest) = p.chars.isPrefixOf text := by
  have hp : ∀ c ∈ p.chars, ¬c = '\n' := by cases p <;> simp [Punctuation.chars]
  generalize p.chars = chars at hp
  induction chars generalizing text with
  | nil => rfl
  | cons c chars ih =>
      rw [List.forall_mem_cons] at hp
      cases text with
      | nil => simp [List.isPrefixOf, hp.1]
      | cons d text => simp [List.isPrefixOf, ih text hp.2]

/-- A lexeme does not go beyond the end of its line. -/
theorem lexeme?_append_newline {text : List Char} (htext : text ≠ []) (rest : List Char) :
    lexeme? (text ++ '\n' :: rest) = lexeme? text := by
  obtain ⟨c, text, rfl⟩ := List.exists_cons_of_ne_nil htext
  have hdigit : Char.isDigit '\n' = false := rfl
  have hpart : isNamePart '\n' = false := rfl
  simp only [lexeme?, List.cons_append]
  simp only [← List.cons_append, takeWhile_append_of_stop hdigit, takeWhile_append_of_stop hpart,
    dropWhile_append_of_stop hdigit, isPrefixOf_append_newline]
  congr 1
  generalize (c :: text).dropWhile Char.isDigit = behind
  rcases behind with _ | ⟨d, behind⟩
  · rfl
  · simp only [List.cons_append]
    split
    · rename_i heq
      cases heq
      rfl
    · rename_i heq
      cases heq
      simp [takeWhile_append_of_stop hdigit]
    · rename_i hn hdot
      split
      · rename_i heq
        cases heq
        exact absurd rfl (hn _)
      · rename_i heq
        cases heq
        exact absurd rfl (hdot _)
      · rfl

theorem lexeme?_mark {p : Punctuation} (hp : p.isWhole = true) (rest : List Char) :
    lexeme? (p.chars ++ rest) = some (.mark p, p.chars) := by
  cases p <;> first | rfl | cases hp

/-- What stands behind a name so that the name ends there. -/
def EndsName (rest : List Char) : Prop := ∀ c ∈ rest.head?, isNamePart c = false

theorem takeWhile_of_endsName {rest : List Char} (hrest : EndsName rest) : rest.takeWhile isNamePart = [] := by
  cases rest with
  | nil => rfl
  | cons c rest => rw [List.takeWhile_cons_of_neg (Bool.eq_false_iff.mp (hrest c rfl))]

theorem exists_of_isName {name : String} (hname : isName name = true) :
    ∃ c rest, name.toList = c :: rest ∧ isNameStart c = true ∧ (∀ d ∈ name.toList, isNamePart d = true) ∧
      Keyword.ofText? name = none := by
  unfold isName at hname
  split at hname
  · cases hname
  · rename_i c rest htext
    simp only [Bool.and_eq_true, List.all_eq_true, Option.isNone_iff_eq_none] at hname
    obtain ⟨⟨hstart, hrest⟩, hkeyword⟩ := hname
    refine ⟨c, rest, htext, hstart, ?_, hkeyword⟩
    rw [htext, List.forall_mem_cons]
    exact ⟨isNamePart_of_isNameStart hstart, hrest⟩

theorem not_isDigit_of_isNameStart {c : Char} (h : isNameStart c = true) : ¬c.isDigit = true := by
  delta isNameStart Char.isAlpha Char.isUpper Char.isLower Char.isDigit at *
  simp only [Bool.or_eq_true, Bool.and_eq_true, decide_eq_true_eq] at h ⊢
  rcases h with (⟨h, -⟩ | ⟨h, -⟩) | rfl
  · exact fun hc => absurd (UInt32.le_trans h hc.2) (by decide)
  · exact fun hc => absurd (UInt32.le_trans h hc.2) (by decide)
  · decide

theorem lexeme?_name {name : String} (hname : isName name = true) {rest : List Char} (hrest : EndsName rest) :
    lexeme? (name.toList ++ rest) = some (.ident name, name.toList) := by
  obtain ⟨c, chars, htext, hstart, hparts, hkeyword⟩ := exists_of_isName hname
  have hword : (name.toList ++ rest).takeWhile isNamePart = name.toList := by
    rw [List.takeWhile_append_of_pos hparts, takeWhile_of_endsName hrest, List.append_nil]
  rw [htext, List.cons_append] at hword ⊢
  simp only [lexeme?, not_isDigit_of_isNameStart hstart, hstart, hword, if_true, Bool.false_eq_true, if_false]
  rw [← htext, String.ofList_toList, ofWord, hkeyword]

/-! ## Pieces -/

theorem length_drop_le (c : Char) (rest : List Char) {n : Nat} (hn : 0 < n) :
    ((c :: rest).drop n).length ≤ rest.length := by
  rw [List.length_drop, List.length_cons]
  omega

/-- As many places as there are characters are enough. -/
theorem piecesUpTo_eq {count count' : Nat} {text : List Char} (h : text.length ≤ count)
    (h' : text.length ≤ count') (start : Nat) : piecesUpTo count start text = piecesUpTo count' start text := by
  induction count generalizing count' start text with
  | zero =>
      obtain rfl := List.length_eq_zero_iff.mp (Nat.le_zero.mp h)
      cases count' <;> rfl
  | succ count ih =>
      cases count' with
      | zero =>
          obtain rfl := List.length_eq_zero_iff.mp (Nat.le_zero.mp h')
          rfl
      | succ count' =>
          cases text with
          | nil => rfl
          | cons c rest =>
              simp only [List.length_cons, Nat.add_le_add_iff_right] at h h'
              simp only [piecesUpTo]
              split
              · exact ih h h' _
              · split
                · exact ih (by simp; omega) (by simp; omega) _
                · split
                  · rename_i hlexeme
                    obtain ⟨more, htext, hchars⟩ := exists_of_lexeme? hlexeme
                    have hpos := List.length_pos_iff.mpr hchars
                    have hlength : ((c :: rest).drop _).length ≤ rest.length :=
                      length_drop_le c rest hpos
                    rw [ih (Nat.le_trans hlength h) (Nat.le_trans hlength h')]
                  · rw [ih h h']

/-- The pieces of a text that begins at byte `start`. -/
def piecesFrom (start : Nat) (text : List Char) : List (Spanned Piece) := piecesUpTo text.length start text

theorem pieces_eq (text : List Char) : pieces text = piecesFrom 0 text := rfl

theorem piecesUpTo_eq_piecesFrom {count : Nat} {text : List Char} (h : text.length ≤ count) (start : Nat) :
    piecesUpTo count start text = piecesFrom start text := piecesUpTo_eq h (Nat.le_refl _) start

theorem piecesFrom_nil (start : Nat) : piecesFrom start [] = [] := rfl

section

variable {c : Char} {rest : List Char}

theorem piecesFrom_blank (hc : isBlank c = true) (start : Nat) :
    piecesFrom start (c :: rest) = piecesFrom (start + c.utf8Size) rest := by
  rw [piecesFrom, List.length_cons, piecesUpTo, if_pos hc, piecesFrom]

theorem piecesFrom_comment (start : Nat) :
    piecesFrom start (';' :: rest) =
      piecesFrom (start + 1 + byteLength (rest.takeWhile (· ≠ '\n'))) (rest.dropWhile (· ≠ '\n')) := by
  have hblank : ¬isBlank ';' = true := by decide
  rw [piecesFrom, List.length_cons, piecesUpTo, if_neg hblank, if_pos rfl]
  dsimp only
  rw [drop_takeWhile, piecesUpTo_eq_piecesFrom (List.dropWhile_sublist _).length_le]
  rfl

variable (hblank : ¬isBlank c = true) (hcomment : c ≠ ';')
include hblank hcomment

theorem piecesFrom_lexeme {t : Token} {chars more : List Char} (h : lexeme? (c :: rest) = some (t, chars))
    (htext : c :: rest = chars ++ more) (start : Nat) :
    piecesFrom start (c :: rest) =
      ⟨.token t, ⟨start, start + byteLength chars⟩⟩ :: piecesFrom (start + byteLength chars) more := by
  obtain ⟨_, _, hchars⟩ := exists_of_lexeme? h
  have hmore : (c :: rest).drop chars.length = more := by rw [htext, List.drop_left]
  have hlength := length_drop_le c rest (List.length_pos_iff.mpr hchars)
  rw [hmore] at hlength
  simp only [piecesFrom, List.length_cons, piecesUpTo, hblank, hcomment, h, hmore, if_false]
  rw [piecesUpTo_eq_piecesFrom hlength, piecesFrom]
  rfl

theorem piecesFrom_unexpected (h : lexeme? (c :: rest) = none) (start : Nat) :
    piecesFrom start (c :: rest) =
      ⟨.unexpected, ⟨start, start + c.utf8Size⟩⟩ :: piecesFrom (start + c.utf8Size) rest := by
  simp only [piecesFrom, List.length_cons, piecesUpTo, hblank, hcomment, h, if_false]
  rfl

end

/-- Induction along the pieces of a text. -/
theorem pieces_induction {motive : List Char → Prop} (text : List Char) (nil : motive [])
    (blank : ∀ c rest, isBlank c = true → motive rest → motive (c :: rest))
    (comment : ∀ rest : List Char, motive (rest.dropWhile (· ≠ '\n')) → motive (';' :: rest))
    (lexeme : ∀ c rest t chars more, ¬isBlank c = true → c ≠ ';' → lexeme? (c :: rest) = some (t, chars) →
      c :: rest = chars ++ more → motive more → motive (c :: rest))
    (unexpected : ∀ c rest, ¬isBlank c = true → c ≠ ';' → lexeme? (c :: rest) = none → motive rest →
      motive (c :: rest)) : motive text := by
  generalize hlength : text.length = length
  induction length using Nat.strongRecOn generalizing text with
  | ind length ih =>
      have hshorter : ∀ rest : List Char, rest.length < text.length → motive rest :=
        fun rest hrest => ih rest.length (hlength ▸ hrest) rest rfl
      cases text with
      | nil => exact nil
      | cons c rest =>
          by_cases hblank : isBlank c = true
          · exact blank c rest hblank (hshorter rest (Nat.lt_succ_self _))
          · by_cases hcomment : c = ';'
            · subst hcomment
              exact comment rest (hshorter _ (Nat.lt_succ_of_le (List.dropWhile_sublist _).length_le))
            · cases hlexeme : lexeme? (c :: rest) with
              | none => exact unexpected c rest hblank hcomment hlexeme (hshorter rest (Nat.lt_succ_self _))
              | some found =>
                  obtain ⟨t, chars⟩ := found
                  obtain ⟨more, htext, hchars⟩ := exists_of_lexeme? hlexeme
                  refine lexeme c rest t chars more hblank hcomment hlexeme htext (hshorter more ?_)
                  rw [htext, List.length_append]
                  have := List.length_pos_iff.mpr hchars
                  omega

theorem piecesFrom_moved (offset start : Nat) (text : List Char) :
    piecesFrom (start + offset) text = (piecesFrom start text).map (·.moved offset) := by
  induction text using pieces_induction generalizing start with
  | nil => rfl
  | blank c rest hblank ih => rw [piecesFrom_blank hblank, piecesFrom_blank hblank, ← ih, Nat.add_right_comm]
  | comment rest ih =>
      rw [piecesFrom_comment, piecesFrom_comment, ← ih, Nat.add_right_comm start, Nat.add_right_comm (start + 1)]
  | lexeme c rest t chars more hblank hcomment hlexeme htext ih =>
      rw [piecesFrom_lexeme hblank hcomment hlexeme htext, piecesFrom_lexeme hblank hcomment hlexeme htext,
        List.map_cons, ← ih, Nat.add_right_comm start]
      rfl
  | unexpected c rest hblank hcomment hlexeme ih =>
      rw [piecesFrom_unexpected hblank hcomment hlexeme, piecesFrom_unexpected hblank hcomment hlexeme,
        List.map_cons, ← ih, Nat.add_right_comm start]
      rfl

/-- The pieces of a line, and then those of the lines after it. -/
theorem piecesFrom_append_newline (start : Nat) (text rest : List Char) :
    piecesFrom start (text ++ '\n' :: rest) =
      piecesFrom start text ++ piecesFrom (start + byteLength text + 1) rest := by
  induction text using pieces_induction generalizing start with
  | nil => exact piecesFrom_blank (c := '\n') rfl start
  | blank c text hblank ih =>
      rw [List.cons_append, piecesFrom_blank hblank, piecesFrom_blank hblank, ih, byteLength, ← Nat.add_assoc]
  | comment text ih =>
      have hstop : decide ('\n' ≠ '\n') = false := rfl
      have hlength : byteLength (';' :: text) =
          1 + byteLength (text.takeWhile (· ≠ '\n')) + byteLength (text.dropWhile (· ≠ '\n')) := by
        rw [Nat.add_assoc, ← byteLength_append, List.takeWhile_append_dropWhile]
        rfl
      rw [List.cons_append, piecesFrom_comment, piecesFrom_comment, takeWhile_append_of_stop hstop,
        dropWhile_append_of_stop hstop, ih, hlength]
      simp only [Nat.add_assoc]
  | lexeme c text t chars more hblank hcomment hlexeme htext ih =>
      have hlexeme' : lexeme? (c :: (text ++ '\n' :: rest)) = some (t, chars) := by
        rw [← List.cons_append, lexeme?_append_newline (List.cons_ne_nil c text), hlexeme]
      have htext' : c :: (text ++ '\n' :: rest) = chars ++ (more ++ '\n' :: rest) := by
        rw [← List.cons_append, htext, List.append_assoc]
      rw [List.cons_append, piecesFrom_lexeme hblank hcomment hlexeme' htext',
        piecesFrom_lexeme hblank hcomment hlexeme htext, ih, htext, byteLength_append, ← Nat.add_assoc]
      rfl
  | unexpected c text hblank hcomment hlexeme ih =>
      have hlexeme' : lexeme? (c :: (text ++ '\n' :: rest)) = none := by
        rw [← List.cons_append, lexeme?_append_newline (List.cons_ne_nil c text), hlexeme]
      rw [List.cons_append, piecesFrom_unexpected hblank hcomment hlexeme',
        piecesFrom_unexpected hblank hcomment hlexeme, ih, byteLength, ← Nat.add_assoc]
      rfl

/-! ## What a text is cut into -/

/-- The pieces of a text without their places. -/
def found (text : List Char) : List Piece := (piecesFrom 0 text).map (·.value)

theorem map_value_piecesFrom (start : Nat) (text : List Char) :
    (piecesFrom start text).map (·.value) = found text := by
  have h := piecesFrom_moved start 0 text
  rw [Nat.zero_add] at h
  rw [h, found, List.map_map]
  rfl

theorem found_blank {c : Char} (hc : isBlank c = true) (rest : List Char) : found (c :: rest) = found rest := by
  rw [found, piecesFrom_blank hc, map_value_piecesFrom]

theorem found_lexeme {c : Char} {rest chars more : List Char} {t : Token} (hblank : ¬isBlank c = true)
    (hcomment : c ≠ ';') (h : lexeme? (c :: rest) = some (t, chars)) (htext : c :: rest = chars ++ more) :
    found (c :: rest) = .token t :: found more := by
  rw [found, piecesFrom_lexeme hblank hcomment h htext, List.map_cons, map_value_piecesFrom]

/-- A text in which only tokens are found. -/
theorem scan_of_found {source : String} {ts : List Token} (h : found source.toList = ts.map .token) :
    (scan source).tokens.map (·.value) = ts ∧ (scan source).unexpected = [] := by
  rw [scan, pieces_eq]
  rw [found] at h
  generalize piecesFrom 0 source.toList = pieces at h
  induction pieces generalizing ts with
  | nil => simpa [Scan.ofPieces, eq_comm] using h
  | cons piece pieces ih =>
      cases ts with
      | nil => cases h
      | cons t ts =>
          obtain ⟨value, span⟩ := piece
          obtain ⟨hvalue, htail⟩ := List.cons.inj h
          obtain rfl : value = .token t := hvalue
          obtain ⟨htokens, hunexpected⟩ := ih htail
          exact ⟨congrArg (t :: ·) htokens, hunexpected⟩

/-- The text is cut into the tokens, whatever stands behind it that ends a name. -/
def Cut (text : List Char) (ts : List Token) : Prop :=
  ∀ rest, EndsName rest → found (text ++ rest) = ts.map .token ++ found rest

theorem cut_nil : Cut [] [] := fun _ _ => rfl

theorem Cut.append {xs ys : List Char} {ts us : List Token} (hxs : Cut xs ts) (hys : Cut ys us)
    (hends : ∀ rest, EndsName rest → EndsName (ys ++ rest)) : Cut (xs ++ ys) (ts ++ us) := by
  intro rest hrest
  rw [List.append_assoc, hxs _ (hends rest hrest), hys rest hrest, List.map_append, List.append_assoc]

theorem endsName_cons {c : Char} (hc : isNamePart c = false) (xs : List Char) : EndsName (c :: xs) := by
  intro d hd
  cases hd
  exact hc

/-- Before a character that is no part of a name. -/
theorem Cut.before {xs ys : List Char} {ts us : List Token} {c : Char} (hxs : Cut xs ts)
    (hc : isNamePart c = false) (hys : Cut (c :: ys) us) : Cut (xs ++ c :: ys) (ts ++ us) :=
  hxs.append hys fun _ _ => endsName_cons hc _

theorem Cut.blank {xs : List Char} {ts : List Token} (h : Cut xs ts) : Cut (' ' :: xs) ts := by
  intro rest hrest
  rw [List.cons_append, found_blank rfl, h rest hrest]


theorem Cut.mark {xs : List Char} {ts : List Token} {p : Punctuation} (hp : p.isWhole = true) (h : Cut xs ts) :
    Cut (p.chars ++ xs) (.mark p :: ts) := by
  intro rest hrest
  obtain ⟨c, chars, hchars, hblank, hcomment⟩ :
      ∃ c chars, p.chars = c :: chars ∧ ¬isBlank c = true ∧ c ≠ ';' := by
    cases p <;> exact ⟨_, _, rfl, by decide⟩
  have hlexeme := lexeme?_mark hp (xs ++ rest)
  rw [hchars, List.cons_append] at hlexeme
  rw [List.append_assoc, hchars, List.cons_append, found_lexeme hblank hcomment hlexeme rfl, h rest hrest]
  rfl

theorem cut_name {name : String} (hname : isName name = true) : Cut name.toList [.ident name] := by
  intro rest hrest
  obtain ⟨c, chars, htext, hstart, -, -⟩ := exists_of_isName hname
  have hlexeme := lexeme?_name hname hrest
  have hblank : ¬isBlank c = true := by
    intro hc
    simp only [isBlank, Bool.or_eq_true, decide_eq_true_eq] at hc
    rcases hc with ((rfl | rfl) | rfl) | rfl <;> cases hstart
  have hcomment : c ≠ ';' := by
    rintro rfl
    cases hstart
  rw [htext, List.cons_append] at hlexeme ⊢
  exact found_lexeme hblank hcomment hlexeme rfl

end Token

end Sable
