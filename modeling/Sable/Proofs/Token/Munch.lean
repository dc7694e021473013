import Sable.Proofs.Token.Pieces

/-! The scanner cuts a text into the longest lexemes.

What spells a token is said kind by kind, apart from the scanner, and so is what may stand between two pieces.
At every place the scanner takes the longest text that spells a token of any kind, and of the tokens spelt by it
the keyword. Where nothing that begins with a character spells a token, the character is a piece by itself. -/
namespace Sable.Token

/-! ## What spells a token -/

/-- One digit or more. -/
def IsDigits (digits : List Char) : Prop := digits ≠ [] ∧ ∀ c ∈ digits, c.isDigit = true

inductive SpellsNumeral : Token → List Char → Prop
  | whole {digits : List Char} : IsDigits digits → SpellsNumeral (numberOf digits []) digits
  | fraction {whole fraction : List Char} : IsDigits whole → IsDigits fraction →
      SpellsNumeral (numberOf whole fraction) (whole ++ '.' :: fraction)
  | bigInteger {digits : List Char} : IsDigits digits →
      SpellsNumeral (.bigInteger (.ofList digits)) (digits ++ ['n'])

/-- A word that is a keyword also spells a name. -/
inductive SpellsWord : Token → List Char → Prop
  | keyword (k : Keyword) : SpellsWord (.keyword k) k.text.toList
  | ident {c : Char} {rest : List Char} : isNameStart c = true → (∀ d ∈ rest, isNamePart d = true) →
      SpellsWord (.ident (.ofList (c :: rest))) (c :: rest)

/-- The characters are a lexeme of the token's kind, and the token is what it stands for. -/
inductive Spells : Token → List Char → Prop
  | numeral {t : Token} {chars : List Char} : SpellsNumeral t chars → Spells t chars
  | word {t : Token} {chars : List Char} : SpellsWord t chars → Spells t chars
  | mark (p : Punctuation) : Spells (.mark p) p.chars

/-- The token is the right one for the characters, where `behind` stands after them: no longer text spells a
token, and of the kinds of tokens that begin alike it has the one that the whole of the characters tells. -/
structure Munches (t : Token) (chars behind : List Char) : Prop where
  spells : Spells t chars
  longest : ∀ u other, Spells u other → other <+: chars ++ behind → other <+: chars
  keyword : ∀ k, t = .keyword k ↔ chars = k.text.toList
  ident : ∀ name, t = .ident name ↔
    chars = name.toList ∧ (∃ c ∈ chars.head?, isNameStart c = true) ∧ ∀ k : Keyword, chars ≠ k.text.toList
  bigInteger : ∀ digits, t = .bigInteger (.ofList digits) ↔ IsDigits digits ∧ chars = digits ++ ['n']
  number : (∃ x, t = .number x) ↔ (∃ c ∈ chars.head?, c.isDigit = true) ∧ ∀ digits, chars ≠ digits ++ ['n']

/-- No lexeme begins with the character, and neither a blank nor a comment does. -/
structure Stray (c : Char) : Prop where
  not_blank : ¬isBlank c = true
  not_comment : c ≠ ';'
  starts_nothing : ∀ t rest, ¬Spells t (c :: rest)

/-! ## Where a run of characters ends -/

/-- What stands behind a run of characters of the class so that the run ends there. -/
def Stops (p : Char → Bool) (behind : List Char) : Prop := ∀ c ∈ behind.head?, p c = false

theorem of_mem_takeWhile {p : Char → Bool} {text : List Char} {c : Char} (h : c ∈ text.takeWhile p) : p c = true :=
  List.all_eq_true.mp List.all_takeWhile c h

theorem stops_dropWhile (p : Char → Bool) (text : List Char) : Stops p (text.dropWhile p) := by
  induction text with
  | nil => nofun
  | cons c text ih =>
      rw [List.dropWhile_cons]
      split
      · exact ih
      · rename_i hc
        intro d hd
        cases hd
        exact Bool.eq_false_iff.mpr hc

section

variable {p : Char → Bool} {run behind other : List Char}

theorem takeWhile_of_stops (hrun : ∀ c ∈ run, p c = true) (hstops : Stops p behind) :
    (run ++ behind).takeWhile p = run := by
  rw [List.takeWhile_append_of_pos hrun]
  cases behind with
  | nil => rw [List.takeWhile_nil, List.append_nil]
  | cons c behind => rw [List.takeWhile_cons_of_neg (Bool.eq_false_iff.mp (hstops c rfl)), List.append_nil]

/-- A text begins with one run at most. -/
theorem run_inj {run' behind' : List Char} (hrun : ∀ c ∈ run, p c = true) (hstops : Stops p behind)
    (hrun' : ∀ c ∈ run', p c = true) (hstops' : Stops p behind') (h : run ++ behind = run' ++ behind') :
    run = run' ∧ behind = behind' := by
  have hsame : run = run' := by
    rw [← takeWhile_of_stops hrun hstops, h, takeWhile_of_stops hrun' hstops']
  subst hsame
  exact ⟨rfl, List.append_cancel_left h⟩

/-- No characters of the class reach beyond the run. -/
theorem le_run (hstops : Stops p behind) (hother : ∀ c ∈ other, p c = true) (h : other <+: run ++ behind) :
    other <+: run := by
  rcases List.prefix_or_prefix_of_prefix h (List.prefix_append run behind) with hle | ⟨more, rfl⟩
  · exact hle
  · have hmore : more <+: behind := (List.prefix_append_right_inj run).mp h
    obtain _ | ⟨c, more⟩ := more
    · simp
    · obtain ⟨rest, rfl⟩ := hmore
      have hc : p c = false := hstops c rfl
      rw [hother c (by simp)] at hc
      cases hc

end

/-! ## What the first character says -/

theorem ofText?_text (k : Keyword) : Keyword.ofText? k.text = some k := by
  cases k <;> decide

theorem ofText?_eq_some_iff {word : String} {k : Keyword} : Keyword.ofText? word = some k ↔ word = k.text := by
  constructor
  · intro h
    unfold Keyword.ofText? at h
    have hword := List.find?_some h
    exact (beq_iff_eq.mp hword).symm
  · rintro rfl
    exact ofText?_text k

theorem IsDigits.exists_cons {digits : List Char} (h : IsDigits digits) :
    ∃ c rest, digits = c :: rest ∧ c.isDigit = true := by
  obtain ⟨c, rest, rfl⟩ := List.exists_cons_of_ne_nil h.1
  exact ⟨c, rest, rfl, h.2 c List.mem_cons_self⟩

theorem SpellsNumeral.exists_cons {t : Token} {chars : List Char} (h : SpellsNumeral t chars) :
    ∃ c rest, chars = c :: rest ∧ c.isDigit = true := by
  cases h with
  | whole hdigits => exact hdigits.exists_cons
  | fraction hwhole _ =>
      obtain ⟨c, rest, rfl, hc⟩ := hwhole.exists_cons
      exact ⟨c, _, List.cons_append, hc⟩
  | bigInteger hdigits =>
      obtain ⟨c, rest, rfl, hc⟩ := hdigits.exists_cons
      exact ⟨c, _, List.cons_append, hc⟩

theorem SpellsWord.exists_cons {t : Token} {chars : List Char} (h : SpellsWord t chars) :
    ∃ c rest, chars = c :: rest ∧ isNameStart c = true ∧ ∀ d ∈ rest, isNamePart d = true := by
  cases h with
  | keyword k => cases k <;> exact ⟨_, _, rfl, rfl, List.all_eq_true.mp rfl⟩
  | ident hc hrest => exact ⟨_, _, rfl, hc, hrest⟩

theorem exists_mark_chars (p : Punctuation) : ∃ c rest, p.chars = c :: rest ∧ ¬c.isDigit = true ∧
    ¬isNameStart c = true ∧ ¬isBlank c = true ∧ c ≠ ';' := by
  cases p <;> exact ⟨_, _, rfl, by decide⟩

namespace Spells

variable {t : Token} {chars : List Char} {c : Char}

/-- A lexeme that begins with a digit is a numeral, one that begins like a name a word, and any other a mark. -/
theorem kind (h : Spells t chars) (hc : chars.head? = some c) :
    c.isDigit = true ∧ SpellsNumeral t chars ∨ isNameStart c = true ∧ SpellsWord t chars ∨
      (¬c.isDigit = true ∧ ¬isNameStart c = true) ∧ ∃ p, t = .mark p ∧ chars = p.chars := by
  cases h with
  | numeral h =>
      obtain ⟨d, rest, rfl, hd⟩ := h.exists_cons
      cases hc
      exact .inl ⟨hd, h⟩
  | word h =>
      obtain ⟨d, rest, rfl, hd, -⟩ := h.exists_cons
      cases hc
      exact .inr (.inl ⟨hd, h⟩)
  | mark p =>
      obtain ⟨d, rest, hchars, hdigit, hstart, -⟩ := exists_mark_chars p
      rw [hchars] at hc
      cases hc
      exact .inr (.inr ⟨⟨hdigit, hstart⟩, p, rfl, rfl⟩)

theorem numeral_of_isDigit (h : Spells t chars) (hhead : chars.head? = some c) (hc : c.isDigit = true) :
    SpellsNumeral t chars := by
  rcases h.kind hhead with ⟨-, h⟩ | ⟨hstart, -⟩ | ⟨⟨hdigit, -⟩, -⟩
  · exact h
  · exact absurd hc (not_isDigit_of_isNameStart hstart)
  · exact absurd hc hdigit

theorem word_of_isNameStart (h : Spells t chars) (hhead : chars.head? = some c) (hc : isNameStart c = true) :
    SpellsWord t chars := by
  rcases h.kind hhead with ⟨hdigit, -⟩ | ⟨-, h⟩ | ⟨⟨-, hstart⟩, -⟩
  · exact absurd hdigit (not_isDigit_of_isNameStart hc)
  · exact h
  · exact absurd hc hstart

theorem exists_mark (h : Spells t chars) (hhead : chars.head? = some c) (hdigit : ¬c.isDigit = true)
    (hstart : ¬isNameStart c = true) : ∃ p, t = .mark p ∧ chars = p.chars := by
  rcases h.kind hhead with ⟨hc, -⟩ | ⟨hc, -⟩ | ⟨-, h⟩
  · exact absurd hc hdigit
  · exact absurd hc hstart
  · exact h

theorem ne_nil (h : Spells t chars) : chars ≠ [] := by
  rintro hnil
  cases h with
  | numeral h =>
      obtain ⟨_, _, rfl, -⟩ := h.exists_cons
      cases hnil
  | word h =>
      obtain ⟨_, _, rfl, -⟩ := h.exists_cons
      cases hnil
  | mark p =>
      obtain ⟨_, _, hchars, -⟩ := exists_mark_chars p
      rw [hnil] at hchars
      cases hchars

end Spells

/-- Of two texts at one place the shorter begins like the longer. -/
theorem head?_eq_of_le {other text : List Char} (h : other <+: text) (hother : other ≠ []) :
    other.head? = text.head? := by
  obtain ⟨more, rfl⟩ := h
  obtain ⟨c, other, rfl⟩ := List.exists_cons_of_ne_nil hother
  rfl

/-! ## Numerals -/

theorem not_mem_of_isDigits {c : Char} (hc : c.isDigit = false) {digits : List Char}
    (hdigits : ∀ d ∈ digits, d.isDigit = true) : c ∉ digits := by
  intro hmem
  rw [hdigits c hmem] at hc
  cases hc

theorem stops_cons {p : Char → Bool} {c : Char} (hc : p c = false) (rest : List Char) : Stops p (c :: rest) := by
  intro d hd
  cases hd
  exact hc

/-- A numeral at the front of a text is some of its digits, or all of them with what stands behind. -/
theorem SpellsNumeral.le {t : Token} {whole behind other : List Char} (hwhole : ∀ c ∈ whole, c.isDigit = true)
    (hstops : Stops Char.isDigit behind) (h : SpellsNumeral t other) (hle : other <+: whole ++ behind) :
    other <+: whole ∨ (∃ rest, behind = 'n' :: rest ∧ other = whole ++ ['n']) ∨
      ∃ fraction rest, IsDigits fraction ∧ behind = '.' :: (fraction ++ rest) ∧ other = whole ++ '.' :: fraction := by
  cases h with
  | whole hdigits => exact .inl (le_run hstops hdigits.2 hle)
  | bigInteger hdigits =>
      obtain ⟨rest, hrest⟩ := hle
      rw [List.append_assoc, List.singleton_append] at hrest
      obtain ⟨rfl, rfl⟩ := run_inj hdigits.2 (stops_cons rfl rest) hwhole hstops hrest
      exact .inr (.inl ⟨rest, rfl, rfl⟩)
  | fraction hdigits hfraction =>
      obtain ⟨rest, hrest⟩ := hle
      rw [List.append_assoc, List.cons_append] at hrest
      obtain ⟨rfl, rfl⟩ := run_inj hdigits.2 (stops_cons rfl _) hwhole hstops hrest
      exact .inr (.inr ⟨_, rest, hfraction, rfl, rfl⟩)

theorem ne_keyword_text {c : Char} {rest : List Char} (hc : ¬isNameStart c = true) (k : Keyword) :
    c :: rest ≠ k.text.toList := by
  intro heq
  obtain ⟨d, _, hd, hstart, -⟩ := (SpellsWord.keyword k).exists_cons
  rw [← heq] at hd
  cases hd
  exact hc hstart

theorem ne_digits_append {c : Char} {rest digits more : List Char} (hc : ¬c.isDigit = true) (h : IsDigits digits) :
    c :: rest ≠ digits ++ more := by
  intro heq
  obtain ⟨d, _, rfl, hdigit⟩ := h.exists_cons
  cases heq
  exact hc hdigit

/-- Digits and a mark behind them are told from digits alone and from a fraction by the mark. -/
theorem SpellsNumeral.eq_bigInteger {t : Token} {digits : List Char}
    (h : SpellsNumeral t (digits ++ ['n'])) : IsDigits digits ∧ t = .bigInteger (.ofList digits) := by
  generalize hchars : digits ++ ['n'] = chars at h
  have hn : 'n' ∈ chars := by simp [← hchars]
  have hdigit : Char.isDigit 'n' = false := rfl
  cases h with
  | whole hdigits => exact absurd hn (not_mem_of_isDigits hdigit hdigits.2)
  | fraction hwhole hfraction =>
      rw [List.mem_append, List.mem_cons] at hn
      rcases hn with hn | hn | hn
      · exact absurd hn (not_mem_of_isDigits hdigit hwhole.2)
      · cases hn
      · exact absurd hn (not_mem_of_isDigits hdigit hfraction.2)
  | bigInteger hdigits =>
      obtain rfl := List.append_cancel_right hchars
      exact ⟨hdigits, rfl⟩

theorem SpellsNumeral.number_or {t : Token} {chars : List Char} (h : SpellsNumeral t chars) :
    (∃ x, t = .number x) ∨ ∃ digits, chars = digits ++ ['n'] := by
  cases h with
  | whole _ => exact .inl ⟨_, rfl⟩
  | fraction _ _ => exact .inl ⟨_, rfl⟩
  | bigInteger _ => exact .inr ⟨_, rfl⟩

theorem SpellsNumeral.munches {t : Token} {chars behind : List Char} (h : SpellsNumeral t chars)
    (hlongest : ∀ u other, SpellsNumeral u other → other <+: chars ++ behind → other <+: chars) :
    Munches t chars behind := by
  obtain ⟨c, rest, rfl, hc⟩ := h.exists_cons
  have hstart : ¬isNameStart c = true := fun hstart => not_isDigit_of_isNameStart hstart hc
  refine ⟨.numeral h, fun u other hu hle => ?_, fun k => ⟨?_, ?_⟩, fun name => ⟨?_, ?_⟩, fun digits => ⟨?_, ?_⟩,
    ⟨?_, ?_⟩⟩
  · exact hlongest u other (hu.numeral_of_isDigit (head?_eq_of_le hle hu.ne_nil) hc) hle
  · rintro rfl
    nomatch h
  · intro heq
    exact absurd heq (ne_keyword_text hstart k)
  · rintro rfl
    nomatch h
  · rintro ⟨-, ⟨d, hd, hname⟩, -⟩
    cases hd
    exact absurd hname hstart
  · intro ht
    generalize c :: rest = chars at h
    cases h with
    | whole _ => cases ht
    | fraction _ _ => cases ht
    | bigInteger hdigits =>
        obtain rfl := String.ofList_injective (Token.bigInteger.inj ht)
        exact ⟨hdigits, rfl⟩
  · rintro ⟨-, heq⟩
    rw [heq] at h
    exact h.eq_bigInteger.2
  · rintro ⟨x, rfl⟩
    refine ⟨⟨c, rfl, hc⟩, fun digits heq => ?_⟩
    rw [heq] at h
    cases h.eq_bigInteger.2
  · rintro ⟨-, hnone⟩
    rcases h.number_or with hx | ⟨digits, heq⟩
    · exact hx
    · exact absurd heq (hnone digits)

theorem munches_of_isDigit {c : Char} {rest chars behind : List Char} {t : Token} (hc : c.isDigit = true)
    (h : lexeme? (c :: rest) = some (t, chars)) (htext : c :: rest = chars ++ behind) : Munches t chars behind := by
  have hwhole : IsDigits ((c :: rest).takeWhile Char.isDigit) :=
    ⟨by simp [hc], fun d hd => of_mem_takeWhile hd⟩
  have hstops := stops_dropWhile Char.isDigit (c :: rest)
  have hsplit : (c :: rest).takeWhile Char.isDigit ++ (c :: rest).dropWhile Char.isDigit = c :: rest :=
    List.takeWhile_append_dropWhile
  simp only [lexeme?, hc, if_true] at h
  generalize (c :: rest).takeWhile Char.isDigit = whole at *
  generalize (c :: rest).dropWhile Char.isDigit = after at *
  rw [htext] at hsplit
  split at h
  · cases h
    refine (SpellsNumeral.bigInteger hwhole).munches fun u other hu hle => ?_
    rw [← hsplit] at hle
    rcases hu.le hwhole.2 hstops hle with hle | ⟨_, -, rfl⟩ | ⟨_, _, -, hdot, -⟩
    · exact hle.trans (List.prefix_append _ _)
    · exact List.prefix_refl _
    · cases hdot
  · rename_i more
    have hrun : ∀ d ∈ more.takeWhile Char.isDigit, d.isDigit = true := fun d hd => of_mem_takeWhile hd
    have hle_run : ∀ fraction rest, IsDigits fraction → '.' :: more = '.' :: (fraction ++ rest) →
        fraction <+: more.takeWhile Char.isDigit := by
      intro fraction rest hfraction hdot
      refine le_run (stops_dropWhile Char.isDigit more) hfraction.2 ?_
      rw [List.takeWhile_append_dropWhile, (List.cons.inj hdot).2]
      exact List.prefix_append _ _
    split at h
    · rename_i hempty
      cases h
      refine (SpellsNumeral.whole hwhole).munches fun u other hu hle => ?_
      rw [← hsplit] at hle
      rcases hu.le hwhole.2 hstops hle with hle | ⟨_, hn, -⟩ | ⟨fraction, rest, hfraction, hdot, -⟩
      · exact hle
      · cases hn
      · have hle := hle_run fraction rest hfraction hdot
        rw [List.isEmpty_iff.mp hempty, List.prefix_nil] at hle
        exact absurd hle hfraction.1
    · rename_i hempty
      cases h
      have hfraction : IsDigits (more.takeWhile Char.isDigit) := ⟨fun h => hempty (List.isEmpty_iff.mpr h), hrun⟩
      refine (SpellsNumeral.fraction hwhole hfraction).munches fun u other hu hle => ?_
      rw [← hsplit] at hle
      rcases hu.le hwhole.2 hstops hle with hle | ⟨_, hn, -⟩ | ⟨fraction, rest, hother, hdot, rfl⟩
      · exact hle.trans (List.prefix_append _ _)
      · cases hn
      · rw [List.prefix_append_right_inj, List.cons_prefix_cons]
        exact ⟨rfl, hle_run fraction rest hother hdot⟩
  · rename_i hn hdot
    cases h
    refine (SpellsNumeral.whole hwhole).munches fun u other hu hle => ?_
    rw [← hsplit] at hle
    rcases hu.le hwhole.2 hstops hle with hle | ⟨_, heq, -⟩ | ⟨_, _, -, heq, -⟩
    · exact hle
    · exact absurd heq (hn _)
    · exact absurd heq (hdot _)

/-! ## Words -/

theorem SpellsWord.isNamePart {t : Token} {chars : List Char} (h : SpellsWord t chars) :
    ∀ d ∈ chars, isNamePart d = true := by
  obtain ⟨c, rest, rfl, hc, hrest⟩ := h.exists_cons
  exact List.forall_mem_cons.mpr ⟨isNamePart_of_isNameStart hc, hrest⟩

/-- A word spells the keyword if it is one, and a name otherwise. -/
theorem spellsWord_ofWord {c : Char} {rest : List Char} (hc : isNameStart c = true)
    (hrest : ∀ d ∈ rest, isNamePart d = true) : SpellsWord (ofWord (.ofList (c :: rest))) (c :: rest) := by
  rw [ofWord]
  split
  · rename_i k hk
    have htext : c :: rest = k.text.toList := by
      rw [← ofText?_eq_some_iff.mp hk, String.toList_ofList]
    rw [htext]
    exact .keyword k
  · exact .ident hc hrest

theorem ofWord_eq_keyword_iff {word : String} {k : Keyword} : ofWord word = .keyword k ↔ word = k.text := by
  rw [ofWord, ← ofText?_eq_some_iff]
  split
  · rename_i hk
    rw [hk]
    exact ⟨fun h => congrArg some (Token.keyword.inj h), fun h => congrArg Token.keyword (Option.some.inj h)⟩
  · rename_i hnone
    rw [hnone]
    exact ⟨(fun h => by cases h), (fun h => by cases h)⟩

theorem ofWord_eq_ident_iff {word name : String} :
    ofWord word = .ident name ↔ word = name ∧ ∀ k : Keyword, word ≠ k.text := by
  rw [ofWord]
  split
  · rename_i k hk
    exact ⟨(fun h => by cases h), fun h => absurd (ofText?_eq_some_iff.mp hk) (h.2 k)⟩
  · rename_i hnone
    refine ⟨fun h => ⟨Token.ident.inj h, fun k hk => ?_⟩, fun h => congrArg Token.ident h.1⟩
    rw [hk, ofText?_text] at hnone
    cases hnone

theorem ofList_eq_iff {chars : List Char} {word : String} : String.ofList chars = word ↔ chars = word.toList := by
  constructor
  · rintro rfl
    exact String.toList_ofList.symm
  · rintro rfl
    exact String.ofList_toList

theorem munches_of_isNameStart {c : Char} {rest chars behind : List Char} {t : Token}
    (hc : isNameStart c = true) (h : lexeme? (c :: rest) = some (t, chars)) (htext : c :: rest = chars ++ behind) :
    Munches t chars behind := by
  have hdigit := not_isDigit_of_isNameStart hc
  simp only [lexeme?, hdigit, hc, if_true, Bool.false_eq_true, if_false] at h
  have hstops := stops_dropWhile isNamePart rest
  have hsplit := List.takeWhile_append_dropWhile (p := isNamePart) (l := rest)
  rw [List.takeWhile_cons_of_pos (isNamePart_of_isNameStart hc)] at h
  have hrun : ∀ d ∈ rest.takeWhile isNamePart, isNamePart d = true := fun d hd => of_mem_takeWhile hd
  generalize rest.takeWhile isNamePart = run at *
  generalize rest.dropWhile isNamePart = after at *
  obtain ⟨rfl, rfl⟩ := Prod.mk.inj (Option.some.inj h)
  refine ⟨.word (spellsWord_ofWord hc hrun), fun u other hu hle => ?_, fun k => ?_, fun name => ?_, fun digits => ?_,
    ?_⟩
  · have hword := hu.word_of_isNameStart (head?_eq_of_le hle hu.ne_nil) hc
    rw [← htext, ← hsplit, ← List.cons_append] at hle
    exact le_run hstops hword.isNamePart hle
  · rw [ofWord_eq_keyword_iff, ofList_eq_iff]
  · rw [ofWord_eq_ident_iff, ofList_eq_iff]
    refine and_congr_right fun _ => ⟨fun h => ⟨⟨c, rfl, hc⟩, fun k => ?_⟩, fun h k => ?_⟩
    · exact fun heq => h k (ofList_eq_iff.mpr heq)
    · exact fun heq => h.2 k (ofList_eq_iff.mp heq)
  · constructor
    · intro ht
      have hword := spellsWord_ofWord hc hrun
      rw [ht] at hword
      generalize c :: run = chars at hword
      cases hword
    · rintro ⟨hdigits, heq⟩
      exact absurd heq (ne_digits_append hdigit hdigits)
  · constructor
    · rintro ⟨x, hx⟩
      have hword := spellsWord_ofWord hc hrun
      rw [hx] at hword
      generalize c :: run = chars at hword
      cases hword
    · rintro ⟨⟨d, hd, hisDigit⟩, -⟩
      cases hd
      exact absurd hisDigit hdigit

/-! ## Marks -/

/-- Of two marks one of which begins with the other, the longer stands first. -/
theorem pairwise_all : Punctuation.all.Pairwise fun p q => p.chars.isPrefixOf q.chars = false := by decide

theorem mem_all (p : Punctuation) : p ∈ Punctuation.all := by
  cases p <;> decide

/-- The first character of a mark is a mark. -/
theorem exists_mark_singleton (p : Punctuation) {c : Char} {rest : List Char} (h : p.chars = c :: rest) :
    ∃ q : Punctuation, q.chars = [c] := by
  have hall : ∀ p ∈ Punctuation.all, ∃ q ∈ Punctuation.all, q.chars = p.chars.take 1 := by decide
  obtain ⟨q, -, hq⟩ := hall p (mem_all p)
  rw [h] at hq
  exact ⟨q, hq⟩

/-- The first mark that the text begins with is the longest. -/
theorem le_of_find? {text : List Char} {p q : Punctuation}
    (h : Punctuation.all.find? (fun p => p.chars.isPrefixOf text) = some p) (hq : q.chars <+: text) :
    q.chars <+: p.chars := by
  obtain ⟨hp, before, after, hall, hbefore⟩ := List.find?_eq_some_iff_append.mp h
  have hmem := mem_all q
  have hpairwise := pairwise_all
  rw [hall] at hmem hpairwise
  rw [List.isPrefixOf_iff_prefix] at hp
  rw [List.mem_append, List.mem_cons] at hmem
  rcases hmem with hmem | rfl | hmem
  · have hnot := hbefore q hmem
    rw [List.isPrefixOf_iff_prefix.mpr hq] at hnot
    cases hnot
  · exact List.prefix_refl _
  · have hnot := (List.pairwise_cons.mp (List.pairwise_append.mp hpairwise).2.1).1 q hmem
    rcases List.prefix_or_prefix_of_prefix hq hp with hle | hle
    · exact hle
    · rw [List.isPrefixOf_iff_prefix.mpr hle] at hnot
      cases hnot

theorem munches_mark {p : Punctuation} {behind : List Char}
    (hlongest : ∀ q : Punctuation, q.chars <+: p.chars ++ behind → q.chars <+: p.chars) :
    Munches (.mark p) p.chars behind := by
  obtain ⟨c, rest, hchars, hdigit, hstart, -⟩ := exists_mark_chars p
  refine ⟨.mark p, fun u other hu hle => ?_, fun k => ⟨nofun, ?_⟩, fun name => ⟨nofun, ?_⟩, fun digits => ⟨nofun, ?_⟩,
    ⟨?_, ?_⟩⟩
  · have hhead : other.head? = some c := by
      rw [head?_eq_of_le hle hu.ne_nil, hchars]
      rfl
    obtain ⟨q, rfl, rfl⟩ := hu.exists_mark hhead hdigit hstart
    exact hlongest q hle
  · intro heq
    rw [hchars] at heq
    exact absurd heq (ne_keyword_text hstart k)
  · rintro ⟨-, ⟨d, hd, hname⟩, -⟩
    rw [hchars] at hd
    cases hd
    exact absurd hname hstart
  · rintro ⟨hdigits, heq⟩
    rw [hchars] at heq
    exact absurd heq (ne_digits_append hdigit hdigits)
  · rintro ⟨x, hx⟩
    cases hx
  · rintro ⟨⟨d, hd, hisDigit⟩, -⟩
    rw [hchars] at hd
    cases hd
    exact absurd hisDigit hdigit

/-! ## The scanner at one place -/

theorem munches_of_lexeme? {c : Char} {rest chars behind : List Char} {t : Token}
    (h : lexeme? (c :: rest) = some (t, chars)) (htext : c :: rest = chars ++ behind) : Munches t chars behind := by
  by_cases hdigit : c.isDigit = true
  · exact munches_of_isDigit hdigit h htext
  · by_cases hstart : isNameStart c = true
    · exact munches_of_isNameStart hstart h htext
    · simp only [lexeme?, hdigit, hstart, Bool.false_eq_true, if_false, Option.map_eq_some_iff] at h
      obtain ⟨p, hp, heq⟩ := h
      obtain ⟨rfl, rfl⟩ := Prod.mk.inj heq
      rw [htext] at hp
      exact munches_mark fun q hq => le_of_find? hp hq

theorem stray_of_lexeme? {c : Char} {rest : List Char} (hblank : ¬isBlank c = true) (hcomment : c ≠ ';')
    (h : lexeme? (c :: rest) = none) : Stray c := by
  have hdigit : ¬c.isDigit = true := by
    intro hc
    simp only [lexeme?, hc, if_true] at h
    split at h
    · cases h
    · split at h <;> cases h
    · cases h
  have hstart : ¬isNameStart c = true := by
    intro hc
    simp only [lexeme?, hdigit, hc, if_true, Bool.false_eq_true, if_false] at h
    cases h
  refine ⟨hblank, hcomment, fun t more hspells => ?_⟩
  obtain ⟨p, -, hchars⟩ := hspells.exists_mark rfl hdigit hstart
  obtain ⟨q, hq⟩ := exists_mark_singleton p hchars.symm
  simp only [lexeme?, hdigit, hstart, Bool.false_eq_true, if_false, Option.map_eq_none_iff,
    List.find?_eq_none] at h
  refine h q (mem_all q) ?_
  rw [hq]
  exact List.isPrefixOf_iff_prefix.mpr ⟨rest, rfl⟩

/-! ## The whole text -/

/-- What stands between two pieces, or before the first and after the last: blanks, and comments that go on to
the end of their line. `behind` is the text after it. -/
inductive Gap : (gap behind : List Char) → Prop
  | nil {behind : List Char} : Gap [] behind
  | blank {c : Char} {gap behind : List Char} : isBlank c = true → Gap gap behind → Gap (c :: gap) behind
  | comment {text gap behind : List Char} : '\n' ∉ text → Stops (· ≠ '\n') (gap ++ behind) → Gap gap behind →
      Gap (';' :: text ++ gap) behind

/-- What a piece is where the characters stand before `behind`. -/
inductive Piece.Stands : Piece → (chars behind : List Char) → Prop
  | token {t : Token} {chars behind : List Char} : Munches t chars behind → Stands (.token t) chars behind
  | unexpected {c : Char} {behind : List Char} : Stray c → Stands .unexpected [c] behind

/-- The text from byte `start` on is cut into the pieces, each after a gap, with one more gap at the end. -/
inductive CutInto : (start : Nat) → (text : List Char) → List (Spanned Piece) → Prop
  | done {start : Nat} {gap : List Char} : Gap gap [] → CutInto start gap []
  | piece {start : Nat} {gap chars behind : List Char} {piece : Piece} {span : Span}
      {pieces : List (Spanned Piece)} : Gap gap (chars ++ behind) → piece.Stands chars behind →
      span = ⟨start + byteLength gap, start + byteLength gap + byteLength chars⟩ → CutInto span.stop behind pieces →
      CutInto start (gap ++ (chars ++ behind)) (⟨piece, span⟩ :: pieces)

namespace CutInto

variable {start : Nat} {text : List Char} {pieces : List (Spanned Piece)}

/-- More text in front of the first gap. -/
theorem before {front : List Char} (hfront : ∀ gap behind, gap ++ behind = text → Gap gap behind →
    Gap (front ++ gap) behind) (h : CutInto (start + byteLength front) text pieces) :
    CutInto start (front ++ text) pieces := by
  cases h with
  | done hgap => exact .done (hfront _ [] (List.append_nil _) hgap)
  | piece hgap hstands hspan hrest =>
      rw [← List.append_assoc]
      refine .piece (hfront _ _ rfl hgap) hstands ?_ hrest
      rw [hspan, byteLength_append, Nat.add_assoc start]

theorem blank {c : Char} (hc : isBlank c = true) (h : CutInto (start + c.utf8Size) text pieces) :
    CutInto start (c :: text) pieces :=
  @before _ _ _ [c] (fun _ _ _ hgap => .blank hc hgap) h

theorem comment {inside : List Char} (hinside : '\n' ∉ inside) (htext : Stops (· ≠ '\n') text)
    (h : CutInto (start + byteLength (';' :: inside)) text pieces) :
    CutInto start (';' :: inside ++ text) pieces :=
  before (fun _ _ heq hgap => .comment hinside (heq ▸ htext) hgap) h

theorem token {t : Token} {chars : List Char} (ht : Munches t chars text)
    (h : CutInto (start + byteLength chars) text pieces) :
    CutInto start (chars ++ text) (⟨.token t, ⟨start, start + byteLength chars⟩⟩ :: pieces) :=
  .piece .nil (.token ht) rfl h

theorem unexpected {c : Char} (hc : Stray c) (h : CutInto (start + c.utf8Size) text pieces) :
    CutInto start (c :: text) (⟨.unexpected, ⟨start, start + c.utf8Size⟩⟩ :: pieces) :=
  .piece .nil (.unexpected hc) rfl h

end CutInto

theorem cutInto_piecesFrom (start : Nat) (text : List Char) : CutInto start text (piecesFrom start text) := by
  induction text using pieces_induction generalizing start with
  | nil => exact .done .nil
  | blank c rest hblank ih =>
      rw [piecesFrom_blank hblank]
      exact .blank hblank (ih _)
  | comment rest ih =>
      have hinside : '\n' ∉ rest.takeWhile (· ≠ '\n') := by
        intro hmem
        have hne := of_mem_takeWhile hmem
        cases hne
      have hcut := CutInto.comment hinside (stops_dropWhile _ rest) (ih (start + byteLength (';' :: rest.takeWhile (· ≠ '\n'))))
      rw [List.cons_append, List.takeWhile_append_dropWhile] at hcut
      rw [piecesFrom_comment, Nat.add_assoc start]
      exact hcut
  | lexeme c rest t chars more hblank hcomment hlexeme htext ih =>
      rw [piecesFrom_lexeme hblank hcomment hlexeme htext, htext]
      exact .token (munches_of_lexeme? hlexeme htext) (ih _)
  | unexpected c rest hblank hcomment hlexeme ih =>
      rw [piecesFrom_unexpected hblank hcomment hlexeme]
      exact .unexpected (stray_of_lexeme? hblank hcomment hlexeme) (ih _)

theorem Piece.Stands.ne_nil {piece : Piece} {chars behind : List Char} (h : piece.Stands chars behind) :
    chars ≠ [] := by
  cases h with
  | token ht => exact ht.spells.ne_nil
  | unexpected _ => exact List.cons_ne_nil _ _

theorem byteLength_pos {chars : List Char} (h : chars ≠ []) : 0 < byteLength chars := by
  obtain ⟨c, rest, rfl⟩ := List.exists_cons_of_ne_nil h
  have := c.utf8Size_pos
  rw [byteLength]
  omega

namespace CutInto

variable {start : Nat} {text : List Char} {pieces : List (Spanned Piece)} {p : Spanned Piece}

/-- Every piece stands in the text, between what is in front of it and what is behind it. -/
theorem exists_append (h : CutInto start text pieces) (hp : p ∈ pieces) :
    ∃ front chars behind, text = front ++ (chars ++ behind) ∧ chars ≠ [] ∧
      p.span = ⟨start + byteLength front, start + byteLength front + byteLength chars⟩ := by
  induction h with
  | done _ => cases hp
  | @piece start gap chars behind piece span pieces _ hstands hspan _ ih =>
      rcases List.mem_cons.mp hp with rfl | hp
      · exact ⟨gap, chars, behind, rfl, hstands.ne_nil, hspan⟩
      · obtain ⟨front, chars', behind', rfl, hchars', hp⟩ := ih hp
        refine ⟨gap ++ (chars ++ front), chars', behind', by simp only [List.append_assoc], hchars', ?_⟩
        rw [hp, hspan]
        simp only [byteLength_append, Nat.add_assoc]

theorem start_le (h : CutInto start text pieces) (hp : p ∈ pieces) : start ≤ p.span.start := by
  obtain ⟨front, _, _, -, -, hspan⟩ := h.exists_append hp
  rw [hspan]
  exact Nat.le_add_right _ _

theorem start_lt_stop (h : CutInto start text pieces) (hp : p ∈ pieces) : p.span.start < p.span.stop := by
  obtain ⟨_, _, _, -, hchars, hspan⟩ := h.exists_append hp
  rw [hspan]
  exact Nat.lt_add_of_pos_right (byteLength_pos hchars)

theorem pairwise (h : CutInto start text pieces) : pieces.Pairwise fun p q => p.span.stop ≤ q.span.start := by
  induction h with
  | done _ => exact .nil
  | piece _ _ _ hrest ih => exact .cons (fun _ hq => hrest.start_le hq) ih

end CutInto

/-- The byte after the front of a text is the start of a character, or the end of the text. -/
theorem isValid_of_append {source : String} {front behind : List Char} (h : source.toList = front ++ behind) :
    String.Pos.Raw.IsValid source ⟨byteLength front⟩ := by
  refine String.Pos.Raw.isValid_iff_exists_append.mpr ⟨.ofList front, .ofList behind, ?_, ?_⟩
  · rw [← String.ofList_append, ← h, String.ofList_toList]
  · rw [String.rawEndPos, utf8ByteSize_ofList]

/-- A source text is made of the pieces, which stand in it one after the other, and of what separates them. -/
structure Partitions (source : String) (pieces : List (Spanned Piece)) : Prop where
  cut : CutInto 0 source.toList pieces
  ordered : pieces.Pairwise fun p q => p.span.stop ≤ q.span.start
  nonempty : ∀ p ∈ pieces, p.span.start < p.span.stop
  inside : ∀ p ∈ pieces, p.span.stop ≤ source.utf8ByteSize
  bounds : ∀ p ∈ pieces,
    String.Pos.Raw.IsValid source ⟨p.span.start⟩ ∧ String.Pos.Raw.IsValid source ⟨p.span.stop⟩

theorem CutInto.partitions {source : String} {pieces : List (Spanned Piece)}
    (h : CutInto 0 source.toList pieces) : Partitions source pieces := by
  refine ⟨h, h.pairwise, fun p hp => h.start_lt_stop hp, fun p hp => ?_, fun p hp => ?_⟩
  · obtain ⟨front, chars, behind, htext, -, hspan⟩ := h.exists_append hp
    have hstop : 0 + byteLength front + byteLength chars ≤ byteLength source.toList := by
      rw [htext, byteLength_append, byteLength_append]
      omega
    rw [hspan, ← byteLength_toList]
    exact hstop
  · obtain ⟨front, chars, behind, htext, -, hspan⟩ := h.exists_append hp
    rw [hspan]
    have hstop : source.toList = (front ++ chars) ++ behind := by rw [htext, List.append_assoc]
    have hvalid := isValid_of_append hstop
    rw [byteLength_append] at hvalid
    rw [Nat.zero_add]
    exact ⟨isValid_of_append htext, hvalid⟩

/-- The tokens of a text and its unexpected characters, taken together in the order in which they stand, are the
longest lexemes, character by character what is no part of one, and between them there are blanks and comments. -/
theorem scan_partitions (source : String) :
    ∃ pieces, scan source = .ofPieces pieces ∧ Partitions source pieces :=
  ⟨piecesFrom 0 source.toList, rfl, (cutInto_piecesFrom 0 source.toList).partitions⟩

end Sable.Token
