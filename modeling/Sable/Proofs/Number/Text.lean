import Mathlib.Data.List.TakeWhile
import Sable.Proofs.Number.Decimal
import Sable.Proofs.Token.Pieces

/-!
The texts of numbers. A text in either layout can be read as the number that is written (`denoted_text`), so different
numbers have different texts (`numberText_injective`); and what such a text is made of (`NumberText`).
-/

namespace Sable.Decimal

open Binary64 (Canonical)

/-! ## The written decimal is the number

Both layouts are read by one rule: a point divides whole from fraction, and a power of ten may follow an `e`. -/

/-- The number that a mantissa, with the digits behind its point, is. -/
def mantissa (cs : List Char) : ℚ :=
  let fraction := (cs.dropWhile (· != '.')).drop 1
  Nat.ofDigitChars 10 (cs.takeWhile (· != '.') ++ fraction) 0 / 10 ^ fraction.length

/-- The whole number that is written, be it a negative one. -/
def wholeNumber : List Char → ℤ
  | '-' :: cs => -(Nat.ofDigitChars 10 cs 0)
  | cs => Nat.ofDigitChars 10 cs 0

/-- The number that a text without a sign is. -/
def denoted (cs : List Char) : ℚ :=
  mantissa (cs.takeWhile (· != 'e')) * 10 ^ wholeNumber ((cs.dropWhile (· != 'e')).drop 1)

/-- What the characters of a text are but for a point, an `e` and the sign behind it. -/
def AreDigits (cs : List Char) : Prop := ∀ c ∈ cs, c.isDigit = true

theorem ne_of_isDigit {c d : Char} (h : c.isDigit = true) (hd : d.isDigit = false) : c ≠ d := fun heq => by
  rw [heq, hd] at h
  cases h

theorem areDigits_toDigits (n : Nat) : AreDigits (Nat.toDigits 10 n) :=
  fun _ hc => Nat.isDigit_of_mem_toDigits (by decide) (by decide) hc

theorem areDigits_replicate (n : Nat) : AreDigits (List.replicate n '0') := fun c hc => by
  rw [List.eq_of_mem_replicate hc]
  decide

theorem areDigits_zero : AreDigits ['0'] := areDigits_replicate 1

theorem AreDigits.append {ds cs : List Char} (h : AreDigits ds) (h' : AreDigits cs) : AreDigits (ds ++ cs) :=
  fun c hc => (List.mem_append.mp hc).elim (h c) (h' c)

theorem AreDigits.take {ds : List Char} (h : AreDigits ds) (n : Nat) : AreDigits (ds.take n) :=
  fun c hc => h c (List.mem_of_mem_take hc)

theorem AreDigits.drop {ds : List Char} (h : AreDigits ds) (n : Nat) : AreDigits (ds.drop n) :=
  fun c hc => h c (List.mem_of_mem_drop hc)

theorem AreDigits.not_mem_e {ds : List Char} (h : AreDigits ds) : 'e' ∉ ds :=
  fun hmem => absurd (h 'e' hmem) (by decide)

theorem AreDigits.bne_point {ds : List Char} (h : AreDigits ds) : ∀ c ∈ ds, (c != '.') = true :=
  fun c hc => bne_iff_ne.mpr (ne_of_isDigit (h c hc) rfl)

theorem mantissa_digits {ds : List Char} (h : AreDigits ds) : mantissa ds = Nat.ofDigitChars 10 ds 0 := by
  have htake := List.takeWhile_eq_self_iff.mpr h.bne_point
  have hdrop := List.dropWhile_eq_nil_iff.mpr h.bne_point
  simp [mantissa, htake, hdrop]

theorem mantissa_point {whole : List Char} (h : AreDigits whole) (fraction : List Char) :
    mantissa (whole ++ '.' :: fraction) = Nat.ofDigitChars 10 (whole ++ fraction) 0 / 10 ^ fraction.length := by
  have htake : (whole ++ '.' :: fraction).takeWhile (· != '.') = whole := by
    rw [Token.takeWhile_append_of_stop (by decide), List.takeWhile_eq_self_iff.mpr h.bne_point]
  have hdrop : (whole ++ '.' :: fraction).dropWhile (· != '.') = '.' :: fraction := by
    rw [Token.dropWhile_append_of_stop (by decide), List.dropWhile_eq_nil_iff.mpr h.bne_point, List.nil_append]
  simp [mantissa, htake, hdrop]

theorem bne_e {cs : List Char} (h : 'e' ∉ cs) : ∀ c ∈ cs, (c != 'e') = true :=
  fun _ hc => bne_iff_ne.mpr fun heq => h (heq ▸ hc)

theorem denoted_plain {cs : List Char} (h : 'e' ∉ cs) : denoted cs = mantissa cs := by
  have htake := List.takeWhile_eq_self_iff.mpr (bne_e h)
  have hdrop := List.dropWhile_eq_nil_iff.mpr (bne_e h)
  simp [denoted, htake, hdrop, wholeNumber, Nat.ofDigitChars]

theorem denoted_scaled {cs : List Char} (h : 'e' ∉ cs) (rest : List Char) :
    denoted (cs ++ 'e' :: rest) = mantissa cs * 10 ^ wholeNumber rest := by
  have htake : (cs ++ 'e' :: rest).takeWhile (· != 'e') = cs := by
    rw [Token.takeWhile_append_of_stop (by decide), List.takeWhile_eq_self_iff.mpr (bne_e h)]
  have hdrop : (cs ++ 'e' :: rest).dropWhile (· != 'e') = 'e' :: rest := by
    rw [Token.dropWhile_append_of_stop (by decide), List.dropWhile_eq_nil_iff.mpr (bne_e h), List.nil_append]
  simp [denoted, htake, hdrop]

theorem wholeNumber_toString (n : Int) : wholeNumber (toString n).toList = n := by
  have hrepr : toString n = n.repr := rfl
  rw [hrepr, Int.repr_eq_if]
  split
  · rename_i hn
    rw [Nat.toList_repr]
    have hdigits := areDigits_toDigits n.toNat
    have hvalue := Nat.ofDigitChars_ten_toDigits (n := n.toNat)
    generalize Nat.toDigits 10 n.toNat = ds at hdigits hvalue
    unfold wholeNumber
    split
    · exact absurd (hdigits '-' List.mem_cons_self) (by decide)
    · rw [hvalue]
      omega
  · rename_i hn
    rw [String.toList_append, Nat.toList_repr]
    have hminus : ("-" : String).toList = ['-'] := rfl
    rw [hminus, List.singleton_append, wholeNumber, Nat.ofDigitChars_ten_toDigits]
    omega

/-- A layout marks a whole number with nothing or with a fraction of zero. -/
def Layout.MarksWhole (layout : Layout) : Prop := layout.wholeMark = "" ∨ layout.wholeMark = ".0"

theorem marksWhole_source : Layout.source.MarksWhole := .inr rfl

theorem marksWhole_value : Layout.value.MarksWhole := .inl rfl

/-- Digits before and behind a point. -/
theorem denoted_point {whole fraction : List Char} (h : AreDigits whole) (h' : AreDigits fraction) :
    denoted (whole ++ '.' :: fraction) = Nat.ofDigitChars 10 (whole ++ fraction) 0 / 10 ^ fraction.length := by
  rw [denoted_plain (by simp [h.not_mem_e, h'.not_mem_e]), mantissa_point h]

theorem denoted_whole {ds : List Char} {layout : Layout} (h : layout.MarksWhole) (hds : AreDigits ds) :
    denoted (ds ++ layout.wholeMark.toList) = Nat.ofDigitChars 10 ds 0 := by
  rcases h with h | h
  · rw [h, String.toList_empty, List.append_nil, denoted_plain hds.not_mem_e, mantissa_digits hds]
  · have hmark : (".0" : String).toList = ['.', '0'] := rfl
    rw [h, hmark, denoted_point hds areDigits_zero, Nat.ofDigitChars_append]
    simp [Nat.ofDigitChars]

/-- The first digit before a point, the others behind it. -/
theorem mantissa_leading {ds : List Char} (h : AreDigits ds) (hne : 0 < ds.length) :
    mantissa (ds.take 1 ++ if (ds.drop 1).isEmpty then [] else '.' :: ds.drop 1) =
      Nat.ofDigitChars 10 ds 0 / 10 ^ (ds.length - 1) := by
  split
  · rename_i hempty
    rw [List.isEmpty_iff, List.drop_eq_nil_iff] at hempty
    have hone : ds.length - 1 = 0 := by omega
    rw [List.append_nil, List.take_of_length_le hempty, mantissa_digits h, hone, pow_zero, div_one]
  · rw [mantissa_point (h.take 1), List.take_append_drop, List.length_drop]

/-- The text of a decimal is read as the number that the decimal is. -/
theorem denoted_text {layout : Layout} (h : layout.MarksWhole) (d : Decimal) :
    denoted (d.text layout).toList = d.value := by
  have hds := areDigits_toDigits d.digits
  have hvalue := Nat.ofDigitChars_ten_toDigits (n := d.digits)
  have hlength : 0 < (Nat.toDigits 10 d.digits).length := List.length_pos_iff.mpr Nat.toDigits_ne_nil
  simp only [text]
  generalize Nat.toDigits 10 d.digits = ds at hds hvalue hlength
  set power := d.exponent + ds.length - 1 with hpower
  have hfraction {n : Nat} (hn : n = -d.exponent) : (d.digits : ℚ) / 10 ^ n = d.value := by
    rw [value, ← neg_neg d.exponent, ← hn, zpow_neg, zpow_natCast, div_eq_mul_inv]
  split
  · split
    · -- a whole number
      have htext : (String.ofList ds ++ zeros d.exponent ++ layout.wholeMark).toList =
          ds ++ List.replicate d.exponent.toNat '0' ++ layout.wholeMark.toList := by simp [zeros]
      have hexponent : ((d.exponent.toNat : Int)) = d.exponent := by omega
      rw [htext, denoted_whole h (hds.append (areDigits_replicate _)), Nat.ofDigitChars_append,
        Nat.ofDigitChars_replicate_zero, hvalue, value, ← hexponent, zpow_natCast]
      push_cast
      exact mul_comm _ _
    · split
      · -- the point stands among the digits
        have htext : (String.ofList (ds.take (power + 1).toNat) ++ "." ++
              String.ofList (ds.drop (power + 1).toNat)).toList =
            ds.take (power + 1).toNat ++ '.' :: ds.drop (power + 1).toNat := by simp
        rw [htext, denoted_point (hds.take _) (hds.drop _), List.take_append_drop, hvalue, List.length_drop]
        exact hfraction (by omega)
      · -- zeros stand between the point and the digits
        have htext : ("0." ++ zeros (-power - 1) ++ String.ofList ds).toList =
            ['0'] ++ '.' :: (List.replicate (-power - 1).toNat '0' ++ ds) := by simp [zeros]
        have hstart : Nat.ofDigitChars 10 ['0'] 0 = 0 := rfl
        rw [htext, denoted_point areDigits_zero ((areDigits_replicate _).append hds), List.length_append,
          List.length_replicate, Nat.ofDigitChars_append, Nat.ofDigitChars_append, Nat.ofDigitChars_replicate_zero,
          hstart, mul_zero, hvalue]
        exact hfraction (by omega)
  · -- one digit stands before the point
    have htext : (String.ofList (ds.take 1) ++
          (if (ds.drop 1).isEmpty then "" else "." ++ String.ofList (ds.drop 1)) ++ "e" ++ toString power).toList =
        (ds.take 1 ++ if (ds.drop 1).isEmpty then [] else '.' :: ds.drop 1) ++ 'e' :: (toString power).toList := by
      split <;> simp
    have hplain : 'e' ∉ ds.take 1 ++ if (ds.drop 1).isEmpty then [] else '.' :: ds.drop 1 := by
      split <;> simp [(hds.take 1).not_mem_e, -List.drop_one, (hds.drop 1).not_mem_e]
    have hexponent : power = d.exponent + ((ds.length - 1 : Nat) : Int) := by omega
    rw [htext, denoted_scaled hplain, mantissa_leading hds hlength, wholeNumber_toString, hvalue, value, hexponent,
      zpow_add₀ (by norm_num), zpow_natCast]
    field_simp

/-- Different numbers have different texts. -/
theorem text_shortest_injective {layout : Layout} (h : layout.MarksWhole) {m m' : Nat} {e e' : Int}
    (hm : Canonical m e) (hm' : Canonical m' e') (heq : (shortest m e).text layout = (shortest m' e').text layout) :
    m = m' ∧ e = e' := by
  refine value_shortest_injective hm hm' ?_
  rw [← denoted_text h, heq, denoted_text h]

/-! ## Characters of a text -/

/-- The characters that the text of a number without a sign has. -/
def isMark (c : Char) : Bool := c.isDigit || c == '.' || c == 'e' || c == '-'

/-- Characters of the text of a number, a digit first. -/
structure Reads (s : String) : Prop where
  leads : ∃ c cs, s.toList = c :: cs ∧ c.isDigit = true
  marks : ∀ c ∈ s.toList, isMark c = true

theorem Reads.append {s t : String} (h : Reads s) (ht : ∀ c ∈ t.toList, isMark c = true) : Reads (s ++ t) where
  leads := by
    obtain ⟨c, cs, hs, hc⟩ := h.leads
    exact ⟨c, cs ++ t.toList, by rw [String.toList_append, hs, List.cons_append], hc⟩
  marks c hc := (List.mem_append.mp (String.toList_append ▸ hc)).elim (h.marks c) (ht c)

theorem AreDigits.marks {ds : List Char} (h : AreDigits ds) : ∀ c ∈ (String.ofList ds).toList, isMark c = true := by
  intro c hc
  rw [String.toList_ofList] at hc
  simp [isMark, h c hc]

theorem AreDigits.reads {ds : List Char} (h : AreDigits ds) (hne : ds ≠ []) : Reads (String.ofList ds) where
  leads := by
    obtain ⟨c, cs, rfl⟩ := List.exists_cons_of_ne_nil hne
    exact ⟨c, cs, String.toList_ofList, h c List.mem_cons_self⟩
  marks := h.marks

theorem marks_toString (n : Int) : ∀ c ∈ (toString n).toList, isMark c = true := by
  have hdigits (n : Nat) : ∀ c ∈ n.repr.toList, isMark c = true := by
    have := (areDigits_toDigits n).marks
    rwa [String.toList_ofList, ← Nat.toList_repr] at this
  have hrepr : toString n = n.repr := rfl
  rw [hrepr, Int.repr_eq_if]
  split
  · exact hdigits _
  · intro c hc
    rcases List.mem_append.mp (String.toList_append ▸ hc) with hc | hc
    · obtain rfl : c = '-' := by simpa using hc
      rfl
    · exact hdigits _ c hc

theorem Layout.MarksWhole.marks {layout : Layout} (h : layout.MarksWhole) :
    ∀ c ∈ layout.wholeMark.toList, isMark c = true := by
  rcases h with h | h <;> rw [h] <;> exact List.all_eq_true.mp (by decide)

theorem reads_text {layout : Layout} (h : layout.MarksWhole) (d : Decimal) : Reads (d.text layout) := by
  have hds := areDigits_toDigits d.digits
  have hne : Nat.toDigits 10 d.digits ≠ [] := Nat.toDigits_ne_nil
  have hpoint : ∀ c ∈ (".").toList, isMark c = true := List.all_eq_true.mp (by decide)
  have htake : ∀ n, 0 < n → (Nat.toDigits 10 d.digits).take n ≠ [] := fun n hn => by
    rw [ne_eq, List.take_eq_nil_iff]
    rintro (h | h)
    · omega
    · exact hne h
  have hzeros : ∀ n, ∀ c ∈ (zeros n).toList, isMark c = true := fun n => (areDigits_replicate n.toNat).marks
  simp only [text]
  split
  · split
    · exact ((hds.reads hne).append (hzeros _)).append h.marks
    · split
      · exact (((hds.take _).reads (htake _ (by omega))).append hpoint).append (hds.drop _).marks
      · exact ((areDigits_zero.reads (by decide)).append hpoint).append (hzeros _) |>.append hds.marks
  · have he : ∀ c ∈ ("e").toList, isMark c = true := List.all_eq_true.mp (by decide)
    refine ((((hds.take 1).reads (htake 1 one_pos)).append ?_).append he).append (marks_toString _)
    split
    · exact fun c hc => by simp at hc
    · intro c hc
      rcases List.mem_append.mp (String.toList_append ▸ hc) with hc | hc
      · exact hpoint c hc
      · exact (hds.drop 1).marks c hc

end Decimal

/-! ## The text of a number -/

open Decimal (Layout Reads)

/-- What the texts of numbers look like: a digit first behind a sign, or the word for what has no end. -/
inductive NumberText : String → Prop
  | finite {s : String} (h : Reads s) : NumberText s
  | negative {s : String} (h : Reads s) : NumberText ("-" ++ s)
  | infinite : NumberText "inf"
  | negativeInfinite : NumberText "-inf"

theorem numberText_of_isNaN_eq_false {layout : Layout} (h : layout.MarksWhole) {x : Float} (hx : x.isNaN = false) :
    NumberText (numberText layout x) := by
  rw [numberText]
  cases hparts : Binary64.ofFloat x with
  | nan => 
    rw [Binary64.ofFloat_eq_nan_iff.mp hparts] at hx
    cases hx
  | infinite negative =>
    cases negative
    · exact .infinite
    · exact .negativeInfinite
  | finite negative significand exponent =>
    cases negative
    · exact .finite (Decimal.reads_text h _)
    · exact .negative (Decimal.reads_text h _)

/-- The sign of a number and the text behind it. -/
def Unsigned (s : String) : Prop := s.toList.head? ≠ some '-'

theorem Decimal.Reads.unsigned {s : String} (h : Reads s) : Unsigned s := by
  obtain ⟨c, cs, hs, hc⟩ := h.leads
  rw [Unsigned, hs, List.head?_cons, ne_eq, Option.some.injEq]
  exact Decimal.ne_of_isDigit hc rfl

theorem Decimal.Reads.ne_inf {s : String} (h : Reads s) : s ≠ "inf" := by
  rintro rfl
  obtain ⟨c, cs, hs, hc⟩ := h.leads
  obtain rfl : 'i' = c := by simpa using congrArg List.head? hs
  cases hc

/-- A sign is told apart from what has none. -/
theorem signed_injective {negative negative' : Bool} {s t : String} (hs : Unsigned s) (ht : Unsigned t)
    (h : (if negative then "-" ++ s else s) = if negative' then "-" ++ t else t) : negative = negative' ∧ s = t := by
  have hminus (u : String) : ¬ Unsigned ("-" ++ u) := by simp [Unsigned]
  cases negative <;> cases negative' <;> simp only [Bool.false_eq_true, if_true, if_false] at h
  · exact ⟨rfl, h⟩
  · exact absurd (h ▸ hs) (hminus t)
  · exact absurd (h ▸ ht) (hminus s)
  · refine ⟨rfl, String.toList_injective (@List.append_cancel_left _ "-".toList _ _ ?_)⟩
    rw [← String.toList_append, h, String.toList_append]

/-- Different numbers have different texts, also where they are equal, as the two zeros are. -/
theorem numberText_injective {layout : Layout} (h : layout.MarksWhole) {x y : Float} (hx : x.isNaN = false)
    (hy : y.isNaN = false) (heq : numberText layout x = numberText layout y) : x = y := by
  have hnan {x : Float} (hx : x.isNaN = false) : Binary64.ofFloat x ≠ .nan := fun hparts => by
    rw [Binary64.ofFloat_eq_nan_iff.mp hparts] at hx
    cases hx
  have hinf : Unsigned "inf" := by simp [Unsigned]
  have hreads (significand exponent) := Decimal.reads_text h (Decimal.shortest significand exponent)
  refine Binary64.ofFloat_injective (hnan hx) ?_
  rw [numberText, numberText] at heq
  cases hp : Binary64.ofFloat x with
  | nan => exact absurd hp (hnan hx)
  | infinite negative =>
    cases hq : Binary64.ofFloat y with
    | nan => exact absurd hq (hnan hy)
    | infinite negative' =>
      rw [hp, hq] at heq
      rw [(signed_injective hinf hinf heq).1]
    | finite negative' significand' exponent' =>
      rw [hp, hq] at heq
      have hreads := hreads significand' exponent'
      exact absurd (signed_injective hinf hreads.unsigned heq).2.symm hreads.ne_inf
  | finite negative significand exponent =>
    have hreads' := hreads significand exponent
    cases hq : Binary64.ofFloat y with
    | nan => exact absurd hq (hnan hy)
    | infinite negative' =>
      rw [hp, hq] at heq
      exact absurd (signed_injective hreads'.unsigned hinf heq).2 hreads'.ne_inf
    | finite negative' significand' exponent' =>
      rw [hp, hq] at heq
      obtain ⟨hsign, htext⟩ := signed_injective hreads'.unsigned (hreads significand' exponent').unsigned heq
      obtain ⟨rfl, rfl⟩ := Decimal.text_shortest_injective h (Binary64.canonical_of_ofFloat hp)
        (Binary64.canonical_of_ofFloat hq) htext
      rw [hsign]

end Sable
