import Sable.Value
import Sable.Proofs.Legible
import Sable.Proofs.Number.Text

/-!
The texts of data are legible: numbers, truth values, `null`, and lists, objects and tagged values of them are told
apart by their texts. A tag stands behind the payload without a bracket around the two, so a payload that is tagged
itself is the one thing that stands in parentheses.
-/

namespace Sable.Value

open Token (isName EndsName)

/-! ## Data -/

mutual

/-- Whether the value is data, with names for its fields and tags. -/
def isData : Value → Bool
  | number x => !x.isNaN
  | boolean _ | bigInteger _ | null => true
  | list items => areData items
  | object fields => fieldsAreData fields
  | tagged payload tag => payload.isData && isName tag
  | sequence .. | function _ => false

def areData : List Value → Bool
  | [] => true
  | a :: rest => a.isData && areData rest

def fieldsAreData : List (String × Value) → Bool
  | [] => true
  | (name, a) :: rest => isName name && a.isData && fieldsAreData rest

end

theorem isData_of_mem {items : List Value} (h : areData items = true) : ∀ a ∈ items, a.isData = true := by
  induction items with
  | nil => nofun
  | cons a rest ih =>
    rw [areData, Bool.and_eq_true] at h
    exact List.forall_mem_cons.mpr ⟨h.1, ih h.2⟩

theorem isData_of_mem_fields {fields : List (String × Value)} (h : fieldsAreData fields = true) :
    ∀ field ∈ fields, isName field.1 = true ∧ field.2.isData = true := by
  induction fields with
  | nil => nofun
  | cons field rest ih =>
    rw [fieldsAreData, Bool.and_eq_true, Bool.and_eq_true] at h
    exact List.forall_mem_cons.mpr ⟨h.1, ih h.2⟩

/-! ## Characters of a text -/

def chars (v : Value) : List Char := v.text.toList

def isTagged : Value → Bool
  | tagged .. => true
  | _ => false

/-- A payload as it stands in front of its tag. -/
def payloadChars (payload : Value) : List Char :=
  if payload.isTagged then '(' :: (payload.chars ++ [')']) else payload.chars

theorem chars_tagged (payload : Value) (tag : String) :
    (tagged payload tag).chars = payload.payloadChars ++ ([' ', '#', ' '] ++ tag.toList) := by
  cases payload <;> simp [chars, text, payloadChars, isTagged]

theorem itemTexts_eq (items : List Value) : itemTexts items = items.map text := by
  induction items with
  | nil => rfl
  | cons a rest ih => rw [itemTexts, ih, List.map_cons]

theorem fieldTexts_eq_map (fields : List (String × Value)) :
    fieldTexts fields = fields.map fun field => field.1 ++ ": " ++ field.2.text := by
  induction fields with
  | nil => rfl
  | cons field rest ih => rw [fieldTexts, ih, List.map_cons]

theorem chars_list (items : List Value) :
    (list items).chars = '[' :: (joined chars [',', ' '] items ++ [']']) := by
  rw [chars, text, itemTexts_eq]
  simp only [String.toList_append, toList_intercalate_map]
  rfl

theorem chars_object (fields : List (String × Value)) :
    (object fields).chars = '\x7b' :: (joined (fieldChars chars) [',', ' '] fields ++ ['\x7d']) := by
  have hfield (field : String × Value) : (field.1 ++ ": " ++ field.2.text).toList = fieldChars chars field := by
    simp [fieldChars, chars]
  rw [chars, text, fieldTexts_eq_map]
  simp only [String.toList_append, toList_intercalate_map, hfield]
  rfl

/-! ## What a text begins with -/

/-- The kind of untagged data that begins with the character, if any does; numbers of both kinds begin alike. -/
def begun (c : Char) : Option Kind :=
  if c = '[' then some .list else if c = '\x7b' then some .object else if c = 't' ∨ c = 'f' then some .boolean
  else if c = 'n' then some .null else if c.isDigit ∨ c = '-' ∨ c = 'i' then some .number else none

/-- The kind of a value, numbers of both kinds being one. -/
def shape (v : Value) : Kind :=
  match v.kind with
  | .bigInteger => .number
  | kind => kind

/-- The characters of the texts of numbers of both kinds. -/
def isNumeral (c : Char) : Bool := Decimal.isMark c || c == 'i' || c == 'n' || c == 'f'

theorem begun_of_isDigit {c : Char} (h : c.isDigit = true) : begun c = some .number := by
  have hne {d : Char} (hd : d.isDigit = false) : c ≠ d := Decimal.ne_of_isDigit h hd
  simp [begun, hne, h]

theorem exists_of_numberText {s : String} (h : NumberText s) : ∃ c cs, s.toList = c :: cs ∧ begun c = some .number := by
  cases h with
  | finite h =>
    obtain ⟨c, cs, hs, hc⟩ := h.leads
    exact ⟨c, cs, hs, begun_of_isDigit hc⟩
  | negative h => exact ⟨'-', _, String.toList_append, rfl⟩
  | infinite => exact ⟨'i', _, rfl, rfl⟩
  | negativeInfinite => exact ⟨'-', _, rfl, rfl⟩

theorem isNumeral_of_numberText {s : String} (h : NumberText s) : ∀ c ∈ s.toList, isNumeral c = true := by
  have hmark {s : String} (h : Decimal.Reads s) : ∀ c ∈ s.toList, isNumeral c = true := fun c hc => by
    rw [isNumeral, h.marks c hc]
    rfl
  cases h with
  | finite h => exact hmark h
  | negative h =>
    rw [String.toList_append]
    exact List.forall_mem_cons.mpr ⟨by decide, hmark h⟩
  | infinite => exact List.all_eq_true.mp (by decide)
  | negativeInfinite => exact List.all_eq_true.mp (by decide)

/-- The texts of big integers end in a character that no text of a number ends in. -/
theorem getLast?_ne_of_numberText {s : String} (h : NumberText s) : s.toList.getLast? ≠ some 'n' := by
  have hmark {s : String} (h : Decimal.Reads s) : 'n' ∉ s.toList := fun hmem => absurd (h.marks 'n' hmem) (by decide)
  cases h with
  | finite h => exact fun hlast => hmark h (List.mem_of_getLast? hlast)
  | negative h =>
    intro hlast
    rw [String.toList_append] at hlast
    rcases List.mem_append.mp (List.mem_of_getLast? hlast) with hmem | hmem
    · exact absurd hmem (by decide)
    · exact hmark h hmem
  | infinite => decide
  | negativeInfinite => decide

theorem numberText_number {x : Float} (h : (number x).isData = true) : NumberText (number x).text :=
  numberText_of_isNaN_eq_false Decimal.marksWhole_value (by simpa [isData] using h)

theorem chars_bigInteger (n : Int) : (bigInteger n).chars = (toString n).toList ++ ['n'] := by
  rw [chars, text, String.toList_append]
  rfl

theorem isNumeral_bigInteger (n : Int) : ∀ c ∈ (bigInteger n).chars, isNumeral c = true := by
  rw [chars_bigInteger]
  intro c hc
  rcases List.mem_append.mp hc with hc | hc
  · rw [isNumeral, Decimal.marks_toString n c hc]
    rfl
  · obtain rfl := List.mem_singleton.mp hc
    rfl

theorem exists_bigInteger (n : Int) : ∃ c cs, (bigInteger n).chars = c :: cs ∧ begun c = some .number := by
  have hrepr : toString n = n.repr := rfl
  rw [chars_bigInteger, hrepr, Int.repr_eq_if]
  split
  · rw [Nat.toList_repr]
    obtain ⟨c, cs, hcons⟩ := List.exists_cons_of_ne_nil (@Nat.toDigits_ne_nil n.toNat 10)
    have hdigit := Decimal.areDigits_toDigits n.toNat c (by rw [hcons]; exact List.mem_cons_self)
    exact ⟨c, _, by rw [hcons, List.cons_append], begun_of_isDigit hdigit⟩
  · rw [String.toList_append]
    exact ⟨'-', _, rfl, rfl⟩

theorem exists_chars_cons {v : Value} (hv : v.isData = true) (h : v.isTagged = false) :
    ∃ c cs, v.chars = c :: cs ∧ begun c = some v.shape := by
  cases v with
  | number x => exact exists_of_numberText (numberText_number hv)
  | boolean b => cases b <;> exact ⟨_, _, rfl, rfl⟩
  | bigInteger n => exact exists_bigInteger n
  | null => exact ⟨_, _, rfl, rfl⟩
  | list items => exact ⟨_, _, chars_list items, rfl⟩
  | object fields => exact ⟨_, _, chars_object fields, rfl⟩
  | tagged payload tag => cases h
  | sequence _ _ | function _ => cases hv

/-! ## Reading -/

/-- What may stand behind data that is not tagged. -/
def Ends : List Char → Prop := Begins [[','], [']'], ['\x7d'], [')'], [' ']]

/-- What may stand behind any data: no tag follows. -/
def Closes : List Char → Prop := Begins [[','], [']'], ['\x7d'], [')']]

theorem Closes.ends {rest : List Char} (h : Closes rest) : Ends rest := Begins.mono h (by decide)

theorem not_closes_tag (rest : List Char) : ¬ Closes (' ' :: rest) := by simp [Closes, Begins]

theorem ends_tag (rest : List Char) : Ends (' ' :: rest) := .inr ⟨[' '], by decide, rest, rfl⟩

theorem legible_number {x y : Float} (hx : (number x).isData = true) (hy : (number y).isData = true) :
    Legible chars Ends (number x) (number y) := by
  intro rest rest' hrest hrest' h
  obtain ⟨htext, hbehind⟩ := Token.run_inj (isNumeral_of_numberText (numberText_number hx)) (hrest.stops (by decide))
    (isNumeral_of_numberText (numberText_number hy)) (hrest'.stops (by decide)) h
  obtain rfl := numberText_injective Decimal.marksWhole_value (by simpa [isData] using hx) (by simpa [isData] using hy)
    (String.toList_injective htext)
  exact ⟨rfl, hbehind⟩

theorem legible_bigInteger (m n : Int) : Legible chars Ends (bigInteger m) (bigInteger n) := by
  intro rest rest' hrest hrest' h
  obtain ⟨htext, hbehind⟩ := Token.run_inj (isNumeral_bigInteger m) (hrest.stops (by decide)) (isNumeral_bigInteger n)
    (hrest'.stops (by decide)) h
  rw [chars_bigInteger, chars_bigInteger, List.append_cancel_right_eq] at htext
  have hvalue := congrArg Decimal.wholeNumber htext
  rw [Decimal.wholeNumber_toString, Decimal.wholeNumber_toString] at hvalue
  exact ⟨congrArg _ hvalue, hbehind⟩

theorem number_ne_bigInteger {x : Float} {n : Int} (hx : (number x).isData = true) {rest rest' : List Char}
    (hrest : Ends rest) (hrest' : Ends rest') : (number x).chars ++ rest ≠ (bigInteger n).chars ++ rest' := by
  intro h
  obtain ⟨htext, -⟩ := Token.run_inj (isNumeral_of_numberText (numberText_number hx)) (hrest.stops (by decide))
    (isNumeral_bigInteger n) (hrest'.stops (by decide)) h
  refine getLast?_ne_of_numberText (numberText_number hx) ?_
  rw [htext, chars_bigInteger, List.getLast?_append]
  rfl

/-- Texts that are continued to one text begin alike. -/
theorem shape_eq {v w : Value} (hv : v.isData = true) (hw : w.isData = true) (hvt : v.isTagged = false)
    (hwt : w.isTagged = false) {rest rest' : List Char} (h : v.chars ++ rest = w.chars ++ rest') :
    v.shape = w.shape := by
  obtain ⟨c, cs, hchars, hc⟩ := exists_chars_cons hv hvt
  obtain ⟨d, ds, hchars', hd⟩ := exists_chars_cons hw hwt
  rw [hchars, hchars', List.cons_append, List.cons_append, List.cons.injEq] at h
  rw [← Option.some.injEq, ← hc, h.1, hd]

theorem separates_chars (stop : Char) (h : [stop] ∈ [[','], [']'], ['\x7d'], [')']]) (hne : stop ≠ ',') {α : Type}
    (text : α → List Char) : Separates text Closes [',', ' '] [stop] where
  separator_follows rest := .inr ⟨[','], by decide, ' ' :: rest, rfl⟩
  stop_follows rest := begins_append h rest
  separator_ne rest rest' heq := hne (List.cons.inj heq).1.symm

/-! ## Payload and tag -/

/-- What stands in front of the last tag of a value: the value itself if it has none. -/
def core : Value → Value
  | tagged payload _ => payload
  | v => v

def tag? : Value → Option String
  | tagged _ tag => some tag
  | _ => none

def tagChars : Option String → List Char
  | some tag => [' ', '#', ' '] ++ tag.toList
  | none => []

theorem chars_eq (v : Value) : v.chars = v.core.payloadChars ++ tagChars v.tag? := by
  cases v with
  | tagged payload tag => exact chars_tagged payload tag
  | _ => exact (List.append_nil _).symm

theorem eq_of_core_eq {v w : Value} (hcore : v.core = w.core) (htag : v.tag? = w.tag?) : v = w := by
  cases v <;> cases w <;> simp_all [core, tag?]

theorem isData_core {v : Value} (h : v.isData = true) : v.core.isData = true := by
  cases v with
  | tagged payload tag => exact (Bool.and_eq_true _ _ ▸ h).1
  | _ => exact h

theorem isName_tag {v : Value} (h : v.isData = true) : ∀ tag ∈ v.tag?, isName tag = true := by
  rintro tag htag
  cases v with
  | tagged payload _ =>
    cases htag
    exact (Bool.and_eq_true _ _ ▸ h).2
  | _ => cases htag

theorem legible_tag {o o' : Option String} (h : ∀ tag ∈ o, isName tag = true) (h' : ∀ tag ∈ o', isName tag = true) :
    Legible tagChars Closes o o' := by
  intro rest rest' hrest hrest' heq
  cases o with
  | none =>
    cases o' with
    | none => exact ⟨rfl, heq⟩
    | some tag =>
      rw [show rest = _ from heq] at hrest
      exact absurd hrest (not_closes_tag _)
  | some tag =>
    cases o' with
    | none =>
      rw [show rest' = _ from heq.symm] at hrest'
      exact absurd hrest' (not_closes_tag _)
    | some tag' =>
      rw [tagChars, tagChars, List.append_assoc, List.append_assoc] at heq
      obtain ⟨rfl, hbehind⟩ := legible_name (h tag rfl) (h' tag' rfl) _ _ (hrest.stops (by decide))
        (hrest'.stops (by decide)) (List.append_cancel_left heq)
      exact ⟨rfl, hbehind⟩

theorem ends_tagChars (o : Option String) {rest : List Char} (h : Closes rest) : Ends (tagChars o ++ rest) := by
  cases o with
  | none => exact h.ends
  | some tag => exact ends_tag _

/-- With its payload, a value is legible. -/
theorem legible_of_core {v w : Value} (hv : v.isData = true) (hw : w.isData = true)
    (h : Legible payloadChars Ends v.core w.core) : Legible chars Closes v w := by
  intro rest rest' hrest hrest' heq
  rw [chars_eq, chars_eq, List.append_assoc, List.append_assoc] at heq
  obtain ⟨hcore, hbehind⟩ := h _ _ (ends_tagChars _ hrest) (ends_tagChars _ hrest') heq
  obtain ⟨htag, hbehind⟩ := legible_tag (isName_tag hv) (isName_tag hw) _ _ hrest hrest' hbehind
  exact ⟨eq_of_core_eq hcore htag, hbehind⟩

/-! ## Brackets -/

/-- A bracket that closes a list begins no data. -/
theorem chars_ne_close {v : Value} (hv : v.isData = true) (rest rest' : List Char) :
    v.chars ++ rest ≠ [']'] ++ rest' := by
  rw [chars_eq]
  cases h : v.core.isTagged with
  | true =>
    rw [payloadChars, if_pos h]
    exact fun heq => absurd (List.cons.inj heq).1 (by decide)
  | false =>
    obtain ⟨c, cs, hchars, hc⟩ := exists_chars_cons (isData_core hv) h
    rw [payloadChars, h, hchars]
    intro heq
    rw [(List.cons.inj heq).1] at hc
    cases hc

theorem legible_list {items others : List Value} (hv : (list items).isData = true) (hw : (list others).isData = true)
    (h : ∀ a ∈ items, ∀ b ∈ others, Legible chars Closes a b) : Legible chars Ends (list items) (list others) := by
  intro rest rest' _ _ heq
  rw [isData] at hv hw
  rw [chars_list, chars_list, List.cons_append, List.cons_append, List.append_assoc, List.append_assoc] at heq
  obtain ⟨rfl, hbehind⟩ := Legible.join (separates_chars ']' (by decide) (by decide) chars) h
    (fun a ha => chars_ne_close (isData_of_mem hv a ha)) (fun b hb => chars_ne_close (isData_of_mem hw b hb))
    (List.cons.inj heq).2
  exact ⟨rfl, hbehind⟩

theorem legible_object {fields others : List (String × Value)} (hv : (object fields).isData = true)
    (hw : (object others).isData = true)
    (h : ∀ field ∈ fields, ∀ other ∈ others, Legible chars Closes field.2 other.2) :
    Legible chars Ends (object fields) (object others) := by
  intro rest rest' _ _ heq
  rw [isData] at hv hw
  have hfields := isData_of_mem_fields hv
  have hothers := isData_of_mem_fields hw
  rw [chars_object, chars_object, List.cons_append, List.cons_append, List.append_assoc, List.append_assoc] at heq
  obtain ⟨rfl, hbehind⟩ := Legible.join (separates_chars '\x7d' (by decide) (by decide) (fieldChars chars))
    (fun a ha b hb => .field (hfields a ha).1 (hothers b hb).1 (h a ha b hb))
    (fun a ha => fieldChars_ne (hfields a ha).1 (by decide)) (fun b hb => fieldChars_ne (hothers b hb).1 (by decide))
    (List.cons.inj heq).2
  exact ⟨rfl, hbehind⟩

/-- Parentheses stand around the one payload that is tagged, and around nothing else. -/
theorem legible_payload_of {v w : Value} (hv : v.isData = true) (hw : w.isData = true)
    (htagged : v.isTagged = true → w.isTagged = true → Legible chars Closes v w)
    (huntagged : v.isTagged = false → w.isTagged = false → Legible chars Ends v w) :
    Legible payloadChars Ends v w := by
  have hparen {v w : Value} (hw : w.isData = true) (hvt : v.isTagged = true) (hwt : w.isTagged = false)
      (rest rest' : List Char) : payloadChars v ++ rest ≠ payloadChars w ++ rest' := by
    obtain ⟨c, cs, hchars, hc⟩ := exists_chars_cons hw hwt
    simp only [payloadChars, hvt, hwt, hchars, if_true]
    intro heq
    rw [← (List.cons.inj heq).1] at hc
    cases hc
  intro rest rest' hrest hrest' heq
  cases hvt : v.isTagged with
  | true =>
    cases hwt : w.isTagged with
    | true =>
      simp only [payloadChars, hvt, hwt, if_true, List.cons_append, List.append_assoc, List.cons.injEq, true_and] at heq
      have hcloses (rest : List Char) : Closes (')' :: rest) := .inr ⟨[')'], by decide, rest, rfl⟩
      obtain ⟨rfl, hbehind⟩ := htagged hvt hwt _ _ (hcloses _) (hcloses _) heq
      exact ⟨rfl, (List.cons.inj hbehind).2⟩
    | false => exact absurd heq (hparen hw hvt hwt rest rest')
  | false =>
    cases hwt : w.isTagged with
    | true => exact absurd heq.symm (hparen hv hwt hvt rest' rest)
    | false =>
      simp only [payloadChars, hvt, hwt] at heq
      exact huntagged hvt hwt rest rest' hrest hrest' heq

theorem sizeOf_core_le (v : Value) : sizeOf v.core ≤ sizeOf v := by
  cases v <;> simp [core]
  omega

theorem sizeOf_field_lt {fields : List (String × Value)} {field : String × Value} (h : field ∈ fields) :
    sizeOf field.2 < sizeOf (object fields) := by
  have := List.sizeOf_lt_of_mem h
  obtain ⟨name, a⟩ := field
  simp at this ⊢
  omega

/-- Data that is not tagged is legible if its parts are: one case for each kind that both may be of. -/
theorem legible_untagged {v w : Value} (hv : v.isData = true) (hw : w.isData = true) (hvt : v.isTagged = false)
    (hwt : w.isTagged = false) (ih : ∀ a b : Value, sizeOf a < sizeOf v → a.isData = true → b.isData = true →
      Legible chars Closes a b) : Legible chars Ends v w := by
  intro rest rest' hrest hrest' heq
  have hshape := shape_eq hv hw hvt hwt heq
  revert hrest hrest' heq
  cases v with
  | number x =>
    cases w with
    | number y => exact legible_number hv hw rest rest'
    | bigInteger n => exact fun hrest hrest' heq => absurd heq (number_ne_bigInteger hv hrest hrest')
    | _ => cases hshape
  | bigInteger n =>
    cases w with
    | number y => exact fun hrest hrest' heq => absurd heq.symm (number_ne_bigInteger hw hrest' hrest)
    | bigInteger n => exact legible_bigInteger _ _ rest rest'
    | _ => cases hshape
  | boolean a =>
    cases w with
    | boolean b =>
      intro _ _ heq
      cases a <;> cases b
      · exact ⟨rfl, List.append_cancel_left heq⟩
      · exact absurd (List.cons.inj heq).1 (by decide)
      · exact absurd (List.cons.inj heq).1 (by decide)
      · exact ⟨rfl, List.append_cancel_left heq⟩
    | _ => cases hshape
  | null =>
    cases w with
    | null => exact fun _ _ heq => ⟨rfl, List.append_cancel_left heq⟩
    | _ => cases hshape
  | list items =>
    cases w with
    | list others =>
      refine legible_list hv hw (fun a ha b hb => ih a b ?_ ?_ ?_) rest rest'
      · have := List.sizeOf_lt_of_mem ha
        simp
        omega
      · exact isData_of_mem hv a ha
      · exact isData_of_mem hw b hb
    | _ => cases hshape
  | object fields =>
    cases w with
    | object others =>
      exact legible_object hv hw (fun field hfield other hother => ih field.2 other.2 (sizeOf_field_lt hfield)
        (isData_of_mem_fields hv field hfield).2 (isData_of_mem_fields hw other hother).2) rest rest'
    | _ => cases hshape
  | tagged payload tag => cases hvt
  | sequence _ _ | function _ => cases hv

/-- Payloads are legible, by induction on their size: the parts of one without a tag are smaller, and so is what
stands in front of its tag if it has one. -/
theorem legible_payload (v w : Value) (hv : v.isData = true) (hw : w.isData = true) :
    Legible payloadChars Ends v w := by
  induction hsize : sizeOf v using Nat.strongRecOn generalizing v w with
  | ind size ih =>
    refine legible_payload_of hv hw (fun hvt hwt => ?_) fun hvt hwt => ?_
    · refine legible_of_core hv hw (ih _ ?_ v.core w.core (isData_core hv) (isData_core hw) rfl)
      cases v with
      | tagged payload tag =>
        simp [core, ← hsize]
        omega
      | _ => cases hvt
    · refine legible_untagged hv hw hvt hwt fun a b ha hda hdb => ?_
      refine legible_of_core hda hdb (ih _ ?_ a.core b.core (isData_core hda) (isData_core hdb) rfl)
      have := sizeOf_core_le a
      omega

/-- The texts of data differ wherever the data does. -/
theorem text_injective_of_isData {v w : Value} (hv : v.isData = true) (hw : w.isData = true) (h : v.text = w.text) :
    v = w := by
  have hlegible := legible_of_core hv hw (legible_payload v.core w.core (isData_core hv) (isData_core hw))
  exact (hlegible [] [] (begins_nil _) (begins_nil _) (by rw [chars, chars, h])).1

/-! ## Data equals itself -/

mutual

theorem same_self : ∀ (v : Value), v.isData = true → v.same v = true
  | number x, h => Binary64.beq_self (by simpa [isData] using h)
  | boolean b, _ => by simp [same]
  | bigInteger n, _ => by simp [same]
  | null, _ => rfl
  | list items, h => sameItems_self items h
  | object fields, h => sameFields_self fields h
  | tagged payload tag, h => by
    rw [isData, Bool.and_eq_true] at h
    simp [same, same_self payload h.1]

theorem sameItems_self : ∀ (items : List Value), areData items = true → sameItems items items = true
  | [], _ => rfl
  | a :: rest, h => by
    rw [areData, Bool.and_eq_true] at h
    rw [sameItems, same_self a h.1, sameItems_self rest h.2]
    rfl

theorem sameFields_self : ∀ (fields : List (String × Value)),
    fieldsAreData fields = true → sameFields fields fields = true
  | [], _ => rfl
  | (name, a) :: rest, h => by
    rw [fieldsAreData, Bool.and_eq_true, Bool.and_eq_true] at h
    simp [sameFields, same_self a h.1.2, sameFields_self rest h.2]

end

/-- Data that is shown alike is equal: no two values of numbers, truth values, `null`, lists, objects and tags have one
text unless the language finds them equal. -/
theorem same_of_text_eq {v w : Value} (hv : v.isData = true) (hw : w.isData = true) (h : v.text = w.text) :
    v.same w = true := by
  obtain rfl := text_injective_of_isData hv hw h
  exact same_self v hv

theorem same_of_text_eq_nested :
    let v : Value := tagged (tagged (list [object [("a", number 1.5)], tagged null "X", bigInteger (-1)]) "A") "B"
    v.isData = true ∧ v.text = "([\x7ba: 1.5\x7d, null # X, -1n] # A) # B" ∧ v.same v = true :=
  ⟨by decide +kernel, by decide +kernel, same_of_text_eq (by decide +kernel) (by decide +kernel) rfl⟩

end Sable.Value
