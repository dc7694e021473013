import Sable.Proofs.Reader.Grammar
import Sable.Reader

/-! Readers that put down an error or read a phrase of the grammar.

Each reader is compared with a phrase. What is left of the phrase after a step is a phrase again: it takes the
tokens that are still to come and puts those before them in front. -/
namespace Sable.Reader

open Grammar

variable {α β : Type} {s : State}

/-- The tokens that are left. -/
def State.tokens (s : State) : List Token := s.rest.map (·.value)

theorem State.tokens_advance {t : Token} (h : s.tokens.head? = some t) : s.tokens = t :: s.advance.tokens := by
  unfold State.tokens at h ⊢
  cases hrest : s.rest with
  | nil => simp [hrest] at h
  | cons first rest =>
      simp only [hrest, List.map_cons, List.head?_cons, Option.some.injEq] at h
      simp [State.advance, hrest, h]

theorem State.errors_advance : s.advance.errors = s.errors := by
  unfold State.advance
  split <;> rfl

/-! ## Readers and phrases -/

/-- The reader takes no error back, and it puts one down when it fails. -/
structure CarefulAt (s : State) (r : Reader α) : Prop where
  errors : s.errors.size ≤ (r s).2.errors.size
  failed : (r s).1 = none → s.errors.size < (r s).2.errors.size

/-- From the state `s` the reader puts down an error or reads a phrase. -/
structure ReadsAt (s : State) (r : Reader α) (phrase : Phrase α) : Prop extends CarefulAt s r where
  read : ∀ a, (r s).1 = some a → (r s).2.errors.size = s.errors.size →
    ∃ xs, s.tokens = xs ++ (r s).2.tokens ∧ phrase xs a

/-- The reader puts down an error or reads a phrase, wherever it begins. -/
abbrev Reads (r : Reader α) (phrase : Phrase α) : Prop := ∀ s, ReadsAt s r phrase

variable {r : Reader α} {next : α → Reader β} {phrase : Phrase α} {whole : Phrase β}

theorem run_bind (r : Reader α) (next : α → Reader β) (s : State) : (r >>= next) s = match r s with
    | (some a, t) => next a t
    | (none, t) => (none, t) := rfl

theorem CarefulAt.bind (h : CarefulAt s r) (hnext : ∀ a t, CarefulAt t (next a)) :
    CarefulAt s (r >>= next) := by
  have herrors := h.errors
  have hfailed := h.failed
  constructor <;> rw [run_bind] <;> match hr : r s with
    | (some a, t) =>
        rw [hr] at herrors
        first
          | exact Nat.le_trans herrors (hnext a t).errors
          | exact fun h => Nat.lt_of_le_of_lt herrors ((hnext a t).failed h)
    | (none, t) =>
        rw [hr] at herrors hfailed
        first
          | exact herrors
          | exact fun _ => hfailed rfl

/-- Where there was an error, nothing needs to have been read. -/
theorem readsAt_of_grown (h : s.errors.size < (r s).2.errors.size) : ReadsAt s r phrase :=
  ⟨⟨Nat.le_of_lt h, fun _ => h⟩, fun _ _ heq => absurd heq (Nat.ne_of_gt h)⟩

theorem ReadsAt.mono {other : Phrase α} (h : ReadsAt s r phrase) (hphrase : ∀ xs a, phrase xs a → other xs a) :
    ReadsAt s r other :=
  ⟨h.toCarefulAt, fun a ha herrors =>
    let ⟨xs, htokens, hxs⟩ := h.read a ha herrors
    ⟨xs, htokens, hphrase xs a hxs⟩⟩

theorem ReadsAt.of_eq {r' : Reader α} (h : ReadsAt s r phrase) (hr : r' s = r s) : ReadsAt s r' phrase := by
  constructor
  · constructor <;> rw [hr]
    · exact h.errors
    · exact h.failed
  · rw [hr]
    exact h.read

/-- One reader after another reads one phrase after another. -/
theorem ReadsAt.bind (h : ReadsAt s r phrase)
    (hnext : ∀ a t, ReadsAt t (next a) fun ys b => ∀ xs, phrase xs a → whole (xs ++ ys) b) :
    ReadsAt s (r >>= next) whole := by
  refine ⟨h.toCarefulAt.bind fun a t => (hnext a t).toCarefulAt, ?_⟩
  have herrors := h.errors
  have hread := h.read
  rw [run_bind]
  match hr : r s with
  | (none, t) => exact nofun
  | (some a, t) =>
      rw [hr] at herrors hread
      intro b hb hquiet
      have hrest := (hnext a t).errors
      obtain ⟨xs, htokens, hxs⟩ := hread a rfl (Nat.le_antisymm (hquiet ▸ hrest) herrors)
      obtain ⟨ys, htokens', hys⟩ := (hnext a t).read b hb
        (Nat.le_antisymm (hquiet ▸ herrors) hrest)
      exact ⟨xs ++ ys, by rw [htokens, htokens', List.append_assoc], hys xs hxs⟩

theorem readsAt_pure {a : α} (h : phrase [] a) : ReadsAt s (pure a) phrase := by
  refine ⟨⟨Nat.le_refl _, nofun⟩, fun b hb _ => ?_⟩
  obtain rfl := Option.some.inj hb
  exact ⟨[], rfl, h⟩

theorem readsAt_expected {what : Expectation} : ReadsAt s (expected what) phrase :=
  readsAt_of_grown (by simp [expected, report])

theorem readsAt_bounded {r : Nat → Reader α} (h : ReadsAt s (r s.rest.length) phrase) :
    ReadsAt s (bounded r) phrase := h.of_eq rfl

/-! ## Steps that take one token, or none -/

theorem readsAt_pure_bind {a : α} (h : ReadsAt s (next a) whole) : ReadsAt s (pure a >>= next) whole :=
  h.of_eq rfl

theorem readsAt_here {next : Span → Reader β} (h : ReadsAt s (next s.here) whole) :
    ReadsAt s (here >>= next) whole := h.of_eq rfl

theorem readsAt_spanFrom {start : Span} {next : Span → Reader β}
    (h : ReadsAt s (next (start.merge s.previous)) whole) : ReadsAt s (spanFrom start >>= next) whole :=
  h.of_eq rfl

theorem readsAt_peek {next : Option Token → Reader β} (h : ReadsAt s (next s.tokens.head?) whole) :
    ReadsAt s (peek >>= next) whole := by
  rw [State.tokens, List.head?_map] at h
  exact h.of_eq rfl

theorem readsAt_advance {t : Token} {next : Unit → Reader β} (ht : s.tokens.head? = some t)
    (h : ReadsAt s.advance (next ()) fun ys b => whole (t :: ys) b) :
    ReadsAt s (advance >>= next) whole := by
  have herrors := s.errors_advance
  refine ⟨⟨herrors ▸ h.errors, herrors ▸ h.failed⟩, fun b hb hquiet => ?_⟩
  obtain ⟨ys, htokens, hys⟩ := h.read b hb (herrors ▸ hquiet)
  exact ⟨t :: ys, by rw [State.tokens_advance ht, htokens]; rfl, hys⟩

theorem run_token?_of_eq {token : Token} (h : s.tokens.head? = some token) :
    token? token s = (some true, s.advance) := by
  rw [State.tokens, List.head?_map] at h
  simp only [token?, run_bind, peek, h, if_true]
  rfl

theorem run_token?_of_ne {token : Token} (h : s.tokens.head? ≠ some token) :
    token? token s = (some false, s) := by
  rw [State.tokens, List.head?_map] at h
  simp only [token?, run_bind, peek, h, if_false]
  rfl

theorem readsAt_token? {token : Token} {yes no : Reader β}
    (hyes : ∀ t, ReadsAt t yes fun ys b => whole (token :: ys) b) (hno : ReadsAt s no whole) :
    ReadsAt s (do if ← token? token then yes else no) whole := by
  by_cases ht : s.tokens.head? = some token
  · have hread : ReadsAt s (advance >>= fun _ => yes) whole := readsAt_advance ht (hyes _)
    refine hread.of_eq ?_
    rw [run_bind, run_token?_of_eq ht]
    rfl
  · refine hno.of_eq ?_
    rw [run_bind, run_token?_of_ne ht]
    rfl

theorem readsAt_mark? {p : Punctuation} {yes no : Reader β}
    (hyes : ∀ t, ReadsAt t yes fun ys b => whole (.mark p :: ys) b) (hno : ReadsAt s no whole) :
    ReadsAt s (do if ← mark? p then yes else no) whole := readsAt_token? hyes hno

theorem reads_token (token : Token) : Reads (Reader.token token) fun xs _ => xs = [token] :=
  fun _ => readsAt_token? (fun _ => readsAt_pure rfl) readsAt_expected

theorem readsAt_token {token : Token} {next : Unit → Reader β}
    (h : ∀ t, ReadsAt t (next ()) fun ys b => whole (token :: ys) b) :
    ReadsAt s (Reader.token token >>= next) whole :=
  (reads_token token s).bind fun _ t => (h t).mono fun _ _ hb _ hxs => hxs ▸ hb

theorem readsAt_mark {p : Punctuation} {next : Unit → Reader β}
    (h : ∀ t, ReadsAt t (next ()) fun ys b => whole (.mark p :: ys) b) :
    ReadsAt s (mark p >>= next) whole := readsAt_token h

theorem readsAt_keyword {k : Keyword} {next : Unit → Reader β}
    (h : ∀ t, ReadsAt t (next ()) fun ys b => whole (.keyword k :: ys) b) :
    ReadsAt s (keyword k >>= next) whole := readsAt_token h

theorem reads_ident : Reads ident Name := by
  intro s
  refine readsAt_peek ?_
  split
  · exact readsAt_here (readsAt_advance ‹_› (readsAt_pure .mk))
  · exact readsAt_expected

theorem readsAt_ident {next : Spanned String → Reader β}
    (h : ∀ name span t, ReadsAt t (next ⟨name, span⟩) fun ys b => whole (.ident name :: ys) b) :
    ReadsAt s (ident >>= next) whole :=
  (reads_ident s).bind fun ⟨name, span⟩ t => (h name span t).mono fun _ _ hb _ hxs => by
    cases hxs
    exact hb

theorem readsAt_newExpr {span : Span} {make : Site → Expr} {phrase : Phrase Expr}
    (h : ∀ site, phrase [] (make site)) : ReadsAt s (newExpr span make) phrase := by
  refine ⟨⟨Nat.le_refl _, nofun⟩, fun e he _ => ?_⟩
  obtain rfl := Option.some.inj he
  exact ⟨[], rfl, h _⟩

theorem readsAt_newExpr_bind {span : Span} {make : Site → Expr} {next : Expr → Reader β}
    (h : ∀ site t, ReadsAt t (next (make site)) whole) : ReadsAt s (newExpr span make >>= next) whole := by
  obtain ⟨⟨herrors, hfailed⟩, hread⟩ := h ⟨s.nodes.expressions.size, span⟩ (newExpr span make s).2
  exact ⟨⟨herrors, hfailed⟩, hread⟩

theorem readsAt_newType {span : Span} {make : Site → TypeExpr} {phrase : Phrase TypeExpr}
    (h : ∀ site, phrase [] (make site)) : ReadsAt s (newType span make) phrase := by
  refine ⟨⟨Nat.le_refl _, nofun⟩, fun e he _ => ?_⟩
  obtain rfl := Option.some.inj he
  exact ⟨[], rfl, h _⟩

theorem run_atClose {close : Punctuation} :
    atClose close s = (some (s.tokens.head?.all (· = .mark close)), s) := by
  rw [State.tokens, List.head?_map]
  simp only [atClose, run_bind, peek]
  cases s.rest.head? <;> rfl

theorem readsAt_atClose {close : Punctuation} {next : Bool → Reader β}
    (h : ∀ atEnd, ReadsAt s (next atEnd) whole) : ReadsAt s (atClose close >>= next) whole :=
  (h _).of_eq (by rw [run_bind, run_atClose])

theorem readsAt_newType_bind {span : Span} {make : Site → TypeExpr} {next : TypeExpr → Reader β}
    (h : ∀ site t, ReadsAt t (next (make site)) whole) : ReadsAt s (newType span make >>= next) whole := by
  obtain ⟨⟨herrors, hfailed⟩, hread⟩ := h ⟨s.nodes.types.size, span⟩ (newType span make s).2
  exact ⟨⟨herrors, hfailed⟩, hread⟩

/-! ## Lists -/

section

variable {item : Reader α} (hitem : Reads item phrase)
include hitem

theorem reads_moreUpTo (separator : Punctuation) (count : Nat) : Reads (moreUpTo separator item count)
    fun xs rest => ∀ ys a, phrase ys a → Separated phrase separator (ys ++ xs) (a :: rest) := by
  induction count with
  | zero => exact fun _ => readsAt_pure fun ys a ha => by simpa using Separated.last ha
  | succ count ih =>
      intro s
      refine readsAt_mark? (fun t => (hitem t).bind fun a t => (ih t).bind fun rest t => readsAt_pure ?_)
        (readsAt_pure fun ys a ha => by simpa using Separated.last ha)
      intro ys hrest xs ha zs b hb
      simpa using Separated.more hb (hrest xs a ha)

theorem reads_separated (separator : Punctuation) :
    Reads (separated separator item) (Separated phrase separator) := by
  intro s
  refine (hitem s).bind fun a t => ReadsAt.bind (readsAt_bounded (reads_moreUpTo hitem separator _ t))
    fun rest t => readsAt_pure ?_
  intro ys hrest xs ha
  simpa using hrest xs a ha

theorem reads_itemsUpTo (close : Punctuation) (count : Nat) :
    Reads (itemsUpTo close item count) (Items phrase) := by
  induction count with
  | zero => exact fun _ => readsAt_pure .none
  | succ count ih =>
      refine fun s => readsAt_atClose fun atEnd => ?_
      split
      · exact readsAt_pure .none
      · refine (hitem s).bind fun a t => readsAt_mark? (fun t => (ih t).bind fun rest t => readsAt_pure ?_)
          (readsAt_pure fun xs ha => by simpa using Items.last ha)
        intro ys hrest xs ha
        simpa using Items.more ha hrest

theorem reads_itemsUntil (close : Punctuation) : Reads (itemsUntil close item)
    fun xs as => ∃ ys, xs = ys ++ [.mark close] ∧ Items phrase ys as := by
  intro s
  refine ReadsAt.bind (readsAt_bounded (reads_itemsUpTo hitem close _ s)) fun as t =>
    readsAt_mark fun t => readsAt_pure fun xs h => ⟨xs, rfl, h⟩

end

end Sable.Reader
