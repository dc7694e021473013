import Sable.Proofs.Reader.Continuations
import Sable.Proofs.Reader.Reads

/-! Readers that give something and put down no error.

What such a reader leaves is described by a predicate on the tokens that are left. Where a phrase stands
before tokens that may follow it, its reader leaves tokens that may follow it: the same ones, or fewer. -/
namespace Sable.Reader

open Grammar

variable {α β : Type} {s : State}

@[simp] theorem State.length_rest : s.rest.length = s.tokens.length := by simp [State.tokens]

theorem State.tokens_advance_of_eq {t : Token} {xs : List Token} (h : s.tokens = t :: xs) :
    s.advance.tokens = xs := by
  have hadvance := State.tokens_advance (t := t) (by rw [h]; rfl)
  rw [h] at hadvance
  exact (List.cons.inj hadvance).2.symm

/-- From the state `s` the reader gives something, puts down no error and leaves tokens in `left`. -/
def GivesAt (s : State) (r : Reader α) (left : List Token → Prop) : Prop :=
  ∃ a t, r s = (some a, t) ∧ t.errors = s.errors ∧ t.tokens.length ≤ s.tokens.length ∧ left t.tokens

variable {r : Reader α} {next : α → Reader β} {left : List Token → Prop} {after : List Token → Prop}
  {xs ys : List Token}

theorem GivesAt.of_eq {r' : Reader α} (h : GivesAt s r left) (hr : r' s = r s) : GivesAt s r' left := by
  unfold GivesAt
  rw [hr]
  exact h

theorem GivesAt.mono {left' : List Token → Prop} (h : GivesAt s r left) (hleft : ∀ xs, left xs → left' xs) :
    GivesAt s r left' := by
  obtain ⟨a, t, hr, herrors, hlength, ht⟩ := h
  exact ⟨a, t, hr, herrors, hlength, hleft _ ht⟩

theorem GivesAt.bind (h : GivesAt s r left) (hnext : ∀ a t, t.tokens.length ≤ s.tokens.length →
    left t.tokens → GivesAt t (next a) after) : GivesAt s (r >>= next) after := by
  obtain ⟨a, t, hr, herrors, hlength, ht⟩ := h
  obtain ⟨b, u, hb, herrors', hlength', hu⟩ := hnext a t hlength ht
  refine ⟨b, u, ?_, herrors'.trans herrors, Nat.le_trans hlength' hlength, hu⟩
  rw [run_bind, hr]
  exact hb

theorem givesAt_pure {a : α} (h : left s.tokens) : GivesAt s (pure a) left :=
  ⟨a, s, rfl, rfl, Nat.le_refl _, h⟩

theorem givesAt_bounded {r : Nat → Reader α} (h : GivesAt s (r s.tokens.length) left) :
    GivesAt s (bounded r) left := by
  rw [← State.length_rest] at h
  exact h.of_eq rfl

/-! ## Steps that take one token, or none -/

theorem givesAt_pure_bind {a : α} (h : GivesAt s (next a) after) : GivesAt s (pure a >>= next) after :=
  h.of_eq rfl

theorem givesAt_here {next : Span → Reader β} (h : GivesAt s (next s.here) after) :
    GivesAt s (here >>= next) after := h.of_eq rfl

theorem givesAt_spanFrom {start : Span} {next : Span → Reader β}
    (h : GivesAt s (next (start.merge s.previous)) after) : GivesAt s (spanFrom start >>= next) after :=
  h.of_eq rfl

theorem givesAt_peek {next : Option Token → Reader β} (h : GivesAt s (next s.tokens.head?) after) :
    GivesAt s (peek >>= next) after := by
  rw [State.tokens, List.head?_map] at h
  exact h.of_eq rfl

theorem givesAt_peek_of_eq {t : Token} {next : Option Token → Reader β} (hs : s.tokens = t :: xs)
    (h : GivesAt s (next (some t)) after) : GivesAt s (peek >>= next) after :=
  givesAt_peek (by rwa [hs])

theorem givesAt_advance {t : Token} {next : Unit → Reader β} (hs : s.tokens = t :: xs)
    (h : ∀ u, u.tokens = xs → GivesAt u (next ()) after) : GivesAt s (advance >>= next) after := by
  have htokens := State.tokens_advance_of_eq hs
  obtain ⟨b, u, hb, herrors, hlength, hu⟩ := h s.advance htokens
  refine ⟨b, u, hb, herrors.trans s.errors_advance, ?_, hu⟩
  rw [htokens] at hlength
  rw [hs, List.length_cons]
  exact Nat.le_succ_of_le hlength

theorem givesAt_token?_of_eq {token : Token} {yes no : Reader β} (hs : s.tokens = token :: xs)
    (h : ∀ u, u.tokens = xs → GivesAt u yes after) :
    GivesAt s (do if ← token? token then yes else no) after := by
  have hadvance : GivesAt s (advance >>= fun _ => yes) after := givesAt_advance hs h
  refine hadvance.of_eq ?_
  rw [run_bind, run_token?_of_eq (by rw [hs]; rfl)]
  rfl

theorem givesAt_token?_of_ne {token : Token} {yes no : Reader β} (hs : s.tokens.head? ≠ some token)
    (h : GivesAt s no after) : GivesAt s (do if ← token? token then yes else no) after := by
  refine h.of_eq ?_
  rw [run_bind, run_token?_of_ne hs]
  rfl

theorem givesAt_token {token : Token} {next : Unit → Reader β} (hs : s.tokens = token :: xs)
    (h : ∀ u, u.tokens = xs → GivesAt u (next ()) after) : GivesAt s (Reader.token token >>= next) after := by
  have htoken : GivesAt s (Reader.token token) (· = xs) :=
    givesAt_token?_of_eq hs fun u hu => givesAt_pure hu
  exact htoken.bind fun _ u _ hu => h u hu

theorem givesAt_mark {p : Punctuation} {next : Unit → Reader β} (hs : s.tokens = .mark p :: xs)
    (h : ∀ u, u.tokens = xs → GivesAt u (next ()) after) : GivesAt s (mark p >>= next) after :=
  givesAt_token hs h

theorem givesAt_keyword {k : Keyword} {next : Unit → Reader β} (hs : s.tokens = .keyword k :: xs)
    (h : ∀ u, u.tokens = xs → GivesAt u (next ()) after) : GivesAt s (keyword k >>= next) after :=
  givesAt_token hs h

theorem run_ident {name : String} (hs : s.tokens = .ident name :: xs) :
    ident s = (some ⟨name, s.here⟩, s.advance) := by
  have hhead : s.rest.head?.map (·.value) = some (.ident name) := by
    rw [← List.head?_map]
    exact congrArg List.head? hs
  simp only [ident, run_bind, peek, hhead]
  rfl

theorem givesAt_ident {name : String} {next : Spanned String → Reader β}
    (hs : s.tokens = .ident name :: xs)
    (h : ∀ span u, u.tokens = xs → GivesAt u (next ⟨name, span⟩) after) :
    GivesAt s (ident >>= next) after := by
  have hgives : GivesAt s (advance >>= fun _ => next ⟨name, s.here⟩) after :=
    givesAt_advance hs (h s.here)
  refine hgives.of_eq ?_
  rw [run_bind, run_ident hs]
  rfl

theorem givesAt_newExpr {span : Span} {make : Site → Expr} (h : left s.tokens) :
    GivesAt s (newExpr span make) left := ⟨_, _, rfl, rfl, Nat.le_refl _, h⟩

theorem givesAt_newExpr_bind {span : Span} {make : Site → Expr} {next : Expr → Reader β}
    (h : ∀ e t, t.tokens = s.tokens → GivesAt t (next e) after) :
    GivesAt s (newExpr span make >>= next) after := by
  have hnew : GivesAt s (newExpr span make) (· = s.tokens) := givesAt_newExpr rfl
  exact hnew.bind fun e t _ ht => h e t ht

theorem givesAt_newType {span : Span} {make : Site → TypeExpr} (h : left s.tokens) :
    GivesAt s (newType span make) left := ⟨_, _, rfl, rfl, Nat.le_refl _, h⟩

theorem givesAt_newType_bind {span : Span} {make : Site → TypeExpr} {next : TypeExpr → Reader β}
    (h : ∀ type t, t.tokens = s.tokens → GivesAt t (next type) after) :
    GivesAt s (newType span make >>= next) after := by
  have hnew : GivesAt s (newType span make) (· = s.tokens) := givesAt_newType rfl
  exact hnew.bind fun type t _ ht => h type t ht

theorem givesAt_atClose_of_eq {close : Punctuation} {yes no : Reader β} (hs : s.tokens = .mark close :: xs)
    (h : GivesAt s yes after) : GivesAt s (do if ← atClose close then yes else no) after := by
  refine h.of_eq ?_
  rw [run_bind, run_atClose, hs]
  simp

theorem givesAt_atClose_of_ne {close : Punctuation} {yes no : Reader β}
    (hs : StartsWith (· ≠ .mark close) s.tokens) (h : GivesAt s no after) :
    GivesAt s (do if ← atClose close then yes else no) after := by
  obtain ⟨t, xs, hs, ht⟩ := hs
  refine h.of_eq ?_
  rw [run_bind, run_atClose, hs]
  simp [ht]

theorem length_tail_le {t : Token} {limit : Nat} {u : State} (hs : s.tokens = t :: xs)
    (hlimit : s.tokens.length ≤ limit) (hu : u.tokens = xs) : u.tokens.length ≤ limit := by
  rw [hs, List.length_cons] at hlimit
  rw [hu]
  omega

theorem length_tail_le_pred {t : Token} {limit : Nat} {u : State} (hs : s.tokens = t :: xs)
    (hlimit : s.tokens.length ≤ limit + 1) (hu : u.tokens = xs) : u.tokens.length ≤ limit := by
  rw [hs, List.length_cons] at hlimit
  rw [hu]
  omega

/-! ## Readers and phrases -/

/-- With no more than `limit` tokens left, and a phrase followed by tokens in `left`, the reader gives
something and leaves tokens in `left`. -/
def Takes (limit : Nat) (r : Reader α) (phrase : Phrase α) (left : List Token → Prop) : Prop :=
  ∀ s xs ys a, s.tokens.length ≤ limit → s.tokens = xs ++ ys → phrase xs a → left ys → GivesAt s r left

theorem Takes.mono {limit limit' : Nat} {phrase : Phrase α} (h : Takes limit r phrase left)
    (hlimit : limit' ≤ limit) : Takes limit' r phrase left :=
  fun s xs ys a hlength => h s xs ys a (Nat.le_trans hlength hlimit)

theorem takes_ident {limit : Nat} : Takes limit ident Name left := by
  rintro s _ ys name - hs ⟨⟩ hys
  have hadvance : GivesAt s (advance >>= fun _ => pure ()) left :=
    givesAt_advance hs fun u hu => givesAt_pure (hu ▸ hys)
  obtain ⟨a, t, hrun, herrors, hlength, ht⟩ := hadvance
  obtain rfl : s.advance = t := congrArg Prod.snd hrun
  exact ⟨_, _, run_ident hs, herrors, hlength, ht⟩

/-! ## Lists -/

section

variable {limit : Nat} {item : Reader α} {phrase : Phrase α}

section

variable {separator : Punctuation}
  (hitem : ∀ zs, zs = ys ∨ zs.head? = some (.mark separator) → Takes limit item phrase (· = zs))
  (hys : ys.head? ≠ some (.mark separator))
include hitem

/-- An item that is followed by more items, or by what follows them all. -/
theorem takes_separatedItem : Takes limit item phrase (ItemsBehind separator phrase ys) := by
  intro t xs zs a hlength ht ha hzs
  have hhead : zs = ys ∨ zs.head? = some (.mark separator) := by
    rcases hzs with rfl | ⟨_, _, rfl, -⟩
    · exact .inl rfl
    · exact .inr rfl
  exact (hitem zs hhead t xs zs a hlength ht ha rfl).mono fun ws hws => hws ▸ hzs

include hys

theorem givesAt_moreUpTo {count : Nat} (hcount : s.tokens.length ≤ count)
    (hlimit : s.tokens.length ≤ limit) (hs : ItemsBehind separator phrase ys s.tokens) :
    GivesAt s (moreUpTo separator item count) (· = ys) := by
  induction count generalizing s with
  | zero =>
      rcases hs with hs | ⟨xs, as, hs, -⟩
      · exact givesAt_pure hs
      · rw [hs] at hcount
        cases hcount
  | succ count ih =>
      rcases hs with hs | ⟨xs, as, hs, h⟩
      · exact givesAt_token?_of_ne (hs ▸ hys) (givesAt_pure hs)
      · rw [hs, List.length_cons] at hcount hlimit
        apply givesAt_token?_of_eq hs
        intro u hu
        obtain ⟨first, rest, a, heq, ha, hrest⟩ := h.split ys
        rw [← hu] at hcount hlimit
        have hfirst := takes_separatedItem hitem u first rest a (by omega) (hu.trans heq) ha hrest
        refine hfirst.bind fun b t ht htokens => ?_
        refine (ih (by omega) (by omega) htokens).bind fun more v _ hv => ?_
        exact givesAt_pure hv

theorem takes_separated : Takes limit (separated separator item) (Separated phrase separator) (· = ys) := by
  rintro s xs _ as hlength hs h rfl
  obtain ⟨first, rest, a, heq, ha, hrest⟩ := h.split _
  have hfirst := takes_separatedItem hitem s first rest a hlength (hs.trans heq) ha hrest
  refine hfirst.bind fun b t ht htokens => ?_
  have hmore := givesAt_moreUpTo hitem hys (Nat.le_refl _) (Nat.le_trans ht hlength) htokens
  exact (givesAt_bounded hmore).bind fun more u _ hu => givesAt_pure hu

end

theorem count_eq_succ {t : Token} {count : Nat} (hs : s.tokens = xs ++ t :: ys)
    (hcount : s.tokens.length ≤ count) : ∃ n, count = n + 1 := by
  rw [hs, List.length_append, List.length_cons] at hcount
  exact ⟨count - 1, by omega⟩

section

variable {close : Punctuation} (hclose : close ≠ .comma)
  (hitem : ∀ zs, zs.head? = some (.mark .comma) ∨ zs.head? = some (.mark close) →
    Takes limit item phrase (· = zs))
  (hstart : ∀ {xs a}, phrase xs a → StartsWith (· ≠ .mark close) xs)
include hclose hitem hstart

theorem givesAt_itemsUpTo {as : List α} (h : Items phrase xs as) {count : Nat}
    (hcount : s.tokens.length ≤ count) (hlimit : s.tokens.length ≤ limit)
    (hs : s.tokens = xs ++ .mark close :: ys) :
    GivesAt s (itemsUpTo close item count) (· = .mark close :: ys) := by
  induction h generalizing s count with
  | none =>
      obtain ⟨count, rfl⟩ := count_eq_succ hs hcount
      exact givesAt_atClose_of_eq hs (givesAt_pure hs)
  | last ha =>
      obtain ⟨count, rfl⟩ := count_eq_succ hs hcount
      apply givesAt_atClose_of_ne (hs ▸ (hstart ha).append _)
      refine (hitem _ (.inr rfl) s _ _ _ hlimit hs ha rfl).bind fun a t _ ht => ?_
      have hcomma : t.tokens.head? ≠ some (.mark .comma) := by
        rw [ht]
        simpa using hclose
      exact givesAt_token?_of_ne hcomma (givesAt_pure ht)
  | @more first rest a as ha hrest ih =>
      obtain ⟨count, rfl⟩ := count_eq_succ hs hcount
      apply givesAt_atClose_of_ne
      · rw [hs, List.append_assoc]
        exact (hstart ha).append _
      · have hs' : s.tokens = first ++ .mark .comma :: (rest ++ .mark close :: ys) := by simpa using hs
        refine (hitem _ (.inl rfl) s _ _ _ hlimit hs' ha rfl).bind fun a t hlength ht => ?_
        rw [ht, List.length_cons] at hlength
        apply givesAt_token?_of_eq ht
        intro u hu
        rw [← hu] at hlength
        refine (ih (by omega) (by omega) hu).bind fun more v _ hv => ?_
        exact givesAt_pure hv

theorem givesAt_itemsUntil {as : List α} (h : Items phrase xs as) (hlimit : s.tokens.length ≤ limit)
    (hs : s.tokens = xs ++ .mark close :: ys) : GivesAt s (itemsUntil close item) (· = ys) := by
  have hitems := givesAt_itemsUpTo hclose hitem hstart h (Nat.le_refl _) hlimit hs
  refine (givesAt_bounded hitems).bind fun as t _ ht => ?_
  apply givesAt_mark ht
  intro u hu
  exact givesAt_pure hu

end

end

end Sable.Reader
