import Sable.Proofs.Reader.Bodies
import Sable.Proofs.Reader.MovedBodies
import Sable.Proofs.Reader.Spares

/-! Brackets in pairs, and going on after an error.

Skipping counts the brackets that are opened on the way, so it passes over tokens whose brackets are in pairs. Where
reading has ended among such tokens, some brackets may be open already. The ones that close these have no partner in
what is left, and a closing brace without a partner is where skipping stops. -/
namespace Sable

/-- An opening bracket and the closing one of its kind. -/
inductive Punctuation.Pair : Punctuation → Punctuation → Prop
  | parens : Pair .leftParen .rightParen
  | brackets : Pair .leftBracket .rightBracket
  | braces : Pair .leftBrace .rightBrace

namespace Token

def isBracket : Token → Bool
  | .mark .leftParen | .mark .rightParen => true
  | .mark .leftBracket | .mark .rightBracket => true
  | .mark .leftBrace | .mark .rightBrace => true
  | _ => false

/-- Tokens whose brackets are in pairs. -/
inductive Balanced : List Token → Prop
  | nil : Balanced []
  | plain {t : Token} {xs : List Token} (ht : t.isBracket = false) (h : Balanced xs) : Balanced (t :: xs)
  | pair {first last : Punctuation} {xs ys : List Token} (hpair : first.Pair last) (hinside : Balanced xs)
      (h : Balanced ys) : Balanced (.mark first :: xs ++ .mark last :: ys)

/-- Tokens whose brackets are in pairs, but for closing ones without a partner. -/
inductive Closing : List Token → Prop
  | balanced {xs : List Token} (h : Balanced xs) : Closing xs
  | close {first last : Punctuation} {xs ys : List Token} (hpair : first.Pair last) (h : Balanced xs)
      (hrest : Closing ys) : Closing (xs ++ .mark last :: ys)

theorem Closing.append_close {first last : Punctuation} {xs ys : List Token} (hpair : first.Pair last)
    (h : Closing xs) (hrest : Closing ys) : Closing (xs ++ .mark last :: ys) := by
  induction h with
  | balanced h => exact .close hpair h hrest
  | close hpair' h _ ih =>
      rw [List.append_assoc]
      exact .close hpair' h ih

/-- What is left of tokens whose brackets are in pairs lacks no closing bracket. -/
theorem Balanced.closing_of_append {xs ys : List Token} (h : Balanced (xs ++ ys)) : Closing ys := by
  generalize htokens : xs ++ ys = tokens at h
  induction h generalizing xs ys with
  | nil =>
      obtain ⟨-, rfl⟩ := List.append_eq_nil_iff.mp htokens
      exact .balanced .nil
  | plain ht h ih =>
      cases xs with
      | nil =>
          rw [List.nil_append] at htokens
          exact htokens ▸ .balanced (.plain ht h)
      | cons x xs => exact ih (List.cons.inj htokens).2
  | @pair first last inside rest hpair hinside h ihinside ih =>
      cases xs with
      | nil =>
          rw [List.nil_append] at htokens
          exact htokens ▸ .balanced (.pair hpair hinside h)
      | cons x xs =>
          -- What is left begins inside the pair, or behind the bracket that closes it.
          have htokens := (List.cons.inj htokens).2
          rcases List.append_eq_append_iff.mp htokens with ⟨more, hmore, hys⟩ | ⟨more, hxs, hmore⟩
          · rw [hys]
            exact (ihinside hmore.symm).append_close hpair (.balanced h)
          · cases more with
            | nil =>
                rw [List.nil_append] at hmore
                exact hmore ▸ .close hpair .nil (.balanced h)
            | cons y more => exact ih (List.cons.inj hmore).2.symm

end Token

namespace Reader

open Token

variable {depth : Nat} {previous : Span} {u : Spanned Token} {us : List (Spanned Token)} {xs ys : List Token}

theorem DeclarationEnd.exists_cons (h : DeclarationEnd xs) : ∃ x rest, xs = x :: rest ∧ x.beginsPart = true := by
  obtain ⟨k, hhead, hk⟩ := h
  obtain ⟨rest, hrest⟩ := List.head?_eq_some_iff.mp hhead
  exact ⟨.keyword k, rest, hrest, by simpa [beginsPart] using hk⟩

/-! ## Skipping -/

theorem skipFrom_of_plain (hbracket : u.value.isBracket = false) (hpart : u.value.beginsPart = false) :
    skipFrom depth previous (u :: us) = skipFrom depth u.span us := by
  obtain ⟨value, span⟩ := u
  cases value with
  | mark p => cases p <;> first | rfl | cases hbracket
  | keyword k =>
      have hk : k.opensDeclaration = false ∧ k ≠ .returnWord := by simpa [beginsPart] using hpart
      simp [skipFrom, hk]
  | number value => rfl
  | bigInteger digits => rfl
  | ident name => rfl

theorem skipFrom_of_first {first last : Punctuation} (hpair : first.Pair last) (hu : u.value = .mark first) :
    skipFrom depth previous (u :: us) = skipFrom (depth + 1) u.span us := by
  cases hpair <;> simp only [skipFrom, hu]

theorem skipFrom_of_last {first last : Punctuation} (hpair : first.Pair last) (hu : u.value = .mark last) :
    skipFrom (depth + 1) previous (u :: us) = skipFrom depth u.span us := by
  cases hpair <;> simp [skipFrom, hu]

/-- With no bracket open, skipping stops at a closing brace and goes on behind other closing brackets. -/
theorem skipFrom_zero_of_last {first last : Punctuation} (hpair : first.Pair last) (hu : u.value = .mark last) :
    skipFrom 0 previous (u :: us) = if last = .rightBrace then (previous, u :: us) else skipFrom 0 u.span us := by
  cases hpair <;> simp [skipFrom, hu]

theorem skipFrom_zero_of_beginsPart (hu : u.value.beginsPart = true) :
    skipFrom 0 previous (u :: us) = (previous, u :: us) := by
  obtain ⟨value, span⟩ := u
  cases value with
  | keyword k =>
      have hk : k.opensDeclaration = true ∨ k = .returnWord := by simpa [beginsPart] using hu
      simp [skipFrom, hk]
  | _ => cases hu

/-- Skipping passes over tokens whose brackets are in pairs, however many others are open. -/
theorem exists_skipFrom_balanced (h : Balanced xs) (hparts : ∀ t ∈ xs, t.beginsPart = false)
    (hus : us.map (·.value) = xs ++ ys) (depth : Nat) (previous : Span) :
    ∃ last vs, vs.map (·.value) = ys ∧ skipFrom depth previous us = skipFrom depth last vs := by
  induction h generalizing us ys depth previous with
  | nil => exact ⟨previous, us, hus, rfl⟩
  | @plain t xs ht h ih =>
      obtain ⟨u, us, rfl, rfl, hrest⟩ := List.map_eq_cons_iff.mp hus
      obtain ⟨hpart, hparts⟩ := List.forall_mem_cons.mp hparts
      rw [skipFrom_of_plain ht hpart]
      exact ih hparts hrest depth u.span
  | @pair first last inside rest hpair hinside h ihinside ih =>
      obtain ⟨hinsideParts, hrestParts⟩ := List.forall_mem_append.mp (List.forall_mem_cons.mp hparts).2
      have hus' : us.map (·.value) = .mark first :: (inside ++ .mark last :: (rest ++ ys)) := by simpa using hus
      obtain ⟨u, us, rfl, hu, hbehind⟩ := List.map_eq_cons_iff.mp hus'
      obtain ⟨previous', vs, hvs, hskip⟩ := ihinside hinsideParts hbehind (depth + 1) u.span
      obtain ⟨v, vs, rfl, hv, hrest⟩ := List.map_eq_cons_iff.mp hvs
      rw [skipFrom_of_first hpair hu, hskip, skipFrom_of_last hpair hv]
      exact ih (List.forall_mem_cons.mp hrestParts).2 hrest depth v.span

/-- In what is left of such tokens skipping stops at a closing brace, or it comes to the part of a body behind them. -/
theorem skipFrom_closing (h : Closing xs) (hparts : ∀ t ∈ xs, t.beginsPart = false) (hys : DeclarationEnd ys)
    (hus : us.map (·.value) = xs ++ ys) (previous : Span) :
    let left := (skipFrom 0 previous us).2.map (·.value)
    left = ys ∨ left.head? = some (.mark .rightBrace) ∧ .mark .rightBrace ∈ xs := by
  induction h generalizing us previous with
  | balanced h =>
      obtain ⟨last, vs, hvs, hskip⟩ := exists_skipFrom_balanced h hparts hus 0 previous
      obtain ⟨y, rest, rfl, hy⟩ := hys.exists_cons
      obtain ⟨v, vs, rfl, hv, -⟩ := List.map_eq_cons_iff.mp hvs
      left
      rw [hskip, skipFrom_zero_of_beginsPart (hv ▸ hy)]
      exact hvs
  | @close first last xs rest hpair h hrest ih =>
      obtain ⟨hxsParts, hrestParts⟩ := List.forall_mem_append.mp hparts
      have hus' : us.map (·.value) = xs ++ .mark last :: (rest ++ ys) := by simpa using hus
      obtain ⟨previous', vs, hvs, hskip⟩ := exists_skipFrom_balanced h hxsParts hus' 0 previous
      obtain ⟨v, vs, rfl, hv, hbehind⟩ := List.map_eq_cons_iff.mp hvs
      rw [hskip, skipFrom_zero_of_last hpair hv]
      by_cases hlast : last = .rightBrace
      · subst hlast
        right
        simp [hv]
      · rw [if_neg hlast]
        rcases ih (List.forall_mem_cons.mp hrestParts).2 hbehind v.span with hleft | ⟨hleft, hmem⟩
        · exact .inl hleft
        · exact .inr ⟨hleft, List.mem_append_right _ (.tail _ hmem)⟩

theorem exists_recover {s : State} (h : Closing xs) (hparts : ∀ t ∈ xs, t.beginsPart = false)
    (hys : DeclarationEnd ys) (hs : s.tokens = xs ++ ys) :
    ∃ t, recover s = (some (), t) ∧ t.tokens.length ≤ s.tokens.length ∧
      (t.tokens = ys ∨ t.tokens.head? = some (.mark .rightBrace) ∧ .mark .rightBrace ∈ xs) := by
  refine ⟨_, rfl, ?_, skipFrom_closing h hparts hys hs s.previous⟩
  rw [← State.length_rest, ← State.length_rest]
  exact length_skipFrom_le 0 s.previous s.rest

end Reader

end Sable
