/-! Spans: stretches of source text, counted in bytes of its UTF-8 form. -/
namespace Sable

/-- The bytes from `start` up to, not including, `stop`. -/
structure Span where
  start : Nat
  stop : Nat
deriving DecidableEq, Repr, Inhabited

namespace Span

/-- The span of nothing, at the start of the text. -/
def none : Span := ⟨0, 0⟩

/-- The least span that covers both. -/
def merge (a b : Span) : Span := ⟨min a.start b.start, max a.stop b.stop⟩

/-- Moved left by `offset` bytes; an end that would fall before the text stays at its start. -/
def rebase (s : Span) (offset : Nat) : Span := ⟨s.start - offset, s.stop - offset⟩

end Span

/-- Something read from the text, with the place where it stands. -/
structure Spanned (α : Type) where
  value : α
  span : Span
deriving DecidableEq, Repr

end Sable
