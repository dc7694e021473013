import Sable.Proofs.Prelude.Text
import Sable.Proofs.Token.Munch

/-! Texts that are scanned line by line.

A line feed stands in no token and ends every comment, so what is found in two texts with a line break between them
is what is found in the one and then, further on, what is found in the other. What stands behind a place where a line
begins can be told by where it begins; counted from there it is what is found in the rest of the text by itself. -/
namespace Sable

theorem Span.rebase_moved (offset : Nat) (s : Span) : (s.moved offset).rebase offset = s := by
  simp only [rebase, moved, Nat.add_sub_cancel]

/-- Moved left by `offset` bytes. -/
def Spanned.rebase {α : Type} (offset : Nat) (a : Spanned α) : Spanned α := ⟨a.value, a.span.rebase offset⟩

theorem Spanned.rebase_moved {α : Type} (offset : Nat) (a : Spanned α) : (a.moved offset).rebase offset = a := by
  rw [rebase, moved, Span.rebase_moved]

namespace Scan

/-- What begins at byte `offset` or later, at its place counted from there. -/
def behind (offset : Nat) (found : Scan) : Scan where
  tokens := (found.tokens.filter fun t => offset ≤ t.span.start).map (·.rebase offset)
  unexpected := (found.unexpected.filter fun span => offset ≤ span.start).map (·.rebase offset)

end Scan

namespace Token

/-- What is found at one of the places of a text ends in the text, behind the place where it begins. -/
theorem Partitions.bounds_of_mem {source : String} {pieces : List (Spanned Piece)} (h : Partitions source pieces) :
    (∀ t ∈ (Scan.ofPieces pieces).tokens, t.span.start < t.span.stop ∧ t.span.stop ≤ source.utf8ByteSize) ∧
      ∀ span ∈ (Scan.ofPieces pieces).unexpected, span.start < span.stop ∧ span.stop ≤ source.utf8ByteSize := by
  constructor
  · intro t ht
    obtain ⟨⟨value, span⟩, hmem, hpiece⟩ := List.mem_filterMap.mp ht
    cases value with
    | token _ => cases hpiece; exact ⟨h.nonempty _ hmem, h.inside _ hmem⟩
    | unexpected => cases hpiece
  · intro place hplace
    obtain ⟨⟨value, span⟩, hmem, hpiece⟩ := List.mem_filterMap.mp hplace
    cases value with
    | token _ => cases hpiece
    | unexpected => cases hpiece; exact ⟨h.nonempty _ hmem, h.inside _ hmem⟩

theorem partitions_scan (source : String) : Partitions source (piecesFrom 0 source.toList) :=
  (cutInto_piecesFrom 0 source.toList).partitions

end Token

open Token

/-- Of what begins before the offset, and what has been moved behind it, the latter stands behind it. -/
theorem filter_append_moved {α : Type} (place : α → Span) {offset : Nat} {move back : α → α} {front rest : List α}
    (hfront : ∀ a ∈ front, (place a).start < offset) (hplace : ∀ a, (place (move a)).start = (place a).start + offset)
    (hback : ∀ a, back (move a) = a) :
    ((front ++ rest.map move).filter fun a => offset ≤ (place a).start).map back = rest := by
  have hdropped : front.filter (fun a => offset ≤ (place a).start) = [] := by
    rw [List.filter_eq_nil_iff]
    intro a ha
    simpa using hfront a ha
  have hkept : (rest.map move).filter (fun a => offset ≤ (place a).start) = rest.map move := by
    rw [List.filter_eq_self, List.forall_mem_map]
    intro a _
    simp [hplace]
  rw [List.filter_append, hdropped, hkept, List.nil_append, List.map_map]
  exact List.map_id'' hback rest

/-- Behind a line break there is what is found in the text behind it by itself. -/
theorem behind_scan_append_newline (front source : String) :
    (scan (front ++ "\n" ++ source)).behind (front.utf8ByteSize + 1) = scan source := by
  obtain ⟨htokens, hunexpected⟩ := (partitions_scan front).bounds_of_mem
  have hbefore {span : Span} (h : span.start < span.stop ∧ span.stop ≤ front.utf8ByteSize) :
      span.start < front.utf8ByteSize + 1 := by omega
  rw [scan_append_newline]
  refine congrArg₂ Scan.mk ?_ ?_
  · exact filter_append_moved Spanned.span (fun t ht => hbefore (htokens t ht)) (fun _ => rfl)
      (Spanned.rebase_moved _)
  · exact filter_append_moved id (fun span hspan => hbefore (hunexpected span hspan)) (fun _ => rfl)
      (Span.rebase_moved _)

/-- A text of lines is scanned like its parts, and so is a text behind the prelude. -/
theorem scan_lines (front source : String) :
    scan (front ++ "\n" ++ source) =
      ⟨(scan front).tokens ++ (scan source).tokens.map (·.moved (front.utf8ByteSize + 1)),
        (scan front).unexpected ++ (scan source).unexpected.map (·.moved (front.utf8ByteSize + 1))⟩ ∧
    (scan (front ++ "\n" ++ source)).behind (front.utf8ByteSize + 1) = scan source ∧
    (scan (Prelude.prepend source)).behind Prelude.offset = scan source :=
  ⟨scan_append_newline front source, behind_scan_append_newline front source,
    behind_scan_append_newline Prelude.text source⟩

end Sable
