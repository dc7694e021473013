import Sable.Prelude
import Sable.Proofs.Soundness.Builtins
import Sable.Proofs.Ty.Written

/-! The text of the prelude, and a text behind it.

The prelude is cut into the tokens of one declaration for each builtin. It ends in a line break, so that no token
reaches into the text behind it, which is cut as it is by itself, only further on. -/
namespace Sable

open Token

/-! ## Cutting -/

namespace Scan

def moved (offset : Nat) (found : Scan) : Scan := ⟨found.tokens.map (·.moved offset), found.unexpected.map (·.moved offset)⟩

theorem ofPieces_append (xs ys : List (Spanned Piece)) :
    ofPieces (xs ++ ys) = ⟨(ofPieces xs).tokens ++ (ofPieces ys).tokens,
      (ofPieces xs).unexpected ++ (ofPieces ys).unexpected⟩ := by
  simp only [ofPieces, List.filterMap_append]

theorem ofPieces_moved (offset : Nat) (pieces : List (Spanned Piece)) :
    ofPieces (pieces.map (·.moved offset)) = (ofPieces pieces).moved offset := by
  induction pieces with
  | nil => rfl
  | cons piece pieces ih =>
      obtain ⟨value, span⟩ := piece
      obtain ⟨htokens, hunexpected⟩ := Scan.mk.injEq .. ▸ ih
      cases value with
      | token t => exact congrArg₂ Scan.mk (congrArg (_ :: ·) htokens) hunexpected
      | unexpected => exact congrArg₂ Scan.mk htokens (congrArg (_ :: ·) hunexpected)

end Scan

theorem scan_append_newline (front source : String) :
    scan (front ++ "\n" ++ source) =
      ⟨(scan front).tokens ++ ((scan source).moved (front.utf8ByteSize + 1)).tokens,
        (scan front).unexpected ++ ((scan source).moved (front.utf8ByteSize + 1)).unexpected⟩ := by
  have htext : (front ++ "\n" ++ source).toList = front.toList ++ '\n' :: source.toList := by
    simp [String.toList_append]
  have hmoved := piecesFrom_moved (front.utf8ByteSize + 1) 0 source.toList
  rw [Nat.zero_add] at hmoved
  rw [scan, htext, pieces_eq, piecesFrom_append_newline, byteLength_toList, Nat.zero_add, hmoved,
    Scan.ofPieces_append, Scan.ofPieces_moved]
  simp only [scan, pieces_eq]

theorem stop_le_of_mem_piecesFrom {start : Nat} {text : List Char} {piece : Spanned Piece}
    (h : piece ∈ piecesFrom start text) : piece.span.stop ≤ start + byteLength text := by
  induction text using pieces_induction generalizing start with
  | nil => cases h
  | blank c rest hblank ih =>
      rw [piecesFrom_blank hblank] at h
      have := ih h
      rw [byteLength]
      omega
  | comment rest ih =>
      rw [piecesFrom_comment] at h
      have hle := ih h
      have hlength : byteLength rest =
          byteLength (rest.takeWhile (· ≠ '\n')) + byteLength (rest.dropWhile (· ≠ '\n')) := by
        rw [← byteLength_append, List.takeWhile_append_dropWhile]
      have hsemicolon : byteLength (';' :: rest) = 1 + byteLength rest := rfl
      omega
  | lexeme c rest t chars more hblank hcomment hlexeme htext ih =>
      rw [piecesFrom_lexeme hblank hcomment hlexeme htext] at h
      rw [htext, byteLength_append]
      rcases List.mem_cons.mp h with rfl | h
      · exact Nat.add_le_add_left (Nat.le_add_right _ _) _
      · have := ih h
        omega
  | unexpected c rest hblank hcomment hlexeme ih =>
      rw [piecesFrom_unexpected hblank hcomment hlexeme] at h
      rw [byteLength]
      rcases List.mem_cons.mp h with rfl | h
      · exact Nat.add_le_add_left (Nat.le_add_right _ _) _
      · have := ih h
        omega

theorem stop_le_of_mem_scan {source : String} {t : Spanned Token} (h : t ∈ (scan source).tokens) :
    t.span.stop ≤ source.utf8ByteSize := by
  simp only [scan, Scan.ofPieces, List.mem_filterMap, pieces_eq] at h
  obtain ⟨piece, hpiece, htoken⟩ := h
  have hle := stop_le_of_mem_piecesFrom hpiece
  rw [byteLength_toList, Nat.zero_add] at hle
  obtain ⟨value, span⟩ := piece
  cases value with
  | token _ => cases htoken; exact hle
  | unexpected => cases htoken

/-! ## The prelude -/

namespace Prelude

/-- The type variables of a builtin in the prelude. -/
def typeVariables : Builtin → List TypeVariable
  | .range | .naturals | .sum | .bigint => []
  | .filter => [⟨"A", 0⟩]
  | .map => [⟨"A", 1⟩, ⟨"B", 2⟩]
  | .take => [⟨"A", 3⟩]
  | .list => [⟨"A", 4⟩]
  | .sequence => [⟨"A", 5⟩]
  | .length => [⟨"A", 6⟩]
  | .get => [⟨"A", 7⟩]

/-- The tokens of the declaration of a builtin. -/
def tokens (b : Builtin) : List Token :=
  match b.type? (typeVariables b) with
  | some (.function vs ps result) =>
    .keyword .externalWord :: .keyword .defWord :: .ident b.name ::
      (Ty.variableTokens vs ++ Ty.parametersTokens ps ++ .mark .colon :: result.tokens)
  | _ => []

theorem found_text : found text.toList = (Builtin.all.flatMap tokens).map .token := by
  unfold text
  repeat rw [String.toList_append]
  repeat rw [String.toList_ofList]
  decide +kernel

theorem utf8ByteSize_lt_offset : text.utf8ByteSize < offset := by
  rw [offset]
  generalize text.utf8ByteSize = n
  exact Nat.lt_add_one n

end Prelude

end Sable
