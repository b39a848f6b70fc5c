import EnumReflection.Proofs.Bracket
import EnumReflection.Proofs.Bytes.Comma

/-!
# Segments over bytes

Over the bytes of a declaration brackets are counted in 32 bits. On every text of less than two to
the power of 31 bytes the split over bytes therefore recovers well-formed bodies, and it ends a
segment inside matched brackets only after single `>` signs.
-/
namespace EnumReflection.Bytes
open Segment (LiesInside Matched WellFormed surplus)

/-- The split over bytes recovers every list of well-formed bodies that is not too long. -/
theorem segments_of_wellFormed {ts : List Text} (hne : ts ≠ []) (h : ∀ t ∈ ts, WellFormed t)
    (hlen : Text.byteLength (Text.join [','] ts) < Nat.pow 2 31) :
    segments (Text.join [','] ts) = .ok (Segment.place 0 ts) := by
  rw [segments_eq hlen, Segment.segments_join hne fun t ht => (h t ht).closed]

/-- In a declaration whose brackets match, the split over bytes ends a segment deeper in them than
it starts it only by single `>` signs. -/
theorem exists_segments_of_matched {t : Text} (hmatched : Matched (Lexeme.lex t))
    (hlen : t.byteLength < Nat.pow 2 31) :
    ∃ ss, segments t = .ok ss ∧
      (∀ s ∈ ss, (∃ m, LiesInside t s.start m) ∧ (∃ n, LiesInside t s.stop n) ∧
        ∀ m n, LiesInside t s.start m → LiesInside t s.stop n → 0 < n →
          (n : Int) ≤ m + surplus none (Lexeme.lex s.text)) ∧
      ((∀ s ∈ ss, surplus none (Lexeme.lex s.text) ≤ 0) →
        ∀ s ∈ ss, ∀ n, LiesInside t s.stop n → n = 0) :=
  ⟨_, segments_eq hlen, fun _ hs => Segment.ends_of_mem_segments hmatched hs,
    fun hsigns _ hs _ hn => Segment.stop_outside hmatched hsigns hs hn⟩

end EnumReflection.Bytes
