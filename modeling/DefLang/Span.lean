import DefLang.Text.Bytes
import DefLang.Text.Lines

namespace DefLang
open Text

/-- A range of bytes in a source. -/
structure Span where
  offset : UInt32
  length : UInt32
  deriving DecidableEq, Repr

/-- Line and column, both counted from one; columns count characters. -/
structure Position where
  line : UInt32
  column : UInt32
  deriving DecidableEq, Repr

/-- The position right after `before`. -/
def Position.after (before : List Char) : Position :=
  let all := lines before
  { line := UInt32.ofNat all.length
    column := UInt32.ofNat (all.getLastD []).length + 1 }

namespace Span

/-- The characters of the span, if it starts and ends between characters of the source. -/
def text? (s : Span) (source : List Char) : Option (List Char) := do
  let (_, rest) ← cut? s.offset.toNat source
  let (text, _) ← cut? s.length.toNat rest
  return text

/-- Where the span starts. A start past the end counts as the end; one inside a character has no
position. -/
def position? (s : Span) (source : List Char) : Option Position := do
  let (before, _) ← cut? (min s.offset.toNat (byteSize source)) source
  return Position.after before

/-- The empty span right after `s`. -/
def stop (s : Span) : Span :=
  { offset := s.offset + s.length, length := 0 }

theorem text?_eq_some_iff (s : Span) (source text : List Char) :
    s.text? source = some text ↔
      ∃ a b, source = a ++ text ++ b ∧ byteSize a = s.offset.toNat ∧
        byteSize text = s.length.toNat := by
  simp only [text?, Option.bind_eq_bind, Option.bind_eq_some_iff, Option.pure_def,
    Option.some.injEq, Prod.exists, cut?_eq_some_iff]
  constructor
  · rintro ⟨a, r, ⟨rfl, ha⟩, t, b, ⟨rfl, ht⟩, rfl⟩
    exact ⟨a, b, by simp, ha, ht⟩
  · rintro ⟨a, b, rfl, ha, ht⟩
    exact ⟨a, text ++ b, ⟨by simp, ha⟩, text, b, ⟨rfl, ht⟩, rfl⟩

theorem position?_eq_some_iff (s : Span) (source : List Char) (p : Position) :
    s.position? source = some p ↔
      ∃ a b, source = a ++ b ∧ byteSize a = min s.offset.toNat (byteSize source) ∧
        Position.after a = p := by
  simp only [position?, Option.bind_eq_bind, Option.bind_eq_some_iff, Option.pure_def,
    Option.some.injEq, Prod.exists, cut?_eq_some_iff]
  constructor
  · rintro ⟨a, b, ⟨hs, ha⟩, rfl⟩
    exact ⟨a, b, hs, ha, rfl⟩
  · rintro ⟨a, b, hs, ha, rfl⟩
    exact ⟨a, b, ⟨hs, ha⟩, rfl⟩

end Span

end DefLang
