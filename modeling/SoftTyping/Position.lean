/-!
# Positions and spans of a source text

A position is a line and a column, both counted from one; the origin, line and column zero, stands for "nowhere in the
text". A span is an offset and a length in bytes of UTF-8.
-/

namespace SoftTyping

/-- A line and a column of a source text. -/
structure Position where
  line : Nat
  column : Nat
deriving DecidableEq, Repr, Inhabited

namespace Position

/-- The position of what is not written in any text. -/
def origin : Position := ⟨0, 0⟩

/-- Positions are ordered by line, and within a line by column. -/
def order (a b : Position) : Ordering :=
  (compare a.line b.line).then (compare a.column b.column)

/-- Whether `a` stands before `b`. -/
def isBefore (a b : Position) : Bool := a.order b == .lt

/-- A position as it is shown: line, colon, column. -/
def render (p : Position) : String := s!"{p.line}:{p.column}"

/-- A position stands before another on an earlier line, or in an earlier column of the same line. -/
theorem isBefore_iff (a b : Position) :
    a.isBefore b = true ↔ a.line < b.line ∨ (a.line = b.line ∧ a.column < b.column) := by
  simp only [isBefore, order, beq_iff_eq, Ordering.then_eq_lt, Nat.compare_eq_lt, Nat.compare_eq_eq]

end Position

/-- A stretch of a source text, in bytes. -/
structure Span where
  offset : Nat
  length : Nat
deriving DecidableEq, Repr

/-- The lines of a text, each with the line feed that ends it. -/
def linesOf : List Char → List (List Char)
  | [] => []
  | c :: rest =>
    if c = '\n' then [c] :: linesOf rest
    else match linesOf rest with
      | line :: more => (c :: line) :: more
      | [] => [[c]]

/-- How many bytes a text takes. -/
def byteLength : List Char → Nat
  | [] => 0
  | c :: rest => c.utf8Size + byteLength rest

/-- The bytes of two texts add up. -/
@[simp] theorem byteLength_append (a b : List Char) : byteLength (a ++ b) = byteLength a + byteLength b := by
  induction a with
  | nil => simp [byteLength]
  | cons c rest ih =>
    simp only [List.cons_append, byteLength, ih]
    omega

/-- No character is lost between the lines. -/
@[simp] theorem flatten_linesOf (cs : List Char) : (linesOf cs).flatten = cs := by
  induction cs with
  | nil => rfl
  | cons c rest ih =>
    unfold linesOf
    split
    · simp [ih]
    · split
      · next line more h =>
        rw [h] at ih
        simpa using ih
      · next h =>
        rw [h] at ih
        simpa using ih

/-- The offset of a position among lines that begin at `start`. A column may point just behind its line. -/
def offsetIn : (lines : List (List Char)) → (start : Nat) → Position → Option Nat
  | [], _, _ => none
  | line :: rest, start, p =>
    if p.line = 1 then
      if p.column - 1 ≤ byteLength line then some (start + (p.column - 1)) else none
    else offsetIn rest (start + byteLength line) { p with line := p.line - 1 }

/-- The span of `length` bytes that begins at a position of `source`, if the position lies in it. -/
def Position.span? (p : Position) (source : String) (length : Nat) : Option Span :=
  if p.line = 0 ∨ p.column = 0 then none
  else (offsetIn (linesOf source.toList) 0 p).map (fun offset => ⟨offset, length⟩)

end SoftTyping
