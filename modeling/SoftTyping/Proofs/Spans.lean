import SoftTyping.Position

/-!
# Spans on their lines

The bytes before a span hold one line feed for each line above its position, so that the span lies on the line that the
position names. The column just behind a line feed is the exception: it has the offset of the next line's first column. Main
statement: `Position.span?_line`.
-/

namespace SoftTyping

/-! ## Line feeds among bytes -/

/-- How many line feeds stand among the bytes before an offset. -/
def feedsBefore (source : String) (offset : Nat) : Nat := (source.toByteArray.data.toList.take offset).count 10

/-- The bytes of a text. -/
def bytesOf (cs : List Char) : List UInt8 := cs.flatMap String.utf8EncodeChar

theorem bytes_eq_bytesOf (source : String) : source.toByteArray.data.toList = bytesOf source.toList := by
  rw [← String.utf8Encode_toList, List.utf8Encode, List.data_toByteArray]
  rfl

theorem bytesOf_append (a b : List Char) : bytesOf (a ++ b) = bytesOf a ++ bytesOf b := List.flatMap_append

theorem length_bytesOf (cs : List Char) : (bytesOf cs).length = byteLength cs := by
  induction cs with
  | nil => rfl
  | cons c rest ih =>
    rw [bytesOf, List.flatMap_cons, List.length_append, String.length_utf8EncodeChar, ← bytesOf, ih, byteLength]

theorem byteLength_toList (source : String) : byteLength source.toList = source.utf8ByteSize := by
  rw [← length_bytesOf, ← bytes_eq_bytesOf]
  rfl

theorem feed_notMem_utf8EncodeChar {c : Char} (h : c ≠ '\n') : 10 ∉ String.utf8EncodeChar c := by
  have hval : c.val.toNat ≠ 10 := fun hval => h (Char.ext (UInt32.toNat.inj hval))
  have hbyte : ∀ {n : Nat}, n < 256 → n ≠ 10 → 10 ≠ UInt8.ofNat n := by
    intro n hlt hne heq
    have := congrArg UInt8.toNat heq
    rw [UInt8.toNat_ofNat', Nat.mod_eq_of_lt hlt] at this
    exact hne this.symm
  unfold String.utf8EncodeChar
  dsimp only
  split
  · exact List.not_mem_cons_of_ne_of_not_mem (hbyte (by omega) hval) List.not_mem_nil
  -- Every byte of a longer character is 128 or more.
  · split
    · simp only [List.mem_cons, List.not_mem_nil, or_false, not_or]
      refine ⟨hbyte ?_ ?_, hbyte ?_ ?_⟩ <;> omega
    · split
      · simp only [List.mem_cons, List.not_mem_nil, or_false, not_or]
        refine ⟨hbyte ?_ ?_, hbyte ?_ ?_, hbyte ?_ ?_⟩ <;> omega
      · simp only [List.mem_cons, List.not_mem_nil, or_false, not_or]
        refine ⟨hbyte ?_ ?_, hbyte ?_ ?_, hbyte ?_ ?_, hbyte ?_ ?_⟩ <;> omega

theorem count_bytesOf {cs : List Char} (h : '\n' ∉ cs) : (bytesOf cs).count 10 = 0 := by
  rw [List.count_eq_zero, bytesOf, List.mem_flatMap]
  rintro ⟨c, hc, hmem⟩
  exact feed_notMem_utf8EncodeChar (fun heq => h (heq ▸ hc)) hmem

/-! ## Lines -/

/-- Every line ends with a line feed, except perhaps the last, and holds no other. -/
inductive AreLines : List (List Char) → Prop where
  | nil : AreLines []
  | last {line : List Char} : '\n' ∉ line → AreLines [line]
  | cons {body : List Char} {rest : List (List Char)} : '\n' ∉ body → AreLines rest → AreLines ((body ++ ['\n']) :: rest)

theorem areLines_linesOf (cs : List Char) : AreLines (linesOf cs) := by
  induction cs with
  | nil => exact .nil
  | cons c rest ih =>
    unfold linesOf
    split
    · next hc =>
      subst hc
      exact @AreLines.cons [] _ List.not_mem_nil ih
    · next hc =>
      have hne : ∀ {line : List Char}, '\n' ∉ line → '\n' ∉ c :: line := fun h =>
        List.not_mem_cons_of_ne_of_not_mem (Ne.symm hc) h
      split
      · next line more heq =>
        rw [heq] at ih
        cases ih with
        | last h => exact .last (hne h)
        | @cons body _ h hrs => exact @AreLines.cons (c :: body) _ (hne h) hrs
      · exact .last (hne List.not_mem_nil)

/-- A position points just behind the line feed that ends its line. -/
def Position.IsBehindFeed (p : Position) (source : String) : Prop :=
  ∃ line, (linesOf source.toList)[p.line - 1]? = some line ∧ line.getLast? = some '\n' ∧ p.column = byteLength line + 1

/-- The offset of a position is found where its line is long enough. -/
theorem offsetIn_eq_some {lines : List (List Char)} {start offset : Nat} {p : Position} (hl : p.line ≠ 0) :
    offsetIn lines start p = some offset ↔ ∃ line, lines[p.line - 1]? = some line ∧ p.column - 1 ≤ byteLength line ∧
      offset = start + byteLength (lines.take (p.line - 1)).flatten + (p.column - 1) := by
  induction lines generalizing start p with
  | nil => simp [offsetIn]
  | cons first rest ih =>
    obtain ⟨line, column⟩ := p
    rw [offsetIn]
    match line with
    | 1 => simp [byteLength, eq_comm]
    | n + 2 =>
      rw [if_neg (by simp), ih (by simp)]
      simp [byteLength_append, Nat.add_assoc]

/-- Up to a place on a line there is one line feed for each line above, and the one of the line itself behind it. -/
theorem count_take_bytesOf {lines : List (List Char)} (h : AreLines lines) {n k : Nat} {line : List Char}
    (hget : lines[n]? = some line) (hk : k ≤ byteLength line) :
    ((bytesOf lines.flatten).take (byteLength (lines.take n).flatten + k)).count 10 =
      n + if line.getLast? = some '\n' ∧ k = byteLength line then 1 else 0 := by
  have hended : ∀ {body : List Char}, '\n' ∉ body → (bytesOf (body ++ ['\n'])).count 10 = 1 := fun h => by
    rw [bytesOf_append, List.count_append, count_bytesOf h]
    rfl
  induction h generalizing n with
  | nil => nomatch hget
  | @last only h =>
    cases n with
    | succ n => nomatch hget
    | zero =>
      cases hget
      have hno : line.getLast? ≠ some '\n' := fun hls => h (List.mem_of_getLast? hls)
      rw [if_neg fun hls => hno hls.1, List.count_eq_zero]
      intro hmem
      simp only [List.flatten_cons, List.flatten_nil, List.append_nil] at hmem
      exact List.count_eq_zero.mp (count_bytesOf h) (List.mem_of_mem_take hmem)
  | @cons body rest h _ ih =>
    cases n with
    | succ n =>
      have := ih hget
      rw [List.take_succ_cons, List.flatten_cons, List.flatten_cons, byteLength_append, bytesOf_append, Nat.add_assoc,
        ← length_bytesOf (body ++ ['\n']), List.take_length_add_append, List.count_append, hended h, this]
      omega
    | zero =>
      cases hget
      simp only [List.take_zero, List.flatten_nil, byteLength, Nat.zero_add, List.flatten_cons, bytesOf_append]
      by_cases hfull : k = byteLength (body ++ ['\n'])
      · rw [if_pos ⟨by simp, hfull⟩, hfull, ← length_bytesOf, ← bytesOf_append, List.take_left, hended h]
      · have hle : k ≤ (bytesOf body).length := by
          have hfeed : byteLength ['\n'] = 1 := rfl
          rw [byteLength_append, hfeed] at hk hfull
          rw [length_bytesOf]
          omega
        rw [if_neg fun hls => hfull hls.2, List.append_assoc, List.take_append_of_le_length hle, List.count_eq_zero]
        exact fun hmem => List.count_eq_zero.mp (count_bytesOf h) (List.mem_of_mem_take hmem)

namespace Position

theorem span?_eq_some {source : String} {p : Position} {length : Nat} {span : Span} :
    p.span? source length = some span ↔ p.line ≠ 0 ∧ p.column ≠ 0 ∧ span.length = length ∧
      ∃ line, (linesOf source.toList)[p.line - 1]? = some line ∧ p.column - 1 ≤ byteLength line ∧
        span.offset = byteLength ((linesOf source.toList).take (p.line - 1)).flatten + (p.column - 1) := by
  obtain ⟨offset, size⟩ := span
  unfold span?
  by_cases hz : p.line = 0 ∨ p.column = 0
  · rw [if_pos hz]
    exact ⟨nofun, fun h => (hz.elim h.1 h.2.1).elim⟩
  · rw [not_or] at hz
    rw [if_neg (not_or.mpr hz), Option.map_eq_some_iff]
    constructor
    · rintro ⟨_, hoff, heq⟩
      cases heq
      obtain ⟨line, hget, hle, rfl⟩ := (offsetIn_eq_some hz.1).mp hoff
      exact ⟨hz.1, hz.2, rfl, line, hget, hle, by rw [Nat.zero_add]⟩
    · rintro ⟨_, _, rfl, line, hget, hle, rfl⟩
      exact ⟨_, (offsetIn_eq_some hz.1).mpr ⟨line, hget, hle, by rw [Nat.zero_add]⟩, rfl⟩

variable {source : String} {p q : Position} {length length' : Nat} {span span' : Span}

theorem offset_le_of_span? (h : p.span? source length = some span) : span.offset ≤ source.utf8ByteSize := by
  obtain ⟨_, _, _, line, hget, hle, hoff⟩ := span?_eq_some.mp h
  obtain ⟨hlt, rfl⟩ := List.getElem?_eq_some_iff.mp hget
  rw [hoff, ← byteLength_toList]
  conv => rhs; rw [← flatten_linesOf source.toList, ← List.take_append_drop (p.line - 1) (linesOf source.toList)]
  rw [List.flatten_append, byteLength_append, List.drop_eq_getElem_cons hlt, List.flatten_cons, byteLength_append]
  omega

theorem feedsBefore_of_span? (h : p.span? source length = some span) :
    (¬ p.IsBehindFeed source → feedsBefore source span.offset = p.line - 1) ∧
      (p.IsBehindFeed source → feedsBefore source span.offset = p.line) := by
  obtain ⟨hl, hcol, _, line, hget, hle, hoff⟩ := span?_eq_some.mp h
  have hcount := count_take_bytesOf (areLines_linesOf source.toList) hget hle
  rw [flatten_linesOf, ← hoff, ← bytes_eq_bytesOf] at hcount
  refine ⟨fun hno => ?_, ?_⟩
  · rw [feedsBefore, hcount, if_neg fun ⟨hls, hk⟩ => hno ⟨line, hget, hls, by omega⟩, Nat.add_zero]
  · rintro ⟨line', hget', hls, hk⟩
    cases hget.symm.trans hget'
    rw [feedsBefore, hcount, if_pos ⟨hls, by omega⟩]
    omega

theorem eq_of_offset_eq (hp : p.span? source length = some span) (hq : q.span? source length' = some span')
    (hnp : ¬ p.IsBehindFeed source) (hnq : ¬ q.IsBehindFeed source) (heq : span.offset = span'.offset) : p = q := by
  have hlines := (feedsBefore_of_span? hp).1 hnp
  rw [heq, (feedsBefore_of_span? hq).1 hnq] at hlines
  obtain ⟨hl, hcol, _, _, _, _, hoff⟩ := span?_eq_some.mp hp
  obtain ⟨hl', hcol', _, _, _, _, hoff'⟩ := span?_eq_some.mp hq
  rw [heq, hoff', hlines] at hoff
  obtain ⟨line, column⟩ := p
  obtain ⟨line', column'⟩ := q
  simp only at *
  congr 1 <;> omega

/-- A position has a span where its line has its column, or ends just before it. The span begins in the text, on the line of
the position, and no other position has its offset; unless the position points behind a line feed, where the span begins on
the next line. -/
theorem span?_line (source : String) :
    (∀ (p : Position) (length : Nat), (∃ span, p.span? source length = some span) ↔ p.line ≠ 0 ∧ p.column ≠ 0 ∧
      ∃ line, (linesOf source.toList)[p.line - 1]? = some line ∧ p.column - 1 ≤ byteLength line) ∧
    (∀ (p : Position) (length : Nat) (span : Span), p.span? source length = some span →
      span.length = length ∧ span.offset ≤ source.utf8ByteSize ∧
      (¬ p.IsBehindFeed source → feedsBefore source span.offset = p.line - 1) ∧
      (p.IsBehindFeed source → feedsBefore source span.offset = p.line)) ∧
    ∀ (p q : Position) (length length' : Nat) (span span' : Span), p.span? source length = some span →
      q.span? source length' = some span' → ¬ p.IsBehindFeed source → ¬ q.IsBehindFeed source →
      span.offset = span'.offset → p = q := by
  refine ⟨fun p length => ⟨?_, ?_⟩, fun p length span h => ?_, fun p q length length' span span' => eq_of_offset_eq⟩
  · rintro ⟨span, h⟩
    obtain ⟨hl, hcol, _, line, hget, hle, _⟩ := span?_eq_some.mp h
    exact ⟨hl, hcol, line, hget, hle⟩
  · rintro ⟨hl, hcol, line, hget, hle⟩
    exact ⟨⟨_, length⟩, span?_eq_some.mpr ⟨hl, hcol, rfl, line, hget, hle, rfl⟩⟩
  · obtain ⟨_, _, hlen, _⟩ := span?_eq_some.mp h
    exact ⟨hlen, offset_le_of_span? h, feedsBefore_of_span? h⟩

/-- The last column of a line, which is that of its line feed. -/
theorem span?_line_feed : Position.span? ⟨2, 3⟩ "é\n$a\n" 1 = some ⟨5, 1⟩ ∧ feedsBefore "é\n$a\n" 5 = 1 := by
  have h : Position.span? ⟨2, 3⟩ "é\n$a\n" 1 = some ⟨5, 1⟩ := by decide
  have hno : ¬ Position.IsBehindFeed ⟨2, 3⟩ "é\n$a\n" := by
    rintro ⟨line, hget, _, hcol⟩
    cases hget
    revert hcol
    decide
  exact ⟨h, ((span?_line _).2.1 _ _ _ h).2.2.1 hno⟩

/-- The column behind a line feed has the offset of the first column of the next line. -/
theorem span?_behind_feed : Position.span? ⟨1, 4⟩ "ab\ncd\n" 1 = some ⟨3, 1⟩ ∧
    Position.span? ⟨2, 1⟩ "ab\ncd\n" 1 = some ⟨3, 1⟩ ∧ feedsBefore "ab\ncd\n" 3 = 1 := by
  decide

end Position

end SoftTyping
