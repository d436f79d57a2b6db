import Mathlib.Data.List.Chain
import Mathlib.Data.List.DropRight
import SoftTyping.Builtin.Signature
import SoftTyping.Proofs.Refusal

/-!
# Reading what is written

A signature that is read from any text has names that can be written (`Signature.IsWritable`), and a signature with such
names is read back from its written form. The names may hold dashes, blanks, brackets and braces; what they may not hold
is only what would end them.
-/

namespace SoftTyping

namespace Text

/-! ## Blanks around a text -/

theorem trim_eq_rdropWhile (cs : List Char) : trim cs = (cs.dropWhile isBlank).rdropWhile isBlank :=
  rfl

theorem isInfix_trim (cs : List Char) : trim cs <:+: cs :=
  (List.rdropWhile_prefix isBlank _).isInfix.trans (List.dropWhile_suffix isBlank).isInfix

theorem isTrimmed_trim (cs : List Char) : IsTrimmed (trim cs) := by
  rw [trim_eq_rdropWhile]
  constructor
  · intro c hc
    -- The first character that is left is the first one behind the blanks in front.
    have h := List.head?_dropWhile_not isBlank cs
    obtain ⟨trail, ht⟩ := List.rdropWhile_prefix isBlank (cs.dropWhile isBlank)
    rwa [← ht, List.head?_append, Option.mem_def.mp hc] at h
  · intro c hc
    obtain ⟨hne, rfl⟩ := List.mem_getLast?_eq_getLast hc
    simpa using List.rdropWhile_last_not isBlank (cs.dropWhile isBlank) hne

theorem trim_blank_append {lead : List Char} (h : ∀ c ∈ lead, isBlank c = true) (cs : List Char) :
    trim (lead ++ cs) = trim cs := by
  rw [trim, List.dropWhile_append_of_pos h, trim]

theorem trim_append_blank {trail : List Char} (h : ∀ c ∈ trail, isBlank c = true) (cs : List Char) :
    trim (cs ++ trail) = trim cs := by
  rw [trim, trim, List.dropWhile_append]
  split
  next he =>
    rw [List.isEmpty_iff] at he
    rw [he, List.dropWhile_eq_nil_iff.mpr h]
  next => rw [List.reverse_append, List.dropWhile_append_of_pos (by simpa using h)]

theorem trim_eq_nil_iff {cs : List Char} : trim cs = [] ↔ ∀ c ∈ cs, isBlank c = true := by
  rw [trim_eq_rdropWhile, List.rdropWhile_eq_nil_iff, ← List.dropWhile_eq_nil_iff, List.dropWhile_idempotent,
    List.dropWhile_eq_nil_iff]

/-! ## Pieces -/

theorem infix_of_mem_pieces {sep : Char} {cs piece : List Char} (h : piece ∈ pieces sep cs) : piece <:+: cs := by
  cases hc : cutFirst sep cs with
  | none =>
    rw [pieces_eq_singleton (cutFirst_eq_none_iff.mp hc), List.mem_singleton] at h
    exact h ▸ List.infix_rfl
  | some cut =>
    obtain ⟨hcs, hn⟩ := eq_append_of_cutFirst hc
    rw [hcs, pieces_append hn, List.mem_cons] at h
    rcases h with rfl | h
    · exact hcs ▸ (List.prefix_append ..).isInfix
    · have hafter : cut.2 <:+ cs := ⟨cut.1 ++ [sep], by simp [hcs]⟩
      exact (infix_of_mem_pieces h).trans hafter.isInfix
termination_by cs.length
decreasing_by simp [hcs]; omega

/-! ## The arrow -/

/-- A text does not hold `->`. -/
def ArrowFree (cs : List Char) : Prop :=
  ¬ ['-', '>'] <:+: cs

instance (cs : List Char) : Decidable (ArrowFree cs) :=
  inferInstanceAs (Decidable (¬ _))

theorem arrowFree_iff_isChain {cs : List Char} : ArrowFree cs ↔ cs.IsChain fun a b => ¬ (a = '-' ∧ b = '>') := by
  rw [List.isChain_iff_forall_rel_of_append_cons_cons]
  constructor
  · rintro h _ _ before after hcs ⟨rfl, rfl⟩
    exact h ⟨before, after, by simp [hcs]⟩
  · rintro h ⟨before, after, hcs⟩
    exact @h _ _ before after (by simp [← hcs]) ⟨rfl, rfl⟩

theorem ArrowFree.of_isInfix {part cs : List Char} (h : ArrowFree cs) (hp : part <:+: cs) : ArrowFree part :=
  fun harrow => h (harrow.trans hp)

theorem ArrowFree.append_cons {before after : List Char} {c : Char} (hb : ArrowFree before) (ha : ArrowFree after)
    (hd : c ≠ '-') (hg : c ≠ '>') : ArrowFree (before ++ c :: after) := by
  rw [arrowFree_iff_isChain] at *
  rw [List.isChain_append, List.isChain_cons]
  exact ⟨hb, ⟨fun _ _ h => hd h.1, ha⟩, fun _ _ d hd h => hg (by simp_all)⟩

theorem cutArrow_append {before : List Char} (h : ArrowFree before) (after : List Char) :
    cutArrow (before ++ '-' :: '>' :: after) = some (before, after) := by
  induction before with
  | nil => rfl
  | cons c rest ih =>
    have hrs := ih (h.of_isInfix (List.suffix_cons c rest).isInfix)
    rw [List.cons_append]
    unfold cutArrow
    split
    next heq => cases heq
    next harrow =>
      -- The second character stands in the text before the arrow, or is the dash of the arrow itself.
      cases rest with
      | nil => simp at harrow
      | cons d rest =>
        simp only [List.cons_append, List.cons.injEq] at harrow
        obtain ⟨rfl, rfl, -⟩ := harrow
        exact absurd ⟨[], rest, rfl⟩ h
    next heq =>
      obtain ⟨rfl, rfl⟩ := List.cons.inj heq
      rw [hrs]
      rfl

theorem eq_append_of_cutArrow {cs before after : List Char} (h : cutArrow cs = some (before, after)) :
    cs = before ++ '-' :: '>' :: after ∧ ArrowFree before := by
  fun_induction cutArrow cs generalizing before after with
  | case1 => cases h
  | case2 rest =>
    obtain ⟨rfl, rfl⟩ := Prod.mk.inj (Option.some.inj h)
    exact ⟨rfl, by decide⟩
  | case3 c rest hno ih =>
    obtain ⟨⟨b, a⟩, hc, heq⟩ := Option.map_eq_some_iff.mp h
    obtain ⟨rfl, rfl⟩ := Prod.mk.inj heq
    obtain ⟨hrs, hfree⟩ := ih hc
    refine ⟨by rw [hrs]; rfl, ?_⟩
    rw [arrowFree_iff_isChain] at hfree ⊢
    refine List.isChain_cons.mpr ⟨fun d hd ⟨h1, h2⟩ => ?_, hfree⟩
    obtain ⟨more, rfl⟩ := List.head?_eq_some_iff.mp hd
    exact hno (more ++ '-' :: '>' :: a) h1 (by rw [hrs, h2]; rfl)

end Text

namespace Signature

open Text

/-! ## Parts -/

/-- A name that can stand between separators: there is one, no blank stands at its ends, and it does not hold the
separator. -/
structure IsPart (sep : Char) (part : List Char) : Prop where
  ne_nil : part ≠ []
  trimmed : IsTrimmed part
  notMem : sep ∉ part

theorem isPart_of_mem_parts {sep : Char} {text part : List Char} (h : part ∈ parts sep text) :
    IsPart sep part ∧ part <:+: text := by
  rw [parts, List.mem_filter, List.mem_map] at h
  obtain ⟨⟨piece, hp, rfl⟩, hne⟩ := h
  have hinf := isInfix_trim piece
  exact ⟨⟨by simpa using hne, isTrimmed_trim piece, fun hs => not_mem_of_mem_pieces hp (hinf.mem hs)⟩,
    hinf.trans (infix_of_mem_pieces hp)⟩

section Written

variable {sep : Char} {lead gap part : List Char} (hsep : isBlank sep = false) (hl : ∀ c ∈ lead, isBlank c = true)
  (hg : ∀ c ∈ gap, isBlank c = true)

include hl hg in
theorem trim_surrounded (hp : IsTrimmed part) : trim (lead ++ part ++ gap) = part := by
  rw [trim_append_blank hg, trim_blank_append hl, trim_eq_self hp]

include hsep hl in
theorem notMem_of_blank : sep ∉ lead :=
  fun hs => by simp [hl sep hs] at hsep

include hsep hl hg

theorem notMem_surrounded (hp : sep ∉ part) : sep ∉ lead ++ part ++ gap := by
  simp [notMem_of_blank hsep hl, notMem_of_blank hsep hg, hp]

theorem parts_cons (hp : IsPart sep part) (rest : List Char) :
    parts sep (lead ++ part ++ gap ++ sep :: rest) = part :: parts sep rest := by
  rw [parts, pieces_append (notMem_surrounded hsep hl hg hp.notMem), List.map_cons, trim_surrounded hl hg hp.trimmed,
    List.filter_cons_of_pos (by simpa using hp.ne_nil), parts]

theorem parts_single (hp : IsPart sep part) : parts sep (lead ++ part ++ gap) = [part] := by
  rw [parts, pieces_eq_singleton (notMem_surrounded hsep hl hg hp.notMem), List.map_singleton,
    trim_surrounded hl hg hp.trimmed, List.filter_cons_of_pos (by simpa using hp.ne_nil), List.filter_nil]

theorem parts_blank : parts sep (lead ++ gap) = [] := by
  have h : sep ∉ lead ++ gap := by simp [notMem_of_blank hsep hl, notMem_of_blank hsep hg]
  rw [parts, pieces_eq_singleton h, List.map_singleton, trim_append_blank hg, trim_eq_nil_iff.mpr hl]
  rfl

end Written

/-- Texts that are written with a separator between them, and blanks around it and around the whole, are its parts. -/
theorem parts_intercalate {sep : Char} {lead gap gap' trail : List Char} {texts : List (List Char)}
    (hsep : isBlank sep = false) (hl : ∀ c ∈ lead, isBlank c = true) (hg : ∀ c ∈ gap, isBlank c = true)
    (hg' : ∀ c ∈ gap', isBlank c = true) (ht : ∀ c ∈ trail, isBlank c = true) (h : ∀ text ∈ texts, IsPart sep text) :
    parts sep (lead ++ (gap ++ sep :: gap').intercalate texts ++ trail) = texts := by
  induction texts generalizing lead with
  | nil => simpa using parts_blank hsep hl ht
  | cons text rest ih =>
    cases rest with
    | nil => simpa using parts_single hsep hl ht (h text (by simp))
    | cons next rest =>
      have hrs := ih hg' fun t hm => h t (List.mem_cons_of_mem _ hm)
      have hcut := parts_cons hsep hl hg (h text (by simp)) (gap' ++ (gap ++ sep :: gap').intercalate (next :: rest) ++ trail)
      rw [hrs] at hcut
      simpa [List.intercalate_cons_cons] using hcut

/-! ## Parameters -/

theorem afterAs?_eq_some {text name : List Char} : afterAs? text = some name ↔ text = 'a' :: 's' :: ' ' :: name := by
  rw [afterAs?.eq_def]
  split
  next => simp
  next hno => exact ⟨nofun, fun h => absurd h (hno name)⟩

theorem beforeBrace?_eq_some {text inner : List Char} :
    beforeBrace? text = some inner ↔ text = inner ++ ['\x7d'] := by
  rw [beforeBrace?]
  constructor
  · intro h
    obtain ⟨hls, hin⟩ := Option.ite_none_right_eq_some.mp h
    rw [← Option.some.inj hin]
    exact (List.dropLast_append_getLast? _ hls).symm
  · rintro rfl
    simp

/-- The two forms of a parameter. -/
theorem parseParameter_eq_ok {text : List Char} {parameter : String × Bool} :
    parseParameter text = .ok parameter ↔
      (∃ inner name, text = '\x7b' :: (inner ++ ['\x7d']) ∧ trim inner = 'a' :: 's' :: ' ' :: name ∧
        parameter = (String.ofList (trim name), true)) ∨
      text.head? ≠ some '\x7b' ∧ parameter = (String.ofList text, false) := by
  rw [parseParameter.eq_def]
  split
  next rest =>
    simp only [List.head?_cons, ne_eq, not_true_eq_false, false_and, or_false, List.cons.injEq, true_and]
    split
    next name hname =>
      obtain ⟨inner, hin, has⟩ := Option.bind_eq_some_iff.mp hname
      rw [beforeBrace?_eq_some] at hin
      rw [afterAs?_eq_some] at has
      constructor
      · intro h
        exact ⟨inner, name, hin, has, (Except.ok.inj h).symm⟩
      · rintro ⟨inner', name', hin', has', rfl⟩
        obtain rfl := List.append_cancel_right (hin.symm.trans hin')
        obtain rfl : name = name' := by simpa using has.symm.trans has'
        rfl
    next hno =>
      refine ⟨nofun, ?_⟩
      rintro ⟨inner, name, hin, has, -⟩
      rw [beforeBrace?_eq_some.mpr hin, Option.bind_some, afterAs?_eq_some.mpr has] at hno
      cases hno
  next hno =>
    have hhead : text.head? ≠ some '\x7b' := fun h => by
      obtain ⟨rest, rfl⟩ := List.head?_eq_some_iff.mp h
      exact hno rest rfl
    constructor
    · intro h
      exact .inr ⟨hhead, (Except.ok.inj h).symm⟩
    · rintro (⟨inner, name, rfl, -⟩ | ⟨-, rfl⟩)
      · exact absurd rfl hhead
      · rfl

/-- A name that is read as a parameter's: it is one that can stand between commas, and it is part of the text. -/
theorem parseParameter_name {text : List Char} {parameter : String × Bool} (h : parseParameter text = .ok parameter)
    (ht : IsPart ',' text) :
    IsPart ',' parameter.1.toList ∧ parameter.1.toList <:+: text ∧
      (parameter.2 = false → parameter.1.toList.head? ≠ some '\x7b') := by
  obtain ⟨inner, name, rfl, has, rfl⟩ | ⟨hhead, rfl⟩ := parseParameter_eq_ok.mp h
  · have hname : name <:+: '\x7b' :: (inner ++ ['\x7d']) := by
      have hin : trim inner <:+: '\x7b' :: (inner ++ ['\x7d']) := (isInfix_trim inner).trans ⟨['\x7b'], ['\x7d'], rfl⟩
      rw [has] at hin
      exact (List.IsSuffix.isInfix ⟨['a', 's', ' '], rfl⟩).trans hin
    have hinf : trim name <:+: '\x7b' :: (inner ++ ['\x7d']) := (isInfix_trim name).trans hname
    have hne : trim name ≠ [] := fun hnil => by
      -- With blanks only behind the word, the space behind it would end the trimmed text.
      have hbl := trim_eq_nil_iff.mp hnil
      have htr := (isTrimmed_trim inner).2
      have hls : isBlank (('a' :: 's' :: ' ' :: name).getLast (by simp)) = true := by
        rcases List.eq_nil_or_concat name with rfl | ⟨front, c, rfl⟩
        · rfl
        · simpa using hbl c (by simp)
      rw [has] at htr
      rw [htr _ (List.getLast?_eq_some_getLast _)] at hls
      cases hls
    rw [String.toList_ofList]
    exact ⟨⟨hne, isTrimmed_trim name, fun hs => ht.notMem (hinf.mem hs)⟩, hinf, nofun⟩
  · rw [String.toList_ofList]
    exact ⟨ht, List.infix_rfl, fun _ => hhead⟩

theorem parseParameter_render {parameter : String × Bool} (ht : IsPart ',' parameter.1.toList)
    (hplain : parameter.2 = false → parameter.1.toList.head? ≠ some '\x7b') :
    parseParameter (renderParameter parameter).toList = .ok parameter := by
  obtain ⟨name, convertible⟩ := parameter
  rw [parseParameter_eq_ok]
  cases convertible with
  | true =>
    have htrim : IsTrimmed ('a' :: 's' :: ' ' :: name.toList) := by
      refine ⟨fun c hc => Option.some.inj hc ▸ rfl, ?_⟩
      rw [List.getLast?_cons_cons, List.getLast?_cons_cons, List.getLast?_cons_of_ne_nil ht.ne_nil]
      exact ht.trimmed.2
    refine .inl ⟨'a' :: 's' :: ' ' :: name.toList, name.toList, by simp [renderParameter], trim_eq_self htrim, ?_⟩
    rw [trim_eq_self ht.trimmed, String.ofList_toList]
  | false => exact .inr ⟨hplain rfl, by simp [renderParameter]⟩

/-! ## Signatures -/

/-- The names of a signature can be told apart when it is written. -/
structure IsWritable (signature : Signature) : Prop where
  parameter : ∀ parameter ∈ signature.parameters, IsPart ',' parameter.1.toList ∧ ArrowFree parameter.1.toList
  plain : ∀ parameter ∈ signature.parameters, parameter.2 = false → parameter.1.toList.head? ≠ some '\x7b'
  result : ∀ result ∈ signature.results, IsPart '|' result.toList
  results_ne_nil : signature.results ≠ []

theorem read_eq_ok {text : List Char} {signature : Signature} :
    read text = .ok signature ↔ ∃ before after, cutArrow text = some (before, after) ∧
      (parts ',' before).mapM parseParameter = .ok signature.parameters ∧
      (parts '|' after).map String.ofList = signature.results ∧ signature.results ≠ [] := by
  rw [read.eq_def]
  split
  next hno => simp [hno]
  next before after hcut =>
    rw [Refusal.bind_eq_ok]
    constructor
    · rintro ⟨parameters, hpar, hres⟩
      dsimp only at hres
      split at hres
      next => cases hres
      next hne =>
        cases hres
        exact ⟨before, after, hcut, hpar, rfl, by simpa using hne⟩
    · rintro ⟨_, _, hcut', hpar, hres, hne⟩
      cases hcut.symm.trans hcut'
      refine ⟨signature.parameters, hpar, ?_⟩
      rw [hres, if_neg (by simpa using hne)]

theorem parse_eq_ok {text : String} {signature : Signature} :
    parse text = .ok signature ↔ read text.toList = .ok signature := by
  rw [parse]
  split <;> simp_all

theorem isWritable_of_parse {text : String} {signature : Signature} (h : parse text = .ok signature) :
    signature.IsWritable := by
  obtain ⟨before, after, hcut, hpar, hres, hne⟩ := read_eq_ok.mp (parse_eq_ok.mp h)
  have hfree := (eq_append_of_cutArrow hcut).2
  have hname : ∀ parameter ∈ signature.parameters, ∃ text, parseParameter text = .ok parameter ∧ IsPart ',' text ∧
      ArrowFree text := fun parameter hm => by
    obtain ⟨text, ht, hok⟩ := Refusal.exists_left_of_forall₂ (Refusal.mapM_eq_ok.mp hpar) hm
    obtain ⟨hpart, hinf⟩ := isPart_of_mem_parts ht
    exact ⟨text, hok, hpart, hfree.of_isInfix hinf⟩
  refine ⟨fun parameter hm => ?_, fun parameter hm => ?_, fun result hm => ?_, hne⟩
  · obtain ⟨text, hok, hpart, hfree⟩ := hname parameter hm
    obtain ⟨hp, hinf, -⟩ := parseParameter_name hok hpart
    exact ⟨hp, hfree.of_isInfix hinf⟩
  · obtain ⟨text, hok, hpart, -⟩ := hname parameter hm
    exact (parseParameter_name hok hpart).2.2
  · rw [← hres] at hm
    obtain ⟨text, ht, rfl⟩ := List.mem_map.mp hm
    rw [String.toList_ofList]
    exact (isPart_of_mem_parts ht).1

theorem IsWritable.rendered {signature : Signature} (h : signature.IsWritable) :
    ∀ text ∈ signature.parameters.map (String.toList ∘ renderParameter), IsPart ',' text ∧ ArrowFree text := by
  intro text ht
  obtain ⟨⟨name, convertible⟩, hm, rfl⟩ := List.mem_map.mp ht
  obtain ⟨hpart, hfree⟩ := h.parameter _ hm
  cases convertible with
  | false => exact ⟨hpart, hfree⟩
  | true =>
    have heq : (String.toList ∘ renderParameter) (name, true) =
        ['\x7b', 'a', 's'] ++ ' ' :: (name.toList ++ '\x7d' :: []) := by
      simp [renderParameter]
    rw [heq]
    refine ⟨⟨by simp, ⟨fun c hc => Option.some.inj hc ▸ rfl, fun c hc => ?_⟩, by simpa using hpart.notMem⟩, ?_⟩
    · rw [← List.cons_append, ← List.append_assoc, List.getLast?_append] at hc
      exact Option.some.inj hc ▸ rfl
    · have hbrace := hfree.append_cons (show ArrowFree [] by decide) (show '\x7d' ≠ '-' by decide) (by decide)
      exact ArrowFree.append_cons (by decide) hbrace (by decide) (by decide)

theorem arrowFree_intercalate {texts : List (List Char)} (h : ∀ text ∈ texts, ArrowFree text) :
    ArrowFree ([',', ' '].intercalate texts) := by
  induction texts with
  | nil => decide
  | cons text rest ih =>
    cases rest with
    | nil => simpa using h
    | cons next rest =>
      have hrs := ih fun t ht => h t (List.mem_cons_of_mem _ ht)
      have hgap : ArrowFree ([] ++ ' ' :: [',', ' '].intercalate (next :: rest)) :=
        ArrowFree.append_cons (by decide) hrs (by decide) (by decide)
      simpa [List.intercalate_cons_cons] using
        (h text List.mem_cons_self).append_cons hgap (show ',' ≠ '-' by decide) (by decide)

theorem toList_render (signature : Signature) :
    signature.render.toList =
      [',', ' '].intercalate (signature.parameters.map (String.toList ∘ renderParameter)) ++ [' '] ++
        '-' :: '>' :: ([' '] ++ [' ', '|', ' '].intercalate (signature.results.map String.toList)) := by
  simp [render, String.toList_intercalate]

theorem blank_space : ∀ c ∈ [' '], isBlank c = true := by
  rintro c hc
  rw [List.mem_singleton.mp hc]
  rfl

theorem parse_of_isWritable {signature : Signature} (h : signature.IsWritable) :
    parse signature.render = .ok signature := by
  have hpar : parts ',' ([',', ' '].intercalate (signature.parameters.map (String.toList ∘ renderParameter)) ++ [' ']) =
      signature.parameters.map (String.toList ∘ renderParameter) :=
    @parts_intercalate ',' [] [] [' '] [' '] _ rfl nofun nofun blank_space blank_space
      fun text ht => (h.rendered text ht).1
  have hres : parts '|' ([' '] ++ [' ', '|', ' '].intercalate (signature.results.map String.toList)) =
      signature.results.map String.toList := by
    have hall : ∀ text ∈ signature.results.map String.toList, IsPart '|' text := by simpa using h.result
    simpa using @parts_intercalate '|' [' '] [' '] [' '] [] _ rfl blank_space blank_space blank_space nofun hall
  have hfree := arrowFree_intercalate fun text ht => (h.rendered text ht).2
  have hbefore := hfree.append_cons (show ArrowFree [] by decide) (show ' ' ≠ '-' by decide) (by decide)
  rw [parse_eq_ok, read_eq_ok, toList_render]
  refine ⟨_, _, cutArrow_append hbefore _, ?_, ?_, h.results_ne_nil⟩
  · rw [hpar, Refusal.mapM_eq_ok, List.forall₂_map_left_iff, List.forall₂_same]
    exact fun parameter hm => parseParameter_render (h.parameter parameter hm).1 (h.plain parameter hm)
  · rw [hres, List.map_map]
    exact (List.map_congr_left fun _ _ => String.ofList_toList).trans (List.map_id' _)

/-- Reading and writing agree: what is read from a text has names that can be written and is read back from its written
form, as is every signature whose names can be written. -/
theorem parse_render :
    (∀ (text : String) (signature : Signature), parse text = .ok signature →
      signature.IsWritable ∧ parse signature.render = .ok signature) ∧
    ∀ signature : Signature, signature.IsWritable → parse signature.render = .ok signature :=
  ⟨fun _ _ h => ⟨isWritable_of_parse h, parse_of_isWritable (isWritable_of_parse h)⟩, fun _ => parse_of_isWritable⟩

/-- Dashes before the arrow, an arrow behind it, blanks in a name, a brace that is not closed and empty parts. -/
theorem parse_render_dashes :
    let signature : Signature := ⟨[("a-b-", false), ("x y>", true), ("-", false)], ["t->u", "\x7bas v"]⟩
    parse "a-b-, ,\x7b as  x y> \x7d, -->t->u | | \x7bas v" = .ok signature ∧ signature.IsWritable ∧
      parse signature.render = .ok signature := by
  intro signature
  have h : parse "a-b-, ,\x7b as  x y> \x7d, -->t->u | | \x7bas v" = .ok signature := by decide +kernel
  have hw := (parse_render.1 _ _ h).1
  exact ⟨h, hw, parse_render.2 signature hw⟩

end Signature

end SoftTyping
