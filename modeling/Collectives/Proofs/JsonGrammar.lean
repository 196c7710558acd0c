import Collectives.Proofs.JsonTexts

/-!
# The grammar of JSON texts

A value may be written in many ways: with other blanks, with characters spelled as escapes, with
numerals that no field can hold. Whatever the grammar derives is read to its end, and who skips it
finds no flaw in it.
-/

namespace Collectives.Json

/-- A digit of hexadecimal numbers, small or large, and its value. -/
def IsHex (c : Char) (value : Nat) : Prop :=
  "0123456789abcdef".toList[value]? = some c ∨ "0123456789ABCDEF".toList[value]? = some c

/-- The letters behind a backslash, and the characters that they stand for. -/
def escapeLetters : List (Char × Char) :=
  [('"', '"'), ('\\', '\\'), ('/', '/'), ('b', '\x08'), ('f', '\x0c'), ('n', '\n'), ('r', '\r'),
    ('t', '\t')]

/-- A code unit that is written by number. -/
inductive UnitText : Nat → List Char → Prop
  | intro {a b c d : Char} {p q r s : Nat} (ha : IsHex a p) (hb : IsHex b q) (hc : IsHex c r)
      (hd : IsHex d s) :
      UnitText (((16 * p + q) * 16 + r) * 16 + s) ['\\', 'u', a, b, c, d]

/-- The ways to write a character between quotes: as it is, by a letter, by its code unit or by the
two code units of UTF-16. -/
inductive Spells (c : Char) : List Char → Prop
  | plain (hprinted : 0x20 ≤ c.toNat) (hquote : c ≠ '"') (hslash : c ≠ '\\') : Spells c [c]
  | letter {l : Char} (h : (l, c) ∈ escapeLetters) : Spells c ['\\', l]
  | unit {cs : List Char} (h : UnitText c.toNat cs) : Spells c cs
  | pair {high low : Nat} {hcs lcs : List Char} (hhigh : high < 0x400) (hlow : low < 0x400)
      (hc : c.toNat = 0x10000 + 0x400 * high + low) (hunit : UnitText (0xD800 + high) hcs)
      (lunit : UnitText (0xDC00 + low) lcs) : Spells c (hcs ++ lcs)

/-- What may stand between quotes, one after the other. Not all code units make characters. -/
inductive PieceText (cs : List Char) : Prop
  | char {c : Char} (h : Spells c cs)
  | unit {n : Nat} (h : UnitText n cs)

/-- The texts that stand for `s`, with their quotes. -/
def Quotes (s : String) (cs : List Char) : Prop :=
  ∃ pieces, List.Forall₂ Spells s.toList pieces ∧ cs = '"' :: (pieces.flatten ++ ['"'])

/-- Quoted texts, whether they stand for characters or not. -/
def QuotedText (cs : List Char) : Prop :=
  ∃ pieces : List (List Char), (∀ piece ∈ pieces, PieceText piece) ∧
    cs = '"' :: (pieces.flatten ++ ['"'])

/-- Digits, one at least. -/
structure Digits (cs : List Char) : Prop where
  ne_nil : cs ≠ []
  isDigit : ∀ c ∈ cs, c.isDigit = true

inductive FractionText : List Char → Prop
  | none : FractionText []
  | some {digits : List Char} (h : Digits digits) : FractionText ('.' :: digits)

inductive ExponentText : List Char → Prop
  | none : ExponentText []
  | some {e : Char} {sign digits : List Char} (he : e = 'e' ∨ e = 'E')
      (hsign : sign ∈ [[], ['+'], ['-']]) (h : Digits digits) :
      ExponentText (e :: (sign ++ digits))

/-- The texts of numbers: a zero does not lead other digits. -/
inductive NumeralText : List Char → Prop
  | intro {sign whole fraction exponent : List Char} (hsign : sign ∈ [[], ['-']])
      (hwhole : Digits whole) (hzero : whole.head? = some '0' → whole = ['0'])
      (hfraction : FractionText fraction) (hexponent : ExponentText exponent) :
      NumeralText (sign ++ (whole ++ (fraction ++ exponent)))

/-- The texts of values. -/
inductive WellFormed : List Char → Prop
  | null : WellFormed ['n', 'u', 'l', 'l']
  | yes : WellFormed ['t', 'r', 'u', 'e']
  | no : WellFormed ['f', 'a', 'l', 's', 'e']
  | number {cs : List Char} (h : NumeralText cs) : WellFormed cs
  | text {cs : List Char} (h : QuotedText cs) : WellFormed cs
  | array {items : List (List Char)} {cs : List Char} (hitems : ∀ item ∈ items, WellFormed item)
      (h : Enclosed '[' ']' items cs) : WellFormed cs
  | object {members : List (List Char × List Char)} {cs : List Char}
      (hkeys : ∀ member ∈ members, QuotedText member.1)
      (hvalues : ∀ member ∈ members, WellFormed member.2) (h : ObjectOf members cs) : WellFormed cs

namespace Quoted

theorem hexValue?_of {c : Char} {value : Nat} (h : IsHex c value) : hexValue? c = some value := by
  have hdigits : ∀ small : Fin 16,
      ("0123456789abcdef".toList[small.val]?.bind hexValue?) = some small.val ∧
      ("0123456789ABCDEF".toList[small.val]?.bind hexValue?) = some small.val := by decide
  have hvalue : value < 16 := by
    rcases h with h | h <;> exact (List.getElem?_eq_some_iff.1 h).1
  have hboth := hdigits ⟨value, hvalue⟩
  rcases h with h | h <;> rw [h] at hboth
  · exact hboth.1
  · exact hboth.2

/-- Pieces in front of the rest of a text. -/
def prepend (pieces : List Piece) (tail : Quoted × List Char) : Quoted × List Char :=
  ({ tail.1 with pieces := pieces ++ tail.1.pieces }, tail.2)

theorem prepend_append (first second : List Piece) (tail : Quoted × List Char) :
    prepend (first ++ second) tail = prepend first (prepend second tail) := by
  simp [prepend]

theorem read_unit {n : Nat} {cs : List Char} (h : UnitText n cs) (rest : List Char) :
    read (cs ++ rest) = prepend [.unit n] (read rest) := by
  cases h with
  | intro ha hb hc hd =>
    simp [read, unit?, hexValue?_of ha, hexValue?_of hb, hexValue?_of hc, hexValue?_of hd, cons,
      prepend]

theorem read_letter {l c : Char} (h : (l, c) ∈ escapeLetters) (rest : List Char) :
    read ('\\' :: l :: rest) = prepend [.char c] (read rest) := by
  simp only [escapeLetters, List.mem_cons, Prod.mk.injEq, List.not_mem_nil, or_false] at h
  rcases h with ⟨rfl, rfl⟩ | ⟨rfl, rfl⟩ | ⟨rfl, rfl⟩ | ⟨rfl, rfl⟩ | ⟨rfl, rfl⟩ | ⟨rfl, rfl⟩ |
    ⟨rfl, rfl⟩ | ⟨rfl, rfl⟩ <;> rfl

/-- Each way to write a character is read as pieces that make this character. -/
theorem read_spells {c : Char} {cs : List Char} (h : Spells c cs) :
    ∃ pieces, (∀ rest, read (cs ++ rest) = prepend pieces (read rest)) ∧
      ∀ rest, characters none (pieces ++ rest) = (characters none rest).map (c :: ·) := by
  cases h with
  | plain hprinted hquote hslash =>
    exact ⟨[.char c], fun rest => read_cons hquote hslash (Nat.not_lt.2 hprinted) rest,
      characters_char c⟩
  | letter h => exact ⟨[.char c], read_letter h, characters_char c⟩
  | unit h => exact ⟨[.unit c.toNat], read_unit h, characters_toNat c⟩
  | @pair high low hcs lcs hhigh hlow hc hunit lunit =>
    refine ⟨[.unit (0xD800 + high), .unit (0xDC00 + low)], fun rest => ?_, fun rest => ?_⟩
    · rw [List.append_assoc, read_unit hunit, read_unit lunit, ← prepend_append]
      rfl
    · have hnotLow : isLow (0xD800 + high) = false := by simp [isLow]; omega
      have hisHigh : isHigh (0xD800 + high) = true := by simp [isHigh]; omega
      have hisLow : isLow (0xDC00 + low) = true := by simp [isLow]; omega
      have hpaired : paired (0xD800 + high) (0xDC00 + low) = c := by
        have hsum : 0x10000 + (0xD800 + high - 0xD800) * 0x400 + (0xDC00 + low - 0xDC00) =
            c.toNat := by omega
        rw [paired, hsum, Char.ofNat_toNat]
      simp only [List.cons_append, List.nil_append, characters, hnotLow, hisHigh, hisLow, hpaired,
        if_true]
      cases characters none rest <;> rfl

theorem read_piece {cs : List Char} (h : PieceText cs) :
    ∃ pieces, ∀ rest, read (cs ++ rest) = prepend pieces (read rest) := by
  cases h with
  | char h =>
    obtain ⟨pieces, hread, -⟩ := read_spells h
    exact ⟨pieces, hread⟩
  | unit h => exact ⟨_, read_unit h⟩

/-- Pieces up to the closing quote. -/
theorem readAs_of_read {body : List Char} {pieces : List Piece}
    (h : ∀ rest, read (body ++ rest) = prepend pieces (read rest)) :
    Quoted.ReadAs ('"' :: (body ++ ['"'])) ⟨pieces, none⟩ := by
  refine ⟨_, rfl, fun rest => ?_⟩
  rw [List.append_assoc, h, List.singleton_append, read, prepend, List.append_nil]

theorem read_spellings {cs : List Char} {texts : List (List Char)}
    (h : List.Forall₂ Spells cs texts) :
    ∃ pieces, (∀ rest, read (texts.flatten ++ rest) = prepend pieces (read rest)) ∧
      characters none pieces = .ok cs := by
  induction h with
  | nil => exact ⟨[], fun rest => rfl, rfl⟩
  | @cons c text cs texts hspells _ ih =>
    obtain ⟨first, hfirst, hchar⟩ := read_spells hspells
    obtain ⟨others, hothers, hchars⟩ := ih
    refine ⟨first ++ others, fun rest => ?_, ?_⟩
    · rw [List.flatten_cons, List.append_assoc, hfirst, hothers, ← prepend_append]
    · rw [hchar, hchars]
      rfl

theorem read_pieces {texts : List (List Char)} (h : ∀ text ∈ texts, PieceText text) :
    ∃ pieces, ∀ rest, read (texts.flatten ++ rest) = prepend pieces (read rest) := by
  induction texts with
  | nil => exact ⟨[], fun rest => rfl⟩
  | cons text texts ih =>
    rw [List.forall_mem_cons] at h
    obtain ⟨first, hfirst⟩ := read_piece h.1
    obtain ⟨others, hothers⟩ := ih h.2
    refine ⟨first ++ others, fun rest => ?_⟩
    rw [List.flatten_cons, List.append_assoc, hfirst, hothers, ← prepend_append]

/-- What stands for a text is read as that text. -/
theorem exists_of_quotes {s : String} {cs : List Char} (h : Quotes s cs) :
    ∃ quoted, Quoted.ReadAs cs quoted ∧ quoted.get = .ok s := by
  obtain ⟨texts, hspells, rfl⟩ := h
  obtain ⟨pieces, hread, hchars⟩ := read_spellings hspells
  refine ⟨⟨pieces, none⟩, readAs_of_read hread, ?_⟩
  simp [get, decode, hchars]

theorem exists_of_quotedText {cs : List Char} (h : QuotedText cs) :
    ∃ quoted, Quoted.ReadAs cs quoted ∧ quoted.skip = .ok () := by
  obtain ⟨texts, htexts, rfl⟩ := h
  obtain ⟨pieces, hread⟩ := read_pieces htexts
  exact ⟨⟨pieces, none⟩, readAs_of_read hread, rfl⟩

end Quoted

theorem Digits.cons {cs : List Char} (h : Digits cs) :
    ∃ c rest, cs = c :: rest ∧ c.isDigit = true := by
  obtain ⟨c, rest, rfl⟩ := List.exists_cons_of_ne_nil h.ne_nil
  exact ⟨c, rest, rfl, h.isDigit c List.mem_cons_self⟩

namespace Numeral

theorem readExponent_text {sign digits : List Char} (hsign : sign ∈ [[], ['+'], ['-']])
    (hdigits : Digits digits) :
    ∃ exponent, ∀ rest, Decimals.Stops rest →
      readExponent (sign ++ (digits ++ rest)) = .ok (exponent, rest) := by
  let size : Int := (digits.foldl (fun n digit => 10 * n + digitValue digit) 0 : Nat)
  simp only [List.mem_cons, List.not_mem_nil, or_false] at hsign
  refine ⟨if sign = ['-'] then -size else size, ?_⟩
  intro rest hrest
  have htake := Decimals.takeWhile_digits hdigits.isDigit hrest
  have hdrop := Decimals.dropWhile_digits hdigits.isDigit hrest
  have hsome : digits.isEmpty = false := by simp [hdigits.ne_nil]
  rcases hsign with rfl | rfl | rfl
  · obtain ⟨c, digits, rfl, hc⟩ := hdigits.cons
    have hplus : c ≠ '+' := by
      rintro rfl
      cases hc
    have hminus : c ≠ '-' := by
      rintro rfl
      cases hc
    rw [List.cons_append] at htake hdrop
    simp [readExponent, hplus, hminus, htake, hdrop, size]
  · simp [readExponent, htake, hdrop, hsome, size]
  · simp [readExponent, htake, hdrop, hsome, size]

theorem stops_exponent {exponent rest : List Char} (h : ExponentText exponent)
    (hrest : Ends rest) : Decimals.Stops (exponent ++ rest) := by
  cases h with
  | none => exact hrest.stops
  | some he => rcases he with rfl | rfl <;> exact Decimals.stops_cons.2 (by decide)

theorem readTail_exponent (parts : Parts) {exponent : List Char} (h : ExponentText exponent) :
    ∃ longer, ∀ rest, Ends rest → readTail parts (exponent ++ rest) = .ok (longer, rest) := by
  cases h with
  | none => exact ⟨parts, fun rest => readTail_eq parts⟩
  | @some e sign digits he hsign hdigits =>
    obtain ⟨exponent, hread⟩ := readExponent_text hsign hdigits
    refine ⟨{ parts with exponent }, fun rest hrest => ?_⟩
    rcases he with rfl | rfl <;>
      simp [readTail, hread rest hrest.stops, bind, Except.bind, pure, Except.pure]

/-- Behind a fraction an exponent is read as it is without one. -/
theorem readTail_fraction (parts : Parts) {digits rest : List Char} (h : Digits digits)
    (hrest : Decimals.Stops rest) (hpoint : rest.head? ≠ some '.') :
    readTail parts ('.' :: (digits ++ rest)) = readTail { parts with fraction := digits } rest := by
  have htake := Decimals.takeWhile_digits h.isDigit hrest
  have hdrop := Decimals.dropWhile_digits h.isDigit hrest
  have hsome : digits ≠ [] := h.ne_nil
  cases rest with
  | nil =>
    rw [List.append_nil] at htake hdrop
    simp [readTail, htake, hdrop, hsome, bind, Except.bind, pure, Except.pure]
  | cons c rest =>
    have hc : c ≠ '.' := by simpa using hpoint
    simp [readTail, hc, htake, hdrop, hsome, bind, Except.bind, pure, Except.pure]

theorem readTail_text (parts : Parts) {fraction exponent : List Char}
    (hfraction : FractionText fraction) (hexponent : ExponentText exponent) :
    ∃ longer, ∀ rest, Ends rest →
      readTail parts (fraction ++ (exponent ++ rest)) = .ok (longer, rest) := by
  cases hfraction with
  | none => exact readTail_exponent parts hexponent
  | @some digits hdigits =>
    obtain ⟨longer, hread⟩ := readTail_exponent { parts with fraction := digits } hexponent
    refine ⟨longer, fun rest hrest => ?_⟩
    have hpoint : (exponent ++ rest).head? ≠ some '.' := by
      cases hexponent with
      | none => exact fun hhead => (hrest _ hhead).2.1 rfl
      | some he => rcases he with rfl | rfl <;> simp
    rw [List.cons_append, readTail_fraction parts hdigits (stops_exponent hexponent hrest) hpoint]
    exact hread rest hrest

theorem stops_tail {fraction exponent rest : List Char} (hfraction : FractionText fraction)
    (hexponent : ExponentText exponent) (hrest : Ends rest) :
    Decimals.Stops (fraction ++ (exponent ++ rest)) := by
  cases hfraction with
  | none =>
    rw [List.nil_append]
    exact stops_exponent hexponent hrest
  | some => exact Decimals.stops_cons.2 (by decide)

theorem readParts_text {cs : List Char} (h : NumeralText cs) :
    ∃ parts, ∀ rest, Ends rest → readParts (cs ++ rest) = .ok (parts, rest) := by
  cases h with
  | @intro sign whole fraction exponent hsign hwhole hzero hfraction hexponent =>
    obtain ⟨parts, htail⟩ :=
      readTail_text { minus := sign = ['-'], whole } hfraction hexponent
    refine ⟨parts, fun rest hrest => ?_⟩
    have hstops := stops_tail hfraction hexponent hrest
    have htake := Decimals.takeWhile_digits hwhole.isDigit hstops
    have hdrop := Decimals.dropWhile_digits hwhole.isDigit hstops
    have hread := htail rest hrest
    obtain ⟨c, digits, rfl, hc⟩ := hwhole.cons
    have hlead : ∀ d ds, c :: digits ≠ '0' :: d :: ds := by
      intro d ds heq
      rw [heq] at hzero
      simp at hzero
    have hminus : c ≠ '-' := by
      rintro rfl
      cases hc
    rw [List.cons_append] at htake hdrop
    simp only [List.mem_cons, List.not_mem_nil, or_false] at hsign
    rcases hsign with rfl | rfl <;>
      simp_all [readParts]

theorem value_ne_incomplete (parts : Parts) (flaw : Flaw) : parts.value ≠ .incomplete flaw := by
  unfold Parts.value
  dsimp only
  repeat' split
  all_goals simp

end Numeral

theorem NumeralText.begins {cs : List Char} (h : NumeralText cs) :
    ∃ c rest, cs = c :: rest ∧ (c = '-' ∨ c.isDigit = true) := by
  cases h with
  | intro hsign hwhole =>
    simp only [List.mem_cons, List.not_mem_nil, or_false] at hsign
    rcases hsign with rfl | rfl
    · obtain ⟨c, digits, rfl, hc⟩ := hwhole.cons
      exact ⟨c, _, rfl, Or.inr hc⟩
    · exact ⟨'-', _, rfl, Or.inl rfl⟩

theorem exists_of_numeralText {cs : List Char} (h : NumeralText cs) :
    ∃ tree, ReadAs cs tree ∧ tree.skip = .ok () := by
  obtain ⟨parts, hparts⟩ := Numeral.readParts_text h
  obtain ⟨c, rest, rfl, hc⟩ := h.begins
  refine ⟨.number parts.value, readAs_number hc fun rest hends => ?_, ?_⟩
  · rw [Numeral.read, hparts rest hends]
  · have hcomplete := Numeral.value_ne_incomplete parts
    cases hvalue : parts.value with
    | incomplete flaw => exact absurd hvalue (hcomplete flaw)
    | natural | negative | fractional | tooLarge => rfl

theorem skip_items {items : List (List Char)} {trees : List Tree}
    (h : List.Forall₂ (fun item tree => ReadAs item tree ∧ tree.skip = .ok ()) items trees) :
    (Items.of trees).skip = .ok () := by
  induction h with
  | nil => rfl
  | cons hitem _ ih =>
    rw [Items.of, Items.skip, hitem.2]
    exact ih

theorem skip_members {members : List (List Char × List Char)} {entries : List (Quoted × Tree)}
    (h : List.Forall₂ (fun member entry =>
      (Quoted.ReadAs member.1 entry.1 ∧ ReadAs member.2 entry.2) ∧
        entry.1.skip = .ok () ∧ entry.2.skip = .ok ()) members entries) :
    (Members.of entries).skip = .ok () := by
  induction h with
  | nil => rfl
  | cons hmember _ ih =>
    rw [Members.of, Members.skip, hmember.2.1, hmember.2.2]
    exact ih

/-- What the grammar derives is read, and who skips it finds nothing wrong with it. -/
theorem WellFormed.exists_tree {cs : List Char} (h : WellFormed cs) :
    ∃ tree, ReadAs cs tree ∧ tree.skip = .ok () := by
  induction h with
  | null => exact ⟨.null, readAs_null, rfl⟩
  | yes => exact ⟨.boolean true, readAs_true, rfl⟩
  | no => exact ⟨.boolean false, readAs_false, rfl⟩
  | number h => exact exists_of_numeralText h
  | text h =>
    obtain ⟨quoted, hread, hskip⟩ := Quoted.exists_of_quotedText h
    exact ⟨.text quoted, hread.text, hskip⟩
  | array _ h ih =>
    obtain ⟨trees, htrees⟩ := exists_forall₂ ih
    exact ⟨.array (.of trees), readAs_array h (htrees.imp fun _ _ both => both.1),
      skip_items htrees⟩
  | @object members _ hkeys _ h ih =>
    have hmembers : ∀ member ∈ members, ∃ entry : Quoted × Tree,
        (Quoted.ReadAs member.1 entry.1 ∧ ReadAs member.2 entry.2) ∧
          entry.1.skip = .ok () ∧ entry.2.skip = .ok () := by
      intro member hmember
      obtain ⟨quoted, hkey, hskip⟩ := Quoted.exists_of_quotedText (hkeys member hmember)
      obtain ⟨tree, hvalue, hpass⟩ := ih member hmember
      exact ⟨(quoted, tree), ⟨hkey, hvalue⟩, hskip, hpass⟩
    obtain ⟨entries, hentries⟩ := exists_forall₂ hmembers
    exact ⟨.object (.of entries), readAs_object h (hentries.imp fun _ _ both => both.1),
      skip_members hentries⟩

/-- The texts of a value that is no array and no object. -/
inductive Value.Spelled : Value → List Char → Prop
  | null : Spelled .null ['n', 'u', 'l', 'l']
  | number (n : Nat) : Spelled (.number n) n.repr.toList
  | text {s : String} {cs : List Char} (h : Quotes s cs) : Spelled (.text s) cs

/-- Whether a tree stands for a value that is no array and no object. -/
inductive Tree.Means : Tree → Value → Prop
  | null : Means .null .null
  | number (n : Nat) : Means (.number (.natural n)) (.number n)
  | text {quoted : Quoted} {s : String} (h : quoted.get = .ok s) : Means (.text quoted) (.text s)

theorem Value.Spelled.exists_tree {value : Value} {cs : List Char} (h : value.Spelled cs)
    (hfits : value.Fits) : ∃ tree, ReadAs cs tree ∧ tree.Means value := by
  cases h with
  | null => exact ⟨.null, readAs_null, .null⟩
  | number n =>
    cases hfits with
    | number hn => exact ⟨.number (.natural n), Value.readAs_repr hn, .number n⟩
  | text hquotes =>
    obtain ⟨quoted, hread, hget⟩ := Quoted.exists_of_quotes hquotes
    exact ⟨.text quoted, hread.text, .text hget⟩

theorem isHex_hexDigit : ∀ n < 16, IsHex (hexDigit n) n := by
  unfold IsHex
  decide

theorem spells_escape (c : Char) : Spells c (escape c) := by
  by_cases hletter : c ∈ lettered
  · unfold lettered at hletter
    fin_cases hletter <;> exact .letter (by decide)
  · by_cases hcontrol : c.toNat < 0x20
    · have hzero : IsHex '0' 0 := Or.inl rfl
      have hunit := UnitText.intro hzero hzero (isHex_hexDigit (c.toNat / 16) (by omega))
        (isHex_hexDigit (c.toNat % 16) (by omega))
      have hcode : ((16 * 0 + 0) * 16 + c.toNat / 16) * 16 + c.toNat % 16 = c.toNat := by omega
      rw [hcode] at hunit
      rw [escape_control hletter hcontrol]
      exact .unit hunit
    · rw [escape_printed hletter hcontrol]
      simp only [lettered, List.mem_cons, not_or] at hletter
      exact .plain (by omega) hletter.1 hletter.2.1

theorem quotes_quote (s : String) : Quotes s (quote s).toList := by
  refine ⟨s.toList.map escape, ?_, by simp [quote, List.flatMap_def]⟩
  rw [List.forall₂_map_right_iff, List.forall₂_same]
  exact fun c _ => spells_escape c

namespace Value.Spelled

variable (layout : Layout) (depth : Nat)

theorem chars_null : Spelled .null (Value.null.chars layout depth) := by
  simpa [chars, pieces] using Spelled.null

theorem chars_number (n : Nat) : Spelled (.number n) ((Value.number n).chars layout depth) := by
  simpa [chars, pieces] using Spelled.number n

theorem chars_text (s : String) : Spelled (.text s) ((Value.text s).chars layout depth) := by
  simpa [chars, pieces] using Spelled.text (quotes_quote s)

end Value.Spelled

end Collectives.Json
