import Mathlib.Data.Nat.Digits.Defs
import PatternAlgebra.Proofs.Expr.Language
/-!
# What the address pattern matches

An octet is matched by five alternatives, each a row of digits from some range, and each row matches
the numerals between two numbers.  Putting a digit behind a numeral is multiplying by ten and adding
the digit, so the numbers of a row are an interval again, as long as the last digit is free or
everything before it is fixed.  The five intervals make up the numbers from 0 to 255.

An address is four octets with a dot between neighbours.  No numeral has a dot in it, so a text can
be cut into octets in one way only, and what the four groups capture is determined by the text.
-/

namespace PatternAlgebra

namespace Ipv4

/-! ## Numerals -/

/-- The decimal numeral of a number, without leading zeros. -/
def numeral (n : ℕ) : List Char := (toString n).toList

theorem numeral_eq_toDigits (n : ℕ) : numeral n = Nat.toDigits 10 n := Nat.toList_repr

theorem numeral_of_lt_ten {n : ℕ} (h : n < 10) : numeral n = [n.digitChar] := by
  rw [numeral_eq_toDigits, Nat.toDigits_of_lt_base h]

/-- A digit behind a numeral. -/
theorem numeral_append_digit {n d : ℕ} (hn : 0 < n) (hd : d < 10) :
    numeral n ++ numeral d = numeral (10 * n + d) := by
  rw [numeral_eq_toDigits, numeral_eq_toDigits, numeral_eq_toDigits,
    Nat.toDigits_append_toDigits (by decide) hn hd]

theorem dot_not_mem_numeral (n : ℕ) : '.' ∉ numeral n := by
  intro h
  rw [numeral_eq_toDigits] at h
  exact absurd (Nat.isDigit_of_mem_toDigits (by decide) (by decide) h) (by decide)

/-- The characters between two digits are the digits between them. -/
theorem between_digitChars_iff {a b : ℕ} (hab : a ≤ b) (hb : b ≤ 9) {c : Char} :
    a.digitChar ≤ c ∧ c ≤ b.digitChar ↔ ∃ n, a ≤ n ∧ n ≤ b ∧ n.digitChar = c := by
  have htoNat : ∀ n ≤ 9, n.digitChar.toNat = 48 + n :=
    fun n hn => Nat.toNat_digitChar_of_lt_ten (by omega)
  have hle : ∀ c d : Char, c ≤ d ↔ c.toNat ≤ d.toNat := fun c d => UInt32.le_iff_toNat_le
  rw [hle, hle, htoNat a (by omega), htoNat b hb]
  constructor
  · rintro ⟨hlo, hhi⟩
    refine ⟨c.toNat - 48, by omega, by omega, Char.toNat_inj.mp ?_⟩
    rw [htoNat _ (by omega)]
    omega
  · rintro ⟨n, hlo, hhi, rfl⟩
    rw [htoNat n (by omega)]
    omega

/-- The matches of the numerals from `lo` to `hi`. -/
def numerals (lo hi : ℕ) : Set Match := {m | ∃ n, lo ≤ n ∧ n ≤ hi ∧ m = .plain (numeral n)}

theorem numerals_self (n : ℕ) : numerals n n = {.plain (numeral n)} := by
  ext m
  constructor
  · rintro ⟨k, hlo, hhi, rfl⟩
    rw [Nat.le_antisymm hhi hlo]
    rfl
  · rintro rfl
    exact ⟨n, Nat.le_refl n, Nat.le_refl n, rfl⟩

/-- A digit behind the numerals of an interval gives the numerals of an interval, if the digit is
    any or there is one numeral only. -/
theorem numerals_followedBy_digit {lo hi a b : ℕ} (hlo : 0 < lo) (hb : b ≤ 9)
    (h : lo = hi ∨ a = 0 ∧ b = 9) :
    Set.image2 Match.followedBy (numerals lo hi) (numerals a b)
      = numerals (10 * lo + a) (10 * hi + b) := by
  ext m
  constructor
  · rintro ⟨_, ⟨n, hn, hn', rfl⟩, _, ⟨d, hd, hd', rfl⟩, rfl⟩
    refine ⟨10 * n + d, by omega, by omega, ?_⟩
    rw [Match.plain_followedBy_plain, numeral_append_digit (by omega) (by omega)]
  · -- the last digit is taken off again; `h` keeps what is left of it inside both intervals
    rintro ⟨n, hn, hn', rfl⟩
    refine ⟨_, ⟨n / 10, by omega, by omega, rfl⟩, _, ⟨n % 10, by omega, by omega, rfl⟩, ?_⟩
    rw [Match.plain_followedBy_plain, numeral_append_digit (by omega) (by omega),
      Nat.div_add_mod n 10]

/-! ## Octets -/

variable {E : Engine}

/-- The engine takes the digits of ASCII for the digits. -/
def AsciiDigits (E : Engine) : Prop := E.shorthand .digit = {c | '0' ≤ c ∧ c ≤ '9'}

/-- A class of the digits between two digits. -/
theorem numerals_eq_image {a b : ℕ} (hab : a ≤ b) (hb : b ≤ 9) :
    (fun c => Match.plain [c]) '' {c | a.digitChar ≤ c ∧ c ≤ b.digitChar} = numerals a b := by
  ext m
  constructor
  · rintro ⟨c, hc, rfl⟩
    obtain ⟨n, hlo, hhi, rfl⟩ := (between_digitChars_iff hab hb).mp hc
    exact ⟨n, hlo, hhi, by rw [numeral_of_lt_ten (by omega)]⟩
  · rintro ⟨n, hlo, hhi, rfl⟩
    refine ⟨n.digitChar, (between_digitChars_iff hab hb).mpr ⟨n, hlo, hhi, rfl⟩, ?_⟩
    rw [numeral_of_lt_ten (by omega)]

theorem language_digit (hE : AsciiDigits E) : digit.expr.language E = numerals 0 9 := by
  rw [← numerals_eq_image (Nat.zero_le 9) (Nat.le_refl 9)]
  show _ '' E.shorthand .digit = _
  rw [hE]
  rfl

theorem language_digits (a b : ℕ) (hab : a ≤ b) (hb : b ≤ 9) :
    (digits a.digitChar b.digitChar).expr.language E = numerals a b :=
  numerals_eq_image hab hb

theorem language_twoDigits (hE : AsciiDigits E) :
    twoDigits.expr.language E = inRow [numerals 0 9, numerals 0 9] := by
  have hbase : (Quantifiable.ofCharClass .digit).expr.language E = numerals 0 9 :=
    language_digit hE
  show (Quantifier.exactly 2).language ((Quantifiable.ofCharClass .digit).expr.language E) = _
  rw [hbase]
  ext m
  constructor
  · rintro ⟨_, rfl, hm⟩
    exact hm
  · exact fun hm => ⟨2, rfl, hm⟩

/-- A pair of items matches one and then the other. -/
theorem language_pair {first second : Sequenceable} (h₁ : first.expr.WellBuilt)
    (h₂ : second.expr.WellBuilt) :
    (Sequence.pair first second).value.toExpr.language E
      = Set.image2 Match.followedBy (first.expr.language E) (second.expr.language E) := by
  have hitems : ∀ s ∈ [first, second], s.expr.WellBuilt := by simp [h₁, h₂]
  rw [Sequence.pair, Sequence.language_ofItems hitems, List.map_cons, inRow, List.map_singleton,
    inRow_singleton]

theorem language_tens (hE : AsciiDigits E) :
    (Sequence.pair (digits '1' '9') digit).value.toExpr.language E = numerals 10 99 := by
  rw [language_pair (digits_wellBuilt (by decide)) digit_wellBuilt, language_digit hE,
    show (digits '1' '9').expr.language E = numerals 1 9 from
      language_digits 1 9 (by decide) (by decide)]
  exact numerals_followedBy_digit (by decide) (by decide) (.inr ⟨rfl, rfl⟩)

theorem language_hundreds (hE : AsciiDigits E) :
    (Sequence.pair (.ofChar '1') twoDigits).value.toExpr.language E = numerals 100 199 := by
  rw [language_pair (.charLiteral '1') twoDigits_wellBuilt, language_twoDigits hE,
    show (Sequenceable.ofChar '1').expr.language E = numerals 1 1 from (numerals_self 1).symm,
    inRow, inRow_singleton, ← Set.image2_assoc Match.followedBy_assoc,
    numerals_followedBy_digit (by decide) (by decide) (.inl rfl)]
  exact numerals_followedBy_digit (by decide) (by decide) (.inr ⟨rfl, rfl⟩)

theorem wellBuilt_belowFifty :
    (Sequence.pair (.ofChar '2') (digits '0' '4')).value.toExpr.WellBuilt :=
  Sequence.wellBuilt_pair (.charLiteral '2') (digits_wellBuilt (by decide))

theorem language_twoHundreds (hE : AsciiDigits E) :
    (Sequence.pair (.ofSequence (Sequence.pair (.ofChar '2') (digits '0' '4')).value)
      digit).value.toExpr.language E = numerals 200 249 := by
  have hbelowFifty : (Sequence.pair (.ofChar '2') (digits '0' '4')).value.toExpr.language E
      = numerals 20 24 := by
    rw [language_pair (.charLiteral '2') (digits_wellBuilt (by decide)),
      show (Sequenceable.ofChar '2').expr.language E = numerals 2 2 from (numerals_self 2).symm,
      show (digits '0' '4').expr.language E = numerals 0 4 from
        language_digits 0 4 (by decide) (by decide)]
    exact numerals_followedBy_digit (by decide) (by decide) (.inl rfl)
  rw [language_pair wellBuilt_belowFifty digit_wellBuilt, language_digit hE]
  show Set.image2 _ ((Sequence.pair (.ofChar '2') (digits '0' '4')).value.toExpr.language E) _ = _
  rw [hbelowFifty]
  exact numerals_followedBy_digit (by decide) (by decide) (.inr ⟨rfl, rfl⟩)

theorem language_fifties :
    (Sequence.pair (.ofLiteral "25") (digits '0' '5')).value.toExpr.language E
      = numerals 250 255 := by
  rw [language_pair (.literal "25") (digits_wellBuilt (by decide)),
    show (Sequenceable.ofLiteral "25").expr.language E = numerals 25 25 from
      (numerals_self 25).symm,
    show (digits '0' '5').expr.language E = numerals 0 5 from
      language_digits 0 5 (by decide) (by decide)]
  exact numerals_followedBy_digit (by decide) (by decide) (.inl rfl)

/-- An octet matches the numerals up to 255. -/
theorem language_octet (hE : AsciiDigits E) :
    octet.value.toExpr.language E = numerals 0 255 := by
  ext m
  have hitems : m ∈ octet.value.toExpr.language E ↔
      m ∈ numerals 0 9 ∨ m ∈ numerals 10 99 ∨ m ∈ numerals 100 199 ∨ m ∈ numerals 200 249 ∨
        m ∈ numerals 250 255 := by
    rw [← language_digit hE, ← language_tens hE, ← language_hundreds hE,
      ← language_twoHundreds hE, ← language_fifties (E := E)]
    show m ∈ (Alternation.ofItems _).toExpr.language E ↔ _
    rw [Alternation.mem_language_ofItems]
    simp only [List.mem_cons, List.not_mem_nil, or_false, exists_eq_or_imp, exists_eq_left]
    exact Iff.rfl
  rw [hitems]
  constructor
  · rintro (⟨n, hlo, hhi, rfl⟩ | ⟨n, hlo, hhi, rfl⟩ | ⟨n, hlo, hhi, rfl⟩ | ⟨n, hlo, hhi, rfl⟩ |
      ⟨n, hlo, hhi, rfl⟩)
    all_goals exact ⟨n, Nat.zero_le n, by omega, rfl⟩
  · -- the five intervals follow one another without a gap
    rintro ⟨n, -, hhi, rfl⟩
    have hcases : n ≤ 9 ∨ 10 ≤ n ∧ n ≤ 99 ∨ 100 ≤ n ∧ n ≤ 199 ∨ 200 ≤ n ∧ n ≤ 249 ∨ 250 ≤ n := by
      omega
    rcases hcases with h | ⟨h, h'⟩ | ⟨h, h'⟩ | ⟨h, h'⟩ | h
    · exact .inl ⟨n, Nat.zero_le n, h, rfl⟩
    · exact .inr (.inl ⟨n, h, h', rfl⟩)
    · exact .inr (.inr (.inl ⟨n, h, h', rfl⟩))
    · exact .inr (.inr (.inr (.inl ⟨n, h, h', rfl⟩)))
    · exact .inr (.inr (.inr (.inr ⟨n, h, hhi, rfl⟩)))

/-! ## Addresses -/

/-- The matches of so many numerals up to 255, captured one by one, with a dot between
    neighbours. -/
def addresses (count : ℕ) : Set Match :=
  {m | ∃ octets : List ℕ, octets.length = count ∧ (∀ n ∈ octets, n ≤ 255) ∧
    m = ⟨['.'].intercalate (octets.map numeral), octets.map numeral⟩}

theorem addresses_one : addresses 1 = Match.captured '' numerals 0 255 := by
  ext m
  constructor
  · rintro ⟨octets, hlength, hle, rfl⟩
    obtain ⟨n, rfl⟩ := List.length_eq_one_iff.mp hlength
    exact ⟨.plain (numeral n), ⟨n, Nat.zero_le n, hle n (by simp), rfl⟩, by
      simp [Match.captured, Match.plain]⟩
  · rintro ⟨_, ⟨n, -, hle, rfl⟩, rfl⟩
    exact ⟨[n], rfl, by simpa using hle, by simp [Match.captured, Match.plain]⟩

/-- One more octet in front, and a dot. -/
theorem addresses_succ (count : ℕ) :
    addresses (count + 2)
      = Set.image2 Match.followedBy (Match.captured '' numerals 0 255)
          (Set.image2 Match.followedBy {.plain ['.']} (addresses (count + 1))) := by
  have hjoin : ∀ (n k : ℕ) (octets : List ℕ),
      ['.'].intercalate ((n :: k :: octets).map numeral)
        = numeral n ++ ('.' :: ['.'].intercalate ((k :: octets).map numeral)) := by
    intro n k octets
    simp [List.intercalate]
  ext m
  constructor
  · rintro ⟨octets, hlength, hle, rfl⟩
    match octets with
    | [] => exact nomatch hlength
    | [n] => exact nomatch hlength
    | n :: k :: octets =>
        refine ⟨_, ⟨.plain (numeral n), ⟨n, Nat.zero_le n, hle n (by simp), rfl⟩, rfl⟩, _,
          ⟨.plain ['.'], rfl, _, ⟨k :: octets, by simpa using hlength, ?_, rfl⟩, rfl⟩, ?_⟩
        · exact fun i hi => hle i (List.mem_cons_of_mem _ hi)
        · rw [hjoin]
          rfl
  · rintro ⟨_, ⟨_, ⟨n, -, hle, rfl⟩, rfl⟩, _, ⟨_, rfl, _, ⟨octets, hlength, hall, rfl⟩, rfl⟩, rfl⟩
    match octets with
    | [] => exact nomatch hlength
    | k :: octets =>
        refine ⟨n :: k :: octets, by simpa using hlength, ?_, ?_⟩
        · exact List.forall_mem_cons.mpr ⟨hle, hall⟩
        · rw [hjoin]
          rfl

/-- The address pattern matches four numerals with a dot between neighbours, and captures them. -/
theorem language_dottedDecimal (hE : AsciiDigits E) :
    dottedDecimal.value.toExpr.language E = addresses 4 := by
  have hcaptured : capturedOctet.value.expr.language E = Match.captured '' numerals 0 255 := by
    rw [← language_octet hE]
    rfl
  have hdot : (Sequenceable.ofChar '.').expr.language E = {.plain ['.']} := rfl
  have hitems : ∀ s ∈ [capturedOctet.value, .ofChar '.', capturedOctet.value, .ofChar '.',
      capturedOctet.value, .ofChar '.', capturedOctet.value], s.expr.WellBuilt := by
    have hoctet := capturedOctet_wellBuilt
    have hchar : (Sequenceable.ofChar '.').expr.WellBuilt := .charLiteral '.'
    simp [hoctet, hchar]
  rw [addresses_succ, addresses_succ, addresses_succ, addresses_one]
  show (Sequence.ofItems _).value.toExpr.language E = _
  rw [Sequence.language_ofItems hitems]
  simp only [List.map_cons, List.map_nil, hcaptured, hdot]
  rw [inRow, inRow, inRow, inRow, inRow, inRow, inRow_singleton]

/-! ## Texts -/

/-- Four numbers that fit an octet. -/
structure IsAddress (octets : List ℕ) : Prop where
  four : octets.length = 4
  le_255 : ∀ n ∈ octets, n ≤ 255

/-- The numerals of some numbers with a dot between neighbours. -/
def dotted (octets : List ℕ) : String := ".".intercalate (octets.map toString)

theorem toList_dotted (octets : List ℕ) :
    (dotted octets).toList = ['.'].intercalate (octets.map numeral) := by
  rw [dotted, String.toList_intercalate, List.map_map]
  rfl

/-- A text with dots is cut into numerals in one way only. -/
theorem numerals_eq_of_dotted_eq {octets octets' : List ℕ} (hne : octets ≠ [])
    (hne' : octets' ≠ []) (h : dotted octets = dotted octets') :
    octets.map numeral = octets'.map numeral := by
  -- splitting at the dots undoes the joining, since no numeral has a dot
  have hsplit : ∀ os : List ℕ, os ≠ [] →
      (['.'].intercalate (os.map numeral)).splitOn '.' = os.map numeral := by
    intro os hos
    refine List.splitOn_intercalate '.' ?_ (by simpa using hos)
    intro l hl
    obtain ⟨n, -, rfl⟩ := List.mem_map.mp hl
    exact dot_not_mem_numeral n
  rw [← hsplit octets hne, ← hsplit octets' hne', ← toList_dotted, ← toList_dotted, h]

theorem captures_octet_iff (hE : AsciiDigits E) {s : String} {parts : List String} :
    octet.value.toExpr.Captures E s parts ↔ parts = [] ∧ ∃ n ≤ 255, s = toString n := by
  rw [Expr.Captures, language_octet hE]
  constructor
  · rintro ⟨n, -, hle, heq⟩
    obtain ⟨htext, hparts⟩ := Match.mk.inj heq
    exact ⟨List.map_eq_nil_iff.mp hparts, n, hle, String.toList_inj.mp htext⟩
  · rintro ⟨rfl, n, hle, rfl⟩
    exact ⟨n, Nat.zero_le n, hle, rfl⟩

theorem captures_dottedDecimal_iff (hE : AsciiDigits E) {s : String} {parts : List String} :
    dottedDecimal.value.toExpr.Captures E s parts ↔
      ∃ octets, IsAddress octets ∧ s = dotted octets ∧ parts = octets.map toString := by
  have hnumerals : ∀ octets : List ℕ, (octets.map toString).map String.toList
      = octets.map numeral := by
    intro octets
    rw [List.map_map]
    rfl
  rw [Expr.Captures, language_dottedDecimal hE]
  constructor
  · rintro ⟨octets, hfour, hle, heq⟩
    obtain ⟨htext, hparts⟩ := Match.mk.inj heq
    refine ⟨octets, ⟨hfour, hle⟩, ?_, ?_⟩
    · rw [← String.toList_inj, toList_dotted, htext]
    · rw [← hnumerals] at hparts
      exact List.map_injective_iff.mpr (fun _ _ => String.toList_inj.mp) hparts
  · rintro ⟨octets, ⟨hfour, hle⟩, rfl, rfl⟩
    refine ⟨octets, hfour, hle, ?_⟩
    rw [toList_dotted, hnumerals]

/-- **The address pattern matches the canonical dotted-decimal addresses and nothing else.**  In an
    engine with the digits of ASCII, an octet matches exactly the numerals of the numbers up to 255;
    the address pattern matches exactly four of these with a dot between neighbours, and all that
    its groups can capture there are the four numerals in order. -/
theorem ipv4_matches_dottedDecimals (hE : AsciiDigits E) :
    (∀ s : String, octet.value.toExpr.Accepts E s ↔ ∃ n ≤ 255, s = toString n) ∧
    (∀ s : String, dottedDecimal.value.toExpr.Accepts E s ↔
      ∃ octets, IsAddress octets ∧ s = dotted octets) ∧
    (∀ octets, IsAddress octets → ∀ parts : List String,
      dottedDecimal.value.toExpr.Captures E (dotted octets) parts ↔
        parts = octets.map toString) := by
  refine ⟨?_, ?_, ?_⟩
  · intro s
    constructor
    · rintro ⟨parts, h⟩
      exact ((captures_octet_iff hE).mp h).2
    · exact fun h => ⟨[], (captures_octet_iff hE).mpr ⟨rfl, h⟩⟩
  · intro s
    constructor
    · rintro ⟨parts, h⟩
      obtain ⟨octets, haddress, hs, -⟩ := (captures_dottedDecimal_iff hE).mp h
      exact ⟨octets, haddress, hs⟩
    · rintro ⟨octets, haddress, hs⟩
      exact ⟨_, (captures_dottedDecimal_iff hE).mpr ⟨octets, haddress, hs, rfl⟩⟩
  · intro octets haddress parts
    have hne : ∀ os, IsAddress os → os ≠ [] := by
      rintro os ⟨hfour, -⟩ rfl
      exact nomatch hfour
    rw [captures_dottedDecimal_iff hE]
    constructor
    · rintro ⟨octets', haddress', hs, rfl⟩
      have htexts : ∀ os : List ℕ, (os.map numeral).map String.ofList = os.map toString := by
        intro os
        rw [List.map_map]
        exact List.map_congr_left fun n _ => String.ofList_toList
      rw [← htexts, ← htexts, numerals_eq_of_dotted_eq (hne _ haddress) (hne _ haddress') hs]
    · rintro rfl
      exact ⟨octets, haddress, rfl, rfl⟩

/-- An address with octets of one, two and three digits, and an octet past the end. -/
theorem ipv4_matches_dottedDecimals_of_length_three :
    let E : Engine :=
      { shorthand := fun _ => {c | '0' ≤ c ∧ c ≤ '9'}, property := fun _ => ∅
        entity := fun _ => ∅, adopted := fun _ => ∅, group := fun _ s => s, possessive := id }
    AsciiDigits E ∧
      dottedDecimal.value.toExpr.Captures E "192.168.0.25" ["192", "168", "0", "25"] ∧
      ¬ octet.value.toExpr.Accepts E "256" := by
  intro E
  have hE : AsciiDigits E := rfl
  obtain ⟨hoctet, -, hcaptures⟩ := ipv4_matches_dottedDecimals hE
  refine ⟨hE, ?_, ?_⟩
  · exact (hcaptures [192, 168, 0, 25] ⟨rfl, by decide⟩ _).mpr (by decide)
  · rw [hoctet]
    decide +kernel

end Ipv4

end PatternAlgebra
