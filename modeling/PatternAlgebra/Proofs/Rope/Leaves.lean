import PatternAlgebra.Proofs.Rope.Safety
/-!
# Reading a leaf by bytes

A leaf stores its text in bytes and is asked for characters.  A range of it is all of the text, or a
range of bytes, or found by walking along the offsets of the characters; a single character is a
byte, or found by going through the characters.  Which way is taken depends on the numbers at hand,
and it makes no difference: every way that may be taken leads to the characters asked for, and none
of them leaves the text or cuts a character in two.
-/

namespace PatternAlgebra.Text

/-- Whichever way to a range is taken, and by each of the ways where it may be taken, it yields this
    piece. -/
structure RangeIs (text : String) (start stop : Nat) (piece : String) : Prop where
  checked : checkedCharRange text text.length start stop = .ok piece
  taken : charRange text text.length start stop = piece
  whole : start = 0 → stop = text.length → text = piece
  bytes : text.utf8ByteSize = text.length → byteRange text start stop = piece
  walked : walk text start stop = piece

/-- Whichever way to a character is taken, and by each of the ways where it may be taken, it yields
    this one. -/
structure CharIs (text : String) (index : Nat) (c : Char) : Prop where
  checked : (Rope.leaf text text.length).checkedLocate index = .ok (some c)
  taken : (Rope.leaf text text.length).locate? index = some c
  byte : text.utf8ByteSize = text.length → (byteAt? text index).map Char.ofUInt8 = some c
  counted : (nth index text.toList).1 = some c

/-- **A leaf is read by characters, however its bytes are used.**  A range of positions yields the
    characters at these positions and a position the character there, by every way to it. -/
theorem leaf_read_by_characters (text : String) :
    (∀ start stop : Nat, start < stop → stop ≤ text.length →
      ∃ piece : String, piece.toList = (text.toList.drop start).take (stop - start) ∧
        RangeIs text start stop piece) ∧
    (∀ index : Nat, index < text.length →
      ∃ c : Char, text.toList[index]? = some c ∧ CharIs text index c) := by
  constructor
  · intro start stop h hstop
    have htaken := charRange_eq h hstop
    refine ⟨String.ofList ((text.toList.drop start).take (stop - start)), String.toList_ofList, ?_⟩
    constructor
    case checked => rw [checkedCharRange_eq h hstop, htaken]
    case taken => exact htaken
    case whole =>
      rintro rfl rfl
      exact eq_ofList_take_drop text
    case bytes =>
      intro hbytes
      exact byteRange_eq hbytes (Nat.le_of_lt h) hstop
    case walked => exact walk_eq h hstop
  · intro index h
    have hlt : index < text.toList.length := by rwa [String.length_toList]
    have hchar : text.toList[index]? = some text.toList[index] := List.getElem?_eq_getElem hlt
    have hinside : ¬ text.length ≤ index := Nat.not_le.mpr h
    refine ⟨text.toList[index], hchar, ?_⟩
    constructor
    case checked => rw [Rope.checkedLocate, if_neg hinside, checkedCharAt_eq h, charAt?_eq, hchar]
    case taken => rw [Rope.locate?, if_neg hinside, charAt?_eq, hchar]
    case byte =>
      intro hbytes
      rw [byteAt?_map_ofUInt8 (utf8Size_of_bytes_eq hbytes), hchar]
    case counted => rw [nth_eq, hchar]

/-- The end of a text with characters of two and three bytes, and of one with bytes for
    characters. -/
theorem leaf_read_by_characters_at_the_end :
    charRange "a\u00e9\u20ac" 3 1 3 = "\u00e9\u20ac" ∧ walk "a\u00e9\u20ac" 1 3 = "\u00e9\u20ac" ∧
      (Rope.leaf "a\u00e9\u20ac" 3).locate? 2 = some '\u20ac' ∧
      byteRange "abc" 1 3 = "bc" ∧ (Rope.leaf "abc" 3).locate? 2 = some 'c' := by
  obtain ⟨hranges, hchars⟩ := leaf_read_by_characters "a\u00e9\u20ac"
  obtain ⟨piece, hpiece, hrange⟩ := hranges 1 3 (by decide) (by decide)
  obtain ⟨c, hc, hchar⟩ := hchars 2 (by decide)
  obtain ⟨hranges', hchars'⟩ := leaf_read_by_characters "abc"
  obtain ⟨piece', hpiece', hrange'⟩ := hranges' 1 3 (by decide) (by decide)
  obtain ⟨c', hc', hchar'⟩ := hchars' 2 (by decide)
  obtain rfl : "\u00e9\u20ac" = piece := String.toList_inj.mp (by rw [hpiece]; decide)
  obtain rfl : "bc" = piece' := String.toList_inj.mp (by rw [hpiece']; decide)
  obtain rfl : '\u20ac' = c := Option.some.inj (by rw [← hc]; decide)
  obtain rfl : 'c' = c' := Option.some.inj (by rw [← hc']; decide)
  exact ⟨hrange.taken, hrange.walked, hchar.taken, hrange'.bytes (by decide), hchar'.taken⟩

end PatternAlgebra.Text
