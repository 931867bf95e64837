import Mathlib.Data.String.Basic
import PatternAlgebra.Text.Chars
/-!
# Positions in a text are positions in its list of characters

The functions on stored texts work with byte offsets where that is cheaper.  This file shows that
what they return depends on the list of characters alone: `charAt?` is indexing and `charRange`
is cutting a piece out of the list.

The short cuts rest on one fact: a text with as many bytes as characters has one byte for every
character, so byte offsets and positions are the same numbers.
-/

namespace PatternAlgebra.Text

open String (utf8Len)

/-! ## Texts with one byte for every character -/

/-- Every character takes at least one byte. -/
theorem length_le_utf8Len (cs : List Char) : cs.length ≤ utf8Len cs := by
  induction cs with
  | nil => exact Nat.zero_le _
  | cons c cs ih =>
      have hc := c.utf8Size_pos
      simp only [List.length_cons, String.utf8Len_cons]
      omega

/-- As many bytes as characters leave one byte for each of them. -/
theorem utf8Size_of_utf8Len_eq {cs : List Char} (h : utf8Len cs = cs.length) :
    ∀ c ∈ cs, c.utf8Size = 1 := by
  induction cs with
  | nil => intro c hc; exact absurd hc (by simp)
  | cons d ds ih =>
      have hd := d.utf8Size_pos
      have hds := length_le_utf8Len ds
      simp only [List.length_cons, String.utf8Len_cons] at h
      intro c hc
      rcases List.mem_cons.mp hc with rfl | hmem
      · omega
      · exact ih (by omega) c hmem

/-- With one byte for each character, offsets count characters. -/
theorem utf8Len_eq_length {cs : List Char} (h : ∀ c ∈ cs, c.utf8Size = 1) :
    utf8Len cs = cs.length := by
  induction cs with
  | nil => rfl
  | cons c cs ih =>
      have hc := h c (by simp)
      have hcs := ih fun d hd => h d (by simp [hd])
      simp only [List.length_cons, String.utf8Len_cons]
      omega

/-- A character of one byte is read back from its byte. -/
theorem ofUInt8_toUInt8 {c : Char} (h : c.utf8Size = 1) : Char.ofUInt8 c.val.toUInt8 = c := by
  have hle : c.val.toNat ≤ 127 := UInt32.le_iff_toNat_le.mp (Char.utf8Size_eq_one_iff.mp h)
  apply Char.ext
  apply UInt32.toNat_inj.mp
  show c.val.toUInt8.toUInt32.toNat = c.val.toNat
  rw [UInt8.toNat_toUInt32, UInt32.toNat_toUInt8]
  exact Nat.mod_eq_of_lt (by omega)

/-- The bytes of such a text are the codes of its characters. -/
theorem getElem_utf8Encode {cs : List Char} (h : ∀ c ∈ cs, c.utf8Size = 1) (i : Nat)
    (hi : i < cs.length) (hb : i < cs.utf8Encode.size) :
    Char.ofUInt8 cs.utf8Encode[i] = cs[i] := by
  induction cs generalizing i with
  | nil => exact absurd hi (by simp)
  | cons c cs ih =>
      have hc : String.utf8EncodeChar c = [c.val.toUInt8] :=
        String.utf8EncodeChar_eq_singleton (h c (by simp))
      have hsize : [c].utf8Encode.size = 1 := by simp [List.utf8Encode_singleton, hc]
      have hcons : (c :: cs).utf8Encode = [c].utf8Encode ++ cs.utf8Encode :=
        List.utf8Encode_cons
      cases i with
      | zero =>
          have hfirst : (c :: cs).utf8Encode[0] = c.val.toUInt8 := by
            simp only [hcons]
            rw [ByteArray.getElem_append_left (by omega)]
            simp [List.utf8Encode_singleton, hc]
          rw [hfirst]
          exact ofUInt8_toUInt8 (h c (by simp))
      | succ i =>
          have htail : i < cs.utf8Encode.size := by
            rw [hcons, ByteArray.size_append] at hb
            omega
          have hrest : (c :: cs).utf8Encode[i + 1] = cs.utf8Encode[i] := by
            simp only [hcons]
            rw [ByteArray.getElem_append_right (by omega)]
            simp [hsize]
          rw [hrest]
          exact ih (fun d hd => h d (by simp [hd])) i (by simpa using hi) htail

/-- The byte at an offset of such a text is the character at the position. -/
theorem byteAt?_map_ofUInt8 {text : String} (h : ∀ c ∈ text.toList, c.utf8Size = 1) (i : Nat) :
    (byteAt? text i).map Char.ofUInt8 = text.toList[i]? := by
  have hsize : text.utf8ByteSize = text.toList.length := by
    rw [← String.utf8Len_toList]
    exact utf8Len_eq_length h
  unfold byteAt?
  by_cases hi : i < text.utf8ByteSize
  · have hlen : i < text.toList.length := by omega
    have hencoded : i < text.toList.utf8Encode.size := by
      rw [String.utf8Encode_toList]
      exact hi
    have hbytes : text.getUTF8Byte ⟨i⟩ hi = text.toList.utf8Encode[i] := by
      simp only [String.getUTF8Byte, String.utf8Encode_toList]
    rw [dif_pos hi, Option.map_some, hbytes, getElem_utf8Encode h i hlen]
    exact (List.getElem?_eq_getElem hlen).symm
  · rw [dif_neg hi, Option.map_none, List.getElem?_eq_none (by omega)]

/-! ## Offsets of positions -/

/-- The offset of a position is the number of bytes before it. -/
theorem getElem?_byteOffsets {cs : List Char} {i : Nat} (start : Nat) (hi : i ≤ cs.length) :
    (byteOffsets start cs)[i]? = some (start + utf8Len (cs.take i)) := by
  induction cs generalizing i start with
  | nil =>
      obtain rfl : i = 0 := by simpa using hi
      simp [byteOffsets]
  | cons c cs ih =>
      cases i with
      | zero => simp [byteOffsets]
      | succ i =>
          have hi' : i ≤ cs.length := by simpa using hi
          rw [byteOffsets, List.getElem?_cons_succ, ih _ hi', List.take_succ_cons,
            String.utf8Len_cons]
          congr 1
          omega

/-- Between the offsets of two positions stand the characters at the positions between. -/
theorem byteRange_utf8Len {text : String} {start stop : Nat} (h : start ≤ stop) :
    byteRange text (utf8Len (text.toList.take start)) (utf8Len (text.toList.take stop))
      = String.ofList ((text.toList.drop start).take (stop - start)) := by
  have hsplit : text.toList.take stop
      = text.toList.take start ++ (text.toList.drop start).take (stop - start) := by
    rw [← List.take_add, Nat.add_sub_cancel' h]
  have htext : text = String.ofList (text.toList.take start
      ++ (text.toList.drop start).take (stop - start) ++ text.toList.drop stop) := by
    rw [← hsplit, List.take_append_drop, String.ofList_toList]
  rw [hsplit, String.utf8Len_append, byteRange]
  conv => lhs; arg 1; rw [htext]
  exact String.extract_of_valid _ _ _

/-! ## Characters and offsets of a text -/

/-- A text with as many bytes as characters has one byte for each of them. -/
theorem utf8Size_of_bytes_eq {text : String} (hbytes : text.utf8ByteSize = text.length) :
    ∀ c ∈ text.toList, c.utf8Size = 1 := by
  apply utf8Size_of_utf8Len_eq
  rw [String.utf8Len_toList, hbytes, String.length_toList]

theorem charAt?_eq (text : String) (i : Nat) :
    charAt? text text.length i = text.toList[i]? := by
  unfold charAt?
  by_cases hbytes : text.utf8ByteSize = text.length
  · rw [if_pos hbytes, byteAt?_map_ofUInt8 (utf8Size_of_bytes_eq hbytes)]
  · rw [if_neg hbytes]

/-- In a text with as many bytes as characters, the offset of a position is the position. -/
theorem utf8Len_take_of_bytes_eq {text : String} (hbytes : text.utf8ByteSize = text.length)
    {i : Nat} (hi : i ≤ text.length) : utf8Len (text.toList.take i) = i := by
  have hone : ∀ c ∈ text.toList.take i, c.utf8Size = 1 :=
    fun c hc => utf8Size_of_bytes_eq hbytes c (List.mem_of_mem_take hc)
  rw [utf8Len_eq_length hone,
    List.length_take_of_le (by rwa [String.length_toList])]

/-- The offset where a range starts. -/
theorem getElem?_byteOffsets_start {text : String} {start : Nat} (h : start ≤ text.length) :
    (byteOffsets 0 text.toList)[start]? = some (utf8Len (text.toList.take start)) := by
  rw [getElem?_byteOffsets 0 (by rwa [String.length_toList]), Nat.zero_add]

/-- The offset where a range ends is looked up after the first offset, so both count from the
    beginning. -/
theorem getElem?_byteOffsets_stop {text : String} {start stop : Nat} (h : start < stop)
    (hstop : stop ≤ text.length) :
    ((byteOffsets 0 text.toList).drop (start + 1))[stop - start - 1]?
      = some (utf8Len (text.toList.take stop)) := by
  rw [List.getElem?_drop, show start + 1 + (stop - start - 1) = stop by omega,
    getElem?_byteOffsets_start hstop]

/-! ## Ways to a range -/

/-- What an iterator gives that is asked for the item after so many others, and what is left of it
    then. -/
def nth {α : Type} : Nat → List α → Option α × List α
  | _, [] => (none, [])
  | 0, item :: rest => (some item, rest)
  | n + 1, _ :: rest => nth n rest

theorem nth_eq {α : Type} (n : Nat) (items : List α) :
    nth n items = (items[n]?, items.drop (n + 1)) := by
  induction items generalizing n with
  | nil => simp [nth]
  | cons item rest ih =>
      cases n with
      | zero => simp [nth]
      | succ n => rw [nth, ih, List.getElem?_cons_succ, List.drop_succ_cons]

/-- The text between two positions of which one iterator over the offsets finds both, the second on
    its way on from the first. -/
def walk (text : String) (start stop : Nat) : String :=
  let (first, ahead) := nth start (byteOffsets 0 text.toList)
  let (last, _) := nth (stop - start - 1) ahead
  byteRange text (first.getD text.utf8ByteSize) (last.getD text.utf8ByteSize)

/-- A range is found by walking where neither of the short cuts can be taken. -/
theorem charRange_eq_walk {text : String} {length start stop : Nat}
    (hpart : ¬ (start = 0 ∧ stop = length)) (hbytes : text.utf8ByteSize ≠ length) :
    charRange text length start stop = walk text start stop := by
  rw [charRange, if_neg hpart, if_neg hbytes, walk]
  simp only [nth_eq]

theorem walk_eq {text : String} {start stop : Nat} (h : start < stop)
    (hstop : stop ≤ text.length) :
    walk text start stop = String.ofList ((text.toList.drop start).take (stop - start)) := by
  rw [walk]
  simp only [nth_eq]
  rw [getElem?_byteOffsets_start (Nat.le_trans (Nat.le_of_lt h) hstop),
    getElem?_byteOffsets_stop h hstop, Option.getD_some, Option.getD_some,
    byteRange_utf8Len (Nat.le_of_lt h)]

/-- Where every character is one byte, positions may be used as offsets. -/
theorem byteRange_eq {text : String} (hbytes : text.utf8ByteSize = text.length) {start stop : Nat}
    (h : start ≤ stop) (hstop : stop ≤ text.length) :
    byteRange text start stop = String.ofList ((text.toList.drop start).take (stop - start)) := by
  have hstart : utf8Len (text.toList.take start) = start :=
    utf8Len_take_of_bytes_eq hbytes (Nat.le_trans h hstop)
  have hend : utf8Len (text.toList.take stop) = stop := utf8Len_take_of_bytes_eq hbytes hstop
  rw [← byteRange_utf8Len h, hstart, hend]

/-- All of a text. -/
theorem eq_ofList_take_drop (text : String) :
    text = String.ofList ((text.toList.drop 0).take (text.length - 0)) := by
  rw [List.drop_zero, Nat.sub_zero, ← String.length_toList, List.take_length, String.ofList_toList]

theorem charRange_eq {text : String} {start stop : Nat} (h : start < stop)
    (hstop : stop ≤ text.length) :
    charRange text text.length start stop
      = String.ofList ((text.toList.drop start).take (stop - start)) := by
  by_cases hall : start = 0 ∧ stop = text.length
  · rw [charRange, if_pos hall, hall.1, hall.2]
    exact eq_ofList_take_drop text
  · by_cases hbytes : text.utf8ByteSize = text.length
    · rw [charRange, if_neg hall, if_pos hbytes, byteRange_eq hbytes (Nat.le_of_lt h) hstop]
    · rw [charRange_eq_walk hall hbytes, walk_eq h hstop]

end PatternAlgebra.Text
