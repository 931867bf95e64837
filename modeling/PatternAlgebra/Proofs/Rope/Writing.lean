import PatternAlgebra.Proofs.Rope.Reading
/-!
# Writing a rope to a text

The pieces of a rope may be handed on one by one, however many there are.  Put into one text they
need room for all of them, and a text has only so many bytes.  As long as there is room, a rope is
written out character by character; as soon as there is none, the writing is cut short.

A text that has been written is never too large.  So whatever is stored in a rope, it is written out
in full exactly if its characters fit.
-/

namespace PatternAlgebra

/-- There is room for the text. -/
abbrev Text.Fits (text : String) : Prop := text.utf8ByteSize ≤ maxTextBytes

namespace Text

/-- A text takes up at least a byte for every character. -/
theorem length_le_utf8ByteSize (text : String) : text.length ≤ text.utf8ByteSize := by
  rw [← String.length_toList, ← String.utf8Len_toList]
  exact length_le_utf8Len text.toList

theorem Fits.left {a b : String} (h : Fits (a ++ b)) : Fits a := by
  rw [Fits, String.utf8ByteSize_append] at h
  exact Nat.le_of_add_right_le h

theorem Fits.right {a b : String} (h : Fits (a ++ b)) : Fits b := by
  rw [Fits, String.utf8ByteSize_append] at h
  exact Nat.le_of_add_left_le h

/-- There is room for each of the texts that there is room for together. -/
theorem Fits.of_mem_join {texts : List String} {text : String} (h : Fits (String.join texts))
    (hmem : text ∈ texts) : Fits text := by
  obtain ⟨before, after, rfl⟩ := List.append_of_mem hmem
  rw [String.join_append, String.join_cons] at h
  exact h.right.left

theorem Fits.of_mem_intercalate {separator text : String} {texts : List String}
    (h : Fits (separator.intercalate texts)) (hmem : text ∈ texts) : Fits text := by
  induction texts with
  | nil => exact nomatch hmem
  | cons first rest ih =>
      cases rest with
      | nil =>
          obtain rfl := List.mem_singleton.mp hmem
          rwa [String.intercalate_singleton] at h
      | cons next rest =>
          rw [String.intercalate_cons_cons] at h
          rcases List.mem_cons.mp hmem with rfl | hmem
          · exact h.left.left
          · exact ih h.right hmem

/-- A text that fits has fewer characters than there are words. -/
theorem Fits.length_lt {text : String} (h : Fits text) : text.length < wordLimit :=
  Nat.lt_of_le_of_lt (Nat.le_trans (length_le_utf8ByteSize text) h) (by decide)

end Text

namespace Rope

open Text (Fits)

/-! ## Pieces -/

theorem checkedExtend_of_fits {out piece : String} (h : Fits (out ++ piece)) :
    checkedExtend (.ok out) piece = .ok (out ++ piece) := by
  rw [Fits, String.utf8ByteSize_append] at h
  exact if_pos h

theorem checkedExtend_of_not_fits {out piece : String} (h : ¬ Fits (out ++ piece)) :
    checkedExtend (.ok out) piece = .error .capacity := by
  rw [Fits, String.utf8ByteSize_append] at h
  exact if_neg h

/-- Nothing is written after a fault. -/
theorem foldl_checkedExtend_error (fault : Fault) (pieces : List String) :
    pieces.foldl checkedExtend (.error fault) = .error fault := by
  induction pieces with
  | nil => rfl
  | cons piece pieces ih => exact ih

theorem foldl_checkedExtend_of_fits (pieces : List String) {out : String}
    (h : Fits (out ++ String.ofList (pieces.flatMap String.toList))) :
    pieces.foldl checkedExtend (.ok out)
      = .ok (out ++ String.ofList (pieces.flatMap String.toList)) := by
  induction pieces generalizing out with
  | nil => simp
  | cons piece pieces ih =>
      have hsplit : out ++ String.ofList ((piece :: pieces).flatMap String.toList)
          = out ++ piece ++ String.ofList (pieces.flatMap String.toList) := by
        rw [List.flatMap_cons, String.ofList_append, String.ofList_toList, String.append_assoc]
      rw [hsplit] at h ⊢
      rw [List.foldl_cons, checkedExtend_of_fits h.left, ih h]

theorem foldl_checkedExtend_of_not_fits (pieces : List String) {out : String} (hout : Fits out)
    (h : ¬ Fits (out ++ String.ofList (pieces.flatMap String.toList))) :
    pieces.foldl checkedExtend (.ok out) = .error .capacity := by
  induction pieces generalizing out with
  | nil => exact absurd (by simpa using hout) h
  | cons piece pieces ih =>
      rw [List.flatMap_cons, String.ofList_append, String.ofList_toList, ← String.append_assoc] at h
      rw [List.foldl_cons]
      by_cases hpiece : Fits (out ++ piece)
      · rw [checkedExtend_of_fits hpiece, ih hpiece h]
      · rw [checkedExtend_of_not_fits hpiece, foldl_checkedExtend_error]

/-! ## Whole ropes -/

/-- Writing a rope after a text is a fold over pieces that together are its characters. -/
theorem checkedWriteTo_eq_foldl {rope : Rope} (h : rope.WellFormed) (out : String) :
    ∃ pieces : List String, pieces.flatMap String.toList = rope.contents ∧
      rope.checkedWriteTo out = pieces.foldl checkedExtend (.ok out) := by
  obtain ⟨pieces, hfold, -, hcontents⟩ := foldPieces_eq_foldl rope.unread (unread_inside h)
  exact ⟨pieces, hcontents.trans (stackContents_unread h), hfold checkedExtend (.ok out)⟩

theorem checkedWriteTo_of_fits {rope : Rope} (h : rope.WellFormed) {out : String}
    (hfits : Fits (out ++ String.ofList rope.contents)) :
    rope.checkedWriteTo out = .ok (out ++ String.ofList rope.contents) := by
  obtain ⟨pieces, hcontents, hfold⟩ := checkedWriteTo_eq_foldl h out
  rw [← hcontents] at hfits
  rw [hfold, ← hcontents, foldl_checkedExtend_of_fits pieces hfits]

theorem checkedWriteTo_of_not_fits {rope : Rope} (h : rope.WellFormed) {out : String}
    (hout : Fits out) (hfits : ¬ Fits (out ++ String.ofList rope.contents)) :
    rope.checkedWriteTo out = .error .capacity := by
  obtain ⟨pieces, hcontents, hfold⟩ := checkedWriteTo_eq_foldl h out
  rw [← hcontents] at hfits
  rw [hfold, foldl_checkedExtend_of_not_fits pieces hout hfits]

/-- Memory is asked for before anything is written, which makes no difference: a text needs at least
    a byte for every character. -/
theorem checkedRender_eq {rope : Rope} (h : rope.WellFormed) :
    rope.checkedRender = rope.checkedWriteTo "" := by
  unfold checkedRender
  by_cases hroom : rope.length ≤ maxTextBytes
  · rw [if_pos hroom]
  · rw [if_neg hroom]
    refine (checkedWriteTo_of_not_fits h (by decide) fun hfits => hroom ?_).symm
    rw [String.empty_append] at hfits
    have hle := Text.length_le_utf8ByteSize (String.ofList rope.contents)
    rw [String.length_ofList, ← h.length_eq] at hle
    exact Nat.le_trans hle hfits

theorem checkedRender_of_fits {rope : Rope} (h : rope.WellFormed)
    (hfits : Fits (String.ofList rope.contents)) :
    rope.checkedRender = .ok (String.ofList rope.contents) := by
  rw [checkedRender_eq h, checkedWriteTo_of_fits h (by rwa [String.empty_append]),
    String.empty_append]

theorem checkedRender_of_not_fits {rope : Rope} (h : rope.WellFormed)
    (hfits : ¬ Fits (String.ofList rope.contents)) :
    rope.checkedRender = .error .capacity := by
  rw [checkedRender_eq h]
  exact checkedWriteTo_of_not_fits h (by decide) (by rwa [String.empty_append])

/-- What is written after a text that fits, fits, whatever is stored in the rope. -/
theorem fits_of_checkedWriteTo {rope : Rope} {out text : String} (hout : Fits out)
    (h : rope.checkedWriteTo out = .ok text) : Fits text := by
  have hkeeps : ∀ (acc : Except Fault String) (piece : String),
      (∀ text, acc = .ok text → Fits text) →
        ∀ text, checkedExtend acc piece = .ok text → Fits text := by
    intro acc piece hacc text htext
    cases acc with
    | error fault => exact nomatch htext
    | ok written =>
        by_cases hfits : Fits (written ++ piece)
        · rw [checkedExtend_of_fits hfits] at htext
          obtain rfl := Except.ok.inj htext
          exact hfits
        · rw [checkedExtend_of_not_fits hfits] at htext
          exact nomatch htext
  refine foldPieces_preserves hkeeps ?_ rope.unread text h
  intro text htext
  obtain rfl := Except.ok.inj htext
  exact hout

theorem fits_of_checkedRender {rope : Rope} {text : String} (h : rope.checkedRender = .ok text) :
    Fits text := by
  unfold checkedRender at h
  by_cases hroom : rope.length ≤ maxTextBytes
  · rw [if_pos hroom] at h
    exact fits_of_checkedWriteTo (by decide) h
  · rw [if_neg hroom] at h
    exact nomatch h

/-- A rope of texts and joins is written out in full exactly if its characters fit. -/
theorem WellSized.checkedRender_eq_ok_iff {rope : Rope} (h : rope.WellSized) :
    rope.checkedRender = .ok (String.ofList rope.contents) ↔
      Fits (String.ofList rope.contents) := by
  refine ⟨fits_of_checkedRender, fun hfits => checkedRender_of_fits (h ?_) hfits⟩
  have hlt := hfits.length_lt
  rwa [String.length_ofList] at hlt

/-- A rope of texts and joins has fewer characters than there are words exactly if its length is a
    word and it is equal to the rope of one text. -/
theorem WellSized.length_lt_iff {rope : Rope} (h : rope.WellSized) :
    rope.contents.length < wordLimit ↔
      rope.length < wordLimit ∧ (rope == ofString (String.ofList rope.contents)) = true := by
  have hleaf : (ofString (String.ofList rope.contents)).contents = rope.contents := by
    rw [contents_ofString, String.toList_ofList]
  constructor
  · intro hlt
    have hwellFormed := h hlt
    refine ⟨by rwa [hwellFormed.length_eq], (beq_iff hwellFormed (wellFormed_ofString _)).mpr ?_⟩
    exact hleaf.symm
  · rintro ⟨hlt, hequal⟩
    have hlength : rope.length = (ofString (String.ofList rope.contents)).length :=
      eq_of_beq (Bool.and_eq_true_iff.mp hequal).1
    rw [(wellFormed_ofString _).length_eq, hleaf] at hlength
    rwa [← hlength]

/-! ## Joins that are cut off -/

/-- A range of a join that ends inside the left side is a range of the left side. -/
theorem foldPieces_concat_of_le {α : Type} (f : α → String → α) (acc : α) {left right : Rope}
    {start stop length : Nat} (h : stop ≤ left.length) :
    foldPieces f acc [⟨concat left right length, start, stop⟩]
      = foldPieces f acc [⟨left, start, stop⟩] := by
  suffices hnext : nextPiece [⟨concat left right length, start, stop⟩]
      = nextPiece [⟨left, start, stop⟩] by
    cases hpiece : nextPiece [⟨left, start, stop⟩] with
    | none =>
        rw [foldPieces_of_none f acc hpiece, foldPieces_of_none f acc (hnext.trans hpiece)]
    | some next =>
        rw [foldPieces_of_some f acc hpiece, foldPieces_of_some f acc (hnext.trans hpiece)]
  rw [nextPiece.eq_def]
  by_cases hle : stop ≤ start
  · rw [nextPiece.eq_def [⟨left, start, stop⟩]]
    simp only [if_pos hle]
  · have hsides : sides left right start stop = [⟨left, start, stop⟩] := by
      rw [sides, if_pos (by omega), if_neg (by omega), Nat.min_eq_left h, List.append_nil]
    simp only [if_neg hle, hsides, List.append_nil]

/-- A join whose sides have more characters than there are words stores what is left of the sum, and
    that is how much of the left side is written. -/
theorem checkedRender_append_of_cut {left right : Rope} (hl : left.WellFormed)
    (hleft : left.isEmpty = false) (hright : right.isEmpty = false) {kept : Nat}
    (hsum : left.length + right.length = wordLimit + kept) (hkept : kept ≤ left.length)
    (hlt : kept < wordLimit) (hfits : Fits (String.ofList (left.contents.take kept))) :
    (left ++ right).length = kept ∧
      (left ++ right).checkedRender = .ok (String.ofList (left.contents.take kept)) := by
  have hsize : addWord left.length right.length = kept := by
    rw [addWord, hsum, Nat.add_mod_left, Nat.mod_eq_of_lt hlt]
  rw [append_of_not_isEmpty hleft hright, hsize]
  refine ⟨rfl, ?_⟩
  have hcount : (left.contents.take kept).length = kept := by
    rw [List.length_take, ← hl.length_eq, Nat.min_eq_left hkept]
  have hroom : kept ≤ maxTextBytes := by
    have hle := Text.length_le_utf8ByteSize (String.ofList (left.contents.take kept))
    rw [String.length_ofList, hcount] at hle
    exact Nat.le_trans hle hfits
  have hinside : ∀ range ∈ [(⟨left, 0, kept⟩ : Pending)], range.Inside :=
    List.forall_mem_singleton.mpr ⟨hl, hkept⟩
  obtain ⟨pieces, hfold, -, hcontents⟩ := foldPieces_eq_foldl _ hinside
  have hpieces : pieces.flatMap String.toList = left.contents.take kept := by
    rw [hcontents, stackContents, List.flatMap_singleton, Pending.contents, List.drop_zero,
      Nat.sub_zero]
  rw [checkedRender, length, if_pos hroom, checkedWriteTo, unread, length,
    foldPieces_concat_of_le _ _ hkept, hfold, foldl_checkedExtend_of_fits, hpieces,
    String.empty_append]
  rwa [hpieces, String.empty_append]

end Rope

end PatternAlgebra
