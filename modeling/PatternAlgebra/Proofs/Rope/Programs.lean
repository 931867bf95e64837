import Mathlib.Data.List.Forall2
import Mathlib.Data.Option.Basic
import PatternAlgebra.Proofs.Rope.Writing
/-!
# Programs on ropes and on lists of characters

A program makes texts by calls that may refer to the texts of earlier calls, each as often as it
likes.  One evaluator runs it on any kind of text: on ropes with lengths in words, on ropes with
exact lengths, and on plain lists of characters, where appending is appending and a view is a piece
cut out.

With exact lengths rope and list agree after every call (`related_value`), and a whole run keeps
that by induction over the calls (`related_run`).  What agreement means to a caller is spelled out
by `Shows`: every reading of the rope is a reading of the list.
-/

namespace PatternAlgebra.Rope

/-! ## Programs -/

/-- A call that makes a text.  Operands are given by the numbers of earlier calls. -/
inductive Call where
  | empty
  | ofString (text : String)
  | ofChar (c : Char)
  | append (a b : Nat)
  | subSequence (a start stop : Nat)

/-- A kind of text that programs can work on; a range that is no range of a text has no view. -/
structure TextOps (α : Type) where
  empty : α
  ofString : String → α
  ofChar : Char → α
  append : α → α → α
  subSequence : α → Nat → Nat → Option α

section

variable {α : Type}

/-- The text of a call, given those of the earlier calls; a refused call has no text, and nor
    has a call that refers to one without text. -/
def Call.value (ops : TextOps α) (earlier : List (Option α)) : Call → Option α
  | empty => some ops.empty
  | ofString text => some (ops.ofString text)
  | ofChar c => some (ops.ofChar c)
  | append a b => do
    let x ← earlier[a]?.join
    let y ← earlier[b]?.join
    return ops.append x y
  | subSequence a start stop => do
    let x ← earlier[a]?.join
    ops.subSequence x start stop

/-- The texts of all calls after those of earlier calls. -/
def runAfter (ops : TextOps α) (earlier : List (Option α)) : List Call → List (Option α)
  | [] => earlier
  | call :: calls => runAfter ops (earlier ++ [call.value ops earlier]) calls

/-- The texts of the calls of a program. -/
def run (ops : TextOps α) (program : List Call) : List (Option α) := runAfter ops [] program

/-- What earlier calls have made is kept. -/
theorem mem_runAfter_of_mem {ops : TextOps α} {x : Option α} (program : List Call)
    {earlier : List (Option α)} (h : x ∈ earlier) : x ∈ runAfter ops earlier program := by
  induction program generalizing earlier with
  | nil => exact h
  | cons call calls ih => exact ih (List.mem_append_left _ h)

theorem mem_of_getElem?_join_eq_some {earlier : List (Option α)} {i : Nat} {x : α}
    (h : earlier[i]?.join = some x) : some x ∈ earlier :=
  List.mem_of_getElem? (Option.join_eq_some_iff.mp h)

end

/-- Programs on ropes with exact lengths. -/
def onRopes : TextOps Rope where
  empty := .empty
  ofString := Rope.ofString
  ofChar := Rope.ofChar
  append := appendExactly
  subSequence rope start stop := (rope.subSequence start stop).toOption

/-- Programs on ropes with lengths in words. -/
def onWords : TextOps Rope := { onRopes with append := (· ++ ·) }

/-- The characters at the positions `start`, …, `stop - 1` of a list, if it has them all. -/
def slice? (cs : List Char) (start stop : Nat) : Option (List Char) :=
  if start ≤ stop ∧ stop ≤ cs.length then some ((cs.drop start).take (stop - start)) else none

/-- Programs on lists of characters. -/
def onLists : TextOps (List Char) where
  empty := []
  ofString := String.toList
  ofChar c := [c]
  append := (· ++ ·)
  subSequence := slice?

/-! ## What a caller sees -/

/-- Every reading of the rope is the same reading of the list, and it is put into one text exactly
    if there is room for that. -/
structure Shows (rope : Rope) (cs : List Char) : Prop where
  length_eq : rope.length = cs.length
  isEmpty_iff : rope.isEmpty = true ↔ cs.length = 0
  render_eq : rope.checkedRender
    = if Text.Fits (String.ofList cs) then .ok (String.ofList cs) else .error .capacity
  appendTo_eq : ∀ out : String, Text.Fits out → rope.checkedWriteTo out
    = if Text.Fits (out ++ String.ofList cs) then .ok (out ++ String.ofList cs)
      else .error .capacity
  toString_eq : toString rope = String.ofList cs
  writeTo_eq : ∀ out : String, rope.writeTo out = out ++ String.ofList cs
  chars_eq : rope.chars = cs
  charAt_eq : ∀ index : Nat, rope.charAt index
    = if h : index < cs.length then .ok cs[index] else .error (.charAt index cs.length)
  startAfterEnd_iff : ∀ start stop : Nat,
    rope.subSequence start stop = .error (.startAfterEnd start stop) ↔ stop < start
  endPastLength_iff : ∀ start stop : Nat,
    rope.subSequence start stop = .error (.endPastLength stop cs.length)
      ↔ start ≤ stop ∧ cs.length < stop
  subSequence_iff : ∀ start stop : Nat,
    (∃ view, rope.subSequence start stop = .ok view ∧
        view.chars = (cs.drop start).take (stop - start))
      ↔ start ≤ stop ∧ stop ≤ cs.length

/-- The rope has sound lengths and the characters of the list. -/
structure Represents (rope : Rope) (cs : List Char) : Prop where
  wellFormed : rope.WellFormed
  contents_eq : rope.contents = cs

/-- A view exists exactly for the ranges inside the rope. -/
theorem subSequence_cases {rope : Rope} (h : rope.WellFormed) (start stop : Nat) :
    (stop < start ∧ rope.subSequence start stop = .error (.startAfterEnd start stop)) ∨
    (start ≤ stop ∧ rope.contents.length < stop ∧
      rope.subSequence start stop = .error (.endPastLength stop rope.contents.length)) ∨
    (start ≤ stop ∧ stop ≤ rope.contents.length ∧
      ∃ view, rope.subSequence start stop = .ok view ∧
        Represents view ((rope.contents.drop start).take (stop - start))) := by
  have hlen := h.length_eq
  by_cases hgt : stop < start
  · exact Or.inl ⟨hgt, subSequence_of_gt rope hgt⟩
  · have hle : start ≤ stop := Nat.not_lt.mp hgt
    by_cases hpast : rope.contents.length < stop
    · refine Or.inr (Or.inl ⟨hle, hpast, ?_⟩)
      rw [← hlen]
      exact subSequence_of_past rope hle (by rwa [hlen])
    · obtain ⟨view, hview, hwf, hcontents⟩ := subSequence_of_inside h hle (by omega)
      exact Or.inr (Or.inr ⟨hle, Nat.not_lt.mp hpast, view, hview, hwf, hcontents⟩)

theorem Represents.shows {rope : Rope} {cs : List Char} (h : Represents rope cs) :
    Shows rope cs := by
  obtain ⟨hwf, rfl⟩ := h
  constructor
  case length_eq => exact hwf.length_eq
  case isEmpty_iff => rw [hwf.isEmpty_eq, List.isEmpty_iff, List.length_eq_zero_iff]
  case render_eq =>
    by_cases hfits : Text.Fits (String.ofList rope.contents)
    · rw [if_pos hfits, checkedRender_of_fits hwf hfits]
    · rw [if_neg hfits, checkedRender_of_not_fits hwf hfits]
  case appendTo_eq =>
    intro out hout
    by_cases hfits : Text.Fits (out ++ String.ofList rope.contents)
    · rw [if_pos hfits, checkedWriteTo_of_fits hwf hfits]
    · rw [if_neg hfits, checkedWriteTo_of_not_fits hwf hout hfits]
  case toString_eq =>
    show rope.writeTo "" = _
    rw [writeTo_eq hwf, String.empty_append]
  case writeTo_eq => exact writeTo_eq hwf
  case chars_eq => exact chars_eq hwf
  case charAt_eq => exact charAt_eq hwf
  case startAfterEnd_iff =>
    intro start stop
    rcases subSequence_cases hwf start stop with
      ⟨hgt, hsub⟩ | ⟨hle, hpast, hsub⟩ | ⟨hle, hin, view, hsub, -⟩
    · simp [hsub, hgt]
    · simp [hsub, hle]
    · simp [hsub, hle]
  case endPastLength_iff =>
    intro start stop
    rcases subSequence_cases hwf start stop with
      ⟨hgt, hsub⟩ | ⟨hle, hpast, hsub⟩ | ⟨hle, hin, view, hsub, -⟩
    · simp [hsub, hgt]
    · simp [hsub, hle, hpast]
    · simp [hsub, hin]
  case subSequence_iff =>
    intro start stop
    rcases subSequence_cases hwf start stop with
      ⟨hgt, hsub⟩ | ⟨hle, hpast, hsub⟩ | ⟨hle, hin, view, hsub, hview⟩
    · simp [hsub, hgt]
    · simp [hsub, hpast]
    · simp [hsub, hle, hin, Rope.chars_eq hview.wellFormed, hview.contents_eq]

/-! ## One call and a whole run -/

/-- A call without text on one side has none on the other, and two texts agree. -/
abbrev Related : Option Rope → Option (List Char) → Prop := Option.Rel Represents

theorem related_getElem?_join {α β : Type} {R : α → β → Prop} {xs : List (Option α)}
    {ys : List (Option β)} (h : List.Forall₂ (Option.Rel R) xs ys) (i : Nat) :
    Option.Rel R xs[i]?.join ys[i]?.join := by
  induction h generalizing i with
  | nil => exact .none
  | cons hhead _ ih =>
      cases i with
      | zero => simpa using hhead
      | succ i => simpa using ih i

/-- One call keeps ropes and lists related. -/
theorem related_value {ropes : List (Option Rope)} {lists : List (Option (List Char))}
    (h : List.Forall₂ Related ropes lists) (call : Call) :
    Related (call.value onRopes ropes) (call.value onLists lists) := by
  cases call with
  | empty => exact .some ⟨.empty, rfl⟩
  | ofString text => exact .some ⟨wellFormed_ofString text, contents_ofString text⟩
  | ofChar c => exact .some ⟨wellFormed_ofChar c, contents_ofChar c⟩
  | append a b =>
      have hx := related_getElem?_join h a
      have hy := related_getElem?_join h b
      simp only [Call.value]
      generalize ropes[a]?.join = x, lists[a]?.join = xs at hx ⊢
      generalize ropes[b]?.join = y, lists[b]?.join = ys at hy ⊢
      cases hx with
      | none => exact .none
      | some ha =>
          cases hy with
          | none => exact .none
          | some hb =>
              refine .some ⟨wellFormed_appendExactly ha.wellFormed hb.wellFormed, ?_⟩
              rw [onRopes, contents_appendExactly, ha.contents_eq, hb.contents_eq]
              rfl
  | subSequence a start stop =>
      have hx := related_getElem?_join h a
      simp only [Call.value]
      generalize ropes[a]?.join = x, lists[a]?.join = xs at hx ⊢
      cases hx with
      | none => exact .none
      | @some rope cs ha =>
          obtain ⟨hwf, rfl⟩ := ha
          show Related (rope.subSequence start stop).toOption
            (slice? rope.contents start stop)
          rcases subSequence_cases hwf start stop with
            ⟨hgt, hsub⟩ | ⟨hle, hpast, hsub⟩ | ⟨hle, hin, view, hsub, hview⟩
          · rw [hsub, slice?, if_neg (by omega)]
            exact .none
          · rw [hsub, slice?, if_neg (by omega)]
            exact .none
          · rw [hsub, slice?, if_pos ⟨hle, hin⟩]
            exact .some hview

theorem related_runAfter (program : List Call) {ropes : List (Option Rope)}
    {lists : List (Option (List Char))} (h : List.Forall₂ Related ropes lists) :
    List.Forall₂ Related (runAfter onRopes ropes program) (runAfter onLists lists program) := by
  induction program generalizing ropes lists with
  | nil => exact h
  | cons call calls ih =>
      exact ih (List.rel_append h (.cons (related_value h call) .nil))

theorem related_run (program : List Call) :
    List.Forall₂ Related (run onRopes program) (run onLists program) :=
  related_runAfter program .nil

/-- The rope at a place of a run represents the list at that place. -/
theorem represents_of_run {program : List Call} {i : Nat} {rope : Rope} {cs : List Char}
    (hrope : (run onRopes program)[i]? = some (some rope))
    (hlist : (run onLists program)[i]? = some (some cs)) : Represents rope cs := by
  have h := related_getElem?_join (related_run program) i
  rw [hrope, hlist] at h
  cases h with
  | some h => exact h

theorem wellFormed_of_mem_run {program : List Call} {rope : Rope}
    (h : some rope ∈ run onRopes program) : rope.WellFormed := by
  obtain ⟨i, hi⟩ := List.mem_iff_getElem?.mp h
  have hrelated := related_getElem?_join (related_run program) i
  rw [hi] at hrelated
  generalize (run onLists program)[i]?.join = list at hrelated
  cases hrelated with
  | some hrepresents => exact hrepresents.wellFormed

/-- A view of a rope on which programs work. -/
theorem subSequence_onRopes_eq_some_iff {rope view : Rope} {start stop : Nat} :
    onRopes.subSequence rope start stop = some view ↔ rope.subSequence start stop = .ok view := by
  show (rope.subSequence start stop).toOption = some view ↔ _
  cases rope.subSequence start stop with
  | error e => exact ⟨fun h => (nomatch h), fun h => (nomatch h)⟩
  | ok made =>
      constructor
      · exact fun h => congrArg _ (Option.some.inj h)
      · exact fun h => congrArg _ (Except.ok.inj h)

end PatternAlgebra.Rope
