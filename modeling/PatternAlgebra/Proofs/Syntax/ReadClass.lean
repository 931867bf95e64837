import PatternAlgebra.Proofs.Construction.Invariant
import PatternAlgebra.Proofs.Syntax.Characters
/-!
# Reading back classes

Read from any state, the bare text of a class adds the items of the class at the current level and
leaves the rest of the text alone.  The one thing that is asked of the rest is that it does not
start with a dash, which would make a range of the last character, and the texts of classes never
do.  Put in brackets, a class becomes an item itself.
-/

namespace PatternAlgebra.Syntax

/-! ## Rows and branches at once -/

namespace Level

variable {α : Type}

/-- A row more in the current branch. -/
def addAll (level : Level α) (row : List α) : Level α :=
  { level with current := level.current ++ row }

/-- Some branches more, the first of which goes on from the current one. -/
def addBranches (level : Level α) : List (List α) → Level α
  | [] => level
  | [row] => level.addAll row
  | row :: rows => (level.addAll row).split.addBranches rows

theorem addAll_nil (level : Level α) : level.addAll [] = level := by
  rw [addAll, List.append_nil]

theorem addAll_append (level : Level α) (xs ys : List α) :
    level.addAll (xs ++ ys) = (level.addAll xs).addAll ys := by
  rw [addAll, addAll, addAll, List.append_assoc]

theorem branches_addBranches_cons : ∀ (rows : List (List α)) (level : Level α) (row : List α),
    (level.addBranches (row :: rows)).branches
      = level.complete ++ (level.current ++ row) :: rows := by
  intro rows
  induction rows with
  | nil => intro level row; rfl
  | cons next rows ih =>
      intro level row
      show ((level.addAll row).split.addBranches (next :: rows)).branches = _
      rw [ih, split, addAll, List.append_assoc]
      rfl

/-- A level that is read afresh ends with the branches that were added. -/
theorem branches_addBranches {rows : List (List α)} (h : rows ≠ []) :
    (({} : Level α).addBranches rows).branches = rows := by
  cases rows with
  | nil => exact absurd rfl h
  | cons row rows => exact branches_addBranches_cons rows {} row

end Level

namespace State

variable {κ α : Type}

/-- A row more at the current level. -/
def addAll (state : State κ α) (row : List α) : State κ α :=
  { state with level := state.level.addAll row }

/-- Some branches more at the current level. -/
def addBranches (state : State κ α) (rows : List (List α)) : State κ α :=
  { state with level := state.level.addBranches rows }

theorem addAll_nil (state : State κ α) : state.addAll [] = state := by
  rw [addAll, Level.addAll_nil]

theorem addAll_append (state : State κ α) (xs ys : List α) :
    state.addAll (xs ++ ys) = (state.addAll xs).addAll ys := by
  rw [addAll, Level.addAll_append]
  rfl

end State

/-! ## One token -/

section Tokens

variable {isNegated : Bool} {state : State Bool ClassItem} {text rest : List Char}

theorem readBracket_item {k : ClassItem} (h : nextClassToken text = some (.item k, rest))
    (hlt : rest.length < text.length) :
    readBracket isNegated state text = readBracket isNegated (state.add k) rest := by
  rw [readBracket, h]
  exact if_pos hlt

theorem readBracket_split (rest : List Char) :
    readBracket isNegated state ('&' :: '&' :: rest) = readBracket isNegated state.split rest := by
  have hlt : rest.length < ('&' :: '&' :: rest).length := by
    rw [List.length_cons, List.length_cons]
    omega
  rw [readBracket]
  exact if_pos hlt

theorem readBracket_enter {isNegated' : Bool}
    (h : nextClassToken text = some (.enter isNegated', rest)) (hlt : rest.length < text.length) :
    readBracket isNegated state text = readBracket isNegated (state.enter isNegated') rest := by
  rw [readBracket, h]
  exact if_pos hlt

theorem readBracket_leave {isNegated' : Bool} {outer : Level ClassItem}
    {around : List (Bool × Level ClassItem)} (level : Level ClassItem) (rest : List Char) :
    readBracket isNegated ⟨level, (isNegated', outer) :: around⟩ (']' :: rest)
      = readBracket isNegated ⟨outer.add (.bracket isNegated' level.branches), around⟩ rest := by
  rw [readBracket]
  exact if_pos (by simp)

theorem readBracket_end (level : Level ClassItem) (rest : List Char) :
    readBracket isNegated ⟨level, []⟩ (']' :: rest)
      = some (.bracket isNegated level.branches, rest) := by
  rw [readBracket]
  exact if_pos (by simp)

end Tokens

/-- Between brackets, a written character is the start of a character or of a range. -/
theorem nextClassToken_written (c : Char) (next : Option Char) (rest : List Char) :
    nextClassToken (escapedBefore c next ++ rest)
      = (readRange (escapedBefore c next ++ rest)).map (Prod.map .item id) := by
  rcases escapedBefore_shape c next with ⟨d, text, heq, hd⟩ | ⟨heq, hc⟩
  · rw [heq, List.cons_append, List.cons_append, nextClassToken,
      (named_by_afterBackslash d hd _).1]
  · have hother : ∀ d ∈ needsEscape.toList, c ≠ d := by
      rintro d hd rfl
      exact hc hd
    rw [heq, List.singleton_append, nextClassToken]
    · rintro _ heq
      exact hother ']' (by decide) (List.cons.inj heq).1
    · rintro _ heq
      exact hother '[' (by decide) (List.cons.inj heq).1
    · rintro _ heq
      exact hother '[' (by decide) (List.cons.inj heq).1
    · rintro _ heq
      exact hother '&' (by decide) (List.cons.inj heq).1
    · rintro _ heq
      exact hother '\\' (by decide) (List.cons.inj heq).1

/-- What stands between brackets never starts like this. -/
def notBetween : String := "-^"

theorem mem_needsEscape_of_specialInClass :
    ∀ c ∈ specialInClass.toList, c ∈ needsEscape.toList := by
  simp [specialInClass, needsEscape]

theorem nextClassToken_char (c : Char) {next : Option Char} {rest : List Char}
    (hfollows : Follows next rest) (hrest : StartsOutside notBetween rest) :
    nextClassToken (escapedBefore c next ++ rest) = some (.item (.char c), rest) := by
  rw [nextClassToken_written, readRange,
    readChar_escapedBefore mem_needsEscape_of_specialInClass c hfollows]
  cases rest with
  | nil => rfl
  | cons d rest =>
      have hd : d ≠ '-' := hrest.ne_of_cons (by decide)
      split
      · rename_i heq
        exact nomatch heq
      · rename_i heq
        exact absurd (List.cons.inj (Prod.mk.inj (Option.some.inj heq)).2).1 hd
      · rename_i heq
        obtain ⟨rfl, rfl⟩ := Prod.mk.inj (Option.some.inj heq)
        rfl

theorem nextClassToken_range (first last : Char) (rest : List Char) :
    nextClassToken (escapedBefore first (some '-') ++ '-' :: (escapedAlone last ++ rest))
      = some (.item (.range first last), rest) := by
  rw [nextClassToken_written, readRange,
    readChar_escapedBefore mem_needsEscape_of_specialInClass first (follows_dash _)]
  show Option.map _ (Option.map _ (readChar specialInClass (escapedAlone last ++ rest))) = _
  rw [escapedAlone,
    readChar_escapedBefore mem_needsEscape_of_specialInClass last (follows_none rest)]
  rfl

/-- The name of a property is read up to the brace behind it. -/
theorem readProperty_name {name : String} (h : name.toList.contains '\x7d' = false)
    (isNegated : Bool) (rest : List Char) :
    readProperty isNegated (name.toList ++ '\x7d' :: rest)
      = some (.property name isNegated, rest) := by
  have hname : ∀ c ∈ name.toList, (c != '\x7d') = true := by
    intro c hc
    rw [bne_iff_ne]
    rintro rfl
    rw [List.contains_iff_mem.mpr hc] at h
    exact nomatch h
  have hclose : ¬ ('\x7d' != '\x7d') = true := by decide
  have hdrop : (name.toList ++ '\x7d' :: rest).dropWhile (· != '\x7d') = '\x7d' :: rest := by
    rw [List.dropWhile_append_of_pos hname]
    exact List.dropWhile_cons_of_neg hclose
  have htake : (name.toList ++ '\x7d' :: rest).takeWhile (· != '\x7d') = name.toList := by
    have hstop : ('\x7d' :: rest).takeWhile (· != '\x7d') = [] :=
      List.takeWhile_cons_of_neg hclose
    rw [List.takeWhile_append_of_pos hname, hstop, List.append_nil]
  rw [readProperty, hdrop, htake, String.ofList_toList]

theorem readNamedClass_shorthand (kind : Shorthand) (isNegated : Bool) (rest : List Char) :
    readNamedClass (kind.letter isNegated :: rest) = some (.shorthand kind isNegated, rest) := by
  cases kind <;> cases isNegated <;> rfl

theorem readNamedClass_property {name : String} (h : name.toList.contains '\x7d' = false)
    (isNegated : Bool) (rest : List Char) :
    readNamedClass ((if isNegated then 'P' else 'p') :: '\x7b' :: (name.toList ++ '\x7d' :: rest))
      = some (.property name isNegated, rest) := by
  cases isNegated with
  | true => exact readProperty_name h true rest
  | false => exact readProperty_name h false rest

/-- How a property is written, with its backslash and its brace split off. -/
theorem propertyChars_append (name : String) (isNegated : Bool) (rest : List Char) :
    CharClass.propertyChars name isNegated ++ rest
      = '\\' :: (if isNegated then 'P' else 'p') :: '\x7b' :: (name.toList ++ '\x7d' :: rest) := by
  simp [CharClass.propertyChars]

theorem nextClassToken_named {text rest : List Char} {k : ClassItem}
    (h : readNamedClass text = some (k, rest)) :
    nextClassToken ('\\' :: text) = some (.item k, rest) := by
  rw [nextClassToken, h]

/-! ## Rows of items -/

/-- Between brackets, a text reads as a row of items, whatever comes after it. -/
structure ReadsAsItems (text : List Char) (items : List ClassItem) : Prop where
  starts : StartsOutside notBetween text
  reads : ∀ (isNegated : Bool) (state : State Bool ClassItem) (rest : List Char),
    StartsOutside notBetween rest →
    readBracket isNegated state (text ++ rest) = readBracket isNegated (state.addAll items) rest

/-- Between brackets, a text reads as several rows of items. -/
structure ReadsAsOperands (text : List Char) (operands : List (List ClassItem)) : Prop where
  starts : StartsOutside notBetween text
  reads : ∀ (isNegated : Bool) (state : State Bool ClassItem) (rest : List Char),
    StartsOutside notBetween rest →
    readBracket isNegated state (text ++ rest)
      = readBracket isNegated (state.addBranches operands) rest

namespace ReadsAsItems

theorem nil : ReadsAsItems [] [] where
  starts := .nil
  reads := by
    intro isNegated state rest _
    rw [State.addAll_nil]
    rfl

theorem append {text text' : List Char} {items items' : List ClassItem}
    (h : ReadsAsItems text items) (h' : ReadsAsItems text' items') :
    ReadsAsItems (text ++ text') (items ++ items') where
  starts := h.starts.append h'.starts
  reads := by
    intro isNegated state rest hrest
    rw [List.append_assoc, h.reads isNegated state _ (h'.starts.append hrest),
      h'.reads isNegated _ rest hrest, State.addAll_append]

theorem of_token {text : List Char} {k : ClassItem} (hne : text ≠ [])
    (hstarts : StartsOutside notBetween text)
    (h : ∀ rest, StartsOutside notBetween rest →
      nextClassToken (text ++ rest) = some (.item k, rest)) : ReadsAsItems text [k] where
  starts := hstarts
  reads := by
    intro isNegated state rest hrest
    exact readBracket_item (h rest hrest) (length_lt_append hne rest)

theorem operands {text : List Char} {items : List ClassItem} (h : ReadsAsItems text items) :
    ReadsAsOperands text [items] := ⟨h.starts, h.reads⟩

end ReadsAsItems

namespace ReadsAsOperands

variable {text : List Char} {operands : List (List ClassItem)}

theorem cons {first : List Char} {items : List ClassItem} (hfirst : ReadsAsItems first items)
    (h : ReadsAsOperands text operands) (hne : operands ≠ []) :
    ReadsAsOperands (first ++ '&' :: '&' :: text) (items :: operands) where
  starts := hfirst.starts.append (.cons (by decide) _)
  reads := by
    intro isNegated state rest hrest
    rw [List.append_assoc]
    show readBracket isNegated state (first ++ '&' :: '&' :: (text ++ rest)) = _
    rw [hfirst.reads isNegated state _ (.cons (by decide) _), readBracket_split,
      h.reads isNegated _ rest hrest]
    obtain ⟨next, operands, rfl⟩ := List.exists_cons_of_ne_nil hne
    rfl

/-- After an opening bracket, operands cannot be mistaken for those of a complement. -/
theorem ne_caret (h : ReadsAsOperands text operands) (rest tail : List Char) :
    text ++ ']' :: rest ≠ '^' :: tail := by
  intro heq
  have hclose : StartsOutside notBetween (']' :: rest) := .cons (by decide) rest
  have hstarts := h.starts.append hclose
  rw [heq] at hstarts
  exact hstarts '^' rfl (by decide)

theorem bracket {isNegated' : Bool} (opening : List Char) (hne : operands ≠ [])
    (hopening : opening ≠ []) (hstarts : StartsOutside notBetween opening)
    (hopens : ∀ rest, nextClassToken (opening ++ (text ++ ']' :: rest))
      = some (.enter isNegated', text ++ ']' :: rest))
    (h : ReadsAsOperands text operands) :
    ReadsAsItems (opening ++ text ++ [']']) [.bracket isNegated' operands] where
  starts := (hstarts.append h.starts).append (.cons (by decide) _)
  reads := by
    intro isNegated state rest _
    rw [List.append_assoc, List.append_assoc, List.singleton_append,
      readBracket_enter (hopens rest) (length_lt_append hopening _),
      h.reads isNegated _ (']' :: rest) (.cons (by decide) _), State.addBranches, State.enter,
      readBracket_leave, Level.branches_addBranches hne]
    rfl

theorem enclosed (h : ReadsAsOperands text operands) (hne : operands ≠ []) :
    ReadsAsItems ('[' :: text ++ [']']) [.bracket false operands] := by
  refine h.bracket ['['] hne (List.cons_ne_nil _ _) (.cons (by decide) _) ?_
  intro rest
  show nextClassToken ('[' :: (text ++ ']' :: rest)) = _
  rw [nextClassToken]
  exact h.ne_caret rest

theorem complement (h : ReadsAsOperands text operands) (hne : operands ≠ []) :
    ReadsAsItems (['[', '^'] ++ text ++ [']']) [.bracket true operands] :=
  h.bracket ['[', '^'] hne (List.cons_ne_nil _ _) (.cons (by decide) _) fun _ => rfl

end ReadsAsOperands

/-! ## Classes -/

theorem ReadsAsItems.bracketIf {text : List Char} {items : List ClassItem}
    (h : ReadsAsItems text items) (needed : Bool) :
    ReadsAsItems (CharClass.bracketIf needed text) (CharClass.bracketItemsIf needed items) := by
  cases needed with
  | false => exact h
  | true => exact h.operands.enclosed (List.cons_ne_nil _ _)

theorem not_mem_backslash_notBetween : '\\' ∉ notBetween.toList := by decide

theorem mem_needsEscape_of_notBetween : ∀ c ∈ notBetween.toList, c ∈ needsEscape.toList := by
  simp [notBetween, needsEscape]

/-- Listed characters are read back one by one, each of them with the next one in view. -/
theorem readsAsItems_escapeChars (members : List Char) :
    ReadsAsItems (escapeChars members) (members.map .char) := by
  have hstarts := startsOutside_escapeChars not_mem_backslash_notBetween
    mem_needsEscape_of_notBetween
  induction members with
  | nil => exact .nil
  | cons c members ih =>
      refine ⟨hstarts (c :: members), ?_⟩
      intro isNegated state rest hrest
      have htoken := nextClassToken_char c (follows_escapeChars members rest)
        ((hstarts members).append hrest)
      have hlt := length_lt_append (escapedBefore_ne_nil c members.head?)
        (escapeChars members ++ rest)
      rw [escapeChars, List.append_assoc, readBracket_item htoken hlt,
        ih.reads isNegated _ rest hrest, List.map_cons]
      exact congrArg (readBracket isNegated · rest) (state.addAll_append [_] _).symm

theorem readsAsItems_bareCharsAll {ks : List CharClass}
    (h : ∀ k ∈ ks, ReadsAsItems k.bareChars k.items) :
    ReadsAsItems (CharClass.bareCharsAll ks) (CharClass.itemsAll ks) := by
  induction ks with
  | nil => exact .nil
  | cons k ks ih => exact (h k (by simp)).append (ih fun j hj => h j (by simp [hj]))

theorem readsAsOperands_operandChars {ks : List CharClass} (hne : ks ≠ [])
    (h : ∀ k ∈ ks, ReadsAsItems k.bareChars k.items) :
    ReadsAsOperands (CharClass.operandChars ks) (CharClass.operands ks) := by
  induction ks with
  | nil => exact absurd rfl hne
  | cons k ks ih =>
      have hfirst := (h k (by simp)).bracketIf k.needsBrackets
      cases ks with
      | nil => exact hfirst.operands
      | cons k' ks =>
          have hrest := ih (List.cons_ne_nil _ _) fun j hj => h j (by simp [hj])
          exact hrest.cons hfirst (List.cons_ne_nil _ _)

/-- The bare text of a class reads as its items. -/
theorem readsAsItems_bareChars {k : CharClass} (h : k.WellBuilt) (hr : k.isReadable = true) :
    ReadsAsItems k.bareChars k.items := by
  have hwritten := startsOutside_escapedBefore not_mem_backslash_notBetween
    mem_needsEscape_of_notBetween
  induction h with
  | single c =>
      exact .of_token (escapedBefore_ne_nil c none) (hwritten c none) fun rest hrest =>
        nextClassToken_char c (follows_none rest) hrest
  | @set members _ _ => exact readsAsItems_escapeChars members
  | @range first last _ =>
      have hfirst := escapedBefore_ne_nil first (some '-')
      refine .of_token (List.append_ne_nil_of_left_ne_nil hfirst _)
        ((hwritten first _).append_of_ne_nil hfirst _) fun rest _ => ?_
      rw [← nextClassToken_range first last rest, CharClass.bareChars, List.append_assoc]
      rfl
  | shorthand kind isNegated =>
      exact .of_token (List.cons_ne_nil _ _) (.cons (by decide) _) fun rest _ =>
        nextClassToken_named (readNamedClass_shorthand kind isNegated rest)
  | property name isNegated =>
      have hname : name.toList.contains '\x7d' = false := by
        simpa [CharClass.isReadable] using hr
      refine .of_token (List.cons_ne_nil _ _) (.cons (by decide) _) fun rest _ => ?_
      show nextClassToken (CharClass.propertyChars name isNegated ++ rest) = _
      rw [propertyChars_append]
      exact nextClassToken_named (readNamedClass_property hname isNegated rest)
  | complement _ _ ih => exact (ih hr).operands.complement (List.cons_ne_nil _ _)
  | union _ _ _ ih =>
      exact readsAsItems_bareCharsAll fun k hk => ih k hk (CharClass.isReadable_of_mem hr hk)
  | @intersection members hsev _ _ ih =>
      have hne : members ≠ [] := ne_nil_of_several hsev
      exact (readsAsOperands_operandChars hne fun k hk =>
        ih k hk (CharClass.isReadable_of_mem hr hk)).enclosed (CharClass.operands_ne_nil hne)

end PatternAlgebra.Syntax
