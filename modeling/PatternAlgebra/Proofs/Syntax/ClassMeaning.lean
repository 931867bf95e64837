import PatternAlgebra.Proofs.CharClass.Denotation
import PatternAlgebra.Proofs.Syntax.ReadToken
/-!
# The text of a class means the class

What is read from the text of a class stands for a set of characters by its structure alone: the
items between brackets are joined, `&&` takes what both sides have in common, and `^` takes the
complement.  This is the set of the class that was written, on its own as well as between the
brackets of another class, and next to any neighbours there.

That the text is read back as the items of the class has been shown already, so what is left is
that the items of a class stand for its set.  Brackets around items change nothing of this.
-/

namespace PatternAlgebra

/-! ## Items -/

namespace ClassItem

variable {I : Interpretation}

mutual

/-- The characters that an item stands for. -/
def denotes (I : Interpretation) : ClassItem → Set Char
  | char c => {c}
  | range first last => {c | first ≤ c ∧ c ≤ last}
  | shorthand kind isNegated => complementIf isNegated (I.shorthand kind)
  | property name isNegated => complementIf isNegated (I.property name)
  | bracket isNegated operands => complementIf isNegated (denotesEvery I operands)

/-- The characters that some of the items stand for. -/
def denotesAny (I : Interpretation) : List ClassItem → Set Char
  | [] => ∅
  | item :: items => denotes I item ∪ denotesAny I items

/-- The characters that every one of the operands stands for. -/
def denotesEvery (I : Interpretation) : List (List ClassItem) → Set Char
  | [] => Set.univ
  | operand :: operands => denotesAny I operand ∩ denotesEvery I operands

end

theorem denotesAny_append (items items' : List ClassItem) :
    denotesAny I (items ++ items') = denotesAny I items ∪ denotesAny I items' := by
  induction items with
  | nil => exact (Set.empty_union _).symm
  | cons item items ih => rw [List.cons_append, denotesAny, denotesAny, ih, Set.union_assoc]

theorem denotesAny_singleton (item : ClassItem) : denotesAny I [item] = denotes I item :=
  Set.union_empty _

theorem denotesEvery_singleton (items : List ClassItem) :
    denotesEvery I [items] = denotesAny I items :=
  Set.inter_univ _

theorem denotesAny_map_char (members : List Char) :
    denotesAny I (members.map .char) = {c | c ∈ members} := by
  induction members with
  | nil =>
      ext c
      exact ⟨fun h => absurd h (Set.notMem_empty c), fun h => nomatch h⟩
  | cons d members ih =>
      rw [List.map_cons, denotesAny, ih]
      ext c
      exact List.mem_cons.symm

end ClassItem

/-! ## The items of a class -/

namespace CharClass

variable {I : Interpretation}

/-- Brackets change nothing. -/
theorem denotesAny_bracketItemsIf (needed : Bool) (items : List ClassItem) :
    ClassItem.denotesAny I (bracketItemsIf needed items) = ClassItem.denotesAny I items := by
  cases needed with
  | false => rfl
  | true =>
      show ClassItem.denotesAny I [.bracket false [items]] = _
      rw [ClassItem.denotesAny_singleton, ClassItem.denotes, complementIf,
        if_neg Bool.false_ne_true, ClassItem.denotesEvery_singleton]

mutual

/-- The items of a class stand for the characters in it. -/
theorem denotesAny_items : ∀ k : CharClass, ClassItem.denotesAny I k.items = k.denotes I
  | single c => Set.union_empty _
  | set members => ClassItem.denotesAny_map_char members
  | range _ _ => Set.union_empty _
  | shorthand _ _ => Set.union_empty _
  | property _ _ => Set.union_empty _
  | complement inner => by
    rw [items, ClassItem.denotesAny_singleton, ClassItem.denotes, complementIf, if_pos rfl,
      ClassItem.denotesEvery_singleton, denotesAny_items inner, denotes]
  | union members => denotesAny_itemsAll members
  | intersection members => by
    rw [items, ClassItem.denotesAny_singleton, ClassItem.denotes, complementIf,
      if_neg Bool.false_ne_true, denotesEvery_operands members, denotes]

theorem denotesAny_itemsAll :
    ∀ ks : List CharClass, ClassItem.denotesAny I (itemsAll ks) = denotesAny I ks
  | [] => rfl
  | k :: ks => by
    rw [itemsAll, ClassItem.denotesAny_append, denotesAny_items k, denotesAny_itemsAll ks,
      denotesAny]

theorem denotesEvery_operands :
    ∀ ks : List CharClass, ClassItem.denotesEvery I (operands ks) = denotesEvery I ks
  | [] => rfl
  | k :: ks => by
    rw [operands, ClassItem.denotesEvery, denotesAny_bracketItemsIf, denotesAny_items k,
      denotesEvery_operands ks, denotesEvery]

end

/-! ## Names -/

theorem isReadable_negate (k : CharClass) : k.negate.isReadable = k.isReadable := by
  cases k <;> rfl

theorem areReadable_append (ks js : List CharClass) :
    areReadable (ks ++ js) = (areReadable ks && areReadable js) := by
  induction ks with
  | nil => rfl
  | cons k ks ih => rw [List.cons_append, areReadable, areReadable, ih, Bool.and_assoc]

theorem areReadable_unionMembers (k : CharClass) :
    areReadable k.unionMembers = k.isReadable := by
  cases k with
  | union members => rfl
  | _ => exact Bool.and_true _

theorem areReadable_intersectionMembers (k : CharClass) :
    areReadable k.intersectionMembers = k.isReadable := by
  cases k with
  | intersection members => rfl
  | _ => exact Bool.and_true _

theorem isReadable_unite {a b : CharClass} (ha : a.isReadable = true) (hb : b.isReadable = true) :
    (a.unite b).isReadable = true := by
  unfold unite
  split
  · rfl
  · rw [isReadable, areReadable_append, areReadable_unionMembers, areReadable_unionMembers, ha, hb]
    rfl

theorem isReadable_intersect {a b : CharClass} (ha : a.isReadable = true)
    (hb : b.isReadable = true) : (a.intersect b).isReadable = true := by
  rw [intersect, isReadable, areReadable_append, areReadable_intersectionMembers,
    areReadable_intersectionMembers, ha, hb]
  rfl

end CharClass

/-- Whether the class is no block with a closing brace in its name. -/
def PredefinedClass.isReadable : PredefinedClass → Bool
  | block name => !name.toList.contains '\x7d'
  | _ => true

theorem CharClass.isReadable_predefined {k : PredefinedClass} (h : k.isReadable = true) :
    (predefined k).isReadable = true := by
  cases k with
  | shorthand kind => rfl
  | posix k => cases k <;> rfl
  | java k => cases k <;> rfl
  | category c => cases c <;> rfl
  | block name =>
      show (!("In" ++ name).toList.contains '\x7d') = true
      rw [String.toList_append]
      exact h

namespace ClassProgram

/-- Whether no block in the program has a closing brace in its name. -/
def isReadable : ClassProgram → Bool
  | predefined k => k.isReadable
  | negated p => isReadable p
  | union p q => isReadable p && isReadable q
  | intersect p q => isReadable p && isReadable q
  | _ => true

theorem isReadable_of_build {p : ClassProgram} {k : CharClass} (h : p.build = .ok k) :
    p.isReadable = true → k.isReadable = true := by
  refine build_induction (P := fun p k => p.isReadable = true → k.isReadable = true)
    ?_ ?_ ?_ ?_ ?_ ?_ ?_ h
  · exact fun _ _ => rfl
  · intro chars k hk _
    obtain ⟨-, rfl⟩ := CharClass.ofChars_eq_ok hk
    rfl
  · intro first last k hk _
    obtain ⟨-, rfl⟩ := CharClass.ofRange_eq_ok hk
    rfl
  · exact fun _ => CharClass.isReadable_predefined
  · intro p a ha hp
    rw [CharClass.isReadable_negate]
    exact ha hp
  · intro p q a b ha hb hpq
    obtain ⟨hp, hq⟩ := Bool.and_eq_true_iff.mp hpq
    exact CharClass.isReadable_unite (ha hp) (hb hq)
  · intro p q a b ha hb hpq
    obtain ⟨hp, hq⟩ := Bool.and_eq_true_iff.mp hpq
    exact CharClass.isReadable_intersect (ha hp) (hb hq)

end ClassProgram

/-! ## Reading -/

namespace Piece

/-- The class that a piece is, where a character is the class of itself. -/
def classItem? : Piece → Option ClassItem
  | char c => some (.char c)
  | charClass k => some k
  | _ => none

theorem classItem?_ofClassItem (item : ClassItem) :
    (ofClassItem item).classItem? = some item := by
  cases item <;> rfl

end Piece

namespace Syntax

variable {I : Interpretation}

/-- The class that is all of a text. -/
def readClass (text : String) : Option ClassItem :=
  match nextToken text.toList with
  | some (.piece p, []) => p.classItem?
  | _ => none

/-- The characters that the text of a class stands for. -/
def textDenotes (I : Interpretation) (text : String) : Option (Set Char) :=
  (readClass text).map (ClassItem.denotes I)

theorem textDenotes_of_piece {text : String} {item : ClassItem}
    (h : nextToken text.toList = some (.piece (.ofClassItem item), [])) :
    textDenotes I text = some (item.denotes I) := by
  rw [textDenotes, readClass, h]
  show (Piece.ofClassItem item).classItem?.map _ = _
  rw [Piece.classItem?_ofClassItem]
  rfl

/-- Items in brackets stand for what some of them stand for. -/
theorem textDenotes_enclosed {text : List Char} {items : List ClassItem}
    (h : ReadsAsItems text items) :
    textDenotes I ("[" ++ String.ofList text ++ "]") = some (ClassItem.denotesAny I items) := by
  have htext : ("[" ++ String.ofList text ++ "]").toList = '[' :: text ++ [']'] ++ [] := by
    rw [String.toList_append, String.toList_append, String.toList_ofList (l := text),
      List.append_nil]
    rfl
  have htoken : nextToken ("[" ++ String.ofList text ++ "]").toList
      = some (.piece (.ofClassItem (.bracket false [items])), []) := by
    rw [htext]
    exact nextToken_bracket h.operands (List.cons_ne_nil _ _) []
  rw [textDenotes_of_piece htoken, ← CharClass.denotesAny_bracketItemsIf true items]
  exact congrArg some (ClassItem.denotesAny_singleton _).symm

variable {k : CharClass}

theorem textDenotes_independent (h : k.WellBuilt) (hr : k.isReadable = true) :
    textDenotes I k.independent = some (k.denotes I) := by
  -- on its own a class is one piece, since brackets are put around what is several items
  obtain ⟨p, -, hpieces, hread⟩ := nextToken_class h hr
  obtain ⟨item, hitem, rfl⟩ := List.map_eq_singleton_iff.mp hpieces
  have htoken : nextToken k.independent.toList = some (.piece (.ofClassItem item), []) := by
    rw [CharClass.independent, String.toList_ofList, ← List.append_nil k.independentChars]
    exact hread []
  rw [textDenotes_of_piece htoken, ← ClassItem.denotesAny_singleton, ← hitem,
    CharClass.denotesAny_bracketItemsIf, CharClass.denotesAny_items]

/-- Bare texts of any number of classes, one after another. -/
theorem join_unitable (ks : List CharClass) :
    String.join (ks.map CharClass.unitable) = String.ofList (CharClass.bareCharsAll ks) := by
  rw [← String.toList_inj, String.toList_join, String.toList_ofList]
  induction ks with
  | nil => rfl
  | cons k ks ih =>
      rw [List.map_cons, List.flatMap_cons, ih, CharClass.unitable, String.toList_ofList,
        CharClass.bareCharsAll]

theorem textDenotes_join {ks : List CharClass}
    (h : ∀ k ∈ ks, k.WellBuilt ∧ k.isReadable = true) :
    textDenotes I ("[" ++ String.join (ks.map CharClass.unitable) ++ "]")
      = some (CharClass.denotesAny I ks) := by
  have hitems : ReadsAsItems (CharClass.bareCharsAll ks) (CharClass.itemsAll ks) :=
    readsAsItems_bareCharsAll fun k hk => readsAsItems_bareChars (h k hk).1 (h k hk).2
  rw [join_unitable, textDenotes_enclosed hitems, CharClass.denotesAny_itemsAll]

/-- **The text of a class denotes the class that was asked for.**  Whatever the named classes stand
    for, the text of a class that a program builds stands for the set that the program computes on
    sets, on its own and in brackets; and the bare texts of any classes, one after another in
    brackets, stand for the union of their sets. -/
theorem class_text_denotes (I : Interpretation) :
    (∀ (p : ClassProgram) (k : CharClass), p.build = .ok k → p.isReadable = true →
      textDenotes I k.independent = some (p.denotes I) ∧
        textDenotes I ("[" ++ k.unitable ++ "]") = some (p.denotes I)) ∧
    (∀ built : List (ClassProgram × CharClass),
      (∀ b ∈ built, b.1.build = .ok b.2 ∧ b.1.isReadable = true) →
        textDenotes I ("[" ++ String.join (built.map fun b => b.2.unitable) ++ "]")
          = some {c | ∃ b ∈ built, c ∈ b.1.denotes I}) := by
  constructor
  · intro p k hk hp
    have hwellBuilt := ClassProgram.wellBuilt_of_build hk
    have hreadable := ClassProgram.isReadable_of_build hk hp
    rw [← ClassProgram.denotes_of_build I hk]
    refine ⟨textDenotes_independent hwellBuilt hreadable, ?_⟩
    rw [CharClass.unitable, textDenotes_enclosed (readsAsItems_bareChars hwellBuilt hreadable),
      CharClass.denotesAny_items]
  · intro built hbuilt
    have hks : ∀ k ∈ built.map Prod.snd, k.WellBuilt ∧ k.isReadable = true := by
      intro k hk
      obtain ⟨b, hb, rfl⟩ := List.mem_map.mp hk
      obtain ⟨hbuild, hp⟩ := hbuilt b hb
      exact ⟨ClassProgram.wellBuilt_of_build hbuild, ClassProgram.isReadable_of_build hbuild hp⟩
    have hjoin := textDenotes_join (I := I) hks
    rw [List.map_map, ClassProgram.denotesAny_of_build I fun b hb => (hbuilt b hb).1] at hjoin
    exact hjoin

/-- Neighbours that must not run together: NUL before a digit, listed with it and in a class of its
    own, and the ends of a range in an intersection in a complement. -/
theorem class_text_denotes_beside_neighbours :
    let named : Interpretation :=
      { shorthand := fun _ => {c | c.isDigit = true}
        property := fun name => {c | name = "InGreek" ∧ 'Ͱ' ≤ c ∧ c ≤ 'Ͽ'} }
    let p : ClassProgram := .union (.set ['7', '\x00'])
      (.negated (.intersect (.range '&' '^') (.predefined (.block "Greek"))))
    let k : CharClass := .union [.set ['\x00', '7'],
      .complement (.intersection [.range '&' '^', .property "InGreek" false])]
    let built : List (ClassProgram × CharClass) :=
      [(.char '\x00', .single '\x00'), (.char '7', .single '7')]
    p.build = .ok k ∧ p.isReadable = true ∧
      textDenotes named "[\\00007[^[[\\&-\\^]&&\\p\x7bInGreek\x7d]]]" = some (p.denotes named) ∧
      (∀ b ∈ built, b.1.build = .ok b.2 ∧ b.1.isReadable = true) ∧
      textDenotes named "[\\00007]" = some {c | ∃ b ∈ built, c ∈ b.1.denotes named} := by
  intro named p k built
  have hbuild : p.build = .ok k := by decide
  have htext : k.independent = "[\\00007[^[[\\&-\\^]&&\\p\x7bInGreek\x7d]]]" := by decide
  have hjoin : "[" ++ String.join (built.map fun b => b.2.unitable) ++ "]" = "[\\00007]" := by
    decide
  have hbuilt : ∀ b ∈ built, b.1.build = .ok b.2 ∧ b.1.isReadable = true := by
    simp [built, ClassProgram.build, ClassProgram.isReadable]
  obtain ⟨hone, hmany⟩ := class_text_denotes named
  rw [← htext, ← hjoin]
  exact ⟨hbuild, rfl, (hone p k hbuild rfl).1, hbuilt, hmany built hbuilt⟩

end Syntax

end PatternAlgebra
