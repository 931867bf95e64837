import PatternAlgebra.Error
/-!
# Character classes

A class stands for a set of characters and matches exactly one of them.  The operations simplify
where they can: complementing undoes a complement, uniting two explicit classes merges their
members, and unions and intersections of several classes stay flat.

What the operations keep true is that the members of a set are listed in increasing order without
repetition, that the ends of a range are in order, that a union has no member that is a union, an
intersection none that is an intersection, and that a complement is only written around a class
that has no complement of its own kind.
-/

namespace PatternAlgebra

/-- The classes with a one-letter name. -/
inductive Shorthand where
  | digit
  | space
  | word
  deriving DecidableEq, Repr, Hashable

/-- A set of characters. -/
inductive CharClass where
  /-- Exactly `c`. -/
  | single (c : Char)
  /-- The characters listed. -/
  | set (members : List Char)
  /-- The characters from `first` to `last`. -/
  | range (first last : Char)
  /-- A class with a one-letter name, or its complement. -/
  | shorthand (kind : Shorthand) (isNegated : Bool)
  /-- The characters with a named property, or its complement. -/
  | property (name : String) (isNegated : Bool)
  /-- The characters outside `inner`. -/
  | complement (inner : CharClass)
  /-- The characters in some member. -/
  | union (members : List CharClass)
  /-- The characters in every member. -/
  | intersection (members : List CharClass)

namespace CharClass

/-! ## Equality -/

mutual

/-- Whether two classes are built in the same way. -/
def same : CharClass → CharClass → Bool
  | single c, single d => c == d
  | set as, set bs => as == bs
  | range a b, range c d => a == c && b == d
  | shorthand k m, shorthand l n => k == l && m == n
  | property a m, property b n => a == b && m == n
  | complement a, complement b => same a b
  | union as, union bs => sameAll as bs
  | intersection as, intersection bs => sameAll as bs
  | _, _ => false

/-- Whether two lists of classes agree member by member. -/
def sameAll : List CharClass → List CharClass → Bool
  | [], [] => true
  | a :: as, b :: bs => same a b && sameAll as bs
  | _, _ => false

end

mutual

theorem eq_of_same : ∀ {a b : CharClass}, same a b = true → a = b
  | single _, b, h => by cases b <;> simp_all [same]
  | set _, b, h => by cases b <;> simp_all [same]
  | range _ _, b, h => by cases b <;> simp_all [same]
  | shorthand _ _, b, h => by cases b <;> simp_all [same]
  | property _ _, b, h => by cases b <;> simp_all [same]
  | complement a, b, h => by
    cases b with
    | complement b => rw [eq_of_same (show same a b = true by simpa [same] using h)]
    | _ => simp [same] at h
  | union as, b, h => by
    cases b with
    | union bs => rw [eq_of_sameAll (show sameAll as bs = true by simpa [same] using h)]
    | _ => simp [same] at h
  | intersection as, b, h => by
    cases b with
    | intersection bs => rw [eq_of_sameAll (show sameAll as bs = true by simpa [same] using h)]
    | _ => simp [same] at h

theorem eq_of_sameAll : ∀ {as bs : List CharClass}, sameAll as bs = true → as = bs
  | [], [], _ => rfl
  | a :: as, b :: bs, h => by
    simp only [sameAll, Bool.and_eq_true] at h
    rw [eq_of_same h.1, eq_of_sameAll h.2]
  | [], _ :: _, h => by simp [sameAll] at h
  | _ :: _, [], h => by simp [sameAll] at h

end

mutual

theorem same_self : ∀ a : CharClass, same a a = true
  | single _ => by simp [same]
  | set _ => by simp [same]
  | range _ _ => by simp [same]
  | shorthand _ _ => by simp [same]
  | property _ _ => by simp [same]
  | complement a => by simpa [same] using same_self a
  | union as => by simpa [same] using sameAll_self as
  | intersection as => by simpa [same] using sameAll_self as

theorem sameAll_self : ∀ as : List CharClass, sameAll as as = true
  | [] => rfl
  | a :: as => by simp [sameAll, same_self a, sameAll_self as]

end

/-- Classes are compared by the way they are built. -/
instance : DecidableEq CharClass := fun a b =>
  if h : same a b = true then isTrue (eq_of_same h)
  else isFalse (fun e => h (e ▸ same_self a))

mutual

/-- A hash of everything that equality looks at. -/
def hashCode : CharClass → UInt64
  | single c => mixHash 1 (hash c.toNat)
  | set members => mixHash 2 (hash (members.map Char.toNat))
  | range first last => mixHash 3 (mixHash (hash first.toNat) (hash last.toNat))
  | shorthand kind isNegated => mixHash 4 (mixHash (hash kind) (hash isNegated))
  | property name isNegated => mixHash 5 (mixHash (hash name) (hash isNegated))
  | complement inner => mixHash 6 (hashCode inner)
  | union members => mixHash 7 (hashCodes members)
  | intersection members => mixHash 8 (hashCodes members)

/-- A hash of the members in order. -/
def hashCodes : List CharClass → UInt64
  | [] => 9
  | a :: as => mixHash (hashCode a) (hashCodes as)

end

instance : Hashable CharClass := ⟨hashCode⟩

/-! ## Constructions -/

/-- Adds a character to an increasing list, unless it is there already. -/
def insertMember (c : Char) : List Char → List Char
  | [] => [c]
  | d :: ds =>
    if c < d then c :: d :: ds
    else if c = d then d :: ds
    else d :: insertMember c ds

/-- The characters of a list in increasing order, each of them once. -/
def sortedMembers (chars : List Char) : List Char := chars.foldr insertMember []

/-- The class of the characters listed. -/
def ofChars (chars : List Char) : Except BuildError CharClass :=
  if chars.isEmpty then .error .emptyCharSet else .ok (set (sortedMembers chars))

/-- The class of the characters from `first` to `last`. -/
def ofRange (first last : Char) : Except BuildError CharClass :=
  if last < first then .error (.invertedCharRange first last) else .ok (range first last)

/-- The characters outside a class. -/
def negate : CharClass → CharClass
  | shorthand kind isNegated => shorthand kind (!isNegated)
  | property name isNegated => property name (!isNegated)
  | complement inner => inner
  | k => complement k

/-- The members of a class that lists them. -/
def explicitMembers? : CharClass → Option (List Char)
  | single c => some [c]
  | set members => some members
  | _ => none

/-- The classes that a union of this class with others consists of. -/
def unionMembers : CharClass → List CharClass
  | union members => members
  | k => [k]

/-- The classes that an intersection of this class with others consists of. -/
def intersectionMembers : CharClass → List CharClass
  | intersection members => members
  | k => [k]

/-- The characters in either class. -/
def unite (a b : CharClass) : CharClass :=
  match a.explicitMembers?, b.explicitMembers? with
  | some as, some bs => set (sortedMembers (as ++ bs))
  | _, _ => union (a.unionMembers ++ b.unionMembers)

/-- The characters in both classes. -/
def intersect (a b : CharClass) : CharClass :=
  intersection (a.intersectionMembers ++ b.intersectionMembers)

end CharClass

end PatternAlgebra
