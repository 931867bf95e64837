import Mathlib.Data.List.Sort
import PatternAlgebra.Proofs.Syntax.ClassMeaning
/-!
# Uniting classes that list their characters

A class may list its characters, as one character or as a set of them, and two such classes are
united into one set.  What comes out depends on nothing but which characters are listed: not on
the order in which classes are united, nor on how the unions are nested, how often a class or a
character comes up again, or in which of the two forms a single character was given.

The reason is that a set is kept in increasing order without repetition, so that there is only one
list for each collection of characters.  A union with a class of any other kind is not merged, and
nothing is said of it here.
-/

namespace PatternAlgebra

namespace CharClass

/-! ## One list for each collection of characters -/

theorem sortedMembers_eq_iff {as bs : List Char} :
    sortedMembers as = sortedMembers bs ↔ ∀ c, c ∈ as ↔ c ∈ bs := by
  constructor
  · intro h c
    rw [← mem_sortedMembers, h, mem_sortedMembers]
  · intro h
    refine (pairwise_sortedMembers as).eq_of_mem_iff (pairwise_sortedMembers bs) fun c => ?_
    rw [mem_sortedMembers, mem_sortedMembers]
    exact h c

theorem ofChars_of_ne_nil {chars : List Char} (h : chars ≠ []) :
    ofChars chars = .ok (set (sortedMembers chars)) := by
  rw [ofChars, if_neg (by simpa using h)]

/-- The set of some characters depends only on which characters these are. -/
theorem ofChars_eq_iff {as bs : List Char} :
    ofChars as = ofChars bs ↔ ∀ c, c ∈ as ↔ c ∈ bs := by
  by_cases has : as = []
  · subst has
    by_cases hbs : bs = []
    · subst hbs
      exact iff_of_true rfl fun _ => Iff.rfl
    · rw [ofChars_of_ne_nil hbs]
      obtain ⟨c, hc⟩ := List.exists_mem_of_ne_nil bs hbs
      exact iff_of_false (fun h => nomatch h) fun h => nomatch (h c).mpr hc
  · by_cases hbs : bs = []
    · subst hbs
      rw [ofChars_of_ne_nil has]
      obtain ⟨c, hc⟩ := List.exists_mem_of_ne_nil as has
      exact iff_of_false (fun h => nomatch h) fun h => nomatch (h c).mp hc
    · rw [ofChars_of_ne_nil has, ofChars_of_ne_nil hbs, ← sortedMembers_eq_iff]
      exact ⟨fun h => set.inj (Except.ok.inj h), fun h => by rw [h]⟩

/-! ## Two classes -/

/-- A class made of the characters listed, which a single character is in two ways. -/
inductive IsClassOf : CharClass → List Char → Prop where
  | char (c : Char) : IsClassOf (single c) [c]
  | set {chars : List Char} {k : CharClass} (made : ofChars chars = .ok k) : IsClassOf k chars

/-- Whether the class lists its characters. -/
def isExplicit (k : CharClass) : Bool := k.explicitMembers?.isSome

/-- The characters that a class lists, if it lists any. -/
def memberList (k : CharClass) : List Char := k.explicitMembers?.getD []

theorem IsClassOf.ne_nil {k : CharClass} {chars : List Char} (h : k.IsClassOf chars) :
    chars ≠ [] := by
  cases h with
  | char c => exact List.cons_ne_nil _ _
  | set made => exact (ofChars_eq_ok made).1

theorem IsClassOf.isExplicit {k : CharClass} {chars : List Char} (h : k.IsClassOf chars) :
    k.isExplicit = true := by
  cases h with
  | char c => rfl
  | set made =>
      obtain ⟨-, rfl⟩ := ofChars_eq_ok made
      rfl

theorem IsClassOf.mem_memberList {k : CharClass} {chars : List Char} (h : k.IsClassOf chars)
    (c : Char) :
    c ∈ k.memberList ↔ c ∈ chars := by
  cases h with
  | char d => exact Iff.rfl
  | set made =>
      obtain ⟨-, rfl⟩ := ofChars_eq_ok made
      exact mem_sortedMembers

theorem unite_of_isExplicit {a b : CharClass} (ha : a.isExplicit = true)
    (hb : b.isExplicit = true) :
    a.unite b = set (sortedMembers (a.memberList ++ b.memberList)) := by
  obtain ⟨as, has⟩ := Option.isSome_iff_exists.mp ha
  obtain ⟨bs, hbs⟩ := Option.isSome_iff_exists.mp hb
  rw [unite, memberList, memberList, has, hbs]
  rfl

/-- Two classes that list their characters are united into the set of both lists. -/
theorem IsClassOf.unite_eq {a b : CharClass} {xs ys : List Char} (ha : a.IsClassOf xs)
    (hb : b.IsClassOf ys) : ofChars (xs ++ ys) = .ok (a.unite b) := by
  rw [unite_of_isExplicit ha.isExplicit hb.isExplicit,
    ofChars_of_ne_nil (List.append_ne_nil_of_left_ne_nil ha.ne_nil ys)]
  congr 2
  refine sortedMembers_eq_iff.mpr fun c => ?_
  rw [List.mem_append, List.mem_append, ha.mem_memberList, hb.mem_memberList]

end CharClass

/-! ## Any number of classes -/

/-- A way to unite classes two at a time. -/
inductive Uniting where
  /-- A class as it is. -/
  | operand (k : CharClass)
  /-- The union of two classes. -/
  | unite (first second : Uniting)

namespace Uniting

/-- The classes that are united, from left to right. -/
def operands : Uniting → List CharClass
  | operand k => [k]
  | unite first second => operands first ++ operands second

/-- The class that comes out. -/
def build : Uniting → CharClass
  | operand k => k
  | unite first second => (build first).unite (build second)

/-- The characters that the operands list, from left to right. -/
def memberList (u : Uniting) : List Char := u.operands.flatMap CharClass.memberList

theorem mem_memberList_unite {first second : Uniting} {c : Char} :
    c ∈ (unite first second).memberList ↔ c ∈ first.memberList ∨ c ∈ second.memberList := by
  rw [memberList, operands, List.flatMap_append, List.mem_append]
  exact Iff.rfl

/-- What comes out lists the characters that the operands list. -/
structure Collects (u : Uniting) : Prop where
  isExplicit : u.build.isExplicit = true
  mem_memberList : ∀ c, c ∈ u.build.memberList ↔ c ∈ u.memberList

/-- A union on top of others is the set of all characters listed. -/
theorem Collects.build_unite {first second : Uniting} (hf : first.Collects)
    (hs : second.Collects) :
    (unite first second).build
      = .set (CharClass.sortedMembers (unite first second).memberList) := by
  rw [build, CharClass.unite_of_isExplicit hf.isExplicit hs.isExplicit]
  congr 1
  refine CharClass.sortedMembers_eq_iff.mpr fun c => ?_
  rw [List.mem_append, hf.mem_memberList, hs.mem_memberList, mem_memberList_unite]

theorem collects {u : Uniting} (h : ∀ k ∈ u.operands, k.isExplicit = true) : u.Collects := by
  induction u with
  | operand k =>
      refine ⟨h k (List.mem_singleton_self k), fun c => ?_⟩
      rw [memberList, operands, List.flatMap_singleton, build]
  | unite first second ihf ihs =>
      -- a union of explicit classes is a set, whichever of the two forms its operands have
      have hset := (ihf fun k hk => h k (List.mem_append_left _ hk)).build_unite
        (ihs fun k hk => h k (List.mem_append_right _ hk))
      refine ⟨by rw [hset]; rfl, fun c => ?_⟩
      rw [hset]
      exact CharClass.mem_sortedMembers

theorem build_eq_set {u : Uniting} (h : ∀ k ∈ u.operands, k.isExplicit = true)
    (hseveral : 2 ≤ u.operands.length) :
    u.build = .set (CharClass.sortedMembers u.memberList) := by
  cases u with
  -- a single operand stays as it is, so it need not be a set
  | operand k => exact absurd hseveral (by rw [operands, List.length_singleton]; omega)
  | unite first second =>
      exact (collects fun k hk => h k (List.mem_append_left _ hk)).build_unite
        (collects fun k hk => h k (List.mem_append_right _ hk))

/-- Only which classes are united matters. -/
theorem memberList_congr {u v : Uniting} (h : ∀ k, k ∈ u.operands ↔ k ∈ v.operands) (c : Char) :
    c ∈ u.memberList ↔ c ∈ v.memberList := by
  rw [memberList, memberList, List.mem_flatMap, List.mem_flatMap]
  simp only [h]

end Uniting

/-! ## The text -/

/-- A class of which the text lists some characters in increasing order, each of them once, between
    one pair of brackets. -/
structure CharClass.ListsOnce (k : CharClass) (chars : List Char) : Prop where
  increasing : chars.Pairwise (· < ·)
  independent_eq : k.independent = "[" ++ String.ofList (escapeChars chars) ++ "]"
  readClass_eq : Syntax.readClass k.independent = some (.bracket false [chars.map .char])

theorem CharClass.listsOnce_set {members : List Char} (h : members.Pairwise (· < ·)) :
    (CharClass.set members).ListsOnce members := by
  have hread : Syntax.nextToken (CharClass.set members).independent.toList
      = some (.piece (.charClass (.bracket false [members.map .char])), []) := by
    rw [CharClass.independent, String.toList_ofList, ← List.append_nil (independentChars _)]
    exact Syntax.nextToken_bracket (Syntax.readsAsItems_escapeChars members).operands
      (List.cons_ne_nil _ _) []
  constructor
  case increasing => exact h
  case independent_eq =>
    apply String.toList_inj.mp
    rw [CharClass.independent, String.toList_ofList, String.toList_append, String.toList_append,
      String.toList_ofList (l := escapeChars members)]
    rfl
  case readClass_eq =>
    rw [Syntax.readClass, hread]
    rfl

/-- **Explicit classes form a semilattice under union.**  Two lists of characters, each made a
    class, are united into the class of the lists one after another.  Uniting the same classes in
    any other order or nesting, and some of them again, gives an equal class, and its text lists
    every character once and in increasing order.  A set depends only on which characters are
    asked for. -/
theorem union_of_explicit_isSemilattice :
    (∀ xs : List Char, xs ≠ [] → ∃ k, CharClass.ofChars xs = .ok k) ∧
    (∀ (xs ys : List Char) (a b : CharClass), a.IsClassOf xs → b.IsClassOf ys →
      ∃ k, CharClass.ofChars (xs ++ ys) = .ok k ∧ (a.unite b == k) = true) ∧
    (∀ u v : Uniting, (∀ k ∈ u.operands, k.isExplicit = true) →
      (∀ k, k ∈ u.operands ↔ k ∈ v.operands) →
      2 ≤ u.operands.length → 2 ≤ v.operands.length →
      (u.build == v.build) = true ∧
        ∃ members, u.build.ListsOnce members ∧
          ∀ c, c ∈ members ↔ ∃ k ∈ u.operands, c ∈ k.memberList) ∧
    (∀ xs ys : List Char,
      CharClass.ofChars xs = CharClass.ofChars ys ↔ ∀ c, c ∈ xs ↔ c ∈ ys) := by
  refine ⟨fun xs hxs => ⟨_, CharClass.ofChars_of_ne_nil hxs⟩, ?_, ?_,
    fun _ _ => CharClass.ofChars_eq_iff⟩
  · intro xs ys a b ha hb
    exact ⟨a.unite b, ha.unite_eq hb, BEq.rfl⟩
  · intro u v hu hsame hseveral hseveral'
    have hv : ∀ k ∈ v.operands, k.isExplicit = true := fun k hk => hu k ((hsame k).mpr hk)
    have hsorted : CharClass.sortedMembers u.memberList = CharClass.sortedMembers v.memberList :=
      CharClass.sortedMembers_eq_iff.mpr (Uniting.memberList_congr hsame)
    have hequal : u.build = v.build := by
      rw [Uniting.build_eq_set hu hseveral, Uniting.build_eq_set hv hseveral', hsorted]
    refine ⟨beq_iff_eq.mpr hequal, CharClass.sortedMembers u.memberList, ?_, fun c => ?_⟩
    · rw [Uniting.build_eq_set hu hseveral]
      exact CharClass.listsOnce_set (CharClass.pairwise_sortedMembers _)
    · rw [CharClass.mem_sortedMembers, Uniting.memberList, List.mem_flatMap]

/-- A NUL and a set with a digit, in either order and with the set once more. -/
theorem union_of_explicit_isSemilattice_around_nul :
    let nul : Uniting := .operand (.single '\x00')
    let letters : Uniting := .operand (.set ['7', 'a'])
    let u : Uniting := .unite nul letters
    let v : Uniting := .unite letters (.unite nul letters)
    (u.build == v.build) = true ∧ v.build.independent = "[\\00007a]" ∧
      ∃ k, CharClass.ofChars ['a', '7', 'a', '\x00'] = .ok k ∧
        ((CharClass.set ['7', 'a']).unite (.single '\x00') == k) = true := by
  intro nul letters u v
  obtain ⟨-, hpair, hany, -⟩ := union_of_explicit_isSemilattice
  have hexplicit : ∀ k ∈ u.operands, k.isExplicit = true := by
    simp [u, nul, letters, Uniting.operands, CharClass.isExplicit, CharClass.explicitMembers?]
  have hsame : ∀ k, k ∈ u.operands ↔ k ∈ v.operands := by
    intro k
    simp [u, v, nul, letters, Uniting.operands]
    tauto
  obtain ⟨hequal, -⟩ := hany u v hexplicit hsame (by decide) (by decide)
  exact ⟨hequal, by decide +kernel, hpair ['a', '7', 'a'] ['\x00'] _ _ (.set rfl) (.char '\x00')⟩

end PatternAlgebra
