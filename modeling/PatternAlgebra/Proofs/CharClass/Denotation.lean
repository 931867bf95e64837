import Mathlib.Order.BooleanAlgebra.Set
import PatternAlgebra.Proofs.Construction.Classes
/-!
# The characters in a class

A class stands for a set of characters, once it is known what the named classes stand for.  The
operations on classes simplify where they can, and none of this can be seen in the sets: they are
the operations on sets of the same names.

So a program that builds a class can as well be run on sets.  The two runs are compared step by
step, and they agree wherever the classes can be built at all.
-/

namespace PatternAlgebra

/-- What the named classes stand for. -/
structure Interpretation where
  shorthand : Shorthand → Set Char
  property : String → Set Char

/-- A set, or its complement if asked for. -/
def complementIf (isNegated : Bool) (s : Set Char) : Set Char := if isNegated then sᶜ else s

theorem complementIf_not (isNegated : Bool) (s : Set Char) :
    complementIf (!isNegated) s = (complementIf isNegated s)ᶜ := by
  cases isNegated with
  | false => rfl
  | true => exact (compl_compl s).symm

namespace CharClass

variable {I : Interpretation}

mutual

/-- The characters in a class. -/
def denotes (I : Interpretation) : CharClass → Set Char
  | single c => {c}
  | set members => {c | c ∈ members}
  | range first last => {c | first ≤ c ∧ c ≤ last}
  | shorthand kind isNegated => complementIf isNegated (I.shorthand kind)
  | property name isNegated => complementIf isNegated (I.property name)
  | complement inner => (denotes I inner)ᶜ
  | union members => denotesAny I members
  | intersection members => denotesEvery I members

/-- The characters in some of the classes. -/
def denotesAny (I : Interpretation) : List CharClass → Set Char
  | [] => ∅
  | k :: ks => denotes I k ∪ denotesAny I ks

/-- The characters in every one of the classes. -/
def denotesEvery (I : Interpretation) : List CharClass → Set Char
  | [] => Set.univ
  | k :: ks => denotes I k ∩ denotesEvery I ks

end

theorem mem_denotesAny {c : Char} {ks : List CharClass} :
    c ∈ denotesAny I ks ↔ ∃ k ∈ ks, c ∈ k.denotes I := by
  induction ks with
  | nil => simp [denotesAny]
  | cons k ks ih =>
      rw [denotesAny, Set.mem_union, ih]
      simp

/-! ## The operations are those on sets -/

theorem denotesAny_append (ks js : List CharClass) :
    denotesAny I (ks ++ js) = denotesAny I ks ∪ denotesAny I js := by
  induction ks with
  | nil => exact (Set.empty_union _).symm
  | cons k ks ih => rw [List.cons_append, denotesAny, denotesAny, ih, Set.union_assoc]

theorem denotesEvery_append (ks js : List CharClass) :
    denotesEvery I (ks ++ js) = denotesEvery I ks ∩ denotesEvery I js := by
  induction ks with
  | nil => exact (Set.univ_inter _).symm
  | cons k ks ih => rw [List.cons_append, denotesEvery, denotesEvery, ih, Set.inter_assoc]

theorem denotes_negate (k : CharClass) : k.negate.denotes I = (k.denotes I)ᶜ := by
  cases k with
  | shorthand kind isNegated => exact complementIf_not isNegated _
  | property name isNegated => exact complementIf_not isNegated _
  | complement inner => exact (compl_compl (inner.denotes I)).symm
  | _ => rfl

/-- A class that lists its members has these members. -/
theorem denotes_of_explicitMembers? {k : CharClass} {members : List Char}
    (h : k.explicitMembers? = some members) : k.denotes I = {c | c ∈ members} := by
  cases k with
  | single c =>
      obtain rfl := Option.some.inj h
      ext d
      exact List.mem_singleton.symm
  | set chars =>
      obtain rfl := Option.some.inj h
      rfl
  | _ => exact nomatch h

theorem denotes_sortedMembers (chars : List Char) :
    (set (sortedMembers chars)).denotes I = {c | c ∈ chars} := by
  ext c
  exact mem_sortedMembers

theorem denotesAny_unionMembers (k : CharClass) : denotesAny I k.unionMembers = k.denotes I := by
  cases k with
  | union members => rfl
  | _ => exact Set.union_empty _

theorem denotesEvery_intersectionMembers (k : CharClass) :
    denotesEvery I k.intersectionMembers = k.denotes I := by
  cases k with
  | intersection members => rfl
  | _ => exact Set.inter_univ _

theorem denotes_unite (a b : CharClass) :
    (a.unite b).denotes I = a.denotes I ∪ b.denotes I := by
  unfold unite
  split
  · -- two lists of members become one
    rename_i as bs has hbs
    rw [denotes_sortedMembers, denotes_of_explicitMembers? has, denotes_of_explicitMembers? hbs]
    ext c
    exact List.mem_append
  · rw [denotes, denotesAny_append, denotesAny_unionMembers, denotesAny_unionMembers]

theorem denotes_intersect (a b : CharClass) :
    (a.intersect b).denotes I = a.denotes I ∩ b.denotes I := by
  rw [intersect, denotes, denotesEvery_append, denotesEvery_intersectionMembers,
    denotesEvery_intersectionMembers]

theorem denotes_ofChars {chars : List Char} {k : CharClass} (h : ofChars chars = .ok k) :
    k.denotes I = {c | c ∈ chars} := by
  obtain ⟨-, rfl⟩ := ofChars_eq_ok h
  exact denotes_sortedMembers chars

theorem denotes_ofRange {first last : Char} {k : CharClass} (h : ofRange first last = .ok k) :
    k.denotes I = {c | first ≤ c ∧ c ≤ last} := by
  obtain ⟨-, rfl⟩ := ofRange_eq_ok h
  rfl

end CharClass

/-! ## Programs -/

/-- The characters that an engine knows by the name of a class. -/
def PredefinedClass.denotes (I : Interpretation) : PredefinedClass → Set Char
  | shorthand kind => I.shorthand kind
  | posix k => I.property k.propertyName
  | java k => I.property k.propertyName
  | category c => I.property c.propertyName
  | block name => I.property ("In" ++ name)

theorem CharClass.denotes_predefined (I : Interpretation) (k : PredefinedClass) :
    (predefined k).denotes I = k.denotes I := by
  cases k <;> rfl

/-- How a class is built. -/
inductive ClassProgram where
  | char (c : Char)
  | set (chars : List Char)
  | range (first last : Char)
  | predefined (k : PredefinedClass)
  | negated (p : ClassProgram)
  | union (p q : ClassProgram)
  | intersect (p q : ClassProgram)

namespace ClassProgram

/-- The class that is built, unless one of the steps is refused. -/
def build : ClassProgram → Except BuildError CharClass
  | char c => .ok (.single c)
  | set chars => CharClass.ofChars chars
  | range first last => CharClass.ofRange first last
  | predefined k => .ok (.predefined k)
  | negated p => do return (← build p).negate
  | union p q => do return (← build p).unite (← build q)
  | intersect p q => do return (← build p).intersect (← build q)

/-- The same program on sets of characters. -/
def denotes (I : Interpretation) : ClassProgram → Set Char
  | char c => {c}
  | set chars => {c | c ∈ chars}
  | range first last => {c | first ≤ c ∧ c ≤ last}
  | predefined k => k.denotes I
  | negated p => (denotes I p)ᶜ
  | union p q => denotes I p ∪ denotes I q
  | intersect p q => denotes I p ∩ denotes I q

variable {p q : ClassProgram} {k : CharClass}

theorem build_negated_eq_ok (h : (negated p).build = .ok k) :
    ∃ a, p.build = .ok a ∧ k = a.negate := by
  obtain ⟨a, ha, hk⟩ := bind_eq_ok_iff.mp h
  exact ⟨a, ha, (Except.ok.inj hk).symm⟩

theorem build_union_eq_ok (h : (union p q).build = .ok k) :
    ∃ a b, p.build = .ok a ∧ q.build = .ok b ∧ k = a.unite b := by
  obtain ⟨a, ha, h⟩ := bind_eq_ok_iff.mp h
  obtain ⟨b, hb, hk⟩ := bind_eq_ok_iff.mp h
  exact ⟨a, b, ha, hb, (Except.ok.inj hk).symm⟩

theorem build_intersect_eq_ok (h : (intersect p q).build = .ok k) :
    ∃ a b, p.build = .ok a ∧ q.build = .ok b ∧ k = a.intersect b := by
  obtain ⟨a, ha, h⟩ := bind_eq_ok_iff.mp h
  obtain ⟨b, hb, hk⟩ := bind_eq_ok_iff.mp h
  exact ⟨a, b, ha, hb, (Except.ok.inj hk).symm⟩

/-- Whatever holds of the classes without parts and is kept by the operations holds of every class
    that is built. -/
theorem build_induction {P : ClassProgram → CharClass → Prop}
    (char : ∀ c, P (.char c) (.single c))
    (set : ∀ chars k, CharClass.ofChars chars = .ok k → P (.set chars) k)
    (range : ∀ first last k, CharClass.ofRange first last = .ok k → P (.range first last) k)
    (predefined : ∀ k, P (.predefined k) (.predefined k))
    (negated : ∀ p a, P p a → P (.negated p) a.negate)
    (union : ∀ p q a b, P p a → P q b → P (.union p q) (a.unite b))
    (intersect : ∀ p q a b, P p a → P q b → P (.intersect p q) (a.intersect b))
    (h : p.build = .ok k) : P p k := by
  induction p generalizing k with
  | char c =>
      obtain rfl := Except.ok.inj h
      exact char c
  | set chars => exact set chars k h
  | range first last => exact range first last k h
  | predefined name =>
      obtain rfl := Except.ok.inj h
      exact predefined name
  | negated p ih =>
      obtain ⟨a, ha, rfl⟩ := build_negated_eq_ok h
      exact negated p a (ih ha)
  | union p q ihp ihq =>
      obtain ⟨a, b, ha, hb, rfl⟩ := build_union_eq_ok h
      exact union p q a b (ihp ha) (ihq hb)
  | intersect p q ihp ihq =>
      obtain ⟨a, b, ha, hb, rfl⟩ := build_intersect_eq_ok h
      exact intersect p q a b (ihp ha) (ihq hb)

theorem wellBuilt_of_build (h : p.build = .ok k) : k.WellBuilt := by
  refine build_induction (P := fun _ k => k.WellBuilt) ?_ ?_ ?_ ?_ ?_ ?_ ?_ h
  · exact .single
  · exact fun _ _ => CharClass.wellBuilt_ofChars
  · exact fun _ _ _ => CharClass.wellBuilt_ofRange
  · exact CharClass.wellBuilt_predefined
  · exact fun _ _ ha => ha.negate
  · exact fun _ _ _ _ ha hb => ha.unite hb
  · exact fun _ _ _ _ ha hb => ha.intersect hb

/-- The class that is built stands for what the program computes on sets. -/
theorem denotes_of_build (I : Interpretation) (h : p.build = .ok k) :
    k.denotes I = p.denotes I := by
  refine build_induction (P := fun p k => k.denotes I = p.denotes I) ?_ ?_ ?_ ?_ ?_ ?_ ?_ h
  · exact fun _ => rfl
  · exact fun _ _ => CharClass.denotes_ofChars
  · exact fun _ _ _ => CharClass.denotes_ofRange
  · exact CharClass.denotes_predefined I
  · intro p a ha
    rw [CharClass.denotes_negate, ha, denotes]
  · intro p q a b ha hb
    rw [CharClass.denotes_unite, ha, hb, denotes]
  · intro p q a b ha hb
    rw [CharClass.denotes_intersect, ha, hb, denotes]

/-- Classes that are built stand together for what their programs compute together. -/
theorem denotesAny_of_build (I : Interpretation) {built : List (ClassProgram × CharClass)}
    (h : ∀ b ∈ built, b.1.build = .ok b.2) :
    CharClass.denotesAny I (built.map Prod.snd) = {c | ∃ b ∈ built, c ∈ b.1.denotes I} := by
  ext c
  rw [CharClass.mem_denotesAny]
  constructor
  · rintro ⟨k, hk, hc⟩
    obtain ⟨b, hb, rfl⟩ := List.mem_map.mp hk
    rw [denotes_of_build I (h b hb)] at hc
    exact ⟨b, hb, hc⟩
  · rintro ⟨b, hb, hc⟩
    rw [← denotes_of_build I (h b hb)] at hc
    exact ⟨b.2, List.mem_map_of_mem hb, hc⟩

end ClassProgram

end PatternAlgebra
