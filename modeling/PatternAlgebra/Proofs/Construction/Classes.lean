import PatternAlgebra.CharClass.Catalog
import PatternAlgebra.Proofs.Construction.Invariant
/-!
# The operations on classes keep them well built

Only two facts about the operations need more than a look at their definitions: that inserting
characters one by one gives an increasing list, and that opening unions inside a union leaves no
union among its members.
-/

namespace PatternAlgebra.CharClass

/-! ## Listed members -/

theorem mem_insertMember {c d : Char} {members : List Char} :
    d ∈ insertMember c members ↔ d = c ∨ d ∈ members := by
  induction members with
  | nil => simp [insertMember]
  | cons m ms ih =>
      rw [insertMember]
      split
      · simp
      · split
        · rename_i heq
          simp [heq]
        · rw [List.mem_cons, List.mem_cons, ih]
          exact or_left_comm

theorem pairwise_insertMember (c : Char) {members : List Char}
    (h : members.Pairwise (· < ·)) : (insertMember c members).Pairwise (· < ·) := by
  induction members with
  | nil => exact List.pairwise_singleton _ _
  | cons m ms ih =>
      obtain ⟨hm, hms⟩ := List.pairwise_cons.mp h
      rw [insertMember]
      split
      · rename_i hlt
        refine List.pairwise_cons.mpr ⟨?_, h⟩
        intro d hd
        rcases List.mem_cons.mp hd with rfl | hd
        · exact hlt
        · exact Char.lt_trans hlt (hm d hd)
      · split
        · exact h
        · rename_i hnlt hne
          refine List.pairwise_cons.mpr ⟨?_, ih hms⟩
          intro d hd
          rcases mem_insertMember.mp hd with rfl | hd
          · exact Std.lt_of_le_of_ne (Char.not_lt.mp hnlt) (Ne.symm hne)
          · exact hm d hd

theorem mem_sortedMembers {c : Char} {chars : List Char} :
    c ∈ sortedMembers chars ↔ c ∈ chars := by
  induction chars with
  | nil => exact Iff.rfl
  | cons d ds ih =>
      show c ∈ insertMember d (sortedMembers ds) ↔ _
      rw [mem_insertMember, ih, List.mem_cons]

theorem pairwise_sortedMembers (chars : List Char) :
    (sortedMembers chars).Pairwise (· < ·) := by
  induction chars with
  | nil => exact .nil
  | cons c cs ih => exact pairwise_insertMember c ih

theorem sortedMembers_ne_nil {chars : List Char} (h : chars ≠ []) : sortedMembers chars ≠ [] := by
  obtain ⟨c, hc⟩ := List.exists_mem_of_ne_nil chars h
  exact List.ne_nil_of_mem (mem_sortedMembers.mpr hc)

/-! ## Constructions -/

/-- A class of listed characters is only made of some. -/
theorem ofChars_eq_ok {chars : List Char} {k : CharClass} (h : ofChars chars = .ok k) :
    chars ≠ [] ∧ k = set (sortedMembers chars) := by
  unfold ofChars at h
  split at h
  · exact nomatch h
  · rename_i hne
    exact ⟨by simpa using hne, (Except.ok.inj h).symm⟩

/-- A range is only made of ends in order. -/
theorem ofRange_eq_ok {first last : Char} {k : CharClass} (h : ofRange first last = .ok k) :
    first ≤ last ∧ k = range first last := by
  unfold ofRange at h
  split at h
  · exact nomatch h
  · rename_i hle
    exact ⟨Char.not_lt.mp hle, (Except.ok.inj h).symm⟩

theorem wellBuilt_ofChars {chars : List Char} {k : CharClass} (h : ofChars chars = .ok k) :
    k.WellBuilt := by
  obtain ⟨hne, rfl⟩ := ofChars_eq_ok h
  exact .set (sortedMembers_ne_nil hne) (pairwise_sortedMembers chars)

theorem wellBuilt_ofRange {first last : Char} {k : CharClass} (h : ofRange first last = .ok k) :
    k.WellBuilt := by
  obtain ⟨hle, rfl⟩ := ofRange_eq_ok h
  exact .range hle

theorem wellBuilt_predefined (p : PredefinedClass) : (predefined p).WellBuilt := by
  cases p with
  | shorthand kind => exact .shorthand _ _
  | posix k => exact .property _ _
  | java k => exact .property _ _
  | category c => exact .property _ _
  | block name => exact .property _ _

/-! ## Operations -/

namespace WellBuilt

variable {a b : CharClass}

/-- A complement is only written where the class has none of its own. -/
theorem negate (h : a.WellBuilt) : a.negate.WellBuilt := by
  cases h with
  | single c => exact .complement rfl (.single c)
  | set hne hinc => exact .complement rfl (.set hne hinc)
  | range hle => exact .complement rfl (.range hle)
  | shorthand kind isNegated => exact .shorthand _ _
  | property name isNegated => exact .property _ _
  | complement _ hinner => exact hinner
  | union hsev hflat hall => exact .complement rfl (.union hsev hflat hall)
  | intersection hsev hflat hall => exact .complement rfl (.intersection hsev hflat hall)

/-- The members that a class brings into a union. -/
theorem unionMembers (h : a.WellBuilt) :
    a.unionMembers ≠ [] ∧ ∀ k ∈ a.unionMembers, k.isUnion = false ∧ k.WellBuilt := by
  cases hunion : a.isUnion with
  | false =>
      have hself : a.unionMembers = [a] := by
        cases a <;> first | rfl | exact absurd hunion (by simp [isUnion])
      rw [hself]
      exact ⟨List.cons_ne_nil _ _, by simp [hunion, h]⟩
  | true =>
      cases h with
      | @union members hsev hflat hall =>
          exact ⟨ne_nil_of_several hsev, fun k hk => ⟨hflat k hk, hall k hk⟩⟩
      | _ => exact absurd hunion (by simp [isUnion])

/-- The members that a class brings into an intersection. -/
theorem intersectionMembers (h : a.WellBuilt) :
    a.intersectionMembers ≠ [] ∧
      ∀ k ∈ a.intersectionMembers, k.isIntersection = false ∧ k.WellBuilt := by
  cases hintersection : a.isIntersection with
  | false =>
      have hself : a.intersectionMembers = [a] := by
        cases a <;> first | rfl | exact absurd hintersection (by simp [isIntersection])
      rw [hself]
      exact ⟨List.cons_ne_nil _ _, by simp [hintersection, h]⟩
  | true =>
      cases h with
      | @intersection members hsev hflat hall =>
          exact ⟨ne_nil_of_several hsev, fun k hk => ⟨hflat k hk, hall k hk⟩⟩
      | _ => exact absurd hintersection (by simp [isIntersection])

theorem explicitMembers_ne_nil (h : a.WellBuilt) {members : List Char}
    (hmembers : a.explicitMembers? = some members) : members ≠ [] := by
  cases h with
  | single c =>
      obtain rfl := Option.some.inj hmembers
      exact List.cons_ne_nil _ _
  | set hne _ =>
      obtain rfl := Option.some.inj hmembers
      exact hne
  | _ => exact absurd hmembers (by simp [explicitMembers?])

/-- Members from both sides, each side with some, are several. -/
theorem append_members {Member : CharClass → Prop} {as bs : List CharClass}
    (ha : as ≠ [] ∧ ∀ k ∈ as, Member k) (hb : bs ≠ [] ∧ ∀ k ∈ bs, Member k) :
    2 ≤ (as ++ bs).length ∧ ∀ k ∈ as ++ bs, Member k := by
  constructor
  · rw [List.length_append]
    exact Nat.add_le_add (List.length_pos_iff.mpr ha.1) (List.length_pos_iff.mpr hb.1)
  · intro k hk
    rcases List.mem_append.mp hk with hk | hk
    · exact ha.2 k hk
    · exact hb.2 k hk

/-- Two classes that list their members become one that does; any others become a flat union. -/
theorem unite (ha : a.WellBuilt) (hb : b.WellBuilt) : (a.unite b).WellBuilt := by
  unfold CharClass.unite
  split
  · rename_i as bs has _
    refine .set (sortedMembers_ne_nil ?_) (pairwise_sortedMembers _)
    exact List.append_ne_nil_of_left_ne_nil (ha.explicitMembers_ne_nil has) bs
  · obtain ⟨hsev, hall⟩ := append_members ha.unionMembers hb.unionMembers
    exact .union hsev (fun k hk => (hall k hk).1) fun k hk => (hall k hk).2

theorem intersect (ha : a.WellBuilt) (hb : b.WellBuilt) : (a.intersect b).WellBuilt := by
  obtain ⟨hsev, hall⟩ := append_members ha.intersectionMembers hb.intersectionMembers
  exact .intersection hsev (fun k hk => (hall k hk).1) fun k hk => (hall k hk).2

end WellBuilt

end PatternAlgebra.CharClass
