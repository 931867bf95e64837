import PatternAlgebra.Expr.Basic
/-!
# The shape of an expression

Equality of expressions leaves out the stored profiles.  So two expressions are equal in this
sense exactly if they are the same once every stored profile is replaced by one that says nothing,
and from there on ordinary equations can be used.
-/

namespace PatternAlgebra

/-- A profile in place of any other. -/
def Profile.blank : Profile := ⟨.empty, .nothing⟩

/-- The raw node with its profile left out. -/
def Raw.bare : Raw → Raw
  | atom a => atom a
  | compound c => compound ⟨c.atoms, .blank⟩

namespace Expr

mutual

/-- The expression with all profiles left out. -/
def bare : Expr → Expr
  | literal text => literal text
  | charLiteral c => charLiteral c
  | raw r => raw r.bare
  | adopted pattern => adopted pattern
  | charClass k => charClass k
  | sequence components _ => sequence (bareAll components) .blank
  | alternation alternatives _ => alternation (bareAll alternatives) .blank
  | quantified base quantifier mode _ => quantified (bare base) quantifier mode .blank
  | group kind nested _ => group kind (bare nested) .blank

/-- The expressions with all profiles left out. -/
def bareAll : List Expr → List Expr
  | [] => []
  | e :: es => bare e :: bareAll es

end

theorem bareAll_eq_map : ∀ es : List Expr, bareAll es = es.map bare := by
  intro es
  induction es with
  | nil => rfl
  | cons e es ih => rw [bareAll, List.map_cons, ih]

end Expr

/-! ## Equality is equality of shapes -/

theorem Raw.beq_iff_bare_eq (a b : Raw) : (a == b) = true ↔ a.bare = b.bare := by
  cases a with
  | atom a =>
      cases b with
      | atom b =>
          show (a == b) = true ↔ _
          simp [bare]
      | compound d => exact ⟨fun h => (nomatch h), fun h => (nomatch h)⟩
  | compound c =>
      cases b with
      | atom b => exact ⟨fun h => (nomatch h), fun h => (nomatch h)⟩
      | compound d =>
          show (c.atoms == d.atoms) = true ↔ _
          simp [bare]

namespace Expr

mutual

/-- Two expressions are equal if they have the same shape, and only then. -/
theorem same_iff_bare_eq : ∀ a b : Expr, same a b = true ↔ a.bare = b.bare
  | literal text, b => by cases b <;> simp [same, bare]
  | charLiteral c, b => by cases b <;> simp [same, bare]
  | raw r, b => by cases b <;> simp [same, bare, Raw.beq_iff_bare_eq]
  | adopted pattern, b => by cases b <;> simp [same, bare]
  | charClass k, b => by cases b <;> simp [same, bare]
  | sequence components _, b => by
    cases b with
    | sequence components' _ => simp [same, bare, sameAll_iff_bareAll_eq components components']
    | _ => simp [same, bare]
  | alternation alternatives _, b => by
    cases b with
    | alternation alternatives' _ =>
        simp [same, bare, sameAll_iff_bareAll_eq alternatives alternatives']
    | _ => simp [same, bare]
  | quantified base quantifier mode _, b => by
    cases b with
    | quantified base' quantifier' mode' _ =>
        simp only [same, bare, Bool.and_eq_true, beq_iff_eq, same_iff_bare_eq base base',
          quantified.injEq, and_true]
        constructor
        · rintro ⟨⟨hquantifier, hmode⟩, hbase⟩
          exact ⟨hbase, hquantifier, hmode⟩
        · rintro ⟨hbase, hquantifier, hmode⟩
          exact ⟨⟨hquantifier, hmode⟩, hbase⟩
    | _ => simp [same, bare]
  | group kind nested _, b => by
    cases b with
    | group kind' nested' _ => simp [same, bare, same_iff_bare_eq nested nested']
    | _ => simp [same, bare]

theorem sameAll_iff_bareAll_eq :
    ∀ as bs : List Expr, sameAll as bs = true ↔ bareAll as = bareAll bs
  | [], [] => by simp [sameAll]
  | [], _ :: _ => by simp [sameAll, bareAll]
  | _ :: _, [] => by simp [sameAll, bareAll]
  | a :: as, b :: bs => by
    simp [sameAll, bareAll, same_iff_bare_eq a b, sameAll_iff_bareAll_eq as bs]

end

theorem beq_iff_bare_eq {a b : Expr} : (a == b) = true ↔ a.bare = b.bare := same_iff_bare_eq a b

end Expr

end PatternAlgebra
