import PatternAlgebra.Proofs.Expr.Occurrences
import PatternAlgebra.Proofs.Syntax.Skipping
/-!
# Patterns in comments mode

Comments mode deals with the text of every node on its own: no node ends in a backslash that is
open or in a comment, unless adopted text or the name of a property brings one in.  So a literal
fares within a pattern, however deep it is, as its escaped text fares alone, and what it is next to
does not matter.

A pattern all of whose characters stay is the same in comments mode and without.
-/

namespace PatternAlgebra

open Syntax

/-! ## What an expression is made of -/

namespace CharClass

variable (good : Char → Bool)

mutual

/-- Whether all characters that the class names are good, and no name of a property means anything
    to comments mode. -/
def isMadeOf : CharClass → Bool
  | single c => good c
  | set members => members.all good
  | range first last => good first && good last
  | shorthand _ _ => true
  | property name _ => name.toList.all isPlain
  | complement inner => isMadeOf inner
  | union members => areMadeOf members
  | intersection members => areMadeOf members

/-- Whether this holds of all classes. -/
def areMadeOf : List CharClass → Bool
  | [] => true
  | k :: ks => isMadeOf k && areMadeOf ks

end

variable {good}

theorem isMadeOf_of_mem {k : CharClass} {ks : List CharClass} (h : areMadeOf good ks = true)
    (hk : k ∈ ks) : k.isMadeOf good = true := by
  induction ks with
  | nil => exact nomatch hk
  | cons j js ih =>
      rw [areMadeOf, Bool.and_eq_true] at h
      rcases List.mem_cons.mp hk with rfl | hk
      · exact h.1
      · exact ih h.2 hk

end CharClass

/-- Whether all characters of the atom are good. -/
def RawAtom.isMadeOf (good : Char → Bool) : RawAtom → Bool
  | entity _ => true
  | literal text => text.toList.all good

namespace Expr

section MadeOf

variable (good : Char → Bool)

mutual

/-- Whether all characters in literals and classes are good, no name of a property means anything
    to comments mode, and there is no adopted text. -/
def isMadeOf : Expr → Bool
  | literal text => text.toList.all good
  | charLiteral c => good c
  | raw r => r.atoms.all (RawAtom.isMadeOf good)
  | adopted _ => false
  | charClass k => k.isMadeOf good
  | sequence components _ => areMadeOf components
  | alternation alternatives _ => areMadeOf alternatives
  | quantified base _ _ _ => isMadeOf base
  | group _ nested _ => isMadeOf nested

/-- Whether this holds of all expressions. -/
def areMadeOf : List Expr → Bool
  | [] => true
  | e :: es => isMadeOf e && areMadeOf es

end

end MadeOf

variable {good : Char → Bool} {e part : Expr}

theorem isMadeOf_of_mem {es : List Expr} (h : areMadeOf good es = true) (he : e ∈ es) :
    e.isMadeOf good = true := by
  induction es with
  | nil => exact nomatch he
  | cons d ds ih =>
      rw [areMadeOf, Bool.and_eq_true] at h
      rcases List.mem_cons.mp he with rfl | he
      · exact h.1
      · exact ih h.2 he

theorem isMadeOf_of_mem_subparts (h : e.isMadeOf good = true) (hpart : part ∈ e.subparts) :
    part.isMadeOf good = true := by
  cases e with
  | raw r =>
      cases r with
      | atom a => exact nomatch hpart
      | compound c =>
          obtain ⟨a, ha, rfl⟩ := List.mem_map.mp hpart
          have hatom : a.isMadeOf good = true := List.all_eq_true.mp h a ha
          show [a].all (RawAtom.isMadeOf good) = true
          rw [List.all_cons, hatom]
          rfl
  | sequence components profile => exact isMadeOf_of_mem h hpart
  | alternation alternatives profile => exact isMadeOf_of_mem h hpart
  | quantified base quantifier mode profile =>
      obtain rfl := List.mem_singleton.mp hpart
      exact h
  | group kind nested profile =>
      obtain rfl := List.mem_singleton.mp hpart
      exact h
  | _ => exact nomatch hpart

/-- Whether nothing in the expression can bring in a comment or an open backslash. -/
def isDelimited (e : Expr) : Bool := e.isMadeOf fun _ => true

/-- Whether besides no character is lost. -/
def isSolid (e : Expr) : Bool := e.isMadeOf (!isLost ·)

end Expr

namespace Syntax

variable {endsLine good : Char → Bool} {whole : Prop}

/-! ## Texts between -/

theorem isPlain_of_isDigit {c : Char} (h : c.isDigit = true) : isPlain c = true := by
  have hne : ∀ d : Char, d.isDigit = false → c ≠ d := by
    rintro d hd rfl
    exact Bool.false_ne_true (hd.symm.trans h)
  have hblank : isBlank c = false := by
    simp [isBlank, hne]
  simp [isPlain, hblank, hne]

theorem skims_toString (n : Nat) : Skims endsLine whole (toString n).toList := by
  rw [Nat.toString_eq_ofList_toDigits, String.toList_ofList]
  refine .of_isPlain (List.all_eq_true.mpr fun c hc => isPlain_of_isDigit ?_)
  exact Nat.isDigit_of_mem_toDigits (by decide) (by decide) hc

/-- A text between two others that are plain. -/
theorem Skims.between {before after text : String} (h : Skims endsLine whole text.toList)
    (hbefore : before.toList.all isPlain = true) (hafter : after.toList.all isPlain = true) :
    Skims endsLine whole (before ++ text ++ after).toList := by
  rw [String.toList_append, String.toList_append]
  exact ((Skims.of_isPlain hbefore).append h).append (.of_isPlain hafter)

theorem skims_quantifier (q : Quantifier) (mode : Mode) :
    Skims endsLine whole (q.text ++ mode.suffix).toList := by
  rw [String.toList_append]
  refine .append ?_ ?_
  · cases q with
    | exactly count => exact (skims_toString count).between (by decide) (by decide)
    | range min max =>
        have hmin : Skims endsLine whole (toString min).toList := skims_toString min
        cases max with
        | none => exact hmin.between (by decide) (by decide)
        | some max =>
            have hmax : Skims endsLine whole (toString max).toList := skims_toString max
            rw [Quantifier.text, String.append_assoc, String.toList_append]
            refine .append (hmin.between (by decide) (by decide)) ?_
            rw [String.toList_append]
            exact hmax.append (.of_isPlain (by decide))
    | _ => exact .of_isPlain (by decide)
  · cases mode <;> exact .of_isPlain (by decide)

theorem skims_flagLetters (flags : List Flag) :
    Skims endsLine whole (flagLetters flags).toList := by
  rw [flagLetters, String.toList_ofList]
  refine .of_isPlain (List.all_eq_true.mpr fun c hc => ?_)
  obtain ⟨flag, -, rfl⟩ := List.mem_map.mp hc
  cases flag <;> decide

theorem skims_opening (kind : GroupKind) : Skims endsLine whole kind.opening.toList := by
  cases kind with
  | enableFlags flags => exact (skims_flagLetters flags).between (by decide) (by decide)
  | disableFlags flags => exact (skims_flagLetters flags).between (by decide) (by decide)
  | _ => exact .of_isPlain (by decide)

theorem skims_entity (e : Entity) : Skims endsLine whole e.text.toList := by
  cases e with
  | anyChar => exact .of_isPlain (by decide)
  | lineBegin => exact .of_isPlain (by decide)
  | lineEnd => exact .of_isPlain (by decide)
  | _ => exact .backslash _ .nil

/-! ## Classes -/

/-- No good character is lost. -/
def Spares (good : Char → Bool) : Prop := ∀ c, good c = true → isLost c = false

theorem skims_goodChars {chars : List Char} (h : chars.all good = true) :
    Skims endsLine (Spares good) (escapeChars chars) :=
  skims_escapeChars fun hgood c hc => hgood c (List.all_eq_true.mp h c hc)

theorem skims_goodChar {c : Char} (h : good c = true) (next : Option Char) :
    Skims endsLine (Spares good) (escapedBefore c next) :=
  skims_escapedBefore (fun hgood => hgood c h) next

theorem Skims.bracketIf {text : List Char} (h : Skims endsLine whole text) (needed : Bool) :
    Skims endsLine whole (CharClass.bracketIf needed text) := by
  cases needed with
  | false => exact h
  | true => exact .append (.cons (by decide) h) (.of_isPlain (by decide))

theorem skims_bareCharsAll {ks : List CharClass} (h : ∀ k ∈ ks, Skims endsLine whole k.bareChars) :
    Skims endsLine whole (CharClass.bareCharsAll ks) := by
  induction ks with
  | nil => exact .nil
  | cons k ks ih => exact (h k (by simp)).append (ih fun j hj => h j (by simp [hj]))

theorem skims_operandChars {ks : List CharClass} (h : ∀ k ∈ ks, Skims endsLine whole k.bareChars) :
    Skims endsLine whole (CharClass.operandChars ks) := by
  induction ks with
  | nil => exact .nil
  | cons k ks ih =>
      have hfirst := (h k (by simp)).bracketIf k.needsBrackets
      cases ks with
      | nil => exact hfirst
      | cons k' ks =>
          have hrest := ih fun j hj => h j (by simp [hj])
          exact hfirst.append (.cons (by decide) (.cons (by decide) hrest))

theorem skims_bareChars {k : CharClass} (h : k.WellBuilt) (hgood : k.isMadeOf good = true) :
    Skims endsLine (Spares good) k.bareChars := by
  induction h with
  | single c => exact skims_goodChar hgood none
  | set _ _ => exact skims_goodChars hgood
  | range _ =>
      rw [CharClass.isMadeOf, Bool.and_eq_true] at hgood
      exact (skims_goodChar hgood.1 _).append (.cons (by decide) (skims_goodChar hgood.2 none))
  | shorthand kind isNegated => exact .backslash _ .nil
  | property name isNegated =>
      have hname : name.toList.all isPlain = true := hgood
      exact .append (.append (.backslash _ (.of_isPlain (by decide))) (.of_isPlain hname))
        (.of_isPlain (by decide))
  | complement _ _ ih =>
      exact .append (.append (.of_isPlain (by decide)) (ih hgood)) (.of_isPlain (by decide))
  | union _ _ _ ih =>
      exact skims_bareCharsAll fun k hk => ih k hk (CharClass.isMadeOf_of_mem hgood hk)
  | intersection _ _ _ ih =>
      refine .append (.cons (by decide) ?_) (.of_isPlain (by decide))
      exact skims_operandChars fun k hk => ih k hk (CharClass.isMadeOf_of_mem hgood hk)

/-! ## Expressions -/

theorem skims_atom {a : RawAtom} (h : a.isMadeOf good = true) :
    Skims endsLine (Spares good) a.profile.text.contents := by
  cases a with
  | entity e =>
      show Skims endsLine _ (Rope.ofString e.text).contents
      rw [Rope.contents_ofString]
      exact skims_entity e
  | literal text =>
      show Skims endsLine _ (Rope.ofString (escape text)).contents
      rw [Rope.contents_ofString, escape, String.toList_ofList]
      exact skims_goodChars h

/-- Comments mode deals with the text of a node on its own, and it skips nothing if no character
    of the node is lost. -/
theorem skims_text {e : Expr} (h : e.WellBuilt) (hgood : e.isMadeOf good = true) :
    Skims endsLine (Spares good) e.text.contents := by
  induction h with
  | literal text => exact skims_atom (a := .literal text) hgood
  | charLiteral c =>
      show Skims endsLine _ (Rope.ofString (escapeChar c)).contents
      rw [Rope.contents_ofString, escapeChar, String.toList_ofList]
      exact skims_goodChar hgood none
  | @raw r coherent =>
      show Skims endsLine _ r.profile.text.contents
      rw [coherent.contents_eq]
      exact .flatMap fun a ha => skims_atom (List.all_eq_true.mp hgood a ha)
  | adopted pattern => cases hgood
  | @charClass k hk =>
      show Skims endsLine _ (Rope.ofString k.independent).contents
      rw [Rope.contents_ofString, CharClass.independent, String.toList_ofList]
      exact (skims_bareChars hk hgood).bracketIf k.needsBrackets
  | @sequence components _ _ _ _ _ ih =>
      show Skims endsLine _ (Profile.concatenation (components.map Expr.profile)).text.contents
      rw [Profile.contents_concatenation, List.flatMap_map]
      exact .flatMap fun e he => ih e he (Expr.isMadeOf_of_mem hgood he)
  | @alternation alternatives hsev _ _ _ ih =>
      obtain ⟨first, rest, rfl⟩ := List.exists_cons_of_ne_nil (ne_nil_of_several hsev)
      have hall := fun e he => ih e he (Expr.isMadeOf_of_mem hgood he)
      show Skims endsLine _ (Profile.alternation ((first :: rest).map Expr.profile)).text.contents
      rw [List.map_cons, Profile.contents_alternation, List.flatMap_map]
      refine (hall first (by simp)).append (.flatMap fun e he => ?_)
      exact .cons (by decide) (hall e (by simp [he]))
  | @quantified base quantifier mode _ _ ih =>
      show Skims endsLine _
        (base.expr.text ++ Rope.ofString (quantifier.text ++ mode.suffix)).contents
      rw [Rope.contents_append, Rope.contents_ofString]
      exact (ih hgood).append (skims_quantifier quantifier mode)
  | @group kind nested _ _ ih =>
      show Skims endsLine _ (Rope.ofString kind.opening ++ nested.text ++ Rope.ofChar ')').contents
      rw [Rope.contents_append, Rope.contents_append, Rope.contents_ofString,
        Rope.contents_ofChar]
      exact ((skims_opening kind).append (ih hgood)).append (.of_isPlain (by decide))

/-- A pattern none of whose characters is lost is the same in comments mode and without. -/
theorem inComments_render_of_isSolid {e : Expr} (h : e.Constructible) (hs : e.isSolid = true) :
    inComments endsLine e.render = e.render := by
  have hskims : Skims endsLine (Spares (!isLost ·)) e.text.contents := skims_text h.wellBuilt hs
  have hspares : Spares (!isLost ·) := fun c hc => by simpa using hc
  rw [inComments, Expr.toList_render, hskims.unchanged hspares, Expr.render]

/-! ## The places of literals -/

/-- What may stand before a part of a node has the property. -/
structure Precedes (P : List Char → Prop) : Prop where
  nil : P []
  append : ∀ {before text : List Char}, P before → P text → P (before ++ text)
  bar : P ['|']
  opening : ∀ kind : GroupKind, P kind.opening.toList

/-- A text has its place in another, and what comes before it there has the property. -/
def SitsIn (P : List Char → Prop) (part text : List Char) : Prop :=
  ∃ before after, P before ∧ text = before ++ part ++ after

section Places

variable {P : List Char → Prop} {before part text text' : List Char}

namespace SitsIn

theorem refl (hP : Precedes P) : SitsIn P text text := ⟨[], [], hP.nil, by simp⟩

theorem trans (hP : Precedes P) (h : SitsIn P part text) (h' : SitsIn P text text') :
    SitsIn P part text' := by
  obtain ⟨before, after, hbefore, rfl⟩ := h
  obtain ⟨before', after', hbefore', rfl⟩ := h'
  exact ⟨before' ++ before, after ++ after', hP.append hbefore' hbefore, by simp⟩

theorem append_left (hP : Precedes P) (hbefore : P before) (h : SitsIn P part text) :
    SitsIn P part (before ++ text) := by
  obtain ⟨first, after, hfirst, rfl⟩ := h
  exact ⟨before ++ first, after, hP.append hbefore hfirst, by simp⟩

theorem append_right (h : SitsIn P part text) (after : List Char) :
    SitsIn P part (text ++ after) := by
  obtain ⟨before, last, hbefore, rfl⟩ := h
  exact ⟨before, last ++ after, hbefore, by simp⟩

theorem flatMap (hP : Precedes P) {α : Type} {parts : List α} {text : α → List Char} {a : α}
    (ha : a ∈ parts) (h : ∀ b ∈ parts, P (text b)) : SitsIn P (text a) (parts.flatMap text) := by
  induction parts with
  | nil => exact nomatch ha
  | cons b parts ih =>
      rw [List.flatMap_cons]
      rcases List.mem_cons.mp ha with rfl | ha
      · exact (refl hP).append_right _
      · exact append_left hP (h b (by simp)) (ih ha fun c hc => h c (by simp [hc]))

end SitsIn

/-- The parts of a node have their places in its text. -/
theorem sitsIn_of_mem_subparts (hP : Precedes P) {e part : Expr} (h : e.WellBuilt)
    (hparts : ∀ d ∈ e.subparts, P d.text.contents) (hpart : part ∈ e.subparts) :
    SitsIn P part.text.contents e.text.contents := by
  cases h with
  | @raw r coherent =>
      cases r with
      | atom a => exact nomatch hpart
      | compound c =>
          obtain ⟨a, ha, rfl⟩ := List.mem_map.mp hpart
          have hatoms : ∀ b ∈ c.atoms, P b.profile.text.contents :=
            fun b hb => hparts (.raw (.atom b)) (List.mem_map_of_mem hb)
          show SitsIn P _ (Raw.compound c).profile.text.contents
          rw [coherent.contents_eq]
          exact .flatMap hP ha hatoms
  | @sequence components _ _ _ _ _ =>
      show SitsIn P _ (Profile.concatenation (components.map Expr.profile)).text.contents
      rw [Profile.contents_concatenation, List.flatMap_map]
      exact .flatMap hP hpart hparts
  | @alternation alternatives hsev _ _ _ =>
      obtain ⟨first, rest, rfl⟩ := List.exists_cons_of_ne_nil (ne_nil_of_several hsev)
      show SitsIn P _ (Profile.alternation ((first :: rest).map Expr.profile)).text.contents
      rw [List.map_cons, Profile.contents_alternation, List.flatMap_map]
      rcases List.mem_cons.mp hpart with rfl | hrest
      · exact (SitsIn.refl hP).append_right _
      · -- a later alternative comes with the bar before it
        have hlater : ∀ d ∈ rest, P ('|' :: d.text.contents) :=
          fun d hd => hP.append hP.bar (hparts d (List.mem_cons_of_mem _ hd))
        have hplace : SitsIn P (['|'] ++ part.text.contents)
            (rest.flatMap fun d => '|' :: d.text.contents) := .flatMap hP hrest hlater
        have hbar : SitsIn P part.text.contents (['|'] ++ part.text.contents) :=
          .append_left hP hP.bar (.refl hP)
        exact .append_left hP (hparts first (List.mem_cons_self ..)) (hbar.trans hP hplace)
  | @quantified base quantifier mode _ _ =>
      obtain rfl := List.mem_singleton.mp hpart
      show SitsIn P _ (base.expr.text ++ Rope.ofString (quantifier.text ++ mode.suffix)).contents
      rw [Rope.contents_append]
      exact (SitsIn.refl hP).append_right _
  | @group kind nested _ _ =>
      obtain rfl := List.mem_singleton.mp hpart
      show SitsIn P _ (Rope.ofString kind.opening ++ part.text ++ Rope.ofChar ')').contents
      rw [Rope.contents_append, Rope.contents_append, Rope.contents_ofString]
      exact (SitsIn.append_left hP (hP.opening kind) (.refl hP)).append_right _
  | _ => exact nomatch hpart

/-- So have all nodes of a tree. -/
theorem sitsIn_of_occursIn (hP : Precedes P) {d e : Expr} (hd : d.OccursIn e) (h : e.WellBuilt)
    (hall : ∀ part : Expr, part.OccursIn e → P part.text.contents) :
    SitsIn P d.text.contents e.text.contents := by
  induction hd with
  | self => exact .refl hP
  | inside hpart _ ih =>
      have hinside := ih (h.of_mem_subparts hpart) fun _ hpart' => hall _ (.inside hpart hpart')
      exact hinside.trans hP
        (sitsIn_of_mem_subparts hP h (fun _ hd => hall _ (.inside hd .self)) hpart)

end Places

theorem precedes_skims : Precedes (Skims endsLine whole) where
  nil := .nil
  append := .append
  bar := .of_isPlain (by decide)
  opening := skims_opening

/-- Comments mode deals with a node of a pattern as if the node stood alone. -/
theorem skims_of_occursIn {d e : Expr} (hd : d.OccursIn e) (h : e.WellBuilt)
    (hgood : e.isMadeOf good = true) : Skims endsLine (Spares good) d.text.contents := by
  induction hd with
  | self => exact skims_text h hgood
  | inside hpart _ ih =>
      exact ih (h.of_mem_subparts hpart) (Expr.isMadeOf_of_mem_subparts hgood hpart)

/-- Every node of a pattern has its place in it. -/
theorem exists_render_eq_of_occursIn {d e : Expr} (hd : d.OccursIn e) (h : e.WellBuilt) :
    ∃ before after : String, e.render = before ++ d.render ++ after := by
  have hany : Precedes fun _ => True := ⟨trivial, fun _ _ => trivial, trivial, fun _ => trivial⟩
  obtain ⟨before, after, -, hcontents⟩ := sitsIn_of_occursIn hany hd h fun _ _ => trivial
  refine ⟨String.ofList before, String.ofList after, ?_⟩
  rw [Expr.render, hcontents, String.ofList_append, String.ofList_append]
  rfl

/-- The text of a literal of either kind, or of one in a compound. -/
theorem contents_of_asRaw? {d : Expr} {text : String} (h : d.asRaw? = some (.literal text)) :
    d.text.contents = (escape text).toList := by
  show d.profile.text.contents = _
  rw [← Expr.profile_of_asRaw? h]
  exact Rope.contents_ofString (escape text)

/-- A literal has its place in a pattern without adopted text, and comments mode deals with what
    comes before the literal, with the literal and with what comes after on their own. -/
theorem exists_place_in_comments (endsLine : Char → Bool) {d e : Expr} (hd : d.OccursIn e)
    (h : e.WellBuilt) (hdelimited : e.isDelimited = true) {text : String}
    (htext : d.asRaw? = some (.literal text)) :
    ∃ before after : String, e.render = before ++ escape text ++ after ∧
      inComments endsLine e.render = inComments endsLine before
        ++ inComments endsLine (escape text) ++ inComments endsLine after := by
  have hplace : SitsIn (Skims endsLine (Spares fun _ => true)) d.text.contents e.text.contents :=
    sitsIn_of_occursIn precedes_skims hd h fun _ hpart => skims_of_occursIn hpart h hdelimited
  obtain ⟨before, after, hbefore, hcontents⟩ := hplace
  have hliteral : Skims endsLine False (escape text).toList := by
    rw [escape, String.toList_ofList]
    exact skims_escapeChars False.elim
  rw [contents_of_asRaw? htext] at hcontents
  refine ⟨String.ofList before, String.ofList after, ?_, ?_⟩
  · rw [Expr.render, hcontents, String.ofList_append, String.ofList_append, String.ofList_toList]
  · rw [inComments, Expr.toList_render, hcontents, List.append_assoc, hbefore.separate,
      hliteral.separate, String.ofList_append, String.ofList_append]
    simp only [inComments, String.toList_ofList, String.append_assoc]

/-- Escaped text without a space or a vertical tab is the same in comments mode. -/
theorem inComments_escape {text : String} (h : ∀ c ∈ text.toList, isLost c = false) :
    inComments endsLine (escape text) = escape text := by
  have hskims : Skims endsLine True (escapeChars text.toList) := skims_escapeChars fun _ => h
  rw [inComments, escape, String.toList_ofList, hskims.unchanged trivial]

/-- **Literals in comments mode.**  What is left of the escaped text decodes to the text exactly if
    the text has neither a space nor a vertical tab.  Wherever a literal stands in a pattern without
    adopted text, which is written out exactly if there is room for it, comments mode deals with the
    literal as if it stood alone.  So if only the text in the parentheses of a group is in comments
    mode, a literal anywhere in the group still decodes at its place to its text, and ends where it
    ends, unless the text has one of the two characters. -/
theorem literal_survives_comments_iff (endsLine : Char → Bool) (text : String) :
    (decode (inComments endsLine (escape text)) = some text ↔
      ∀ c ∈ text.toList, isLost c = false) ∧
    (∀ e : Expr, e.Constructible → (e.checkedRender = .ok e.render ↔ Text.Fits e.render)) ∧
    (∀ e : Expr, e.Constructible → e.isDelimited = true →
      ∀ d : Expr, d.OccursIn e → d.asRaw? = some (.literal text) →
        ∃ before after : String, e.render = before ++ escape text ++ after ∧
          inComments endsLine e.render = inComments endsLine before
            ++ inComments endsLine (escape text) ++ inComments endsLine after) ∧
    ∀ e : Expr, e.Constructible → ∀ (flags : List Flag) (nested : Expr) (profile : Profile),
      (Expr.group (.enableFlags flags) nested profile).OccursIn e → .comments ∈ flags →
      nested.isDelimited = true →
      ∀ d : Expr, d.OccursIn nested → d.asRaw? = some (.literal text) →
        ∃ outside before after outside' : String,
          e.render = outside ++ ((GroupKind.enableFlags flags).opening ++ nested.render ++ ")")
            ++ outside' ∧
          nested.render = before ++ escape text ++ after ∧
          inComments endsLine nested.render = inComments endsLine before
            ++ inComments endsLine (escape text) ++ inComments endsLine after ∧
          ((∀ c ∈ text.toList, isLost c = false) →
            decodeChars text.length (inComments endsLine (escape text)
                ++ (inComments endsLine after ++ ")" ++ outside')).toList
              = some (text.toList, (inComments endsLine after ++ ")" ++ outside').toList)) := by
  refine ⟨decode_inComments_escape_iff text, fun e he => he.wellBuilt.checkedRender_eq_ok_iff,
    ?_, ?_⟩
  · intro e he hdelimited d hd htext
    exact exists_place_in_comments endsLine hd he.wellBuilt hdelimited htext
  · intro e he flags nested profile hgroup _ hdelimited d hd htext
    have hwellBuilt := he.wellBuilt.of_occursIn hgroup
    have hnested : nested.WellBuilt := hwellBuilt.of_mem_parts (List.mem_singleton_self nested)
    obtain ⟨outside, outside', houtside⟩ := exists_render_eq_of_occursIn hgroup he.wellBuilt
    obtain ⟨before, after, hrender, hcomments⟩ :=
      exists_place_in_comments endsLine hd hnested hdelimited htext
    refine ⟨outside, before, after, outside', ?_, hrender, hcomments, fun hlost => ?_⟩
    · rw [houtside, hwellBuilt.render_group]
    · rw [inComments_escape hlost]
      exact decodeChars_escape text _

/-- A number sign stays, and it stays next to an alternative that is lost. -/
theorem literal_survives_comments_beside_a_space :
    let either : Alternation := .pair (Sequenceable.ofLiteral "a#b").toAlternative
      (Sequenceable.ofLiteral " ").toAlternative
    let e : Expr := (Group.enableFlag .comments either.toExpr).toExpr
    e.Constructible ∧ e.isDelimited = true ∧ (Expr.literal "a#b").OccursIn e ∧
      decode (inComments (· == '\n') (escape "a#b")) = some "a#b" ∧
      (∃ before after : String, e.render = before ++ escape "a#b" ++ after ∧
        inComments (· == '\n') e.render = inComments (· == '\n') before
          ++ inComments (· == '\n') (escape "a#b") ++ inComments (· == '\n') after) ∧
      ∃ rest : String, decodeChars 3 (inComments (· == '\n') (escape "a#b") ++ rest).toList
        = some (['a', '#', 'b'], rest.toList) := by
  intro either e
  have hsign : Script.Constructible (.literal "a#b") := .leaf (.literal "a#b") rfl
  have hspace : Script.Constructible (.literal " ") := .leaf (.literal " ") rfl
  have heither : Script.Constructible (.alternation either) := .binary .orElse hsign hspace rfl
  have hgroup : Script.Constructible (.group (Group.enableFlag .comments either.toExpr)) :=
    .unary (.wrap (.enableFlags [.comments])) heither rfl
  have he : e.Constructible := .unary .toExpr hgroup rfl
  have hliteral : (Expr.literal "a#b").OccursIn either.toExpr :=
    .inside (List.mem_cons_self ..) .self
  have hoccurs : (Expr.literal "a#b").OccursIn e := .inside (List.mem_singleton_self _) hliteral
  have hkept : ∀ c ∈ ("a#b" : String).toList, isLost c = false := by simp [isLost]
  obtain ⟨hdecodes, -, hplace, hunder⟩ := literal_survives_comments_iff (· == '\n') "a#b"
  obtain ⟨_, _, after, outside', -, -, -, hreads⟩ :=
    hunder e he [.comments] either.toExpr _ .self (by simp) rfl _ hliteral rfl
  exact ⟨he, rfl, hoccurs, hdecodes.mpr hkept, hplace e he rfl _ hoccurs rfl, _, hreads hkept⟩

/-- A space is neither escaped nor kept. -/
theorem space_lost_in_comments :
    let e : Expr := (Group.enableFlag .comments (.literal "a b")).toExpr
    e.Constructible ∧ e.checkedRender = .ok e.render ∧ e.render = "(?x:a b)" ∧
      inComments (· == '\n') e.render = "(?x:ab)" ∧
      decode (inComments (· == '\n') (escape "a b")) = some "ab" := by
  intro e
  have hliteral : Script.Constructible (.literal "a b") := .leaf (.literal "a b") rfl
  have hgroup : Script.Constructible (.group (Group.enableFlag .comments (.literal "a b"))) :=
    .unary (.wrap (.enableFlags [.comments])) hliteral rfl
  have he : e.Constructible := .unary .toExpr hgroup rfl
  have hrender : e.render = "(?x:a b)" := by decide
  have hfits : Text.Fits e.render := by
    rw [hrender]
    decide
  refine ⟨he, he.wellBuilt.checkedRender_eq_ok_iff.mpr hfits, hrender, ?_,
    decode_inComments_escape_of_ne_nul (by simp)⟩
  rw [hrender]
  decide

end Syntax

end PatternAlgebra
