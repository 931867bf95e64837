import PatternAlgebra.Script.Program
import PatternAlgebra.Proofs.Construction.Composites
import PatternAlgebra.Proofs.Script.Returns
/-!
# Everything that can be built

A node is constructible if some row of constructions and conversions has it as its value; the rows
are those that a script can name, so no node of any script escapes.  What is shown for the value of
each construction holds of every constructible node, and the first such thing is that nodes are
well built.
-/

namespace PatternAlgebra

/-- A content with the profiles of its parts, at every depth. -/
def Node.Content.WellBuilt : Node.Content → Prop
  | .expr e => e.WellBuilt
  | .compound c => c.Coherent

/-- A node with a well-built content. -/
def Node.WellBuilt (n : Node) : Prop := n.content.WellBuilt

theorem Expr.profile_of_asRaw? {e : Expr} {r : Raw} (h : e.asRaw? = some r) :
    r.profile = e.profile := by
  cases e with
  | literal text => exact (Option.some.inj h) ▸ rfl
  | charLiteral c => exact (Option.some.inj h) ▸ profile_literal_singleton c
  | raw r => exact (Option.some.inj h) ▸ rfl
  | _ => exact nomatch h

namespace Node

variable {n : Node}

/-! ## Conversions keep the content -/

theorem content_of_toExpr? {e : Expr} (h : n.toExpr? = some e) : n.content = .expr e := by
  unfold toExpr? at h
  split at h
  · rename_i e' he
    rw [he, Option.some.inj h]
  · exact nomatch h

theorem content_of_toQuantifiable? {q : Quantifiable} (h : n.toQuantifiable? = some q) :
    n.content = .expr q.expr := by
  cases n with
  | charLiteral c => exact (Option.some.inj h) ▸ rfl
  | entity e => exact (Option.some.inj h) ▸ rfl
  | charClass k => exact (Option.some.inj h) ▸ rfl
  | group g => exact (Option.some.inj h) ▸ rfl
  | quantifiable q => exact (Option.some.inj h) ▸ rfl
  | _ => exact nomatch h

theorem content_of_toSequenceable? {s : Sequenceable} (h : n.toSequenceable? = some s) :
    n.content = .expr s.expr := by
  -- whatever has no rule of its own goes through the place before
  have hplace : ∀ m : Node, m.toQuantifiable?.map Quantifiable.toSequenceable = some s →
      m.content = .expr s.expr := by
    intro m hm
    obtain ⟨q, hq, rfl⟩ := Option.map_eq_some_iff.mp hm
    exact content_of_toQuantifiable? hq
  cases n with
  | literal text => exact (Option.some.inj h) ▸ rfl
  | raw r => exact (Option.some.inj h) ▸ rfl
  | quantified q => exact (Option.some.inj h) ▸ rfl
  | sequence s => exact (Option.some.inj h) ▸ rfl
  | sequenceable s => exact (Option.some.inj h) ▸ rfl
  | _ => exact hplace _ h

theorem content_of_toAlternative? {a : Alternative} (h : n.toAlternative? = some a) :
    n.content = .expr a.expr := by
  have hplace : ∀ m : Node, m.toSequenceable?.map Sequenceable.toAlternative = some a →
      m.content = .expr a.expr := by
    intro m hm
    obtain ⟨s, hs, rfl⟩ := Option.map_eq_some_iff.mp hm
    exact content_of_toSequenceable? hs
  cases n with
  | alternation a => exact (Option.some.inj h) ▸ rfl
  | alternative a => exact (Option.some.inj h) ▸ rfl
  | _ => exact hplace _ h

theorem content_of_placed? {e : Expr} (h : n.placed? = some e) : n.content = .expr e := by
  cases n with
  | quantifiable q => exact (Option.some.inj h) ▸ rfl
  | sequenceable s => exact (Option.some.inj h) ▸ rfl
  | alternative a => exact (Option.some.inj h) ▸ rfl
  | _ => exact nomatch h

/-- An expression as a node of its own type is still the expression. -/
theorem content_ofExpr (e : Expr) : (ofExpr e).content = .expr e := by
  cases e <;> rfl

/-! ## Conversions keep text and analysis -/

theorem profile_of_content {e : Expr} (h : n.content = .expr e) : n.profile = e.profile := by
  rw [profile, h]
  rfl

theorem profile_of_toRaw? {r : Raw} (h : n.toRaw? = some r) : r.profile = n.profile := by
  cases n with
  | literal text => exact (Option.some.inj h) ▸ rfl
  | charLiteral c => exact (Option.some.inj h) ▸ profile_literal_singleton c
  | entity e => exact (Option.some.inj h) ▸ rfl
  | raw r => exact (Option.some.inj h) ▸ rfl
  | compound c => exact (Option.some.inj h) ▸ rfl
  | _ => exact nomatch h

theorem profile_of_toLiteral? {text : String} (h : n.toLiteral? = some text) :
    (literal text).profile = n.profile := by
  cases n with
  | literal text => exact (Option.some.inj h) ▸ rfl
  | charLiteral c => exact (Option.some.inj h) ▸ profile_literal_singleton c
  | _ => exact nomatch h

theorem profile_ofRaw (r : Raw) : (ofRaw r).profile = r.profile := by
  cases r with
  | compound c => rfl
  | atom a => cases a <;> rfl

/-- The pattern that the node stands for, in full. -/
def render (n : Node) : String := String.ofList n.profile.text.contents

@[simp] theorem toList_render (n : Node) : n.render.toList = n.profile.text.contents :=
  String.toList_ofList

theorem render_of_content {e : Expr} (h : n.content = .expr e) : n.render = e.render := by
  rw [render, profile_of_content h]
  rfl

theorem checkedRender_of_content {e : Expr} (h : n.content = .expr e) :
    n.checkedRender = e.checkedRender := by
  rw [checkedRender, profile_of_content h]
  rfl

/-! ## Conversions and parts are well built -/

namespace WellBuilt

theorem text_wellSized (h : n.WellBuilt) : n.profile.text.WellSized := by
  unfold WellBuilt at h
  rw [profile]
  cases hcontent : n.content with
  | expr e =>
      rw [hcontent] at h
      exact Expr.WellBuilt.text_wellSized h
  | compound c =>
      rw [hcontent] at h
      exact Profile.Agrees.wellSized h

/-- The pattern is written out exactly if there is room for it. -/
theorem checkedRender_eq_ok_iff (h : n.WellBuilt) :
    n.checkedRender = .ok n.render ↔ Text.Fits n.render :=
  h.text_wellSized.checkedRender_eq_ok_iff

theorem of_content_eq {e : Expr} (h : n.WellBuilt) (hn : n.content = .expr e) : e.WellBuilt := by
  unfold WellBuilt at h
  rw [hn] at h
  exact h

/-- A node as a raw node: a compound is coherent already, and nothing else is a compound. -/
theorem toRaw? {r : Raw} (h : n.WellBuilt) (hr : n.toRaw? = some r) : r.Coherent := by
  cases n with
  | literal text => exact (Option.some.inj hr) ▸ trivial
  | charLiteral c => exact (Option.some.inj hr) ▸ trivial
  | entity e => exact (Option.some.inj hr) ▸ trivial
  | raw r => exact (Option.some.inj hr) ▸ Expr.WellBuilt.coherent_of_raw h
  | compound c =>
      obtain rfl := Option.some.inj hr
      exact h
  | _ => exact nomatch hr

theorem toCharClass? {k : CharClass} (h : n.WellBuilt) (hk : n.toCharClass? = some k) :
    k.WellBuilt := by
  cases n with
  | charClass k => exact (Option.some.inj hk) ▸ Expr.WellBuilt.of_charClass h
  | _ => exact nomatch hk

theorem ofRaw {r : Raw} (h : r.Coherent) : (Node.ofRaw r).WellBuilt := by
  cases r with
  | compound c => exact h
  | atom a =>
      cases a with
      | entity e => exact .raw trivial
      | literal text => exact .literal text

theorem nested? {e : Expr} (h : n.WellBuilt) (he : n.nested? = some e) : e.WellBuilt := by
  cases n with
  | group g =>
      have hwhole : g.toExpr.WellBuilt := h
      exact (Option.some.inj he) ▸ hwhole.of_mem_parts (List.mem_singleton.mpr rfl)
  | _ => exact nomatch he

theorem base? {e : Expr} (h : n.WellBuilt) (he : n.base? = some e) : e.WellBuilt := by
  cases n with
  | quantified q =>
      have hwhole : q.toExpr.WellBuilt := h
      exact (Option.some.inj he) ▸ hwhole.of_mem_parts (List.mem_singleton.mpr rfl)
  | _ => exact nomatch he

theorem components? {components : List Node} (h : n.WellBuilt)
    (hcomponents : n.components? = some components) : ∀ m ∈ components, m.WellBuilt := by
  intro m hm
  cases n with
  | sequence s =>
      obtain rfl := Option.some.inj hcomponents
      obtain ⟨e, he, rfl⟩ := List.mem_map.mp hm
      have hwhole : s.toExpr.WellBuilt := h
      exact hwhole.of_mem_parts he
  | alternation a =>
      obtain rfl := Option.some.inj hcomponents
      obtain ⟨e, he, rfl⟩ := List.mem_map.mp hm
      have hwhole : a.toExpr.WellBuilt := h
      exact hwhole.of_mem_parts he
  | compound c =>
      obtain rfl := Option.some.inj hcomponents
      obtain ⟨a, _, rfl⟩ := List.mem_map.mp hm
      exact .raw trivial
  | _ => exact nomatch hcomponents

end WellBuilt

end Node

namespace Script

open Eval

/-! ## Conversions of operands -/

theorem returns_asExpr {n : Node} {e : Expr} (h : n.WellBuilt) (he : (asExpr n).Returns e) :
    e.WellBuilt :=
  h.of_content_eq (Node.content_of_toExpr? (returns_require.mp he))

theorem returns_asQuantifiable {n : Node} {q : Quantifiable} (h : n.WellBuilt)
    (hq : (asQuantifiable n).Returns q) : q.expr.WellBuilt :=
  h.of_content_eq (Node.content_of_toQuantifiable? (returns_require.mp hq))

theorem returns_asSequenceable {n : Node} {s : Sequenceable} (h : n.WellBuilt)
    (hs : (asSequenceable n).Returns s) : s.expr.WellBuilt :=
  h.of_content_eq (Node.content_of_toSequenceable? (returns_require.mp hs))

theorem returns_asAlternative {n : Node} {a : Alternative} (h : n.WellBuilt)
    (ha : (asAlternative n).Returns a) : a.expr.WellBuilt :=
  h.of_content_eq (Node.content_of_toAlternative? (returns_require.mp ha))

theorem returns_asRaw {n : Node} {r : Raw} (h : n.WellBuilt) (hr : (asRaw n).Returns r) :
    r.Coherent :=
  h.toRaw? (returns_require.mp hr)

theorem returns_asCharClass {n : Node} {k : CharClass} (h : n.WellBuilt)
    (hk : (asCharClass n).Returns k) : k.WellBuilt :=
  h.toCharClass? (returns_require.mp hk)

/-- Operands that are converted one by one are each as good as what they come from. -/
theorem returns_mapM_convert {β : Type} {convert : Node → Eval β} {Good : β → Prop}
    (hconvert : ∀ n b, n.WellBuilt → (convert n).Returns b → Good b) {parts : List Node}
    {converted : List β} (h : ∀ p ∈ parts, p.WellBuilt)
    (hall : (parts.mapM convert).Returns converted) : ∀ b ∈ converted, Good b := by
  have hforall := returns_mapM.mp hall
  clear hall
  induction hforall with
  | nil => exact fun b hb => nomatch hb
  | @cons n c ns cs hc _ ih =>
      intro b hb
      rcases List.mem_cons.mp hb with rfl | hb
      · exact hconvert n b (h n (by simp)) hc
      · exact ih (fun p hp => h p (by simp [hp])) b hb

/-! ## Constructions -/

theorem wellBuilt_of_leaf {l : Leaf} {n : Node} (h : l.build.Returns n) : n.WellBuilt := by
  cases l with
  | literal text => exact (returns_pure.mp h) ▸ Expr.WellBuilt.literal text
  | charLiteral c => exact (returns_pure.mp h) ▸ Expr.WellBuilt.charLiteral c
  | entity e => exact (returns_pure.mp h) ▸ Expr.WellBuilt.raw trivial
  | adopted pattern =>
      obtain ⟨_, _, h⟩ := returns_bind.mp h
      exact (returns_pure.mp h) ▸ Expr.WellBuilt.adopted pattern
  | classOf c => exact (returns_pure.mp h) ▸ Expr.WellBuilt.charClass (.single c)
  | classOfChars chars =>
      obtain ⟨k, hk, rfl⟩ := returns_map.mp h
      exact .charClass (CharClass.wellBuilt_ofChars (returns_checked.mp hk))
  | classOfRange first last =>
      obtain ⟨k, hk, rfl⟩ := returns_map.mp h
      exact .charClass (CharClass.wellBuilt_ofRange (returns_checked.mp hk))
  | predefined k =>
      exact (returns_pure.mp h) ▸ Expr.WellBuilt.charClass (CharClass.wellBuilt_predefined k)
  | ipv4Octet =>
      obtain ⟨_, ha, rfl⟩ := returns_map.mp h
      exact (returns_logging.mp ha) ▸ Ipv4.octet_wellBuilt
  | ipv4DottedDecimal =>
      obtain ⟨_, hs, rfl⟩ := returns_map.mp h
      exact (returns_logging.mp hs) ▸ Ipv4.dottedDecimal_wellBuilt

theorem wellBuilt_of_enclose {kinds : List GroupKind} {a n : Node} (ha : a.WellBuilt)
    (h : (enclose a kinds).Returns n) : n.WellBuilt := by
  induction kinds generalizing a with
  | nil => exact (returns_pure.mp h) ▸ ha
  | cons kind kinds ih =>
      obtain ⟨nested, hnested, h⟩ := returns_bind.mp h
      obtain ⟨g, hg, h⟩ := returns_bind.mp h
      have hgroup : (Node.group g).WellBuilt :=
        Group.wellBuilt_ofKind (returns_asExpr ha hnested) (returns_attempting.mp hg)
      exact ih hgroup h

theorem wellBuilt_of_unary {op : Unary} {a n : Node} (ha : a.WellBuilt)
    (h : (op.build a).Returns n) : n.WellBuilt := by
  cases op with
  | toLiteral =>
      obtain ⟨text, _, rfl⟩ := returns_map.mp h
      exact .literal text
  | toRaw =>
      obtain ⟨r, hr, rfl⟩ := returns_map.mp h
      exact .raw (returns_asRaw ha hr)
  | toExpr =>
      obtain ⟨e, he, rfl⟩ := returns_map.mp h
      exact returns_asExpr ha he
  | toQuantifiable =>
      obtain ⟨q, hq, rfl⟩ := returns_map.mp h
      exact returns_asQuantifiable ha hq
  | toSequenceable =>
      obtain ⟨s, hs, rfl⟩ := returns_map.mp h
      exact returns_asSequenceable ha hs
  | toAlternative =>
      obtain ⟨b, hb, rfl⟩ := returns_map.mp h
      exact returns_asAlternative ha hb
  | negate =>
      obtain ⟨k, hk, h⟩ := returns_bind.mp h
      exact (returns_pure.mp h) ▸ Expr.WellBuilt.charClass (returns_asCharClass ha hk).negate
  | quantify quantifier mode =>
      obtain ⟨base, hbase, h⟩ := returns_bind.mp h
      obtain ⟨q, hq, rfl⟩ := returns_map.mp h
      exact Quantified.wellBuilt_apply (returns_asQuantifiable ha hbase) (returns_checked.mp hq)
  | wrap kind =>
      obtain ⟨nested, hnested, h⟩ := returns_bind.mp h
      obtain ⟨g, hg, rfl⟩ := returns_map.mp h
      exact Group.wellBuilt_ofKind (returns_asExpr ha hnested) (returns_attempting.mp hg)
  | enclose kinds => exact wellBuilt_of_enclose ha h
  | enableFlag flag =>
      obtain ⟨nested, hnested, h⟩ := returns_bind.mp h
      obtain rfl := returns_pure.mp h
      exact Group.wellBuilt_build rfl (returns_asExpr ha hnested)
  | disableFlag flag =>
      obtain ⟨nested, hnested, h⟩ := returns_bind.mp h
      obtain rfl := returns_pure.mp h
      exact Group.wellBuilt_build rfl (returns_asExpr ha hnested)
  | placed =>
      obtain ⟨e, he, rfl⟩ := returns_map.mp h
      exact ha.of_content_eq (Node.content_of_placed? (returns_require.mp he))
  | unwrap =>
      obtain ⟨e, he, rfl⟩ := returns_map.mp h
      show (Node.ofExpr e).content.WellBuilt
      rw [Node.content_ofExpr]
      exact returns_asExpr ha he
  | unwrapRaw =>
      obtain ⟨r, hr, rfl⟩ := returns_map.mp h
      exact .ofRaw (returns_asRaw ha hr)
  | nested =>
      obtain ⟨e, he, rfl⟩ := returns_map.mp h
      exact ha.nested? (returns_require.mp he)
  | base =>
      obtain ⟨e, he, rfl⟩ := returns_map.mp h
      exact ha.base? (returns_require.mp he)
  | component index =>
      obtain ⟨components, hcomponents, h⟩ := returns_bind.mp h
      exact ha.components? (returns_require.mp hcomponents) n
        (List.mem_of_getElem? (returns_require.mp h))
  | asRaw =>
      obtain ⟨e, he, h⟩ := returns_bind.mp h
      obtain ⟨r, hr, rfl⟩ := returns_map.mp h
      have hwb := returns_asExpr ha he
      have hr := returns_require.mp hr
      cases e with
      | literal text => exact .raw ((Option.some.inj hr) ▸ trivial)
      | charLiteral c => exact .raw ((Option.some.inj hr) ▸ trivial)
      | raw r => exact (Option.some.inj hr) ▸ hwb
      | _ => exact nomatch hr

theorem wellBuilt_of_binary {op : Binary} {a b n : Node} (ha : a.WellBuilt) (hb : b.WellBuilt)
    (h : (op.build a b).Returns n) : n.WellBuilt := by
  cases op with
  | followedBy =>
      obtain ⟨first, hfirst, h⟩ := returns_bind.mp h
      obtain ⟨second, hsecond, h⟩ := returns_bind.mp h
      obtain ⟨s, hs, rfl⟩ := returns_map.mp h
      obtain rfl := returns_logging.mp hs
      exact Sequence.wellBuilt_pair (returns_asSequenceable ha hfirst)
        (returns_asSequenceable hb hsecond)
  | orElse =>
      obtain ⟨first, hfirst, h⟩ := returns_bind.mp h
      obtain ⟨second, hsecond, h⟩ := returns_bind.mp h
      obtain rfl := returns_pure.mp h
      exact Alternation.wellBuilt_pair (returns_asAlternative ha hfirst)
        (returns_asAlternative hb hsecond)
  | append =>
      obtain ⟨first, hfirst, h⟩ := returns_bind.mp h
      obtain ⟨second, hsecond, h⟩ := returns_bind.mp h
      obtain rfl := returns_pure.mp h
      refine .raw (coherent_ofParts ?_)
      simp [returns_asRaw ha hfirst, returns_asRaw hb hsecond]
  | unite =>
      obtain ⟨first, hfirst, h⟩ := returns_bind.mp h
      obtain ⟨second, hsecond, h⟩ := returns_bind.mp h
      obtain rfl := returns_pure.mp h
      exact .charClass ((returns_asCharClass ha hfirst).unite (returns_asCharClass hb hsecond))
  | intersect =>
      obtain ⟨first, hfirst, h⟩ := returns_bind.mp h
      obtain ⟨second, hsecond, h⟩ := returns_bind.mp h
      obtain rfl := returns_pure.mp h
      exact .charClass ((returns_asCharClass ha hfirst).intersect (returns_asCharClass hb hsecond))

/-- The operands that a joining construction takes of those that it is given. -/
def Arity.taken {α : Type} : Arity → List α → List α
  | pair, items => items.take 2
  | _, items => items

namespace Arity

variable {α : Type} {items : List α}

theorem mem_of_mem_taken {arity : Arity} {a : α} (h : a ∈ arity.taken items) : a ∈ items := by
  cases arity with
  | pair => exact List.mem_of_mem_take h
  | chain => exact h
  | list => exact h

theorem two_le_length_taken (arity : Arity) (h : 2 ≤ items.length) :
    2 ≤ (arity.taken items).length := by
  cases arity with
  | pair =>
      show 2 ≤ (items.take 2).length
      rw [List.length_take]
      omega
  | chain => exact h
  | list => exact h

theorem taken_of_length {arity : Arity} (h : arity = pair → items.length = 2) :
    arity.taken items = items := by
  cases arity with
  | pair => exact List.take_of_length_le (Nat.le_of_eq (h rfl))
  | chain => rfl
  | list => rfl

end Arity

/-- Whatever the arity, a sequence is made of the items taken, if at least two are given. -/
theorem returns_sequenceOf {arity : Arity} {items : List Sequenceable} {s : Sequence} :
    (sequenceOf arity items).Returns s ↔
      2 ≤ items.length ∧ (Sequence.ofItems (arity.taken items)).value = s := by
  cases arity with
  | pair | chain =>
      -- too few items for the call, and at least two
      rcases items with _ | ⟨first, _ | ⟨second, rest⟩⟩
      · exact ⟨fun h => (returns_throw.mp h).elim, fun h => absurd h.1 (by simp)⟩
      · exact ⟨fun h => (returns_throw.mp h).elim, fun h => absurd h.1 (by simp)⟩
      · exact ⟨fun h => ⟨by simp, returns_logging.mp h⟩, fun h => returns_logging.mpr h.2⟩
  | list => exact returns_building.trans Sequence.ofList_eq_ok_iff

theorem returns_alternationOf {arity : Arity} {items : List Alternative} {a : Alternation} :
    (alternationOf arity items).Returns a ↔
      2 ≤ items.length ∧ Alternation.ofItems (arity.taken items) = a := by
  cases arity with
  | pair | chain =>
      -- too few items for the call, and at least two
      rcases items with _ | ⟨first, _ | ⟨second, rest⟩⟩
      · exact ⟨fun h => (returns_throw.mp h).elim, fun h => absurd h.1 (by simp)⟩
      · exact ⟨fun h => (returns_throw.mp h).elim, fun h => absurd h.1 (by simp)⟩
      · exact ⟨fun h => ⟨by simp, returns_pure.mp h⟩, fun h => returns_pure.mpr h.2⟩
  | list => exact returns_checked.trans Alternation.ofList_eq_ok_iff

theorem wellBuilt_of_sequenceOf {arity : Arity} {items : List Sequenceable} {s : Sequence}
    (hitems : ∀ i ∈ items, i.expr.WellBuilt) (h : (sequenceOf arity items).Returns s) :
    s.toExpr.WellBuilt := by
  obtain ⟨hseveral, rfl⟩ := returns_sequenceOf.mp h
  exact Sequence.wellBuilt_ofItems (ne_nil_of_several (arity.two_le_length_taken hseveral))
    fun i hi => hitems i (Arity.mem_of_mem_taken hi)

theorem wellBuilt_of_alternationOf {arity : Arity} {items : List Alternative} {a : Alternation}
    (hitems : ∀ i ∈ items, i.expr.WellBuilt) (h : (alternationOf arity items).Returns a) :
    a.toExpr.WellBuilt := by
  obtain ⟨hseveral, rfl⟩ := returns_alternationOf.mp h
  exact Alternation.wellBuilt_ofItems (arity.two_le_length_taken hseveral)
    fun i hi => hitems i (Arity.mem_of_mem_taken hi)

theorem wellBuilt_of_combineLeft {op : Binary} {ns : List Node} {acc n : Node}
    (hacc : acc.WellBuilt) (hns : ∀ m ∈ ns, m.WellBuilt) (h : (combineLeft op acc ns).Returns n) :
    n.WellBuilt := by
  induction ns generalizing acc with
  | nil => exact (returns_pure.mp h) ▸ hacc
  | cons m ns ih =>
      obtain ⟨next, hnext, h⟩ := returns_bind.mp h
      exact ih (wellBuilt_of_binary hacc (hns m (by simp)) hnext)
        (fun k hk => hns k (by simp [hk])) h

theorem wellBuilt_of_combineRight {op : Binary} {ns : List Node} {first n : Node}
    (hfirst : first.WellBuilt) (hns : ∀ m ∈ ns, m.WellBuilt)
    (h : (combineRight op first ns).Returns n) : n.WellBuilt := by
  induction ns generalizing first n with
  | nil => exact (returns_pure.mp h) ▸ hfirst
  | cons m ns ih =>
      obtain ⟨rest, hrest, h⟩ := returns_bind.mp h
      have hrest := ih (hns m (by simp)) (fun k hk => hns k (by simp [hk])) hrest
      exact wellBuilt_of_binary hfirst hrest h

theorem wellBuilt_of_combine {op : Binary} {side : Side} {ns : List Node} {n : Node}
    (hns : ∀ m ∈ ns, m.WellBuilt) (h : (combine op side ns).Returns n) : n.WellBuilt := by
  cases ns with
  | nil => exact (returns_throw.mp h).elim
  | cons m ns =>
      have hrest : ∀ k ∈ ns, k.WellBuilt := fun k hk => hns k (by simp [hk])
      cases side with
      | left => exact wellBuilt_of_combineLeft (hns m (by simp)) hrest h
      | right => exact wellBuilt_of_combineRight (hns m (by simp)) hrest h

theorem wellBuilt_of_nary {op : Nary} {parts : List Node} {n : Node}
    (hparts : ∀ p ∈ parts, p.WellBuilt) (h : (op.build parts).Returns n) : n.WellBuilt := by
  cases op with
  | compound =>
      obtain ⟨raws, hraws, h⟩ := returns_bind.mp h
      obtain rfl := returns_pure.mp h
      exact coherent_ofParts (returns_mapM_convert (fun _ _ => returns_asRaw) hparts hraws)
  | sequence arity =>
      obtain ⟨items, hitems, h⟩ := returns_bind.mp h
      obtain ⟨s, hs, rfl⟩ := returns_map.mp h
      exact wellBuilt_of_sequenceOf
        (returns_mapM_convert (fun _ _ => returns_asSequenceable) hparts hitems) hs
  | alternation arity =>
      obtain ⟨items, hitems, h⟩ := returns_bind.mp h
      obtain ⟨a, ha, rfl⟩ := returns_map.mp h
      exact wellBuilt_of_alternationOf
        (returns_mapM_convert (fun _ _ => returns_asAlternative) hparts hitems) ha
  | combine op side times =>
      refine wellBuilt_of_combine (fun m hm => ?_) h
      obtain ⟨copy, hcopy, hm⟩ := List.mem_flatten.mp hm
      rw [List.eq_of_mem_replicate hcopy] at hm
      exact hparts m hm

/-! ## Constructible nodes -/

/-- A node that some row of constructions and conversions has as its value. -/
inductive Constructible : Node → Prop where
  | leaf (l : Leaf) {n : Node} (value : l.build.Returns n) : Constructible n
  | unary (op : Unary) {a n : Node} (operand : Constructible a) (value : (op.build a).Returns n) :
      Constructible n
  | binary (op : Binary) {a b n : Node} (first : Constructible a) (second : Constructible b)
      (value : (op.build a b).Returns n) : Constructible n
  | nary (op : Nary) {parts : List Node} {n : Node} (operands : ∀ p ∈ parts, Constructible p)
      (value : (op.build parts).Returns n) : Constructible n

/-- Every constructible node is well built. -/
theorem Constructible.wellBuilt {n : Node} (h : Constructible n) : n.WellBuilt := by
  induction h with
  | leaf _ value => exact wellBuilt_of_leaf value
  | unary _ _ value ih => exact wellBuilt_of_unary ih value
  | binary _ _ _ value ih₁ ih₂ => exact wellBuilt_of_binary ih₁ ih₂ value
  | nary _ _ value ih => exact wellBuilt_of_nary ih value

/-! ## Scripts build constructible nodes -/

mutual

/-- The value of a term is constructible if the values that it may refer to are. -/
theorem constructible_of_eval {values : Values}
    (hvalues : ∀ m, some m ∈ values.toList → Constructible m) :
    ∀ {t : Term} {n : Node}, (t.eval values).Returns n → Constructible n
  | .value step, n, h => by
    rw [Term.eval, valueAt] at h
    have hstep : values[step]? = some (some n) := Option.join_eq_some_iff.mp (returns_require.mp h)
    exact hvalues n (List.mem_of_getElem? (by rw [Array.getElem?_toList, hstep]))
  | .leaf l, n, h => by
    rw [Term.eval] at h
    exact .leaf l h
  | .unary op a, n, h => by
    rw [Term.eval] at h
    obtain ⟨x, hx, h⟩ := returns_bind.mp h
    exact .unary op (constructible_of_eval hvalues hx) h
  | .binary op a b, n, h => by
    rw [Term.eval] at h
    obtain ⟨x, hx, h⟩ := returns_bind.mp h
    obtain ⟨y, hy, h⟩ := returns_bind.mp h
    exact .binary op (constructible_of_eval hvalues hx) (constructible_of_eval hvalues hy) h
  | .nary op parts, n, h => by
    rw [Term.eval] at h
    obtain ⟨xs, hxs, h⟩ := returns_bind.mp h
    exact .nary op (constructible_of_evalAll hvalues hxs) h

theorem constructible_of_evalAll {values : Values}
    (hvalues : ∀ m, some m ∈ values.toList → Constructible m) :
    ∀ {ts : List Term} {ns : List Node}, (Term.evalAll values ts).Returns ns →
      ∀ n ∈ ns, Constructible n
  | [], ns, h => by
    rw [Term.evalAll] at h
    obtain rfl := returns_pure.mp h
    exact fun n hn => nomatch hn
  | t :: ts, ns, h => by
    rw [Term.evalAll] at h
    obtain ⟨x, hx, h⟩ := returns_bind.mp h
    obtain ⟨xs, hxs, h⟩ := returns_bind.mp h
    obtain rfl := returns_pure.mp h
    intro n hn
    rcases List.mem_cons.mp hn with rfl | hn
    · exact constructible_of_eval hvalues hx
    · exact constructible_of_evalAll hvalues hxs n hn

end

theorem constructible_of_answer {values : Values}
    (hvalues : ∀ m, some m ∈ values.toList → Constructible m) {step : Step} {n : Node}
    (h : (step.answer values).Returns (.built n)) : Constructible n := by
  cases step with
  | build t =>
      obtain ⟨m, hm, heq⟩ := returns_map.mp h
      obtain rfl := Answer.built.inj heq
      exact constructible_of_eval hvalues hm
  | compare a b =>
      obtain ⟨x, _, h⟩ := returns_bind.mp h
      obtain ⟨y, _, h⟩ := returns_bind.mp h
      unfold Script.compare at h
      split at h
      · exact nomatch returns_pure.mp h
      · exact (returns_throw.mp h).elim
  | render t =>
      obtain ⟨x, _, h⟩ := returns_bind.mp h
      obtain ⟨text, _, heq⟩ := returns_map.mp h
      exact nomatch heq
  | inspect t =>
      obtain ⟨x, _, h⟩ := returns_bind.mp h
      exact nomatch returns_pure.mp h
  | escaped t =>
      obtain ⟨x, _, h⟩ := returns_bind.mp h
      obtain ⟨y, _, h⟩ := returns_bind.mp h
      obtain ⟨text, _, h⟩ := returns_bind.mp h
      exact nomatch returns_pure.mp h

/-- The steps of a script never bring in a node that is not constructible. -/
theorem constructible_of_outcomes {steps : List Step} {values : Values}
    (hvalues : ∀ m, some m ∈ values.toList → Constructible m) {o : Outcome}
    (ho : o ∈ outcomes values steps) {n : Node} (hn : o.value = .ok (.built n)) :
    Constructible n := by
  induction steps generalizing values with
  | nil => exact nomatch ho
  | cons step steps ih =>
      rcases List.mem_cons.mp ho with rfl | ho
      · exact constructible_of_answer hvalues hn
      · refine ih ?_ ho
        intro m hm
        rw [Array.toList_push] at hm
        rcases List.mem_append.mp hm with hm | hm
        · exact hvalues m hm
        · -- the new value is the node that the step has built
          have hnode := (List.mem_singleton.mp hm).symm
          unfold Outcome.node? at hnode
          split at hnode
          · rename_i a ha
            cases a with
            | built n' =>
                obtain rfl := Option.some.inj hnode
                exact constructible_of_answer hvalues ha
            | _ => exact nomatch hnode
          · exact nomatch hnode

/-- Every node that a script builds is constructible. -/
theorem constructible_of_run {steps : List Step} {o : Outcome} (ho : o ∈ run steps) {n : Node}
    (hn : o.value = .ok (.built n)) : Constructible n :=
  constructible_of_outcomes (by simp) ho hn

end Script

/-- An expression that some row of constructions and conversions has as its value. -/
def Expr.Constructible (e : Expr) : Prop := Script.Constructible (.expr e)

theorem Expr.Constructible.wellBuilt {e : Expr} (h : e.Constructible) : e.WellBuilt :=
  Script.Constructible.wellBuilt h

end PatternAlgebra
