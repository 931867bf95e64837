import Mathlib.Data.List.Forall2
import PatternAlgebra.Script.Eval
/-!
# When an evaluation has a value

An evaluation logs events and may fail.  `Returns` says that it has a value and which one; what it
logs on the way does not matter.  `Reports` says the events as well.  The lemmas below take an
evaluation apart along the way it was put together, so that no proof about a construction has to
look into the monad.
-/

namespace PatternAlgebra.Script.Eval

variable {α β : Type}

/-- The evaluation succeeds with a value. -/
def Returns (x : Eval α) (a : α) : Prop := x.run.value = .ok a

@[simp] theorem returns_pure {a b : α} : (pure a : Eval α).Returns b ↔ a = b := by
  constructor
  · exact fun h => Except.ok.inj h
  · exact fun h => congrArg Except.ok h

@[simp] theorem returns_throw {e : Failure} {a : α} : (throw e : Eval α).Returns a ↔ False := by
  constructor
  · exact fun h => nomatch (show (Except.error e : Except Failure α) = .ok a from h)
  · exact False.elim

/-- A computation in two steps has a value if the first has one and the second has one for it. -/
@[simp] theorem returns_bind {x : Eval α} {f : α → Eval β} {b : β} :
    (x >>= f).Returns b ↔ ∃ a, x.Returns a ∧ (f a).Returns b := by
  have hrun : (x >>= f).run.value
      = (match x.run.value with
        | .ok a => (f a).run
        | .error e => pure (.error e) : Logged (Except Failure β)).value := by
    show (Logged.andThen _ _).value = _
    rw [Logged.andThen]
    show (ExceptT.bindCont f x.run.value).value = _
    cases x.run.value <;> rfl
  unfold Returns
  rw [hrun]
  cases hx : x.run.value with
  | error e =>
      constructor
      · exact fun h => nomatch (show (Except.error e : Except Failure β) = .ok b from h)
      · rintro ⟨a, ha, _⟩
        exact nomatch ha
  | ok a =>
      constructor
      · exact fun h => ⟨a, rfl, h⟩
      · rintro ⟨a', ha', h⟩
        obtain rfl := Except.ok.inj ha'
        exact h

@[simp] theorem returns_map {f : α → β} {x : Eval α} {b : β} :
    (f <$> x).Returns b ↔ ∃ a, x.Returns a ∧ f a = b := by
  have hbind : f <$> x = x >>= fun a => pure (f a) := rfl
  rw [hbind, returns_bind]
  simp only [returns_pure]

@[simp] theorem returns_logging {x : Logged α} {a : α} :
    (logging x).Returns a ↔ x.value = a := by
  constructor
  · exact fun h => Except.ok.inj h
  · exact fun h => congrArg Except.ok h

@[simp] theorem returns_checked {x : Except BuildError α} {a : α} :
    (checked x).Returns a ↔ x = .ok a := by
  cases x with
  | error e =>
      rw [checked, returns_throw]
      exact ⟨False.elim, fun h => nomatch h⟩
  | ok b =>
      rw [checked, returns_pure]
      exact ⟨congrArg Except.ok, Except.ok.inj⟩

@[simp] theorem returns_building {x : Logged (Except BuildError α)} {a : α} :
    (building x).Returns a ↔ x.value = .ok a := by
  rw [building, returns_bind]
  simp only [returns_logging, returns_checked, exists_eq_left']

@[simp] theorem returns_guarded {x : Except Fault α} {a : α} :
    (guarded x).Returns a ↔ x = .ok a := by
  cases x with
  | error f =>
      rw [guarded, returns_throw]
      exact ⟨False.elim, fun h => nomatch h⟩
  | ok b =>
      rw [guarded, returns_pure]
      exact ⟨congrArg Except.ok, Except.ok.inj⟩

@[simp] theorem returns_attempting {x : Except Fault (Logged (Except BuildError α))} {a : α} :
    (attempting x).Returns a ↔ ∃ made, x = .ok made ∧ made.value = .ok a := by
  rw [attempting, returns_bind]
  simp only [returns_guarded, returns_building]

@[simp] theorem returns_require {found : Option α} {failure : Failure} {a : α} :
    (require found failure).Returns a ↔ found = some a := by
  cases found with
  | none => simp [require]
  | some b => simp [require]

/-- Evaluating for every item has as its value a list of the values, item by item. -/
@[simp] theorem returns_mapM {f : α → Eval β} {xs : List α} {ys : List β} :
    (xs.mapM f).Returns ys ↔ List.Forall₂ (fun x y => (f x).Returns y) xs ys := by
  -- the values are collected in reverse, so the induction is over the loop and for any collection
  suffices hloop : ∀ acc : List β, (List.mapM.loop f xs acc).Returns ys ↔
      ∃ zs, List.Forall₂ (fun x y => (f x).Returns y) xs zs ∧ acc.reverse ++ zs = ys by
    rw [List.mapM, hloop]
    simp
  induction xs with
  | nil =>
      intro acc
      rw [List.mapM.loop, returns_pure]
      constructor
      · rintro rfl
        exact ⟨[], .nil, List.append_nil _⟩
      · rintro ⟨zs, hzs, rfl⟩
        cases hzs
        exact (List.append_nil _).symm
  | cons x xs ih =>
      intro acc
      rw [List.mapM.loop, returns_bind]
      simp only [ih]
      constructor
      · rintro ⟨y, hy, zs, hzs, rfl⟩
        exact ⟨y :: zs, .cons hy hzs, by simp⟩
      · rintro ⟨zs, hzs, rfl⟩
        cases hzs with
        | @cons _ y _ zs hy hzs => exact ⟨y, hy, zs, hzs, by simp⟩

/-! ## Evaluations and their events -/

/-- The evaluation succeeds with a value, and these are the events of it, oldest first. -/
def Reports (x : Eval α) (a : α) (events : List Event) : Prop := x.run = ⟨.ok a, events⟩

theorem Reports.returns {x : Eval α} {a : α} {events : List Event} (h : x.Reports a events) :
    x.Returns a := congrArg Logged.value h

theorem reports_pure (a : α) : (pure a : Eval α).Reports a [] := rfl

theorem Reports.bind {x : Eval α} {f : α → Eval β} {a : α} {b : β} {events later : List Event}
    (h : x.Reports a events) (hnext : (f a).Reports b later) :
    (x >>= f).Reports b (events ++ later) := by
  show Logged.andThen x.run (ExceptT.bindCont f) = _
  rw [Logged.andThen, show x.run = ⟨.ok a, events⟩ from h]
  show (⟨(f a).run.value, events ++ (f a).run.events⟩ : Logged (Except Failure β)) = _
  rw [show (f a).run = ⟨.ok b, later⟩ from hnext]

theorem Reports.map {x : Eval α} {a : α} {events : List Event} (h : x.Reports a events)
    (f : α → β) : (f <$> x).Reports (f a) events := by
  have hbind : (x >>= fun a => pure (f a)).Reports (f a) (events ++ []) :=
    h.bind (reports_pure (f a))
  rwa [List.append_nil] at hbind

theorem reports_logging (x : Logged α) : (logging x).Reports x.value x.events := by
  show (⟨.ok x.value, x.events ++ []⟩ : Logged (Except Failure α)) = _
  rw [List.append_nil]

theorem reports_building {x : Logged (Except BuildError α)} {a : α} (h : x.value = .ok a) :
    (building x).Reports a x.events := by
  have hchecked : (checked x.value).Reports a [] := by
    rw [h]
    exact reports_pure a
  have hbind := (reports_logging x).bind hchecked
  rwa [List.append_nil] at hbind

/-- Evaluating for every item without events is without events. -/
theorem reports_mapM {f : α → Eval β} {xs : List α} {ys : List β}
    (h : List.Forall₂ (fun x y => (f x).Reports y []) xs ys) : (xs.mapM f).Reports ys [] := by
  suffices hloop : ∀ acc : List β, (List.mapM.loop f xs acc).Reports (acc.reverse ++ ys) [] from
    hloop []
  induction h with
  | nil =>
      intro acc
      rw [List.mapM.loop, List.append_nil]
      exact reports_pure acc.reverse
  | @cons x y xs ys hhead _ ih =>
      intro acc
      have htail := ih (y :: acc)
      rw [List.reverse_cons, List.append_assoc, List.singleton_append] at htail
      rw [List.mapM.loop]
      exact hhead.bind htail

/-! ## Evaluations that follow one another -/

/-- Wherever the second evaluation has a value, the first has one that is related to it. -/
def Follows (R : α → β → Prop) (x : Eval α) (y : Eval β) : Prop :=
  ∀ b, y.Returns b → ∃ a, x.Returns a ∧ R a b

namespace Follows

variable {α' β' : Type} {R : α → β → Prop} {S : α' → β' → Prop} {x : Eval α} {y : Eval β}

theorem pure {a : α} {b : β} (h : R a b) : Follows R (Pure.pure a) (Pure.pure b) := by
  intro b' hb
  obtain rfl := returns_pure.mp hb
  exact ⟨a, returns_pure.mpr rfl, h⟩

theorem bind {f : α → Eval α'} {g : β → Eval β'} (h : Follows R x y)
    (hnext : ∀ a b, R a b → Follows S (f a) (g b)) : Follows S (x >>= f) (y >>= g) := by
  intro c hc
  obtain ⟨b, hb, hc⟩ := returns_bind.mp hc
  obtain ⟨a, ha, hab⟩ := h b hb
  obtain ⟨d, hd, hdc⟩ := hnext a b hab c hc
  exact ⟨d, returns_bind.mpr ⟨a, ha, hd⟩, hdc⟩

theorem map {f : α → α'} {g : β → β'} (h : Follows R x y) (hmap : ∀ a b, R a b → S (f a) (g b)) :
    Follows S (f <$> x) (g <$> y) :=
  h.bind fun a b hab => .pure (hmap a b hab)

theorem mapM {f : α → Eval α'} {g : β → Eval β'} {xs : List α} {ys : List β}
    (h : List.Forall₂ R xs ys) (hitem : ∀ a b, R a b → Follows S (f a) (g b)) :
    Follows (List.Forall₂ S) (xs.mapM f) (ys.mapM g) := by
  intro ds hreturns
  induction h generalizing ds with
  | nil =>
      cases returns_mapM.mp hreturns
      exact ⟨[], returns_mapM.mpr .nil, .nil⟩
  | @cons a b as bs hab _ ih =>
      cases returns_mapM.mp hreturns with
      | @cons _ d _ ds hd hds =>
          obtain ⟨c, hc, hcd⟩ := hitem a b hab d hd
          obtain ⟨cs, hcs, hall⟩ := ih ds (returns_mapM.mpr hds)
          exact ⟨c :: cs, returns_mapM.mpr (.cons hc (returns_mapM.mp hcs)), .cons hcd hall⟩

end Follows

end PatternAlgebra.Script.Eval

/-! ## Lists that agree item by item -/

namespace PatternAlgebra

variable {α β γ : Type} {xs : List α} {ys : List β}

/-- Items that all have an image have a list of images. -/
theorem exists_forall₂_of_isSome {f : α → Option β} (h : ∀ x ∈ xs, (f x).isSome) :
    ∃ ys, List.Forall₂ (fun x y => f x = some y) xs ys := by
  induction xs with
  | nil => exact ⟨[], .nil⟩
  | cons x xs ih =>
      obtain ⟨y, hy⟩ := Option.isSome_iff_exists.mp (h x (by simp))
      obtain ⟨ys, hys⟩ := ih fun z hz => h z (by simp [hz])
      exact ⟨y :: ys, .cons hy hys⟩

theorem map_eq_of_forall₂ {f : α → γ} {g : β → γ}
    (h : List.Forall₂ (fun x y => f x = g y) xs ys) : xs.map f = ys.map g := by
  induction h with
  | nil => rfl
  | cons hhead _ ih => rw [List.map_cons, List.map_cons, hhead, ih]

theorem flatMap_eq_of_forall₂ {f : α → List γ} {g : β → List γ}
    (h : List.Forall₂ (fun x y => f x = g y) xs ys) : xs.flatMap f = ys.flatMap g := by
  rw [List.flatMap_def, List.flatMap_def, map_eq_of_forall₂ h]

end PatternAlgebra
