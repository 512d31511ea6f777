import JvmLift.Element

namespace JvmLift

namespace Shape

variable {ε δ γ : Type}

theorem children_map (f : ε → δ) (s : Shape ε) : (s.map f).children = s.children.map f := by
  cases s with
  | field a =>
    obtain ⟨target⟩ := a
    cases target <;> rfl
  | assignField a value =>
    obtain ⟨target⟩ := a
    cases target <;> rfl
  | call c =>
    obtain ⟨_, _, _, target⟩ := c
    cases target <;> simp [map]
  | lambda l =>
    obtain ⟨receiver⟩ := l
    cases receiver <;> rfl
  | newArray ty component length initializers => simp [map]
  | _ => rfl

theorem map_map (f : ε → δ) (g : δ → γ) (s : Shape ε) : (s.map f).map g = s.map (g ∘ f) := by
  cases s <;> simp [map]

-- What is done to a layer depends on what is done to the elements below it only.
theorem map_congr {f g : ε → δ} {s : Shape ε} (h : ∀ c ∈ s.children, f c = g c) :
    s.map f = s.map g := by
  cases s with
  | field a =>
    obtain ⟨target⟩ := a
    cases target <;> simp_all [map]
  | assignField a value =>
    obtain ⟨target⟩ := a
    cases target <;> simp_all [map]
  | call c =>
    obtain ⟨_, _, _, target⟩ := c
    cases target <;> simp_all [map]
  | lambda l =>
    obtain ⟨receiver⟩ := l
    cases receiver <;> simp_all [map]
  | newArray ty component length initializers =>
    simp only [children, List.mem_cons, List.mem_map, forall_eq_or_imp] at h
    simp only [map, h.1, newArray.injEq, true_and]
    apply List.map_congr_left
    intro e he
    rw [h.2 e.2 ⟨e, he, rfl⟩]
  | _ => simp_all [map]

theorem map_id (s : Shape ε) : s.map id = s := by
  cases s <;> simp [map]

end Shape

namespace Element

-- A property holds of a tree if it passes from the trees directly below to the tree above.
@[elab_as_elim]
theorem children_induction {p : Element → Prop} (h : ∀ e, (∀ c ∈ e.children, p c) → p e)
    (e : Element) : p e :=
  h e fun c _ => children_induction h c
termination_by sizeOf e
decreasing_by exact sizeOf_children_lt ‹_›

-- What passes a test that no jump passes is none.
theorem kind_ne_jump {test : Element → Bool} {e : Element}
    (hjump : ∀ target stamp, test ⟨.jump target, stamp⟩ = false) (h : test e) : e.kind ≠ .jump := by
  obtain ⟨shape, stamp⟩ := e
  cases shape with
  | jump target => exact absurd h (by simp [hjump])
  | _ => exact nofun

section Subterms

theorem subterms_mk (shape : Shape Element) (stamp : Stamp) :
    subterms ⟨shape, stamp⟩ = ⟨shape, stamp⟩ :: shape.children.flatMap subterms := by
  let layer (shape : Shape (Element × List Element)) (stamp : Stamp) :
      Element × List Element :=
    (⟨shape.map (·.1), stamp⟩, ⟨shape.map (·.1), stamp⟩ :: shape.children.flatMap (·.2))
  -- the first component gives the tree itself back
  have hself : ∀ e : Element, (e.fold layer).1 = e := by
    apply children_induction
    intro e ih
    obtain ⟨shape, stamp⟩ := e
    have hm : shape.map ((·.1) ∘ fold layer) = shape.map id := Shape.map_congr ih
    rw [fold_mk]
    simp only [layer, Shape.map_map, hm, Shape.map_id]
  have hm : shape.map ((·.1) ∘ fold layer) = shape.map id :=
    Shape.map_congr fun c _ => hself c
  have hs : subterms ⟨shape, stamp⟩ = (fold layer ⟨shape, stamp⟩).2 := rfl
  rw [hs, fold_mk]
  simp only [layer, Shape.map_map, hm, Shape.map_id, Shape.children_map, List.flatMap_map]
  rfl

theorem contains_mk (shape : Shape Element) (stamp : Stamp) (p : Element → Bool) :
    contains ⟨shape, stamp⟩ p = (p ⟨shape, stamp⟩ || shape.children.any (contains · p)) := by
  rw [contains, subterms_mk, List.any_cons, List.any_flatMap]
  rfl

end Subterms

-- The tree without its stamps.
def bare (e : Element) : Element :=
  e.fold fun shape _ => ofShape shape

theorem bare_mk (shape : Shape Element) (stamp : Stamp) :
    bare ⟨shape, stamp⟩ = ofShape (shape.map bare) :=
  fold_mk _ _ _

@[simp]
theorem bare_stamped (e : Element) (stamp : Stamp) : (e.stamped stamp).bare = e.bare := by
  obtain ⟨shape, old⟩ := e
  rw [stamped, bare_mk, bare_mk]

@[simp]
theorem kind_bare (e : Element) : e.bare.kind = e.kind := by
  obtain ⟨shape, stamp⟩ := e
  rw [bare_mk]
  cases shape <;> rfl

@[simp]
theorem ty_bare (e : Element) : e.bare.ty = e.ty := by
  obtain ⟨shape, stamp⟩ := e
  rw [bare_mk]
  cases shape <;> rfl

@[simp]
theorem isStatement_bare (e : Element) : e.bare.isStatement = e.isStatement := by
  obtain ⟨shape, stamp⟩ := e
  rw [bare_mk]
  cases shape <;> rfl

@[simp]
theorem isUnfinished_bare (e : Element) : e.bare.isUnfinished = e.isUnfinished := by
  obtain ⟨shape, stamp⟩ := e
  rw [bare_mk]
  cases shape <;> rfl

-- A property that does not see stamps is found in a tree with them and without them.
theorem contains_bare {p : Element → Bool} (hp : ∀ e, p (bare e) = p e) (e : Element) :
    e.bare.contains p = e.contains p := by
  induction e using children_induction with | h e ih =>
  obtain ⟨shape, stamp⟩ := e
  have hroot := hp ⟨shape, stamp⟩
  have hbelow : shape.children.any (fun c => c.bare.contains p) =
      shape.children.any (fun c => c.contains p) := by
    rw [Bool.eq_iff_iff, List.any_eq_true, List.any_eq_true]
    exact exists_congr fun c => and_congr_right fun hc => by rw [ih c hc]
  rw [bare_mk] at hroot ⊢
  rw [ofShape, contains_mk, contains_mk, Shape.children_map, List.any_map, ← hroot]
  exact congrArg _ hbelow

end Element

end JvmLift
