import JvmLift.Proofs.Merging
import JvmLift.Render.Rule
import Mathlib.Data.List.Basic

namespace JvmLift

namespace Priority

variable {ρ : Type} (priority : ρ → Priority) {xs ys : List ρ}

-- The choice between what two parts offer. The second one is chosen if the first one offers
-- nothing, or something of a lower priority.
def prefer : Option ρ → Option ρ → Option ρ
  | first, none => first
  | none, some y => some y
  | some x, some y => if (priority y).rank ≤ (priority x).rank then some x else some y

-- Nothing of a lower priority stands in front of anything of a higher one.
def Descending (xs : List ρ) : Prop :=
  xs.Pairwise fun a b => (priority b).rank ≤ (priority a).rank

-- Sorting takes what is above a priority before it, and what is below it afterwards.
theorem exists_split (p : Priority) :
    ∃ above below, all.reverse = above ++ p :: below ∧ (∀ q ∈ above, p.rank < q.rank) ∧
      p ∉ below := by
  refine ⟨all.reverse.takeWhile (· ≠ p), (all.reverse.dropWhile (· ≠ p)).tail, ?_⟩
  cases p <;> decide

-- Whatever is above all that stands in front of it, and not below anything behind it, comes first.
theorem sort_append_cons {y : ρ} (hx : ∀ x ∈ xs, (priority x).rank < (priority y).rank)
    (hy : ∀ x ∈ ys, (priority x).rank ≤ (priority y).rank) :
    sort priority (xs ++ y :: ys) = y :: sort priority (xs ++ ys) := by
  obtain ⟨above, below, hall, habove, hbelow⟩ := exists_split (priority y)
  have hnone (zs : List ρ) (hz : ∀ z ∈ zs, (priority z).rank ≤ (priority y).rank) :
      (above.flatMap fun q => zs.filter (priority · = q)) = [] := by
    simp only [List.flatMap_eq_nil_iff, List.filter_eq_nil_iff, decide_eq_true_eq]
    rintro q hq z hmem rfl
    have hle := hz z hmem
    have hlt := habove _ hq
    omega
  have hrest : (below.flatMap fun q => (xs ++ y :: ys).filter (priority · = q)) =
      below.flatMap fun q => (xs ++ ys).filter (priority · = q) := by
    apply List.flatMap_congr
    intro q hq
    have hne : priority y ≠ q := fun h => hbelow (h ▸ hq)
    simp [hne]
  have hfront : xs.filter (priority · = priority y) = [] := by
    simp only [List.filter_eq_nil_iff, decide_eq_true_eq]
    intro x hmem heq
    have hlt := hx x hmem
    rw [heq] at hlt
    omega
  have hle : ∀ x ∈ xs ++ ys, (priority x).rank ≤ (priority y).rank := by
    intro x hmem
    rcases List.mem_append.1 hmem with h | h
    · exact Nat.le_of_lt (hx x h)
    · exact hy x h
  have hle' : ∀ x ∈ xs ++ y :: ys, (priority x).rank ≤ (priority y).rank := by
    simp only [List.mem_append, List.mem_cons] at hle ⊢
    rintro x (h | rfl | h)
    · exact hle x (.inl h)
    · exact Nat.le_refl _
    · exact hle x (.inr h)
  simp only [sort, hall, List.flatMap_append, List.flatMap_cons, hnone _ hle, hnone _ hle', hrest,
    List.nil_append]
  simp [hfront]

theorem sort_cons {y : ρ} (hy : ∀ x ∈ ys, (priority x).rank ≤ (priority y).rank) :
    sort priority (y :: ys) = y :: sort priority ys :=
  sort_append_cons priority (List.forall_mem_nil _) hy

-- What is in order already is not moved.
theorem sort_of_descending (h : Descending priority xs) : sort priority xs = xs := by
  induction xs with
  | nil => rfl
  | cons x xs ih =>
    obtain ⟨hx, hxs⟩ := List.pairwise_cons.1 h
    rw [sort_cons priority hx, ih hxs]

-- Sorting decides about what passes a test as if nothing else were there.
theorem filter_sort_eq (p : ρ → Bool) :
    (sort priority xs).filter p = sort priority (xs.filter p) := by
  simp only [sort, List.filter_flatMap, List.filter_filter, Bool.and_comm]

-- The first one of two ordered lists together is the first one of either of them.
theorem head?_sort_append (hx : Descending priority xs) (hy : Descending priority ys) :
    (sort priority (xs ++ ys)).head? = prefer priority xs.head? ys.head? := by
  cases ys with
  | nil =>
    rw [List.append_nil, sort_of_descending priority hx]
    rfl
  | cons y ys =>
    cases xs with
    | nil =>
      rw [List.nil_append, sort_of_descending priority hy]
      rfl
    | cons x xs =>
      obtain ⟨hfirst, -⟩ := List.pairwise_cons.1 hx
      obtain ⟨hsecond, -⟩ := List.pairwise_cons.1 hy
      by_cases hle : (priority y).rank ≤ (priority x).rank
      · have hall : ∀ z ∈ xs ++ y :: ys, (priority z).rank ≤ (priority x).rank := by
          intro z hz
          simp only [List.mem_append, List.mem_cons] at hz
          rcases hz with hz | rfl | hz
          · exact hfirst z hz
          · exact hle
          · exact Nat.le_trans (hsecond z hz) hle
        rw [List.cons_append, sort_cons priority hall]
        simp [prefer, hle]
      · have hall : ∀ z ∈ x :: xs, (priority z).rank < (priority y).rank := by
          intro z hz
          rcases List.mem_cons.1 hz with rfl | hz
          · omega
          · have hzx := hfirst z hz
            omega
        rw [sort_append_cons priority hall hsecond]
        simp [prefer, hle]

-- A search in two ordered lists together chooses between what it finds in each of them. That
-- holds for any test, be it passed by the first element or not.
theorem find?_sort_append (hx : Descending priority xs) (hy : Descending priority ys)
    (p : ρ → Bool) :
    (sort priority (xs ++ ys)).find? p = prefer priority (xs.find? p) (ys.find? p) := by
  have hxp : Descending priority (xs.filter p) := List.Pairwise.filter p hx
  have hyp : Descending priority (ys.filter p) := List.Pairwise.filter p hy
  rw [← List.head?_filter, ← List.head?_filter, ← List.head?_filter, filter_sort_eq,
    List.filter_append, head?_sort_append priority hxp hyp]

-- What a choice among rules in the order of declaration comes to. It is a rule that is accepted,
-- of the highest priority that any accepted one has, and the first one of that priority.
def Chooses (accepts : ρ → Bool) (rules : List ρ) : Option ρ → Prop
  | none => ∀ q ∈ rules, accepts q = false
  | some r =>
    accepts r = true ∧ ∃ before after, rules = before ++ r :: after ∧
      (∀ q ∈ before, accepts q → (priority q).rank < (priority r).rank) ∧
      ∀ q ∈ after, accepts q → (priority q).rank ≤ (priority r).rank

theorem rank_injective : Function.Injective rank := by
  intro p q h
  cases p <;> cases q <;> first | rfl | cases h

theorem mem_sort {x : ρ} : x ∈ sort priority xs ↔ x ∈ xs := by
  have hall (p : Priority) : p ∈ all := by cases p <;> decide
  simp [sort, hall]

-- A search in sorted rules finds the choice among them.
theorem chooses_find?_sort (accepts : ρ → Bool) :
    Chooses priority accepts xs ((sort priority xs).find? accepts) := by
  cases hfind : (sort priority xs).find? accepts with
  | none =>
    intro q hq
    simpa using List.find?_eq_none.1 hfind q ((mem_sort priority).2 hq)
  | some r =>
    obtain ⟨haccepts, front, back, hsort, hfront⟩ := List.find?_eq_some_iff_append.1 hfind
    refine ⟨haccepts, ?_⟩
    -- whatever is accepted stands in the sorted list where the choice stands, or behind it
    have hle : ∀ q ∈ xs, accepts q → (priority q).rank ≤ (priority r).rank := by
      intro q hq hacc
      have hmem := (mem_sort priority).2 hq
      have hordered := pairwise_sort priority xs
      rw [hsort] at hmem hordered
      rcases List.mem_append.1 hmem with hq | hq
      · have hreject := hfront q hq
        simp [hacc] at hreject
      · rcases List.mem_cons.1 hq with rfl | hq
        · exact Nat.le_refl _
        · exact List.rel_of_pairwise_cons (List.pairwise_append.1 hordered).2.1 hq
    -- and sorting has not moved it among those of its own priority
    have hfirst : (xs.filter (priority · = priority r)).find? accepts = some r := by
      rw [← filter_sort, hsort, List.find?_filter, List.find?_eq_some_iff_append]
      refine ⟨by simp [haccepts], front, back, rfl, fun q hq => ?_⟩
      have hreject := hfront q hq
      simp_all
    rw [List.find?_filter, List.find?_eq_some_iff_append] at hfirst
    obtain ⟨-, before, after, hxs, hbefore⟩ := hfirst
    refine ⟨before, after, hxs, fun q hq hacc => ?_,
      fun q hq hacc => hle q (by simp [hxs, hq]) hacc⟩
    have hne : priority q ≠ priority r := by
      rintro heq
      simpa [hacc, heq] using hbefore q hq
    exact Nat.lt_of_le_of_ne (hle q (by simp [hxs, hq]) hacc) fun h => hne (rank_injective h)

end Priority

theorem Registry.Assembly.descending (a : Registry.Assembly) (stage : Stage) (code : Opcode) :
    Priority.Descending Rule.priority (a.registry.rules stage code) := by
  rw [a.registry_eq]
  exact Priority.pairwise_sort Rule.priority _

namespace Render.Registry

-- How a registry is put together: from declarations, or from two registries.
inductive Assembly where
  | build (ds : List (Kind × Rule))
  | merge (first second : Assembly)

namespace Assembly

def registry : Assembly → Registry
  | build ds => ofDeclarations ds
  | merge first second => first.registry.merge second.registry

-- All declarations, those of the first registry in front of those of the second one.
def declarations : Assembly → List (Kind × Rule)
  | build ds => ds
  | merge first second => first.declarations ++ second.declarations

-- However a registry is put together, a kind has all rules declared for it.
theorem rules?_getD (a : Assembly) (kind : Kind) :
    (a.registry.rules? kind).getD [] =
      Priority.sort Rule.priority ((a.declarations.filter (·.1 = kind)).map (·.2)) := by
  induction a with
  | build ds =>
    simp only [registry, declarations, ofDeclarations]
    split
    · next h => rw [h]; rfl
    · rfl
  | merge first second ihf ihs =>
    simp only [registry, declarations, Registry.merge, List.filter_append, List.map_append]
    split
    · next h =>
      rw [h, Option.getD_none] at ihs
      rw [ihf, ← Priority.sort_append_sort, ← ihs, List.append_nil]
    · next h =>
      rw [h, Option.getD_some] at ihs
      rw [Option.getD_some, ihf, ihs, Priority.sort_append_sort, Priority.sort_sort_append]

-- The rules of a kind are in order, also where merging has left them alone.
theorem descending (a : Assembly) (kind : Kind) :
    Priority.Descending Rule.priority ((a.registry.rules? kind).getD []) := by
  rw [a.rules?_getD]
  exact Priority.pairwise_sort Rule.priority _

end Assembly

-- A kind without rules is one that no rule applies to.
theorem rule?_eq_find? (r : Registry) (e : Element) (ctx : Context) :
    r.rule? e ctx = ((r.rules? e.kind).getD []).find? fun rule => rule.applies e ctx := by
  simp only [rule?]
  cases r.rules? e.kind <;> rfl

end Render.Registry

-- What a registry selects is the choice among the rules declared for the instruction or the kind,
-- whatever they ask of the state or of the element. What a merged registry selects is chosen
-- between what its parts select: the choice of the second part only if the first one has none or
-- one of a lower priority.
theorem merge_selects :
    ((∀ (a : Registry.Assembly) (s : State) (code : Opcode),
      Priority.Chooses Rule.priority (·.applies s code)
        ((a.declarations.filter (·.stage = .primary)).flatMap fun d =>
          List.replicate (d.codes.count code) d.rule)
        (a.registry.primary? s code)) ∧
      ∀ (a : Render.Registry.Assembly) (e : Element) (ctx : Render.Context),
        Priority.Chooses Render.Rule.priority (·.applies e ctx)
          ((a.declarations.filter (·.1 = e.kind)).map (·.2)) (a.registry.rule? e ctx)) ∧
      (∀ (a b : Registry.Assembly) (s : State) (code : Opcode),
        (a.registry.merge b.registry).primary? s code =
          Priority.prefer Rule.priority (a.registry.primary? s code)
            (b.registry.primary? s code)) ∧
      ∀ (a b : Render.Registry.Assembly) (e : Element) (ctx : Render.Context),
        (a.registry.merge b.registry).rule? e ctx =
          Priority.prefer Render.Rule.priority (a.registry.rule? e ctx)
            (b.registry.rule? e ctx) := by
  refine ⟨⟨?_, ?_⟩, ?_, ?_⟩
  · intro a s code
    rw [Registry.primary?, a.registry_eq, ← Registry.declared_eq]
    exact Priority.chooses_find?_sort Rule.priority _
  · intro a e ctx
    rw [Render.Registry.rule?_eq_find?, a.rules?_getD]
    exact Priority.chooses_find?_sort Render.Rule.priority _
  · intro a b s code
    exact Priority.find?_sort_append Rule.priority (a.descending .primary code)
      (b.descending .primary code) _
  · intro a b e ctx
    rw [Render.Registry.rule?_eq_find?, Render.Registry.rule?_eq_find?,
      Render.Registry.rule?_eq_find?]
    have hdescending := b.descending e.kind
    cases hb : b.registry.rules? e.kind with
    | none =>
      -- the kind is not touched, so its list is the one of the first part as it stands
      simp only [Render.Registry.merge, hb, Option.getD_none, List.find?_nil, Priority.prefer]
    | some rules =>
      rw [hb, Option.getD_some] at hdescending
      simp only [Render.Registry.merge, hb, Option.getD_some]
      exact Priority.find?_sort_append Render.Rule.priority (a.descending e.kind) hdescending _

end JvmLift
