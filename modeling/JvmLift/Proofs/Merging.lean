import JvmLift.Registry
import Mathlib.Data.List.Pairwise

namespace JvmLift

namespace Priority

-- The place of a priority among all of them, the lowest one first.
def rank : Priority → Nat
  | lowest => 0
  | low => 1
  | normal => 2
  | high => 3
  | highest => 4

section Sorting

variable {ρ : Type} (priority : ρ → Priority) (xs ys : List ρ)

-- Sorting is decided by what each priority has.
theorem sort_congr {xs ys : List ρ}
    (h : ∀ p, xs.filter (priority · = p) = ys.filter (priority · = p)) :
    sort priority xs = sort priority ys := by
  rw [sort, sort]
  exact congrArg all.reverse.flatMap (funext h)

theorem filter_filter (p q : Priority) :
    (xs.filter (priority · = q)).filter (priority · = p) =
      if q = p then xs.filter (priority · = p) else [] := by
  rw [List.filter_filter]
  split
  · next h =>
    subst h
    simp
  · next h =>
    rw [List.filter_eq_nil_iff]
    intro x _ hx
    simp only [Bool.and_eq_true, decide_eq_true_eq] at hx
    exact h (hx.2.symm.trans hx.1)

-- Sorting leaves what has one priority as it was.
theorem filter_sort (p : Priority) :
    (sort priority xs).filter (priority · = p) = xs.filter (priority · = p) := by
  rw [sort, List.filter_flatMap]
  simp only [filter_filter]
  cases p <;> simp [all]

-- Nothing of a lower priority stands in front of anything of a higher one.
theorem pairwise_sort :
    (sort priority xs).Pairwise fun a b => (priority b).rank ≤ (priority a).rank := by
  have hall : all.reverse.Pairwise fun p q => q.rank ≤ p.rank := by decide
  rw [sort, List.pairwise_flatMap]
  constructor
  · intro p _
    refine List.pairwise_of_forall_mem_list fun a ha b hb => ?_
    have hpa : priority a = p := by simpa using (List.mem_filter.1 ha).2
    have hpb : priority b = p := by simpa using (List.mem_filter.1 hb).2
    exact Nat.le_of_eq (by rw [hpa, hpb])
  · refine hall.imp fun {p q} hqp a ha b hb => ?_
    have hpa : priority a = p := by simpa using (List.mem_filter.1 ha).2
    have hqb : priority b = q := by simpa using (List.mem_filter.1 hb).2
    rwa [hpa, hqb]

-- A part that was sorted before is sorted no differently.
theorem sort_append_sort :
    sort priority (xs ++ sort priority ys) = sort priority (xs ++ ys) := by
  apply sort_congr
  intro p
  rw [List.filter_append, List.filter_append, filter_sort]

theorem sort_sort_append :
    sort priority (sort priority xs ++ ys) = sort priority (xs ++ ys) := by
  apply sort_congr
  intro p
  rw [List.filter_append, List.filter_append, filter_sort]

end Sorting

end Priority

namespace Registry

-- A rule is declared once for every time that its declaration names the instruction.
theorem declared_eq (ds : List Declaration) (stage : Stage) (code : Opcode) :
    declared ds stage code = (ds.filter (·.stage = stage)).flatMap fun d =>
      List.replicate (d.codes.count code) d.rule := by
  induction ds with
  | nil => rfl
  | cons d ds ih =>
    have hrules : (d.codes.filter (· = code)).map (fun _ => d.rule) =
        List.replicate (d.codes.count code) d.rule := by
      simp [List.map_const', List.count_eq_length_filter, beq_eq_decide]
    rw [declared, List.flatMap_cons, ← declared, ih, hrules]
    by_cases h : d.stage = stage <;> simp [h]

theorem declared_append (ds es : List Declaration) (stage : Stage) (code : Opcode) :
    declared (ds ++ es) stage code = declared ds stage code ++ declared es stage code :=
  List.flatMap_append

-- Declarations that are made one after the other make one registry.
theorem ofDeclarations_append (ds es : List Declaration) :
    ofDeclarations (ds ++ es) = (ofDeclarations ds).merge (ofDeclarations es) := by
  rw [ofDeclarations, merge]
  congr 1
  funext stage code
  rw [declared_append, ofDeclarations, ofDeclarations, Priority.sort_sort_append,
    Priority.sort_append_sort]

theorem merge_assoc (a b c : Registry) : (a.merge b).merge c = a.merge (b.merge c) := by
  simp only [merge, Priority.sort_sort_append, Priority.sort_append_sort, List.append_assoc]

-- How a registry is put together: from declarations, or from two registries.
inductive Assembly where
  | build (ds : List Declaration)
  | merge (first second : Assembly)

namespace Assembly

def registry : Assembly → Registry
  | build ds => ofDeclarations ds
  | merge first second => first.registry.merge second.registry

-- All declarations, those of the first registry in front of those of the second one.
def declarations : Assembly → List Declaration
  | build ds => ds
  | merge first second => first.declarations ++ second.declarations

-- However a registry is put together, it is the one of all its declarations.
theorem registry_eq (a : Assembly) : a.registry = ofDeclarations a.declarations := by
  induction a with
  | build ds => rfl
  | merge first second ihf ihs => rw [registry, declarations, ofDeclarations_append, ihf, ihs]

end Assembly

theorem empty_merge_ofDeclarations (ds : List Declaration) :
    empty.merge (ofDeclarations ds) = ofDeclarations ds := by
  have hempty : empty = ofDeclarations [] := rfl
  rw [hempty, ← ofDeclarations_append, List.nil_append]

theorem ofDeclarations_merge_empty (ds : List Declaration) :
    (ofDeclarations ds).merge empty = ofDeclarations ds := by
  have hempty : empty = ofDeclarations [] := rfl
  rw [hempty, ← ofDeclarations_append, List.append_nil]

-- Merging follows the order of declaration: it is what declaring one after the other does, it is
-- associative, and the empty registry adds nothing. However registries are merged, a slot has what
-- all declarations together put there, a rule once for every time that it names the instruction.
-- Rules stand by descending priority, and those of one priority in the order in which they were
-- declared.
theorem merge_laws :
    (∀ ds es, ofDeclarations (ds ++ es) = (ofDeclarations ds).merge (ofDeclarations es)) ∧
      (∀ a b c : Registry, (a.merge b).merge c = a.merge (b.merge c)) ∧
      ∀ a : Assembly, a.registry = ofDeclarations a.declarations ∧
        empty.merge a.registry = a.registry ∧ a.registry.merge empty = a.registry ∧
        ∀ stage code,
          declared a.declarations stage code =
            ((a.declarations.filter (·.stage = stage)).flatMap fun d =>
              List.replicate (d.codes.count code) d.rule) ∧
          ((a.registry.rules stage code).Pairwise fun r q => q.priority.rank ≤ r.priority.rank) ∧
          ∀ p, (a.registry.rules stage code).filter (·.priority = p) =
            (declared a.declarations stage code).filter (·.priority = p) := by
  refine ⟨ofDeclarations_append, merge_assoc, fun a => ⟨a.registry_eq, ?_⟩⟩
  rw [a.registry_eq]
  refine ⟨empty_merge_ofDeclarations _, ofDeclarations_merge_empty _, fun stage code => ?_⟩
  refine ⟨?_, ?_, ?_⟩
  · exact declared_eq _ stage code
  · exact Priority.pairwise_sort Rule.priority _
  · exact Priority.filter_sort Rule.priority _

end Registry

end JvmLift
