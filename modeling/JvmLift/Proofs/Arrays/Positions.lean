import JvmLift.Proofs.Sorting
import JvmLift.Proofs.Written
import Mathlib.Data.List.Perm.Subperm

namespace JvmLift

namespace JvmType

-- The value of an element of an array that nothing has been stored into.
def zero : JvmType → Constant
  | .int | .byte | .char | .short => .int 0
  | .long => .long 0
  | .float => .float ⟨0⟩
  | .double => .double ⟨0⟩
  | .boolean => .boolean false
  | .void | .reference _ | .array _ | .null => .null

def defaultValue (ty : JvmType) : Element :=
  .constant ty.zero ty

end JvmType

-- The positions of an array, from the first one to the last.
def positions (length : Int32) : List Int32 :=
  (List.range length.toInt.toNat).map .ofNat

-- What an array holds at a position: what has been stored there last.
def valueAt (component : JvmType) (initializers : List (Int32 × Element)) (i : Int32) : Element :=
  match (initializers.filter fun p => p.1 = i).getLast? with
  | some (_, value) => value
  | none => component.defaultValue

section Positions

variable {length i : Int32}

theorem toInt_ofNat_of_lt_length {k : Nat} (h : k < length.toInt.toNat) :
    (Int32.ofNat k).toInt = k := by
  have hlt := length.toInt_lt
  exact Int32.toInt_ofNat_of_lt (by omega)

theorem mem_positions : i ∈ positions length ↔ 0 ≤ i ∧ i < length := by
  rw [positions, List.mem_map, Int32.le_iff_toInt_le, Int32.lt_iff_toInt_lt, Int32.toInt_zero]
  constructor
  · rintro ⟨k, hk, rfl⟩
    have hk := List.mem_range.1 hk
    rw [toInt_ofNat_of_lt_length hk]
    omega
  · rintro ⟨hlow, hhigh⟩
    exact ⟨i.toInt.toNat, List.mem_range.2 (by omega), ofNat_toNat_toInt hlow⟩

theorem pairwise_positions (length : Int32) : (positions length).Pairwise fun i j => i < j := by
  refine List.pairwise_map.2 (List.pairwise_lt_range.imp_of_mem fun hj hk hlt => ?_)
  have hj := List.mem_range.1 hj
  have hk := List.mem_range.1 hk
  rw [Int32.lt_iff_toInt_lt, toInt_ofNat_of_lt_length hj, toInt_ofNat_of_lt_length hk]
  omega

theorem nodup_positions (length : Int32) : (positions length).Nodup :=
  (pairwise_positions length).imp Int32.ne_of_lt

end Positions

namespace Render

-- The literal of an array with the given values.
def literalText (ctx : Context) (component : JvmType) (values : List String) : String :=
  "new " ++ ctx.typeName component ++ "[] \x7b " ++ ", ".intercalate values ++ " \x7d"

section Initializers

variable {initializers : List (Int32 × Element)} {component : JvmType} {value : Element} {i : Int32}

theorem sortInitializers_perm (initializers : List (Int32 × Element)) :
    (sortInitializers initializers).Perm initializers :=
  sorted_perm _ initializers

theorem pairwise_sortInitializers (initializers : List (Int32 × Element)) :
    (sortInitializers initializers).Pairwise fun a b => a.1 ≤ b.1 := by
  have hpairwise := pairwise_sorted (fun a b : Int32 × Element => decide (a.1 ≤ b.1))
    (fun a b c hab hbc => decide_eq_true
      (Int32.le_trans (of_decide_eq_true hab) (of_decide_eq_true hbc)))
    (fun a b => (Int32.le_total a.1 b.1).imp decide_eq_true decide_eq_true) initializers
  exact hpairwise.imp of_decide_eq_true

theorem filter_sortInitializers (initializers : List (Int32 × Element)) (i : Int32) :
    (sortInitializers initializers).filter (fun p => p.1 = i) =
      initializers.filter fun p => p.1 = i := by
  refine filter_sorted (fun a b ha hb => ?_) initializers
  rw [of_decide_eq_true ha, of_decide_eq_true hb]
  exact decide_eq_true (Int32.le_refl i)

-- What is stored at a position of its own is there in the end.
theorem valueAt_of_count_eq_one (hcount : (initializers.map (·.1)).count i = 1)
    (hmem : (i, value) ∈ initializers) : valueAt component initializers i = value := by
  have hlength : (initializers.filter fun p => p.1 = i).length = 1 := by
    rw [← List.countP_eq_length_filter, ← hcount, List.count_eq_countP, List.countP_map]
    exact List.countP_congr fun p _ => by simp
  obtain ⟨q, hq⟩ := List.length_eq_one_iff.1 hlength
  have hvalue : (i, value) ∈ initializers.filter fun p => p.1 = i :=
    List.mem_filter.2 ⟨hmem, decide_eq_true rfl⟩
  obtain rfl : (i, value) = q := by rwa [hq, List.mem_singleton] at hvalue
  rw [valueAt, hq]
  rfl

-- If one value is stored everywhere, it is wherever anything is stored.
theorem valueAt_of_forall_eq (h : ∀ p ∈ initializers, p.2 = value) :
    valueAt component initializers i =
      if i ∈ initializers.map (·.1) then value else component.defaultValue := by
  rw [valueAt]
  split
  · next j x hlast =>
    obtain ⟨hmem, hj⟩ := List.mem_filter.1 (List.mem_of_getLast? hlast)
    obtain rfl : j = i := of_decide_eq_true hj
    rw [if_pos (List.mem_map_of_mem hmem), ← h _ hmem]
  · next hnone =>
    rw [if_neg]
    intro hmem
    obtain ⟨p, hp, rfl⟩ := List.mem_map.1 hmem
    have hempty := List.getLast?_eq_none_iff.1 hnone
    exact List.not_mem_nil (hempty ▸ List.mem_filter.2 ⟨hp, decide_eq_true rfl⟩)

end Initializers

-- Texts without a comma are told apart by the commas between them.
theorem intercalate_injective {ss ts : List String} (hs : ss ≠ []) (ht : ts ≠ [])
    (hss : ∀ s ∈ ss, ',' ∉ s.toList) (hts : ∀ t ∈ ts, ',' ∉ t.toList)
    (h : ", ".intercalate ss = ", ".intercalate ts) : ss = ts := by
  have hsplit (s : String) (us : List String) :
      (", ".intercalate (s :: us)).toList =
        [','].intercalate (s.toList :: us.map fun u => ' ' :: u.toList) := by
    induction us generalizing s with
    | nil => simp
    | cons u us ih =>
      rw [String.intercalate_cons_cons, String.toList_append, String.toList_append, ih u]
      cases us <;> simp
  have hfree {us : List String} (hus : ∀ u ∈ us, ',' ∉ u.toList) :
      ∀ l ∈ us.map (fun u => ' ' :: u.toList), ',' ∉ l := by
    simpa using hus
  cases ss with
  | nil => exact absurd rfl hs
  | cons s ss =>
    cases ts with
    | nil => exact absurd rfl ht
    | cons t ts =>
      obtain ⟨hs, hss⟩ := List.forall_mem_cons.1 hss
      obtain ⟨ht, hts⟩ := List.forall_mem_cons.1 hts
      have hlists := congrArg (List.splitOn ',') (congrArg String.toList h)
      rw [hsplit, hsplit,
        List.splitOn_intercalate _ (List.forall_mem_cons.2 ⟨hs, hfree hss⟩) (List.cons_ne_nil _ _),
        List.splitOn_intercalate _ (List.forall_mem_cons.2 ⟨ht, hfree hts⟩) (List.cons_ne_nil _ _)]
        at hlists
      obtain ⟨hhead, htail⟩ := List.cons.inj hlists
      have hinjective : Function.Injective fun u : String => ' ' :: u.toList :=
        fun u v huv => String.toList_injective (List.cons.inj huv).2
      rw [String.toList_injective hhead, List.map_injective_iff.2 hinjective htail]

-- No type has the number one for its default value, nor one that is written with a comma.
theorem constantText_zero (ctx : Context) (component : JvmType) :
    constantText ctx component.zero ≠ "1" ∧ ',' ∉ (constantText ctx component.zero).toList := by
  have hclosed : constantText ctx component.zero = constantText {} component.zero := by
    cases component <;> rfl
  rw [hclosed]
  cases component <;> simp only [JvmType.zero] <;> decide +kernel

theorem element_newArray {initializers : List (Int32 × Element)} (hne : initializers ≠ [])
    (ctx : Context) (ty component : JvmType) (length : Element) (stamp : Stamp) :
    Registry.core.element ctx ⟨.newArray ty component length initializers, stamp⟩ =
      literalText ctx component <$>
        ((sortInitializers initializers).map (·.2)).mapM (Registry.core.element ctx) :=
  Registry.render_newArray hne ty component length stamp

section Positions

variable {n : Int32} {initializers : List (Int32 × Element)} {indices : List Int32}

-- Indices among which each position is once are the positions in some order.
theorem perm_positions (hindices : ∀ i ∈ indices, 0 ≤ i ∧ i < n)
    (hcount : ∀ i, 0 ≤ i → i < n → indices.count i = 1) : indices.Perm (positions n) := by
  have hone {i : Int32} (hi : i ∈ indices) : indices.count i = 1 :=
    hcount i (hindices i hi).1 (hindices i hi).2
  have hnodup : indices.Nodup := by
    refine List.nodup_iff_count.2 fun i => ?_
    by_cases hi : i ∈ indices
    · exact Nat.le_of_eq (hone hi)
    · exact Nat.le_trans (Nat.le_of_eq (List.count_eq_zero.2 hi)) (Nat.zero_le 1)
  refine (List.perm_ext_iff_of_nodup hnodup (nodup_positions n)).2 fun i => ?_
  rw [mem_positions]
  refine ⟨hindices i, fun ⟨hlow, hhigh⟩ => List.count_pos_iff.1 ?_⟩
  rw [hcount i hlow hhigh]
  exact Nat.zero_lt_one

-- Sorted initializers with an index for each position are the positions with what they hold.
theorem map_sortInitializers (component : JvmType)
    (hindices : ∀ i ∈ initializers.map (·.1), 0 ≤ i ∧ i < n)
    (hcount : ∀ i, 0 ≤ i → i < n → (initializers.map (·.1)).count i = 1) :
    (sortInitializers initializers).map (·.2) =
      (positions n).map (valueAt component initializers) := by
  have hperm := (sortInitializers_perm initializers).map (·.1)
  have hsorted : (sortInitializers initializers).map (·.1) = positions n := by
    refine List.Perm.eq_of_pairwise (fun i j _ _ (hij : i ≤ j) (hji : j ≤ i) =>
      Int32.le_antisymm hij hji) ?_ ?_ (hperm.trans (perm_positions hindices hcount))
    · exact List.pairwise_map.2 (pairwise_sortInitializers initializers)
    · exact (pairwise_positions n).imp Int32.le_of_lt
  rw [← hsorted, List.map_map]
  refine List.map_congr_left fun p hp => ?_
  have hmem : p ∈ initializers := (sortInitializers_perm initializers).mem_iff.1 hp
  obtain ⟨hlow, hhigh⟩ := hindices p.1 (List.mem_map_of_mem hmem)
  exact (valueAt_of_count_eq_one (hcount p.1 hlow hhigh) hmem).symm

-- The number one at each of some indices.
def ones (indices : List Int32) : List (Int32 × Element) :=
  indices.map fun i => (i, .int 1)

theorem map_fst_ones (indices : List Int32) : (ones indices).map (·.1) = indices := by
  rw [ones, List.map_map]
  exact List.map_id indices

theorem map_snd_ones (indices : List Int32) :
    (ones indices).map (·.2) = List.replicate indices.length (.int 1) := by
  rw [ones, List.map_map]
  exact List.map_const' ..

theorem element_one (ctx : Context) : Registry.core.element ctx (.int 1) = .ok "1" :=
  Registry.element_constant (.int 1) .int {}

theorem element_newArray_ones (hne : ones indices ≠ []) (ctx : Context) (ty component : JvmType)
    (length : Element) (stamp : Stamp) :
    Registry.core.element ctx ⟨.newArray ty component length (ones indices), stamp⟩ =
      .ok (literalText ctx component (List.replicate indices.length "1")) := by
  have hperm := (sortInitializers_perm (ones indices)).map (·.2)
  rw [map_snd_ones, List.perm_replicate] at hperm
  have hvalues : (List.replicate indices.length (.int 1)).mapM (Registry.core.element ctx) =
      .ok ((List.replicate indices.length (Element.int 1)).map fun _ => "1") :=
    Registry.mapM_ok fun e he => List.eq_of_mem_replicate he ▸ element_one ctx
  rw [element_newArray hne, hperm, hvalues, List.map_replicate]
  rfl

-- Where the array with ones at some indices is written as ones only, it has one of them at each
-- position.
theorem count_eq_one_of_literal {ctx : Context} {component : JvmType} (hne : indices ≠ [])
    (h : Except.ok (literalText ctx component (List.replicate indices.length "1")) =
      literalText ctx component <$> (positions n).mapM fun i =>
        Registry.core.element ctx (valueAt component (ones indices) i))
    {i : Int32} (hlow : 0 ≤ i) (hhigh : i < n) : indices.count i = 1 := by
  let text (i : Int32) : String :=
    if i ∈ indices then "1" else constantText ctx component.zero
  have htext (i : Int32) :
      Registry.core.element ctx (valueAt component (ones indices) i) = .ok (text i) := by
    have hvalue : ∀ p ∈ ones indices, p.2 = .int 1 := by simp [ones]
    rw [valueAt_of_forall_eq hvalue, map_fst_ones]
    by_cases hi : i ∈ indices
    · rw [if_pos hi, show text i = "1" from if_pos hi]
      exact element_one ctx
    · rw [if_neg hi, show text i = _ from if_neg hi]
      exact Registry.element_constant _ _ _
  have hfree (i : Int32) : ',' ∉ (text i).toList := by
    by_cases hi : i ∈ indices
    · simp [text, hi]
    · simpa [text, hi] using (constantText_zero ctx component).2
  have hmem : i ∈ positions n := mem_positions.2 ⟨hlow, hhigh⟩
  have hsame : List.replicate indices.length "1" = (positions n).map text := by
    rw [Registry.mapM_ok fun i _ => htext i] at h
    have hjoined := Except.ok.inj h
    rw [literalText, literalText, String.append_left_inj, String.append_right_inj] at hjoined
    refine intercalate_injective (by simpa using hne) ?_ (by simp) ?_ hjoined
    · exact fun hnil => List.ne_nil_of_mem hmem (List.map_eq_nil_iff.1 hnil)
    · exact List.forall_mem_map.2 fun i _ => hfree i
  have hsubset : positions n ⊆ indices := by
    intro j hj
    by_contra hout
    have hone : text j = "1" :=
      List.eq_of_mem_replicate (hsame ▸ List.mem_map_of_mem hj)
    exact (constantText_zero ctx component).1 ((if_neg hout).symm.trans hone)
  have hlength : indices.length = (positions n).length := by
    simpa using congrArg List.length hsame
  have hperm := ((nodup_positions n).subperm hsubset).perm_of_length_le (Nat.le_of_eq hlength)
  rw [← hperm.count_eq, (nodup_positions n).count, if_pos hmem]

end Positions

-- An array literal has the value of each position in its place, whatever the values are, exactly if
-- each position is initialized once. In any case the values stand in the order of their positions.
theorem arrayLiteral_denotes_iff (ctx : Context) (ty component lengthTy : JvmType) (n : Int32)
    (stamp stamp' : Stamp) {indices : List Int32} (hne : indices ≠ [])
    (hindices : ∀ i ∈ indices, 0 ≤ i ∧ i < n) :
    let literal (initializers : List (Int32 × Element)) : Element :=
      ⟨.newArray ty component ⟨.constant (.int n) lengthTy, stamp⟩ initializers, stamp'⟩
    let value := Registry.core.element ctx
    (∀ initializers : List (Int32 × Element), initializers.map (·.1) = indices →
      ∃ sorted : List (Int32 × Element), sorted.Perm initializers ∧
        (sorted.Pairwise fun a b => a.1 ≤ b.1) ∧
        (∀ i, sorted.filter (fun p => p.1 = i) = initializers.filter fun p => p.1 = i) ∧
        value (literal initializers) =
          literalText ctx component <$> sorted.mapM fun p => value p.2) ∧
    ((∀ initializers : List (Int32 × Element), initializers.map (·.1) = indices →
      value (literal initializers) =
        literalText ctx component <$>
          (positions n).mapM fun i => value (valueAt component initializers i)) ↔
      ∀ i, 0 ≤ i → i < n → indices.count i = 1) := by
  intro literal value
  have hnonempty {initializers : List (Int32 × Element)}
      (hmap : initializers.map (·.1) = indices) : initializers ≠ [] := by
    rintro rfl
    exact hne hmap.symm
  refine ⟨fun initializers hmap => ⟨sortInitializers initializers, sortInitializers_perm _,
    pairwise_sortInitializers _, filter_sortInitializers _, ?_⟩, fun h i hlow hhigh => ?_,
    fun hcount initializers hmap => ?_⟩
  · exact (element_newArray (hnonempty hmap) _ _ _ _ _).trans (by rw [List.mapM_map]; rfl)
  · have hones := map_fst_ones indices
    have htext := element_newArray_ones (hnonempty hones) ctx ty component
      ⟨.constant (.int n) lengthTy, stamp⟩ stamp'
    exact count_eq_one_of_literal hne (htext.symm.trans (h _ hones)) hlow hhigh
  · subst hmap
    refine (element_newArray (hnonempty rfl) _ _ _ _ _).trans ?_
    rw [map_sortInitializers component hindices hcount, List.mapM_map]
    rfl

-- Two initializers in the other order.
theorem arrayLiteral_denotes_iff_swapped :
    let ctx : Context := {}
    let initializers : List (Int32 × Element) := [(1, .int 7), (0, .int 5)]
    (1 : Int32) :: [0] ≠ [] ∧ (∀ i ∈ [(1 : Int32), 0], 0 ≤ i ∧ i < 2) ∧
      Registry.core.element ctx
          ⟨.newArray (.array .int) .int ⟨.constant (.int 2) .int, {}⟩ initializers, {}⟩ =
        literalText ctx .int <$> (positions 2).mapM fun i =>
          Registry.core.element ctx (valueAt .int initializers i) := by
  intro ctx initializers
  have hindices : ∀ i ∈ [(1 : Int32), 0], 0 ≤ i ∧ i < 2 := by
    simp only [List.forall_mem_cons]
    exact ⟨by decide, by decide, nofun⟩
  have hcount : ∀ i : Int32, 0 ≤ i → i < 2 → [1, 0].count i = 1 := by
    intro i hlow hhigh
    have hmem : i ∈ positions 2 := mem_positions.2 ⟨hlow, hhigh⟩
    have hall : ((positions 2).all fun j => [1, 0].count j = 1) = true := by decide
    exact of_decide_eq_true (List.all_eq_true.1 hall i hmem)
  have hliteral := (arrayLiteral_denotes_iff ctx (.array .int) .int .int 2 {} {}
    (List.cons_ne_nil 1 [0]) hindices).2.2 hcount initializers rfl
  exact ⟨List.cons_ne_nil 1 [0], hindices, hliteral⟩

-- One initializer for the last of three positions: two values are missing.
theorem arrayLiteral_with_gap :
    let ctx : Context := {}
    let initializers : List (Int32 × Element) := [(2, .int 5)]
    Registry.core.element ctx
        ⟨.newArray (.array .int) .int ⟨.constant (.int 3) .int, {}⟩ initializers, {}⟩ =
      .ok "new int[] \x7b 5 \x7d" ∧
    (literalText ctx .int <$> (positions 3).mapM fun i =>
      Registry.core.element ctx (valueAt .int initializers i)) =
      .ok "new int[] \x7b 0, 0, 5 \x7d" := by
  intro ctx initializers
  have hint (value : Int32) :
      Registry.core.element ctx (.int value) = .ok (toString value.toInt) :=
    Registry.element_constant _ _ _
  have hvalues : (positions 3).map (valueAt .int initializers) = [.int 0, .int 0, .int 5] := rfl
  constructor
  · rw [element_newArray (List.cons_ne_nil _ _)]
    have hsorted : (sortInitializers initializers).map (·.2) = [.int 5] := rfl
    rw [hsorted, List.mapM_cons, List.mapM_nil, hint]
    rfl
  · have hmap := List.mapM_map (f := valueAt .int initializers) (g := Registry.core.element ctx)
      (l := positions 3)
    rw [hvalues] at hmap
    refine (congrArg (literalText ctx .int <$> ·) hmap.symm).trans ?_
    simp only [List.mapM_cons, List.mapM_nil, hint]
    rfl

end Render

end JvmLift
