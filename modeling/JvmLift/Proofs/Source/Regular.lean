import JvmLift.Proofs.Source.Keeping

namespace JvmLift.Source

open Phrase

section Regularity

variable {a b x y : Phrase}

theorem and_eq_and {p q r : Bool} (h : p → q = r) : (p && q) = (p && r) := by
  cases p with
  | false => rfl
  | true => exact h rfl

theorem isRegular_leaf {l : Leaf} (h : l.isSpelled) : (Phrase.leaf l).IsRegular :=
  ⟨isWhole_leaf h, rfl, rfl, rfl, fun _ => Nat.le_trans (Nat.min_le_right ..) (Nat.le_of_ble_eq_true rfl)⟩

theorem Phrase.Front.isRegular_head (hx : a.Front x) {h : Head} (hs : h.isSpelled)
    (hopen : h.bracket? = none) (hlambda : ∀ names, h ≠ .lambda names) :
    (Phrase.head h x).IsRegular := by
  have hne : h ≠ .group := by
    rintro rfl
    cases hopen
  refine ⟨isWhole_head hs hx.spelled, Phrase.isGroup_head hne x, ?_, ?_, fun hgrouped => ?_⟩
  · rw [Phrase.ungrouped_head hne, Phrase.isGrouped, Phrase.isKept, hx.grouped, hx.ungrouped,
      ← hx.regular.kept]
    exact and_eq_and fun h => hx.head_admits h hopen hlambda
  · rw [Phrase.ungrouped_head hne]
    rfl
  · rw [Phrase.isGrouped, hx.grouped] at hgrouped
    have hreach := hx.le_reach (Bool.and_eq_true_iff.1 hgrouped).1
    rw [Phrase.reach, hopen, Phrase.level]
    simp only [Option.isNone_none, if_true]
    omega

theorem Phrase.Front.isRegular_tail (hx : a.Front x) {t : Tail} (hs : t.isSpelled)
    (hdimension : t ≠ .dimension) (hclass : ∀ n, t ≠ .classOf n) :
    (Phrase.tail x t).IsRegular := by
  refine ⟨isWhole_tail hx.spelled hs, rfl, ?_, ?_,
    fun _ => Nat.le_trans (Nat.min_le_right ..) (by simp [Phrase.reach])⟩
  · rw [Phrase.ungrouped, Phrase.isGrouped, Phrase.isKept, hx.grouped, hx.ungrouped,
      ← hx.regular.kept]
    exact and_eq_and fun h => hx.tail_admits h hdimension hclass
  · cases t with
    | field name =>
      rw [Phrase.ungrouped, hx.ungrouped]
      exact hx.path.symm
    | _ => rfl

-- What follows in brackets is an expression of its own or, in a call, a list of such.
theorem Phrase.Front.isRegular_link (hx : a.Front x) {l : Link} (hl : l = .index ∨ ∃ y, l = .call y)
    (hs : l.isSpelled) (hb : b.isSpelled) (hkept : b.isGrouped = b.ungrouped.isKept)
    (hright : l.admitsRight b) : (Phrase.link x l b).IsRegular := by
  have hne : l ≠ .comma := by
    rintro rfl
    obtain hl | ⟨y, hl⟩ := hl <;> cases hl
  have hkeeps : l.keepsRight b.ungrouped = true := by
    obtain rfl | ⟨y, rfl⟩ := hl <;> rfl
  have hclosed : l.bracket?.isNone = false := by
    obtain rfl | ⟨y, rfl⟩ := hl <;> rfl
  refine ⟨isWhole_link hne hx.spelled hs hb, rfl, ?_, rfl, fun _ => ?_⟩
  · rw [Phrase.ungrouped, Phrase.isGrouped, Phrase.isKept, hx.grouped, hx.ungrouped,
      ← hx.regular.kept, hkept, hx.link_admits hl, hright, hkeeps]
  · rw [Phrase.reach, hclosed]
    exact Nat.le_trans (Nat.min_le_right ..) (Nat.le_of_ble_eq_true rfl)

theorem Phrase.Beside.isRegular {op : BinaryOp} (hx : a.Beside (Grammar.binding op) x)
    (hy : b.Beside (Grammar.binding op + 1) y) : (Phrase.link x (.operator op) y).IsRegular := by
  refine ⟨isWhole_link nofun hx.spelled rfl hy.spelled, rfl, ?_, rfl, fun hgrouped => ?_⟩
  · rw [Phrase.ungrouped, Phrase.isGrouped, Phrase.isKept, hx.grouped, hy.grouped, hx.ungrouped,
      hy.ungrouped, ← hx.regular.kept, ← hy.regular.kept, hy.right_admits, Bool.and_assoc,
      Bool.and_assoc, Bool.and_assoc, Bool.and_assoc]
    refine and_eq_and fun h => ?_
    rw [hx.left_admits h]
  · simp only [Phrase.isGrouped, Bool.and_eq_true] at hgrouped
    obtain ⟨⟨⟨-, hgrouped⟩, -⟩, hright⟩ := hgrouped
    have hreach := hy.reach (hy.grouped ▸ hgrouped)
    have hlevel : operatorLevel op < y.level := of_decide_eq_true hright
    have hle := operatorLevel_le op
    show min (operatorLevel op) 11 ≤ min (operatorLevel op) y.reach
    omega

-- What stands in brackets cannot be anything else.
theorem isRegular_closed {h : Head} (hclosed : h.bracket? ≠ none) (hne : h ≠ .group)
    (hs : h.isSpelled) (ha : a.isSpelled) (hkept : a.isGrouped = a.ungrouped.isKept)
    (hadmits : h.admits a) : (Phrase.head h a).IsRegular := by
  have hkeeps : h.keeps a.ungrouped = true := by
    cases h <;> first | rfl | exact absurd rfl hclosed
  refine ⟨isWhole_head hs ha, Phrase.isGroup_head hne a, ?_, ?_, fun _ => ?_⟩
  · rw [Phrase.ungrouped_head hne, Phrase.isGrouped, Phrase.isKept, hkept, hadmits, hkeeps]
  · rw [Phrase.ungrouped_head hne]
    rfl
  · rw [Phrase.reach, if_neg (by rwa [Option.isNone_iff_eq_none])]
    exact Nat.le_trans (Nat.min_le_right ..) (by decide)

theorem Phrase.IsRegular.isRegular_lambda {names : List String} (h : a.IsRegular)
    (hnames : names.all isName) : (Phrase.head (.lambda names) a).IsRegular := by
  have hlevel := (Bool.and_eq_true_iff.1 h.whole).2
  refine ⟨isWhole_head hnames (isSpelled_of_isWhole h.whole), rfl, ?_, rfl, fun hgrouped => ?_⟩
  · rw [Phrase.isGrouped, Head.admits, hlevel, h.kept]
    rfl
  · have hreach := h.reach (Bool.and_eq_true_iff.1 hgrouped).1
    have hlevel := of_decide_eq_true hlevel
    show min 2 11 ≤ min 2 a.reach
    omega

end Regularity

section Builders

variable {a : Phrase}

theorem Phrase.IsRegular.front_of_isPath (h : a.IsRegular) (hpath : a.isPath) : a.Front a := by
  have hfront : a.Operand false a := h.operand nofun
  rwa [Phrase.Front, form_of_isPath hpath]

theorem isRegular_fields {names : List String} (hnames : names.all isName) (h : a.IsRegular)
    (hpath : a.isPath) :
    (names.foldl (fun a name => .tail a (.field name)) a : Phrase).IsRegular ∧
      (names.foldl (fun a name => .tail a (.field name)) a : Phrase).isPath := by
  induction names generalizing a with
  | nil => exact ⟨h, hpath⟩
  | cons name names ih =>
    obtain ⟨hname, hnames⟩ := Bool.and_eq_true_iff.1 hnames
    exact ih hnames ((h.front_of_isPath hpath).isRegular_tail hname (by simp) (by simp)) hpath

theorem isRegular_className {c : ClassName} (h : c.isSpelled) :
    c.phrase.IsRegular ∧ c.phrase.isPath := by
  obtain ⟨hfirst, hrest⟩ := Bool.and_eq_true_iff.1 h
  exact isRegular_fields hrest (isRegular_leaf hfirst) rfl

theorem isRegular_literal {t : TypeName} (h : t.isSpelled) : t.literal.IsRegular := by
  obtain ⟨base, n⟩ := t
  cases base with
  | primitive p => exact isRegular_leaf rfl
  | named c =>
    obtain ⟨hc, hpath⟩ := isRegular_className h
    refine ⟨isWhole_literal h, rfl, ?_, rfl, fun _ => Nat.le_of_ble_eq_true rfl⟩
    rw [TypeName.literal, Phrase.ungrouped, Phrase.isGrouped, Phrase.isKept, hc.kept, Tail.admits,
      hpath]
    rfl

theorem isRegular_signed {leaf : Nat → Leaf} (h : ∀ n, (leaf n).isSpelled)
    (hform : ∀ n, (Phrase.leaf (leaf n)).form.isEnclosed = false) (value : Int) :
    (signed leaf value).IsRegular := by
  rw [signed]
  split
  · have hfront : Phrase.Front (.leaf (leaf (-value).toNat)) (.leaf (leaf (-value).toNat)) := by
      have hoperand : Phrase.Operand (.leaf (leaf (-value).toNat)) false _ :=
        (isRegular_leaf (h _)).operand (by simp)
      rwa [Phrase.Front, hform]
    exact hfront.isRegular_head rfl rfl (by simp)
  · exact isRegular_leaf (h _)

theorem kept_commas {as : List Phrase} (h : a.isGrouped = a.ungrouped.isKept)
    (has : ∀ b ∈ as, b.IsRegular) :
    (as.foldl (fun a b => .link a .comma b) a : Phrase).isGrouped =
      (as.foldl (fun a b => .link a .comma b) a : Phrase).ungrouped.isKept := by
  induction as generalizing a with
  | nil => exact h
  | cons b as ih =>
    obtain ⟨hb, has⟩ := List.forall_mem_cons.1 has
    refine ih ?_ has
    have hlevel := (Bool.and_eq_true_iff.1 hb.whole).2
    rw [Phrase.ungrouped, Phrase.isGrouped, Phrase.isKept, h, hb.kept, Link.admitsRight, hlevel]
    rfl

theorem kept_list? {as : List Phrase} (h : list? as = some a) (has : ∀ b ∈ as, b.IsRegular) :
    a.isGrouped = a.ungrouped.isKept := by
  cases as with
  | nil => cases h
  | cons b as =>
    obtain ⟨hb, has⟩ := List.forall_mem_cons.1 has
    obtain rfl := Option.some.inj h
    exact kept_commas hb.kept has

theorem isRegular_member {q? : Option Phrase} {name : String} (hname : isName name)
    (hq : ∀ q ∈ q?, ∃ a : Phrase, a.Front q) : (member q? name).IsRegular := by
  cases q? with
  | none => exact isRegular_leaf hname
  | some q =>
    obtain ⟨a, ha⟩ := hq q rfl
    exact ha.isRegular_tail hname (by simp) (by simp)

theorem isRegular_call {q? : Option Phrase} {name : String} {args : List Phrase}
    (hname : isName name) (hq : ∀ q ∈ q?, ∃ a : Phrase, a.Front q)
    (hargs : ∀ a ∈ args, a.IsRegular) : (call q? name args).IsRegular := by
  have hspelled : ∀ a ∈ args, a.isSpelled := fun a ha => isSpelled_of_isWhole (hargs a ha).whole
  unfold call
  split
  · exact isRegular_leaf hname
  · next a hlist =>
    exact isRegular_closed (by simp [Head.bracket?]) (by simp) hname (isSpelled_list? hlist hspelled)
      (kept_list? hlist hargs) rfl
  · next q hlist =>
    obtain ⟨a, ha⟩ := hq q rfl
    exact ha.isRegular_tail hname (by simp) (by simp)
  · next q b hlist =>
    obtain ⟨a, ha⟩ := hq q rfl
    exact ha.isRegular_link (.inr ⟨name, rfl⟩) hname (isSpelled_list? hlist hspelled)
      (kept_list? hlist hargs) rfl

theorem isRegular_create {c : ClassName} {args : List Phrase} (hc : c.isSpelled)
    (hargs : ∀ a ∈ args, a.IsRegular) : (create c args).IsRegular := by
  have hspelled : ∀ a ∈ args, a.isSpelled := fun a ha => isSpelled_of_isWhole (hargs a ha).whole
  rw [create]
  split
  · exact isRegular_leaf hc
  · next a hlist =>
    exact isRegular_closed (by simp [Head.bracket?]) (by simp) hc (isSpelled_list? hlist hspelled)
      (kept_list? hlist hargs) rfl

theorem isRegular_allocation {b : Base} (hb : b.isSpelled) (h : a.IsRegular) (n : Nat) :
    (allocation b a n).IsRegular := by
  induction n with
  | zero =>
    have hlevel := (Bool.and_eq_true_iff.1 h.whole).2
    exact isRegular_closed (by simp [Head.bracket?]) (by simp) hb (isSpelled_of_isWhole h.whole) h.kept hlevel
  | succ n ih =>
    refine ⟨isWhole_tail (isSpelled_of_isWhole ih.whole) rfl, rfl, ?_, rfl,
      fun _ => Nat.le_of_ble_eq_true rfl⟩
    have hadmits : Tail.dimension.admits (allocation b a n) = true := by cases n <;> rfl
    rw [allocation, Phrase.ungrouped, Phrase.isGrouped, Phrase.isKept, ih.kept, hadmits]
    rfl

end Builders

end JvmLift.Source
