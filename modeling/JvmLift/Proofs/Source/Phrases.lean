import JvmLift.Proofs.Grouping
import JvmLift.Proofs.Source
import JvmLift.Render.Core

namespace JvmLift.Source

section Builders

-- A number with its sign in front.
def signed (leaf : Nat → Leaf) (value : Int) : Phrase :=
  if value < 0 then .head .negate (.leaf (leaf (-value).toNat)) else .leaf (leaf value.toNat)

-- The name of a class as an expression.
def ClassName.phrase (c : ClassName) : Phrase :=
  c.rest.foldl (fun a name => .tail a (.field name)) (.leaf (.name c.first))

-- The class that a type stands for.
def TypeName.literal (t : TypeName) : Phrase :=
  match t.base with
  | .primitive p => .leaf (.classOf p t.dimensions)
  | .named c => .tail c.phrase (.classOf t.dimensions)

namespace Phrase

def group (a : Phrase) : Phrase :=
  .head .group a

-- Expressions with commas between.
def list? : List Phrase → Option Phrase
  | [] => none
  | a :: as => some (as.foldl (fun a b => .link a .comma b) a)

-- A member of what stands in front of it, if anything does.
def member (q? : Option Phrase) (name : String) : Phrase :=
  match q? with
  | none => .leaf (.name name)
  | some q => .tail q (.field name)

def call (q? : Option Phrase) (name : String) (args : List Phrase) : Phrase :=
  match q?, list? args with
  | none, none => .leaf (.call name)
  | none, some a => .head (.call name) a
  | some q, none => .tail q (.call name)
  | some q, some a => .link q (.call name) a

def create (c : ClassName) (args : List Phrase) : Phrase :=
  match list? args with
  | none => .leaf (.create c)
  | some a => .head (.create c) a

-- A new array of which the outer dimension has a length.
def allocation (b : Base) (length : Phrase) : Nat → Phrase
  | 0 => .head (.array b) length
  | n + 1 => .tail (allocation b length n) .dimension

end Phrase

end Builders

open Phrase Render

section Texts

theorem text_signed {leaf : Nat → Leaf} {suffix : String}
    (h : ∀ n, (leaf n).text = toString n ++ suffix) (value : Int) :
    (signed leaf value).text = toString value ++ suffix := by
  by_cases hneg : value < 0
  · have hnonneg : (((-value).toNat : Nat) : Int) = -value := Int.toNat_of_nonneg (by omega)
    have htext : toString (-value).toNat = toString (-value) := by rw [← hnonneg]; rfl
    rw [signed, if_pos hneg, Phrase.text, Phrase.text, h, htext, toString_of_neg hneg]
    simp [Head.before, Head.after, String.append_assoc]
  · have hnonneg : ((value.toNat : Nat) : Int) = value := Int.toNat_of_nonneg (by omega)
    have htext : toString value.toNat = toString value := by rw [← hnonneg]; rfl
    rw [signed, if_neg hneg, Phrase.text, h, htext]

theorem text_fields (names : List String) (a : Phrase) :
    (names.foldl (fun a name => .tail a (.field name)) a : Phrase).text =
      a.text ++ String.join (names.map fun name => "." ++ name) := by
  induction names generalizing a with
  | nil => simp
  | cons name names ih =>
    rw [List.foldl_cons, ih, List.map_cons, String.join_cons, Phrase.text, Tail.text,
      String.append_assoc]

theorem text_className (c : ClassName) : c.phrase.text = c.text :=
  text_fields c.rest _

theorem text_literal (t : TypeName) : t.literal.text = t.text ++ ".class" := by
  obtain ⟨base, n⟩ := t
  cases base with
  | primitive p => rfl
  | named c =>
    rw [TypeName.literal, Phrase.text, text_className, Tail.text, ← String.append_assoc]
    rfl

-- Two texts at the front of a list are like one that is made of them.
theorem intercalate_cons_cons (separator s t : String) (us : List String) :
    separator.intercalate (s :: t :: us) = separator.intercalate ((s ++ separator ++ t) :: us) := by
  cases us with
  | nil => simp [String.append_assoc]
  | cons u us => simp [String.intercalate_cons_cons, String.append_assoc]

theorem text_commas (as : List Phrase) (a : Phrase) :
    (as.foldl (fun a b => .link a .comma b) a : Phrase).text =
      ", ".intercalate (a.text :: as.map Phrase.text) := by
  induction as generalizing a with
  | nil => simp
  | cons b as ih =>
    rw [List.foldl_cons, ih, List.map_cons, intercalate_cons_cons, Phrase.text]
    simp [Link.between, Link.after]

theorem text_list? {as : List Phrase} {a : Phrase} (h : list? as = some a) :
    a.text = ", ".intercalate (as.map Phrase.text) := by
  cases as with
  | nil => cases h
  | cons b as =>
    obtain rfl := Option.some.inj h
    exact text_commas as b

theorem eq_nil_of_list? {as : List Phrase} (h : list? as = none) : as = [] := by
  cases as with
  | nil => rfl
  | cons a as => cases h

theorem text_member (q? : Option Phrase) (name : String) :
    (member q? name).text = qualified (q?.map Phrase.text) name := by
  cases q? with
  | none => rfl
  | some q => simp [member, qualified, Phrase.text, Tail.text, String.append_assoc]

theorem text_call (q? : Option Phrase) (name : String) (args : List Phrase) :
    (call q? name args).text =
      qualified (q?.map Phrase.text) name ++ argumentList (args.map Phrase.text) := by
  cases hlist : list? args with
  | none =>
    obtain rfl := eq_nil_of_list? hlist
    cases q? <;>
      simp [call, list?, qualified, argumentList, Phrase.text, Leaf.text, Tail.text,
        String.append_assoc]
  | some a =>
    rw [argumentList, ← text_list? hlist]
    cases q? <;>
      simp [call, hlist, qualified, Phrase.text, Head.before, Head.after, Link.between, Link.after,
        String.append_assoc]

theorem text_create (c : ClassName) (args : List Phrase) :
    (create c args).text = "new " ++ c.text ++ argumentList (args.map Phrase.text) := by
  cases hlist : list? args with
  | none =>
    obtain rfl := eq_nil_of_list? hlist
    simp [create, list?, argumentList, Phrase.text, Leaf.text, String.append_assoc]
  | some a =>
    rw [argumentList, ← text_list? hlist]
    simp [create, hlist, Phrase.text, Head.before, Head.after, String.append_assoc]

theorem text_allocation (b : Base) (length : Phrase) (n : Nat) :
    (allocation b length n).text =
      "new " ++ b.text ++ "[" ++ length.text ++ "]" ++ dimensionText n := by
  induction n with
  | zero => simp [allocation, Phrase.text, Head.before, Head.after, dimensionText]
  | succ n ih =>
    rw [allocation, Phrase.text, ih, dimensionText, dimensionText, List.replicate_succ',
      String.join_append]
    simp [Tail.text, String.append_assoc]

end Texts

section Spelling

variable {a b : Phrase}

theorem isSpelled_of_isWhole (h : a.isWhole) : a.isSpelled :=
  (Bool.and_eq_true_iff.1 h).1

theorem isWhole_leaf {l : Leaf} (h : l.isSpelled) : (Phrase.leaf l).isWhole :=
  Bool.and_eq_true_iff.2 ⟨h, by cases l <;> rfl⟩

theorem isWhole_head {h : Head} (hs : h.isSpelled) (ha : a.isSpelled) :
    (Phrase.head h a).isWhole :=
  Bool.and_eq_true_iff.2 ⟨Bool.and_eq_true_iff.2 ⟨hs, ha⟩, by cases h <;> rfl⟩

theorem isWhole_tail {t : Tail} (ha : a.isSpelled) (hs : t.isSpelled) :
    (Phrase.tail a t).isWhole :=
  Bool.and_eq_true_iff.2 ⟨Bool.and_eq_true_iff.2 ⟨ha, hs⟩, by cases t <;> rfl⟩

theorem isWhole_link {l : Link} (hne : l ≠ .comma) (ha : a.isSpelled) (hs : l.isSpelled)
    (hb : b.isSpelled) : (Phrase.link a l b).isWhole := by
  refine Bool.and_eq_true_iff.2
    ⟨Bool.and_eq_true_iff.2 ⟨Bool.and_eq_true_iff.2 ⟨ha, hs⟩, hb⟩, ?_⟩
  cases l with
  | comma => exact absurd rfl hne
  | operator op => cases op <;> rfl
  | _ => rfl

theorem isWhole_group (h : a.isWhole) : a.group.isWhole :=
  isWhole_head rfl (isSpelled_of_isWhole h)

theorem isWhole_signed {leaf : Nat → Leaf} (h : ∀ n, (leaf n).isSpelled) (value : Int) :
    (signed leaf value).isWhole := by
  rw [signed]
  split
  · exact isWhole_head rfl (h _)
  · exact isWhole_leaf (h _)

theorem isSpelled_fields {names : List String} (h : names.all isName) (a : Phrase) :
    (names.foldl (fun a name => .tail a (.field name)) a : Phrase).isSpelled = a.isSpelled := by
  induction names generalizing a with
  | nil => rfl
  | cons name names ih =>
    obtain ⟨hname, hnames⟩ := Bool.and_eq_true_iff.1 h
    rw [List.foldl_cons, ih hnames, isSpelled, Tail.isSpelled, hname, Bool.and_true]

theorem isSpelled_className {c : ClassName} (h : c.isSpelled) : c.phrase.isSpelled := by
  obtain ⟨hfirst, hrest⟩ := Bool.and_eq_true_iff.1 h
  rw [ClassName.phrase, isSpelled_fields hrest]
  exact hfirst

theorem isWhole_literal {t : TypeName} (h : t.isSpelled) : t.literal.isWhole := by
  obtain ⟨base, n⟩ := t
  cases base with
  | primitive p => exact isWhole_leaf rfl
  | named c => exact isWhole_tail (isSpelled_className h) rfl

theorem isSpelled_commas {as : List Phrase} (ha : a.isSpelled) (has : ∀ b ∈ as, b.isSpelled) :
    (as.foldl (fun a b => .link a .comma b) a : Phrase).isSpelled := by
  induction as generalizing a with
  | nil => exact ha
  | cons b as ih =>
    obtain ⟨hb, has⟩ := List.forall_mem_cons.1 has
    exact ih (by simp [isSpelled, Link.isSpelled, ha, hb]) has

theorem isSpelled_list? {as : List Phrase} (h : list? as = some a)
    (has : ∀ b ∈ as, b.isSpelled) : a.isSpelled := by
  cases as with
  | nil => cases h
  | cons b as =>
    obtain ⟨hb, has⟩ := List.forall_mem_cons.1 has
    obtain rfl := Option.some.inj h
    exact isSpelled_commas hb has

theorem isWhole_member {q? : Option Phrase} {name : String} (hname : isName name)
    (hq : ∀ q ∈ q?, q.isSpelled) : (member q? name).isWhole := by
  cases q? with
  | none => exact isWhole_leaf hname
  | some q => exact isWhole_tail (hq q rfl) hname

theorem isWhole_call {q? : Option Phrase} {name : String} {args : List Phrase}
    (hname : isName name) (hq : ∀ q ∈ q?, q.isSpelled) (hargs : ∀ a ∈ args, a.isSpelled) :
    (call q? name args).isWhole := by
  unfold call
  split
  · exact isWhole_leaf hname
  · next a hlist => exact isWhole_head hname (isSpelled_list? hlist hargs)
  · next q hlist => exact isWhole_tail (hq q rfl) hname
  · next q a hlist => exact isWhole_link nofun (hq q rfl) hname (isSpelled_list? hlist hargs)

theorem isWhole_create {c : ClassName} {args : List Phrase} (hc : c.isSpelled)
    (hargs : ∀ a ∈ args, a.isSpelled) : (create c args).isWhole := by
  rw [create]
  split
  · exact isWhole_leaf hc
  · next a hlist => exact isWhole_head hc (isSpelled_list? hlist hargs)

theorem isWhole_allocation {b : Base} {length : Phrase} (hb : b.isSpelled)
    (hlength : length.isSpelled) (n : Nat) : (allocation b length n).isWhole := by
  induction n with
  | zero => exact isWhole_head hb hlength
  | succ n ih => exact isWhole_tail (isSpelled_of_isWhole ih) rfl

end Spelling

end JvmLift.Source
