import JvmLift.Proofs.Straight
import Mathlib.Algebra.GroupWithZero.Nat

namespace JvmLift

-- A word of the machine's operand stack. A value that takes two has a word at place zero and,
-- below it, one at place one.
structure Word where
  element : Element
  place : Nat

-- The words of a value, the top first.
def Element.words (e : Element) : List Word :=
  (List.range e.ty.category).map fun place => ⟨e, place⟩

-- The words on the stack. An element without a position gets the current one where it is moved,
-- so it is read with that.
def State.words (s : State) : List Word :=
  (s.stack.map fun e => s.stamp e.element).flatMap Element.words

-- What an instruction does to the words on top of the stack: a block comes below the block under
-- it, and it stays above as well if it is copied.
structure Move where
  upper : Nat
  lower : Nat
  copies : Bool
deriving DecidableEq

namespace Move

def apply (move : Move) (words : List Word) : List Word :=
  let above := words.take move.upper
  let below := (words.drop move.upper).take move.lower
  (if move.copies then above else []) ++ (below ++ (above ++ words.drop (move.upper + move.lower)))

-- Whether a cut of the stack below a number of words leaves no value cut in two.
def cutsNothing (words : List Word) (count : Nat) : Bool :=
  words[count]?.all fun word => word.place = 0

-- Whether there are enough words, and both blocks end between two values.
structure Fits (move : Move) (words : List Word) : Prop where
  enough : move.upper + move.lower ≤ words.length
  above : cutsNothing words move.upper
  below : cutsNothing words (move.upper + move.lower)

open Opcode in
-- The moves of the instructions that copy words or exchange them.
def all : List (Opcode × Move) :=
  [(dup, ⟨1, 0, true⟩), (dupX1, ⟨1, 1, true⟩), (dupX2, ⟨1, 2, true⟩),
   (dup2, ⟨2, 0, true⟩), (dup2X1, ⟨2, 1, true⟩), (dup2X2, ⟨2, 2, true⟩),
   (swap, ⟨1, 1, false⟩)]

section Cuts

variable {move : Move} {es front back : List Element} {count : Nat}

theorem length_words (e : Element) : e.words.length = e.ty.category := by
  rw [Element.words, List.length_map, List.length_range]

theorem category_eq (ty : JvmType) : ty.category = 1 ∨ ty.category = 2 := by
  rw [JvmType.category]
  split
  · exact .inr rfl
  · exact .inl rfl

-- The first word of a value is at place zero, and only that.
theorem cutsNothing_words_append_iff {e : Element} {words : List Word} (h : count < e.ty.category) :
    cutsNothing (e.words ++ words) count ↔ count = 0 := by
  have hlen : count < e.words.length := by rwa [length_words]
  rw [cutsNothing, List.getElem?_append_left hlen, List.getElem?_eq_getElem hlen]
  simp [Element.words]

theorem cutsNothing_append (front back : List Word) (count : Nat) :
    cutsNothing (front ++ back) (front.length + count) = cutsNothing back count := by
  rw [cutsNothing, List.getElem?_append_right (Nat.le_add_right ..), Nat.add_sub_cancel_left,
    cutsNothing]

-- A cut that divides no value has whole values on either side.
theorem cutsNothing_iff :
    count ≤ (es.flatMap Element.words).length ∧ cutsNothing (es.flatMap Element.words) count ↔
      ∃ front back, es = front ++ back ∧ (front.flatMap Element.words).length = count := by
  induction es generalizing count with
  | nil =>
    constructor
    · rintro ⟨hcount, -⟩
      exact ⟨[], [], rfl, (Nat.le_zero.1 hcount).symm⟩
    · rintro ⟨front, back, hes, rfl⟩
      obtain ⟨rfl, rfl⟩ := List.append_eq_nil_iff.1 hes.symm
      exact ⟨Nat.le_refl _, rfl⟩
  | cons e es ih =>
    rw [List.flatMap_cons]
    by_cases hlt : count < e.ty.category
    · rw [cutsNothing_words_append_iff hlt]
      constructor
      · rintro ⟨-, rfl⟩
        exact ⟨[], e :: es, rfl, rfl⟩
      · rintro ⟨front, back, hes, rfl⟩
        cases front with
        | nil => exact ⟨Nat.zero_le _, rfl⟩
        | cons first front =>
          obtain ⟨rfl, -⟩ := List.cons.inj hes
          rw [List.flatMap_cons, List.length_append, length_words] at hlt
          omega
    · obtain ⟨more, rfl⟩ := Nat.exists_eq_add_of_le (Nat.le_of_not_lt hlt)
      rw [← length_words e, cutsNothing_append, List.length_append, Nat.add_le_add_iff_left, ih]
      constructor
      · rintro ⟨front, back, rfl, rfl⟩
        exact ⟨e :: front, back, rfl, by rw [List.flatMap_cons, List.length_append]⟩
      · rintro ⟨front, back, hes, hlen⟩
        cases front with
        | nil =>
          have hpos := category_eq e.ty
          rw [length_words] at hlen
          simp only [List.flatMap_nil, List.length_nil] at hlen
          omega
        | cons first front =>
          obtain ⟨rfl, rfl⟩ := List.cons.inj hes
          rw [List.flatMap_cons, List.length_append, Nat.add_left_cancel_iff] at hlen
          exact ⟨front, back, rfl, hlen⟩

-- A move fits exactly if its blocks are made of whole values.
theorem fits_iff : move.Fits (es.flatMap Element.words) ↔
    ∃ above below rest, es = above ++ (below ++ rest) ∧
      (above.flatMap Element.words).length = move.upper ∧
      (below.flatMap Element.words).length = move.lower := by
  constructor
  · rintro ⟨henough, habove, hbelow⟩
    obtain ⟨above, more, rfl, hupper⟩ := cutsNothing_iff.1 ⟨by omega, habove⟩
    rw [List.flatMap_append, ← hupper] at henough hbelow
    rw [List.length_append] at henough
    rw [cutsNothing_append] at hbelow
    obtain ⟨below, rest, rfl, hlower⟩ := cutsNothing_iff.1 ⟨by omega, hbelow⟩
    exact ⟨above, below, rest, rfl, hupper, hlower⟩
  · rintro ⟨above, below, rest, rfl, hupper, hlower⟩
    have hlen : ((above ++ below).flatMap Element.words).length = move.upper + move.lower := by
      rw [List.flatMap_append, List.length_append, hupper, hlower]
    obtain ⟨henough, hbelow⟩ :=
      cutsNothing_iff.2 ⟨above ++ below, rest, (List.append_assoc ..).symm, hlen⟩
    obtain ⟨-, habove⟩ := cutsNothing_iff.2 ⟨above, below ++ rest, rfl, hupper⟩
    exact ⟨henough, habove, hbelow⟩

-- Where a move fits it exchanges whole values.
theorem apply_flatMap {above below rest : List Element}
    (hupper : (above.flatMap Element.words).length = move.upper)
    (hlower : (below.flatMap Element.words).length = move.lower) :
    move.apply ((above ++ (below ++ rest)).flatMap Element.words) =
      ((if move.copies then above else []) ++ (below ++ (above ++ rest))).flatMap
        Element.words := by
  have hdrop (front back : List Word) (count : Nat) :
      (front ++ back).drop (front.length + count) = back.drop count := by
    rw [List.drop_append, List.drop_eq_nil_of_le (Nat.le_add_right ..), Nat.add_sub_cancel_left,
      List.nil_append]
  rw [apply, ← hupper, ← hlower, List.flatMap_append, List.flatMap_append, List.take_left,
    List.drop_left, List.take_left, hdrop, List.drop_left, List.flatMap_append,
    List.flatMap_append, List.flatMap_append]
  split <;> rfl

end Cuts

-- The ways to make up a number of words from values of one word and of two.
def compositions : Nat → List (List Nat)
  | 0 => [[]]
  | 1 => [[1]]
  | n + 2 => (compositions (n + 1)).map (1 :: ·) ++ (compositions n).map (2 :: ·)

theorem mem_compositions {n : Nat} {parts : List Nat} :
    parts ∈ compositions n ↔ parts.sum = n ∧ ∀ part ∈ parts, part = 1 ∨ part = 2 := by
  fun_induction compositions n generalizing parts with
  | case1 =>
    cases parts with
    | nil => simp
    | cons part parts => simp; omega
  | case2 =>
    rcases parts with _ | ⟨part, _ | ⟨next, parts⟩⟩
    · simp
    · simp; omega
    · simp; omega
  | case3 n ihone ihtwo =>
    cases parts with
    | nil => simp
    | cons part parts =>
      simp only [List.mem_append, List.mem_map, List.cons.injEq, exists_eq_right_right, ihone,
        ihtwo, List.sum_cons, List.forall_mem_cons]
      constructor
      · rintro (⟨⟨hsum, hall⟩, rfl⟩ | ⟨⟨hsum, hall⟩, rfl⟩)
        · exact ⟨by omega, .inl rfl, hall⟩
        · exact ⟨by omega, .inr rfl, hall⟩
      · rintro ⟨hsum, rfl | rfl, hall⟩
        · exact .inl ⟨⟨by omega, hall⟩, rfl⟩
        · exact .inr ⟨⟨by omega, hall⟩, rfl⟩

open Instruction

-- The form of a move for blocks of values with the given categories.
def form (move : Move) (above below : List Nat) : Shuffle.Form :=
  let upper := (List.range above.length).reverse
  let lower := (List.range' above.length below.length).reverse
  ⟨above ++ below, upper ++ (lower ++ if move.copies then upper else [])⟩

def forms (move : Move) : List Shuffle.Form :=
  (compositions move.lower).flatMap fun below =>
    (compositions move.upper).map fun above => move.form above below

-- The forms of an instruction are those of its move for all ways to make up the two blocks.
theorem forms_eq : Shuffle.forms = all.map fun (code, move) => (code, move.forms) := by
  decide

theorem mem_forms {move : Move} {form : Shuffle.Form} : form ∈ move.forms ↔
    ∃ above ∈ compositions move.upper, ∃ below ∈ compositions move.lower,
      form = move.form above below := by
  simp only [forms, List.mem_flatMap, List.mem_map]
  constructor
  · rintro ⟨below, hbelow, above, habove, rfl⟩
    exact ⟨above, habove, below, hbelow, rfl⟩
  · rintro ⟨above, habove, below, hbelow, rfl⟩
    exact ⟨below, hbelow, above, habove, rfl⟩

section Forms

variable {move : Move} {s : State}

theorem length_flatMap_words (es : List Element) :
    (es.flatMap Element.words).length = (es.map (·.ty.category)).sum := by
  simp only [List.length_flatMap, length_words]

theorem map_category_mem_compositions (es : List Element) :
    es.map (·.ty.category) ∈ compositions (es.flatMap Element.words).length := by
  rw [mem_compositions, length_flatMap_words]
  refine ⟨rfl, fun category hcategory => ?_⟩
  obtain ⟨e, -, rfl⟩ := List.mem_map.1 hcategory
  exact category_eq e.ty

theorem ty_stamp (s : State) (e : Element) : (s.stamp e).ty = e.ty := by
  rw [State.stamp]
  split <;> rfl

theorem stamp_stamp (s : State) (e : Element) : s.stamp (s.stamp e) = s.stamp e := by
  have hs : (s.stamp e).isStamped := by
    by_cases h : e.isStamped
    · rwa [State.stamp, if_pos h]
    · rw [State.stamp, if_neg h]
      rfl
  exact if_pos hs

-- The form of the move that is found for the stack divides it into the two blocks and a rest.
theorem exists_blocks_of_form {form : Shuffle.Form}
    (h : move.forms.find? (fun form => s.hasCategories form.categories) = some form) :
    ∃ above below rest : List Entry, s.stack = above ++ (below ++ rest) ∧
      form = move.form (above.map (·.element.ty.category)) (below.map (·.element.ty.category)) ∧
      (above.map (·.element.ty.category)).sum = move.upper ∧
      (below.map (·.element.ty.category)).sum = move.lower := by
  obtain ⟨a, ha, b, hb, rfl⟩ := mem_forms.1 (List.mem_of_find?_eq_some h)
  have hs : s.hasCategories (a ++ b) := List.find?_some
    (p := fun form : Shuffle.Form => s.hasCategories form.categories) h
  rw [State.hasCategories, List.isPrefixOf_iff_prefix] at hs
  obtain ⟨c, hc⟩ := hs
  have hc : s.stack.map (·.element.ty.category) = a ++ (b ++ c) := by
    rw [← List.append_assoc]
    exact hc.symm
  obtain ⟨above, more, hstack, rfl, hmore⟩ := List.map_eq_append_iff.1 hc
  obtain ⟨below, rest, rfl, rfl, -⟩ := List.map_eq_append_iff.1 hmore
  exact ⟨above, below, rest, hstack, rfl, (mem_compositions.1 ha).1, (mem_compositions.1 hb).1⟩

theorem exists_form_of_fits (h : move.Fits s.words) :
    ∃ form, move.forms.find? (fun form => s.hasCategories form.categories) = some form := by
  obtain ⟨above, below, rest, hstack, hupper, hlower⟩ := fits_iff.1 h
  rw [← Option.isSome_iff_exists, List.find?_isSome]
  refine ⟨_, mem_forms.2 ⟨_, hupper ▸ map_category_mem_compositions above, _,
    hlower ▸ map_category_mem_compositions below, rfl⟩, ?_⟩
  have hcategories : s.categories =
      (above.map (·.ty.category) ++ below.map (·.ty.category)) ++ rest.map (·.ty.category) := by
    have hmap := congrArg (List.map fun e : Element => e.ty.category) hstack
    simp only [List.map_map, List.map_append, Function.comp_def, ty_stamp] at hmap
    rw [List.append_assoc]
    exact hmap
  rw [State.hasCategories, List.isPrefixOf_iff_prefix, hcategories]
  exact List.prefix_append ..

-- What is named by depth in a range of depths is a part of the list.
theorem filterMap_getElem?_range' {α : Type} (xs : List α) (start count : Nat) :
    (List.range' start count).filterMap (xs[·]?) = (xs.drop start).take count := by
  induction count generalizing start with
  | zero => rfl
  | succ count ih =>
    rw [List.range'_succ, List.filterMap_cons, ih]
    by_cases h : start < xs.length
    · rw [List.getElem?_eq_getElem h, List.drop_eq_getElem_cons h]
      rfl
    · have hlen : xs.length ≤ start := Nat.le_of_not_lt h
      rw [List.getElem?_eq_none hlen, List.drop_eq_nil_of_le hlen,
        List.drop_eq_nil_of_le (Nat.le_succ_of_le hlen), List.take_nil, List.take_nil]

-- The order of a form names the upper block, the lower one above it, and above both the copy.
theorem filterMap_order {α : Type} {above below : List α} {a b : List Nat}
    (ha : a.length = above.length) (hb : b.length = below.length) :
    (move.form a b).order.filterMap ((above ++ below)[·]?) =
      ((if move.copies then above else []) ++ (below ++ above)).reverse := by
  have hupper : (List.range a.length).reverse.filterMap ((above ++ below)[·]?) =
      above.reverse := by
    rw [List.filterMap_reverse, List.range_eq_range', filterMap_getElem?_range', List.drop_zero, ha,
      List.take_left]
  have hlower : (List.range' a.length b.length).reverse.filterMap ((above ++ below)[·]?) =
      below.reverse := by
    rw [List.filterMap_reverse, filterMap_getElem?_range', ha, List.drop_left, hb, List.take_length]
  simp only [form, List.filterMap_append, hupper, hlower, List.reverse_append, List.append_assoc]
  split
  · rw [hupper]
  · rfl

theorem exec_forM_push (es : List Element) (s : State) :
    exec (es.forM Action.push) s = (.ok ⟨⟩, es.foldl State.push s) := by
  induction es generalizing s with
  | nil => rfl
  | cons e es ih => exact ih (s.push e)

-- What is pushed lies on top, the last of it first.
theorem exists_foldl_push (es : List Element) (s : State) :
    ∃ pushed : List Entry, es.foldl State.push s =
        { s with stack := pushed ++ s.stack, version := s.version + es.length } ∧
      pushed.map (·.element) = es.reverse.map s.stamp := by
  induction es generalizing s with
  | nil => exact ⟨[], rfl, rfl⟩
  | cons e es ih =>
    obtain ⟨pushed, hfold, hmap⟩ := ih (s.push e)
    refine ⟨pushed ++ [s.entry e], ?_, ?_⟩
    · rw [List.foldl_cons, hfold, List.append_assoc, List.length_cons, Nat.add_comm es.length,
        ← Nat.add_assoc]
      rfl
    · rw [List.map_append, hmap, List.reverse_cons, List.map_append]
      rfl

-- Where a form fits, the blocks are taken from the stack and put back as the move says.
theorem exec_rearrange {forms : List Shuffle.Form} {above below rest : List Entry} {a b : List Nat}
    (hfind : forms.find? (fun form => s.hasCategories form.categories) = some (move.form a b))
    (hs : s.stack = above ++ (below ++ rest)) (ha : a.length = above.length)
    (hb : b.length = below.length) (code : Opcode) :
    ∃ (pushed : List Entry) (version : Nat), exec (Shuffle.rearrange forms code) s =
        (.ok ⟨⟩, { s with stack := pushed ++ rest, version }) ∧
      pushed.map (·.element) =
        ((if move.copies then above else []) ++ (below ++ above)).map (s.stamp ·.element) := by
  have hlen : (move.form a b).categories.length = ((above ++ below).reverse).length := by
    rw [List.length_reverse, List.length_append, ← ha, ← hb, form, List.length_append]
  have hstack : s.stack = (above ++ below).reverse.reverse ++ rest := by
    rw [List.reverse_reverse, hs, List.append_assoc]
  have hmoved : (if move.copies then above.map (·.element) else []) ++
      (below.map (·.element) ++ above.map (·.element)) =
        ((if move.copies then above else []) ++ (below ++ above)).map (·.element) := by
    split <;> simp only [List.map_append, List.map_nil]
  obtain ⟨pushed, hfold, hmap⟩ := exists_foldl_push
    (((if move.copies then above else []) ++ (below ++ above)).map (·.element)).reverse
    (s.leaving rest)
  refine ⟨pushed, s.version + ((((if move.copies then above else []) ++ (below ++ above)).map
    (·.element)).reverse).length, ?_, ?_⟩
  · rw [Shuffle.rearrange, exec_bind_of_ok (exec_get s)]
    simp only [hfind]
    rw [hlen, exec_bind_of_ok (Action.exec_popMany_of_append hstack), List.map_reverse,
      List.reverse_reverse, List.map_append,
      filterMap_order (ha.trans (List.length_map _).symm) (hb.trans (List.length_map _).symm),
      exec_forM_push, hmoved, hfold]
    rfl
  · rw [hmap, List.reverse_reverse, List.map_map]
    rfl

theorem length_flatMap_words_stamp (s : State) (entries : List Entry) :
    ((entries.map fun e => s.stamp e.element).flatMap Element.words).length =
      (entries.map (·.element.ty.category)).sum := by
  rw [length_flatMap_words, List.map_map]
  simp only [Function.comp_def, ty_stamp]

-- Two blocks of entries with as many words as the move has in its blocks fit it.
theorem fits_words {above below rest : List Entry} (hs : s.stack = above ++ (below ++ rest))
    (hupper : (above.map (·.element.ty.category)).sum = move.upper)
    (hlower : (below.map (·.element.ty.category)).sum = move.lower) : move.Fits s.words := by
  rw [State.words, hs, List.map_append, List.map_append]
  exact fits_iff.2 ⟨_, _, _, rfl, (length_flatMap_words_stamp s above).trans hupper,
    (length_flatMap_words_stamp s below).trans hlower⟩

-- To put the entries of the blocks back in their new order is to move the words.
theorem words_eq_apply {t : State} {above below rest pushed : List Entry}
    (hs : s.stack = above ++ (below ++ rest)) (ht : t.stack = pushed ++ rest)
    (hstamp : t.stamp = s.stamp)
    (hupper : (above.map (·.element.ty.category)).sum = move.upper)
    (hlower : (below.map (·.element.ty.category)).sum = move.lower)
    (hpushed : pushed.map (·.element) =
      ((if move.copies then above else []) ++ (below ++ above)).map (s.stamp ·.element)) :
    t.words = move.apply s.words := by
  have hstamped : pushed.map (fun e => s.stamp e.element) =
      ((if move.copies then above else []) ++ (below ++ above)).map (s.stamp ·.element) := by
    have hmap := congrArg (List.map s.stamp) hpushed
    simpa only [List.map_map, Function.comp_def, stamp_stamp] using hmap
  have hcopy : (if move.copies then above else []).map (s.stamp ·.element) =
      if move.copies then above.map (s.stamp ·.element) else [] := by
    split <;> rfl
  rw [State.words, State.words, hs, ht, hstamp, List.map_append, hstamped, List.map_append,
    List.map_append, List.map_append, List.map_append,
    apply_flatMap ((length_flatMap_words_stamp s above).trans hupper)
      ((length_flatMap_words_stamp s below).trans hlower), hcopy, List.append_assoc,
    List.append_assoc]

-- Where the move fits, the entries that make up its blocks are put back as it says.
theorem exec_rearrange_of_fits (h : move.Fits s.words) (code : Opcode) :
    ∃ t above below rest pushed, exec (Shuffle.rearrange move.forms code) s = (.ok ⟨⟩, t) ∧
      t.words = move.apply s.words ∧ s.stack = above ++ (below ++ rest) ∧
      t.stack = pushed ++ rest ∧ (above.map (·.element.ty.category)).sum = move.upper ∧
      (below.map (·.element.ty.category)).sum = move.lower ∧
      t = { s with stack := t.stack, version := t.version } := by
  obtain ⟨_, hfind⟩ := exists_form_of_fits h
  obtain ⟨above, below, rest, hstack, rfl, hupper, hlower⟩ := exists_blocks_of_form hfind
  obtain ⟨pushed, version, hexec, hpushed⟩ :=
    exec_rearrange hfind hstack (List.length_map _) (List.length_map _) code
  have hwords := words_eq_apply (t := { s with stack := pushed ++ rest, version }) hstack rfl rfl
    hupper hlower hpushed
  exact ⟨_, above, below, rest, pushed, hexec, hwords, hstack, rfl, hupper, hlower, rfl⟩

-- Where it does not, there is no form of it for the stack.
theorem exec_rearrange_of_not_fits (h : ¬move.Fits s.words) (code : Opcode) :
    exec (Shuffle.rearrange move.forms code) s = (.error (Shuffle.shapeFault s code), s) := by
  have hfind : move.forms.find? (fun form => s.hasCategories form.categories) = none := by
    refine Option.eq_none_iff_forall_ne_some.2 fun form hfind => h ?_
    obtain ⟨above, below, rest, hstack, -, hupper, hlower⟩ := exists_blocks_of_form hfind
    exact fits_words hstack hupper hlower
  rw [Shuffle.rearrange, exec_bind_of_ok (exec_get s), hfind]
  rfl

end Forms

end Move

namespace Registry

open Instruction Declaration

variable {s : State} {code : Opcode} {move : Move}

-- The rule of an instruction that moves words, unless it completes the allocation of an array.
theorem primary?_of_mem_moves (h : (code, move) ∈ Move.all)
    (hcopy : code = Opcode.dup → ¬s.topIs .newArray) :
    core.primary? s code = some (on [code] (Shuffle.rearrange move.forms)).rule := by
  have hforms : (code, move.forms) ∈ Shuffle.forms := by
    rw [Move.forms_eq]
    exact List.mem_map.2 ⟨(code, move), h, rfl⟩
  have hd : on [code] (Shuffle.rearrange move.forms) ∈ Shuffle.rules :=
    List.mem_append_right _ (List.mem_map.2 ⟨(code, move.forms), hforms, rfl⟩)
  by_cases hdup : code = Opcode.dup
  · subst hdup
    have hmove : ∀ entry ∈ Move.all, entry.1 = Opcode.dup → entry.2 = ⟨1, 0, true⟩ := by decide
    rw [show move = ⟨1, 0, true⟩ from hmove _ h rfl]
    exact primary?_dup_of_not_newArray (hcopy rfl)
  · have hpop : ∀ entry ∈ Move.all, entry.1 ≠ Opcode.pop := by decide
    exact primary?_core (mem_rules_shuffle hd) rfl (List.mem_singleton_self code) hdup (hpop _ h)
      rfl

-- An instruction that copies or exchanges words succeeds exactly if there are enough of them and it
-- divides no value. Then it has moved the words and nothing else; otherwise nothing has changed.
theorem primary_moves_words (h : (code, move) ∈ Move.all)
    (hcopy : code = Opcode.dup → ¬s.topIs .newArray) :
    ∃ rule, core.primary? s code = some rule ∧
      (move.Fits s.words → ∃ t above below rest pushed,
        exec (rule.run code) s = (.ok ⟨⟩, t) ∧ t.words = move.apply s.words ∧
        s.stack = above ++ (below ++ rest) ∧ t.stack = pushed ++ rest ∧
        (above.map (·.element.ty.category)).sum = move.upper ∧
        (below.map (·.element.ty.category)).sum = move.lower ∧
        t = { s with stack := t.stack, version := t.version }) ∧
      (¬move.Fits s.words → exec (rule.run code) s = (.error (Shuffle.shapeFault s code), s) ∧
        (Shuffle.shapeFault s code).kind = .format) :=
  ⟨_, primary?_of_mem_moves h hcopy, fun hfits => Move.exec_rearrange_of_fits hfits code,
    fun hnot => ⟨Move.exec_rearrange_of_not_fits hnot code, rfl⟩⟩

-- A long variable over two int variables.
def longOverInts : State :=
  let m : Method :=
    { className := "A", name := "m", descriptor := "()V", signature := ⟨[], .void⟩ }
  let entries := [(2, JvmType.long), (1, .int), (0, .int)].map fun (slot, ty) =>
    (⟨⟨.localVar ⟨"x", ty, slot⟩, ⟨none, some 0⟩⟩, 0, slot.toNat⟩ : Entry)
  { State.start m (.behind [] 0) with stack := entries }

-- The two words of the long come below the int as well. With one word, the long would be cut in
-- two.
theorem primary_moves_words_longOverInts :
    (∃ rule t, core.primary? longOverInts Opcode.dup2X1 = some rule ∧
      exec (rule.run Opcode.dup2X1) longOverInts = (.ok ⟨⟩, t) ∧
      t.words.map (fun word => (word.element.ty, word.place)) =
        [(.long, 0), (.long, 1), (.int, 0), (.long, 0), (.long, 1), (.int, 0)]) ∧
    ∃ rule, core.primary? longOverInts Opcode.dupX1 = some rule ∧
      exec (rule.run Opcode.dupX1) longOverInts =
        (.error (Shuffle.shapeFault longOverInts Opcode.dupX1), longOverInts) := by
  have hall : (Opcode.dup2X1, ⟨2, 1, true⟩) ∈ Move.all ∧
      (Opcode.dupX1, ⟨1, 1, true⟩) ∈ Move.all := by decide
  constructor
  · obtain ⟨rule, hrule, hmoves, -⟩ := primary_moves_words (s := longOverInts) hall.1 (by decide)
    obtain ⟨t, -, -, -, -, hexec, hwords, -⟩ := hmoves ⟨by decide, by decide, by decide⟩
    exact ⟨rule, t, hrule, hexec, hwords ▸ by decide⟩
  · obtain ⟨rule, hrule, -, hfails⟩ := primary_moves_words (s := longOverInts) hall.2 (by decide)
    exact ⟨rule, hrule, (hfails fun hfits => absurd hfits.above (by decide)).1⟩

end Registry

end JvmLift
