import JvmLift.Proofs.Source.Starts
import Mathlib.Logic.Relation

namespace JvmLift.Source

-- What waits for an expression to end.
inductive Frame where
  | head (h : Head)
  | link (a : Phrase) (l : Link)

namespace Frame

def fill : Frame → Phrase → Phrase
  | head h, a => .head h a
  | link a l, b => .link a l b

def bracket? : Frame → Option Bracket
  | head h => h.bracket?
  | link _ l => l.bracket?

def level : Frame → Nat
  | head h => h.level
  | link _ l => l.level

end Frame

-- Ends the expressions that hold together no less tightly than a level, up to a bracket.
def settle (n : Nat) : List Frame → Phrase → List Frame × Phrase
  | [], a => ([], a)
  | f :: fs, a =>
    if f.bracket? = none ∧ n ≤ f.level then settle n fs (f.fill a) else (f :: fs, a)

-- A reader of tokens from left to right, with an operand in front of the rest or where one is due.
structure Reader where
  frames : List Frame
  operand? : Option Phrase
  rest : List Token

namespace Reader

def attach (t : Tail) (fs : List Frame) (a : Phrase) (ts : List Token) : Reader :=
  ⟨(settle t.level fs a).1, some (.tail (settle t.level fs a).2 t), ts⟩

def push (l : Link) (fs : List Frame) (a : Phrase) (ts : List Token) : Reader :=
  ⟨.link (settle l.level fs a).2 l :: (settle l.level fs a).1, none, ts⟩

def close? (b : Bracket) (fs : List Frame) (a : Phrase) (ts : List Token) : Option Reader :=
  match settle 1 fs a with
  | (f :: fs, a) => if f.bracket? = some b then some ⟨fs, some (f.fill a), ts⟩ else none
  | ([], _) => none

-- Behind an operand. In front of a bracket it matters whether the operand is a new array.
def next? (fs : List Frame) (a : Phrase) : List Token → Option Reader
  | .operator op :: ts => some (push (.operator op) fs a ts)
  | .comma :: ts => some (push .comma fs a ts)
  | .keyword .instanceOf :: ts => (type? ts).map fun p => attach (.instanceOf p.1) fs a p.2
  | .dot :: .keyword .classLiteral :: ts => some (attach (.classOf 0) fs a ts)
  | .dot :: .name x :: .opening .round :: .closing .round :: ts => some (attach (.call x) fs a ts)
  | .dot :: .name x :: .opening .round :: ts => some (push (.call x) fs a ts)
  | .dot :: .name x :: ts => some (attach (.field x) fs a ts)
  | .reference :: .name x :: ts => some (attach (.reference x) fs a ts)
  | .reference :: .keyword .new :: ts => some (attach .construct fs a ts)
  | .opening .square :: .closing .square :: ts =>
    if a.isAllocation then some (attach .dimension fs a ts)
    else
      match dimensions ts with
      | (n, .dot :: .keyword .classLiteral :: rest) => some (attach (.classOf (n + 1)) fs a rest)
      | _ => none
  | .opening .square :: ts => some (push (if a.isAllocation then .dimension else .index) fs a ts)
  | .closing b :: ts => close? b fs a ts
  | _ => none

def step? : Reader → Option Reader
  | ⟨fs, none, ts⟩ =>
    (start? ts).map fun p =>
      match p.1 with
      | .leaf l => ⟨fs, some (.leaf l), p.2⟩
      | .head h => ⟨.head h :: fs, none, p.2⟩
  | ⟨fs, some a, ts⟩ => next? fs a ts

def Runs : Reader → Reader → Prop :=
  Relation.ReflTransGen fun r s => step? r = some s

end Reader

section Levels

theorem one_le_level (a : Phrase) : 1 ≤ a.level := by
  cases a with
  | leaf l => cases l <;> simp [Phrase.level, Leaf.level]
  | head h a => cases h <;> simp [Phrase.level, Head.level]
  | tail a t => cases t <;> simp [Phrase.level, Tail.level]
  | link a l b => cases l <;> simp [Phrase.level, Link.level, operatorLevel]

theorem one_le_reach (a : Phrase) : 1 ≤ a.reach := by
  induction a with
  | leaf _ | tail _ _ => simp [Phrase.reach]
  | head h a ih =>
    have hlevel : 1 ≤ h.level := one_le_level (.head h a)
    rw [Phrase.reach]
    split <;> omega
  | link a l b _ ih =>
    have hlevel : 1 ≤ l.level := one_le_level (.link a l b)
    rw [Phrase.reach]
    split <;> omega

theorem operatorLevel_le (op : BinaryOp) : operatorLevel op ≤ 10 := by
  cases op <;> decide

-- Only what has nothing behind it to close it waits for what follows.
theorem Head.level_le {h : Head} (hopen : h.bracket? = none) : h.level ≤ 11 := by
  cases h with
  | negate | not | cast _ => exact Nat.le_refl 11
  | lambda _ => exact Nat.le_of_ble_eq_true rfl
  | _ => cases hopen

theorem Link.level_le {l : Link} (hopen : l.bracket? = none) : l.level ≤ 10 := by
  cases l with
  | operator op => exact operatorLevel_le op
  | comma => simp [Link.level]
  | _ => cases hopen

theorem Frame.level_le {f : Frame} (hopen : f.bracket? = none) : f.level ≤ 11 := by
  cases f with
  | head h => exact Head.level_le hopen
  | link a l => exact Nat.le_succ_of_le (Link.level_le hopen)

theorem reach_of_level {a : Phrase} (h : 12 ≤ a.level) : a.reach = 13 := by
  cases a with
  | leaf _ | tail _ _ => rfl
  | head h' a =>
    rw [Phrase.reach, if_neg]
    intro hopen
    have hle := Head.level_le (Option.isNone_iff_eq_none.1 hopen)
    have hlevel : 12 ≤ h'.level := h
    omega
  | link a l b =>
    rw [Phrase.reach, if_neg]
    intro hopen
    have hle := Link.level_le (Option.isNone_iff_eq_none.1 hopen)
    have hlevel : 12 ≤ l.level := h
    omega

theorem level_of_isPath {a : Phrase} (h : a.isPath) : a.level = 13 := by
  cases a with
  | leaf l => cases l <;> first | rfl | cases h
  | tail a t => cases t <;> first | rfl | cases h
  | _ => cases h

theorem level_of_isAllocation {a : Phrase} (h : a.isAllocation) : a.level = 12 := by
  cases a with
  | leaf l => cases h
  | head h' a => cases h' <;> first | rfl | cases h
  | tail a t => cases t <;> first | rfl | cases h
  | link a l b => cases l <;> first | rfl | cases h

theorem isAllocation_of_level {a : Phrase} (h : a.level = 13) : a.isAllocation = false := by
  refine Bool.eq_false_iff.2 fun hallocation => ?_
  rw [level_of_isAllocation hallocation] at h
  cases h

theorem isAllocation_of_isDimensioned {a : Phrase} (h : a.isDimensioned) : a.isAllocation := by
  cases a with
  | leaf l => cases h
  | head h' a => cases h' <;> first | rfl | cases h
  | tail a t => cases h
  | link a l b => cases l <;> first | rfl | cases h

theorem Tail.le_level {t : Tail} {a : Phrase} (h : t.admits a) :
    min t.level 12 ≤ a.level ∧ t.level ≤ a.reach := by
  have hprimary (hlevel : 12 ≤ a.level) : min t.level 12 ≤ a.level ∧ t.level ≤ a.reach := by
    refine ⟨by omega, ?_⟩
    rw [reach_of_level hlevel]
    cases t <;> simp [Tail.level]
  cases t with
  | field x | call x =>
    simp only [Tail.admits, Bool.and_eq_true, decide_eq_true_eq] at h
    exact hprimary h.1
  | classOf n | construct => exact hprimary (by rw [level_of_isPath h]; omega)
  | instanceOf t =>
    simp only [Tail.admits, Bool.and_eq_true, decide_eq_true_eq] at h
    exact ⟨h.1, h.2⟩
  | reference x => exact hprimary (of_decide_eq_true h)
  | dimension => exact hprimary (Nat.le_of_eq (level_of_isAllocation h).symm)

theorem Link.le_level {l : Link} {a : Phrase} (h : l.admitsLeft a) :
    min l.level 12 ≤ a.level ∧ l.level ≤ a.reach := by
  have hprimary (hlevel : 12 ≤ a.level) : min l.level 12 ≤ a.level ∧ l.level ≤ a.reach := by
    refine ⟨by omega, ?_⟩
    rw [reach_of_level hlevel]
    cases l with
    | operator op => exact Nat.le_trans (operatorLevel_le op) (by omega)
    | _ => simp [Link.level]
  cases l with
  | operator op =>
    simp only [Link.admitsLeft, Bool.and_eq_true, decide_eq_true_eq] at h
    exact ⟨Nat.le_trans (Nat.min_le_left ..) h.1, h.2⟩
  | comma => exact ⟨one_le_level a, one_le_reach a⟩
  | index => exact hprimary (by rw [of_decide_eq_true h]; omega)
  | call x =>
    simp only [Link.admitsLeft, Bool.and_eq_true, decide_eq_true_eq] at h
    exact hprimary h.1
  | dimension =>
    exact hprimary (Nat.le_of_eq (level_of_isAllocation (isAllocation_of_isDimensioned h)).symm)

end Levels

section Settling

-- Whether what waits on top is not ended by what holds together as tightly as a level.
def Rests (n : Nat) (fs : List Frame) : Prop :=
  ∀ f ∈ fs.head?, f.bracket? = none → f.level < n

variable {n : Nat} {fs : List Frame} {a b : Phrase}

theorem settle_of_rests (h : Rests n fs) (a : Phrase) : settle n fs a = (fs, a) := by
  cases fs with
  | nil => rfl
  | cons f fs =>
    rw [settle, if_neg]
    rintro ⟨hopen, hle⟩
    exact Nat.not_le.2 (h f rfl hopen) hle

theorem rests_of_le (h : 12 ≤ n) (fs : List Frame) : Rests n fs := by
  intro f _ hopen
  have hle := Frame.level_le hopen
  omega

-- What is left of an operator or of a bracket is held together more tightly than what waits.
theorem Rests.of_min_le {m : Nat} (h : Rests n fs) (hle : min n 12 ≤ m) : Rests m fs := by
  intro f hf hopen
  have hlt := h f hf hopen
  have hle' := Frame.level_le hopen
  omega

theorem rests_bracket {f : Frame} (h : f.bracket? ≠ none) (fs : List Frame) :
    Rests n (f :: fs) := by
  intro g hg hopen
  obtain rfl := Option.some.inj hg
  exact absurd hopen h

-- Nothing waits for the end of an operand that needs no parentheses as a target.
theorem eq_of_settle_eq {fs' : List Frame} {a' : Phrase} (hlevel : 12 ≤ a.level)
    (h : ∀ n ≤ a.reach, settle n fs' a' = settle n fs a) : fs' = fs ∧ a' = a := by
  have hsettle := h 13 (Nat.le_of_eq (reach_of_level hlevel).symm)
  rw [settle_of_rests (rests_of_le (by omega) _), settle_of_rests (rests_of_le (by omega) _)]
    at hsettle
  exact Prod.mk.inj hsettle

end Settling

section Steps

-- Whether something of the same expression stands in front of the root.
def Phrase.isTrailing : Phrase → Bool
  | tail _ _ | link _ _ _ => true
  | _ => false

theorem level_of_isTrailing {a : Phrase} (h : a.isTrailing) : a.level ≠ 2 ∧ a.level ≠ 11 := by
  cases a with
  | leaf l => cases h
  | head h' a => cases h
  | tail a t => cases t <;> simp [Phrase.level, Tail.level]
  | link a l b =>
    cases l with
    | operator op =>
      have hlow : 3 ≤ operatorLevel op := Nat.le_add_left 3 _
      have hhigh := operatorLevel_le op
      show operatorLevel op ≠ 2 ∧ operatorLevel op ≠ 11
      omega
    | _ => simp [Phrase.level, Link.level]

theorem Head.level_lt {h : Head} {a : Phrase} (hadmits : h.admits a) (hopen : h.bracket? = none)
    (htrailing : a.isTrailing) : h.level < a.level := by
  obtain ⟨htwo, heleven⟩ := level_of_isTrailing htrailing
  cases h with
  | negate =>
    simp only [Head.admits, Bool.and_eq_true, decide_eq_true_eq] at hadmits
    show 11 < a.level
    omega
  | not =>
    have hle : 11 ≤ a.level := of_decide_eq_true hadmits
    show 11 < a.level
    omega
  | cast t =>
    simp only [Head.admits, Bool.or_eq_true, Bool.and_eq_true, decide_eq_true_eq] at hadmits
    show 11 < a.level
    rcases hadmits with ⟨hle, -⟩ | ⟨heq, -⟩
    · omega
    · exact absurd heq htwo
  | lambda xs =>
    have hle : 2 ≤ a.level := of_decide_eq_true hadmits
    show 2 < a.level
    omega
  | _ => cases hopen

theorem Link.level_lt {l : Link} {b : Phrase} (hadmits : l.admitsRight b)
    (hopen : l.bracket? = none) : l.level < b.level := by
  cases l with
  | operator op => exact of_decide_eq_true hadmits
  | comma => exact of_decide_eq_true hadmits
  | _ => cases hopen

theorem Tail.follows {t : Tail} {a : Phrase} (h : t.admits a) (rest : List Token) :
    Follows a (t.tokens ++ rest) := by
  intro u hu
  have hlevel := (Tail.le_level h).1
  cases t with
  | instanceOf t =>
    cases hu
    exact .inl rfl
  | classOf n =>
    rw [level_of_isPath h]
    cases n <;> cases hu <;> exact .inr ⟨by omega, rfl⟩
  | _ =>
    cases hu
    exact .inr ⟨hlevel, rfl⟩

theorem Link.follows {l : Link} {a : Phrase} (h : l.admitsLeft a) (rest : List Token) :
    Follows a (l.betweenTokens ++ rest) := by
  intro u hu
  have hlevel := (Link.le_level h).1
  cases l <;> cases hu <;> first | exact .inl rfl | exact .inr ⟨hlevel, rfl⟩

theorem Follows.closing {f : Frame} {b : Phrase} {rest : List Token}
    (h : Follows (f.fill b) rest) : Follows b (closingTokens f.bracket? ++ rest) := by
  intro u hu
  cases hbracket : f.bracket? with
  | none =>
    rw [hbracket] at hu
    have hlevel : (f.fill b).level ≤ 11 := by
      have hle := Frame.level_le hbracket
      cases f <;> exact hle
    rcases h u hu with hnext | ⟨hle, -⟩
    · exact .inl hnext
    · omega
  | some br =>
    rw [hbracket] at hu
    cases hu
    exact .inl rfl

namespace Reader

theorem next?_tail {t : Tail} {fs : List Frame} {a a' : Phrase} {rest : List Token}
    (h : t.admits a) (hrest : Follows (.tail a t) rest) (heq : 12 ≤ a.level → a' = a) :
    next? fs a' (t.tokens ++ rest) = some (attach t fs a' rest) := by
  cases t with
  | call x | reference x | construct => rfl
  | field x =>
    have hround : rest.head? ≠ some (.opening .round) := hrest.head?_ne rfl rfl
    show next? fs a' (.dot :: .name x :: rest) = _
    rw [next?]
    · rintro ts rfl
      exact hround rfl
    · rintro ts rfl
      exact hround rfl
  | classOf n =>
    cases n with
    | zero => rfl
    | succ n =>
      have hlevel := level_of_isPath h
      have hallocation : a'.isAllocation = false := by
        rw [heq (by omega)]
        exact isAllocation_of_level hlevel
      have hdimensions := dimensions_append n (.dot :: .keyword .classLiteral :: rest) rfl
      simp only [Tail.tokens, dimensionTokens, List.cons_append, List.append_assoc, List.nil_append]
      rw [next?, hallocation, if_neg Bool.false_ne_true, hdimensions]
  | instanceOf t =>
    have hmember {u : Token} (hu : u.isNext = false) : rest.head? ≠ some u := by
      intro hhead
      rcases hrest _ hhead with hnext | ⟨hlevel, -⟩
      · rw [hu] at hnext
        cases hnext
      · exact absurd hlevel (by simp [Phrase.level, Tail.level])
    have hdot : rest.head? ≠ some .dot := hmember rfl
    have hdimension : startsWithDimension rest = false := by
      refine Bool.eq_false_iff.2 fun hstarts => ?_
      unfold startsWithDimension at hstarts
      split at hstarts
      · exact hmember (u := .opening .square) rfl rfl
      · cases hstarts
    show next? fs a' (.keyword .instanceOf :: (t.tokens ++ rest)) = _
    rw [next?, type?_append t rest hdot hdimension]
    rfl
  | dimension =>
    have hlevel : 12 ≤ a.level := Nat.le_of_eq (level_of_isAllocation h).symm
    have hallocation : a'.isAllocation := by rwa [heq hlevel]
    show next? fs a' (.opening .square :: .closing .square :: rest) = _
    rw [next?, if_pos hallocation]

theorem next?_link {l : Link} {fs : List Frame} {a a' : Phrase} (h : l.admitsLeft a)
    (heq : 12 ≤ a.level → a' = a) (b : Phrase) (rest : List Token) :
    next? fs a' (l.betweenTokens ++ (b.tokens ++ rest)) = some (push l fs a' (b.tokens ++ rest)) := by
  have hsquare := head?_tokens_append_ne b (t := .closing .square) rfl rest
  have hround := head?_tokens_append_ne b (t := .closing .round) rfl rest
  cases l with
  | operator op | comma => rfl
  | call x =>
    show next? fs a' (.dot :: .name x :: .opening .round :: (b.tokens ++ rest)) = _
    rw [next?]
    intro ts hts
    exact hround (congrArg List.head? hts)
  | index =>
    show next? fs a' (.opening .square :: (b.tokens ++ rest)) = _
    have hlevel : a.level = 13 := of_decide_eq_true h
    have hallocation : a'.isAllocation = false := by
      rw [heq (by omega)]
      exact isAllocation_of_level hlevel
    rw [next?, hallocation, if_neg Bool.false_ne_true]
    intro ts hts
    exact hsquare (congrArg List.head? hts)
  | dimension =>
    show next? fs a' (.opening .square :: (b.tokens ++ rest)) = _
    have hallocation := isAllocation_of_isDimensioned h
    rw [next?, heq (Nat.le_of_eq (level_of_isAllocation hallocation).symm), if_pos hallocation]
    intro ts hts
    exact hsquare (congrArg List.head? hts)

end Reader

end Steps

section Unambiguous

open Reader

-- The tokens of an expression are read to an operand and to frames that end in the expression as
-- soon as anything follows that it does not reach.
def Phrase.IsRead (a : Phrase) : Prop :=
  ∀ fs rest, (a.isTrailing → Rests a.level fs) → Follows a rest →
    ∃ fs' a', Runs ⟨fs, none, a.tokens ++ rest⟩ ⟨fs', some a', rest⟩ ∧
      ∀ n ≤ a.reach, settle n fs' a' = settle n fs a

-- With what has to come behind it, an expression that something waits for is ended.
theorem Phrase.IsRead.fill {b : Phrase} (h : b.IsRead) {f : Frame}
    (hlevel : f.bracket? = none → b.isTrailing → f.level < b.level) (fs : List Frame)
    {rest : List Token} (hrest : Follows (f.fill b) rest) :
    ∃ fs' a', Runs ⟨f :: fs, none, b.tokens ++ (closingTokens f.bracket? ++ rest)⟩
        ⟨fs', some a', rest⟩ ∧
      ∀ n ≤ (f.fill b).reach, settle n fs' a' = settle n fs (f.fill b) := by
  have hrests : b.isTrailing → Rests b.level (f :: fs) := by
    intro htrailing g hg hopen
    obtain rfl := Option.some.inj hg
    exact hlevel hopen htrailing
  obtain ⟨fs', a', hruns, hsettle⟩ := h (f :: fs) _ hrests hrest.closing
  cases hbracket : f.bracket? with
  | none =>
    rw [hbracket] at hruns
    refine ⟨fs', a', hruns, fun n hn => ?_⟩
    obtain ⟨hle, hreach⟩ : n ≤ f.level ∧ n ≤ b.reach := by
      have hfill : (f.fill b).reach = min f.level b.reach := by
        cases f <;> exact if_pos (Option.isNone_iff_eq_none.2 hbracket)
      rw [hfill] at hn
      omega
    rw [hsettle n hreach, settle, if_pos ⟨hbracket, hle⟩]
  | some br =>
    rw [hbracket] at hruns
    have hclosed : f.bracket? ≠ none := by simp [hbracket]
    have hone := hsettle 1 (one_le_reach b)
    rw [settle_of_rests (rests_bracket hclosed fs)] at hone
    have hstep : step? ⟨fs', some a', .closing br :: rest⟩ = some ⟨fs, some (f.fill b), rest⟩ := by
      show close? br fs' a' rest = _
      rw [close?, hone]
      exact if_pos hbracket
    exact ⟨fs, f.fill b, hruns.tail hstep, fun _ _ => rfl⟩

theorem isRead_of_isGrouped {a : Phrase} (h : a.isGrouped) : a.IsRead := by
  induction a with
  | leaf l =>
    intro fs rest _ hrest
    have hstep : step? ⟨fs, none, l.tokens ++ rest⟩ = some ⟨fs, some (.leaf l), rest⟩ := by
      rw [step?, start?_leaf hrest]
      rfl
    exact ⟨fs, _, .single hstep, fun _ _ => rfl⟩
  | head h' a ih =>
    obtain ⟨ha, hadmits⟩ := Bool.and_eq_true_iff.1 h
    intro fs rest _ hrest
    have hstep : step? ⟨fs, none, (Phrase.head h' a).tokens ++ rest⟩ =
        some ⟨.head h' :: fs, none, a.tokens ++ (closingTokens h'.bracket? ++ rest)⟩ := by
      have hstart := start?_head hadmits hrest
      simp only [Phrase.tokens, List.append_assoc]
      rw [step?, hstart]
      rfl
    obtain ⟨fs', a', hruns, hsettle⟩ :=
      (ih ha).fill (f := .head h') (fun hopen => Head.level_lt hadmits hopen) fs hrest
    exact ⟨fs', a', .head hstep hruns, hsettle⟩
  | tail a t ih =>
    obtain ⟨ha, hadmits⟩ := Bool.and_eq_true_iff.1 h
    intro fs rest hfs hrest
    obtain ⟨hmin, hreach⟩ := Tail.le_level hadmits
    have hrests : Rests t.level fs := hfs rfl
    obtain ⟨fs', a', hruns, hsettle⟩ :=
      ih ha fs _ (fun _ => hrests.of_min_le hmin) (Tail.follows hadmits rest)
    have hstep : step? ⟨fs', some a', t.tokens ++ rest⟩ = some ⟨fs, some (.tail a t), rest⟩ := by
      rw [step?, next?_tail hadmits hrest fun hlevel => (eq_of_settle_eq hlevel hsettle).2, attach,
        hsettle _ hreach, settle_of_rests hrests]
    refine ⟨fs, .tail a t, ?_, fun _ _ => rfl⟩
    rw [Phrase.tokens, List.append_assoc]
    exact hruns.tail hstep
  | link a l b iha ihb =>
    simp only [Phrase.isGrouped, Bool.and_eq_true] at h
    obtain ⟨⟨⟨ha, hb⟩, hleft⟩, hright⟩ := h
    intro fs rest hfs hrest
    obtain ⟨hmin, hreach⟩ := Link.le_level hleft
    have hrests : Rests l.level fs := hfs rfl
    obtain ⟨fs', a', hruns, hsettle⟩ :=
      iha ha fs (l.betweenTokens ++ (b.tokens ++ (closingTokens l.bracket? ++ rest)))
        (fun _ => hrests.of_min_le hmin) (Link.follows hleft _)
    have hstep : step? ⟨fs', some a', l.betweenTokens ++
          (b.tokens ++ (closingTokens l.bracket? ++ rest))⟩ =
        some ⟨.link a l :: fs, none, b.tokens ++ (closingTokens l.bracket? ++ rest)⟩ := by
      rw [step?, next?_link hleft (fun hlevel => (eq_of_settle_eq hlevel hsettle).2), push,
        hsettle _ hreach, settle_of_rests hrests]
    obtain ⟨fs'', b', hruns', hsettle'⟩ :=
      (ihb hb).fill (f := .link a l) (fun hopen _ => Link.level_lt hright hopen) fs hrest
    refine ⟨fs'', b', ?_, hsettle'⟩
    simp only [Phrase.tokens, List.append_assoc]
    exact (hruns.tail hstep).trans hruns'

-- Tokens are those of one expression at most.
theorem eq_of_isGrouped {a b : Phrase} (ha : a.isGrouped) (hb : b.isGrouped)
    (h : a.tokens = b.tokens) : a = b := by
  have hread (c : Phrase) (hc : c.isGrouped) :
      ∃ fs c', Runs ⟨[], none, c.tokens⟩ ⟨fs, some c', []⟩ ∧ settle 1 fs c' = ([], c) := by
    obtain ⟨fs, c', hruns, hsettle⟩ := isRead_of_isGrouped hc [] [] (fun _ => nofun) nofun
    rw [List.append_nil] at hruns
    exact ⟨fs, c', hruns, hsettle 1 (one_le_reach c)⟩
  obtain ⟨fs, a', ha, hsettle⟩ := hread a ha
  obtain ⟨fs', b', hb, hsettle'⟩ := hread b hb
  have hunique : Relator.RightUnique fun r s => step? r = some s :=
    fun r s t hs ht => Option.some.inj (hs.symm.trans ht)
  have hend (fs : List Frame) (c : Phrase) (r : Reader) (hr : Runs ⟨fs, some c, []⟩ r) :
      r = ⟨fs, some c, []⟩ := by
    rcases Relation.ReflTransGen.cases_head hr with heq | ⟨s, hs, -⟩
    · exact heq.symm
    · cases hs
  rw [h] at ha
  obtain ⟨rfl, rfl⟩ : fs' = fs ∧ b' = a' := by
    rcases Relation.ReflTransGen.total_of_right_unique hunique ha hb with hruns | hruns
    · have heq := hend _ _ _ hruns
      simpa using heq
    · have heq := hend _ _ _ hruns
      simpa [eq_comm] using heq
  exact (Prod.mk.inj (hsettle.symm.trans hsettle')).2

end Unambiguous

end JvmLift.Source
