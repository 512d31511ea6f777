import JvmLift.Proofs.Source
import Mathlib.Tactic.SplitIfs

namespace JvmLift.Source

def Token.isRound : Token → Bool
  | opening .round | closing .round => true
  | _ => false

-- How many parentheses are open behind some tokens. None may be closed that was not opened.
def depth? : Nat → List Token → Option Nat
  | d, [] => some d
  | d, t :: ts =>
    if t = .opening .round then depth? (d + 1) ts
    else if t = .closing .round then if d = 0 then none else depth? (d - 1) ts
    else depth? d ts

-- Whether each parenthesis that is opened is closed again.
def Nested (ts : List Token) : Prop :=
  ∀ d, depth? d ts = some d

section Depth

variable {us vs : List Token}

theorem depth?_append (d : Nat) (us vs : List Token) :
    depth? d (us ++ vs) = (depth? d us).bind fun d => depth? d vs := by
  induction us generalizing d with
  | nil => rfl
  | cons t us ih =>
    simp only [List.cons_append, depth?, ih]
    split_ifs <;> rfl

theorem depth?_cons {t : Token} (h : t.isRound = false) (d : Nat) (ts : List Token) :
    depth? d (t :: ts) = depth? d ts := by
  rw [depth?, if_neg, if_neg]
  · rintro rfl
    cases h
  · rintro rfl
    cases h

-- What is possible inside some parentheses is possible inside one more.
theorem depth?_succ {d d' : Nat} (h : depth? d us = some d') :
    depth? (d + 1) us = some (d' + 1) := by
  induction us generalizing d with
  | nil => exact congrArg (fun d => some (d + 1)) (Option.some.inj h)
  | cons t us ih =>
    rw [depth?] at h ⊢
    by_cases hopening : t = .opening .round
    · rw [if_pos hopening] at h ⊢
      exact ih h
    · rw [if_neg hopening] at h ⊢
      by_cases hclosing : t = .closing .round
      · cases d with
        | zero => simp [hclosing] at h
        | succ d =>
          rw [if_pos hclosing, if_neg (Nat.succ_ne_zero _)] at h ⊢
          exact ih h
      · rw [if_neg hclosing] at h ⊢
        exact ih h

theorem nested_nil : Nested [] := fun _ => rfl

theorem Nested.cons {t : Token} (h : t.isRound = false) (hs : Nested us) : Nested (t :: us) := by
  intro d
  rw [depth?_cons h, hs]

theorem Nested.append (hs : Nested us) (ht : Nested vs) : Nested (us ++ vs) := by
  intro d
  rw [depth?_append, hs, Option.bind_some, ht]

theorem Nested.round (h : Nested us) : Nested (.opening .round :: us ++ [.closing .round]) := by
  intro d
  rw [depth?_append, depth?, h]
  rfl

-- A part in front of nested tokens closes nothing that it has not opened.
theorem Nested.exists_depth?_left (h : Nested (us ++ vs)) : ∃ d, depth? 0 us = some d := by
  have h0 := h 0
  rw [depth?_append] at h0
  obtain ⟨d, hd, -⟩ := Option.bind_eq_some_iff.1 h0
  exact ⟨d, hd⟩

theorem nested_of_forall (h : ∀ t ∈ us, t.isRound = false) : Nested us := by
  induction us with
  | nil => exact nested_nil
  | cons t us ih =>
    obtain ⟨ht, hus⟩ := List.forall_mem_cons.1 h
    exact (ih hus).cons ht

end Depth

section Names

theorem isRound_classTokens (c : ClassName) : ∀ t ∈ c.tokens, t.isRound = false := by
  intro t ht
  rcases List.mem_cons.1 ht with rfl | ht
  · rfl
  · obtain ⟨name, -, ht⟩ := List.mem_flatMap.1 ht
    simp only [List.mem_cons, List.not_mem_nil, or_false] at ht
    rcases ht with rfl | rfl <;> rfl

theorem isRound_dimensionTokens (n : Nat) : ∀ t ∈ dimensionTokens n, t.isRound = false := by
  induction n with
  | zero => exact nofun
  | succ n ih => simpa [dimensionTokens, Token.isRound] using ih

theorem isRound_baseTokens (b : Base) : ∀ t ∈ b.tokens, t.isRound = false := by
  cases b with
  | primitive p => simp [Base.tokens, Token.isRound]
  | named c => exact isRound_classTokens c

theorem isRound_typeTokens (t : TypeName) : ∀ u ∈ t.tokens, u.isRound = false := by
  intro u hu
  rcases List.mem_append.1 hu with hu | hu
  · exact isRound_baseTokens t.base u hu
  · exact isRound_dimensionTokens t.dimensions u hu

theorem isRound_nameTokens (names : List String) : ∀ t ∈ nameTokens names, t.isRound = false := by
  fun_induction nameTokens names with
  | case1 => exact nofun
  | case2 name => simp [Token.isRound]
  | case3 name names _ ih => simpa [Token.isRound] using ih

theorem nested_parameterTokens (names : List String) : Nested (parameterTokens names) :=
  (nested_of_forall (isRound_nameTokens names)).round

end Names

section Phrases

theorem nested_leaf (l : Leaf) : Nested l.tokens := by
  cases l with
  | name _ | word _ | number _ | long _ | string _ => exact nested_nil.cons rfl
  | call x => exact nested_nil.round.cons rfl
  | create c =>
    exact ((nested_of_forall (isRound_classTokens c)).append nested_nil.round).cons rfl
  | block xs =>
    exact (nested_parameterTokens xs).append (nested_of_forall (by simp [Token.isRound]))
  | classOf p n =>
    exact ((nested_of_forall (isRound_dimensionTokens n)).append
      (nested_of_forall (by simp [Token.isRound]))).cons rfl

theorem nested_tail (t : Tail) : Nested t.tokens := by
  cases t with
  | call x => exact (nested_nil.round.cons rfl).cons rfl
  | classOf n =>
    exact (nested_of_forall (isRound_dimensionTokens n)).append
      (nested_of_forall (by simp [Token.isRound]))
  | instanceOf t => exact (nested_of_forall (isRound_typeTokens t)).cons rfl
  | _ => exact nested_of_forall (by simp [Tail.tokens, Token.isRound])

-- What stands around nested tokens.
theorem nested_head (h : Head) {ts : List Token} (hts : Nested ts) :
    Nested (h.firstTokens ++ ts ++ closingTokens h.bracket?) := by
  have hnone : Nested (closingTokens none) := nested_nil
  have hsquare : Nested (closingTokens (some .square)) := nested_nil.cons rfl
  have hcurly : Nested (closingTokens (some .curly)) := nested_nil.cons rfl
  cases h with
  | negate | not => exact (hts.cons rfl).append hnone
  | cast t => exact ((nested_of_forall (isRound_typeTokens t)).round.append hts).append hnone
  | lambda xs =>
    exact (((nested_parameterTokens xs).append (nested_nil.cons rfl)).append hts).append hnone
  | group => exact hts.round
  | call x => exact hts.round.cons rfl
  | create c =>
    have hcreate := ((nested_of_forall (isRound_classTokens c)).append hts.round).cons
      (t := .keyword .new) rfl
    simpa [Head.firstTokens, closingTokens, Head.bracket?] using hcreate
  | array b =>
    have hopening := (nested_of_forall (isRound_baseTokens b)).append
      (nested_nil.cons (t := .opening .square) rfl)
    exact ((hopening.cons rfl).append hts).append hsquare
  | values t =>
    have hvalues : ∀ u ∈ [Token.opening .square, .closing .square, .opening .curly],
        u.isRound = false := by simp [Token.isRound]
    have hopening := (nested_of_forall (isRound_typeTokens t)).append (nested_of_forall hvalues)
    exact ((hopening.cons rfl).append hts).append hcurly

theorem nested_link (l : Link) {ts : List Token} (hts : Nested ts) :
    Nested (l.betweenTokens ++ ts ++ closingTokens l.bracket?) := by
  cases l with
  | operator _ | comma => exact (hts.cons rfl).append nested_nil
  | index | dimension => exact (hts.cons rfl).append (nested_nil.cons rfl)
  | call x => exact (hts.round.cons rfl).cons rfl

theorem nested_tokens (a : Phrase) : Nested a.tokens := by
  induction a with
  | leaf l => exact nested_leaf l
  | head h a ih => exact nested_head h ih
  | tail a t ih => exact ih.append (nested_tail t)
  | link a l b iha ihb =>
    have hlink := iha.append (nested_link l ihb)
    simpa [Phrase.tokens] using hlink

theorem tokens_ne_nil (a : Phrase) : a.tokens ≠ [] := by
  cases a with
  | leaf l => cases l <;> simp [Phrase.tokens, Leaf.tokens, parameterTokens]
  | head h a => cases h <;> simp [Phrase.tokens, Head.firstTokens, parameterTokens]
  | tail a t => cases t <;> simp [Phrase.tokens, Tail.tokens]
  | link a l b => cases l <;> simp [Phrase.tokens, Link.betweenTokens]

end Phrases

section Grouping

def Phrase.isGroup : Phrase → Bool
  | head .group _ => true
  | _ => false

-- Parentheses around nested tokens are not closed before the end.
theorem depth?_ne_zero {ts us vs : List Token} (hts : Nested ts)
    (h : .opening .round :: ts ++ [.closing .round] = us ++ vs) (hus : us ≠ []) (hvs : vs ≠ []) :
    depth? 0 us ≠ some 0 := by
  obtain ⟨u, us, rfl⟩ := List.exists_cons_of_ne_nil hus
  obtain ⟨rfl, hrest⟩ := List.cons.inj h
  obtain ⟨ws, rfl⟩ : ∃ ws, ts = us ++ ws := by
    rcases List.append_eq_append_iff.1 hrest with ⟨ws, rfl, hws⟩ | ⟨ws, rfl, -⟩
    · have hnil : ws = [] := by
        rcases List.singleton_eq_append_iff.1 hws with ⟨hws, -⟩ | ⟨-, hvs'⟩
        · exact hws
        · exact absurd hvs' hvs
      exact ⟨[], by simp [hnil]⟩
    · exact ⟨ws, rfl⟩
  obtain ⟨d, hd⟩ := hts.exists_depth?_left
  have hsucc : depth? 0 (.opening .round :: us) = some (d + 1) := depth?_succ hd
  rw [hsucc]
  simp

-- What is no group has a part in front that leaves no parenthesis open, or is a single token.
theorem exists_split {a : Phrase} (h : a.isGroup = false) :
    a.tokens.length = 1 ∨
      ∃ us vs, a.tokens = us ++ vs ∧ us ≠ [] ∧ vs ≠ [] ∧ depth? 0 us = some 0 := by
  have hcons {t : Token} (ht : t.isRound = false) {ts : List Token} (hne : ts ≠ [])
      (heq : a.tokens = t :: ts) :
      ∃ us vs, a.tokens = us ++ vs ∧ us ≠ [] ∧ vs ≠ [] ∧ depth? 0 us = some 0 :=
    ⟨[t], ts, heq, by simp, hne, depth?_cons ht 0 []⟩
  cases a with
  | leaf l =>
    cases l with
    | name _ | word _ | number _ | long _ | string _ => exact .inl rfl
    | call _ | create _ | classOf _ _ => exact .inr (hcons rfl (by simp) rfl)
    | block xs => exact .inr ⟨_, _, rfl, by simp [parameterTokens], by simp,
        nested_parameterTokens xs 0⟩
  | head h' a =>
    have hne := tokens_ne_nil a
    cases h' with
    | group => cases h
    | negate | not | call _ | create _ | array _ | values _ =>
      exact .inr (hcons rfl (by simp [hne]) rfl)
    | cast t =>
      refine .inr ⟨.opening .round :: t.tokens ++ [.closing .round], a.tokens, ?_, by simp, hne,
        (nested_of_forall (isRound_typeTokens t)).round 0⟩
      simp [Phrase.tokens, Head.firstTokens, closingTokens, Head.bracket?]
    | lambda xs =>
      refine .inr ⟨parameterTokens xs, .arrow :: (a.tokens ++ []), ?_, by simp [parameterTokens],
        by simp, nested_parameterTokens xs 0⟩
      simp [Phrase.tokens, Head.firstTokens, closingTokens, Head.bracket?]
  | tail a t =>
    refine .inr ⟨a.tokens, t.tokens, rfl, tokens_ne_nil a, ?_, nested_tokens a 0⟩
    cases t <;> simp [Tail.tokens]
  | link a l b =>
    refine .inr ⟨a.tokens, l.betweenTokens ++ b.tokens ++ closingTokens l.bracket?, ?_,
      tokens_ne_nil a, by simp [tokens_ne_nil b], nested_tokens a 0⟩
    simp [Phrase.tokens]

theorem tokens_ne_of_isGroup {a b : Phrase} (hb : b.isGroup = false) :
    (Phrase.head .group a).tokens ≠ b.tokens := by
  intro heq
  have hgroup : (Phrase.head .group a).tokens = .opening .round :: a.tokens ++ [.closing .round] := rfl
  rw [hgroup] at heq
  rcases exists_split hb with hlength | ⟨us, vs, hsplit, hus, hvs, hdepth⟩
  · simp [← heq] at hlength
  · exact depth?_ne_zero (nested_tokens a) (heq.trans hsplit) hus hvs hdepth

-- The tokens other than parentheses, which are those of the expression without its groups.
def bare (ts : List Token) : List Token :=
  ts.filter fun t => !t.isRound

theorem bare_append (us vs : List Token) : bare (us ++ vs) = bare us ++ bare vs :=
  List.filter_append us vs

theorem Phrase.ungrouped_head {h : Head} (hne : h ≠ .group) (a : Phrase) :
    (head h a).ungrouped = head h a.ungrouped := by
  cases h <;> first | rfl | exact absurd rfl hne

theorem bare_ungrouped (a : Phrase) : bare a.ungrouped.tokens = bare a.tokens := by
  induction a with
  | leaf l => rfl
  | head h a ih =>
    by_cases hgroup : h = .group
    · subst hgroup
      simpa [bare, Phrase.ungrouped, Phrase.tokens, Head.firstTokens, closingTokens, Head.bracket?,
        Token.isRound] using ih
    · rw [Phrase.ungrouped_head hgroup]
      simp only [Phrase.tokens, bare_append, ih]
  | tail a t ih => simp only [Phrase.ungrouped, Phrase.tokens, bare_append, ih]
  | link a l b iha ihb => simp only [Phrase.ungrouped, Phrase.tokens, bare_append, iha, ihb]

theorem eq_nil_of_bare_eq {us ws vs vs' : List Token} {x : Token} (hx : x.isRound = false)
    (h : x :: vs = ws ++ x :: vs') (hbare : bare us = bare (us ++ ws)) : ws = [] := by
  cases ws with
  | nil => rfl
  | cons w ws =>
    obtain ⟨rfl, -⟩ := List.cons.inj h
    have hlength := congrArg List.length hbare
    simp [bare, hx] at hlength

-- Tokens are cut at the same place if what is in front differs in nothing but parentheses.
theorem eq_of_bare_eq {us us' vs vs' : List Token} {x : Token} (hx : x.isRound = false)
    (h : us ++ x :: vs = us' ++ x :: vs') (hbare : bare us = bare us') : us = us' ∧ vs = vs' := by
  rcases List.append_eq_append_iff.1 h with ⟨ws, rfl, hws⟩ | ⟨ws, rfl, hws⟩
  · obtain rfl := eq_nil_of_bare_eq hx hws hbare
    simpa using hws
  · obtain rfl := eq_nil_of_bare_eq hx hws hbare.symm
    simpa using hws.symm

theorem exists_betweenTokens_eq_cons (l : Link) :
    ∃ x ts, l.betweenTokens = x :: ts ∧ x.isRound = false := by
  cases l <;> exact ⟨_, _, rfl, rfl⟩

theorem Phrase.exists_of_isGroup {a : Phrase} (h : a.isGroup) : ∃ b, a = head .group b := by
  cases a with
  | head h' a => cases h' <;> first | exact ⟨a, rfl⟩ | cases h
  | _ => cases h

theorem isGroup_eq {a b : Phrase} (h : a.tokens = b.tokens) : a.isGroup = b.isGroup := by
  cases ha : a.isGroup <;> cases hb : b.isGroup
  · rfl
  · obtain ⟨b, rfl⟩ := Phrase.exists_of_isGroup hb
    exact absurd h.symm (tokens_ne_of_isGroup ha)
  · obtain ⟨a, rfl⟩ := Phrase.exists_of_isGroup ha
    exact absurd h (tokens_ne_of_isGroup hb)
  · rfl

theorem Phrase.isGroup_head {h : Head} (hne : h ≠ .group) (a : Phrase) :
    (head h a).isGroup = false := by
  cases h <;> first | rfl | exact absurd rfl hne

-- The tokens and the expression without its groups leave no choice where the groups are.
theorem eq_of_tokens_eq {a d : Phrase} (htokens : a.tokens = d.tokens)
    (hungrouped : a.ungrouped = d.ungrouped) : a = d := by
  induction a generalizing d with
  | leaf l =>
    have hd := (isGroup_eq htokens).symm
    cases d with
    | leaf l' => exact hungrouped
    | head h d =>
      rw [Phrase.ungrouped_head (by rintro rfl; cases hd)] at hungrouped
      cases hungrouped
    | _ => cases hungrouped
  | head h a ih =>
    have hd := (isGroup_eq htokens).symm
    by_cases hgroup : h = .group
    · subst hgroup
      obtain ⟨d, rfl⟩ := Phrase.exists_of_isGroup hd
      have hinner := List.append_cancel_right (List.cons.inj htokens).2
      rw [ih hinner hungrouped]
    · rw [Phrase.isGroup_head hgroup] at hd
      rw [Phrase.ungrouped_head hgroup] at hungrouped
      cases d with
      | head h' d =>
        rw [Phrase.ungrouped_head (by rintro rfl; cases hd)] at hungrouped
        obtain ⟨rfl, hinside⟩ := Phrase.head.inj hungrouped
        have hinner := List.append_cancel_left (List.append_cancel_right htokens)
        rw [ih hinner hinside]
      | _ => cases hungrouped
  | tail a t ih =>
    have hd := (isGroup_eq htokens).symm
    cases d with
    | head h d =>
      rw [Phrase.ungrouped_head (by rintro rfl; cases hd)] at hungrouped
      cases hungrouped
    | tail d t' =>
      obtain ⟨hinside, rfl⟩ := Phrase.tail.inj hungrouped
      rw [ih (List.append_cancel_right htokens) hinside]
    | _ => cases hungrouped
  | link a l b iha ihb =>
    have hd := (isGroup_eq htokens).symm
    cases d with
    | head h d =>
      rw [Phrase.ungrouped_head (by rintro rfl; cases hd)] at hungrouped
      cases hungrouped
    | link a' l' b' =>
      obtain ⟨ha, rfl, hb⟩ := Phrase.link.inj hungrouped
      obtain ⟨x, ts, hbetween, hx⟩ := exists_betweenTokens_eq_cons l
      have hbare : bare a.tokens = bare a'.tokens := by
        rw [← bare_ungrouped a, ← bare_ungrouped a', ha]
      simp only [Phrase.tokens, hbetween, List.append_assoc, List.cons_append] at htokens
      obtain ⟨hleft, hright⟩ := eq_of_bare_eq hx htokens hbare
      have hinner := List.append_cancel_right (List.append_cancel_left hright)
      rw [iha hleft ha, ihb hinner hb]
    | _ => cases hungrouped

end Grouping

end JvmLift.Source
