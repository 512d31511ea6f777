import JvmLift.Proofs.Source.Nesting

namespace JvmLift.Source

-- The names behind the first one of a qualified name, and what follows it.
def path : List Token → List String × List Token
  | .dot :: .name x :: ts => (x :: (path ts).1, (path ts).2)
  | ts => ([], ts)

def dimensions : List Token → Nat × List Token
  | .opening .square :: .closing .square :: ts => ((dimensions ts).1 + 1, (dimensions ts).2)
  | ts => (0, ts)

def base? : List Token → Option (Base × List Token)
  | .name x :: ts => some (.named ⟨x, (path ts).1⟩, (path ts).2)
  | .keyword (.primitive p) :: ts => some (.primitive p, ts)
  | _ => none

def type? (ts : List Token) : Option (TypeName × List Token) :=
  (base? ts).map fun p => (⟨p.1, (dimensions p.2).1⟩, (dimensions p.2).2)

def names? : List Token → Option (List String × List Token)
  | .name x :: .comma :: ts => (names? ts).map fun p => (x :: p.1, p.2)
  | .name x :: .closing .round :: ts => some ([x], ts)
  | _ => none

-- Parameters behind the parenthesis that opens them.
def parameters? : List Token → Option (List String × List Token)
  | .closing .round :: ts => some ([], ts)
  | ts => names? ts

-- Whether an expression can begin with a token. A minus sign in front of it is another matter.
def Token.isFirst (signed : Bool) : Token → Bool
  | name _ | number _ | long _ | string _ | not | opening .round => true
  | keyword (.word _) | keyword (.primitive _) | keyword .new => true
  | operator .minus => signed
  | _ => false

-- Whether it can follow an operand.
def Token.isNext : Token → Bool
  | operator _ | keyword .instanceOf | comma | closing _ => true
  | _ => false

-- Whether it can follow what needs no parentheses as a target.
def Token.isMember : Token → Bool
  | dot | reference | opening .square => true
  | _ => false

-- What is known of an expression from its first tokens.
inductive Start where
  | leaf (l : Leaf)
  | head (h : Head)

-- Behind `new` and a type.
def creation? (t : TypeName) : List Token → Option (Start × List Token)
  | .opening .round :: .closing .round :: ts =>
    match t.base with
    | .named c => some (.leaf (.create c), ts)
    | .primitive _ => none
  | .opening .round :: ts =>
    match t.base with
    | .named c => some (.head (.create c), ts)
    | .primitive _ => none
  | .opening .square :: ts => some (.head (.array t.base), ts)
  | .opening .curly :: ts => some (.head (.values ⟨t.base, t.dimensions - 1⟩), ts)
  | _ => none

-- Behind a parenthesis: parameters have an arrow behind them, and a type in parentheses is a cast if
-- an operand follows. A minus sign is taken for the beginning of one behind a primitive type only.
def parenthesis (ts : List Token) : Start × List Token :=
  match parameters? ts with
  | some (xs, .arrow :: .opening .curly :: .closing .curly :: rest) => (.leaf (.block xs), rest)
  | some (xs, .arrow :: rest) => (.head (.lambda xs), rest)
  | _ =>
    match type? ts with
    | some (t, .closing .round :: rest) =>
      if rest.head?.any (Token.isFirst t.isPrimitive) then (.head (.cast t), rest)
      else (.head .group, ts)
    | _ => (.head .group, ts)

def start? : List Token → Option (Start × List Token)
  | .name x :: .opening .round :: .closing .round :: ts => some (.leaf (.call x), ts)
  | .name x :: .opening .round :: ts => some (.head (.call x), ts)
  | .name x :: ts => some (.leaf (.name x), ts)
  | .keyword (.word w) :: ts => some (.leaf (.word w), ts)
  | .number value :: ts => some (.leaf (.number value), ts)
  | .long value :: ts => some (.leaf (.long value), ts)
  | .string value :: ts => some (.leaf (.string value), ts)
  | .operator .minus :: ts => some (.head .negate, ts)
  | .not :: ts => some (.head .not, ts)
  | .keyword (.primitive p) :: ts =>
    match dimensions ts with
    | (n, .dot :: .keyword .classLiteral :: rest) => some (.leaf (.classOf p n), rest)
    | _ => none
  | .keyword .new :: ts => (type? ts).bind fun p => creation? p.1 p.2
  | .opening .round :: ts => some (parenthesis ts)
  | _ => none

section Names

variable {rest : List Token}

theorem path_append (names : List String) (h : rest.head? ≠ some .dot) :
    path ((names.flatMap fun name => [.dot, .name name]) ++ rest) = (names, rest) := by
  induction names with
  | nil =>
    rw [List.flatMap_nil, List.nil_append, path]
    rintro x ts rfl
    exact h rfl
  | cons name names ih =>
    rw [List.flatMap_cons, List.append_assoc]
    simp only [List.cons_append, List.nil_append, path, ih]

-- Whether brackets with nothing between them come first.
def startsWithDimension : List Token → Bool
  | .opening .square :: .closing .square :: _ => true
  | _ => false

theorem dimensions_append (n : Nat) (rest : List Token) (h : startsWithDimension rest = false) :
    dimensions (dimensionTokens n ++ rest) = (n, rest) := by
  induction n with
  | zero =>
    rw [dimensionTokens, List.nil_append, dimensions]
    rintro ts rfl
    cases h
  | succ n ih => simp only [dimensionTokens, List.cons_append, dimensions, ih]

theorem base?_append (b : Base) (h : rest.head? ≠ some .dot) :
    base? (b.tokens ++ rest) = some (b, rest) := by
  cases b with
  | primitive p => rfl
  | named c =>
    rw [Base.tokens, ClassName.tokens, List.cons_append, base?, path_append c.rest h]

theorem type?_append (t : TypeName) (rest : List Token) (hdot : rest.head? ≠ some .dot)
    (hdimension : startsWithDimension rest = false) : type? (t.tokens ++ rest) = some (t, rest) := by
  obtain ⟨b, n⟩ := t
  have hhead : (dimensionTokens n ++ rest).head? ≠ some .dot := by
    cases n with
    | zero => exact hdot
    | succ n => exact nofun
  rw [type?, TypeName.tokens, List.append_assoc, base?_append b hhead, Option.map_some,
    dimensions_append n rest hdimension]

theorem eq_of_path {ts : List Token} {names : List String} (h : path ts = (names, rest)) :
    ts = (names.flatMap fun name => [.dot, .name name]) ++ rest := by
  fun_induction path ts generalizing names with
  | case1 x ts ih =>
    obtain ⟨rfl, rfl⟩ := Prod.mk.inj h
    exact congrArg (.dot :: .name x :: ·) (ih rfl)
  | case2 ts =>
    obtain ⟨rfl, rfl⟩ := Prod.mk.inj h
    rfl

theorem eq_of_dimensions {ts : List Token} {n : Nat} (h : dimensions ts = (n, rest)) :
    ts = dimensionTokens n ++ rest := by
  fun_induction dimensions ts generalizing n with
  | case1 ts ih =>
    obtain ⟨rfl, rfl⟩ := Prod.mk.inj h
    exact congrArg (.opening .square :: .closing .square :: ·) (ih rfl)
  | case2 ts =>
    obtain ⟨rfl, rfl⟩ := Prod.mk.inj h
    rfl

theorem eq_of_base? {ts : List Token} {b : Base} (h : base? ts = some (b, rest)) :
    ts = b.tokens ++ rest := by
  unfold base? at h
  split at h
  · cases h
    rw [Base.tokens, ClassName.tokens, List.cons_append, ← eq_of_path rfl]
  · cases h
    rfl
  · cases h

theorem eq_of_type? {ts : List Token} {t : TypeName} (h : type? ts = some (t, rest)) :
    ts = t.tokens ++ rest := by
  obtain ⟨⟨b, us⟩, hbase, heq⟩ := Option.map_eq_some_iff.1 h
  obtain ⟨rfl, rfl⟩ := Prod.mk.inj heq
  rw [eq_of_base? hbase, TypeName.tokens, List.append_assoc, ← eq_of_dimensions rfl]

theorem parameters?_append (names : List String) (rest : List Token) :
    parameters? (nameTokens names ++ .closing .round :: rest) = some (names, rest) := by
  cases names with
  | nil => rfl
  | cons name names =>
    have hnames : names? (nameTokens (name :: names) ++ .closing .round :: rest) =
        some (name :: names, rest) := by
      induction names generalizing name with
      | nil => rfl
      | cons name' names ih =>
        rw [nameTokens, List.cons_append, List.cons_append, names?, ih]
        · rfl
        · exact nofun
    rw [parameters?, hnames]
    intro ts heq
    cases names <;> cases heq

-- Parameters end at the first parenthesis.
theorem exists_of_parameters? {ts : List Token} {names : List String}
    (h : parameters? ts = some (names, rest)) :
    ∃ us, ts = us ++ .closing .round :: rest ∧ ∀ u ∈ us, u.isRound = false := by
  have hnames {ts : List Token} {names : List String} (h : names? ts = some (names, rest)) :
      ∃ us, ts = us ++ .closing .round :: rest ∧ ∀ u ∈ us, u.isRound = false := by
    fun_induction names? ts generalizing names with
    | case1 x ts ih =>
      obtain ⟨⟨xs, rest'⟩, hxs, heq⟩ := Option.map_eq_some_iff.1 h
      obtain ⟨rfl, rfl⟩ := Prod.mk.inj heq
      obtain ⟨us, rfl, hus⟩ := ih hxs
      exact ⟨.name x :: .comma :: us, rfl, by simpa [Token.isRound] using hus⟩
    | case2 x ts =>
      cases h
      exact ⟨[.name x], rfl, by simp [Token.isRound]⟩
    | case3 => cases h
  unfold parameters? at h
  split at h
  · cases h
    exact ⟨[], rfl, by simp⟩
  · exact hnames h

-- So what is nested ends there as well if a parenthesis follows.
theorem eq_of_round_eq {ts us rest rest' : List Token} (hts : Nested ts)
    (hus : ∀ u ∈ us, u.isRound = false)
    (h : ts ++ .closing .round :: rest = us ++ .closing .round :: rest') :
    ts = us ∧ rest = rest' := by
  rcases List.append_eq_append_iff.1 h with ⟨ws, rfl, hws⟩ | ⟨ws, rfl, hws⟩
  · cases ws with
    | nil => simpa using hws
    | cons w ws =>
      obtain ⟨rfl, -⟩ := List.cons.inj hws
      exact absurd (hus (.closing .round) (by simp)) (by simp [Token.isRound])
  · cases ws with
    | nil => simpa using hws.symm
    | cons w ws =>
      obtain ⟨rfl, -⟩ := List.cons.inj hws
      have hdepth := hts 0
      rw [depth?_append, nested_of_forall hus 0] at hdepth
      cases hdepth

end Names

section Phrases

-- No expression begins like what follows an operand or like what surrounds one.
theorem exists_tokens_eq_cons (a : Phrase) :
    ∃ t ts, a.tokens = t :: ts ∧ t.isFirst a.isSigned := by
  induction a with
  | leaf l => cases l <;> exact ⟨_, _, rfl, rfl⟩
  | head h a ih =>
    cases h <;> exact ⟨_, _, rfl, rfl⟩
  | tail a t ih =>
    obtain ⟨u, ts, hts, hu⟩ := ih
    exact ⟨u, ts ++ t.tokens, by rw [Phrase.tokens, hts, List.cons_append], hu⟩
  | link a l b ih =>
    obtain ⟨u, ts, hts, hu⟩ := ih
    exact ⟨u, _, by rw [Phrase.tokens, hts, List.cons_append, List.cons_append, List.cons_append],
      hu⟩

end Phrases

section Starts

-- What may stand behind an expression that needs no parentheses there.
def Follows (a : Phrase) (rest : List Token) : Prop :=
  ∀ t ∈ rest.head?, t.isNext ∨ 12 ≤ a.level ∧ t.isMember

theorem Follows.head?_ne {a : Phrase} {rest : List Token} (h : Follows a rest) {t : Token}
    (hnext : t.isNext = false) (hmember : t.isMember = false) : rest.head? ≠ some t := by
  intro hhead
  rcases h t hhead with ht | ⟨-, ht⟩
  · rw [hnext] at ht
    cases ht
  · rw [hmember] at ht
    cases ht

theorem start?_leaf {l : Leaf} {rest : List Token} (h : Follows (.leaf l) rest) :
    start? (l.tokens ++ rest) = some (.leaf l, rest) := by
  cases l with
  | word _ | number _ | long _ | string _ | call _ => rfl
  | name x =>
    have hround : rest.head? ≠ some (.opening .round) := h.head?_ne rfl rfl
    rw [Leaf.tokens, List.singleton_append, start?]
    · rintro ts rfl
      exact hround rfl
    · rintro ts rfl
      exact hround rfl
  | create c =>
    have htype := type?_append ⟨.named c, 0⟩ (.opening .round :: .closing .round :: rest) (by simp)
      rfl
    have htokens : (TypeName.mk (.named c) 0).tokens = c.tokens := List.append_nil _
    rw [htokens] at htype
    simp only [Leaf.tokens, List.cons_append, List.append_assoc, List.nil_append, start?, htype]
    rfl
  | block xs =>
    simp only [Leaf.tokens, parameterTokens, List.cons_append, List.append_assoc, List.nil_append,
      start?, parenthesis, parameters?_append]
  | classOf p n =>
    have hdimensions := dimensions_append n (.dot :: .keyword .classLiteral :: rest) rfl
    simp only [Leaf.tokens, List.cons_append, List.append_assoc, List.nil_append, start?,
      hdimensions]

theorem Token.isFirst_true {t : Token} {signed : Bool} (h : t.isFirst signed) : t.isFirst true := by
  cases signed with
  | true => exact h
  | false =>
    cases t with
    | operator op => cases op <;> first | rfl | cases h
    | keyword k => cases k <;> exact h
    | opening b => cases b <;> exact h
    | _ => exact h

-- What an expression does not begin with.
theorem head?_tokens_append_ne (a : Phrase) {t : Token} (ht : t.isFirst true = false)
    (rest : List Token) : (a.tokens ++ rest).head? ≠ some t := by
  obtain ⟨u, us, hus, hfirst⟩ := exists_tokens_eq_cons a
  rw [hus]
  rintro ⟨⟩
  rw [Token.isFirst_true hfirst] at ht
  cases ht

theorem tokens_ne_primitive (a : Phrase) (p : Primitive) :
    a.tokens ≠ [.keyword (.primitive p)] := by
  have hlength : a.tokens = [.keyword (.primitive p)] → a.tokens.length = 1 := by
    intro h
    rw [h]
    rfl
  intro h
  cases a with
  | leaf l => cases l <;> simp [Phrase.tokens, Leaf.tokens, parameterTokens] at h
  | head h' a =>
    cases h' <;> simp [Phrase.tokens, Head.firstTokens, parameterTokens] at h
  | tail a t =>
    have hpos := List.length_pos_iff.2 (tokens_ne_nil a)
    have htail : 0 < t.tokens.length := by cases t <;> simp [Tail.tokens]
    have hsum := hlength h
    simp only [Phrase.tokens, List.length_append] at hsum
    omega
  | link a l b =>
    have hleft := List.length_pos_iff.2 (tokens_ne_nil a)
    have hright := List.length_pos_iff.2 (tokens_ne_nil b)
    have hsum := hlength h
    simp only [Phrase.tokens, List.length_append] at hsum
    omega

theorem tokens_of_isPrimitive {t : TypeName} (h : t.isPrimitive) :
    ∃ p, t.tokens = [.keyword (.primitive p)] := by
  obtain ⟨b, n⟩ := t
  cases b with
  | primitive p =>
    obtain rfl : n = 0 := of_decide_eq_true h
    exact ⟨p, rfl⟩
  | named c => cases h

-- Where no arrow follows, there are no parameters between parentheses.
theorem parenthesis_of_nested {ts rest : List Token} (hts : Nested ts)
    (hrest : rest.head? ≠ some .arrow) : parenthesis (ts ++ .closing .round :: rest) =
      match type? (ts ++ .closing .round :: rest) with
      | some (t, .closing .round :: rest') =>
        if rest'.head?.any (Token.isFirst t.isPrimitive) then (.head (.cast t), rest')
        else (.head .group, ts ++ .closing .round :: rest)
      | _ => (.head .group, ts ++ .closing .round :: rest) := by
  have harrow {xs : List String} {rest' : List Token}
      (h : parameters? (ts ++ .closing .round :: rest) = some (xs, .arrow :: rest')) : False := by
    obtain ⟨us, hus, hround⟩ := exists_of_parameters? h
    obtain ⟨-, rfl⟩ := eq_of_round_eq hts hround hus
    exact hrest rfl
  rw [parenthesis]
  split
  · next h => exact (harrow h).elim
  · next h => exact (harrow h).elim
  · rfl

-- A group is neither a cast nor are there parameters in it.
theorem parenthesis_group {a : Phrase} {rest : List Token} (h : Follows (.head .group a) rest) :
    parenthesis (a.tokens ++ .closing .round :: rest) =
      (.head .group, a.tokens ++ .closing .round :: rest) := by
  rw [parenthesis_of_nested (nested_tokens a) (h.head?_ne rfl rfl)]
  split
  · next t rest' htype =>
    obtain ⟨htokens, rfl⟩ := eq_of_round_eq (nested_tokens a) (isRound_typeTokens t)
      (eq_of_type? htype)
    rw [if_neg]
    intro hany
    obtain ⟨u, hu, hfirst⟩ := (Option.any_eq_true ..).1 hany
    by_cases hprimitive : t.isPrimitive
    · obtain ⟨p, hp⟩ := tokens_of_isPrimitive hprimitive
      exact tokens_ne_primitive a p (htokens.trans hp)
    · rw [Bool.eq_false_iff.2 hprimitive] at hfirst
      refine h.head?_ne ?_ ?_ hu <;>
        · revert hfirst
          cases u with
          | keyword k => cases k <;> simp [Token.isFirst, Token.isNext, Token.isMember]
          | operator op => cases op <;> simp [Token.isFirst]
          | opening b => cases b <;> simp [Token.isFirst, Token.isNext, Token.isMember]
          | _ => simp [Token.isFirst, Token.isNext, Token.isMember]
  · rfl

theorem isSigned_of_level {a : Phrase} (h : a.level = 2) : a.isSigned = false := by
  cases a with
  | leaf l => rfl
  | head h' a => cases h' <;> first | rfl | cases h
  | tail a t => cases t <;> cases h
  | link a l b =>
    cases l with
    | operator op => cases op <;> cases h
    | _ => cases h

theorem parenthesis_cast {t : TypeName} {a : Phrase} (h : (Head.cast t).admits a)
    (rest : List Token) : parenthesis (t.tokens ++ .closing .round :: (a.tokens ++ rest)) =
      (.head (.cast t), a.tokens ++ rest) := by
  have hnested := nested_of_forall (isRound_typeTokens t)
  have htype := type?_append t (.closing .round :: (a.tokens ++ rest)) (by simp) rfl
  rw [parenthesis_of_nested hnested (head?_tokens_append_ne a rfl rest), htype]
  obtain ⟨u, us, hus, hfirst⟩ := exists_tokens_eq_cons a
  have hprimitive : u.isFirst t.isPrimitive := by
    cases hp : t.isPrimitive with
    | true => exact Token.isFirst_true hfirst
    | false =>
      have hsigned : a.isSigned = false := by
        simp only [Head.admits, hp, Bool.false_or, Bool.not_false, Bool.and_true, Bool.or_eq_true,
          Bool.and_eq_true, decide_eq_true_eq, Bool.not_eq_true'] at h
        exact h.elim And.right isSigned_of_level
      rwa [hsigned] at hfirst
  rw [hus]
  exact if_pos hprimitive

theorem start?_head {h : Head} {a : Phrase} (hadmits : h.admits a) {rest : List Token}
    (hrest : Follows (.head h a) rest) :
    start? (h.firstTokens ++ (a.tokens ++ (closingTokens h.bracket? ++ rest))) =
      some (.head h, a.tokens ++ (closingTokens h.bracket? ++ rest)) := by
  cases h with
  | negate | not => rfl
  | cast t =>
    have hcast := parenthesis_cast hadmits rest
    simpa [Head.firstTokens, Head.bracket?, closingTokens, start?] using hcast
  | lambda xs =>
    have hcurly := head?_tokens_append_ne a (t := .opening .curly) rfl rest
    have hlambda : parenthesis (nameTokens xs ++ .closing .round :: .arrow :: (a.tokens ++ rest)) =
        (.head (.lambda xs), a.tokens ++ rest) := by
      rw [parenthesis, parameters?_append]
      split
      · next heq =>
        simp only [Option.some.injEq, Prod.mk.injEq, List.cons.injEq, true_and] at heq
        rw [heq.2] at hcurly
        exact absurd rfl hcurly
      · next heq =>
        simp only [Option.some.injEq, Prod.mk.injEq, List.cons.injEq, true_and] at heq
        rw [heq.1, heq.2]
      · next h => exact absurd rfl (h _ _)
    simpa [Head.firstTokens, Head.bracket?, closingTokens, parameterTokens, start?] using hlambda
  | group => exact congrArg some (parenthesis_group hrest)
  | call x =>
    show start? (.name x :: .opening .round :: (a.tokens ++ (.closing .round :: rest))) = _
    rw [start?]
    · rfl
    · intro ts heq
      exact head?_tokens_append_ne a (t := .closing .round) rfl (.closing .round :: rest)
        (congrArg List.head? heq)
  | create c =>
    have htype := type?_append ⟨.named c, 0⟩
      (.opening .round :: (a.tokens ++ (.closing .round :: rest))) (by simp) rfl
    have htokens : (TypeName.mk (.named c) 0).tokens = c.tokens := List.append_nil _
    rw [htokens] at htype
    simp only [Head.firstTokens, List.cons_append, List.append_assoc, List.nil_append, start?]
    refine (congrArg (Option.bind · fun p => creation? p.1 p.2) htype).trans ?_
    rw [Option.bind_some, creation?]
    · rfl
    · intro ts heq
      exact head?_tokens_append_ne a (t := .closing .round) rfl (.closing .round :: rest)
        (congrArg List.head? heq)
  | array b =>
    have hsquare : startsWithDimension
        (.opening .square :: (a.tokens ++ (.closing .square :: rest))) = false := by
      have hhead := head?_tokens_append_ne a (t := .closing .square) rfl (.closing .square :: rest)
      cases hlist : a.tokens ++ (.closing .square :: rest) with
      | nil => rfl
      | cons t ts =>
        rw [hlist] at hhead
        cases t with
        | closing b => cases b <;> first | rfl | exact absurd rfl hhead
        | _ => rfl
    have htype := type?_append ⟨b, 0⟩ _ (by simp) hsquare
    have htokens : (TypeName.mk b 0).tokens = b.tokens := List.append_nil _
    rw [htokens] at htype
    simp only [Head.firstTokens, List.cons_append, List.append_assoc, List.nil_append, start?]
    exact congrArg (Option.bind · fun p => creation? p.1 p.2) htype
  | values t =>
    obtain ⟨b, n⟩ := t
    have htype := type?_append ⟨b, n + 1⟩
      (.opening .curly :: (a.tokens ++ (.closing .curly :: rest))) (by simp) rfl
    have hdimensions (n : Nat) : dimensionTokens (n + 1) =
        dimensionTokens n ++ [.opening .square, .closing .square] := by
      induction n with
      | zero => rfl
      | succ n ih => exact congrArg (.opening .square :: .closing .square :: ·) ih
    rw [TypeName.tokens, hdimensions] at htype
    simp only [List.append_assoc, List.cons_append, List.nil_append] at htype
    simp only [Head.firstTokens, TypeName.tokens, List.cons_append, List.append_assoc,
      List.nil_append, start?]
    exact congrArg (Option.bind · fun p => creation? p.1 p.2) htype

end Starts

end JvmLift.Source
