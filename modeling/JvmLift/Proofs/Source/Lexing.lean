import JvmLift.Proofs.Source.Tokens
import Mathlib.Data.List.Basic

namespace JvmLift.Source

open Grammar (isIdentifierPart Ends ends_cons ends_nil ne_of_isIdentifierPart
  isIdentifierPart_of_isDigit operator?)

section Labels

theorem ends_of_head? {s : List Char} (h : s.head?.all fun c => !isIdentifierPart c) : Ends s := by
  intro c hc
  rw [hc] at h
  simpa using h

theorem lexes_dotted {names : List String} (h : ∀ name ∈ names, isName name) :
    Lexes (String.join (names.map fun name => "." ++ name))
        (names.flatMap fun name => [.dot, .name name]) ∧
      Ends (String.join (names.map fun name => "." ++ name)).toList := by
  induction names with
  | nil => exact ⟨cuts_empty.lexes, ends_nil⟩
  | cons name names ih =>
    obtain ⟨hname, hnames⟩ := List.forall_mem_cons.1 h
    obtain ⟨hlexes, hends⟩ := ih hnames
    rw [List.map_cons, String.join_cons, List.flatMap_cons]
    refine ⟨(cuts_dot.append_lexes (lexes_name hname)).append hlexes hends, ?_⟩
    simpa using ends_cons (by decide) _

theorem lexes_className {c : ClassName} (h : c.isSpelled) : Lexes c.text c.tokens := by
  obtain ⟨hfirst, hrest⟩ := Bool.and_eq_true_iff.1 h
  obtain ⟨hlexes, hends⟩ := lexes_dotted (List.all_eq_true.1 hrest)
  exact (lexes_name hfirst).append hlexes hends

theorem cuts_dimensions (n : Nat) :
    Cuts (dimensionText n) (dimensionTokens n) ∧ Ends (dimensionText n).toList := by
  induction n with
  | zero => exact ⟨cuts_empty, ends_nil⟩
  | succ n ih =>
    have hcons : dimensionText (n + 1) = "[" ++ "]" ++ dimensionText n := by
      rw [dimensionText, List.replicate_succ, String.join_cons]
      rfl
    rw [hcons]
    refine ⟨(cuts_openingSquare.append cuts_closingSquare).append ih.1, ?_⟩
    simpa using ends_cons (by decide) _

theorem lexes_base {b : Base} (h : b.isSpelled) : Lexes b.text b.tokens := by
  cases b with
  | primitive p => exact lexes_keyword (.primitive p)
  | named c => exact lexes_className h

theorem lexes_typeName {t : TypeName} (h : t.isSpelled) : Lexes t.text t.tokens := by
  obtain ⟨hcuts, hends⟩ := cuts_dimensions t.dimensions
  exact (lexes_base h).append hcuts.lexes hends

theorem cuts_separator : Cuts ", " [.comma] :=
  cuts_comma.append cuts_blank

theorem lexes_names {names : List String} (h : ∀ name ∈ names, isName name) :
    Lexes (", ".intercalate names) (nameTokens names) := by
  induction names with
  | nil => exact cuts_empty.lexes
  | cons name names ih =>
    obtain ⟨hname, hnames⟩ := List.forall_mem_cons.1 h
    cases names with
    | nil =>
      rw [String.intercalate_singleton]
      exact lexes_name hname
    | cons name' names =>
      rw [String.intercalate_cons_cons, nameTokens]
      · exact ((lexes_name hname).append_cuts cuts_separator (ends_of_head? rfl)
          (by decide)).append_lexes (ih hnames)
      · exact nofun

theorem cuts_parameters {names : List String} (h : names.all isName) :
    Cuts (parameterText names) (parameterTokens names) :=
  (cuts_openingRound.append_lexes (lexes_names (List.all_eq_true.1 h))).append_cuts cuts_closingRound
    (ends_of_head? rfl) (by decide)

theorem lexes_leaf {l : Leaf} (h : l.isSpelled) (hnumber : ∀ value, l ≠ .number value) :
    Lexes l.text l.tokens := by
  cases l with
  | name x => exact lexes_name h
  | word w => exact lexes_keyword (.word w)
  | number value => exact absurd rfl (hnumber value)
  | long value => exact lexes_long value
  | string value => exact (cuts_string value).lexes
  | call x =>
    exact ((lexes_name h).append_cuts (cuts_openingRound.append cuts_closingRound)
      (ends_of_head? rfl) (by decide)).lexes
  | create c =>
    have hnew := (lexes_keyword .new).append_cuts cuts_blank (ends_of_head? rfl) (by decide)
    exact ((hnew.append_lexes (lexes_className h)).append_cuts
      (cuts_openingRound.append cuts_closingRound) (ends_of_head? rfl) (by decide)).lexes
  | block xs =>
    exact ((cuts_parameters h).append (cuts_blank.append (cuts_arrow.append (cuts_blank.append
      (cuts_openingCurly.append cuts_closingCurly))))).lexes
  | classOf p n =>
    obtain ⟨hcuts, hends⟩ := cuts_dimensions n
    exact ((lexes_keyword (.primitive p)).append hcuts.lexes hends).append
      (cuts_dot.append_lexes (lexes_keyword .classLiteral)) (ends_of_head? rfl)

-- A sign that could be the beginning of a longer one is left out here.
theorem cuts_head {h : Head} (hs : h.isSpelled) (hnegate : h ≠ .negate) (hnot : h ≠ .not) :
    Cuts h.before h.firstTokens := by
  have hnew := (lexes_keyword .new).append_cuts cuts_blank (ends_of_head? rfl) (by decide)
  cases h with
  | negate => exact absurd rfl hnegate
  | not => exact absurd rfl hnot
  | cast t =>
    exact (cuts_openingRound.append_lexes (lexes_typeName hs)).append_cuts
      (cuts_closingRound.append cuts_blank) (ends_of_head? rfl) (by decide)
  | lambda xs =>
    exact (cuts_parameters hs).append (cuts_blank.append (cuts_arrow.append cuts_blank))
  | group => exact cuts_openingRound
  | call x => exact (lexes_name hs).append_cuts cuts_openingRound (ends_of_head? rfl) (by decide)
  | create c =>
    exact (hnew.append_lexes (lexes_className hs)).append_cuts cuts_openingRound
      (ends_of_head? rfl) (by decide)
  | array b =>
    exact (hnew.append_lexes (lexes_base hs)).append_cuts cuts_openingSquare
      (ends_of_head? rfl) (by decide)
  | values t =>
    exact (hnew.append_lexes (lexes_typeName hs)).append_cuts
      (cuts_openingSquare.append (cuts_closingSquare.append (cuts_blank.append
        (cuts_openingCurly.append cuts_blank)))) (ends_of_head? rfl) (by decide)

theorem lexes_tail {t : Tail} (h : t.isSpelled) : Lexes t.text t.tokens := by
  cases t with
  | field x => exact cuts_dot.append_lexes (lexes_name h)
  | call x =>
    exact ((cuts_dot.append_lexes (lexes_name h)).append_cuts
      (cuts_openingRound.append cuts_closingRound) (ends_of_head? rfl) (by decide)).lexes
  | classOf n =>
    exact (cuts_dimensions n).1.append_lexes (cuts_dot.append_lexes (lexes_keyword .classLiteral))
  | instanceOf t =>
    exact (cuts_blank.append ((lexes_keyword .instanceOf).append_cuts cuts_blank
      (ends_of_head? rfl) (by decide))).append_lexes (lexes_typeName h)
  | reference x => exact cuts_reference.append_lexes (lexes_name h)
  | construct => exact cuts_reference.append_lexes (lexes_keyword .new)
  | dimension => exact (cuts_openingSquare.append cuts_closingSquare).lexes

theorem cuts_link {l : Link} (h : l.isSpelled) : Cuts l.between l.betweenTokens := by
  cases l with
  | operator op => exact cuts_operator op
  | comma => exact cuts_separator
  | index | dimension => exact cuts_openingSquare
  | call x =>
    exact (cuts_dot.append_lexes (lexes_name h)).append_cuts cuts_openingRound
      (ends_of_head? rfl) (by decide)

theorem Head.cuts_after (h : Head) : Cuts h.after (closingTokens h.bracket?) := by
  cases h with
  | negate | not | cast _ | lambda _ => exact cuts_empty
  | group | call _ | create _ => exact cuts_closingRound
  | array _ => exact cuts_closingSquare
  | values _ => exact cuts_blank.append cuts_closingCurly

theorem Link.cuts_after (l : Link) : Cuts l.after (closingTokens l.bracket?) := by
  cases l with
  | operator _ | comma => exact cuts_empty
  | index | dimension => exact cuts_closingSquare
  | call _ => exact cuts_closingRound

-- What closes an expression begins with the bracket or with a blank, if there is anything.
def Closes (after : String) : Option Bracket → Prop
  | none => after = ""
  | some _ => after.toList.head?.any fun c => c ≠ '.' && !isIdentifierPart c

theorem Head.closes (h : Head) : Closes h.after h.bracket? := by
  cases h <;> simp only [Closes, Head.after, Head.bracket?] <;> decide

theorem Link.closes (l : Link) : Closes l.after l.bracket? := by
  cases l <;> simp only [Closes, Link.after, Link.bracket?] <;> decide

theorem Tail.ends_text (t : Tail) : Ends t.text.toList ∧ t.text.toList ≠ [] := by
  cases t with
  | classOf n =>
    obtain ⟨-, hends⟩ := cuts_dimensions n
    rw [Tail.text, String.toList_append]
    exact ⟨ends_append hends fun _ => ends_of_head? rfl, by simp⟩
  | field x | call x | instanceOf t | reference x =>
    simp only [Tail.text, String.toList_append]
    exact ⟨ends_of_head? rfl, by simp⟩
  | construct | dimension => exact ⟨ends_of_head? rfl, by decide⟩

theorem Link.ends_between (l : Link) : Ends l.between.toList ∧ l.between.toList ≠ [] := by
  cases l with
  | operator op | call x =>
    simp only [Link.between, String.toList_append]
    exact ⟨ends_of_head? rfl, by simp⟩
  | comma | index | dimension => exact ⟨ends_of_head? rfl, by decide⟩

end Labels

namespace Phrase

-- Whether a number is its last token.
def endsInNumber : Phrase → Bool
  | leaf l => (leaf l).isNumber
  | head h a => h.bracket?.isNone && a.endsInNumber
  | tail _ _ => false
  | link _ l b => l.bracket?.isNone && b.endsInNumber

-- Whether no two minus signs come together, nor a number and a dot.
def isLegible : Phrase → Bool
  | leaf _ => true
  | head h a => a.isLegible && !(h = .negate && a.isSigned)
  | tail a t => a.isLegible && !(a.endsInNumber && t.text.toList.head? = some '.')
  | link a l b =>
    a.isLegible && b.isLegible && !(a.endsInNumber && l.between.toList.head? = some '.')

end Phrase

section Beginnings

-- A text that begins with a minus sign or not, and with nothing else that could prolong a sign.
def Begins (text : String) (signed : Bool) : Prop :=
  ∃ c s, text.toList = c :: s ∧ c ≠ '=' ∧ c ≠ '>' ∧ (c = '-' ↔ signed)

theorem Begins.append {s : String} {signed : Bool} (h : Begins s signed) (t : String) :
    Begins (s ++ t) signed := by
  obtain ⟨c, cs, hlist, hc⟩ := h
  exact ⟨c, cs ++ t.toList, by rw [String.toList_append, hlist, List.cons_append], hc⟩

theorem begins_of_isIdentifierPart {text : String} (hne : text.toList ≠ [])
    (h : ∀ c ∈ text.toList, isIdentifierPart c) : Begins text false := by
  cases hlist : text.toList with
  | nil => exact absurd hlist hne
  | cons c s =>
    have hc : isIdentifierPart c := h c (by rw [hlist]; exact List.mem_cons_self)
    exact ⟨c, s, hlist, ne_of_isIdentifierPart hc (by decide), ne_of_isIdentifierPart hc (by decide),
      by simp [ne_of_isIdentifierPart hc (d := '-') (by decide)]⟩

theorem begins_name {name : String} (h : isName name) : Begins name false := by
  obtain ⟨hword, hparts⟩ := word?_of_isName h
  refine begins_of_isIdentifierPart (fun hnil => ?_) hparts
  rw [hnil] at hword
  cases hword

theorem begins_keyword (k : Keyword) : Begins k.text false := by
  obtain ⟨hword, hparts⟩ := word?_text k
  refine begins_of_isIdentifierPart (fun hnil => ?_) hparts
  rw [hnil] at hword
  cases hword

theorem begins_number (value : Nat) : Begins (toString value) false := by
  have hlist : (toString value).toList = Nat.toDigits 10 value := by
    rw [Nat.toString_eq_repr, Nat.toList_repr]
  refine begins_of_isIdentifierPart ?_ ?_
  · rw [hlist]
    exact Nat.toDigits_ne_nil
  · rw [hlist]
    exact fun c hc =>
      isIdentifierPart_of_isDigit (Nat.isDigit_of_mem_toDigits (by decide) (by decide) hc)

theorem begins_round (s : String) : Begins ("(" ++ s) false :=
  Begins.append ⟨'(', [], rfl, by decide⟩ s

theorem begins_leaf {l : Leaf} (h : l.isSpelled) : Begins l.text false := by
  cases l with
  | name x => exact begins_name h
  | word w => exact begins_keyword (.word w)
  | number value => exact begins_number value
  | long value => exact (begins_number value).append _
  | string value => exact ⟨'"', _, String.toList_ofList, by decide⟩
  | call x => exact (begins_name h).append _
  | create c => exact ((Begins.append (begins_keyword .new) " ").append _).append _
  | block xs => exact (((begins_round _).append _).append _)
  | classOf p n => exact ((begins_keyword (.primitive p)).append _).append _

theorem begins_head {h : Head} (hs : h.isSpelled) : Begins h.before (h = .negate) := by
  cases h with
  | negate | not | group => exact ⟨_, [], rfl, by decide⟩
  | cast t => exact (begins_round _).append _
  | lambda xs => exact ((begins_round _).append _).append _
  | call x => exact (begins_name hs).append _
  | create c | array b | values t =>
    exact ((Begins.append (begins_keyword .new) " ").append _).append _

theorem begins_text {a : Phrase} (h : a.isSpelled) : Begins a.text a.isSigned := by
  induction a with
  | leaf l => exact begins_leaf h
  | head h' a =>
    obtain ⟨hh, -⟩ := Bool.and_eq_true_iff.1 h
    exact ((begins_head hh).append _).append _
  | tail a t ih =>
    obtain ⟨ha, -⟩ := Bool.and_eq_true_iff.1 h
    exact (ih ha).append _
  | link a l b ih =>
    simp only [Phrase.isSpelled, Bool.and_eq_true] at h
    exact (((ih h.1.1).append _).append _).append _

end Beginnings

section Phrases

-- An expression is read as its tokens if it is legible and no dot behind it makes a fraction.
def Reads (a : Phrase) : Prop :=
  ∀ rest, Ends rest → tokens? (a.text.toList ++ rest) =
    if a.isLegible ∧ ¬(a.endsInNumber ∧ rest.head? = some '.') then
      (a.tokens ++ ·) <$> tokens? rest
    else none

-- So it is in front of what closes something around it.
theorem Reads.closed {a : Phrase} (h : Reads a) {after : String} {bracket? : Option Bracket}
    (hcuts : Cuts after (closingTokens bracket?)) (hcloses : Closes after bracket?)
    {rest : List Char} (hrest : Ends rest) :
    tokens? (a.text.toList ++ (after.toList ++ rest)) =
      if a.isLegible ∧ ¬((bracket?.isNone && a.endsInNumber) ∧ rest.head? = some '.') then
        (a.tokens ++ closingTokens bracket? ++ ·) <$> tokens? rest
      else none := by
  cases bracket? with
  | none =>
    obtain rfl : after = "" := hcloses
    have hread := h rest hrest
    simpa [closingTokens] using hread
  | some b =>
    obtain ⟨c, hc, hchar⟩ := (Option.any_eq_true ..).1 hcloses
    obtain ⟨hdot, hpart⟩ : c ≠ '.' ∧ isIdentifierPart c = false := by simpa using hchar
    obtain ⟨s, hlist⟩ := List.head?_eq_some_iff.1 hc
    have hends : Ends (after.toList ++ rest) := by
      rw [hlist]
      exact ends_cons hpart _
    have hhead : (after.toList ++ rest).head? ≠ some '.' := by simpa [hlist] using hdot
    rw [h _ hends, hcuts rest]
    simp only [hhead, and_false, Option.isNone_some, Bool.false_and, Bool.false_eq_true, false_and,
      not_false_eq_true, and_true]
    simp [Function.comp_def]

-- What stands in front of an expression is read apart from it, two minus signs excepted.
theorem tokens?_before {h : Head} (hs : h.isSpelled) {text : String} {signed : Bool}
    (hbegins : Begins text signed) (rest : List Char) :
    tokens? (h.before.toList ++ (text.toList ++ rest)) =
      if h = .negate ∧ signed then none
      else (h.firstTokens ++ ·) <$> tokens? (text.toList ++ rest) := by
  obtain ⟨c, s, hlist, hequals, harrow, hminus⟩ := hbegins
  rw [hlist, List.cons_append]
  by_cases hnegate : h = .negate
  · subst hnegate
    show tokens? ('-' :: c :: (s ++ rest)) = _
    by_cases hsigned : signed
    · obtain rfl := hminus.2 hsigned
      rw [if_pos ⟨rfl, hsigned⟩, tokens?, if_neg (by decide), if_neg (by decide),
        if_neg (by decide)]
      split
      · next heq => cases heq
      · rfl
    · have hne : c ≠ '-' := fun hc => hsigned (hminus.1 hc)
      have hsign : sign? ('-' :: c :: (s ++ rest)) = some (.operator .minus, c :: (s ++ rest)) := by
        simp [sign?, operator?, hne, harrow]
      rw [if_neg (fun h => hsigned h.2)]
      exact tokens?_sign hsign (by decide) (by decide) (by decide)
  · rw [if_neg (fun h => hnegate h.1)]
    by_cases hnot : h = .not
    · subst hnot
      have hsign : sign? ('!' :: c :: (s ++ rest)) = some (.not, c :: (s ++ rest)) := by
        simp [sign?, hequals]
      exact tokens?_sign hsign (by decide) (by decide) (by decide)
    · exact cuts_head hs hnegate hnot _

theorem append_ite (us vs : List Token) (ts? : Option (List Token)) (c : Prop) [Decidable c] :
    ((us ++ ·) <$> if c then (vs ++ ·) <$> ts? else none) =
      if c then (us ++ vs ++ ·) <$> ts? else none := by
  split
  · simp [Function.comp_def]
  · rfl

theorem reads_phrase {a : Phrase} (h : a.isSpelled) : Reads a := by
  induction a with
  | leaf l =>
    intro rest hrest
    by_cases hnumber : ∃ value, l = .number value
    · obtain ⟨value, rfl⟩ := hnumber
      have hread := tokens?_number value hrest
      simpa [Phrase.text, Phrase.tokens, Leaf.text, Leaf.tokens, Phrase.isLegible,
        Phrase.endsInNumber, Phrase.isNumber] using hread
    · have hnot : (Phrase.leaf l).endsInNumber = false := by
        cases l <;> first | rfl | exact absurd ⟨_, rfl⟩ hnumber
      have hread := lexes_leaf h (fun value heq => hnumber ⟨value, heq⟩) rest hrest
      simpa [Phrase.text, Phrase.tokens, Phrase.isLegible, hnot] using hread
  | head h' a ih =>
    obtain ⟨hh, ha⟩ := Bool.and_eq_true_iff.1 h
    intro rest hrest
    have htext : (Phrase.head h' a).text.toList ++ rest =
        h'.before.toList ++ (a.text.toList ++ (h'.after.toList ++ rest)) := by
      simp [Phrase.text]
    rw [htext, tokens?_before hh (begins_text ha), (ih ha).closed h'.cuts_after h'.closes hrest]
    by_cases hsigned : h' = .negate ∧ a.isSigned
    · simp [Phrase.isLegible, hsigned]
    · have hlegible : (h' = .negate && a.isSigned) = false := by simpa using hsigned
      rw [if_neg hsigned, append_ite]
      simp [Phrase.isLegible, Phrase.endsInNumber, Phrase.tokens, hlegible]
  | tail a t ih =>
    obtain ⟨ha, ht⟩ := Bool.and_eq_true_iff.1 h
    intro rest hrest
    obtain ⟨hends, hne⟩ := t.ends_text
    have hends : Ends (t.text.toList ++ rest) := ends_append hends fun h => absurd h hne
    have htext : (Phrase.tail a t).text.toList ++ rest =
        a.text.toList ++ (t.text.toList ++ rest) := by
      simp [Phrase.text]
    rw [htext, ih ha _ hends, lexes_tail ht rest hrest, List.head?_append_of_ne_nil _ hne]
    simp [Phrase.isLegible, Phrase.endsInNumber, Phrase.tokens, Function.comp_def, imp_iff_not_or]
  | link a l b iha ihb =>
    simp only [Phrase.isSpelled, Bool.and_eq_true] at h
    obtain ⟨⟨ha, hl⟩, hb⟩ := h
    intro rest hrest
    obtain ⟨hends, hne⟩ := l.ends_between
    have hends (rest : List Char) : Ends (l.between.toList ++ rest) :=
      ends_append hends fun h => absurd h hne
    have htext : (Phrase.link a l b).text.toList ++ rest =
        a.text.toList ++ (l.between.toList ++ (b.text.toList ++ (l.after.toList ++ rest))) := by
      simp [Phrase.text]
    rw [htext, iha ha _ (hends _), cuts_link hl, (ihb hb).closed l.cuts_after l.closes hrest,
      List.head?_append_of_ne_nil _ hne, append_ite]
    by_cases hdot : a.endsInNumber ∧ l.between.toList.head? = some '.'
    · simp [Phrase.isLegible, hdot]
    · have hlegible : (a.endsInNumber && l.between.toList.head? = some '.') = false := by
        simpa using hdot
      simp only [hdot, not_false_eq_true, and_true, append_ite]
      by_cases haleg : a.isLegible
      · simp [Phrase.isLegible, Phrase.endsInNumber, Phrase.tokens, hlegible, haleg]
      · simp [Phrase.isLegible, haleg]

-- A legible expression is read as its tokens, any other one cannot be read.
theorem tokens?_text {a : Phrase} (h : a.isSpelled) :
    tokens? a.text.toList = if a.isLegible then some a.tokens else none := by
  have hread := reads_phrase h [] ends_nil
  simpa [tokens?] using hread

end Phrases

end JvmLift.Source
