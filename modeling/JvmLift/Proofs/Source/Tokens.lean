import JvmLift.Proofs.Quotation
import JvmLift.Proofs.Source

namespace JvmLift.Source

open Grammar (isIdentifierPart isIdentifier operator? length_of_operator? Ends ends_cons ends_nil
  takeWhile_run ne_of_isIdentifierPart isIdentifierPart_of_isDigit word?_of_isIdentifier)

def Token.isNumber : Token → Bool
  | number _ => true
  | _ => false

-- What stands in front of the double quote that ends a literal, and what follows it.
def closing? : List Char → Option (List Char × List Char)
  | [] => none
  | '"' :: s => some ([], s)
  | '\\' :: c :: s => (closing? s).map fun p => ('\\' :: c :: p.1, p.2)
  | c :: s => (closing? s).map fun p => (c :: p.1, p.2)

-- A decimal number without leading zeros, and one of type long.
def number? (run : List Char) : Option Token :=
  let digits := run.takeWhile Char.isDigit
  let value := Nat.ofDigitChars 10 digits 0
  if digits = Nat.toDigits 10 value then
    match run.dropWhile Char.isDigit with
    | [] => some (.number value)
    | ['L'] => some (.long value)
    | _ => none
  else none

-- The token that a run of identifier characters makes.
def word? (run : List Char) : Option Token :=
  match run with
  | [] => none
  | c :: _ =>
    if c.isDigit then number? run
    else
      match Keyword.ofText? (.ofList run) with
      | some k => some (.keyword k)
      | none => if reserved.contains (.ofList run) then none else some (.name (.ofList run))

-- The longest sign in front of a text, and what follows it. Two minus signs make a decrement, of
-- which there are none here.
def sign? : List Char → Option (Token × List Char)
  | '(' :: s => some (.opening .round, s)
  | ')' :: s => some (.closing .round, s)
  | '[' :: s => some (.opening .square, s)
  | ']' :: s => some (.closing .square, s)
  | '\x7b' :: s => some (.opening .curly, s)
  | '\x7d' :: s => some (.closing .curly, s)
  | ',' :: s => some (.comma, s)
  | '.' :: s => some (.dot, s)
  | ':' :: ':' :: s => some (.reference, s)
  | '-' :: '-' :: _ => none
  | '-' :: '>' :: s => some (.arrow, s)
  | '!' :: '=' :: s => some (.operator .ne, s)
  | '!' :: s => some (.not, s)
  | s => (operator? s).map fun p => (.operator p.1, p.2)

theorem length_of_closing? {s body rest : List Char} (h : closing? s = some (body, rest)) :
    rest.length ≤ s.length := by
  fun_induction closing? s generalizing body with
  | case1 => cases h
  | case2 s =>
    cases h
    simp
  | case3 c s ih | case4 c s _ _ ih =>
    obtain ⟨p, hp, heq⟩ := Option.map_eq_some_iff.1 h
    cases heq
    have hle := ih hp
    simp only [List.length_cons]
    omega

theorem length_of_sign? {s rest : List Char} {t : Token} (h : sign? s = some (t, rest)) :
    rest.length < s.length := by
  unfold sign? at h
  split at h
  case h_14 =>
    obtain ⟨p, hp, heq⟩ := Option.map_eq_some_iff.1 h
    cases heq
    exact length_of_operator? hp
  all_goals cases h <;> simp +arith

-- The tokens of a text, each as long as possible. A number with a dot behind it would be a
-- fraction, of which there are none here.
def tokens? : List Char → Option (List Token)
  | [] => some []
  | c :: s =>
    if c = ' ' then tokens? s
    else if c = '"' then
      match _h : closing? s with
      | some (body, rest) =>
        (Text.unescape? body).bind fun value =>
          (.string (.ofList value) :: ·) <$> tokens? rest
      | none => none
    else if isIdentifierPart c then
      (word? (c :: s.takeWhile isIdentifierPart)).bind fun token =>
        let rest := s.dropWhile isIdentifierPart
        if token.isNumber ∧ rest.head? = some '.' then none
        else (token :: ·) <$> tokens? rest
    else
      match _h : sign? (c :: s) with
      | some (t, rest) => (t :: ·) <$> tokens? rest
      | none => none
termination_by s => s.length
decreasing_by
  all_goals simp only [List.length_cons]
  · omega
  · have hle := length_of_closing? _h
    omega
  · have hle := (List.dropWhile_sublist isIdentifierPart (l := s)).length_le
    omega
  · have hlt := length_of_sign? _h
    simpa using hlt

section Words

theorem word?_text (k : Keyword) :
    word? k.text.toList = some (.keyword k) ∧ ∀ c ∈ k.text.toList, isIdentifierPart c := by
  rw [← List.all_eq_true]
  cases k with
  | word w => cases w <;> decide +kernel
  | primitive p => cases p <;> decide +kernel
  | _ => decide +kernel

theorem word?_of_isName {name : String} (h : isName name) :
    word? name.toList = some (.name name) ∧ ∀ c ∈ name.toList, isIdentifierPart c := by
  simp only [isName, Bool.and_eq_true, Option.isNone_iff_eq_none, Bool.not_eq_true'] at h
  obtain ⟨⟨hidentifier, hkeyword⟩, hreserved⟩ := h
  obtain ⟨-, hparts⟩ := word?_of_isIdentifier hidentifier
  refine ⟨?_, hparts⟩
  cases hlist : name.toList with
  | nil => simp [isIdentifier, hlist] at hidentifier
  | cons c run =>
    simp only [isIdentifier, hlist, Bool.and_eq_true, Bool.not_eq_true'] at hidentifier
    rw [word?, ← hlist, String.ofList_toList]
    simp only [hidentifier.1, hkeyword, hreserved, Bool.false_eq_true, if_false]

theorem takeWhile_isDigit_toDigits (value : Nat) (rest : List Char)
    (hrest : ∀ c ∈ rest.head?, c.isDigit = false) :
    (Nat.toDigits 10 value ++ rest).takeWhile Char.isDigit = Nat.toDigits 10 value ∧
      (Nat.toDigits 10 value ++ rest).dropWhile Char.isDigit = rest := by
  have hdigits : ∀ c ∈ Nat.toDigits 10 value, c.isDigit := fun c hc =>
    Nat.isDigit_of_mem_toDigits (by decide) (by decide) hc
  rw [List.takeWhile_append_of_pos hdigits, List.dropWhile_append_of_pos hdigits]
  cases rest with
  | nil => simp
  | cons c rest =>
    have hc : c.isDigit = false := hrest c rfl
    simp [hc]

theorem number?_toDigits (value : Nat) :
    number? (Nat.toDigits 10 value) = some (.number value) ∧
      number? (Nat.toDigits 10 value ++ ['L']) = some (.long value) := by
  have hnumber := takeWhile_isDigit_toDigits value [] nofun
  have hlong := takeWhile_isDigit_toDigits value ['L'] (by simp)
  rw [List.append_nil] at hnumber
  constructor
  · simp only [number?, hnumber, Nat.ofDigitChars_ten_toDigits, if_true]
  · simp only [number?, hlong, Nat.ofDigitChars_ten_toDigits, if_true]

theorem word?_toDigits_append (value : Nat) (rest : List Char) :
    word? (Nat.toDigits 10 value ++ rest) = number? (Nat.toDigits 10 value ++ rest) := by
  have hdigits : ∀ c ∈ Nat.toDigits 10 value, c.isDigit := fun c hc =>
    Nat.isDigit_of_mem_toDigits (by decide) (by decide) hc
  cases hlist : Nat.toDigits 10 value with
  | nil => exact absurd hlist Nat.toDigits_ne_nil
  | cons c run =>
    have hc : c.isDigit := hdigits c (by rw [hlist]; exact List.mem_cons_self)
    rw [List.cons_append, word?, if_pos hc]

-- A run of identifier characters is read as a whole.
theorem tokens?_run {run rest : List Char} {token : Token} (hrun : ∀ c ∈ run, isIdentifierPart c)
    (htoken : word? run = some token) (hrest : Ends rest) :
    tokens? (run ++ rest) = if token.isNumber ∧ rest.head? = some '.' then none
      else (token :: ·) <$> tokens? rest := by
  cases run with
  | nil => cases htoken
  | cons c run =>
    obtain ⟨hc, hrun⟩ := List.forall_mem_cons.1 hrun
    obtain ⟨htake, hdrop⟩ := takeWhile_run hrun hrest
    rw [List.cons_append, tokens?, if_neg (ne_of_isIdentifierPart hc (by decide)),
      if_neg (ne_of_isIdentifierPart hc (by decide)), if_pos hc, htake, hdrop, htoken]
    rfl

end Words

section Pieces

-- A text is for some tokens if it is read as them, whatever follows it but prolongs no word.
def Lexes (text : String) (ts : List Token) : Prop :=
  ∀ rest, Ends rest → tokens? (text.toList ++ rest) = (ts ++ ·) <$> tokens? rest

-- A text with an end that nothing can prolong.
def Cuts (text : String) (ts : List Token) : Prop :=
  ∀ rest, tokens? (text.toList ++ rest) = (ts ++ ·) <$> tokens? rest

variable {s t : String} {us vs : List Token}

theorem Cuts.lexes (h : Cuts s us) : Lexes s us :=
  fun rest _ => h rest

theorem Cuts.append (hs : Cuts s us) (ht : Cuts t vs) : Cuts (s ++ t) (us ++ vs) := by
  intro rest
  rw [String.toList_append, List.append_assoc, hs, ht]
  simp [Function.comp_def]

theorem Cuts.append_lexes (hs : Cuts s us) (ht : Lexes t vs) : Lexes (s ++ t) (us ++ vs) := by
  intro rest hrest
  rw [String.toList_append, List.append_assoc, hs, ht rest hrest]
  simp [Function.comp_def]

theorem ends_append {left rest : List Char} (hleft : Ends left) (hrest : left = [] → Ends rest) :
    Ends (left ++ rest) := by
  cases left with
  | nil => exact hrest rfl
  | cons c left => exact ends_cons (hleft c rfl) (left ++ rest)

theorem Lexes.append_cuts (hs : Lexes s us) (ht : Cuts t vs) (hends : Ends t.toList)
    (hne : t.toList ≠ []) : Cuts (s ++ t) (us ++ vs) := by
  intro rest
  have hends : Ends (t.toList ++ rest) := ends_append hends fun h => absurd h hne
  rw [String.toList_append, List.append_assoc, hs _ hends, ht]
  simp [Function.comp_def]

theorem Lexes.append (hs : Lexes s us) (ht : Lexes t vs) (hends : Ends t.toList) :
    Lexes (s ++ t) (us ++ vs) := by
  intro rest hrest
  have hends : Ends (t.toList ++ rest) := ends_append hends fun _ => hrest
  rw [String.toList_append, List.append_assoc, hs _ hends, ht rest hrest]
  simp [Function.comp_def]

theorem cuts_empty : Cuts "" [] := fun rest => by simp

theorem cuts_blank : Cuts " " [] := by
  intro rest
  show tokens? (' ' :: rest) = _
  rw [tokens?, if_pos rfl]
  simp

theorem tokens?_sign {c : Char} {rest rest' : List Char} {t : Token}
    (h : sign? (c :: rest) = some (t, rest')) (hblank : c ≠ ' ') (hquote : c ≠ '"')
    (hpart : isIdentifierPart c = false) : tokens? (c :: rest) = (t :: ·) <$> tokens? rest' := by
  rw [tokens?, if_neg hblank, if_neg hquote, hpart, if_neg Bool.false_ne_true]
  split
  · next t' rest' hsign =>
    cases hsign.symm.trans h
    rfl
  · next hsign => cases hsign.symm.trans h

theorem cuts_sign {c : Char} {t : Token} (h : ∀ rest, sign? (c :: rest) = some (t, rest))
    (hblank : c ≠ ' ') (hquote : c ≠ '"') (hpart : isIdentifierPart c = false) :
    Cuts (String.singleton c) [t] := by
  intro rest
  rw [String.toList_singleton]
  exact tokens?_sign (h rest) hblank hquote hpart

theorem cuts_openingRound : Cuts "(" [.opening .round] :=
  cuts_sign (c := '(') (fun _ => rfl) (by decide) (by decide) (by decide)

theorem cuts_closingRound : Cuts ")" [.closing .round] :=
  cuts_sign (c := ')') (fun _ => rfl) (by decide) (by decide) (by decide)

theorem cuts_openingSquare : Cuts "[" [.opening .square] :=
  cuts_sign (c := '[') (fun _ => rfl) (by decide) (by decide) (by decide)

theorem cuts_closingSquare : Cuts "]" [.closing .square] :=
  cuts_sign (c := ']') (fun _ => rfl) (by decide) (by decide) (by decide)

theorem cuts_openingCurly : Cuts "\x7b" [.opening .curly] :=
  cuts_sign (c := '\x7b') (fun _ => rfl) (by decide) (by decide) (by decide)

theorem cuts_closingCurly : Cuts "\x7d" [.closing .curly] :=
  cuts_sign (c := '\x7d') (fun _ => rfl) (by decide) (by decide) (by decide)

theorem cuts_comma : Cuts "," [.comma] :=
  cuts_sign (c := ',') (fun _ => rfl) (by decide) (by decide) (by decide)

theorem cuts_dot : Cuts "." [.dot] :=
  cuts_sign (c := '.') (fun _ => rfl) (by decide) (by decide) (by decide)

theorem cuts_arrow : Cuts "->" [.arrow] :=
  fun rest =>
    have hsign : sign? ('-' :: '>' :: rest) = some (.arrow, rest) := rfl
    tokens?_sign hsign (by decide) (by decide) (by decide)

theorem cuts_reference : Cuts "::" [.reference] :=
  fun rest =>
    have hsign : sign? (':' :: ':' :: rest) = some (.reference, rest) := rfl
    tokens?_sign hsign (by decide) (by decide) (by decide)

-- Operators stand between blanks.
theorem cuts_operator (op : BinaryOp) : Cuts (" " ++ op.token ++ " ") [.operator op] := by
  have hop (rest : List Char) :
      tokens? (op.token.toList ++ ' ' :: rest) = (.operator op :: ·) <$> tokens? rest := by
    obtain ⟨c, s, htoken, hblank, -, -, hpart⟩ := Grammar.exists_token_eq_cons op
    have hquote : c ≠ '"' := by
      revert htoken
      cases op <;> rintro ⟨⟩ <;> decide
    have hsign : sign? (op.token.toList ++ ' ' :: rest) = some (.operator op, ' ' :: rest) := by
      cases op <;> rfl
    rw [htoken, List.cons_append] at hsign ⊢
    rw [tokens?_sign hsign hblank hquote hpart, tokens?, if_pos rfl]
  intro rest
  have hblank := cuts_blank (op.token.toList ++ ' ' :: rest)
  rw [hop] at hblank
  simpa using hblank

theorem lexes_keyword (k : Keyword) : Lexes k.text [.keyword k] := by
  obtain ⟨hword, hparts⟩ := word?_text k
  intro rest hrest
  rw [tokens?_run hparts hword hrest, if_neg (by simp [Token.isNumber])]
  rfl

theorem lexes_name {name : String} (h : isName name) : Lexes name [.name name] := by
  obtain ⟨hword, hparts⟩ := word?_of_isName h
  intro rest hrest
  rw [tokens?_run hparts hword hrest, if_neg (by simp [Token.isNumber])]
  rfl

theorem lexes_long (value : Nat) : Lexes (toString value ++ "L") [.long value] := by
  have hparts : ∀ c ∈ Nat.toDigits 10 value ++ ['L'], isIdentifierPart c := by
    intro c hc
    rcases List.mem_append.1 hc with hc | hc
    · exact isIdentifierPart_of_isDigit (Nat.isDigit_of_mem_toDigits (by decide) (by decide) hc)
    · rw [List.mem_singleton.1 hc]
      decide
  have hword : word? (Nat.toDigits 10 value ++ ['L']) = some (.long value) := by
    rw [word?_toDigits_append, (number?_toDigits value).2]
  intro rest hrest
  have hrun := tokens?_run hparts hword hrest
  rw [if_neg (by simp [Token.isNumber])] at hrun
  simpa [Nat.toString_eq_repr, Nat.toList_repr] using hrun

theorem tokens?_number (value : Nat) {rest : List Char} (hrest : Ends rest) :
    tokens? ((toString value).toList ++ rest) =
      if rest.head? = some '.' then none else ([.number value] ++ ·) <$> tokens? rest := by
  have hparts : ∀ c ∈ Nat.toDigits 10 value, isIdentifierPart c := fun c hc =>
    isIdentifierPart_of_isDigit (Nat.isDigit_of_mem_toDigits (by decide) (by decide) hc)
  have hword : word? (Nat.toDigits 10 value) = some (.number value) := by
    have h := word?_toDigits_append value []
    rwa [List.append_nil, (number?_toDigits value).1] at h
  rw [Nat.toString_eq_repr, Nat.toList_repr, tokens?_run hparts hword hrest]
  simp only [Token.isNumber, true_and]
  rfl

theorem closing?_plain {c : Char} (h : Text.isPlain c) (s : List Char) :
    closing? (c :: s) = (closing? s).map fun p => (c :: p.1, p.2) := by
  obtain ⟨hslash, hquote, -⟩ := Text.isPlain_iff.1 h
  rw [closing?]
  · exact hquote
  · exact fun _ _ heq => absurd heq hslash

theorem closing?_quoteChar_append (c : Char) (s : List Char) :
    closing? (Text.quoteChar c ++ s) =
      (closing? s).map fun p => (Text.quoteChar c ++ p.1, p.2) := by
  rcases Text.quoteChar_cases c with ⟨x, hform, -⟩ | ⟨x, y, hform, -, hx, hy⟩ | ⟨hform, hplain⟩
  · rw [hform]
    rfl
  · have hzero : Text.isPlain '0' := rfl
    rw [hform]
    simp only [List.cons_append, List.nil_append, closing?]
    rw [closing?_plain hzero, closing?_plain hzero, closing?_plain hx, closing?_plain hy]
    simp [Function.comp_def]
  · rw [hform]
    exact closing?_plain hplain s

theorem closing?_flatMap (s rest : List Char) :
    closing? (s.flatMap Text.quoteChar ++ '"' :: rest) = some (s.flatMap Text.quoteChar, rest) := by
  induction s with
  | nil => rfl
  | cons c s ih =>
    rw [List.flatMap_cons, List.append_assoc, closing?_quoteChar_append, ih]
    rfl

theorem cuts_string (value : String) : Cuts (Text.quote value) [.string value] := by
  intro rest
  have hlist : (Text.quote value).toList ++ rest =
      '"' :: (value.toList.flatMap Text.quoteChar ++ '"' :: rest) := by
    simp [Text.quote]
  have hclosing := closing?_flatMap value.toList rest
  rw [hlist, tokens?, if_neg (by decide), if_pos rfl]
  split
  · next body rest' heq =>
    cases heq.symm.trans hclosing
    rw [Text.unescape?_flatMap, Option.bind_some, String.ofList_toList]
    rfl
  · next heq => cases heq.symm.trans hclosing

end Pieces

end JvmLift.Source
