import JvmLift.Proofs.Written
import Mathlib.Algebra.Group.Nat.Defs

namespace JvmLift.Grammar

-- The signs that source text of operators consists of, blanks apart.
inductive Token where
  | name (text : String)
  | number (value : Nat)
  | operator (op : BinaryOp)
  | opening
  | closing
deriving DecidableEq

-- Whether a character can stand in an identifier. Of the control characters those can that are no
-- blanks, and every character beyond ASCII is let through.
def isIdentifierPart (c : Char) : Bool :=
  c.isAlphanum || c = '_' || c = '$' || c.toNat < 0x09 || 0x0e ≤ c.toNat && c.toNat < 0x1c ||
    0x7f ≤ c.toNat

def isIdentifier (name : String) : Bool :=
  match name.toList with
  | [] => false
  | c :: rest => !c.isDigit && (c :: rest).all isIdentifierPart

-- The token that a run of identifier characters makes. One that begins with a digit has to be a
-- decimal number without leading zeros.
def word? (run : List Char) : Option Token :=
  match run with
  | [] => none
  | c :: _ =>
    if c.isDigit then
      let value := Nat.ofDigitChars 10 run 0
      if run = Nat.toDigits 10 value then some (.number value) else none
    else some (.name (String.ofList run))

-- The longest operator in front of a text, and what follows it.
def operator? : List Char → Option (BinaryOp × List Char)
  | '+' :: s => some (.plus, s)
  | '-' :: s => some (.minus, s)
  | '*' :: s => some (.multiply, s)
  | '/' :: s => some (.divide, s)
  | '%' :: s => some (.modulo, s)
  | '<' :: '<' :: s => some (.leftShift, s)
  | '<' :: '=' :: s => some (.le, s)
  | '<' :: s => some (.lt, s)
  | '>' :: '>' :: '>' :: s => some (.unsignedRightShift, s)
  | '>' :: '>' :: s => some (.rightShift, s)
  | '>' :: '=' :: s => some (.ge, s)
  | '>' :: s => some (.gt, s)
  | '&' :: s => some (.and, s)
  | '|' :: s => some (.or, s)
  | '^' :: s => some (.xor, s)
  | '=' :: '=' :: s => some (.eq, s)
  | '!' :: '=' :: s => some (.ne, s)
  | _ => none

theorem length_of_operator? {s rest : List Char} {op : BinaryOp}
    (h : operator? s = some (op, rest)) : rest.length < s.length := by
  unfold operator? at h
  split at h <;> cases h <;> simp +arith

-- The tokens of a text, each as long as possible.
def tokens? : List Char → Option (List Token)
  | [] => some []
  | c :: s =>
    if c = ' ' then tokens? s
    else if c = '(' then (.opening :: ·) <$> tokens? s
    else if c = ')' then (.closing :: ·) <$> tokens? s
    else if isIdentifierPart c then do
      let token ← word? (c :: s.takeWhile isIdentifierPart)
      (token :: ·) <$> tokens? (s.dropWhile isIdentifierPart)
    else
      match _h : operator? (c :: s) with
      | some (op, rest) => (.operator op :: ·) <$> tokens? rest
      | none => none
termination_by s => s.length
decreasing_by
  all_goals simp only [List.length_cons]
  · omega
  · omega
  · omega
  · have hle := (List.dropWhile_sublist isIdentifierPart (l := s)).length_le
    omega
  · have hlt := length_of_operator? _h
    simpa using hlt

section Tokens

-- Whether nothing that follows can prolong an identifier or a number.
def Ends (rest : List Char) : Prop :=
  ∀ c ∈ rest.head?, isIdentifierPart c = false

theorem ends_nil : Ends [] := nofun

theorem ends_cons {c : Char} (hc : isIdentifierPart c = false) (rest : List Char) :
    Ends (c :: rest) := by
  intro d hd
  obtain rfl := Option.some.inj hd
  exact hc

theorem ne_of_isIdentifierPart {c d : Char} (hc : isIdentifierPart c)
    (hd : isIdentifierPart d = false) : c ≠ d := by
  rintro rfl
  rw [hc] at hd
  cases hd

-- A text is for some tokens if it is read as them, whatever follows it but prolongs no word.
def Lexes (text : List Char) (ts : List Token) : Prop :=
  ∀ rest, Ends rest → tokens? (text ++ rest) = (ts ++ ·) <$> tokens? rest

theorem tokens?_opening (s : List Char) :
    tokens? ('(' :: s) = (.opening :: ·) <$> tokens? s := by
  rw [tokens?, if_neg (by decide), if_pos rfl]

theorem tokens?_closing (s : List Char) :
    tokens? (')' :: s) = (.closing :: ·) <$> tokens? s := by
  rw [tokens?, if_neg (by decide), if_neg (by decide), if_pos rfl]

theorem tokens?_blank (s : List Char) : tokens? (' ' :: s) = tokens? s := by
  rw [tokens?, if_pos rfl]

theorem operator?_token (op : BinaryOp) (s : List Char) :
    operator? (op.token.toList ++ ' ' :: s) = some (op, ' ' :: s) := by
  cases op <;> rfl

-- No operator begins with a character of anything else.
theorem exists_token_eq_cons (op : BinaryOp) :
    ∃ c s, op.token.toList = c :: s ∧ c ≠ ' ' ∧ c ≠ '(' ∧ c ≠ ')' ∧ isIdentifierPart c = false := by
  cases op <;> exact ⟨_, _, rfl, by decide⟩

theorem tokens?_operator (op : BinaryOp) (s : List Char) :
    tokens? (op.token.toList ++ ' ' :: s) = (.operator op :: ·) <$> tokens? s := by
  obtain ⟨c, rest, htoken, hblank, hopening, hclosing, hpart⟩ := exists_token_eq_cons op
  have hop := operator?_token op s
  rw [htoken, List.cons_append] at hop ⊢
  rw [tokens?, if_neg hblank, if_neg hopening, if_neg hclosing, hpart, if_neg Bool.false_ne_true]
  split
  · next op' rest' h =>
    obtain ⟨rfl, rfl⟩ := Prod.mk.inj (Option.some.inj (h.symm.trans hop))
    rw [tokens?_blank]
  · next h =>
    rw [hop] at h
    cases h

-- A run of identifier characters ends where something follows that does not prolong it.
theorem takeWhile_run {run rest : List Char} (hrun : ∀ c ∈ run, isIdentifierPart c)
    (hrest : Ends rest) : (run ++ rest).takeWhile isIdentifierPart = run ∧
      (run ++ rest).dropWhile isIdentifierPart = rest := by
  rw [List.takeWhile_append_of_pos hrun, List.dropWhile_append_of_pos hrun]
  cases rest with
  | nil => simp
  | cons c rest =>
    have hc : isIdentifierPart c = false := hrest c rfl
    simp [hc]

-- A run of identifier characters is read as a whole.
theorem lexes_word {run : List Char} {token : Token} (hrun : ∀ c ∈ run, isIdentifierPart c)
    (htoken : word? run = some token) : Lexes run [token] := by
  intro rest hrest
  cases run with
  | nil => cases htoken
  | cons c run =>
    obtain ⟨hc, hrun⟩ := List.forall_mem_cons.1 hrun
    obtain ⟨htake, hdrop⟩ := takeWhile_run hrun hrest
    rw [List.cons_append, tokens?, if_neg (ne_of_isIdentifierPart hc (by decide)),
      if_neg (ne_of_isIdentifierPart hc (by decide)),
      if_neg (ne_of_isIdentifierPart hc (by decide)), if_pos hc, htake, hdrop, htoken]
    rfl

theorem word?_of_isIdentifier {name : String} (h : isIdentifier name) :
    word? name.toList = some (.name name) ∧ ∀ c ∈ name.toList, isIdentifierPart c := by
  cases hlist : name.toList with
  | nil => simp [isIdentifier, hlist] at h
  | cons c rest =>
    simp only [isIdentifier, hlist, Bool.and_eq_true, Bool.not_eq_true', List.all_eq_true] at h
    obtain ⟨hdigit, hparts⟩ := h
    refine ⟨?_, hparts⟩
    rw [word?, hdigit, if_neg Bool.false_ne_true, ← hlist, String.ofList_toList]

theorem isIdentifierPart_of_isDigit {c : Char} (h : c.isDigit) : isIdentifierPart c := by
  simp [isIdentifierPart, Char.isAlphanum, h]

theorem word?_toDigits (value : Nat) :
    word? (Nat.toDigits 10 value) = some (.number value) ∧
      ∀ c ∈ Nat.toDigits 10 value, isIdentifierPart c := by
  have hdigits : ∀ c ∈ Nat.toDigits 10 value, c.isDigit := fun c hc =>
    Nat.isDigit_of_mem_toDigits (by decide) (by decide) hc
  refine ⟨?_, fun c hc => isIdentifierPart_of_isDigit (hdigits c hc)⟩
  cases hlist : Nat.toDigits 10 value with
  | nil => exact absurd hlist Nat.toDigits_ne_nil
  | cons c rest =>
    have hc : c.isDigit := hdigits c (by rw [hlist]; exact List.mem_cons_self)
    rw [word?, if_pos hc, ← hlist]
    simp only [Nat.ofDigitChars_ten_toDigits, if_true]

theorem lexes_name {name : String} (h : isIdentifier name) : Lexes name.toList [.name name] := by
  obtain ⟨hword, hparts⟩ := word?_of_isIdentifier h
  exact lexes_word hparts hword

theorem lexes_number (value : Nat) : Lexes (Nat.toDigits 10 value) [.number value] := by
  obtain ⟨hword, hparts⟩ := word?_toDigits value
  exact lexes_word hparts hword

namespace Lexes

variable {text left right : List Char} {ts ls rs : List Token}

protected theorem parentheses (h : Lexes text ts) :
    Lexes ('(' :: text ++ [')']) (.opening :: ts ++ [.closing]) := by
  intro rest _
  have hends : Ends (')' :: rest) := ends_cons (by decide) rest
  rw [List.append_assoc, List.cons_append, tokens?_opening, List.singleton_append,
    h _ hends, tokens?_closing]
  simp [Function.comp_def]

-- Operators stand between blanks.
protected theorem operation (hl : Lexes left ls) (hr : Lexes right rs) (op : BinaryOp) :
    Lexes (left ++ ' ' :: (op.token.toList ++ ' ' :: right)) (ls ++ .operator op :: rs) := by
  intro rest hrest
  have hends : Ends (' ' :: (op.token.toList ++ ' ' :: right) ++ rest) :=
    ends_cons (by decide) _
  rw [List.append_assoc, hl _ hends, List.cons_append, tokens?_blank, List.append_assoc,
    List.cons_append, tokens?_operator, hr rest hrest]
  simp [Function.comp_def]

end Lexes

end Tokens

-- The operators, from those that bind their operands least tightly to those that bind them most.
def levels : List (List BinaryOp) :=
  [[.or], [.xor], [.and], [.eq, .ne], [.lt, .le, .gt, .ge],
   [.leftShift, .rightShift, .unsignedRightShift], [.plus, .minus], [.multiply, .divide, .modulo]]

def binding (op : BinaryOp) : Nat :=
  levels.findIdx fun level => op ∈ level

-- The tree that tokens are derived from at a level. Of the operands of an operator only the left
-- one may have an operator of the same level at its root, so that operators associate to the left.
inductive Derives : Nat → List Token → Element → Prop
  | name (level : Nat) (text : String) :
    Derives level [.name text] (.ofShape (.localVar ⟨text, .void, 0⟩))
  | number (level : Nat) (value : Nat) (h : value < 2 ^ 31) :
    Derives level [.number value] (.ofShape (.constant (.int (.ofNat value)) .void))
  | parentheses (level : Nat) {ts : List Token} {e : Element} (h : Derives 0 ts e) :
    Derives level (.opening :: ts ++ [.closing]) e
  | operation {level : Nat} {op : BinaryOp} {ls rs : List Token} {left right : Element}
    (h : level ≤ binding op) (hl : Derives (binding op) ls left)
    (hr : Derives (binding op + 1) rs right) :
    Derives level (ls ++ .operator op :: rs) (.ofShape (.binary left op right .void))

-- Whether a text is one for a tree.
def Parses (text : String) (e : Element) : Prop :=
  ∃ ts, tokens? text.toList = some ts ∧ Derives 0 ts e

section Reading

-- What has been opened and not been closed yet: a parenthesis, or an operator behind its left
-- operand.
inductive Frame where
  | parenthesis
  | operand (left : Element) (op : BinaryOp)

-- Ends the operations that do not bind less tightly than a level.
def settle (level : Nat) : List Frame → Element → List Frame × Element
  | .operand left op :: frames, right =>
    if level ≤ binding op then
      settle level frames (.ofShape (.binary left op right .void))
    else (.operand left op :: frames, right)
  | frames, e => (frames, e)

-- Reads tokens from left to right, with an operand in front of them or where one is due.
def readFrom : List Frame → Option Element → List Token → Option Element
  | frames, none, .name text :: ts =>
    readFrom frames (some (.ofShape (.localVar ⟨text, .void, 0⟩))) ts
  | frames, none, .number value :: ts =>
    readFrom frames (some (.ofShape (.constant (.int (.ofNat value)) .void))) ts
  | frames, none, .opening :: ts => readFrom (.parenthesis :: frames) none ts
  | frames, some e, .operator op :: ts =>
    let (frames, left) := settle (binding op) frames e
    readFrom (.operand left op :: frames) none ts
  | frames, some e, .closing :: ts =>
    match settle 0 frames e with
    | (.parenthesis :: frames, e) => readFrom frames (some e) ts
    | _ => none
  | frames, some e, [] =>
    match settle 0 frames e with
    | ([], e) => some e
    | _ => none
  | _, _, _ => none

-- Whether nothing of a level is ended by what comes next.
def Rests (level : Nat) : List Frame → Prop
  | .operand _ op :: _ => binding op < level
  | _ => True

theorem Rests.mono {level level' : Nat} {frames : List Frame} (h : Rests level frames)
    (hle : level ≤ level') : Rests level' frames := by
  rcases frames with _ | ⟨frame, frames⟩
  · trivial
  · cases frame with
    | parenthesis => trivial
    | operand left op => exact Nat.lt_of_lt_of_le h hle

theorem settle_of_rests {level : Nat} {frames : List Frame} (h : Rests level frames)
    (e : Element) : settle level frames e = (frames, e) := by
  rcases frames with _ | ⟨frame, frames⟩
  · rfl
  · cases frame with
    | parenthesis => rfl
    | operand left op =>
      have hlt : binding op < level := h
      rw [settle, if_neg (Nat.not_le.2 hlt)]

theorem settle_operand {level : Nat} {op : BinaryOp} (h : level ≤ binding op) (left right : Element)
    (frames : List Frame) : settle level (.operand left op :: frames) right =
      settle level frames (.ofShape (.binary left op right .void)) := by
  rw [settle, if_pos h]

-- Tokens of a tree are read to an operand and to frames that end in the tree as soon as anything
-- follows that binds no more tightly than the tree's level.
theorem readFrom_of_derives {level : Nat} {ts : List Token} {e : Element}
    (h : Derives level ts e) {frames : List Frame} (hrests : Rests level frames)
    (rest : List Token) :
    ∃ frames' e', readFrom frames none (ts ++ rest) = readFrom frames' (some e') rest ∧
      ∀ l ≤ level, settle l frames' e' = settle l frames e := by
  induction h generalizing frames rest with
  | name level text => exact ⟨frames, _, rfl, fun _ _ => rfl⟩
  | number level value => exact ⟨frames, _, rfl, fun _ _ => rfl⟩
  | @parentheses level ts e _ ih =>
    have hinside : Rests 0 (.parenthesis :: frames) := trivial
    obtain ⟨frames', e', hread, hsettle⟩ := ih hinside (.closing :: rest)
    have hclosed : settle 0 frames' e' = (.parenthesis :: frames, e) :=
      hsettle 0 (Nat.le_refl 0)
    refine ⟨frames, e, ?_, fun _ _ => rfl⟩
    calc readFrom frames none (.opening :: ts ++ [.closing] ++ rest)
      _ = readFrom (.parenthesis :: frames) none (ts ++ .closing :: rest) := by
        rw [List.append_assoc, List.cons_append, readFrom]
        rfl
      _ = readFrom frames' (some e') (.closing :: rest) := hread
      _ = readFrom frames (some e) rest := by rw [readFrom, hclosed]
  | @operation level op ls rs left right hle _ _ ihl ihr =>
    obtain ⟨frames₁, left', hread, hsettle⟩ := ihl (hrests.mono hle) (.operator op :: rs ++ rest)
    have hleft : settle (binding op) frames₁ left' = (frames, left) := by
      rw [hsettle _ (Nat.le_refl _), settle_of_rests (hrests.mono hle)]
    have hright : Rests (binding op + 1) (.operand left op :: frames) := Nat.lt_succ_self _
    obtain ⟨frames₂, right', hread', hsettle'⟩ := ihr hright rest
    refine ⟨frames₂, right', ?_, fun l hl => ?_⟩
    · calc readFrom frames none (ls ++ .operator op :: rs ++ rest)
        _ = readFrom frames₁ (some left') (.operator op :: (rs ++ rest)) := by
          rw [List.append_assoc]
          exact hread
        _ = readFrom (.operand left op :: frames) none (rs ++ rest) := by rw [readFrom, hleft]
        _ = readFrom frames₂ (some right') rest := hread'
    · have hop : l ≤ binding op := Nat.le_trans hl hle
      rw [hsettle' l (Nat.le_succ_of_le hop), settle_operand hop]

-- Tokens are derived from no more than one tree.
theorem Derives.unique {ts : List Token} {d e : Element} (hd : Derives 0 ts d)
    (he : Derives 0 ts e) : d = e := by
  have hread (x : Element) (hx : Derives 0 ts x) : readFrom [] none ts = some x := by
    have hfirst : Rests 0 [] := trivial
    obtain ⟨frames, x', hread, hsettle⟩ := readFrom_of_derives hx hfirst []
    rw [List.append_nil] at hread
    have hsettled : settle 0 frames x' = ([], x) := hsettle 0 (Nat.le_refl 0)
    rw [hread, readFrom, hsettled]
  exact Option.some.inj ((hread d hd).symm.trans (hread e he))

end Reading

theorem parses_of_lexes {text : String} {ts : List Token} {e : Element}
    (h : Lexes text.toList ts) (hd : Derives 0 ts e) : Parses text e := by
  have hread := h [] ends_nil
  rw [List.append_nil] at hread
  refine ⟨ts, ?_, hd⟩
  rw [hread, tokens?, Option.map_eq_map, Option.map_some, List.append_nil]

theorem Parses.unique {text : String} {d e : Element} (hd : Parses text d) (he : Parses text e) :
    d = e := by
  obtain ⟨ts, hts, hd⟩ := hd
  obtain ⟨us, hus, he⟩ := he
  obtain rfl := Option.some.inj (hts.symm.trans hus)
  exact hd.unique he

end JvmLift.Grammar
