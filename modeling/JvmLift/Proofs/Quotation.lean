import JvmLift.Proofs.Written
import Mathlib.Tactic.SplitIfs

namespace JvmLift

namespace Text

-- The value of a hexadecimal digit.
def hexValue? (c : Char) : Option Nat :=
  if '0' ≤ c ∧ c ≤ '9' then some (c.toNat - '0'.toNat)
  else if 'a' ≤ c ∧ c ≤ 'f' then some (c.toNat - 'a'.toNat + 10)
  else if 'A' ≤ c ∧ c ≤ 'F' then some (c.toNat - 'A'.toNat + 10)
  else none

-- The character with a code of four hexadecimal digits. A surrogate is none.
def charOfHex? (a b c d : Char) : Option Char := do
  let n := 16 * (16 * (16 * (← hexValue? a) + (← hexValue? b)) + (← hexValue? c)) + (← hexValue? d)
  if n.isValidChar then some (.ofNat n) else none

-- The character that another one stands for behind a backslash.
def escaped? : Char → Option Char
  | '"' => some '"'
  | '\\' => some '\\'
  | 'n' => some '\n'
  | 'r' => some '\r'
  | 't' => some '\t'
  | _ => none

-- The text that the characters between the quotes of a literal stand for.
def unescape? : List Char → Option (List Char)
  | [] => some []
  | ['\\'] => none
  | '\\' :: 'u' :: a :: b :: c :: d :: s =>
    (charOfHex? a b c d).bind fun x => (x :: ·) <$> unescape? s
  | '\\' :: c :: s => (escaped? c).bind fun x => (x :: ·) <$> unescape? s
  | c :: s => (c :: ·) <$> unescape? s

-- Whether a double quote among the characters would end the literal.
def hasBareQuote : List Char → Bool
  | [] => false
  | '\\' :: _ :: s => hasBareQuote s
  | c :: s => c = '"' || hasBareQuote s

def isLineTerminator (c : Char) : Bool :=
  c = '\n' || c = '\r'

-- Whether a character stands for itself inside a literal.
def isPlain (c : Char) : Bool :=
  c ≠ '\\' && c ≠ '"' && !isControl c

section Characters

variable {c : Char}

theorem isPlain_iff : isPlain c ↔ c ≠ '\\' ∧ c ≠ '"' ∧ isControl c = false := by
  simp [isPlain, and_assoc]

theorem isControl_of_isLineTerminator (h : isLineTerminator c) : isControl c := by
  simp only [isLineTerminator, Bool.or_eq_true, decide_eq_true_eq] at h
  rcases h with rfl | rfl <;> rfl

theorem unescape?_plain (h : isPlain c) (s : List Char) :
    unescape? (c :: s) = (c :: ·) <$> unescape? s := by
  obtain ⟨hslash, -, -⟩ := isPlain_iff.1 h
  rw [unescape?] <;> intros <;> exact hslash ‹_›

theorem hasBareQuote_plain (h : isPlain c) (s : List Char) :
    hasBareQuote (c :: s) = hasBareQuote s := by
  obtain ⟨hslash, hquote, -⟩ := isPlain_iff.1 h
  rw [hasBareQuote, decide_eq_false hquote, Bool.false_or]
  exact fun _ _ heq => absurd heq hslash

-- Four digits are enough for the code of a control character.
theorem toList_hexPadded_of_isControl (h : isControl c) :
    ∃ x y, (hexPadded 4 c.toNat).toList = ['0', '0', x, y] ∧
      charOfHex? '0' '0' x y = some c ∧ isPlain x ∧ isPlain y := by
  have hcodes : ∀ n < 0xa0,
      let x := Nat.digitChar (n / 16)
      let y := Nat.digitChar (n % 16)
      (hexPadded 4 n).toList = ['0', '0', x, y] ∧
        charOfHex? '0' '0' x y = some (.ofNat n) ∧ isPlain x ∧ isPlain y := by
    decide +kernel
  have hlt : c.toNat < 0xa0 := by
    simp only [isControl, Bool.or_eq_true, Bool.and_eq_true, decide_eq_true_eq] at h
    omega
  have hc := hcodes c.toNat hlt
  rw [Char.ofNat_toNat] at hc
  exact ⟨_, _, hc⟩

-- What is written for a character: one of the escapes, or the character itself.
theorem quoteChar_cases (c : Char) :
    (∃ x, quoteChar c = ['\\', x] ∧ x ≠ 'u' ∧ escaped? x = some c ∧ isControl x = false) ∨
    (∃ x y, quoteChar c = ['\\', 'u', '0', '0', x, y] ∧ charOfHex? '0' '0' x y = some c ∧
      isPlain x ∧ isPlain y) ∨
    (quoteChar c = [c] ∧ isPlain c) := by
  unfold quoteChar
  split_ifs with hquote hslash hline hreturn htab hcontrol
  · exact .inl ⟨'"', rfl, by decide, by rw [hquote]; rfl, rfl⟩
  · exact .inl ⟨'\\', rfl, by decide, by rw [hslash]; rfl, rfl⟩
  · exact .inl ⟨'n', rfl, by decide, by rw [hline]; rfl, rfl⟩
  · exact .inl ⟨'r', rfl, by decide, by rw [hreturn]; rfl, rfl⟩
  · exact .inl ⟨'t', rfl, by decide, by rw [htab]; rfl, rfl⟩
  · obtain ⟨x, y, hdigits, hvalue⟩ := toList_hexPadded_of_isControl hcontrol
    exact .inr (.inl ⟨x, y, by rw [hdigits], hvalue⟩)
  · exact .inr (.inr ⟨rfl, isPlain_iff.2 ⟨hslash, hquote, Bool.eq_false_iff.2 hcontrol⟩⟩)

end Characters

section Literals

theorem unescape?_quoteChar_append (c : Char) (s : List Char) :
    unescape? (quoteChar c ++ s) = (c :: ·) <$> unescape? s := by
  rcases quoteChar_cases c with ⟨x, hform, hx, hvalue, -⟩ | ⟨x, y, hform, hvalue, -⟩ |
    ⟨hform, hplain⟩
  · rw [hform, List.cons_append, List.cons_append, unescape?, hvalue]
    · rfl
    · exact fun _ _ _ _ _ heq => absurd heq hx
  · rw [hform]
    simp only [List.cons_append, unescape?, hvalue]
    rfl
  · rw [hform]
    exact unescape?_plain hplain s

theorem hasBareQuote_quoteChar_append (c : Char) (s : List Char) :
    hasBareQuote (quoteChar c ++ s) = hasBareQuote s := by
  rcases quoteChar_cases c with ⟨x, hform, -⟩ | ⟨x, y, hform, -, hx, hy⟩ | ⟨hform, hplain⟩
  · rw [hform]
    rfl
  · have hzero : isPlain '0' := rfl
    rw [hform]
    simp only [List.cons_append, hasBareQuote, List.nil_append]
    rw [hasBareQuote_plain hzero, hasBareQuote_plain hzero, hasBareQuote_plain hx,
      hasBareQuote_plain hy]
  · rw [hform]
    exact hasBareQuote_plain hplain s

theorem any_isControl_quoteChar (c : Char) : (quoteChar c).any isControl = false := by
  have hplain {d : Char} (h : isPlain d) : isControl d = false := (isPlain_iff.1 h).2.2
  rcases quoteChar_cases c with ⟨x, hform, -, -, hx⟩ | ⟨x, y, hform, -, hx, hy⟩ | ⟨hform, hc⟩
  · rw [hform, List.any_cons, List.any_cons, hx]
    rfl
  · simp only [hform, List.any_cons, hplain hx, hplain hy]
    rfl
  · rw [hform, List.any_cons, hplain hc]
    rfl

-- The characters of a text are read back from what is written between the quotes.
theorem unescape?_flatMap (s : List Char) : unescape? (s.flatMap quoteChar) = some s := by
  induction s with
  | nil => rfl
  | cons c s ih =>
    rw [List.flatMap_cons, unescape?_quoteChar_append, ih]
    rfl

theorem hasBareQuote_flatMap (s : List Char) : hasBareQuote (s.flatMap quoteChar) = false := by
  induction s with
  | nil => rfl
  | cons c s ih => rw [List.flatMap_cons, hasBareQuote_quoteChar_append, ih]

theorem any_isControl_flatMap (s : List Char) :
    (s.flatMap quoteChar).any isControl = false := by
  induction s with
  | nil => rfl
  | cons c s ih => rw [List.flatMap_cons, List.any_append, any_isControl_quoteChar, ih]; rfl

theorem quote_injective {s t : String} (h : quote s = quote t) : s = t := by
  have hbody := List.append_cancel_right (List.cons.inj (String.ofList_injective h)).2
  have hread := unescape?_flatMap s.toList
  rw [hbody, unescape?_flatMap] at hread
  exact String.toList_injective (Option.some.inj hread).symm

end Literals

end Text

namespace Render

open Text

-- A string constant is written between double quotes, on one line, such that undoing the escapes
-- gives the string back. So different strings are never written alike, wherever they are.
theorem string_quoted (s : String) :
    (∃ body, (quote s).toList = '"' :: body ++ ['"'] ∧ hasBareQuote body = false ∧
      body.any isLineTerminator = false ∧ body.any isControl = false ∧
      unescape? body = some s.toList) ∧
    ∀ (ctx : Context) (ty : JvmType) (stamp : Stamp),
      Registry.core.element ctx ⟨.constant (.string s) ty, stamp⟩ = .ok (quote s) ∧
      ∀ (t : String) (ctx' : Context) (ty' : JvmType) (stamp' : Stamp),
        Registry.core.element ctx ⟨.constant (.string s) ty, stamp⟩ =
          Registry.core.element ctx' ⟨.constant (.string t) ty', stamp'⟩ ↔ s = t := by
  constructor
  · have hcontrol := any_isControl_flatMap s.toList
    have hline : (s.toList.flatMap quoteChar).any isLineTerminator = false := by
      rw [List.any_eq_false] at hcontrol ⊢
      exact fun c hc h => hcontrol c hc (isControl_of_isLineTerminator h)
    exact ⟨_, String.toList_ofList, hasBareQuote_flatMap _, hline, hcontrol, unescape?_flatMap _⟩
  · intro ctx ty stamp
    refine ⟨Registry.element_constant _ ty stamp, fun t ctx' ty' stamp' => ?_⟩
    rw [Registry.element_constant, Registry.element_constant]
    constructor
    · exact fun h => quote_injective (Except.ok.inj h)
    · rintro rfl
      rfl

end Render

end JvmLift
