import JvmLift.Proofs.Source.Parsing
import JvmLift.Proofs.Source.Regular
import JvmLift.Proofs.Source.Writing

namespace JvmLift.Render

open Element Source Phrase

-- That the parentheses an element gets are those that its phrase has to get.
structure Fits (e : Element) (a : Phrase) : Prop where
  regular : a.IsRegular
  enclosed : e.isEnclosed = a.form.isEnclosed
  stands (level : Nat) : e.stands level = a.form.stands level

section Forms

variable {e : Element} {a : Phrase}

theorem Fits.front (h : Fits e a) : a.Front (e.enclosed a) := by
  rw [Phrase.Front, Element.enclosed, h.enclosed]
  refine h.regular.operand fun henclosed hform => ?_
  rw [hform] at henclosed
  cases henclosed

theorem Fits.beside (h : Fits e a) (level : Nat) : a.Beside level (e.atLevel level a) := by
  have hoperand : a.Operand (!a.form.stands level) (if !a.form.stands level then a.group else a) := by
    refine h.regular.operand fun hstands hform => ?_
    rw [hform] at hstands
    cases hstands
  rw [Phrase.Beside, atLevel, h.stands]
  cases hstands : a.form.stands level <;> rwa [hstands] at hoperand

theorem form_signed (leaf : Nat → Leaf) (value : Int) :
    (signed leaf value).form = .negation ∨
      ∃ n, (signed leaf value).form = (Phrase.leaf (leaf n)).form := by
  rw [signed]
  split
  · exact .inl rfl
  · exact .inr ⟨_, rfl⟩

theorem form_member (q? : Option Phrase) (name : String) : (member q? name).form = .primary := by
  cases q? <;> rfl

theorem form_call (q? : Option Phrase) (name : String) (args : List Phrase) :
    (call q? name args).form = .primary := by
  unfold call
  split <;> rfl

theorem form_create (c : ClassName) (args : List Phrase) : (create c args).form = .primary := by
  rw [create]
  split <;> rfl

theorem form_allocation (b : Base) (length : Phrase) (n : Nat) :
    (allocation b length n).form = .allocation := by
  cases n <;> rfl

theorem form_literal (t : TypeName) : t.literal.form = .primary := by
  obtain ⟨base, n⟩ := t
  cases base <;> rfl

theorem fits_of_form {f : Form} (h : a.IsRegular) (hform : a.form = f)
    (henclosed : e.isEnclosed = f.isEnclosed) (hstands : ∀ level, e.stands level = f.stands level) :
    Fits e a :=
  ⟨h, hform ▸ henclosed, fun level => hform ▸ hstands level⟩

theorem fits_constant {value : Constant} (ty : JvmType) (stamp : Stamp)
    (h : constantPhrase? value = some a) : Fits ⟨.constant value ty, stamp⟩ a := by
  obtain ⟨w, rfl⟩ | ⟨s, rfl⟩ | ⟨n, rfl⟩ | ⟨n, rfl⟩ | ⟨wrapper, name, hwrapper, hname, rfl⟩ :=
    constantPhrase?_cases h
  · exact ⟨isRegular_leaf rfl, rfl, fun _ => rfl⟩
  · exact ⟨isRegular_leaf rfl, rfl, fun _ => rfl⟩
  · have hregular : (signed .number n).IsRegular := isRegular_signed (fun _ => rfl) (fun _ => rfl) n
    obtain hform | ⟨k, hform⟩ := form_signed .number n
    · exact fits_of_form hregular hform rfl fun _ => rfl
    · exact fits_of_form hregular hform rfl fun _ => rfl
  · have hregular : (signed .long n).IsRegular := isRegular_signed (fun _ => rfl) (fun _ => rfl) n
    obtain hform | ⟨k, hform⟩ := form_signed .long n
    · exact fits_of_form hregular hform rfl fun _ => rfl
    · exact fits_of_form hregular hform rfl fun _ => rfl
  · refine fits_of_form (isRegular_member hname fun q hq => ?_) (form_member _ _) rfl fun _ => rfl
    obtain rfl := Option.some.inj hq
    have hleaf : (Phrase.leaf (.name wrapper)).IsRegular := isRegular_leaf hwrapper
    exact ⟨_, hleaf.front_of_isPath rfl⟩

end Forms

section Fitting

variable {ctx : Context} {depth : Nat} {env : List (UInt16 × Phrase)} {e : Element} {a : Phrase}

theorem front_qualifier {target : Option (Element × Phrase)} {c? : Option ClassName}
    (h : ∀ p ∈ target, Fits p.1 p.2) (hc : ∀ c ∈ c?, c.isSpelled) :
    ∀ q ∈ qualifier target c?, ∃ a : Phrase, a.Front q := by
  intro q hq
  cases target with
  | none =>
    obtain ⟨c, hc?, rfl⟩ := Option.map_eq_some_iff.1 hq
    obtain ⟨hregular, hpath⟩ := isRegular_className (hc c hc?)
    exact ⟨_, hregular.front_of_isPath hpath⟩
  | some p =>
    obtain rfl := Option.some.inj hq
    exact ⟨_, (h p rfl).front⟩

theorem forall_isRegular {args : List (Element × Phrase)} (h : ∀ p ∈ args, Fits p.1 p.2) :
    ∀ a ∈ args.map (·.2), a.IsRegular := by
  intro a ha
  obtain ⟨p, hp, rfl⟩ := List.mem_map.1 ha
  exact (h p hp).regular

-- Where nothing is inlined the kind of an element tells what it is written as.
theorem Writes.fits (h : Writes ctx false depth env e a) (henv : env = []) : Fits e a := by
  induction h with
  | constant ty stamp h => exact fits_constant ty stamp h
  | classOf ty stamp hs ht =>
    exact fits_of_form (isRegular_literal hs) (form_literal _) rfl fun _ => rfl
  | localVar v stamp hfree hname => exact ⟨isRegular_leaf hname, rfl, fun _ => rfl⟩
  | this v stamp hfree hname => exact ⟨isRegular_leaf rfl, rfl, fun _ => rfl⟩
  | bound v stamp h =>
    rw [henv] at h
    cases h
  | field stamp hname hq h ih =>
    have hfront := front_qualifier (fun p hp => ih p hp henv) hq.isSpelled
    exact fits_of_form (isRegular_member hname hfront) (form_member _ _) rfl fun _ => rfl
  | arrayLoad ty stamp ha hb iha ihb =>
    have hb := (ihb henv).regular
    exact ⟨(iha henv).front.isRegular_link (.inl rfl) rfl (isSpelled_of_isWhole hb.whole) hb.kept
      (Bool.and_eq_true_iff.1 hb.whole).2, rfl, fun _ => rfl⟩
  | binary op ty stamp ha hb iha ihb =>
    exact ⟨((iha henv).beside _).isRegular ((ihb henv).beside _), rfl, fun _ => rfl⟩
  | unary op ty stamp h ih =>
    cases op with
    | neg => exact ⟨(ih henv).front.isRegular_head rfl rfl nofun, rfl, fun _ => rfl⟩
    | not => exact ⟨(ih henv).front.isRegular_head rfl rfl nofun, rfl, fun _ => rfl⟩
  | @compare depth env left right a b stamp ha hb iha ihb =>
    have hclass : (Phrase.leaf (.name (comparisonClass left.ty))).IsRegular :=
      isRegular_leaf (isName_comparisonClass left.ty)
    refine fits_of_form (isRegular_call (by decide) (fun q hq => ?_) fun c hc => ?_)
      (form_call _ _ _) rfl fun _ => rfl
    · obtain rfl := Option.some.inj hq
      exact ⟨_, hclass.front_of_isPath rfl⟩
    · obtain rfl | rfl : c = a ∨ c = b := by simpa using hc
      · exact (iha henv).regular
      · exact (ihb henv).regular
  | cast stamp hs ht h ih =>
    exact ⟨(ih henv).front.isRegular_head hs rfl nofun, rfl, fun _ => rfl⟩
  | instanceOf stamp hs ht h ih =>
    exact ⟨(ih henv).front.isRegular_tail hs nofun nofun, rfl, fun _ => rfl⟩
  | call stamp hplain hname hq hargs ht ha iht iha =>
    have hfront := front_qualifier (fun p hp => iht p hp henv) hq.isSpelled
    exact fits_of_form
      (isRegular_call hname hfront (forall_isRegular fun p hp => iha p hp henv))
      (form_call _ _ _) rfl fun _ => rfl
  | newInstance signature stamp hs hc hargs ha iha =>
    exact fits_of_form (isRegular_create hs (forall_isRegular fun p hp => iha p hp henv))
      (form_create _ _) rfl fun _ => rfl
  | newArray ty stamp hs hb h ih =>
    exact fits_of_form (isRegular_allocation hs (ih henv).regular _) (form_allocation _ _ _) rfl
      fun _ => rfl
  | values ty length stamp hs ht hvalues hlist h ih =>
    have hregular := forall_isRegular fun p hp => ih p hp henv
    exact ⟨isRegular_closed nofun nofun hs
      (isSpelled_list? hlist fun b hb => isSpelled_of_isWhole (hregular b hb).whole)
      (kept_list? hlist hregular) rfl, rfl, fun _ => rfl⟩
  | @reference depth env l receiver c? q stamp hbacking hname hreceiver hc hq h ih =>
    obtain ⟨b, hb⟩ := front_qualifier (fun p hp => ih p hp henv) (fun c hc? => (hc c hc?).1) q hq
    split
    · exact ⟨hb.isRegular_tail rfl nofun nofun, rfl, fun _ => rfl⟩
    · next hkind => exact ⟨hb.isRegular_tail (hname hkind) nofun nofun, rfl, fun _ => rfl⟩
  | block stamp hbacking hmethod hbody hempty hnames =>
    exact ⟨isRegular_leaf hnames, rfl, fun _ => rfl⟩
  | lambda stamp hbacking hmethod hbody hvalue hnames h ih =>
    exact ⟨(ih rfl).regular.isRegular_lambda hnames, rfl, fun _ => rfl⟩
  | boxed stamp hin => cases hin
  | boolean stamp hin => cases hin
  | accessor stamp hin => cases hin

end Fitting

-- Where nothing is inlined the text of an expression is read as that expression, and then as no
-- other one, exactly if all of its operands are kept in their places.
theorem operands_parse_iff (ctx : Context) (hb : ctx.bindings = []) {e : Element} {a : Phrase}
    (h : Writes ctx false ctx.depth [] e a) :
    ∃ text, Registry.core.element ctx e = .ok text ∧
      (Parses text a.ungrouped ↔ a.ungrouped.isKept) ∧
      (a.ungrouped.isKept → ∀ t, Parses text t ↔ t = a.ungrouped) := by
  rw [← (h.fits rfl).regular.kept]
  exact ⟨a.text, h.element_eq hb, parses_text_iff (h.isWhole nofun)⟩

section Examples

def classType : JvmType := .reference "A"

def classTypeName : Source.TypeName := ⟨.named ⟨"A", []⟩, 0⟩

-- A variable that holds an object.
def object (name : String) (slot : UInt16) : Element :=
  ofShape (.localVar ⟨name, classType, slot⟩)

def typeTest (e : Element) : Element :=
  ofShape (.instanceOf e classType)

variable {ctx : Context} {depth : Nat} {e : Element} {a : Phrase}

theorem writes_object {name : String} (h : isName name) (slot : UInt16) :
    Writes ctx false depth [] (object name slot) (.leaf (.name name)) :=
  .localVar _ _ rfl h

theorem writes_typeTest (h : Writes {} false depth [] e a) :
    Writes {} false depth [] (typeTest e) (.tail (e.enclosed a) (.instanceOf classTypeName)) :=
  .instanceOf _ (by decide) (by decide +kernel) h

def casted : Element :=
  ofShape (.cast (object "y" 1) classType)

def castedPhrase : Phrase :=
  .head (.cast classTypeName) (.leaf (.name "y"))

def castedField : FieldAccess Element :=
  { target := some casted, owner := classType, ty := .boolean, name := "f" }

-- The test of a type and a member of what is cast are compared.
def comparison : Element :=
  ofShape (.binary (typeTest (object "x" 0)) .eq (ofShape (.field castedField)) .boolean)

def comparisonPhrase : Phrase :=
  .link (.tail (.leaf (.name "x")) (.instanceOf classTypeName)) (.operator .eq)
    (.tail castedPhrase.group (.field "f"))

theorem operands_parse_iff_comparison :
    Writes {} false (Context.depth {}) [] comparison comparisonPhrase ∧
      Registry.core.element {} comparison = .ok "x instanceof A == ((A) y).f" ∧
      ∀ t, Parses "x instanceof A == ((A) y).f" t ↔ t = comparisonPhrase.ungrouped := by
  have hcast : Writes {} false 0 [] casted castedPhrase :=
    .cast _ (by decide) (by decide +kernel) (writes_object (by decide) 1)
  have hfield : Writes {} false 0 [] (ofShape (.field castedField))
      (.member (qualifier (some (casted, castedPhrase)) none) "f") := by
    refine .field _ (by decide) ⟨rfl, rfl⟩ ?_
    rintro p ⟨⟩
    exact hcast
  have h : Writes {} false (Context.depth {}) [] comparison comparisonPhrase :=
    .binary .eq _ _ (writes_typeTest (writes_object (by decide) 0)) hfield
  have htext : comparisonPhrase.text = "x instanceof A == ((A) y).f" := by decide +kernel
  obtain ⟨text, helement, -, hunique⟩ := operands_parse_iff {} rfl h
  obtain rfl : "x instanceof A == ((A) y).f" = text :=
    Except.ok.inj ((htext ▸ h.element_eq rfl).symm.trans helement)
  exact ⟨h, helement, hunique (by decide)⟩

-- The result of a test behind another operand, and what a test of the result of both is.
def joinedTest : Element :=
  ofShape (.binary (object "s" 0) .plus (typeTest (object "x" 1)) classType)

def joinedPhrase : Phrase :=
  .link (.leaf (.name "s")) (.operator .plus)
    (.tail (.leaf (.name "x")) (.instanceOf classTypeName))

def testedPhrase : Phrase :=
  .tail (.link (.leaf (.name "s")) (.operator .plus) (.leaf (.name "x"))) (.instanceOf classTypeName)

-- An element of a new array, and an array with a second length.
def freshElement : Element :=
  ofShape (.arrayLoad (ofShape (.newArray (.array .int) .int (int 3) [])) (int 0) .int)

def elementPhrase : Phrase :=
  .link (.head (.array (.primitive .int)) (.leaf (.number 3))) .index (.leaf (.number 0))

def matrixPhrase : Phrase :=
  .link (.head (.array (.primitive .int)) (.leaf (.number 3))) .dimension (.leaf (.number 0))

-- Two operands that are not kept: another expression has the text.
theorem operands_regroup :
    Registry.core.element {} joinedTest = .ok "s + x instanceof A" ∧
      ¬Parses "s + x instanceof A" joinedPhrase ∧ Parses "s + x instanceof A" testedPhrase ∧
    Registry.core.element {} freshElement = .ok "new int[3][0]" ∧
      ¬Parses "new int[3][0]" elementPhrase ∧ Parses "new int[3][0]" matrixPhrase := by
  have hjoined : Writes {} false (Context.depth {}) [] joinedTest joinedPhrase :=
    .binary .plus _ _ (writes_object (by decide) 0) (writes_typeTest (writes_object (by decide) 1))
  have hfresh : Writes {} false (Context.depth {}) [] freshElement elementPhrase := by
    have harray : Writes {} false 0 [] (ofShape (.newArray (.array .int) .int (int 3) []))
        (.allocation (.primitive .int) (.leaf (.number 3)) 0) :=
      .newArray _ _ rfl (by decide +kernel) (.constant _ _ rfl)
    exact .arrayLoad _ _ harray (.constant _ _ rfl)
  have hjoinedText : joinedPhrase.text = "s + x instanceof A" := by decide +kernel
  have htestedText : testedPhrase.text = "s + x instanceof A" := by decide +kernel
  have helementText : elementPhrase.text = "new int[3][0]" := by decide +kernel
  have hmatrixText : matrixPhrase.text = "new int[3][0]" := by decide +kernel
  refine ⟨hjoinedText ▸ hjoined.element_eq rfl, fun h => ?_, ?_, helementText ▸ hfresh.element_eq rfl,
    fun h => ?_, ?_⟩
  · rw [← hjoinedText] at h
    exact absurd ((parses_text_iff (by decide)).1.1 h) (by decide)
  · rw [← htestedText]
    exact (parses_text_iff (by decide)).1.2 (by decide)
  · rw [← helementText] at h
    exact absurd ((parses_text_iff (by decide)).1.1 h) (by decide)
  · rw [← hmatrixText]
    exact (parses_text_iff (by decide)).1.2 (by decide)

end Examples

end JvmLift.Render
