import JvmLift.Proofs.Effect
import JvmLift.Proofs.Source.Parsing
import JvmLift.Proofs.Source.Writing

namespace JvmLift.Render

open Element Source

-- The text of an expression with calls of wrappers and accessors in it is read as the expression
-- without them, and then as no other one, exactly if whatever is written for such a call stands
-- where it may without parentheses.
theorem inlined_parses_iff (ctx : Context) (hb : ctx.bindings = []) {e : Element} {a : Phrase}
    (h : Writes ctx true ctx.depth [] e a) :
    ∃ text, Registry.core.element ctx e = .ok text ∧
      (Parses text a.ungrouped ↔ a.isGrouped) ∧
      (a.isGrouped → ∀ t, Parses text t ↔ t = a.ungrouped) :=
  ⟨a.text, h.element_eq hb, parses_text_iff (h.isWhole nofun)⟩

section Calls

def operation (left : Element) (op : BinaryOp) (right : Element) : Element :=
  ofShape (.binary left op right .int)

def integerType : JvmType := .reference "java/lang/Integer"

-- An int as an object.
def boxing (e : Element) : Call Element :=
  { owner := integerType, name := "valueOf", signature := ⟨[.int], integerType⟩, target := none
    args := [e], ty := integerType }

-- The int in an object.
def unboxing (e : Element) : Call Element :=
  { owner := integerType, name := "intValue", signature := ⟨[], .int⟩, target := some e, args := []
    ty := .int }

-- The sum of two private values, for other classes.
def addition : Method :=
  { className := "A", name := "access$000", descriptor := "(II)I", signature := ⟨[.int, .int], .int⟩
    flags := 0x1008
    code := [Opcode.iload0, Opcode.iload1, Opcode.iadd, Opcode.ireturn]
    locals := [⟨"x", .int, 0, 0, 4⟩, ⟨"y", .int, 1, 0, 4⟩] }

def additionCall (left right : Element) : Call Element :=
  { owner := .reference "A", name := "access$000", signature := ⟨[.int, .int], .int⟩
    target := none, args := [left, right], ty := .int }

def additionContext : Context :=
  { resolver := some ⟨[{
      name := "A", superName := none, sourceFile := none, flags := 0, pool := .empty
      bootstrapMethods := [], methods := [addition] }]⟩ }

end Calls

-- What the sum is made of, with the positions in the code.
def additionValue : Element :=
  ⟨.binary ⟨.localVar ⟨"x", .int, 0⟩, { pc := some 0 }⟩ .plus
    ⟨.localVar ⟨"y", .int, 1⟩, { pc := some 1 }⟩ .int, { pc := some 2 }⟩

-- The two variables whose sum is all that a body returns, and the stamps.
def returnedSum? : List Element → Option ((LocalRef × LocalRef) × Stamp × Stamp × Stamp × Stamp)
  | [⟨.returnValue ⟨.binary ⟨.localVar x, p⟩ .plus ⟨.localVar y, q⟩ .int, r⟩, s⟩] =>
    some ((x, y), p, q, r, s)
  | _ => none

theorem returnedSum?_eq_some {body : List Element} {x y : LocalRef} {p q r s : Stamp}
    (h : returnedSum? body = some ((x, y), p, q, r, s)) :
    body = [⟨.returnValue ⟨.binary ⟨.localVar x, p⟩ .plus ⟨.localVar y, q⟩ .int, r⟩, s⟩] := by
  unfold returnedSum? at h
  split at h
  · cases h
    rfl
  · cases h

theorem decompile_addition :
    addition.decompile = .ok [⟨.returnValue additionValue, { pc := some 3 }⟩] := by
  have hsome : (addition.decompile.toOption.map returnedSum?) =
      some (some ((⟨"x", .int, 0⟩, ⟨"y", .int, 1⟩), { pc := some 0 }, { pc := some 1 },
        { pc := some 2 }, { pc := some 3 })) := by decide +kernel
  obtain ⟨body, hbody, hsum⟩ := exists_eq_ok_of_toOption hsome
  rw [hbody, returnedSum?_eq_some hsum]
  rfl

theorem accessed?_addition (left right : Element) :
    accessed? additionContext (additionCall left right) = some (addition, additionValue) := by
  have hmethod : additionContext.method? (.reference "A") "access$000" "(II)I" = some addition := rfl
  have hdescriptor : (additionCall left right).signature.descriptor = "(II)I" := rfl
  rw [accessed?, hdescriptor]
  show (additionContext.method? (.reference "A") "access$000" "(II)I").bind _ = _
  rw [hmethod, Option.bind_some, decompile_addition]

section Examples

-- A value that is put into an object and taken out of it.
def reboxed (e : Element) : Element :=
  ofShape (.call (unboxing (ofShape (.call (boxing e)))))

def operated (a : Phrase) (op : BinaryOp) (b : Phrase) : Phrase :=
  .link a (.operator op) b

def named (name : String) : Phrase :=
  .leaf (.name name)

variable {ctx : Context} {depth : Nat} {e : Element} {a : Phrase}

theorem writes_argument {name : String} (h : isName name) (slot : UInt16) :
    Writes ctx true depth [] (argument name slot) (named name) :=
  .localVar _ _ rfl h

theorem writes_reboxed (h : Writes ctx true depth [] e a) :
    Writes ctx true depth [] (reboxed e) a :=
  .boxed _ rfl rfl rfl (.boxed _ rfl rfl rfl h)

theorem writes_addition {left right : Element} {a b : Phrase}
    (ha : Writes additionContext true 1 [] left a)
    (hb : Writes additionContext true 1 [] right b) :
    Writes additionContext true 1 [] (ofShape (.call (additionCall left right)))
      (operated (left.enclosed a) .plus (right.enclosed b)) := by
  have hargs : ∀ p ∈ [(left, a), (right, b)], Writes additionContext true 1 [] p.1 p.2 := by
    simp [ha, hb]
  have haccessor : isAccessorCall (additionCall left right) := by
    have hname : "access$".isPrefixOf "access$000" = true := by decide +kernel
    exact Bool.and_eq_true_iff.2 ⟨hname, rfl⟩
  exact .accessor _ rfl rfl haccessor (accessed?_addition left right) rfl hargs
    (.binary .plus _ _ (.bound _ _ rfl) (.bound _ _ rfl))

-- A product is an argument of an accessor, and so is a value that has been an object.
def mixedSum : Element :=
  operation (ofShape (.call (additionCall
    (operation (argument "a" 0) .multiply (argument "b" 1)) (reboxed (argument "c" 2)))))
    .plus (argument "d" 3)

def mixedPhrase : Phrase :=
  operated (operated (operated (named "a") .multiply (named "b")).group .plus (named "c")) .plus
    (named "d")

theorem inlined_parses_iff_mixedSum :
    Writes additionContext true additionContext.depth [] mixedSum mixedPhrase ∧
      Registry.core.element additionContext mixedSum = .ok "(a * b) + c + d" ∧
      ∀ t, Parses "(a * b) + c + d" t ↔ t = mixedPhrase.ungrouped := by
  have h : Writes additionContext true additionContext.depth [] mixedSum mixedPhrase :=
    .binary .plus _ _
      (writes_addition
        (.binary .multiply _ _ (writes_argument (by decide) 0) (writes_argument (by decide) 1))
        (writes_reboxed (writes_argument (by decide) 2)))
      (writes_argument (by decide) 3)
  have htext : mixedPhrase.text = "(a * b) + c + d" := by decide +kernel
  obtain ⟨text, helement, -, hunique⟩ := inlined_parses_iff additionContext rfl h
  obtain rfl : "(a * b) + c + d" = text :=
    Except.ok.inj ((htext ▸ h.element_eq rfl).symm.trans helement)
  exact ⟨h, helement, hunique (by decide)⟩

def sumPhrase : Phrase :=
  operated (named "a") .plus (named "b")

-- A sum that has been put into an object, or that an accessor returns, is no factor any more.
theorem inlined_sum_regroups :
    (∀ e ∈ [reboxed (operation (argument "a" 0) .plus (argument "b" 1)),
        ofShape (.call (additionCall (argument "a" 0) (argument "b" 1)))],
      Registry.core.element additionContext (operation e .multiply (argument "c" 2)) =
        .ok "a + b * c") ∧
    ¬Parses "a + b * c" (operated sumPhrase .multiply (named "c")) ∧
    Parses "a + b * c" (operated (named "a") .plus (operated (named "b") .multiply (named "c"))) := by
  have htext : (operated sumPhrase .multiply (named "c")).text = "a + b * c" := by decide +kernel
  have ha : Writes additionContext true 1 [] (argument "a" 0) (named "a") :=
    writes_argument (by decide) 0
  have hb : Writes additionContext true 1 [] (argument "b" 1) (named "b") :=
    writes_argument (by decide) 1
  have hc : Writes additionContext true 1 [] (argument "c" 2) (named "c") :=
    writes_argument (by decide) 2
  have hproduct (e : Element) (h : Writes additionContext true 1 [] e sumPhrase)
      (hstands : e.stands (Grammar.binding .multiply)) :
      Registry.core.element additionContext (operation e .multiply (argument "c" 2)) =
        .ok "a + b * c" := by
    have hwrites : Writes additionContext true 1 [] (operation e .multiply (argument "c" 2)) _ :=
      .binary .multiply _ _ h hc
    rw [atLevel, if_pos hstands] at hwrites
    rw [← htext]
    exact hwrites.element_eq rfl
  refine ⟨?_, ?_, ?_⟩
  · simp only [List.forall_mem_cons]
    exact ⟨hproduct _ (writes_reboxed (.binary .plus _ _ ha hb)) rfl,
      hproduct _ (writes_addition ha hb) rfl, List.forall_mem_nil _⟩
  · rw [← htext]
    exact fun h => absurd ((parses_text_iff (by decide)).1.1 h) (by decide)
  · have hsame : (operated (named "a") .plus (operated (named "b") .multiply (named "c"))).text =
        "a + b * c" := by decide +kernel
    rw [← hsame]
    exact (parses_text_iff (by decide)).1.2 (by decide)

end Examples

end JvmLift.Render
